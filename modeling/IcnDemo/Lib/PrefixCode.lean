/-
# Decoders that read from the left

A decoder gives the value it reads and what is left. It is `Framed` if what it
reads depends on the part read only: then a code followed by anything is read
back (`Framed.append`), and no code is the start of another (`Framed.unique`).
Taking a fixed number of symbols is framed, and decoders made of framed ones are
(`framed_andThen`). A text is cut into values one after another in one way
(`Cut.unique`), also if it comes in parts (`Cut.append`).
-/
import Mathlib.Data.List.Forall2
import Mathlib.Tactic.Common

namespace Lib
namespace PrefixCode

variable {α β γ : Type}

/-- The value read and what is left. -/
abbrev Decoder (β α : Type) := List β → Option (α × List β)

/-- The text is read to its end, as the value. -/
def Reads (d : Decoder β α) (w : List β) (a : α) : Prop := d w = some (a, [])

/-- What is read depends on the part read only. -/
def Framed (d : Decoder β α) : Prop :=
  ∀ (bs : List β) (a : α) (rest : List β),
    d bs = some (a, rest) ↔ ∃ w, bs = w ++ rest ∧ Reads d w a

theorem Framed.append {d : Decoder β α} (hd : Framed d) {w : List β} {a : α} (h : Reads d w a)
    (rest : List β) : d (w ++ rest) = some (a, rest) :=
  (hd _ _ _).mpr ⟨w, rfl, h⟩

theorem Framed.length_le {d : Decoder β α} (hd : Framed d) {bs rest : List β} {a : α}
    (h : d bs = some (a, rest)) : rest.length ≤ bs.length := by
  obtain ⟨w, rfl, -⟩ := (hd _ _ _).mp h
  simp

/-- No code is the start of another. -/
theorem Framed.unique {d : Decoder β α} (hd : Framed d) {w w' rest rest' : List β} {a a' : α}
    (h : Reads d w a) (h' : Reads d w' a') (heq : w ++ rest = w' ++ rest') :
    w = w' ∧ a = a' ∧ rest = rest' := by
  have hr := hd.append h rest
  rw [heq, hd.append h' rest'] at hr
  obtain ⟨rfl, rfl⟩ := Prod.mk.inj (Option.some.inj hr)
  exact ⟨List.append_cancel_right heq, rfl, rfl⟩

/-! ### Decoders made of decoders -/

/-- Reads `n` symbols. -/
def takeN (n : ℕ) : Decoder β (List β) := fun bs =>
  if bs.length < n then none else some (bs.take n, bs.drop n)

/-- Reads a value, then what the value says. -/
def andThen (d : Decoder β α) (f : α → Decoder β γ) : Decoder β γ := fun bs =>
  (d bs).bind fun r => f r.1 r.2

/-- Reads nothing: the value, if there is one. -/
def ofOption (o : Option α) : Decoder β α := fun bs => o.map fun a => (a, bs)

theorem reads_takeN {n : ℕ} {w a : List β} : Reads (takeN n) w a ↔ w.length = n ∧ a = w := by
  unfold Reads takeN
  split
  · rename_i h
    simp
    omega
  · rename_i h
    simp only [Option.some.injEq, Prod.mk.injEq, List.drop_eq_nil_iff]
    constructor
    · rintro ⟨rfl, hle⟩
      exact ⟨by omega, List.take_of_length_le hle⟩
    · rintro ⟨hlen, rfl⟩
      exact ⟨List.take_of_length_le (by omega), by omega⟩

theorem framed_takeN (n : ℕ) : Framed (takeN n : Decoder β (List β)) := by
  intro bs a rest
  simp only [reads_takeN]
  unfold takeN
  split
  · rename_i h
    constructor
    · intro h'; cases h'
    · rintro ⟨w, rfl, hlen, -⟩
      rw [List.length_append] at h
      omega
  · rename_i h
    simp only [Option.some.injEq, Prod.mk.injEq]
    constructor
    · rintro ⟨rfl, rfl⟩
      exact ⟨bs.take n, (List.take_append_drop n bs).symm, by simp; omega, rfl⟩
    · rintro ⟨w, rfl, rfl, rfl⟩
      simp

@[simp] theorem reads_ofOption {o : Option α} {w : List β} {a : α} :
    Reads (ofOption o) w a ↔ o = some a ∧ w = [] := by
  unfold Reads ofOption
  cases o <;> simp

theorem framed_ofOption (o : Option α) : Framed (ofOption o : Decoder β α) := by
  intro bs a rest
  simp only [reads_ofOption]
  unfold ofOption
  cases o <;> simp [eq_comm, and_comm]

/-- A decoder that looks at the first symbol and goes on with the rest. -/
theorem framed_of_head {d : Decoder β α} (hnil : d [] = none)
    (hcons : ∀ b, Framed fun bs => d (b :: bs)) : Framed d := by
  intro bs a rest
  cases bs with
  | nil =>
    rw [hnil]
    constructor
    · intro h; cases h
    · rintro ⟨w, heq, hw⟩
      obtain ⟨rfl, -⟩ := List.append_eq_nil_iff.mp heq.symm
      rw [Reads, hnil] at hw
      cases hw
  | cons b bs =>
    constructor
    · intro h
      obtain ⟨w, rfl, hw⟩ := (hcons b bs a rest).mp h
      exact ⟨b :: w, rfl, hw⟩
    · rintro ⟨w, heq, hw⟩
      cases w with
      | nil =>
        rw [Reads, hnil] at hw
        cases hw
      | cons b' w =>
        obtain ⟨rfl, rfl⟩ := List.cons.inj heq
        exact (hcons b).append hw rest

theorem reads_andThen {d : Decoder β α} {f : α → Decoder β γ} (hd : Framed d) {w : List β} {c : γ} :
    Reads (andThen d f) w c ↔ ∃ u v a, w = u ++ v ∧ Reads d u a ∧ Reads (f a) v c := by
  constructor
  · intro h
    obtain ⟨⟨a, v⟩, hr, hv⟩ := Option.bind_eq_some_iff.mp h
    obtain ⟨u, rfl, hu⟩ := (hd _ _ _).mp hr
    exact ⟨u, v, a, rfl, hu, hv⟩
  · rintro ⟨u, v, a, rfl, hu, hv⟩
    unfold Reads andThen
    rw [hd.append hu]
    exact hv

theorem framed_andThen {d : Decoder β α} {f : α → Decoder β γ} (hd : Framed d)
    (hf : ∀ a, Framed (f a)) : Framed (andThen d f) := by
  intro bs c rest
  simp only [reads_andThen hd]
  constructor
  · intro h
    obtain ⟨⟨a, v⟩, hr, hv⟩ := Option.bind_eq_some_iff.mp h
    obtain ⟨u, rfl, hu⟩ := (hd _ _ _).mp hr
    obtain ⟨v', rfl, hv'⟩ := (hf a _ _ _).mp hv
    exact ⟨u ++ v', (List.append_assoc u v' rest).symm, u, v', a, rfl, hu, hv'⟩
  · rintro ⟨w, rfl, u, v, a, rfl, hu, hv⟩
    unfold andThen
    rw [List.append_assoc, hd.append hu]
    exact (hf a).append hv rest

/-- A value together with the code it was read from. -/
def withCode (d : Decoder β α) : Decoder β (α × List β) := fun bs =>
  (d bs).map fun r => ((r.1, bs.take (bs.length - r.2.length)), r.2)

theorem withCode_eq_some_iff {d : Decoder β α} (hd : Framed d) {bs rest : List β}
    {r : α × List β} :
    withCode d bs = some (r, rest) ↔ bs = r.2 ++ rest ∧ Reads d r.2 r.1 := by
  unfold withCode
  constructor
  · intro h
    obtain ⟨⟨a, rest'⟩, hr, heq⟩ := Option.map_eq_some_iff.mp h
    obtain ⟨rfl, rfl⟩ := Prod.mk.inj heq
    obtain ⟨w, rfl, hw⟩ := (hd _ _ _).mp hr
    simpa using hw
  · rintro ⟨rfl, hr⟩
    rw [hd.append hr]
    simp

/-! ### Value after value -/

/-- A text is cut into values, up to a rest that does not start with one. -/
inductive Cut (d : Decoder β α) : List β → List α → List β → Prop
  | stop {bs : List β} : d bs = none → Cut d bs [] bs
  | read {bs rest rest' : List β} {a : α} {as : List α} :
      d bs = some (a, rest) → Cut d rest as rest' → Cut d bs (a :: as) rest'

theorem Cut.unique {d : Decoder β α} {bs rest rest' : List β} {as as' : List α}
    (h : Cut d bs as rest) (h' : Cut d bs as' rest') : as = as' ∧ rest = rest' := by
  induction h generalizing as' rest' with
  | stop hnone =>
    cases h' with
    | stop => exact ⟨rfl, rfl⟩
    | read hsome =>
      rw [hnone] at hsome
      cases hsome
  | read hsome _ ih =>
    cases h' with
    | stop hnone =>
      rw [hnone] at hsome
      cases hsome
    | read hsome' hcut =>
      rw [hsome] at hsome'
      obtain ⟨rfl, rfl⟩ := Prod.mk.inj (Option.some.inj hsome')
      obtain ⟨rfl, rfl⟩ := ih hcut
      exact ⟨rfl, rfl⟩

theorem Cut.of_nil {d : Decoder β α} {bs rest : List β} (h : Cut d bs [] rest) : rest = bs := by
  cases h
  rfl

theorem Cut.stuck {d : Decoder β α} {bs rest : List β} {as : List α} (h : Cut d bs as rest) :
    d rest = none := by
  induction h with
  | stop hnone => exact hnone
  | read _ _ ih => exact ih

/-- What is cut off a text is codes, one after another. -/
theorem Cut.codes {d : Decoder β α} (hd : Framed d) {bs rest : List β} {as : List α}
    (h : Cut d bs as rest) : ∃ ws, bs = ws.flatten ++ rest ∧ List.Forall₂ (Reads d) ws as := by
  induction h with
  | stop => exact ⟨[], rfl, .nil⟩
  | read hsome _ ih =>
    obtain ⟨w, rfl, hw⟩ := (hd _ _ _).mp hsome
    obtain ⟨ws, rfl, hall⟩ := ih
    exact ⟨w :: ws, by simp, .cons hw hall⟩

theorem cut_codes {d : Decoder β α} (hd : Framed d) {ws : List (List β)} {as : List α}
    {rest : List β} (h : List.Forall₂ (Reads d) ws as) (hrest : d rest = none) :
    Cut d (ws.flatten ++ rest) as rest := by
  induction h with
  | nil => exact .stop hrest
  | cons hw _ ih =>
    rw [List.flatten_cons, List.append_assoc]
    exact .read (hd.append hw _) ih

/-- **A text that comes in parts** is cut as it comes: what a part leaves is cut again with
the part that follows. -/
theorem Cut.append {d : Decoder β α} (hd : Framed d) {bs rest bs' rest' : List β}
    {as as' : List α} (h : Cut d bs as rest) (h' : Cut d (rest ++ bs') as' rest') :
    Cut d (bs ++ bs') (as ++ as') rest' := by
  induction h with
  | stop => exact h'
  | read hsome _ ih =>
    obtain ⟨w, rfl, hw⟩ := (hd _ _ _).mp hsome
    rw [List.append_assoc]
    exact .read (hd.append hw _) (ih h')

/-- The values at the start of a text and what is left, with fuel for the values. -/
def cut (d : Decoder β α) : ℕ → List β → List α × List β
  | 0, bs => ([], bs)
  | n + 1, bs =>
    match d bs with
    | none => ([], bs)
    | some (a, rest) =>
      let r := cut d n rest
      (a :: r.1, r.2)

end PrefixCode
end Lib
