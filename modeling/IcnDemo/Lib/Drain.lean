/-
# A loop that takes entries out of a list its handlers append to

`for (i = begin; i != end; )` over a linked list: an entry with a property is erased,
the iterator moves on to the next entry, and a handler is called, which may append
entries. An entry appended while the iterator stands before the end is reached by the
same loop; one appended when it has come to the end is not.

What the loop does is the handlers' calls on the entries it takes out: those of the
list in order, and some of those appended (`drain_calls`). Where handlers append no
entry with the property it ends (`drain_ends`). Where each appends one, it ends only if
there is one entry or none to begin with (`drain_polling_iff`).
-/
import IcnDemo.Lib.Loop
import Mathlib.Data.List.Perm.Basic

namespace Lib
namespace Drain

open Loop

variable {α σ ε : Type}

/-- Why a loop has no result. -/
inductive Failure (ε : Type)
  /-- A handler throws. -/
  | thrown (e : ε)
  /-- It has not ended after so many turns. -/
  | turns

section

variable (p : α → Bool) (handler : σ → α → Except ε (σ × List α))

/-- The loop, from the iterator at `cursor`. -/
def drain : ℕ → ℕ → List α → σ → Except (Failure ε) (List α × σ)
  | 0, _, _, _ => .error .turns
  | turns + 1, cursor, l, s =>
    match l[cursor]? with
    | none => .ok (l, s)
    | some a =>
      if p a then
        let l := l.eraseIdx cursor
        match handler s a with
        | .error e => .error (.thrown e)
        | .ok (s, new) =>
          -- the iterator that `erase` has returned is `end()`, before and after the call
          if cursor = l.length then .ok (l ++ new, s) else drain turns cursor (l ++ new) s
      else drain turns (cursor + 1) l s

/-- The handler called on entries in turn, and all it appends. -/
def calls : List α → σ → Except ε (σ × List α)
  | [], s => .ok (s, [])
  | a :: as, s => do
    let r ← handler s a
    let r' ← calls as r.1
    .ok (r'.1, r.2 ++ r'.2)

end

variable {p : α → Bool} {handler : σ → α → Except ε (σ × List α)}

/-! ### One turn -/

theorem drain_end (turns : ℕ) (visited : List α) (s : σ) :
    drain p handler (turns + 1) visited.length visited s = .ok (visited, s) := by
  simp [drain]

theorem drain_skip {a : α} (ha : p a = false) (turns : ℕ) (visited rest : List α) (s : σ) :
    drain p handler (turns + 1) visited.length (visited ++ a :: rest) s =
      drain p handler turns (visited ++ [a]).length (visited ++ [a] ++ rest) s := by
  rw [drain]
  simp [ha]

theorem drain_take {a : α} (ha : p a = true) {s s' : σ} {new : List α}
    (h : handler s a = .ok (s', new)) (turns : ℕ) (visited rest : List α) :
    drain p handler (turns + 1) visited.length (visited ++ a :: rest) s =
      if rest = [] then .ok (visited ++ new, s')
      else drain p handler turns visited.length (visited ++ (rest ++ new)) s' := by
  have herase : (visited ++ a :: rest).eraseIdx visited.length = visited ++ rest := by
    rw [List.eraseIdx_append_of_length_le (Nat.le_refl _)]
    simp
  rw [drain]
  simp only [List.getElem?_append_right (Nat.le_refl _), Nat.sub_self, List.getElem?_cons_zero, ha,
    ↓reduceIte, herase, h, List.append_assoc]
  by_cases hrest : rest = []
  · simp [hrest]
  · have hpos : 0 < rest.length := List.length_pos_iff.mpr hrest
    have hne : visited.length ≠ (visited ++ rest).length := by
      rw [List.length_append]
      omega
    rw [if_neg hne, if_neg hrest]

theorem drain_throws {a : α} (ha : p a = true) {s : σ} {e : ε} (h : handler s a = .error e)
    (turns : ℕ) (visited rest : List α) :
    drain p handler (turns + 1) visited.length (visited ++ a :: rest) s = .error (.thrown e) := by
  rw [drain]
  simp [ha, h]

/-! ### What the loop does -/

/-- **The loop is the handler's calls** on the entries with the property, in order, and
then on some entries that the calls have appended; the others stay. -/
theorem drain_calls : ∀ {turns : ℕ} {visited rest l' : List α} {s s' : σ},
    drain p handler turns visited.length (visited ++ rest) s = .ok (l', s') →
    ∃ extra more new, calls handler (rest.filter p ++ extra) s = .ok (s', new) ∧
      l' = visited ++ (rest.filter (fun a => !p a) ++ more) ∧ (more ++ extra).Perm new ∧
      more.Sublist new ∧ extra.Sublist new ∧ ∀ a ∈ extra, p a = true
  | 0, _, _, _, _, _, h => by simp [drain] at h
  | turns + 1, visited, [], l', s, s', h => by
    rw [List.append_nil, drain_end] at h
    obtain ⟨rfl, rfl⟩ := Prod.mk.inj (Except.ok.inj h)
    exact ⟨[], [], [], rfl, by simp, by simp, by simp, by simp, by simp⟩
  | turns + 1, visited, a :: rest, l', s, s', h => by
    by_cases ha : p a = true
    · cases hcall : handler s a with
      | error e =>
        rw [drain_throws ha hcall] at h
        cases h
      | ok r =>
        obtain ⟨s1, new⟩ := r
        rw [drain_take ha hcall] at h
        rw [List.filter_cons_of_pos ha, List.filter_cons_of_neg (by simp [ha])]
        by_cases hrest : rest = []
        · rw [if_pos hrest] at h
          obtain ⟨rfl, rfl⟩ := Prod.mk.inj (Except.ok.inj h)
          subst hrest
          refine ⟨[], new, new, ?_, by simp, by simp, by simp, by simp, by simp⟩
          simp [calls, hcall]
        · rw [if_neg hrest] at h
          obtain ⟨extra, more, new', hcalls, rfl, hperm, hmore, hsub, hextra⟩ := drain_calls h
          rw [List.filter_append, List.append_assoc] at hcalls
          refine ⟨new.filter p ++ extra, new.filter (fun a => !p a) ++ more, new ++ new', ?_, ?_, ?_,
            ?_, ?_, ?_⟩
          · rw [List.cons_append, calls, hcall, ok_bind, hcalls, ok_bind]
          · simp
          · have hparts : (new.filter (fun a => !p a) ++ new.filter p).Perm new :=
              List.perm_append_comm.trans (List.filter_append_perm p new)
            refine List.Perm.trans ?_ (hparts.append hperm)
            rw [List.append_assoc, List.append_assoc]
            exact (List.perm_append_comm_assoc more (new.filter p) extra).append_left _
          · exact List.filter_sublist.append hmore
          · exact List.filter_sublist.append hsub
          · intro b hb
            rcases List.mem_append.mp hb with hb | hb
            · exact (List.mem_filter.mp hb).2
            · exact hextra b hb
    · have ha : p a = false := by simpa using ha
      rw [drain_skip ha] at h
      obtain ⟨extra, more, new, hcalls, rfl, hrest⟩ := drain_calls h
      rw [List.filter_cons_of_neg (by simp [ha]), List.filter_cons_of_pos (by simp [ha])]
      exact ⟨extra, more, new, hcalls, by simp, hrest⟩

/-- No call appends an entry with the property. -/
def Quiet (p : α → Bool) (handler : σ → α → Except ε (σ × List α)) : Prop :=
  ∀ s a s' new, p a = true → handler s a = .ok (s', new) → ∀ b ∈ new, p b = false

theorem calls_quiet (hquiet : Quiet p handler) {as new : List α} {s s' : σ}
    (has : ∀ a ∈ as, p a = true) (h : calls handler as s = .ok (s', new)) :
    ∀ b ∈ new, p b = false := by
  induction as generalizing s new with
  | nil =>
    obtain ⟨-, rfl⟩ := Prod.mk.inj (Except.ok.inj h)
    simp
  | cons a as ih =>
    obtain ⟨ha, has⟩ := List.forall_mem_cons.mp has
    obtain ⟨r, hr, h⟩ := bind_eq_ok h
    obtain ⟨r', hr', h⟩ := bind_eq_ok h
    obtain ⟨rfl, rfl⟩ := Prod.mk.inj (Except.ok.inj h)
    intro b hb
    rcases List.mem_append.mp hb with hb | hb
    · exact hquiet s a r.1 r.2 ha hr b hb
    · exact ih has hr' b hb

/-- If no call appends anything, nothing is appended. -/
theorem calls_nothing (h : ∀ s s' a new, handler s a = .ok (s', new) → new = []) {as new : List α}
    {s s' : σ} (hcalls : calls handler as s = .ok (s', new)) : new = [] := by
  induction as generalizing s new with
  | nil => exact (Prod.mk.inj (Except.ok.inj hcalls)).2.symm
  | cons a as ih =>
    obtain ⟨r, hr, hcalls⟩ := bind_eq_ok hcalls
    obtain ⟨r', hr', hcalls⟩ := bind_eq_ok hcalls
    obtain ⟨rfl, rfl⟩ := Prod.mk.inj (Except.ok.inj hcalls)
    rw [h s r.1 a r.2 hr, ih hr', List.nil_append]

/-- A quiet loop takes out the entries with the property, and no others. -/
theorem drain_quiet (hquiet : Quiet p handler) {turns : ℕ} {l l' : List α} {s s' : σ}
    (h : drain p handler turns 0 l s = .ok (l', s')) :
    ∃ new, calls handler (l.filter p) s = .ok (s', new) ∧
      l' = l.filter (fun a => !p a) ++ new := by
  have h' : drain p handler turns ([] : List α).length ([] ++ l) s = .ok (l', s') := h
  obtain ⟨extra, more, new, hcalls, rfl, hperm, hmore, -, hextra⟩ := drain_calls h'
  have hnew := calls_quiet hquiet (fun a ha => by
    rcases List.mem_append.mp ha with ha | ha
    · exact (List.mem_filter.mp ha).2
    · exact hextra a ha) hcalls
  have hnil : extra = [] := by
    rw [List.eq_nil_iff_forall_not_mem]
    intro b hb
    have hfalse := hnew b (hperm.mem_iff.mp (List.mem_append_right _ hb))
    rw [hextra b hb] at hfalse
    cases hfalse
  rw [hnil, List.append_nil] at hcalls hperm
  exact ⟨new, hcalls, by rw [hmore.eq_of_length hperm.length_eq, List.nil_append]⟩

/-! ### Whether it ends -/

/-- **The loop ends** if no call appends an entry with the property. -/
theorem drain_ends (hquiet : Quiet p handler) (visited rest : List α) (s : σ) :
    ∃ turns, drain p handler turns visited.length (visited ++ rest) s ≠ .error .turns := by
  -- the entries with the property left, and for the same number the entries left
  induction hk : rest.countP p generalizing visited rest s with
  | zero =>
    refine ⟨rest.length + 1, ?_⟩
    induction rest generalizing visited with
    | nil => simp [drain]
    | cons a rest ih =>
      rw [List.countP_cons] at hk
      have ha : p a = false := by
        by_contra h
        simp [h] at hk
      rw [List.length_cons, drain_skip ha]
      exact ih (visited ++ [a]) (by omega)
  | succ k ihk =>
    induction rest generalizing visited with
    | nil => simp at hk
    | cons a rest ih =>
      by_cases ha : p a = true
      · rw [List.countP_cons_of_pos ha] at hk
        cases hcall : handler s a with
        | error e =>
          refine ⟨1, ?_⟩
          rw [drain_throws ha hcall]
          simp
        | ok r =>
          obtain ⟨s', new⟩ := r
          have hnew : new.countP p = 0 := by
            rw [List.countP_eq_zero]
            intro b hb
            simp [hquiet s a s' new ha hcall b hb]
          obtain ⟨turns, hturns⟩ := ihk visited (rest ++ new) s' (by
            rw [List.countP_append]
            omega)
          refine ⟨turns + 1, ?_⟩
          rw [drain_take ha hcall]
          by_cases hrest : rest = []
          · simp [hrest]
          · rwa [if_neg hrest]
      · have ha : p a = false := by simpa using ha
        rw [List.countP_cons_of_neg (by simp [ha])] at hk
        obtain ⟨turns, hturns⟩ := ih (visited ++ [a]) hk
        exact ⟨turns + 1, by rwa [drain_skip ha]⟩

/-- Every call appends one entry, which has the property. -/
def Polls (p : α → Bool) (handler : σ → α → Except ε (σ × List α)) : Prop :=
  ∀ s a, p a = true → ∃ s' b, handler s a = .ok (s', [b]) ∧ p b = true

/-- With two entries each of which is replaced, there is always a next one. -/
theorem drain_endless (hpolls : Polls p handler) : ∀ (turns : ℕ) (visited rest : List α) (s : σ),
    2 ≤ rest.countP p → drain p handler turns visited.length (visited ++ rest) s = .error .turns
  | 0, _, _, _, _ => rfl
  | turns + 1, visited, [], s, h => by simp at h
  | turns + 1, visited, a :: rest, s, h => by
    by_cases ha : p a = true
    · obtain ⟨s', b, hcall, hb⟩ := hpolls s a ha
      rw [List.countP_cons_of_pos ha] at h
      have hrest : rest ≠ [] := by
        rintro rfl
        simp at h
      have hone : [b].countP p = 1 := by simp [hb]
      rw [drain_take ha hcall, if_neg hrest]
      apply drain_endless hpolls
      rw [List.countP_append, hone]
      omega
    · have ha : p a = false := by simpa using ha
      rw [List.countP_cons_of_neg (by simp [ha])] at h
      rw [drain_skip ha]
      exact drain_endless hpolls turns (visited ++ [a]) rest s h

/-- Entries without the property are passed. -/
theorem drain_pass : ∀ {as : List α}, (∀ a ∈ as, p a = false) →
    ∀ (turns : ℕ) (visited rest : List α) (s : σ),
      drain p handler (turns + as.length) visited.length (visited ++ (as ++ rest)) s =
        drain p handler turns (visited ++ as).length (visited ++ as ++ rest) s
  | [], _, turns, visited, rest, s => by simp
  | a :: as, h, turns, visited, rest, s => by
    obtain ⟨ha, has⟩ := List.forall_mem_cons.mp h
    have ih := drain_pass has turns (visited ++ [a]) rest s
    rw [List.length_cons, ← Nat.add_assoc, List.cons_append, drain_skip ha, ih]
    simp

/-- With one entry that is replaced: it is taken out once if it is the last of the list,
and else a second time as the handler has put it back. -/
theorem drain_replaced {front back : List α} {a b c : α} (hfront : ∀ b ∈ front, p b = false)
    (hback : ∀ b ∈ back, p b = false) (ha : p a = true) (hb : p b = true) {s s1 s2 : σ}
    (hcall : handler s a = .ok (s1, [b])) (hcall' : handler s1 b = .ok (s2, [c])) :
    ∃ turns, drain p handler turns 0 (front ++ a :: back) s =
      .ok (if back = [] then (front ++ [b], s1) else (front ++ back ++ [c], s2)) := by
  have hpass : ∀ turns, drain p handler (turns + front.length) 0 (front ++ a :: back) s =
      drain p handler turns front.length (front ++ a :: back) s := by
    intro turns
    simpa using drain_pass hfront turns [] (a :: back) s
  by_cases h : back = []
  · refine ⟨1 + front.length, ?_⟩
    rw [hpass, drain_take ha hcall, if_pos h, if_pos h]
  · refine ⟨1 + back.length + 1 + front.length, ?_⟩
    rw [hpass, drain_take ha hcall, if_neg h, if_neg h, drain_pass hback, drain_take hb hcall',
      if_pos rfl]

/-- **When every handler appends an entry like its own**, the loop ends exactly if at
most one entry has the property. -/
theorem drain_polling_iff (hpolls : Polls p handler) (l : List α) (s : σ) :
    (∃ turns r, drain p handler turns 0 l s = .ok r) ↔ l.countP p ≤ 1 := by
  refine ⟨fun ⟨turns, r, h⟩ => ?_, fun hle => ?_⟩
  · by_contra hmany
    have hendless := drain_endless hpolls turns [] l s (by omega)
    simp only [List.nil_append, List.length_nil] at hendless
    rw [hendless] at h
    cases h
  · by_cases hnone : ∀ a ∈ l, p a = false
    · have hpass : drain p handler (1 + l.length) 0 l s = drain p handler 1 l.length l s := by
        simpa using drain_pass hnone 1 [] [] s
      exact ⟨1 + l.length, _, hpass.trans (drain_end 0 l s)⟩
    · obtain ⟨a, hmem, ha⟩ : ∃ a ∈ l, p a = true := by simpa using hnone
      obtain ⟨front, back, rfl⟩ := List.append_of_mem hmem
      rw [List.countP_append, List.countP_cons_of_pos ha] at hle
      have hfront : ∀ b ∈ front, p b = false := by
        have hzero : front.countP p = 0 := by omega
        simpa [List.countP_eq_zero] using hzero
      have hback : ∀ b ∈ back, p b = false := by
        have hzero : back.countP p = 0 := by omega
        simpa [List.countP_eq_zero] using hzero
      obtain ⟨s1, b, hcall, hb⟩ := hpolls s a ha
      obtain ⟨s2, c, hcall', -⟩ := hpolls s1 b hb
      obtain ⟨turns, hturns⟩ := drain_replaced hfront hback ha hb hcall hcall'
      exact ⟨turns, _, hturns⟩

end Drain
end Lib
