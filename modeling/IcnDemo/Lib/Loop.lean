/-
# Counted and fuelled loops that can fail

`forUpTo n body s` is `for (i = 0; i < n; ++i)` over a state, in the error
monad; `collectWhile` is `for (x = start; cond x; x = next x)` that collects
one value a turn, with fuel for the turns. The rules are the usual ones: a
trajectory the body follows is where the loop ends (`forUpTo_trajectory`), an
invariant the body keeps holds at its end (`forUpTo_invariant`), and a map
between two states that commutes with the bodies commutes with the loops
(`forUpTo_map`). `FailsOnly` bounds the errors a computation can end with, and
`Ends` bounds its errors and its results.
-/
import Mathlib.Tactic.Common
import Mathlib.Data.Nat.Notation

namespace Lib
namespace Loop

variable {ε σ τ α β : Type}

@[simp] theorem ok_bind (a : α) (f : α → Except ε β) : (Except.ok a >>= f) = f a := rfl

@[simp] theorem error_bind (e : ε) (f : α → Except ε β) : (Except.error e >>= f) = .error e := rfl

@[simp] theorem pure_eq_ok (a : α) : (pure a : Except ε α) = .ok a := rfl

theorem bind_eq_ok {x : Except ε α} {f : α → Except ε β} {b : β} (h : x >>= f = .ok b) :
    ∃ a, x = .ok a ∧ f a = .ok b := by
  cases x with
  | error e => cases h
  | ok a => exact ⟨a, rfl, h⟩

/-- A result that has been computed. -/
theorem exists_ok_of_any {x : Except ε α} {p : α → Bool} (h : x.toOption.any p = true) :
    ∃ a, x = .ok a ∧ p a = true := by
  cases x with
  | error e => cases h
  | ok a => exact ⟨a, rfl, h⟩

/-- A last step that cannot fail. -/
theorem exists_bind_ok {x : Except ε α} {g : α → β} :
    (∃ b, (x >>= fun a => .ok (g a)) = Except.ok b) ↔ ∃ a, x = .ok a := by
  cases x with
  | error e => simp
  | ok a => simp

/-- Steps that differ by a map, after the same first step. -/
theorem bind_eq_map {x : Except ε α} {f : α → Except ε β} {g : α → Except ε τ} {k : τ → β}
    (h : ∀ a, f a = (g a).map k) : (x >>= f) = (x >>= g).map k := by
  cases x with
  | error e => rfl
  | ok a => exact h a

theorem map_then (k : α → β) (x : Except ε α) (f : β → Except ε τ) :
    (x.map k >>= f) = x >>= fun a => f (k a) := by
  cases x <;> rfl

/-! ### Counted loops -/

/-- `for (i = 0; i < n; ++i) s = body i s`. -/
def forUpTo : ℕ → (ℕ → σ → Except ε σ) → σ → Except ε σ
  | 0, _, s => .ok s
  | n + 1, body, s => do
    let s ← forUpTo n body s
    body n s

@[simp] theorem forUpTo_zero (body : ℕ → σ → Except ε σ) (s : σ) : forUpTo 0 body s = .ok s := rfl

theorem forUpTo_succ (n : ℕ) (body : ℕ → σ → Except ε σ) (s : σ) :
    forUpTo (n + 1) body s = forUpTo n body s >>= body n := rfl

/-- A loop whose body takes `t i` to `t (i + 1)` takes `t 0` to `t n`. -/
theorem forUpTo_trajectory (t : ℕ → σ) {body : ℕ → σ → Except ε σ} :
    ∀ {n : ℕ}, (∀ i < n, body i (t i) = .ok (t (i + 1))) → forUpTo n body (t 0) = .ok (t n)
  | 0, _ => rfl
  | n + 1, h => by
    rw [forUpTo_succ, forUpTo_trajectory t fun i hi => h i (Nat.lt_succ_of_lt hi), ok_bind]
    exact h n (Nat.lt_succ_self n)

/-- A loop fails as the first of its turns that does. -/
theorem forUpTo_error {body : ℕ → σ → Except ε σ} {s s' : σ} {k : ℕ} {e : ε}
    (hok : forUpTo k body s = .ok s') (herr : body k s' = .error e) :
    ∀ {n : ℕ}, k < n → forUpTo n body s = .error e
  | n + 1, h => by
    rw [forUpTo_succ]
    rcases Nat.lt_succ_iff_lt_or_eq.mp h with hlt | rfl
    · rw [forUpTo_error hok herr hlt]; rfl
    · rw [hok]; exact herr

/-- An invariant that each turn keeps holds after the loop, which ends. -/
theorem forUpTo_invariant (I : ℕ → σ → Prop) (body : ℕ → σ → Except ε σ) {s : σ} (h0 : I 0 s) :
    ∀ {n : ℕ}, (∀ i < n, ∀ s, I i s → ∃ s', body i s = .ok s' ∧ I (i + 1) s') →
      ∃ s', forUpTo n body s = .ok s' ∧ I n s'
  | 0, _ => ⟨s, rfl, h0⟩
  | n + 1, h => by
    obtain ⟨s', hs', hI⟩ := forUpTo_invariant I body h0 fun i hi => h i (Nat.lt_succ_of_lt hi)
    rw [forUpTo_succ, hs', ok_bind]
    exact h n (Nat.lt_succ_self n) s' hI

/-- Two loops whose bodies commute with `g` commute with `g`. -/
theorem forUpTo_map (g : σ → τ) {body : ℕ → σ → Except ε σ} {body' : ℕ → τ → Except ε τ} (s : σ) :
    ∀ {n : ℕ}, (∀ i < n, ∀ s, body' i (g s) = (body i s).map g) →
      forUpTo n body' (g s) = (forUpTo n body s).map g
  | 0, _ => rfl
  | n + 1, h => by
    rw [forUpTo_succ, forUpTo_succ, forUpTo_map g s fun i hi => h i (Nat.lt_succ_of_lt hi)]
    cases forUpTo n body s with
    | error e => rfl
    | ok s' => exact h n (Nat.lt_succ_self n) s'

theorem forUpTo_congr {body body' : ℕ → σ → Except ε σ} (s : σ) :
    ∀ {n : ℕ}, (∀ i < n, ∀ s, body i s = body' i s) → forUpTo n body s = forUpTo n body' s
  | 0, _ => rfl
  | n + 1, h => by
    rw [forUpTo_succ, forUpTo_succ, forUpTo_congr s fun i hi => h i (Nat.lt_succ_of_lt hi)]
    cases forUpTo n body' s with
    | error e => rfl
    | ok s' => exact h n (Nat.lt_succ_self n) s'

/-- What holds of each element of a list, by its place. -/
theorem forall_getElem?_cons {P : ℕ → α → Prop} {b : α} {as : List α} :
    (∀ i a, (b :: as)[i]? = some a → P i a) ↔ P 0 b ∧ ∀ i a, as[i]? = some a → P (i + 1) a := by
  constructor
  · intro h
    exact ⟨h 0 b rfl, fun i a ha => h (i + 1) a ha⟩
  · intro ⟨h0, h⟩ i a ha
    cases i with
    | zero =>
      obtain rfl : b = a := Option.some.inj ha
      exact h0
    | succ i => exact h i a ha

/-! ### Loops that collect -/

theorem mapM_ok {f : α → Except ε β} {g : α → β} :
    ∀ {l : List α}, (∀ a ∈ l, f a = .ok (g a)) → l.mapM f = .ok (l.map g)
  | [], _ => rfl
  | a :: l, h => by
    rw [List.mapM_cons, h a List.mem_cons_self, ok_bind,
      mapM_ok fun b hb => h b (List.mem_cons_of_mem _ hb)]
    rfl

/-- A loop that ends has got through every turn. -/
theorem exists_ok_of_mapM {f : α → Except ε β} {a : α} :
    ∀ {l : List α} {bs : List β}, l.mapM f = .ok bs → a ∈ l → ∃ b, f a = .ok b
  | [], _, _, ha => by cases ha
  | a' :: l, bs, h, ha => by
    rw [List.mapM_cons] at h
    obtain ⟨b, hb, h⟩ := bind_eq_ok h
    obtain ⟨bs', hbs, -⟩ := bind_eq_ok h
    rcases List.mem_cons.mp ha with rfl | ha
    · exact ⟨b, hb⟩
    · exact exists_ok_of_mapM hbs ha

/-- `for (x = start; cond x; x = next x)`, collecting `body x` each turn. Out of
fuel the loop fails with `stuck`. -/
def collectWhile (stuck : ε) (cond : σ → Bool) (next : σ → σ) (body : σ → Except ε α) :
    ℕ → σ → Except ε (List α)
  | 0, _ => .error stuck
  | fuel + 1, x =>
    if cond x then do
      let a ← body x
      let rest ← collectWhile stuck cond next body fuel (next x)
      .ok (a :: rest)
    else .ok []

/-- Along a trajectory `t` that meets the condition for `n` turns and then
fails it, the loop collects the bodies of those turns. -/
theorem collectWhile_trajectory {stuck : ε} {cond : σ → Bool} {next : σ → σ}
    {body : σ → Except ε α} {g : ℕ → α} :
    ∀ {n fuel : ℕ} (t : ℕ → σ), n < fuel → (∀ k, next (t k) = t (k + 1)) →
      (∀ k < n, cond (t k) = true ∧ body (t k) = .ok (g k)) → cond (t n) = false →
      collectWhile stuck cond next body fuel (t 0) = .ok ((List.range n).map g)
  | _, 0, _, hf, _, _, _ => absurd hf (Nat.not_lt_zero _)
  | 0, fuel + 1, t, _, _, _, hend => by simp [collectWhile, hend]
  | n + 1, fuel + 1, t, hf, hnext, hturn, hend => by
    obtain ⟨hc, hb⟩ := hturn 0 (Nat.succ_pos n)
    have ih : collectWhile stuck cond next body fuel (t (0 + 1)) =
        .ok ((List.range n).map fun k => g (k + 1)) :=
      collectWhile_trajectory (fun k => t (k + 1)) (Nat.lt_of_succ_lt_succ hf)
        (fun k => hnext (k + 1)) (fun k hk => hturn (k + 1) (Nat.succ_lt_succ hk)) hend
    rw [Nat.zero_add] at ih
    rw [collectWhile, if_pos hc, hb, ok_bind, hnext 0, Nat.zero_add, ih, ok_bind,
      List.range_succ_eq_map, List.map_cons, List.map_map]
    rfl

/-! ### Loops that store -/

/-- `for (i = 0; i < l.size(); i++) out[i] = body(l[i])`: what is stored, and the
error that ended the loop, if one did. -/
def storeEach (body : α → Except ε β) : List α → List β × Option ε
  | [] => ([], none)
  | a :: l =>
    match body a with
    | .error e => ([], some e)
    | .ok b => (b :: (storeEach body l).1, (storeEach body l).2)

theorem storeEach_ok {body : α → Except ε β} {g : α → β} :
    ∀ {l : List α}, (∀ a ∈ l, body a = .ok (g a)) → storeEach body l = (l.map g, none)
  | [], _ => rfl
  | a :: l, h => by
    unfold storeEach
    rw [h a List.mem_cons_self, storeEach_ok fun b hb => h b (List.mem_cons_of_mem _ hb)]
    rfl

/-- The loop stores something for every element exactly when no body fails. -/
theorem storeEach_none_iff {body : α → Except ε β} :
    ∀ {l : List α}, (storeEach body l).2 = none ↔ ∀ a ∈ l, ∃ b, body a = .ok b
  | [] => by simp [storeEach]
  | a :: l => by
    unfold storeEach
    rw [List.forall_mem_cons, ← storeEach_none_iff]
    cases body a with
    | error e => simp
    | ok b => simp

theorem storeEach_length {body : α → Except ε β} :
    ∀ {l : List α}, (storeEach body l).2 = none → (storeEach body l).1.length = l.length
  | [], _ => rfl
  | a :: l, h => by
    rw [storeEach] at h ⊢
    cases hb : body a with
    | error e => rw [hb] at h; cases h
    | ok b =>
      rw [hb] at h
      exact congrArg Nat.succ (storeEach_length h)

theorem storeEach_length_le {body : α → Except ε β} :
    ∀ l : List α, (storeEach body l).1.length ≤ l.length
  | [] => Nat.le_refl 0
  | a :: l => by
    unfold storeEach
    cases body a with
    | error e => exact Nat.zero_le _
    | ok b => exact Nat.succ_le_succ (storeEach_length_le l)

/-- The error that ends the loop is that of a body. -/
theorem storeEach_error {body : α → Except ε β} {e : ε} :
    ∀ {l : List α}, (storeEach body l).2 = some e → ∃ a ∈ l, body a = .error e
  | [], h => by cases h
  | a :: l, h => by
    unfold storeEach at h
    cases hb : body a with
    | error e' =>
      simp only [hb, Option.some.injEq] at h
      exact ⟨a, List.mem_cons_self, by rw [hb, h]⟩
    | ok b =>
      simp only [hb] at h
      obtain ⟨a', ha', he⟩ := storeEach_error h
      exact ⟨a', List.mem_cons_of_mem _ ha', he⟩

/-- Loops over corresponding elements whose bodies agree store the same. -/
theorem storeEach_map {body : β → Except ε τ} {body' : α → Except ε τ} (f : α → β) :
    ∀ {l : List α}, (∀ a ∈ l, body (f a) = body' a) →
      storeEach body (l.map f) = storeEach body' l
  | [], _ => rfl
  | a :: l, h => by
    rw [List.map_cons, storeEach, storeEach, h a List.mem_cons_self,
      storeEach_map f fun b hb => h b (List.mem_cons_of_mem _ hb)]

/-! ### How a computation can fail -/

/-- Whatever error the computation ends with is one of `S`. -/
def FailsOnly (S : ε → Prop) (x : Except ε α) : Prop := ∀ e, x = .error e → S e

variable {S : ε → Prop}

theorem failsOnly_ok (a : α) : FailsOnly S (.ok a : Except ε α) := fun _ h => nomatch h

theorem FailsOnly.bind {x : Except ε α} {f : α → Except ε β} (hx : FailsOnly S x)
    (hf : ∀ a, x = .ok a → FailsOnly S (f a)) : FailsOnly S (x >>= f) := by
  cases x with
  | error e => exact fun e' h => hx e' (congrArg Except.error (Except.error.inj h))
  | ok a => exact hf a rfl

theorem FailsOnly.forUpTo {body : ℕ → σ → Except ε σ} (s : σ) :
    ∀ {n : ℕ}, (∀ i < n, ∀ s, FailsOnly S (body i s)) → FailsOnly S (forUpTo n body s)
  | 0, _ => failsOnly_ok s
  | n + 1, h => (FailsOnly.forUpTo s fun i hi => h i (Nat.lt_succ_of_lt hi)).bind
      fun s' _ => h n (Nat.lt_succ_self n) s'

theorem FailsOnly.collectWhile {stuck : ε} {cond : σ → Bool} {next : σ → σ}
    {body : σ → Except ε α} (hstuck : S stuck) (hbody : ∀ x, FailsOnly S (body x)) :
    ∀ (fuel : ℕ) (x : σ), FailsOnly S (collectWhile stuck cond next body fuel x)
  | 0, _ => fun _ h => Except.error.inj h ▸ hstuck
  | fuel + 1, x => by
    rw [Loop.collectWhile]
    split
    · exact (hbody x).bind fun a _ =>
        (FailsOnly.collectWhile hstuck hbody fuel (next x)).bind fun rest _ => failsOnly_ok _
    · exact failsOnly_ok _

/-! ### However a computation ends -/

/-- The computation ends with an error of `S`, or with a result that satisfies `Q`. -/
def Ends (S : ε → Prop) (Q : α → Prop) : Except ε α → Prop
  | .error e => S e
  | .ok a => Q a

variable {P Q : α → Prop}

theorem Ends.bind {R : β → Prop} {x : Except ε α} {f : α → Except ε β} (hx : Ends S Q x)
    (hf : ∀ a, Q a → Ends S R (f a)) : Ends S R (x >>= f) := by
  cases x with
  | error e => exact hx
  | ok a => exact hf a hx

theorem Ends.imp {x : Except ε α} (hx : Ends S P x) (hPQ : ∀ a, P a → Q a) : Ends S Q x := by
  cases x with
  | error e => exact hx
  | ok a => exact hPQ a hx

/-- A loop that may fail: what each turn keeps holds at its end, if it does not. -/
theorem Ends.forUpTo (I : ℕ → σ → Prop) {body : ℕ → σ → Except ε σ} {s : σ} (h0 : I 0 s) :
    ∀ {n : ℕ}, (∀ i < n, ∀ s, I i s → Ends S (I (i + 1)) (body i s)) →
      Ends S (I n) (forUpTo n body s)
  | 0, _ => h0
  | n + 1, h => (Ends.forUpTo I h0 fun i hi => h i (Nat.lt_succ_of_lt hi)).bind
      fun s' hI => h n (Nat.lt_succ_self n) s' hI

/-- Nested loops: what each inner turn keeps, the turns counted row by row. -/
theorem Ends.forUpTo₂ (I : ℕ → σ → Prop) {m n : ℕ} {body : ℕ → ℕ → σ → Except ε σ} {s : σ}
    (h0 : I 0 s)
    (h : ∀ i < m, ∀ j < n, ∀ s, I (i * n + j) s → Ends S (I (i * n + j + 1)) (body i j s)) :
    Ends S (I (m * n)) (Loop.forUpTo m (fun i => Loop.forUpTo n (body i)) s) := by
  apply Ends.forUpTo fun i => I (i * n)
  · rwa [Nat.zero_mul]
  · intro i hi s hs
    rw [Nat.succ_mul]
    exact Ends.forUpTo (fun j => I (i * n + j)) hs (h i hi)

/-- A body that computes what another does, where it computes something. -/
theorem forUpTo_refines {body body' : ℕ → σ → Except ε σ} {s s' : σ} :
    ∀ {n : ℕ}, (∀ i < n, ∀ s s', body i s = .ok s' → body' i s = .ok s') →
      forUpTo n body s = .ok s' → forUpTo n body' s = .ok s'
  | 0, _, hok => hok
  | n + 1, h, hok => by
    rw [forUpTo_succ] at hok ⊢
    obtain ⟨s1, hs1, hok⟩ := bind_eq_ok hok
    rw [forUpTo_refines (fun i hi => h i (Nat.lt_succ_of_lt hi)) hs1]
    exact h n (Nat.lt_succ_self n) s1 s' hok

/-- What is collected is the value of some body. -/
theorem mem_of_collectWhile {stuck : ε} {cond : σ → Bool} {next : σ → σ}
    {body : σ → Except ε α} {a : α} : ∀ {fuel : ℕ} {x : σ} {as : List α},
      collectWhile stuck cond next body fuel x = .ok as → a ∈ as → ∃ y, body y = .ok a
  | 0, _, _, h, _ => by cases h
  | fuel + 1, x, as, h, ha => by
    rw [collectWhile] at h
    split at h
    · obtain ⟨b, hb, h⟩ := bind_eq_ok h
      obtain ⟨rest, hrest, h⟩ := bind_eq_ok h
      obtain rfl := Except.ok.inj h
      rcases List.mem_cons.mp ha with rfl | ha
      · exact ⟨x, hb⟩
      · exact mem_of_collectWhile hrest ha
    · obtain rfl := Except.ok.inj h
      cases ha

end Loop
end Lib
