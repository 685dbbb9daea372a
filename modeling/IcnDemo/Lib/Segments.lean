/-
# Runs of a predicate on the natural numbers

For `d : ℕ → Bool`, the run of `d` that ends before `n` starts at `runStart d n`
(`n` itself if there is none), and `runEnds d n` lists the positions below `n`
at which a run has just ended. Separated intervals that cover exactly where `d`
holds are its runs (`runEnds_of_intervals`, `runStart_of_interval`). As intervals
the runs are `runs d n`; repeating positions at which `d` does not hold moves them
(`Stretch.runs`), and from such a position on they do not depend on what is before
(`runs_shift`).

`LeastOf` and `GreatestOf` say of an integer that it is the least or the
greatest element of a set of naturals, or -1 if the set is empty; both are
kept as an element is added.
-/
import Mathlib.Data.List.Sort
import Mathlib.Order.Monotone.Basic
import Mathlib.Data.Nat.Find
import Mathlib.Data.Int.Notation

namespace Lib
namespace Segments

/-! ### Runs -/

variable (d : ℕ → Bool)

/-- Where the run that ends before `n` starts. -/
def runStart : ℕ → ℕ
  | 0 => 0
  | n + 1 => if d n then runStart n else n + 1

/-- Where below `n` a run has just ended. -/
def runEnds (n : ℕ) : List ℕ :=
  (List.range n).filter fun b => decide (0 < b) && !d b && d (b - 1)

variable {d}

theorem runStart_le : ∀ n : ℕ, runStart d n ≤ n
  | 0 => Nat.le_refl 0
  | n + 1 => by
    unfold runStart
    split
    · exact Nat.le_succ_of_le (runStart_le n)
    · exact Nat.le_refl _

/-- In the run `d` holds. -/
theorem holds_of_runStart_le : ∀ {n x : ℕ}, runStart d n ≤ x → x < n → d x = true
  | n + 1, x, h1, h2 => by
    unfold runStart at h1
    split at h1
    · rename_i hn
      rcases Nat.lt_succ_iff_lt_or_eq.mp h2 with h | rfl
      · exact holds_of_runStart_le h1 h
      · exact hn
    · omega

/-- Before the run `d` does not hold. -/
theorem not_holds_before : ∀ {n : ℕ}, 0 < runStart d n → d (runStart d n - 1) = false
  | n + 1, h => by
    rw [runStart] at h ⊢
    split at h
    · rename_i hn
      rw [if_pos hn]
      exact not_holds_before h
    · rename_i hn
      rw [if_neg hn]
      simpa using hn

theorem runStart_of_not {n : ℕ} (h : d n = false) : runStart d (n + 1) = n + 1 := by
  simp [runStart, h]

theorem runStart_of_holds {n : ℕ} (h : d n = true) : runStart d (n + 1) = runStart d n := by
  simp [runStart, h]

/-- The run that ends before `n` is not empty exactly when `d` holds just before. -/
theorem runStart_lt_iff {n : ℕ} : runStart d n < n ↔ 0 < n ∧ d (n - 1) = true := by
  cases n with
  | zero => simp
  | succ n =>
    have := runStart_le (d := d) n
    unfold runStart
    rw [Nat.add_sub_cancel]
    split
    · rename_i h; simp [h]; omega
    · rename_i h; simp [h]

theorem runStart_pos (h0 : d 0 = false) {n : ℕ} (hn : 0 < n) : 0 < runStart d n := by
  rcases Nat.eq_zero_or_pos (runStart d n) with h | h
  · have := holds_of_runStart_le (d := d) (Nat.le_of_eq h) hn
    rw [h0] at this
    cases this
  · exact h

/-- A run is where its interval starts. -/
theorem runStart_of_interval {a b : ℕ} (hab : a ≤ b) (hd : ∀ x, a ≤ x → x < b → d x = true)
    (ha : a = 0 ∨ d (a - 1) = false) : runStart d b = a := by
  induction b with
  | zero => simp only [runStart]; omega
  | succ b ih =>
    rcases Nat.lt_or_ge b a with h | h
    · obtain rfl : a = b + 1 := by omega
      rcases ha with h0 | h0
      · cases h0
      · exact runStart_of_not h0
    · rw [runStart_of_holds (hd b h (Nat.lt_succ_self b))]
      exact ih h fun x h1 h2 => hd x h1 (Nat.lt_succ_of_lt h2)

theorem mem_runEnds {n b : ℕ} :
    b ∈ runEnds d n ↔ b < n ∧ 0 < b ∧ d b = false ∧ d (b - 1) = true := by
  simp [runEnds, and_assoc]

theorem runEnds_succ (n : ℕ) : runEnds d (n + 1) =
    runEnds d n ++ if d n = false ∧ runStart d n < n then [n] else [] := by
  unfold runEnds
  rw [List.range_succ, List.filter_append, List.filter_singleton]
  simp only [runStart_lt_iff]
  congr 1
  by_cases h1 : d n = true <;> by_cases h2 : 0 < n <;> simp [h1, h2]

theorem runEnds_congr {d' : ℕ → Bool} {n : ℕ} (h : ∀ x < n, d x = d' x) :
    runEnds d n = runEnds d' n := by
  unfold runEnds
  apply List.filter_congr
  intro b hb
  rw [List.mem_range] at hb
  rw [h b hb, h (b - 1) (by omega)]

/-- Every run takes two positions, its last and the one after; one more is open where
`d` holds last. -/
theorem runEnds_length_le (h0 : d 0 = false) : ∀ n : ℕ,
    2 * (runEnds d (n + 1)).length + (if runStart d (n + 1) < n + 1 then 1 else 0) ≤ n
  | 0 => by simp [runEnds, runStart, h0]
  | n + 1 => by
    have ih := runEnds_length_le h0 n
    have hle := runStart_le (d := d) (n + 1)
    rw [runEnds_succ, List.length_append]
    cases hd : d (n + 1) with
    | true =>
      rw [runStart_of_holds hd]
      simp only [Bool.true_eq_false, false_and, ↓reduceIte, List.length_nil]
      split_ifs at ih ⊢ <;> omega
    | false =>
      rw [runStart_of_not hd]
      simp only [true_and, lt_self_iff_false, ↓reduceIte]
      split_ifs at ih ⊢ <;> simp <;> omega

theorem runEnds_pairwise (n : ℕ) : (runEnds d n).Pairwise (· < ·) :=
  List.pairwise_lt_range.filter _

/-- Two of a list of separated intervals are the same or apart. -/
theorem eq_or_apart {l : List (ℕ × ℕ)} (hsep : l.Pairwise fun p q => p.2 < q.1) {p q : ℕ × ℕ}
    (hp : p ∈ l) (hq : q ∈ l) : p = q ∨ p.2 < q.1 ∨ q.2 < p.1 := by
  obtain ⟨i, hi, rfl⟩ := List.mem_iff_getElem.mp hp
  obtain ⟨j, hj, rfl⟩ := List.mem_iff_getElem.mp hq
  have hord := List.pairwise_iff_getElem.mp hsep
  rcases Nat.lt_trichotomy i j with h | rfl | h
  · exact Or.inr (Or.inl (hord i j hi hj h))
  · exact Or.inl rfl
  · exact Or.inr (Or.inr (hord j i hj hi h))

/-- **Separated intervals that cover where `d` holds end where its runs do.** -/
theorem runEnds_of_intervals {n : ℕ} {l : List (ℕ × ℕ)} (hlt : ∀ p ∈ l, p.1 < p.2)
    (hsep : l.Pairwise fun p q => p.2 < q.1) (hend : ∀ p ∈ l, p.2 < n)
    (hd : ∀ x < n, d x = true ↔ ∃ p ∈ l, p.1 ≤ x ∧ x < p.2) :
    runEnds d n = l.map Prod.snd := by
  have hmap : (l.map Prod.snd).Pairwise (· < ·) := by
    rw [List.pairwise_map]
    exact hsep.imp_of_mem fun _ hq h => Nat.lt_trans h (hlt _ hq)
  refine (runEnds_pairwise n).eq_of_mem_iff hmap fun b => ?_
  rw [mem_runEnds, List.mem_map]
  constructor
  · rintro ⟨hb, hb0, hnot, hprev⟩
    obtain ⟨p, hp, h1, h2⟩ := (hd (b - 1) (by omega)).mp hprev
    refine ⟨p, hp, ?_⟩
    by_contra hne
    have : d b = true := (hd b hb).mpr ⟨p, hp, by omega, by omega⟩
    rw [hnot] at this
    cases this
  · rintro ⟨p, hp, rfl⟩
    have hlp := hlt p hp
    refine ⟨hend p hp, by omega, ?_,
      (hd _ (by have := hend p hp; omega)).mpr ⟨p, hp, by omega, by omega⟩⟩
    rw [Bool.eq_false_iff]
    intro hb
    obtain ⟨q, hq, h1, h2⟩ := (hd _ (hend p hp)).mp hb
    have hlq := hlt q hq
    rcases eq_or_apart hsep hp hq with rfl | h | h <;> omega

/-- **Each of them starts where its run does.** -/
theorem runStart_of_mem {n : ℕ} {l : List (ℕ × ℕ)} (hlt : ∀ p ∈ l, p.1 < p.2)
    (hsep : l.Pairwise fun p q => p.2 < q.1) (hend : ∀ p ∈ l, p.2 < n)
    (hd : ∀ x < n, d x = true ↔ ∃ p ∈ l, p.1 ≤ x ∧ x < p.2) {p : ℕ × ℕ} (hp : p ∈ l) :
    runStart d p.2 = p.1 := by
  have hlp := hlt p hp
  have hep := hend p hp
  apply runStart_of_interval hlp.le (fun x h1 h2 => (hd x (by omega)).mpr ⟨p, hp, h1, h2⟩)
  rcases Nat.eq_zero_or_pos p.1 with h0 | h0
  · exact Or.inl h0
  · refine Or.inr (Bool.eq_false_iff.mpr fun hb => ?_)
    obtain ⟨q, hq, h1, h2⟩ := (hd _ (by omega)).mp hb
    have hlq := hlt q hq
    rcases eq_or_apart hsep hp hq with rfl | h | h <;> omega

/-! ### Runs as intervals -/

/-- The runs that have ended below `n`, each from its start to its end. -/
def runs (d : ℕ → Bool) (n : ℕ) : List (ℕ × ℕ) := (runEnds d n).map fun b => (runStart d b, b)

theorem runs_succ (n : ℕ) : runs d (n + 1) =
    runs d n ++ if d n = false ∧ runStart d n < n then [(runStart d n, n)] else [] := by
  unfold runs
  rw [runEnds_succ, List.map_append]
  split <;> rfl

theorem runs_succ_of_holds {n : ℕ} (h : d n = true) : runs d (n + 1) = runs d n := by
  rw [runs_succ, if_neg (by simp [h]), List.append_nil]

/-- After a position at which `d` does not hold, another adds no run. -/
theorem runs_succ_of_not {n : ℕ} (h : d n = false) (hprev : n = 0 ∨ d (n - 1) = false) :
    runs d (n + 1) = runs d n := by
  rw [runs_succ, if_neg, List.append_nil]
  rw [runStart_lt_iff]
  intro ⟨_, hpos, hrun⟩
  rcases hprev with rfl | hprev
  · omega
  · rw [hprev] at hrun; cases hrun

/-- **The runs are the intervals at which `d` holds between two at which it does not.** -/
theorem mem_runs {n a b : ℕ} : (a, b) ∈ runs d n ↔ a < b ∧ b < n ∧
    (∀ x, a ≤ x → x < b → d x = true) ∧ (a = 0 ∨ d (a - 1) = false) ∧ d b = false := by
  unfold runs
  rw [List.mem_map]
  constructor
  · intro ⟨b', hb', heq⟩
    obtain ⟨rfl, rfl⟩ := Prod.mk.inj heq
    obtain ⟨hlt, hpos, hnot, hprev⟩ := mem_runEnds.mp hb'
    refine ⟨runStart_lt_iff.mpr ⟨hpos, hprev⟩, hlt, fun x => holds_of_runStart_le, ?_, hnot⟩
    rcases Nat.eq_zero_or_pos (runStart d b') with h | h
    · exact Or.inl h
    · exact Or.inr (not_holds_before h)
  · intro ⟨hab, hbn, hd, ha, hb⟩
    refine ⟨b, mem_runEnds.mpr ⟨hbn, by omega, hb, hd _ (by omega) (by omega)⟩, ?_⟩
    rw [runStart_of_interval hab.le hd ha]

/-- A run ends before the next starts. -/
theorem runs_pairwise (n : ℕ) : (runs d n).Pairwise fun p q => p.2 < q.1 := by
  induction n with
  | zero => exact List.Pairwise.nil
  | succ n ih =>
    rw [runs_succ, List.pairwise_append]
    refine ⟨ih, by split <;> simp, fun p hp q hq => ?_⟩
    split at hq
    · obtain rfl := List.mem_singleton.mp hq
      obtain ⟨-, hlt, -, -, hnot⟩ := mem_runs.mp hp
      -- the run that ends at `n` holds where the earlier one has ended
      by_contra hle
      rw [holds_of_runStart_le (not_lt.mp hle) hlt] at hnot
      cases hnot
    · cases hq

theorem runs_ne_nil {n i : ℕ} (hin : i + 1 < n) (hi : d i = true) (hnot : d (i + 1) = false) :
    runs d n ≠ [] := by
  unfold runs
  rw [ne_eq, List.map_eq_nil_iff]
  exact List.ne_nil_of_mem (mem_runEnds.mpr ⟨hin, Nat.succ_pos i, hnot, hi⟩)

/-- **No run ends exactly when, once `d` holds, it goes on to hold.** -/
theorem runs_eq_nil_iff {n : ℕ} :
    runs d n = [] ↔ ∀ i j, i < j → j < n → d i = true → d j = true := by
  constructor
  · intro hnil i j hij hjn hi
    induction j, hij using Nat.le_induction with
    | base =>
      by_contra hj
      exact runs_ne_nil hjn hi (by simpa using hj) hnil
    | succ j hij ih =>
      by_contra hj
      exact runs_ne_nil hjn (ih (by omega)) (by simpa using hj) hnil
  · intro h
    refine List.eq_nil_iff_forall_not_mem.mpr fun p hp => ?_
    obtain ⟨hab, hbn, hd, -, hb⟩ := mem_runs.mp hp
    rw [h p.1 p.2 hab hbn (hd _ (Nat.le_refl _) hab)] at hb
    cases hb

/-! ### Stretches and shifts -/

/-- Each position `i` of `d` becomes the positions from `φ i` up to `φ (i + 1)` of
`d'`, one only if `d` holds there. -/
structure Stretch (d d' : ℕ → Bool) (φ : ℕ → ℕ) : Prop where
  zero : φ 0 = 0
  lt_succ : ∀ i, φ i < φ (i + 1)
  single : ∀ i, d i = true → φ (i + 1) = φ i + 1
  same : ∀ i x, φ i ≤ x → x < φ (i + 1) → d' x = d i

/-- Along a run a stretch moves position by position. -/
theorem Stretch.add_of_holds {d d' : ℕ → Bool} {φ : ℕ → ℕ} (hs : Stretch d d' φ) (a : ℕ) :
    ∀ {n : ℕ}, (∀ i < n, d (a + i) = true) → φ (a + n) = φ a + n
  | 0, _ => rfl
  | n + 1, h => by
    rw [← Nat.add_assoc, hs.single _ (h n (Nat.lt_succ_self n)),
      hs.add_of_holds a fun i hi => h i (Nat.lt_succ_of_lt hi)]
    rfl

theorem Stretch.strictMono {d d' : ℕ → Bool} {φ : ℕ → ℕ} (hs : Stretch d d' φ) : StrictMono φ :=
  strictMono_nat_of_lt_succ hs.lt_succ

/-- Positions at which `d` does not hold start no run and end one at most. -/
theorem runs_blank {n k : ℕ} (h : ∀ x, n ≤ x → x ≤ n + k → d x = false) :
    runStart d (n + k + 1) = n + k + 1 ∧ runs d (n + k + 1) = runs d (n + 1) := by
  induction k with
  | zero => exact ⟨runStart_of_not (h n (Nat.le_refl n) (Nat.le_refl n)), rfl⟩
  | succ k ih =>
    have hlast : d (n + k + 1) = false := h _ (by omega) (by omega)
    refine ⟨runStart_of_not hlast, ?_⟩
    rw [← (ih fun x h1 h2 => h x h1 (by omega)).2]
    exact runs_succ_of_not hlast (Or.inr (h _ (by omega) (by omega)))

/-- **A stretch maps runs to runs.** -/
theorem Stretch.runs {d d' : ℕ → Bool} {φ : ℕ → ℕ} (hs : Stretch d d' φ) (n : ℕ) :
    runStart d' (φ n) = φ (runStart d n) ∧
      runs d' (φ n) = (runs d n).map fun p => (φ p.1, φ p.2) := by
  have hmono := hs.strictMono
  induction n with
  | zero => rw [hs.zero]; exact ⟨hs.zero.symm, rfl⟩
  | succ n ih =>
    obtain ⟨hstart, hruns⟩ := ih
    have hlt := hs.lt_succ n
    have hfirst : d' (φ n) = d n := hs.same n _ (Nat.le_refl _) hlt
    cases hd : d n with
    | true =>
      rw [hd] at hfirst
      rw [hs.single n hd, runStart_of_holds hfirst, runStart_of_holds hd, runs_succ_of_holds hfirst,
        runs_succ_of_holds hd]
      exact ⟨hstart, hruns⟩
    | false =>
      rw [hd] at hfirst
      obtain ⟨k, hk⟩ := Nat.exists_eq_add_of_lt hlt
      obtain ⟨hend, hblank⟩ := runs_blank (d := d') (n := φ n) (k := k) fun x h1 h2 => by
        rw [hs.same n x h1 (by omega), hd]
      rw [← hk] at hend hblank
      rw [hend, runStart_of_not hd, hblank, runs_succ, runs_succ, hruns, hfirst, hd, hstart,
        List.map_append]
      refine ⟨rfl, ?_⟩
      congr 1
      by_cases hrun : runStart d n < n
      · rw [if_pos ⟨rfl, hmono hrun⟩, if_pos ⟨rfl, hrun⟩]
        rfl
      · rw [if_neg fun hc => hrun (hmono.lt_iff_lt.mp hc.2), if_neg fun hc => hrun hc.2]
        rfl

/-- **From a position at which `d` does not hold on, the runs are those of what
follows.** -/
theorem runs_shift {k : ℕ} (hk : d k = false) (n : ℕ) :
    runStart d (k + 1 + n) = k + runStart (fun i => d (k + i)) (1 + n) ∧
      runs d (k + 1 + n) = runs d (k + 1) ++
        (runs (fun i => d (k + i)) (1 + n)).map fun p => (k + p.1, k + p.2) := by
  induction n with
  | zero =>
    have h0 : (fun i => d (k + i)) 0 = false := hk
    rw [Nat.add_zero, runStart_of_not hk, Nat.add_zero, runStart_of_not (n := 0) h0,
      runs_succ_of_not (n := 0) h0 (Or.inl rfl)]
    exact ⟨rfl, (List.append_nil _).symm⟩
  | succ n ih =>
    obtain ⟨hstart, hruns⟩ := ih
    have hpos : k + 1 + n = k + (1 + n) := by omega
    rw [← Nat.add_assoc, ← Nat.add_assoc, runs_succ (k + 1 + n),
      runs_succ (d := fun i => d (k + i)) (1 + n), hruns, hstart]
    cases hd : d (k + (1 + n)) with
    | true =>
      have hd' : d (k + 1 + n) = true := by rw [hpos, hd]
      rw [runStart_of_holds hd', runStart_of_holds (d := fun i => d (k + i)) hd, hstart]
      simp [hd']
    | false =>
      have hd' : d (k + 1 + n) = false := by rw [hpos, hd]
      rw [runStart_of_not hd', runStart_of_not (d := fun i => d (k + i)) hd, List.map_append]
      refine ⟨by omega, ?_⟩
      rw [List.append_assoc]
      congr 2
      by_cases hrun : runStart (fun i => d (k + i)) (1 + n) < 1 + n
      · rw [if_pos ⟨hd', by omega⟩, if_pos ⟨rfl, hrun⟩, hpos]
        rfl
      · rw [if_neg fun hc => hrun (by omega), if_neg fun hc => hrun hc.2]
        rfl

/-- An interval with one more element. -/
theorem exists_between_succ {P : ℕ → Prop} {a b : ℕ} (hab : a ≤ b) :
    (∃ x < b + 1, a ≤ x ∧ P x) ↔ (∃ x < b, a ≤ x ∧ P x) ∨ P b := by
  constructor
  · rintro ⟨x, hx, hax, hP⟩
    rcases Nat.lt_succ_iff_lt_or_eq.mp hx with hlt | rfl
    · exact Or.inl ⟨x, hlt, hax, hP⟩
    · exact Or.inr hP
  · rintro (⟨x, hx, hax, hP⟩ | hP)
    · exact ⟨x, Nat.lt_succ_of_lt hx, hax, hP⟩
    · exact ⟨b, Nat.lt_succ_self b, hab, hP⟩

/-! ### Extremes of a set, -1 for the empty set -/

/-- `v` is the least element of `P`. -/
def LeastOf (P : ℕ → Prop) (v : ℤ) : Prop :=
  (v = -1 ∧ ∀ y, ¬ P y) ∨ ∃ k : ℕ, v = k ∧ P k ∧ ∀ y, P y → k ≤ y

/-- `v` is the greatest element of `P`. -/
def GreatestOf (P : ℕ → Prop) (v : ℤ) : Prop :=
  (v = -1 ∧ ∀ y, ¬ P y) ∨ ∃ k : ℕ, v = k ∧ P k ∧ ∀ y, P y → y ≤ k

variable {P Q : ℕ → Prop} {v : ℤ}

theorem leastOf_empty (h : ∀ y, ¬ P y) : LeastOf P (-1) := Or.inl ⟨rfl, h⟩

theorem greatestOf_empty (h : ∀ y, ¬ P y) : GreatestOf P (-1) := Or.inl ⟨rfl, h⟩

theorem LeastOf.congr (h : LeastOf P v) (hPQ : ∀ y, P y ↔ Q y) : LeastOf Q v := by
  obtain rfl : P = Q := funext fun y => propext (hPQ y)
  exact h

theorem GreatestOf.congr (h : GreatestOf P v) (hPQ : ∀ y, P y ↔ Q y) : GreatestOf Q v := by
  obtain rfl : P = Q := funext fun y => propext (hPQ y)
  exact h

theorem LeastOf.insert (h : LeastOf P v) (y : ℕ) :
    LeastOf (fun z => P z ∨ z = y) (if v < 0 ∨ (y : ℤ) < v then y else v) := by
  rcases h with ⟨rfl, hP⟩ | ⟨k, rfl, hk, hmin⟩
  · rw [if_pos (Or.inl (by omega))]
    exact Or.inr ⟨y, rfl, Or.inr rfl, fun z hz => hz.elim (fun h => absurd h (hP z)) (by omega)⟩
  · split
    · refine Or.inr ⟨y, rfl, Or.inr rfl, fun z hz => ?_⟩
      rcases hz with hz | rfl
      · have := hmin z hz; omega
      · exact Nat.le_refl _
    · refine Or.inr ⟨k, rfl, Or.inl hk, fun z hz => ?_⟩
      rcases hz with hz | rfl
      · exact hmin z hz
      · omega

theorem GreatestOf.insert (h : GreatestOf P v) (y : ℕ) :
    GreatestOf (fun z => P z ∨ z = y) (if v < 0 ∨ v < (y : ℤ) then y else v) := by
  rcases h with ⟨rfl, hP⟩ | ⟨k, rfl, hk, hmax⟩
  · rw [if_pos (Or.inl (by omega))]
    exact Or.inr ⟨y, rfl, Or.inr rfl, fun z hz => hz.elim (fun h => absurd h (hP z)) (by omega)⟩
  · split
    · refine Or.inr ⟨y, rfl, Or.inr rfl, fun z hz => ?_⟩
      rcases hz with hz | rfl
      · have := hmax z hz; omega
      · exact Nat.le_refl _
    · refine Or.inr ⟨k, rfl, Or.inl hk, fun z hz => ?_⟩
      rcases hz with hz | rfl
      · exact hmax z hz
      · omega

/-- A set taken from `Q` below `y`, one place further. -/
theorem below_succ_of {y : ℕ} (hy : Q y) (z : ℕ) :
    (P z ∨ z < y ∧ Q z) ∨ z = y ↔ P z ∨ z < y + 1 ∧ Q z := by
  constructor
  · rintro ((hz | ⟨hz, hq⟩) | rfl)
    · exact Or.inl hz
    · exact Or.inr ⟨Nat.lt_succ_of_lt hz, hq⟩
    · exact Or.inr ⟨Nat.lt_succ_self z, hy⟩
  · rintro (hz | ⟨hz, hq⟩)
    · exact Or.inl (Or.inl hz)
    · rcases Nat.lt_succ_iff_lt_or_eq.mp hz with hz | rfl
      · exact Or.inl (Or.inr ⟨hz, hq⟩)
      · exact Or.inr rfl

theorem below_succ_of_not {y : ℕ} (hy : ¬ Q y) (z : ℕ) :
    P z ∨ z < y ∧ Q z ↔ P z ∨ z < y + 1 ∧ Q z := by
  refine or_congr_right ⟨fun ⟨hz, hq⟩ => ⟨Nat.lt_succ_of_lt hz, hq⟩, fun ⟨hz, hq⟩ => ⟨?_, hq⟩⟩
  rcases Nat.lt_succ_iff_lt_or_eq.mp hz with hz | rfl
  · exact hz
  · exact absurd hq hy

/-- The least element, found by search below `n`. -/
theorem LeastOf.eq_find (h : LeastOf P v) {p : ℕ → Bool} {n : ℕ} (hp : ∀ y, p y = true ↔ P y)
    (hn : ∀ y, P y → y < n) (hne : ∃ y, P y) : v = (((List.range n).find? p).getD 0 : ℕ) := by
  rcases h with ⟨-, hP⟩ | ⟨k, rfl, hk, hmin⟩
  · exact absurd hne.choose_spec (hP _)
  · have hfind : (List.range n).find? p = some k := by
      rw [List.find?_range_eq_some]
      refine ⟨(hp k).mpr hk, List.mem_range.mpr (hn k hk), fun j hj => ?_⟩
      rw [Bool.not_eq_true', Bool.eq_false_iff]
      exact fun hpj => absurd (hmin j ((hp j).mp hpj)) (by omega)
    rw [hfind]
    rfl

/-- The greatest element, found by search up to `n`; 0 stands for none. -/
theorem GreatestOf.toNat_eq (h : GreatestOf P v) [DecidablePred P] {n : ℕ}
    (hn : ∀ y, P y → y ≤ n) : v.toNat = Nat.findGreatest P n := by
  rcases h with ⟨rfl, hP⟩ | ⟨k, rfl, hk, hmax⟩
  · rw [eq_comm, Int.toNat_of_nonpos (by omega), Nat.findGreatest_eq_zero_iff]
    exact fun y _ _ => hP y
  · rw [Int.toNat_natCast, eq_comm, Nat.findGreatest_eq_iff]
    exact ⟨hn k hk, fun _ => hk, fun {y} hy _ hPy => absurd (hmax y hPy) (by omega)⟩

end Segments
end Lib
