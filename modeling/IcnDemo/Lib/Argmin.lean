/-
# A scan for the least value

`best = bound; for (j = 0; j < n; j++) if (v[j] < best) { best = v[j]; index = j; }`
keeps the index of the last improvement (`scanIndex`). With a comparison that
orders keys and a bound above all of them it is the first index at which the
least key stands (`scanIndex_firstMin`); with values that are never below the
bound there is none (`scanIndex_eq_none`).
-/
import Mathlib.Order.Lattice
import Mathlib.Data.Nat.Notation

namespace Lib
namespace Argmin

variable {α κ : Type} (lt : α → α → Bool) (bound : α) (v : ℕ → α)

/-- The index of the best of the first `n` values, if one is below the bound. -/
def scanIndex : ℕ → Option ℕ
  | 0 => none
  | n + 1 => if lt (v n) ((scanIndex n).elim bound v) then some n else scanIndex n

variable {lt bound v}

theorem scanIndex_lt : ∀ {n j : ℕ}, scanIndex lt bound v n = some j → j < n
  | n + 1, j, h => by
    unfold scanIndex at h
    split at h
    · cases h; exact Nat.lt_succ_self _
    · exact Nat.lt_succ_of_lt (scanIndex_lt h)

/-- If the first value is below the bound there is a best one. -/
theorem scanIndex_isSome (h0 : lt (v 0) bound = true) :
    ∀ {n : ℕ}, 0 < n → ∃ j, scanIndex lt bound v n = some j
  | 1, _ => ⟨0, by rw [scanIndex, scanIndex]; exact if_pos h0⟩
  | n + 2, _ => by
    unfold scanIndex
    split
    · exact ⟨_, rfl⟩
    · exact scanIndex_isSome h0 (Nat.succ_pos n)

theorem scanIndex_eq_none : ∀ {n : ℕ}, (∀ j < n, lt (v j) bound = false) →
    scanIndex lt bound v n = none
  | 0, _ => rfl
  | n + 1, h => by
    rw [scanIndex, scanIndex_eq_none fun j hj => h j (Nat.lt_succ_of_lt hj), Option.elim_none,
      h n (Nat.lt_succ_self n)]
    rfl

/-- `j` is the first index below `n` at which the least key stands. -/
structure FirstMin [Preorder κ] (key : ℕ → κ) (n j : ℕ) : Prop where
  lt : j < n
  le : ∀ i < n, key j ≤ key i
  first : ∀ i < j, key j < key i

/-- **With a bound above every key the scan finds the first least key.** -/
theorem scanIndex_firstMin [LinearOrder κ] {key : ℕ → κ}
    (hlt : ∀ i j, lt (v i) (v j) = decide (key i < key j)) :
    ∀ {n : ℕ}, 0 < n → (∀ j < n, lt (v j) bound = true) →
      ∃ j, scanIndex lt bound v n = some j ∧ FirstMin key n j
  | 1, _, hb => ⟨0, by rw [scanIndex, scanIndex]; exact if_pos (hb 0 Nat.one_pos),
      Nat.one_pos, fun i hi => by rw [Nat.lt_one_iff.mp hi],
      fun i hi => absurd hi (Nat.not_lt_zero i)⟩
  | n + 2, _, hb => by
    obtain ⟨j, hj, hmin⟩ := scanIndex_firstMin hlt (n := n + 1) (Nat.succ_pos n)
      fun j hj => hb j (Nat.lt_succ_of_lt hj)
    unfold scanIndex
    rw [hj, Option.elim_some, hlt]
    by_cases hnew : key (n + 1) < key j
    · refine ⟨n + 1, if_pos (decide_eq_true hnew), Nat.lt_succ_self _, fun i hi => ?_, fun i hi =>
        lt_of_lt_of_le hnew (hmin.le i hi)⟩
      rcases Nat.lt_succ_iff_lt_or_eq.mp hi with hi | rfl
      · exact le_trans hnew.le (hmin.le i hi)
      · exact le_refl _
    · refine ⟨j, if_neg (by simpa using hnew), Nat.lt_succ_of_lt hmin.lt, fun i hi => ?_, hmin.first⟩
      rcases Nat.lt_succ_iff_lt_or_eq.mp hi with hi | rfl
      · exact hmin.le i hi
      · exact not_lt.mp hnew

end Argmin
end Lib
