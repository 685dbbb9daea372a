/-
# Rounding errors and what they add up to

`roundedCounter` is the counter of a loop `x += step` whose additions have relative
errors of at most `unitRoundoff`: after `k` turns it is `k` steps, up to `k` such
errors (`roundedCounter_bounds`). `Follows` says that a counter stays within `1 / w`
of one in exact steps of `W / w`. That is enough for the loop from 0 below `W` to
take `w` or `w + 1` turns (`Follows.turns`), with the exact indices, or the one
before an index that is met without a remainder (`Follows.index`). Up to sizes of
65536 every rounded counter follows (`roundedCounter_follows`).
-/
import Mathlib.Data.Rat.Floor
import Mathlib.Tactic.Linarith
import Mathlib.Tactic.NormNum
import Mathlib.Tactic.GCongr
import Mathlib.Tactic.FieldSimp
import Mathlib.Algebra.Order.Ring.Pow

namespace Lib
namespace Double

/-- Half the distance from 1 to the next `double`. -/
def unitRoundoff : ℚ := 1 / 2 ^ 53

/-! ### Powers of the rounding error -/

theorem unitRoundoff_pos : 0 < unitRoundoff := by norm_num [unitRoundoff]

theorem unitRoundoff_le_one : unitRoundoff ≤ 1 := by norm_num [unitRoundoff]

/-- `k` errors downwards cost at most `k` unit roundoffs. -/
theorem le_pow_one_sub (k : ℕ) : 1 - k * unitRoundoff ≤ (1 - unitRoundoff) ^ k := by
  have h := one_add_mul_le_pow (a := -unitRoundoff)
    (by linarith [unitRoundoff_le_one]) k
  calc 1 - k * unitRoundoff = 1 + k * -unitRoundoff := by ring
    _ ≤ (1 + -unitRoundoff) ^ k := h
    _ = (1 - unitRoundoff) ^ k := by ring

/-- `k` errors upwards, undone by `k` errors downwards. -/
theorem pow_one_add_mul_le (k : ℕ) : (1 + unitRoundoff) ^ k * (1 - k * unitRoundoff) ≤ 1 := by
  have hu := unitRoundoff_pos
  have hu1 := unitRoundoff_le_one
  calc (1 + unitRoundoff) ^ k * (1 - k * unitRoundoff)
      ≤ (1 + unitRoundoff) ^ k * (1 - unitRoundoff) ^ k := by
        gcongr; exact le_pow_one_sub k
    _ = ((1 + unitRoundoff) * (1 - unitRoundoff)) ^ k := (mul_pow _ _ _).symm
    _ ≤ 1 := pow_le_one₀ (by nlinarith) (by nlinarith)

theorem pow_one_add_le_two {k : ℕ} (hk : k ≤ 2 ^ 52) : (1 + unitRoundoff) ^ k ≤ 2 := by
  have hku : (k : ℚ) * unitRoundoff ≤ 1 / 2 := by
    have : (k : ℚ) ≤ 2 ^ 52 := by exact_mod_cast hk
    calc (k : ℚ) * unitRoundoff ≤ 2 ^ 52 * unitRoundoff := by
          gcongr; exact unitRoundoff_pos.le
      _ = 1 / 2 := by norm_num [unitRoundoff]
  have hpos : 0 < (1 + unitRoundoff) ^ k := pow_pos (by linarith [unitRoundoff_pos]) k
  nlinarith [pow_one_add_mul_le k]

/-! ### A counter with rounding errors -/

/-- The counter of `for (x = 0; ..; x += step)` after `k` turns, the `k`-th addition
with the relative error `d k`. -/
def roundedCounter (step : ℚ) (d : ℕ → ℚ) : ℕ → ℚ
  | 0 => 0
  | k + 1 => (roundedCounter step d k + step) * (1 + d (k + 1))

@[simp] theorem roundedCounter_zero (step : ℚ) (d : ℕ → ℚ) : roundedCounter step d 0 = 0 := rfl

theorem roundedCounter_succ (step : ℚ) (d : ℕ → ℚ) (k : ℕ) : roundedCounter step d (k + 1) =
    (roundedCounter step d k + step) * (1 + d (k + 1)) := rfl

/-- Errors still to come do not matter. -/
theorem roundedCounter_congr {step : ℚ} {d d' : ℕ → ℚ} :
    ∀ {k : ℕ}, (∀ i ≤ k, d i = d' i) → roundedCounter step d k = roundedCounter step d' k
  | 0, _ => rfl
  | k + 1, h => by
    rw [roundedCounter_succ, roundedCounter_succ, h (k + 1) (Nat.le_refl _),
      roundedCounter_congr fun i hi => h i (Nat.le_succ_of_le hi)]

variable {step : ℚ} {d : ℕ → ℚ}

/-- **After `k` turns the counter is `k` steps, up to `k` rounding errors.** -/
theorem roundedCounter_bounds (hd : ∀ k, |d k| ≤ unitRoundoff) (hstep : 0 ≤ step) : ∀ k : ℕ,
    k * step * (1 - unitRoundoff) ^ k ≤ roundedCounter step d k ∧
      roundedCounter step d k ≤ k * step * (1 + unitRoundoff) ^ k
  | 0 => by simp
  | k + 1 => by
    obtain ⟨hlo, hhi⟩ := roundedCounter_bounds hd hstep k
    obtain ⟨hd1, hd2⟩ := abs_le.mp (hd (k + 1))
    have hu := unitRoundoff_pos
    have hu1 := unitRoundoff_le_one
    have hdown : (1 - unitRoundoff) ^ k ≤ 1 := pow_le_one₀ (by linarith) (by linarith)
    have hdown0 : 0 ≤ (1 - unitRoundoff) ^ k := pow_nonneg (by linarith) k
    have hup : 1 ≤ (1 + unitRoundoff) ^ k := one_le_pow₀ (by linarith)
    have hv0 : 0 ≤ roundedCounter step d k := le_trans (by positivity) hlo
    rw [roundedCounter_succ]
    push_cast
    constructor
    · calc ((k : ℚ) + 1) * step * (1 - unitRoundoff) ^ (k + 1)
          = (k * step * (1 - unitRoundoff) ^ k + step * (1 - unitRoundoff) ^ k)
            * (1 - unitRoundoff) := by ring
        _ ≤ (roundedCounter step d k + step * 1) * (1 - unitRoundoff) := by gcongr
        _ ≤ (roundedCounter step d k + step) * (1 + d (k + 1)) := by
          rw [mul_one]; gcongr; linarith
    · calc (roundedCounter step d k + step) * (1 + d (k + 1))
          ≤ (k * step * (1 + unitRoundoff) ^ k + step * 1) * (1 + unitRoundoff) := by
            rw [mul_one]; gcongr; linarith
        _ ≤ (k * step * (1 + unitRoundoff) ^ k + step * (1 + unitRoundoff) ^ k)
            * (1 + unitRoundoff) := by gcongr
        _ = ((k : ℚ) + 1) * step * (1 + unitRoundoff) ^ (k + 1) := by ring

theorem roundedCounter_nonneg (hd : ∀ k, |d k| ≤ unitRoundoff) (hstep : 0 ≤ step) (k : ℕ) :
    0 ≤ roundedCounter step d k := by
  refine le_trans ?_ (roundedCounter_bounds hd hstep k).1
  have : 0 ≤ (1 - unitRoundoff) ^ k := pow_nonneg (by linarith [unitRoundoff_le_one]) k
  positivity

/-- In steps of `W / w`, rounded as well, it is `k W / w` up to `k + 1` errors. -/
theorem roundedRatio_bounds {W w : ℕ} {d0 : ℚ} (hd0 : |d0| ≤ unitRoundoff)
    (hd : ∀ k, |d k| ≤ unitRoundoff) (k : ℕ) :
    k * (W / w) * (1 - unitRoundoff) ^ (k + 1) ≤ roundedCounter (W / w * (1 + d0)) d k ∧
      roundedCounter (W / w * (1 + d0)) d k ≤ k * (W / w) * (1 + unitRoundoff) ^ (k + 1) := by
  obtain ⟨hd1, hd2⟩ := abs_le.mp hd0
  have hu := unitRoundoff_pos
  have hu1 := unitRoundoff_le_one
  have hstep : 0 ≤ (W : ℚ) / w * (1 + d0) := by
    have : 0 ≤ 1 + d0 := by linarith
    positivity
  obtain ⟨hlo, hhi⟩ := roundedCounter_bounds hd hstep k
  refine ⟨le_trans ?_ hlo, le_trans hhi ?_⟩
  · calc (k : ℚ) * (W / w) * (1 - unitRoundoff) ^ (k + 1)
        = k * (W / w * (1 - unitRoundoff)) * (1 - unitRoundoff) ^ k := by ring
      _ ≤ k * (W / w * (1 + d0)) * (1 - unitRoundoff) ^ k := by
          have : 0 ≤ (1 - unitRoundoff) ^ k := pow_nonneg (by linarith) k
          gcongr
          linarith
  · calc (k : ℚ) * (W / w * (1 + d0)) * (1 + unitRoundoff) ^ k
        ≤ k * (W / w * (1 + unitRoundoff)) * (1 + unitRoundoff) ^ k := by gcongr
      _ = k * (W / w) * (1 + unitRoundoff) ^ (k + 1) := by ring

/-! ### Counters that follow the exact one -/

/-- The counter starts at 0 and stays within `1 / w` of that in steps of `W / w`. -/
structure Follows (W w : ℕ) (x : ℕ → ℚ) : Prop where
  zero : x 0 = 0
  nonneg : ∀ k, 0 ≤ x k
  near : ∀ k ≤ w + 1, |x k - k * (W / w)| < 1 / w

/-- **A rational within `1 / w` of `a / w` truncates as that does**, or to one less if
`a / w` is an integer. -/
theorem floor_of_near {a w : ℕ} (hw : 0 < w) {q : ℚ} (hq : 0 ≤ q) (hnear : |q - a / w| < 1 / w) :
    ⌊q⌋.toNat = a / w ∨ (w ∣ a ∧ ⌊q⌋.toNat + 1 = a / w) := by
  have hwq : (0 : ℚ) < w := by exact_mod_cast hw
  obtain ⟨h1, h2⟩ := abs_lt.mp hnear
  have hlo : (a : ℚ) - 1 < q * w := by
    have := mul_lt_mul_of_pos_right h1 hwq
    field_simp at this
    linarith
  have hhi : q * w < a + 1 := by
    have := mul_lt_mul_of_pos_right h2 hwq
    field_simp at this
    linarith
  have hfloor := Int.floor_nonneg.mpr hq
  obtain ⟨n, hn⟩ := Int.eq_ofNat_of_zero_le hfloor
  have hle : (n : ℚ) ≤ q := by
    have := Int.floor_le q
    rw [hn] at this
    exact_mod_cast this
  have hlt : q < n + 1 := by
    have := Int.lt_floor_add_one q
    rw [hn] at this
    exact_mod_cast this
  -- in naturals: `n w < a + 1` and `a < (n + 1) w + 1`
  have hna : n * w < a + 1 := by
    have : (n : ℚ) * w < a + 1 := lt_of_le_of_lt (by gcongr) hhi
    exact_mod_cast this
  have han : a < (n + 1) * w + 1 := by
    have : (a : ℚ) < (n + 1) * w + 1 := by
      have : q * w < (n + 1) * w := by gcongr
      linarith
    exact_mod_cast this
  rw [hn, Int.toNat_natCast]
  by_cases hexact : a = (n + 1) * w
  · right
    rw [hexact, Nat.mul_div_cancel _ hw]
    exact ⟨Nat.dvd_mul_left w (n + 1), rfl⟩
  · left
    symm
    rw [Nat.div_eq_iff hw]
    rw [Nat.succ_mul] at han hexact
    omega

namespace Follows

variable {W w k : ℕ} {x : ℕ → ℚ}

/-- Before the `w`-th turn the counter is below `W`. -/
theorem lt (h : Follows W w x) (hW : 0 < W) (hk : k < w) : x k < W := by
  have hwq : (0 : ℚ) < w := by exact_mod_cast (Nat.zero_lt_of_lt hk)
  have hnear := (abs_lt.mp (h.near k (by omega))).2
  have hnat : k * W + 1 ≤ w * W := by
    have := Nat.mul_le_mul_right W (Nat.succ_le_of_lt hk)
    rw [Nat.succ_mul] at this
    omega
  have hq : (k : ℚ) * W + 1 ≤ w * W := by exact_mod_cast hnat
  calc x k < k * (W / w) + 1 / w := by linarith
    _ = (k * W + 1) / w := by field_simp
    _ ≤ W := by rw [div_le_iff₀ hwq]; linarith

/-- After `w + 1` turns it is not. -/
theorem le_succ (h : Follows W w x) (hW : 0 < W) (hw : 0 < w) : (W : ℚ) ≤ x (w + 1) := by
  have hwq : (0 : ℚ) < w := by exact_mod_cast hw
  have hWq : (1 : ℚ) ≤ W := by exact_mod_cast hW
  have hnear := (abs_lt.mp (h.near (w + 1) (Nat.le_refl _))).1
  push_cast at hnear
  calc (W : ℚ) ≤ ((w + 1) * W - 1) / w := by rw [le_div_iff₀ hwq]; linarith
    _ = (w + 1) * (W / w) - 1 / w := by field_simp
    _ ≤ x (w + 1) := by linarith

/-- **The loop from 0 below `W` takes `w` or `w + 1` turns.** -/
theorem turns (h : Follows W w x) (hW : 0 < W) (hw : 0 < w) :
    ∃ n, (n = w ∨ n = w + 1) ∧ (∀ k < n, x k < W) ∧ (W : ℚ) ≤ x n := by
  by_cases hend : x w < W
  · refine ⟨w + 1, Or.inr rfl, fun k hk => ?_, h.le_succ hW hw⟩
    rcases Nat.lt_succ_iff_lt_or_eq.mp hk with hlt | rfl
    · exact h.lt hW hlt
    · exact hend
  · exact ⟨w, Or.inl rfl, fun k hk => h.lt hW hk, not_lt.mp hend⟩

/-- Below `W` it truncates to an index below `W`. -/
theorem index_lt (h : Follows W w x) (hlt : x k < W) : ⌊x k⌋.toNat < W := by
  have h1 : ⌊x k⌋ < (W : ℤ) := Int.floor_lt.mpr (by exact_mod_cast hlt)
  have h2 : 0 ≤ ⌊x k⌋ := Int.floor_nonneg.mpr (h.nonneg k)
  omega

/-- **The indices are the exact ones**, or one less where the exact counter is an
integer. -/
theorem index (h : Follows W w x) (hw : 0 < w) (hk : k ≤ w + 1) : ⌊x k⌋.toNat = k * W / w ∨
    (0 < k ∧ w ∣ k * W ∧ ⌊x k⌋.toNat + 1 = k * W / w) := by
  have hnear := h.near k hk
  rw [← mul_div_assoc] at hnear
  rcases floor_of_near (a := k * W) hw (h.nonneg k) (by push_cast; exact hnear) with heq | heq
  · exact Or.inl heq
  · refine Or.inr ⟨Nat.pos_of_ne_zero ?_, heq⟩
    rintro rfl
    simp at heq

end Follows

/-- Up to some hundred thousand errors their product is close to 1. -/
theorem pow_near {n : ℕ} (hn : n ≤ 2 ^ 17) :
    1 - 1 / 2 ^ 35 ≤ (1 - unitRoundoff) ^ n ∧ (1 + unitRoundoff) ^ n ≤ 1 + 1 / 2 ^ 35 := by
  have hnq : (n : ℚ) ≤ 2 ^ 17 := by exact_mod_cast hn
  have hcost : n * unitRoundoff ≤ 1 / 2 ^ 36 := by
    calc n * unitRoundoff ≤ 2 ^ 17 * unitRoundoff := by gcongr; exact unitRoundoff_pos.le
      _ = 1 / 2 ^ 36 := by norm_num [unitRoundoff]
  constructor
  · refine le_trans ?_ (le_pow_one_sub n)
    linarith
  · have hpow := pow_one_add_mul_le n
    have hpos : 0 < (1 + unitRoundoff) ^ n := pow_pos (by linarith [unitRoundoff_pos]) n
    have hle : (1 + unitRoundoff) ^ n * (1 - 1 / 2 ^ 36) ≤ 1 := by
      refine le_trans ?_ hpow
      gcongr
    calc (1 + unitRoundoff) ^ n = (1 + unitRoundoff) ^ n * (1 - 1 / 2 ^ 36) / (1 - 1 / 2 ^ 36) := by
          field_simp
      _ ≤ 1 / (1 - 1 / 2 ^ 36) := by gcongr
      _ ≤ 1 + 1 / 2 ^ 35 := by norm_num

/-- **Up to 65536 the rounded counter in steps of `W / w` follows the exact one.** -/
theorem roundedCounter_follows {W w : ℕ} (hW : W ≤ 65536) (hw : 0 < w) (hw' : w ≤ 65536)
    {d0 : ℚ} (hd0 : |d0| ≤ unitRoundoff) (hd : ∀ k, |d k| ≤ unitRoundoff) :
    Follows W w (roundedCounter (W / w * (1 + d0)) d) := by
  have hu1 := unitRoundoff_le_one
  have hwq : (0 : ℚ) < w := by exact_mod_cast hw
  have hw1 : (1 : ℚ) ≤ w := by exact_mod_cast hw
  have hWq : (W : ℚ) ≤ 2 ^ 16 := by exact_mod_cast hW
  have hwq' : (w : ℚ) ≤ 2 ^ 16 := by exact_mod_cast hw'
  have hstep : 0 ≤ (W : ℚ) / w * (1 + d0) := by
    have : 0 ≤ 1 + d0 := by linarith [(abs_le.mp hd0).1]
    positivity
  refine ⟨rfl, roundedCounter_nonneg hd hstep, fun k hk => ?_⟩
  obtain ⟨hlo, hhi⟩ := roundedRatio_bounds (W := W) (w := w) hd0 hd k
  obtain ⟨hdown, hup⟩ := pow_near (n := k + 1) (by omega)
  have hkq : (k : ℚ) ≤ w + 1 := by exact_mod_cast hk
  have hexact0 : 0 ≤ (k : ℚ) * (W / w) := by positivity
  -- the exact counter is at most `2 W`
  have hexact : (k : ℚ) * (W / w) ≤ 2 ^ 17 := by
    rw [← mul_div_assoc, div_le_iff₀ hwq]
    calc (k : ℚ) * W ≤ (w + 1) * 2 ^ 16 := by gcongr
      _ ≤ 2 ^ 17 * w := by linarith
  have hsmall : (k : ℚ) * (W / w) * (1 / 2 ^ 35) < 1 / w := by
    calc (k : ℚ) * (W / w) * (1 / 2 ^ 35) ≤ 2 ^ 17 * (1 / 2 ^ 35) := by gcongr
      _ < 1 / 2 ^ 16 := by norm_num
      _ ≤ 1 / w := by gcongr
  have hmin := mul_le_mul_of_nonneg_left hdown hexact0
  have hmax := mul_le_mul_of_nonneg_left hup hexact0
  rw [abs_lt]
  constructor
  · linarith
  · linarith

end Double
end Lib
