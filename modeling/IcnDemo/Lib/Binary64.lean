/-
# Binary64 rounding is a standard model

`nearest` rounds a rational to the nearest number of 53 binary digits, ties to
even, with the exponents of binary64: gradual underflow below, an infinity
above. `binary64` is the arithmetic that rounds so, and `binary64Model` says
that it is a standard model. A counter in steps of 1 is exact
(`binary64_ratioCounter_self`).
-/
import IcnDemo.Lib.Double
import Mathlib.Data.Int.Log

namespace Lib
namespace Double

/-- The nearest integer, the even one of two. -/
def roundEven (q : ℚ) : ℤ :=
  if q - ⌊q⌋ < 1 / 2 then ⌊q⌋
  else if 1 / 2 < q - ⌊q⌋ then ⌊q⌋ + 1
  else if ⌊q⌋ % 2 = 0 then ⌊q⌋ else ⌊q⌋ + 1

/-- The exponent of the last digit. -/
def lastExponent (r : ℚ) : ℤ := max (Int.log 2 |r| - 52) (-1074)

/-- The value rounded to the digits kept. -/
def roundedValue (r : ℚ) : ℚ := roundEven (r / 2 ^ lastExponent r) * 2 ^ lastExponent r

def nearest (r : ℚ) : Ext :=
  if |roundedValue r| < 2 ^ 1024 then .rat (roundedValue r)
  else if 0 < r then .posInf else .negInf

/-- Double arithmetic as binary64 rounds it. -/
def binary64 : Ops Ext := rounded nearest

theorem roundEven_error (q : ℚ) : |(roundEven q : ℚ) - q| ≤ 1 / 2 := by
  have h1 := Int.floor_le q
  have h2 := Int.lt_floor_add_one q
  rw [abs_le]
  unfold roundEven
  split_ifs <;> push_cast <;> constructor <;> linarith

theorem roundEven_intCast (i : ℤ) : roundEven i = i := by
  rw [roundEven, if_pos] <;> simp

@[simp] theorem roundedValue_zero : roundedValue 0 = 0 := by
  have := roundEven_intCast 0
  simp_all [roundedValue]

theorem nearest_of_lt {r : ℚ} (h : |roundedValue r| < 2 ^ 1024) :
    nearest r = .rat (roundedValue r) := if_pos h

/-- The digits kept lose at most half a unit of the last of them. -/
theorem roundedValue_error (r : ℚ) : |roundedValue r - r| ≤ 2 ^ lastExponent r / 2 := by
  have hp : (0 : ℚ) < 2 ^ lastExponent r := zpow_pos (by norm_num) _
  have heq : roundedValue r - r =
      (roundEven (r / 2 ^ lastExponent r) - r / 2 ^ lastExponent r) * 2 ^ lastExponent r := by
    rw [sub_mul, div_mul_cancel₀ _ hp.ne']
    rfl
  rw [heq, abs_mul, abs_of_pos hp]
  calc _ ≤ 1 / 2 * (2 : ℚ) ^ lastExponent r := by gcongr; exact roundEven_error _
    _ = 2 ^ lastExponent r / 2 := by ring

/-- In range the last digit stands 52 places after the first. -/
theorem lastExponent_of_inRange {r : ℚ} (h : 1 / 2 ^ 100 ≤ |r|) :
    lastExponent r = Int.log 2 |r| - 52 := by
  have hlt : (1 : ℚ) / 2 ^ 100 < 2 ^ (Int.log 2 |r| + 1) :=
    lt_of_le_of_lt h (Int.lt_zpow_succ_log_self (by norm_num) _)
  have hz : (1 : ℚ) / 2 ^ 100 = 2 ^ (-100 : ℤ) := by
    rw [zpow_neg, one_div]; norm_cast
  rw [hz, zpow_lt_zpow_iff_right₀ (by norm_num)] at hlt
  unfold lastExponent
  omega

/-- **In range the relative error is at most the unit roundoff.** -/
theorem near_nearest (r : ℚ) : Near (.rat r) (nearest r) := by
  intro hr
  have hu := unitRoundoff_pos
  rcases hr with rfl | ⟨h1, h2⟩
  · exact ⟨0, by simpa using hu.le, by rw [nearest_of_lt] <;> simp⟩
  · have hpos : 0 < |r| := lt_of_lt_of_le (by positivity) h1
    have hr0 : r ≠ 0 := abs_pos.mp hpos
    have hlog : (2 : ℚ) ^ Int.log 2 |r| ≤ |r| := Int.zpow_log_le_self (by norm_num) hpos
    have herr : |roundedValue r - r| ≤ unitRoundoff * |r| := by
      apply le_trans (roundedValue_error r)
      rw [lastExponent_of_inRange h1, zpow_sub₀ (by norm_num : (2 : ℚ) ≠ 0)]
      calc (2 : ℚ) ^ Int.log 2 |r| / 2 ^ (52 : ℤ) / 2
          = 1 / 2 ^ 53 * 2 ^ Int.log 2 |r| := by norm_num; ring
        _ ≤ unitRoundoff * |r| := by unfold unitRoundoff; gcongr
    refine ⟨(roundedValue r - r) / r, ?_, ?_⟩
    · rw [abs_div, div_le_iff₀ hpos]
      exact herr
    · rw [nearest_of_lt]
      · congr 1
        field_simp
        ring
      · have := abs_add_le (roundedValue r - r) r
        rw [sub_add_cancel] at this
        have hu1 := unitRoundoff_le_one
        calc |roundedValue r| ≤ 1 * |r| + |r| := by nlinarith
          _ ≤ 1 * 2 ^ 100 + 2 ^ 100 := by gcongr
          _ = 2 ^ 101 := by norm_num
          _ < 2 ^ 1024 := pow_lt_pow_right₀ (by norm_num) (by norm_num)

/-- An integer of at most 53 binary digits is kept. -/
theorem roundedValue_intCast {i : ℤ} (hi : |i| ≤ 2 ^ 53) : roundedValue i = i := by
  rcases eq_or_ne i 0 with rfl | hi0
  · simp
  have hiq : (1 : ℚ) ≤ |(i : ℚ)| := by exact_mod_cast Int.one_le_abs hi0
  have hle : |(i : ℚ)| ≤ 2 ^ 53 := by exact_mod_cast hi
  have hlog : Int.log 2 |(i : ℚ)| ≤ 53 := by
    have h := le_trans (Int.zpow_log_le_self (b := 2) (by norm_num) (by linarith)) hle
    have hz : (2 : ℚ) ^ 53 = 2 ^ (53 : ℤ) := by norm_cast
    rw [hz] at h
    exact (zpow_le_zpow_iff_right₀ (by norm_num : (1 : ℚ) < 2)).mp (by exact_mod_cast h)
  -- the scaled integer is an integer
  obtain ⟨m, hm⟩ : ∃ m : ℤ, (i : ℚ) / 2 ^ lastExponent i = m := by
    rw [lastExponent_of_inRange (le_trans (by norm_num) hiq)]
    rcases eq_or_lt_of_le hlog with h53 | h53
    · have hge : (2 : ℚ) ^ 53 ≤ |(i : ℚ)| := by
        have h := Int.zpow_log_le_self (b := 2) (r := |(i : ℚ)|) (by norm_num) (by linarith)
        rw [h53] at h
        exact_mod_cast h
      have heq : |i| = 2 ^ 53 := by exact_mod_cast le_antisymm hle hge
      rw [h53]
      rcases abs_eq (by norm_num) |>.mp heq with rfl | rfl
      · exact ⟨2 ^ 52, by norm_num⟩
      · exact ⟨-2 ^ 52, by norm_num⟩
    · obtain ⟨n, hn⟩ := Int.eq_ofNat_of_zero_le (show 0 ≤ 52 - Int.log 2 |(i : ℚ)| by omega)
      refine ⟨i * 2 ^ n, ?_⟩
      rw [show Int.log 2 |(i : ℚ)| - 52 = -(n : ℤ) by omega, zpow_neg, zpow_natCast, div_inv_eq_mul]
      push_cast
      rfl
  have hp : (2 : ℚ) ^ lastExponent i ≠ 0 := (zpow_pos (by norm_num) _).ne'
  unfold roundedValue
  rw [hm, roundEven_intCast, ← hm, div_mul_cancel₀ _ hp]

theorem near_roundWith_nearest (e : Ext) : Near e (e.roundWith nearest) := by
  cases e with
  | rat r => exact near_nearest r
  | _ => rfl

/-- **Binary64 arithmetic is a standard model.** -/
def binary64Model : StandardModel binary64 where
  value := id
  ofInt i hi := by
    change nearest (i : ℚ) = .rat i
    have hle : |(i : ℚ)| ≤ 2 ^ 53 := by exact_mod_cast hi
    rw [nearest_of_lt, roundedValue_intCast hi]
    rw [roundedValue_intCast hi]
    exact lt_of_le_of_lt hle (pow_lt_pow_right₀ (by norm_num) (by norm_num))
  add a b := near_roundWith_nearest (a.add b)
  div a b := near_roundWith_nearest (a.div b)
  lt _ _ := rfl
  toIndex a q h _ _ := by
    obtain rfl : a = .rat q := h
    rfl

/-! ### A counter in steps of 1 -/

theorem nearest_intCast {i : ℤ} (hi : |i| ≤ 2 ^ 53) : nearest i = .rat i := binary64Model.ofInt i hi

theorem nearest_natCast {n : ℕ} (hn : n ≤ 2 ^ 53) : nearest n = .rat n :=
  binary64Model.value_natCast hn

/-- From 0 to `n` in `n` steps the counter is the number of turns. -/
theorem binary64_ratioCounter_self {n : ℕ} (hn : 0 < n) (hn' : n ≤ 2 ^ 53) :
    ∀ {k : ℕ}, k ≤ 2 ^ 53 → ratioCounter binary64 n n k = .rat k
  | 0, _ => nearest_intCast (i := 0) (by norm_num)
  | k + 1, hk => by
    have hn0 : (n : ℚ) ≠ 0 := by exact_mod_cast hn.ne'
    have hint : binary64.ofInt n = .rat n := nearest_natCast hn'
    have hone : nearest 1 = .rat 1 := by simpa using nearest_natCast (n := 1) (by norm_num)
    have hstep : ratioStep binary64 n n = .rat 1 := by
      rw [ratioStep, hint]
      change ((Ext.rat n).div (.rat n)).roundWith nearest = _
      rw [Ext.div_rat _ hn0, div_self hn0]
      exact hone
    have ih := binary64_ratioCounter_self hn hn' (Nat.le_of_succ_le hk)
    rw [ratioCounter] at ih ⊢
    rw [counter_succ, ih, hstep]
    change nearest ((k : ℚ) + 1) = _
    have hsucc := nearest_natCast hk
    push_cast at hsucc ⊢
    exact hsucc

/-- The turns of the loop from 0 below `n` in `n` steps. -/
theorem binary64_turns_self {n : ℕ} (hn : 0 < n) (hn' : n ≤ 2 ^ 53) :
    (∀ k < n, binary64.lt (ratioCounter binary64 n n k) (binary64.ofInt n) = true ∧
      binary64.toIndex (ratioCounter binary64 n n k) = k) ∧
    binary64.lt (ratioCounter binary64 n n n) (binary64.ofInt n) = false := by
  have hint : binary64.ofInt n = .rat n := nearest_natCast hn'
  refine ⟨fun k hk => ⟨?_, ?_⟩, ?_⟩
  · rw [binary64_ratioCounter_self hn hn' (by omega), hint]
    change decide ((k : ℚ) < n) = true
    simpa using hk
  · rw [binary64_ratioCounter_self hn hn' (by omega)]
    change ⌊(k : ℚ)⌋.toNat = k
    simp
  · rw [binary64_ratioCounter_self hn hn' hn', hint]
    change decide ((n : ℚ) < n) = false
    simp

end Double
end Lib
