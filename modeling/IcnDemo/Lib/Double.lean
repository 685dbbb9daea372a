/-
# Double arithmetic as a parameter

`Ops` is what a program asks of `double`: conversion from an integer, sum,
quotient, comparison, truncation to an index. Its values are read in the
extended rationals (`Ext`: a rational, an infinity or a NaN; the sign of a zero
is not kept). `rounded` is the arithmetic that rounds every rational result by a
given function: with none it is `exact`.

`StandardModel` is the usual model of floating-point arithmetic: a sum or a
quotient is the exact one up to a relative error of at most `unitRoundoff`. A
counter raised by a rounded step is a `roundedCounter` (`counter_value`). In steps of
`W / w` it is `k W / w` after `k` turns, up to `k + 1` such errors
(`ratioCounter_bounds`), so the loop from 0 below `W` ends (`ratio_turns`).
-/
import IcnDemo.Lib.Rounding
import Mathlib.Tactic.Positivity

namespace Lib
namespace Double

/-- The operations on `double`. -/
structure Ops (F : Type) where
  ofInt : ℤ → F
  add : F → F → F
  div : F → F → F
  lt : F → F → Bool
  /-- The conversion to an unsigned integer, by truncation. -/
  toIndex : F → ℕ

/-! ### Extended rationals -/

inductive Ext
  | rat (q : ℚ)
  | posInf
  | negInf
  | nan
deriving DecidableEq

namespace Ext

def add : Ext → Ext → Ext
  | rat a, rat b => rat (a + b)
  | nan, _ | _, nan => nan
  | posInf, negInf | negInf, posInf => nan
  | posInf, _ | _, posInf => posInf
  | negInf, _ | _, negInf => negInf

def div : Ext → Ext → Ext
  | rat a, rat b =>
    if b = 0 then (if a = 0 then nan else if 0 < a then posInf else negInf) else rat (a / b)
  | rat _, posInf | rat _, negInf => rat 0
  | posInf, rat b => if 0 ≤ b then posInf else negInf
  | negInf, rat b => if 0 ≤ b then negInf else posInf
  | _, _ => nan

/-- `a < b`; false whenever one of them is a NaN. -/
def lt : Ext → Ext → Bool
  | rat a, rat b => a < b
  | negInf, rat _ | negInf, posInf | rat _, posInf => true
  | _, _ => false

def toIndex : Ext → ℕ
  | rat q => ⌊q⌋.toNat
  | _ => 0

@[simp] theorem add_rat (a b : ℚ) : (rat a).add (rat b) = rat (a + b) := rfl

@[simp] theorem add_posInf (a : ℚ) : (rat a).add posInf = posInf := rfl

@[simp] theorem lt_rat (a b : ℚ) : (rat a).lt (rat b) = decide (a < b) := rfl

theorem div_rat (a : ℚ) {b : ℚ} (hb : b ≠ 0) : (rat a).div (rat b) = rat (a / b) := if_neg hb

@[simp] theorem zero_div_zero : (rat 0).div (rat 0) = nan := rfl

theorem div_zero {a : ℚ} (ha : 0 < a) : (rat a).div (rat 0) = posInf := by
  simp [div, ha.ne', ha]

@[simp] theorem nan_lt (a : Ext) : nan.lt a = false := by cases a <;> rfl

@[simp] theorem posInf_lt (a : Ext) : posInf.lt a = false := by cases a <;> rfl

@[simp] theorem toIndex_rat (q : ℚ) : (rat q).toIndex = ⌊q⌋.toNat := rfl

/-- The result of an operation, a rational one rounded. -/
def roundWith (round : ℚ → Ext) : Ext → Ext
  | rat q => round q
  | e => e

end Ext

/-- The arithmetic that rounds by `round`. -/
def rounded (round : ℚ → Ext) : Ops Ext where
  ofInt i := round i
  add a b := (a.add b).roundWith round
  div a b := (a.div b).roundWith round
  lt := Ext.lt
  toIndex := Ext.toIndex

/-- Double arithmetic read as exact rational arithmetic. -/
def exact : Ops Ext := rounded .rat

@[simp] theorem roundWith_rat (e : Ext) : e.roundWith .rat = e := by cases e <;> rfl

@[simp] theorem exact_ofInt (i : ℤ) : exact.ofInt i = .rat i := rfl

@[simp] theorem exact_add (a b : Ext) : exact.add a b = a.add b := roundWith_rat _

@[simp] theorem exact_div (a b : Ext) : exact.div a b = a.div b := roundWith_rat _

@[simp] theorem exact_lt (a b : Ext) : exact.lt a b = a.lt b := rfl

@[simp] theorem exact_toIndex (a : Ext) : exact.toIndex a = a.toIndex := rfl

/-! ### The standard model -/

/-- A magnitude well inside the range of the normal `double`s. -/
def InRange (r : ℚ) : Prop := r = 0 ∨ (1 / 2 ^ 100 ≤ |r| ∧ |r| ≤ 2 ^ 100)

/-- `f` is a correct result where `e` is the exact one: of a rational in range
up to a relative error, of an infinity or a NaN the same. -/
def Near : Ext → Ext → Prop
  | .rat r, f => InRange r → ∃ d, |d| ≤ unitRoundoff ∧ f = .rat (r * (1 + d))
  | e, f => f = e

/-- The standard model of floating-point arithmetic. -/
structure StandardModel {F : Type} (fp : Ops F) where
  value : F → Ext
  ofInt : ∀ i : ℤ, |i| ≤ 2 ^ 53 → value (fp.ofInt i) = .rat i
  add : ∀ a b, Near ((value a).add (value b)) (value (fp.add a b))
  div : ∀ a b, Near ((value a).div (value b)) (value (fp.div a b))
  lt : ∀ a b, fp.lt a b = (value a).lt (value b)
  toIndex : ∀ a q, value a = .rat q → 0 ≤ q → q < 2 ^ 63 → fp.toIndex a = ⌊q⌋.toNat

theorem near_refl (e : Ext) : Near e e := by
  cases e with
  | rat r => exact fun _ => ⟨0, by norm_num [unitRoundoff], by simp⟩
  | _ => rfl

/-- Exact arithmetic is a standard model. -/
def exactModel : StandardModel exact where
  value := id
  ofInt _ _ := rfl
  add a b := by simpa using near_refl (a.add b)
  div a b := by simpa using near_refl (a.div b)
  lt _ _ := rfl
  toIndex a q h _ _ := by
    obtain rfl : a = .rat q := h
    rfl

/-! ### A counter raised by a rounded step -/

variable {F : Type} {fp : Ops F}

/-- The counter of `for (x = start; ..; x += step)` after `k` turns. -/
def counter (fp : Ops F) (start step : F) : ℕ → F
  | 0 => start
  | k + 1 => fp.add (counter fp start step k) step

@[simp] theorem counter_zero (start step : F) : counter fp start step 0 = start := rfl

theorem counter_succ (start step : F) (k : ℕ) :
    counter fp start step (k + 1) = fp.add (counter fp start step k) step := rfl

/-- A positive rational in the middle of the range. -/
theorem inRange_of_pos {r : ℚ} (h1 : 1 / 2 ^ 100 ≤ r) (h2 : r ≤ 2 ^ 100) : InRange r := by
  have h0 : 0 ≤ r := le_trans (by positivity) h1
  exact Or.inr ⟨by rwa [abs_of_nonneg h0], by rwa [abs_of_nonneg h0]⟩

/-- The next sum of a rounded counter is in range. -/
theorem inRange_roundedCounter_add {s : ℚ} {d : ℕ → ℚ} (hd : ∀ k, |d k| ≤ unitRoundoff)
    (h1 : 1 / 2 ^ 40 ≤ s) (h2 : s ≤ 2 ^ 40) {n : ℕ} (hn : n ≤ 2 ^ 52) :
    InRange (roundedCounter s d n + s) := by
  have hs : 0 ≤ s := le_trans (by positivity) h1
  have hv0 := roundedCounter_nonneg hd hs n
  have hhi := (roundedCounter_bounds hd hs n).2
  refine inRange_of_pos ?_ ?_
  · calc (1 / 2 ^ 100 : ℚ) ≤ 1 / 2 ^ 40 := by norm_num
      _ ≤ roundedCounter s d n + s := by linarith
  · have hnq : (n : ℚ) ≤ 2 ^ 52 := by exact_mod_cast hn
    have htwo := pow_one_add_le_two hn
    have hu := unitRoundoff_pos
    calc roundedCounter s d n + s ≤ n * s * (1 + unitRoundoff) ^ n + s := by linarith
      _ ≤ 2 ^ 52 * 2 ^ 40 * 2 + 2 ^ 40 := by gcongr
      _ ≤ 2 ^ 100 := by norm_num

/-- **A counter in a standard model is one with rounding errors**, as long as it stays
in range. -/
theorem StandardModel.counter_value (model : StandardModel fp) {start step : F} {s : ℚ}
    (hstart : model.value start = .rat 0) (hstep : model.value step = .rat s)
    (h1 : 1 / 2 ^ 40 ≤ s) (h2 : s ≤ 2 ^ 40) :
    ∀ {n : ℕ}, n ≤ 2 ^ 52 → ∃ d : ℕ → ℚ, (∀ k, |d k| ≤ unitRoundoff) ∧
      ∀ k ≤ n, model.value (counter fp start step k) = .rat (roundedCounter s d k)
  | 0, _ => by
    refine ⟨fun _ => 0, fun _ => by simpa using unitRoundoff_pos.le, fun k hk => ?_⟩
    obtain rfl : k = 0 := Nat.le_zero.mp hk
    exact hstart
  | n + 1, hn => by
    obtain ⟨d, hd, hval⟩ := counter_value model hstart hstep h1 h2 (Nat.le_of_succ_le hn)
    have hadd := model.add (counter fp start step n) step
    rw [hval n (Nat.le_refl n), hstep, Ext.add_rat] at hadd
    obtain ⟨δ, hδ, hnext⟩ := hadd (inRange_roundedCounter_add hd h1 h2 (Nat.le_of_succ_le hn))
    -- the errors so far, and that of this turn
    have hsame : ∀ k ≤ n, roundedCounter s (Function.update d (n + 1) δ) k =
        roundedCounter s d k := by
      intro k hk
      apply roundedCounter_congr
      intro i hi
      exact Function.update_of_ne (by omega) _ _
    refine ⟨Function.update d (n + 1) δ, fun k => ?_, fun k hk => ?_⟩
    · by_cases hk : k = n + 1
      · rw [hk, Function.update_self]
        exact hδ
      · rw [Function.update_of_ne hk]
        exact hd k
    · rcases Nat.le_succ_iff.mp hk with hk | rfl
      · rw [hsame k hk]
        exact hval k hk
      · rw [counter_succ, hnext, roundedCounter_succ, hsame n (Nat.le_refl n),
          Function.update_self]

/-! ### A counter from 0 to `W` in steps of `W / w` -/

/-- The step `(double) W / (double) w`. -/
def ratioStep (fp : Ops F) (W w : ℕ) : F := fp.div (fp.ofInt W) (fp.ofInt w)

/-- The counter of `for (x = 0; ..; x += (double) W / (double) w)`. -/
def ratioCounter (fp : Ops F) (W w : ℕ) : ℕ → F := counter fp (fp.ofInt 0) (ratioStep fp W w)

theorem StandardModel.value_natCast (model : StandardModel fp) {n : ℕ} (h : n ≤ 2 ^ 53) :
    model.value (fp.ofInt n) = .rat n := by
  have := model.ofInt n (by rw [abs_of_nonneg (by omega)]; exact_mod_cast h)
  simpa using this

theorem StandardModel.value_zero (model : StandardModel fp) :
    model.value (fp.ofInt 0) = .rat 0 := by
  simpa using model.ofInt 0 (by norm_num)

/-- The step, with its relative error. -/
theorem StandardModel.ratioStep_value (model : StandardModel fp) {W w : ℕ} (hW : 0 < W)
    (hW' : W < 2 ^ 31) (hw : 0 < w) (hw' : w < 2 ^ 31) :
    ∃ d, |d| ≤ unitRoundoff ∧ model.value (ratioStep fp W w) = .rat (W / w * (1 + d)) := by
  have hWq : (1 : ℚ) ≤ W := by exact_mod_cast hW
  have hwq : (1 : ℚ) ≤ w := by exact_mod_cast hw
  have hWq' : (W : ℚ) ≤ 2 ^ 31 := by exact_mod_cast hW'.le
  have hwq' : (w : ℚ) ≤ 2 ^ 31 := by exact_mod_cast hw'.le
  have hdiv := model.div (fp.ofInt W) (fp.ofInt w)
  rw [model.value_natCast (by omega), model.value_natCast (by omega),
    Ext.div_rat _ (by linarith)] at hdiv
  refine hdiv (inRange_of_pos ?_ ?_)
  · rw [le_div_iff₀ (by linarith)]
    calc (1 / 2 ^ 100 : ℚ) * w ≤ 1 / 2 ^ 100 * 2 ^ 31 := by gcongr
      _ ≤ 1 := by norm_num
      _ ≤ W := hWq
  · rw [div_le_iff₀ (by linarith)]
    calc (W : ℚ) ≤ 2 ^ 100 * 1 := by linarith
      _ ≤ 2 ^ 100 * w := by gcongr

/-- **The counter is a rounded one**: the step has an error, and every addition. -/
theorem StandardModel.ratioCounter_value (model : StandardModel fp) {W w n : ℕ} (hW : 0 < W)
    (hW' : W < 2 ^ 31) (hw : 0 < w) (hw' : w < 2 ^ 31) (hn : n ≤ 2 ^ 52) :
    ∃ (d0 : ℚ) (d : ℕ → ℚ), |d0| ≤ unitRoundoff ∧ (∀ k, |d k| ≤ unitRoundoff) ∧
      ∀ k ≤ n, model.value (ratioCounter fp W w k) =
        .rat (roundedCounter (W / w * (1 + d0)) d k) := by
  obtain ⟨d0, hd0, hstep⟩ := model.ratioStep_value hW hW' hw hw'
  obtain ⟨hd1, hd2⟩ := abs_le.mp hd0
  have hu1 : unitRoundoff ≤ 1 / 2 := by norm_num [unitRoundoff]
  have hWq : (1 : ℚ) ≤ W := by exact_mod_cast hW
  have hwq : (1 : ℚ) ≤ w := by exact_mod_cast hw
  have hWq' : (W : ℚ) ≤ 2 ^ 31 := by exact_mod_cast hW'.le
  have hwq' : (w : ℚ) ≤ 2 ^ 31 := by exact_mod_cast hw'.le
  have hlow : 1 / 2 ^ 31 ≤ (W : ℚ) / w := by
    rw [le_div_iff₀ (by linarith)]
    calc (1 / 2 ^ 31 : ℚ) * w ≤ 1 / 2 ^ 31 * 2 ^ 31 := by gcongr
      _ ≤ W := by linarith
  have hhigh : (W : ℚ) / w ≤ 2 ^ 31 := by
    rw [div_le_iff₀ (by linarith)]
    calc (W : ℚ) ≤ 2 ^ 31 * 1 := by linarith
      _ ≤ 2 ^ 31 * w := by gcongr
  obtain ⟨d, hd, hval⟩ := model.counter_value model.value_zero hstep
    (by
      calc (1 / 2 ^ 40 : ℚ) ≤ 1 / 2 ^ 31 * (1 - 1 / 2) := by norm_num
        _ ≤ W / w * (1 + d0) := by gcongr; linarith)
    (by
      calc (W : ℚ) / w * (1 + d0) ≤ 2 ^ 31 * (1 + 1) := by gcongr <;> linarith
        _ ≤ 2 ^ 40 := by norm_num) hn
  exact ⟨d0, d, hd0, hd, hval⟩

/-- **After `k` turns the counter is `k W / w`, up to `k + 1` rounding
errors.** -/
theorem StandardModel.ratioCounter_bounds (model : StandardModel fp) {W w k : ℕ} (hW : 0 < W)
    (hW' : W < 2 ^ 31) (hw : 0 < w) (hw' : w < 2 ^ 31) (hk : k ≤ 2 ^ 52) :
    ∃ v, model.value (ratioCounter fp W w k) = .rat v ∧
      k * (W / w) * (1 - unitRoundoff) ^ (k + 1) ≤ v ∧
      v ≤ k * (W / w) * (1 + unitRoundoff) ^ (k + 1) := by
  obtain ⟨d0, d, hd0, hd, hval⟩ := model.ratioCounter_value hW hW' hw hw' hk
  exact ⟨_, hval k (Nat.le_refl k), roundedRatio_bounds hd0 hd k⟩

theorem StandardModel.lt_natCast (model : StandardModel fp) {c : F} {q : ℚ} {W : ℕ}
    (hc : model.value c = .rat q) (hW' : W < 2 ^ 31) :
    fp.lt c (fp.ofInt W) = decide (q < W) := by
  rw [model.lt, hc, model.value_natCast (by omega), Ext.lt_rat]

/-- The counter has reached `W` after `2 w` turns. -/
theorem StandardModel.ratioCounter_reaches (model : StandardModel fp) {W w : ℕ} (hW : 0 < W)
    (hW' : W < 2 ^ 31) (hw : 0 < w) (hw' : w < 2 ^ 31) :
    fp.lt (ratioCounter fp W w (2 * w)) (fp.ofInt W) = false := by
  obtain ⟨v, hv, hlo, -⟩ := model.ratioCounter_bounds (k := 2 * w) hW hW' hw hw' (by omega)
  have hwq : (0 : ℚ) < w := by exact_mod_cast hw
  have hWq : (0 : ℚ) < W := by exact_mod_cast hW
  have hhalf : (1 : ℚ) / 2 ≤ (1 - unitRoundoff) ^ (2 * w + 1) := by
    refine le_trans ?_ (le_pow_one_sub _)
    have : ((2 * w + 1 : ℕ) : ℚ) ≤ 2 ^ 33 := by exact_mod_cast (by omega)
    calc (1 : ℚ) / 2 ≤ 1 - 2 ^ 33 * unitRoundoff := by norm_num [unitRoundoff]
      _ ≤ 1 - (2 * w + 1 : ℕ) * unitRoundoff := by gcongr; exact unitRoundoff_pos.le
  rw [model.lt_natCast hv hW', decide_eq_false_iff_not, not_lt]
  calc (W : ℚ) = ((2 * w : ℕ) : ℚ) * (W / w) * (1 / 2) := by push_cast; field_simp
    _ ≤ ((2 * w : ℕ) : ℚ) * (W / w) * (1 - unitRoundoff) ^ (2 * w + 1) := by gcongr
    _ ≤ v := hlo

/-- Up to `w` of some millions the counter stays below `W` for `w` turns. -/
theorem StandardModel.ratioCounter_lt (model : StandardModel fp) {W w k : ℕ} (hW : 0 < W)
    (hW' : W < 2 ^ 31) (hw' : w ≤ 2 ^ 25) (hk : k < w) :
    fp.lt (ratioCounter fp W w k) (fp.ofInt W) = true := by
  obtain ⟨v, hv, -, hhi⟩ := model.ratioCounter_bounds (k := k) hW hW' (by omega)
    (lt_of_le_of_lt hw' (by norm_num)) (by omega)
  have hwq : (0 : ℚ) < w := by exact_mod_cast (show 0 < w by omega)
  have hWq : (0 : ℚ) < W := by exact_mod_cast hW
  have hu := unitRoundoff_pos
  have hkq : (k : ℚ) + 1 ≤ w := by exact_mod_cast hk
  have hcost : (w : ℚ) * ((k + 1 : ℕ) * unitRoundoff) < 1 := by
    have hw2 : (w : ℚ) ≤ 2 ^ 25 := by exact_mod_cast hw'
    calc (w : ℚ) * ((k + 1 : ℕ) * unitRoundoff) ≤ 2 ^ 25 * (2 ^ 25 * unitRoundoff) := by
          push_cast; gcongr; linarith
      _ < 1 := by norm_num [unitRoundoff]
  have hpow : (k : ℚ) * (1 + unitRoundoff) ^ (k + 1) < w := by
    have hP := pow_one_add_mul_le (k + 1)
    have hpos : 0 < (1 + unitRoundoff) ^ (k + 1) := pow_pos (by linarith) _
    by_contra hcon
    rw [not_lt] at hcon
    have h1 : (k : ℚ) < w * (1 - (k + 1 : ℕ) * unitRoundoff) := by nlinarith
    have h2 := mul_lt_mul_of_pos_right h1 hpos
    nlinarith
  rw [model.lt_natCast hv hW', decide_eq_true_eq]
  calc v ≤ k * (W / w) * (1 + unitRoundoff) ^ (k + 1) := hhi
    _ = W / w * (k * (1 + unitRoundoff) ^ (k + 1)) := by ring
    _ < W / w * w := by gcongr
    _ = W := by field_simp

/-- While it is below `W`, the counter truncates to an index below `W`. -/
theorem StandardModel.ratioCounter_index (model : StandardModel fp) {W w k : ℕ} (hW : 0 < W)
    (hW' : W < 2 ^ 31) (hw : 0 < w) (hw' : w < 2 ^ 31) (hk : k ≤ 2 ^ 52)
    (hlt : fp.lt (ratioCounter fp W w k) (fp.ofInt W) = true) :
    fp.toIndex (ratioCounter fp W w k) < W := by
  obtain ⟨v, hv, hlo, -⟩ := model.ratioCounter_bounds (k := k) hW hW' hw hw' hk
  have hv0 : 0 ≤ v := by
    refine le_trans ?_ hlo
    have : 0 ≤ (1 - unitRoundoff) ^ (k + 1) := pow_nonneg (by linarith [unitRoundoff_le_one]) _
    positivity
  rw [model.lt_natCast hv hW', decide_eq_true_eq] at hlt
  have hWq : (W : ℚ) ≤ 2 ^ 31 := by exact_mod_cast hW'.le
  rw [model.toIndex _ v hv hv0 (by linarith)]
  have h1 : ⌊v⌋ < (W : ℤ) := Int.floor_lt.mpr (by exact_mod_cast hlt)
  have h2 : 0 ≤ ⌊v⌋ := Int.floor_nonneg.mpr hv0
  omega

/-- With `w = 0` the step is infinite, so the loop takes one turn. -/
theorem StandardModel.ratio_turn_zero (model : StandardModel fp) {W : ℕ} (hW : 0 < W)
    (hW' : W < 2 ^ 31) :
    (fp.lt (ratioCounter fp W 0 0) (fp.ofInt W) = true ∧
      fp.toIndex (ratioCounter fp W 0 0) < W) ∧
    fp.lt (ratioCounter fp W 0 1) (fp.ofInt W) = false := by
  have hWq : (0 : ℚ) < W := by exact_mod_cast hW
  have hWv := model.value_natCast (n := W) (by omega)
  have hstep : model.value (ratioStep fp W 0) = .posInf := by
    have h := model.div (fp.ofInt W) (fp.ofInt ((0 : ℕ) : ℤ))
    rw [hWv, Nat.cast_zero, model.value_zero, Ext.div_zero hWq] at h
    exact h
  have hadd := model.add (fp.ofInt 0) (ratioStep fp W 0)
  rw [model.value_zero, hstep, Ext.add_posInf] at hadd
  refine ⟨⟨?_, ?_⟩, ?_⟩
  · unfold ratioCounter
    rw [counter_zero, model.lt, model.value_zero, hWv, Ext.lt_rat]
    simpa using hW
  · unfold ratioCounter
    rw [counter_zero, model.toIndex _ 0 model.value_zero (le_refl _) (by norm_num)]
    simpa using hW
  · unfold ratioCounter
    rw [counter_succ, counter_zero, model.lt, hadd, Ext.posInf_lt]

/-- **The loop from 0 below `W` in steps of `W / w` ends**, every turn of it
with an index below `W`; for `w` of some millions it takes at least `w` turns. -/
theorem StandardModel.ratio_turns (model : StandardModel fp) {W w : ℕ} (hW : 0 < W)
    (hW' : W < 2 ^ 31) (hw' : w < 2 ^ 31) :
    ∃ n, n ≤ 2 * w + 1 ∧ (w ≤ 2 ^ 25 → w ≤ n) ∧
      (∀ k < n, fp.lt (ratioCounter fp W w k) (fp.ofInt W) = true ∧
        fp.toIndex (ratioCounter fp W w k) < W) ∧
      fp.lt (ratioCounter fp W w n) (fp.ofInt W) = false := by
  rcases Nat.eq_zero_or_pos w with rfl | hw
  · obtain ⟨hturn, hend⟩ := model.ratio_turn_zero hW hW'
    refine ⟨1, by omega, by omega, fun k hk => ?_, hend⟩
    obtain rfl : k = 0 := by omega
    exact hturn
  have hex : ∃ n, fp.lt (ratioCounter fp W w n) (fp.ofInt W) = false :=
    ⟨2 * w, model.ratioCounter_reaches hW hW' hw hw'⟩
  have hbound : Nat.find hex ≤ 2 * w :=
    Nat.find_min' hex (model.ratioCounter_reaches hW hW' hw hw')
  refine ⟨Nat.find hex, by omega, fun hw25 => ?_, fun k hk => ?_, Nat.find_spec hex⟩
  · by_contra hlt
    have := model.ratioCounter_lt hW hW' hw25 (not_le.mp hlt)
    rw [Nat.find_spec hex] at this
    cases this
  · have hlt : fp.lt (ratioCounter fp W w k) (fp.ofInt W) = true := by
      simpa using Nat.find_min hex hk
    exact ⟨hlt, model.ratioCounter_index hW hW' hw hw' (by omega) hlt⟩

/-- Exactly, the counter after `k` turns is `k W / w`. -/
theorem exact_ratioCounter (W : ℕ) {w : ℕ} (hw : 0 < w) :
    ∀ k : ℕ, ratioCounter exact W w k = .rat (k * (W / w))
  | 0 => by simp [ratioCounter]
  | k + 1 => by
    have ih := exact_ratioCounter W hw k
    rw [ratioCounter] at ih ⊢
    have hw0 : ((w : ℤ) : ℚ) ≠ 0 := by exact_mod_cast hw.ne'
    rw [counter_succ, ih, ratioStep, exact_ofInt, exact_ofInt, exact_div, Ext.div_rat _ hw0,
      exact_add, Ext.add_rat]
    push_cast
    congr 1
    ring

theorem exact_ratioCounter_lt (W : ℕ) {w : ℕ} (hw : 0 < w) (hW : 0 < W) (k : ℕ) :
    exact.lt (ratioCounter exact W w k) (exact.ofInt W) = decide (k < w) := by
  have hwq : (0 : ℚ) < w := by exact_mod_cast hw
  have hWq : (0 : ℚ) < W := by exact_mod_cast hW
  rw [exact_ratioCounter W hw, exact_ofInt, exact_lt, Ext.lt_rat, decide_eq_decide]
  push_cast
  rw [mul_div_left_comm, mul_lt_iff_lt_one_right hWq, div_lt_one hwq, Nat.cast_lt]

theorem exact_ratioCounter_index (W : ℕ) {w : ℕ} (hw : 0 < w) (k : ℕ) :
    exact.toIndex (ratioCounter exact W w k) = k * W / w := by
  rw [exact_ratioCounter W hw, exact_toIndex, Ext.toIndex_rat, ← mul_div_assoc]
  have h := Rat.floor_intCast_div_natCast (k * W : ℕ) w
  push_cast at h
  rw [h]
  norm_cast

end Double
end Lib
