/-
# Matching a letter to the templates

The loop of `matchLetter` is a scan for the least average difference
(`matchLetter_of_differences`). For a letter with pixels, of at most `maxArea`
of them, the average is below the initial 256 in every standard model, so a
template is found (`matchLetter_model`); in exact arithmetic it is the first
nearest one (`matchLetter_exact`). For a letter without pixels the average is
0/0, no comparison holds, and `letters.at(-1)` throws (`matchLetter_empty`).
-/
import IcnDemo.Ocr.Scaling
import IcnDemo.Lib.Argmin
import Mathlib.Algebra.Order.BigOperators.Group.Finset
import Mathlib.Data.Int.ConditionallyCompleteOrder

namespace IcnDemo
namespace Ocr

open Lib.Loop Lib.Grid Lib.Double Lib.Argmin

/-- The number of pixels up to which the sum of their differences is an `int`. -/
def maxArea : ℕ := 8421504

/-- Every pixel is a shade of grey. -/
def Pixels (m : Matrix) : Prop := ∀ column ∈ m, ∀ pixel ∈ column, 0 ≤ pixel ∧ pixel ≤ 255

instance (m : Matrix) : Decidable (Pixels m) :=
  inferInstanceAs (Decidable (∀ column ∈ m, ∀ pixel ∈ column, 0 ≤ pixel ∧ pixel ≤ 255))

/-- The sum of the differences of the pixels of two matrices. -/
def differenceSum (w h : ℕ) (matrixA matrixB : Matrix) : ℤ :=
  ∑ x ∈ Finset.range w, ∑ y ∈ Finset.range h, |entry matrixA x y - entry matrixB x y|

/-- The dimensions of a letter that was found: it may have no row. -/
structure IsShape (w h : ℕ) (m : Matrix) : Prop where
  rect : Rect h m
  length : m.length = w
  width_pos : 0 < w
  width_lt : w < 2 ^ 31
  height_lt : h < 2 ^ 31

variable {F : Type} {fp : Ops F} {fuel w h : ℕ} {matrixA matrixB : Matrix}

theorem Pixels.entry (hA : Pixels matrixA) (hrect : Rect h matrixA) {x y : ℕ}
    (hx : x < matrixA.length) (hy : y < h) :
    0 ≤ entry matrixA x y ∧ entry matrixA x y ≤ 255 := by
  obtain ⟨column, hc, hmem⟩ := entry_mem hrect hx hy
  exact hA column hc _ hmem

theorem Pixels.table {f : ℕ → ℕ → ℤ} (hf : ∀ x < w, ∀ y < h, 0 ≤ f x y ∧ f x y ≤ 255) :
    Pixels (table w h f) :=
  forall_table hf

/-- Black and white are shades of grey. -/
theorem pixels_of_binary {m : Matrix} (hm : ∀ row ∈ m, ∀ v ∈ row, v = 0 ∨ v = 255) : Pixels m := by
  intro row hrow v hv
  rcases hm row hrow v hv with rfl | rfl
  · decide
  · decide

theorem binary_table (P : ℕ → ℕ → Prop) [∀ x y, Decidable (P x y)] :
    ∀ row ∈ table w h fun x y => if P x y then (0 : ℤ) else 255, ∀ v ∈ row, v = 0 ∨ v = 255 := by
  refine forall_table fun x _ y _ => ?_
  split
  · exact Or.inl rfl
  · exact Or.inr rfl

/-! ### The difference of two matrices -/

theorem comparePixel_eq {x y : ℕ} {sum : ℤ} {a b : ℤ} (ha : elemAt₂ matrixA x y = .ok a)
    (hb : elemAt₂ matrixB x y = .ok b) (hd : |a - b| ≤ 255) (hsum : 0 ≤ sum)
    (hsum' : sum + 255 < 2 ^ 31) : comparePixel matrixA matrixB x y sum = .ok (sum + |a - b|) := by
  obtain ⟨hd1, hd2⟩ := abs_le.mp hd
  unfold comparePixel
  rw [ha, ok_bind, hb, ok_bind, toInt_of_mem (i := a - b) (by omega) (by omega)]
  split
  · rename_i hpos
    rw [abs_of_pos hpos, toInt_of_mem (by omega) (by omega)]
  · rename_i hneg
    rw [abs_of_nonpos (by omega), neg_sub, toInt_of_mem (i := b - a) (by omega) (by omega),
      toInt_of_mem (by omega) (by omega)]

/-- Sums of differences grow by at most 255 a pixel. -/
theorem sum_difference_le {n : ℕ} {f : ℕ → ℤ} {c : ℤ} (hf : ∀ i < n, 0 ≤ f i ∧ f i ≤ c) :
    0 ≤ ∑ i ∈ Finset.range n, f i ∧ ∑ i ∈ Finset.range n, f i ≤ n * c := by
  refine ⟨Finset.sum_nonneg fun i hi => (hf i (Finset.mem_range.mp hi)).1, ?_⟩
  have := Finset.sum_le_card_nsmul (Finset.range n) f c fun i hi => (hf i (Finset.mem_range.mp hi)).2
  simpa using this

theorem differenceSum_bounds
    (hd : ∀ x < w, ∀ y < h, |entry matrixA x y - entry matrixB x y| ≤ 255) :
    0 ≤ differenceSum w h matrixA matrixB ∧
      differenceSum w h matrixA matrixB ≤ 255 * (w * h : ℕ) := by
  have := sum_difference_le (n := w) (c := h * 255) fun x hx =>
    sum_difference_le (n := h) (c := 255) fun y hy => ⟨abs_nonneg _, hd x hx y hy⟩
  refine ⟨this.1, le_trans this.2 (le_of_eq ?_)⟩
  push_cast
  ring

/-- A column adds its differences. -/
theorem compareColumn_eq {x : ℕ} {sum : ℤ}
    (hA : ∀ y < h, elemAt₂ matrixA x y = .ok (entry matrixA x y))
    (hB : ∀ y < h, elemAt₂ matrixB x y = .ok (entry matrixB x y))
    (hd : ∀ y < h, |entry matrixA x y - entry matrixB x y| ≤ 255) (hsum : 0 ≤ sum)
    (hsum' : sum + h * 255 < 2 ^ 31) :
    forUpTo h (comparePixel matrixA matrixB x) sum =
      .ok (sum + ∑ y ∈ Finset.range h, |entry matrixA x y - entry matrixB x y|) := by
  have hstart : forUpTo h (comparePixel matrixA matrixB x)
      (sum + ∑ y ∈ Finset.range 0, |entry matrixA x y - entry matrixB x y|) =
      .ok (sum + ∑ y ∈ Finset.range h, |entry matrixA x y - entry matrixB x y|) := by
    refine forUpTo_trajectory
      (fun n => sum + ∑ y ∈ Finset.range n, |entry matrixA x y - entry matrixB x y|) fun y hy => ?_
    obtain ⟨hcells, hcells'⟩ := sum_difference_le (n := y) (c := 255) fun y' hy' =>
      ⟨abs_nonneg _, hd y' (by omega)⟩
    have hyh : (y : ℤ) + 1 ≤ h := by exact_mod_cast hy
    rw [comparePixel_eq (hA y hy) (hB y hy) (hd y hy) (by linarith) (by linarith),
      Finset.sum_range_succ, add_assoc]
  simpa using hstart

/-- **The average difference of two matrices.** -/
theorem compareMatrices_eq (fp : Ops F) (hA : IsShape w h matrixA)
    (hB : ∀ x < w, ∀ y < h, elemAt₂ matrixB x y = .ok (entry matrixB x y))
    (hd : ∀ x < w, ∀ y < h, |entry matrixA x y - entry matrixB x y| ≤ 255)
    (harea : w * h ≤ maxArea) :
    compareMatrices fp matrixA matrixB =
      .ok (fp.div (fp.ofInt (differenceSum w h matrixA matrixB)) (fp.ofInt (w * h : ℕ))) := by
  have hlen := hA.length
  have hpos : 0 < matrixA.length := by rw [hlen]; exact hA.width_pos
  have hfirst : (matrixA.getD 0 []).length = h := hA.rect.length_getD hpos
  -- after `x` columns the sum is that of their differences
  have hloop : forUpTo w (fun x sum => do
      let first ← elemAt matrixA 0
      forUpTo first.length (comparePixel matrixA matrixB x) sum) (0 : ℤ) =
      .ok (differenceSum w h matrixA matrixB) := by
    refine forUpTo_trajectory (fun n => ∑ x ∈ Finset.range n, ∑ y ∈ Finset.range h,
      |entry matrixA x y - entry matrixB x y|) fun x hx => ?_
    rw [elemAt_row hpos, ok_bind, hfirst, Finset.sum_range_succ]
    obtain ⟨hcols, hcols'⟩ := sum_difference_le (n := x) (c := h * 255) fun x' hx' =>
      sum_difference_le (n := h) (c := 255) fun y hy => ⟨abs_nonneg _, hd x' (by omega) y hy⟩
    have hbound : (x : ℤ) * (h * 255) + h * 255 ≤ maxArea * 255 := by
      have h1 : x * h + h ≤ w * h := by
        rw [← Nat.succ_mul]
        exact Nat.mul_le_mul_right h (Nat.succ_le_of_lt hx)
      have h2 : ((x * h + h : ℕ) : ℤ) ≤ maxArea := by exact_mod_cast le_trans h1 harea
      push_cast at h2
      linarith
    have hmax : (maxArea : ℤ) * 255 < 2 ^ 31 := by decide
    exact compareColumn_eq (fun y hy => elemAt₂_of_lt hA.rect (by omega) hy) (hB x hx) (hd x hx)
      hcols (by linarith)
  unfold compareMatrices
  rw [hlen, hloop, ok_bind, elemAt_row hpos, ok_bind, hfirst]
  push_cast
  rfl

/-- With no rows the average is 0/0. -/
theorem compareMatrices_empty (hA : IsShape w 0 matrixA) :
    compareMatrices fp matrixA matrixB = .ok (fp.div (fp.ofInt 0) (fp.ofInt 0)) := by
  have hpos : 0 < matrixA.length := by rw [hA.length]; exact hA.width_pos
  have hfirst : (matrixA.getD 0 []).length = 0 := hA.rect.length_getD hpos
  have hloop : forUpTo matrixA.length (fun x sum => do
      let first ← elemAt matrixA 0
      forUpTo first.length (comparePixel matrixA matrixB x) sum) (0 : ℤ) = .ok 0 :=
    forUpTo_trajectory (fun _ => (0 : ℤ)) fun x _ => by
      rw [elemAt_row hpos, ok_bind, hfirst]; rfl
  unfold compareMatrices
  rw [hloop, ok_bind, elemAt_row hpos, ok_bind, hfirst]
  simp

/-- Matrices that differ in no pixel. -/
theorem differenceSum_eq_zero_iff : differenceSum w h matrixA matrixB = 0 ↔
    ∀ x < w, ∀ y < h, entry matrixA x y = entry matrixB x y := by
  rw [differenceSum, Finset.sum_eq_zero_iff_of_nonneg fun x _ =>
    Finset.sum_nonneg fun y _ => abs_nonneg _]
  simp only [Finset.mem_range]
  refine forall_congr' fun x => forall_congr' fun hx => ?_
  rw [Finset.sum_eq_zero_iff_of_nonneg fun y _ => abs_nonneg _]
  simp only [Finset.mem_range, abs_eq_zero, sub_eq_zero]

/-! ### The averages -/

/-- **The average difference is below the initial 256.** -/
theorem average_lt (model : StandardModel fp) {sum : ℤ} {n : ℕ} (h0 : 0 ≤ sum)
    (h1 : sum ≤ 255 * n) (hn : 0 < n) (hn' : n ≤ maxArea) :
    fp.lt (fp.div (fp.ofInt sum) (fp.ofInt n)) (fp.ofInt 256) = true := by
  have hmax : maxArea ≤ 2 ^ 24 := by decide
  have hsumv : model.value (fp.ofInt sum) = .rat sum := model.ofInt sum (by
    rw [abs_of_nonneg h0]; omega)
  have hnq : (1 : ℚ) ≤ n := by exact_mod_cast hn
  have hnq' : (n : ℚ) ≤ 2 ^ 24 := by exact_mod_cast le_trans hn' hmax
  have h0q : (0 : ℚ) ≤ sum := by exact_mod_cast h0
  have h1q : (sum : ℚ) ≤ 255 * n := by exact_mod_cast h1
  have hquot : (sum : ℚ) / n ≤ 255 := by rw [div_le_iff₀ (by linarith)]; exact h1q
  have hquot0 : 0 ≤ (sum : ℚ) / n := by positivity
  have hdiv := model.div (fp.ofInt sum) (fp.ofInt n)
  rw [hsumv, model.value_natCast (by omega), Ext.div_rat _ (by linarith)] at hdiv
  obtain ⟨d, hd, hval⟩ := hdiv (by
    rcases h0.eq_or_lt with rfl | hpos
    · exact Or.inl (by simp)
    · refine inRange_of_pos ?_ (by linarith)
      have : (1 : ℚ) ≤ sum := by exact_mod_cast hpos
      rw [le_div_iff₀ (by linarith)]
      calc (1 : ℚ) / 2 ^ 100 * n ≤ 1 / 2 ^ 100 * 2 ^ 24 := by gcongr
        _ ≤ (sum : ℚ) := by linarith)
  obtain ⟨hd1, hd2⟩ := abs_le.mp hd
  have hu : unitRoundoff ≤ 1 / 2 ^ 10 := by norm_num [unitRoundoff]
  rw [model.lt, hval, model.ofInt 256 (by norm_num), Ext.lt_rat, decide_eq_true_eq]
  push_cast
  calc (sum : ℚ) / n * (1 + d) ≤ 255 * (1 + 1 / 2 ^ 10) := by gcongr <;> linarith
    _ < 256 := by norm_num

/-- 0/0 is below nothing. -/
theorem nan_lt (model : StandardModel fp) (a : F) :
    fp.lt (fp.div (fp.ofInt 0) (fp.ofInt 0)) a = false := by
  have hdiv := model.div (fp.ofInt 0) (fp.ofInt 0)
  rw [model.value_zero, Ext.zero_div_zero] at hdiv
  rw [model.lt, show model.value (fp.div (fp.ofInt 0) (fp.ofInt 0)) = .nan from hdiv, Ext.nan_lt]

/-! ### The scan over the templates -/

variable {l : Letter} {letters : List Letter}

/-- The variables of the loop, from the index of the lowest difference so far. -/
def Lowest.ofIndex (fp : Ops F) (δ : ℕ → F) (index : Option ℕ) : Lowest F :=
  ⟨index.elim (fp.ofInt 256) δ, index.elim (-1) fun j => (j : ℤ)⟩

/-- **The match is the template the scan ends with.** -/
theorem matchLetter_of_differences (δ : ℕ → F)
    (hδ : ∀ j < letters.length, ∀ lowest, tryTemplate fp fuel l letters j lowest =
      .ok (if fp.lt (δ j) lowest.difference then ⟨δ j, j⟩ else lowest)) :
    matchLetter fp fuel l letters =
      match scanIndex fp.lt (fp.ofInt 256) δ letters.length with
      | some j => elemAt letters j
      | none => .error .outOfRange := by
  have hloop : forUpTo letters.length (tryTemplate fp fuel l letters) ⟨fp.ofInt 256, -1⟩ =
      .ok (Lowest.ofIndex fp δ (scanIndex fp.lt (fp.ofInt 256) δ letters.length)) := by
    refine forUpTo_trajectory
      (fun j => Lowest.ofIndex fp δ (scanIndex fp.lt (fp.ofInt 256) δ j)) fun j hj => ?_
    rw [hδ j hj, scanIndex]
    change Except.ok (if fp.lt (δ j) ((scanIndex fp.lt (fp.ofInt 256) δ j).elim (fp.ofInt 256) δ)
      then _ else _) = _
    split <;> rfl
  unfold matchLetter
  rw [hloop, ok_bind]
  cases scanIndex fp.lt (fp.ofInt 256) δ letters.length with
  | none => exact elemAtInt_neg _ (show (-1 : ℤ) < 0 by decide)
  | some j => exact elemAtInt_natCast _ _

/-- One turn of the loop, from the scaled template and its difference. -/
theorem tryTemplate_eq (hl : IsShape w h l.matrix) {j : ℕ} (hj : j < letters.length)
    {scaled : Matrix} {difference : F}
    (hscale : scaleMatrixTo fp fuel w h letters[j].matrix = .ok scaled)
    (hcompare : compareMatrices fp l.matrix scaled = .ok difference) (lowest : Lowest F) :
    tryTemplate fp fuel l letters j lowest =
      .ok (if fp.lt difference lowest.difference then ⟨difference, j⟩ else lowest) := by
  have hpos : 0 < l.matrix.length := by rw [hl.length]; exact hl.width_pos
  rw [tryTemplate, elemAt_row hpos, ok_bind, elemAt_of_lt hj, ok_bind, hl.rect.length_getD hpos,
    hl.length, toInt_natCast hl.width_lt, toInt_natCast hl.height_lt, hscale, ok_bind, hcompare]
  rfl

/-- A list of templates: each has its dimensions and shades of grey for pixels. -/
def AreTemplates (letters : List Letter) : Prop :=
  ∀ l ∈ letters, (∃ W H, IsTemplate W H l.matrix) ∧ Pixels l.matrix

theorem difference_le {a b : ℤ} (ha : 0 ≤ a ∧ a ≤ 255) (hb : 0 ≤ b ∧ b ≤ 255) : |a - b| ≤ 255 :=
  abs_le.mpr ⟨by omega, by omega⟩

theorem area_bounds (hw : 0 < w) (hh : 0 < h) (harea : w * h ≤ maxArea) :
    w ≤ 2 ^ 25 ∧ h ≤ 2 ^ 25 := by
  have h1 := Nat.le_mul_of_pos_right w hh
  have h2 := Nat.le_mul_of_pos_left h hw
  have hmax : maxArea ≤ 2 ^ 25 := by decide
  omega

/-- One turn of the loop in a standard model: the difference is below the initial
256. -/
theorem tryTemplate_model (model : StandardModel fp) (hfuel : 2 ^ 32 < fuel)
    (hl : IsShape w h l.matrix) (hh : 0 < h) (harea : w * h ≤ maxArea) (hpix : Pixels l.matrix)
    (hT : AreTemplates letters) {j : ℕ} (hj : j < letters.length) :
    ∃ difference, fp.lt difference (fp.ofInt 256) = true ∧
      ∀ lowest, tryTemplate fp fuel l letters j lowest =
        .ok (if fp.lt difference lowest.difference then ⟨difference, j⟩ else lowest) := by
  obtain ⟨hw25, hh25⟩ := area_bounds hl.width_pos hh harea
  obtain ⟨⟨W, H, htemplate⟩, hpixT⟩ := hT _ (List.getElem_mem hj)
  obtain ⟨w', h', ix, iy, hscale, hix, hiy, hw', hh'⟩ :=
    scaleMatrixTo_model model htemplate hl.width_lt hl.height_lt hfuel
  have hwle : w ≤ w' := hw' hw25
  have hhle : h ≤ h' := hh' hh25
  have hd : ∀ x < w, ∀ y < h, |entry l.matrix x y - entry (table w' h' fun i k =>
      entry letters[j].matrix (ix i) (iy k)) x y| ≤ 255 := fun x hx y hy => by
    rw [entry_table _ (lt_of_lt_of_le hx hwle) (lt_of_lt_of_le hy hhle)]
    apply difference_le (hpix.entry hl.rect (by rwa [hl.length]) hy)
    refine hpixT.entry htemplate.rect ?_ (hiy y (lt_of_lt_of_le hy hhle))
    rw [htemplate.length]
    exact hix x (lt_of_lt_of_le hx hwle)
  have hcompare := compareMatrices_eq fp hl (fun x hx y hy =>
    elemAt₂_of_lt (rect_table w' h' _) (by rw [length_table]; exact lt_of_lt_of_le hx hwle)
      (lt_of_lt_of_le hy hhle)) hd harea
  obtain ⟨h0, h1⟩ := differenceSum_bounds hd
  exact ⟨_, average_lt model h0 h1 (Nat.mul_pos hl.width_pos hh) harea,
    tryTemplate_eq hl hj hscale hcompare⟩

/-- **In a standard model a letter with pixels is matched.** -/
theorem matchLetter_model (model : StandardModel fp) (hfuel : 2 ^ 32 < fuel)
    (hl : IsShape w h l.matrix) (hh : 0 < h) (harea : w * h ≤ maxArea) (hpix : Pixels l.matrix)
    (hT : AreTemplates letters) (hne : letters ≠ []) :
    ∃ found ∈ letters, matchLetter fp fuel l letters = .ok found := by
  have hturn := fun j (hj : j < letters.length) =>
    tryTemplate_model model hfuel hl hh harea hpix hT hj
  have : Nonempty F := ⟨fp.ofInt 0⟩
  choose! δ hδ using hturn
  have hlen : 0 < letters.length := List.length_pos_iff.mpr hne
  obtain ⟨j, hj⟩ := scanIndex_isSome (hδ 0 hlen).1 hlen
  have hjlt := scanIndex_lt hj
  refine ⟨letters[j], List.getElem_mem hjlt, ?_⟩
  rw [matchLetter_of_differences δ fun j hj => (hδ j hj).2, hj]
  exact elemAt_of_lt hjlt

/-- **A letter without pixels is not.** -/
theorem matchLetter_empty (model : StandardModel fp) (hfuel : 2 ^ 32 < fuel)
    (hl : IsShape w 0 l.matrix) (hT : AreTemplates letters) :
    matchLetter fp fuel l letters = .error .outOfRange := by
  rw [matchLetter_of_differences (fun _ => fp.div (fp.ofInt 0) (fp.ofInt 0)) fun j hj lowest => ?_,
    scanIndex_eq_none fun j _ => nan_lt model _]
  obtain ⟨⟨W, H, htemplate⟩, -⟩ := hT _ (List.getElem_mem hj)
  obtain ⟨w', h', ix, iy, hscale, -⟩ :=
    scaleMatrixTo_model model htemplate hl.width_lt hl.height_lt hfuel
  exact tryTemplate_eq hl hj hscale (compareMatrices_empty hl) lowest

/-! ### Exact arithmetic -/

/-- A list of templates of any size. -/
def AreMatrices (letters : List Letter) : Prop :=
  ∀ l ∈ letters, (∃ W H, IsMatrix W H l.matrix) ∧ Pixels l.matrix

theorem AreTemplates.areMatrices (hT : AreTemplates letters) : AreMatrices letters := by
  intro l hl
  obtain ⟨⟨W, H, htemplate⟩, hpix⟩ := hT l hl
  exact ⟨⟨W, H, htemplate.isMatrix⟩, hpix⟩

/-- The difference of the letter and the `j`-th template, scaled to its size. -/
def distance (w h : ℕ) (l : Letter) (letters : List Letter) (j : ℕ) : ℤ :=
  differenceSum w h l.matrix (resample w h ((letters.map Letter.matrix).getD j []))

/-- The pixels of a resampled template are its own. -/
theorem Pixels.resample {W H : ℕ} {m : Matrix} (hm : IsMatrix W H m) (hpix : Pixels m) :
    Pixels (resample w h m) := by
  refine Pixels.table fun x hx y hy => hpix.entry hm.rect ?_ ?_
  · rw [hm.length]
    exact index_lt hx hm.width_pos
  · rw [hm.height]
    exact index_lt hy hm.height_pos

theorem distance_eq {j : ℕ} (hj : j < letters.length) :
    distance w h l letters j = differenceSum w h l.matrix (resample w h letters[j].matrix) := by
  unfold distance
  rw [List.getD_eq_getElem _ _ (by simpa using hj), List.getElem_map]

/-- One turn of the loop in exact arithmetic. -/
theorem tryTemplate_exact (hfw : w < fuel) (hfh : h < fuel) (hl : IsShape w h l.matrix)
    (hh : 0 < h) (harea : w * h ≤ maxArea) (hpix : Pixels l.matrix) (hT : AreMatrices letters)
    {j : ℕ} (hj : j < letters.length) :
    (distance w h l letters j : ℚ) / (w * h : ℕ) < 256 ∧
    ∀ lowest, tryTemplate exact fuel l letters j lowest =
      .ok (if exact.lt (.rat (distance w h l letters j / (w * h : ℕ))) lowest.difference
        then ⟨.rat (distance w h l letters j / (w * h : ℕ)), j⟩ else lowest) := by
  have hn : (0 : ℚ) < (w * h : ℕ) := by exact_mod_cast Nat.mul_pos hl.width_pos hh
  obtain ⟨⟨W, H, htemplate⟩, hpixT⟩ := hT _ (List.getElem_mem hj)
  have hscale := scaleMatrixTo_exact htemplate hl.width_pos hh hfw hfh
  have hpixR := hpixT.resample (w := w) (h := h) htemplate
  have hrect := resample_rect w h letters[j].matrix
  have hlen := resample_length w h letters[j].matrix
  have hd : ∀ x < w, ∀ y < h,
      |entry l.matrix x y - entry (resample w h letters[j].matrix) x y| ≤ 255 :=
    fun x hx y hy => difference_le (hpix.entry hl.rect (by rwa [hl.length]) hy)
      (hpixR.entry hrect (by rwa [hlen]) hy)
  have hcompare := compareMatrices_eq exact hl (fun x hx y hy =>
    elemAt₂_of_lt hrect (by rwa [hlen]) hy) hd harea
  obtain ⟨-, h1⟩ := differenceSum_bounds hd
  rw [exact_ofInt, exact_ofInt, exact_div, Int.cast_natCast, Ext.div_rat _ hn.ne'] at hcompare
  rw [distance_eq hj]
  refine ⟨?_, tryTemplate_eq hl hj hscale hcompare⟩
  rw [div_lt_iff₀ hn]
  have h1q : (differenceSum w h l.matrix (resample w h letters[j].matrix) : ℚ) ≤
      255 * (w * h : ℕ) := by exact_mod_cast h1
  linarith

/-- **In exact arithmetic the match is the first nearest template.** -/
theorem matchLetter_exact (hfw : w < fuel) (hfh : h < fuel) (hl : IsShape w h l.matrix)
    (hh : 0 < h) (harea : w * h ≤ maxArea) (hpix : Pixels l.matrix) (hT : AreMatrices letters)
    (hne : letters ≠ []) :
    ∃ j, ∃ hj : j < letters.length, FirstMin (distance w h l letters) letters.length j ∧
      matchLetter exact fuel l letters = .ok letters[j] := by
  have hn : (0 : ℚ) < (w * h : ℕ) := by exact_mod_cast Nat.mul_pos hl.width_pos hh
  have hturn := fun j (hj : j < letters.length) =>
    tryTemplate_exact hfw hfh hl hh harea hpix hT hj
  obtain ⟨j, hj, hmin⟩ : ∃ j, scanIndex exact.lt (exact.ofInt 256)
      (fun j => .rat (distance w h l letters j / (w * h : ℕ))) letters.length = some j ∧
      FirstMin (distance w h l letters) letters.length j := by
    refine scanIndex_firstMin (fun i j => ?_) (List.length_pos_iff.mpr hne) fun j hj => ?_
    · rw [exact_lt, Ext.lt_rat, decide_eq_decide, div_lt_div_iff_of_pos_right hn, Int.cast_lt]
    · rw [exact_ofInt, exact_lt, Ext.lt_rat]
      exact decide_eq_true (by exact_mod_cast (hturn j hj).1)
  refine ⟨j, hmin.lt, hmin, ?_⟩
  rw [matchLetter_of_differences _ fun j hj => (hturn j hj).2, hj]
  exact elemAt_of_lt hmin.lt

/-- The difference of the letter and a template, scaled to its size. -/
def difference (w h : ℕ) (l T : Letter) : ℤ :=
  differenceSum w h l.matrix (resample w h T.matrix)

theorem isShape_of_area {m : Matrix} (hrect : Rect h m) (hlen : m.length = w) (hw : 0 < w)
    (hh : 0 < h) (harea : w * h ≤ maxArea) : IsShape w h m := by
  obtain ⟨hw25, hh25⟩ := area_bounds hw hh harea
  exact ⟨hrect, hlen, hw, by omega, by omega⟩

/-- A match among the templates in another order has the least difference, too. -/
theorem matchLetter_perm (hfw : w < fuel) (hfh : h < fuel) (hl : IsShape w h l.matrix)
    (hh : 0 < h) (harea : w * h ≤ maxArea) (hpix : Pixels l.matrix) (hT : AreMatrices letters)
    {found : Letter} (hmem : found ∈ letters)
    (hleast : ∀ T ∈ letters, difference w h l found ≤ difference w h l T)
    (hone : ∀ T ∈ letters, difference w h l T = difference w h l found → T = found)
    {letters' : List Letter} (hperm : letters.Perm letters') :
    matchLetter exact fuel l letters' = .ok found := by
  have hT' : AreMatrices letters' := fun T hT' => hT T (hperm.mem_iff.mpr hT')
  have hmem' := hperm.mem_iff.mp hmem
  obtain ⟨k, hk, rfl⟩ := List.mem_iff_getElem.mp hmem'
  obtain ⟨j, hj, hmin, hmatch⟩ :=
    matchLetter_exact hfw hfh hl hh harea hpix hT' (List.ne_nil_of_mem hmem')
  have hjmem := hperm.mem_iff.mpr (List.getElem_mem hj)
  have hle := hmin.le k hk
  rw [distance_eq hj, distance_eq hk] at hle
  rw [hmatch, hone _ hjmem (le_antisymm hle (hleast _ hjmem))]

/-- **Matching is an argmin.** For a letter with pixels, at most `maxArea` of them,
and templates with pixels, of any sizes, at least one of them and no more than an `int`
counts, the match is the first of the templates that differ least from the letter; if no
other template differs as little, their order does not matter. -/
theorem match_is_argmin (hrect : Rect h l.matrix) (hlen : l.matrix.length = w) (hw : 0 < w)
    (hh : 0 < h) (harea : w * h ≤ maxArea) (hpix : Pixels l.matrix) (hT : AreMatrices letters)
    (hne : letters ≠ []) (hcount : letters.length < 2 ^ 31) :
    ∃ j, ∃ hj : j < letters.length, toInt j = j ∧
      (∀ fuel, w < fuel → h < fuel → matchLetter exact fuel l letters = .ok letters[j]) ∧
      (∀ (i : ℕ) (hi : i < letters.length),
        difference w h l letters[j] ≤ difference w h l letters[i]) ∧
      (∀ (i : ℕ) (hi : i < j), difference w h l letters[j] < difference w h l letters[i]) ∧
      ((∀ T ∈ letters, difference w h l T = difference w h l letters[j] → T = letters[j]) →
        ∀ letters', letters.Perm letters' → ∀ fuel, w < fuel → h < fuel →
          matchLetter exact fuel l letters' = .ok letters[j]) := by
  have hl := isShape_of_area hrect hlen hw hh harea
  have hmatch : ∀ fuel, w < fuel → h < fuel → ∃ j, ∃ hj : j < letters.length,
      FirstMin (distance w h l letters) letters.length j ∧
        matchLetter exact fuel l letters = .ok letters[j] := fun fuel hfw hfh =>
    matchLetter_exact hfw hfh hl hh harea hpix hT hne
  obtain ⟨j, hj, hmin, -⟩ := hmatch (w + h + 1) (by omega) (by omega)
  have hle : ∀ (i : ℕ) (hi : i < letters.length),
      difference w h l letters[j] ≤ difference w h l letters[i] := fun i hi => by
    have := hmin.le i hi
    rwa [distance_eq hj, distance_eq hi] at this
  refine ⟨j, hj, toInt_of_mem (by omega) (by omega), fun fuel hfw hfh => ?_, hle, fun i hi => ?_,
    fun hone letters' hperm fuel hfw hfh => ?_⟩
  · -- the first of the least is one
    obtain ⟨j', hj', hmin', hmatch⟩ := hmatch fuel hfw hfh
    rw [hmatch]
    congr 2
    rcases Nat.lt_trichotomy j j' with hlt | heq | hgt
    · exact absurd (hmin'.first j hlt) (not_lt.mpr (hmin.le j' hj'))
    · exact heq.symm
    · exact absurd (hmin.first j' hgt) (not_lt.mpr (hmin'.le j hj))
  · have := hmin.first i hi
    rwa [distance_eq hj, distance_eq (by omega)] at this
  · refine matchLetter_perm hfw hfh hl hh harea hpix hT (List.getElem_mem hj) (fun T hT => ?_) hone
      hperm
    obtain ⟨i, hi, rfl⟩ := List.mem_iff_getElem.mp hT
    exact hle i hi

/-- A white and a black template. -/
def whiteAndBlack : List Letter := [Letter.new [[255]], Letter.new [[0, 0]]]

/-- A black pixel, matched with them. -/
theorem match_is_argmin_black : ∃ j, ∃ hj : j < whiteAndBlack.length, toInt j = j ∧
    (∀ fuel, 1 < fuel → 1 < fuel →
      matchLetter exact fuel (Letter.new [[0]]) whiteAndBlack = .ok whiteAndBlack[j]) ∧
    (∀ (i : ℕ) (hi : i < whiteAndBlack.length),
      difference 1 1 (Letter.new [[0]]) whiteAndBlack[j] ≤
        difference 1 1 (Letter.new [[0]]) whiteAndBlack[i]) ∧
    (∀ (i : ℕ) (hi : i < j), difference 1 1 (Letter.new [[0]]) whiteAndBlack[j] <
      difference 1 1 (Letter.new [[0]]) whiteAndBlack[i]) ∧
    ((∀ T ∈ whiteAndBlack, difference 1 1 (Letter.new [[0]]) T =
        difference 1 1 (Letter.new [[0]]) whiteAndBlack[j] → T = whiteAndBlack[j]) →
      ∀ letters', whiteAndBlack.Perm letters' → ∀ fuel, 1 < fuel → 1 < fuel →
        matchLetter exact fuel (Letter.new [[0]]) letters' = .ok whiteAndBlack[j]) := by
  have hT : AreMatrices whiteAndBlack := by
    intro T hT
    rcases List.mem_cons.mp hT with rfl | hT
    · exact ⟨⟨1, 1, by decide, rfl, by decide, by decide⟩, by decide⟩
    · rw [List.mem_singleton.mp hT]
      exact ⟨⟨1, 2, by decide, rfl, by decide, by decide⟩, by decide⟩
  exact match_is_argmin (by decide) rfl (by decide) (by decide) (by decide) (by decide) hT
    (by decide) (by decide)

/-! ### Templates that fit -/

/-- Template `j`, scaled to the size of the matrix, is the matrix. -/
def Fits (letters : List Letter) (m : Matrix) (j : ℕ) : Prop :=
  ∃ T ∈ letters[j]?, resample m.length (m.getD 0 []).length T.matrix = m

instance (letters : List Letter) (m : Matrix) (j : ℕ) : Decidable (Fits letters m j) :=
  inferInstanceAs (Decidable (∃ T ∈ letters[j]?, _))

/-- It is the first to do so. -/
structure FirstFit (letters : List Letter) (m : Matrix) (j : ℕ) : Prop where
  fits : Fits letters m j
  first : ∀ i < j, ¬ Fits letters m i

/-- A template fits exactly when its difference is 0. -/
theorem fits_iff_distance (hl : IsShape w h l.matrix) {j : ℕ} (hj : j < letters.length) :
    Fits letters l.matrix j ↔ distance w h l letters j = 0 := by
  have hheight : (l.matrix.getD 0 []).length = h :=
    hl.rect.length_getD (by rw [hl.length]; exact hl.width_pos)
  have htable : l.matrix = table w h (entry l.matrix) := by
    have := hl.rect.eq_table
    rwa [hl.length] at this
  have hfits : Fits letters l.matrix j ↔ resample w h letters[j].matrix = l.matrix := by
    unfold Fits
    rw [List.getElem?_eq_getElem hj, hl.length, hheight]
    simp
  rw [hfits, distance_eq hj, differenceSum_eq_zero_iff]
  conv_lhs => rw [htable, resample, table_eq_iff]
  refine forall_congr' fun x => forall_congr' fun hx => ?_
  refine forall_congr' fun y => forall_congr' fun hy => ?_
  unfold resample
  rw [entry_table _ hx hy, eq_comm]

/-- If a template fits, one is the first to. -/
theorem Fits.exists_first {m : Matrix} {i : ℕ} (hfit : Fits letters m i) :
    ∃ j T, letters[j]? = some T ∧ FirstFit letters m j ∧ j ≤ i := by
  have hex : ∃ j, Fits letters m j := ⟨i, hfit⟩
  obtain ⟨T, hT, -⟩ := Nat.find_spec hex
  exact ⟨Nat.find hex, T, hT, ⟨Nat.find_spec hex, fun _ hi => Nat.find_min hex hi⟩,
    Nat.find_min' hex hfit⟩

/-- **A letter is read as the first template that fits it.** -/
theorem recognise_firstFit (hfw : w < fuel) (hfh : h < fuel) (hl : IsShape w h l.matrix)
    (hh : 0 < h) (harea : w * h ≤ maxArea) (hpix : Pixels l.matrix) (hT : AreTemplates letters)
    {i : ℕ} {T : Letter} (hi : letters[i]? = some T) (hfirst : FirstFit letters l.matrix i) :
    recognise exact fuel letters l = .ok T.letter := by
  obtain ⟨hlt, hTi⟩ := List.getElem?_eq_some_iff.mp hi
  have hne : letters ≠ [] := List.length_pos_iff.mp (by omega)
  obtain ⟨j, hj, hmin, hmatch⟩ := matchLetter_exact hfw hfh hl hh harea hpix hT.areMatrices hne
  have hnonneg : 0 ≤ distance w h l letters j := by
    unfold distance
    rw [differenceSum]
    exact Finset.sum_nonneg fun x _ => Finset.sum_nonneg fun y _ => abs_nonneg _
  -- the least difference is that of template `i`, which is 0
  have hzero : distance w h l letters i = 0 := (fits_iff_distance hl hlt).mp hfirst.fits
  have hfit : Fits letters l.matrix j :=
    (fits_iff_distance hl hj).mpr (le_antisymm (hzero ▸ hmin.le i hlt) hnonneg)
  obtain rfl : j = i := by
    rcases Nat.lt_trichotomy j i with hji | rfl | hij
    · exact absurd hfit (hfirst.first j hji)
    · rfl
    · have := hmin.first i hij
      rw [hzero] at this
      exact absurd this (not_lt.mpr hnonneg)
  unfold recognise
  rw [elemAt_of_lt (by omega), ok_bind, hmatch, hTi]
  rfl

end Ocr
end IcnDemo
