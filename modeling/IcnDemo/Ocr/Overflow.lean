/-
# The sum of the differences as an `int`

`sumDifferences` is the loop of `compare_matrices` with the overflow of its `int`
accumulator in view: a sum that is no `int` is undefined. Where it is defined it
is the sum `compareMatrices` divides (`compareMatrices_of_sum`). Up to `maxArea`
pixels it cannot overflow (`sumDifferences_ends`); with more it does, on the
template that differs by 255 in every pixel (`sumDifferences_complement`). So the
sum stays in range for all templates exactly when the letters of the image are no
larger, which is a condition on its runs of columns (`difference_sum_iff`).
-/
import IcnDemo.Ocr.Admissible
import IcnDemo.Ocr.Crops
import IcnDemo.Ocr.Threshold

namespace IcnDemo
namespace Ocr

open Lib.Loop Lib.Grid Lib.Segments Lib.Double

/-- The pixel at `(x, y)` in the loop of `compare_matrices`. -/
def addDifference (matrixA matrixB : Matrix) (x y : ℕ) (differenceSum : ℤ) : Except Fault ℤ := do
  let a ← elemAt₂ matrixA x y
  let b ← elemAt₂ matrixB x y
  let d ← checkedInt (a - b)
  if 0 < d then checkedInt (differenceSum + d)
  else do
    let d ← checkedInt (b - a)
    checkedInt (differenceSum + d)

/-- The loop of `compare_matrices`. -/
def sumDifferences (matrixA matrixB : Matrix) : Except Fault ℤ :=
  forUpTo matrixA.length (fun x differenceSum => do
    let first ← elemAt matrixA 0
    forUpTo first.length (addDifference matrixA matrixB x) differenceSum) 0

variable {F : Type} {fp : Ops F} {fuel w h : ℕ} {matrixA matrixB m : Matrix}

/-! ### Where the sum is defined -/

theorem comparePixel_of_checked {x y : ℕ} {sum sum' : ℤ}
    (h : addDifference matrixA matrixB x y sum = .ok sum') :
    comparePixel matrixA matrixB x y sum = .ok sum' := by
  obtain ⟨a, ha, h⟩ := bind_eq_ok h
  obtain ⟨b, hb, h⟩ := bind_eq_ok h
  obtain ⟨d, hd, h⟩ := bind_eq_ok h
  unfold comparePixel
  rw [ha, ok_bind, hb, ok_bind, toInt_of_checkedInt hd]
  split at h
  · rename_i hpos
    rw [if_pos hpos, toInt_of_checkedInt h]
  · rename_i hneg
    obtain ⟨d', hd', h⟩ := bind_eq_ok h
    rw [if_neg hneg, toInt_of_checkedInt hd', toInt_of_checkedInt h]

/-- **A sum that is defined is the one of the recognisers.** -/
theorem compareMatrices_of_sum {first : List ℤ} {sum : ℤ} (hfirst : elemAt matrixA 0 = .ok first)
    (h : sumDifferences matrixA matrixB = .ok sum) : compareMatrices fp matrixA matrixB =
      .ok (fp.div (fp.ofInt sum) (fp.ofInt (matrixA.length * first.length))) := by
  have hloop : forUpTo matrixA.length (fun x differenceSum => do
      let first ← elemAt matrixA 0
      forUpTo first.length (comparePixel matrixA matrixB x) differenceSum) 0 = .ok sum := by
    refine forUpTo_refines (fun x _ s s' hs => ?_) h
    obtain ⟨first, hfirst, hs⟩ := bind_eq_ok hs
    rw [hfirst, ok_bind]
    exact forUpTo_refines (fun y _ s s' => comparePixel_of_checked) hs
  rw [compareMatrices, hloop, ok_bind, hfirst, ok_bind]

/-! ### Letters of at most `maxArea` pixels -/

/-- Two shades of grey add their distance. -/
theorem addDifference_eq {x y : ℕ} {a b : ℤ} (ha : elemAt₂ matrixA x y = .ok a)
    (hb : elemAt₂ matrixB x y = .ok b) (ha' : 0 ≤ a ∧ a ≤ 255) (hb' : 0 ≤ b ∧ b ≤ 255) (sum : ℤ) :
    addDifference matrixA matrixB x y sum = checkedInt (sum + |a - b|) := by
  unfold addDifference
  rw [ha, ok_bind, hb, ok_bind, checkedInt_of_mem (i := a - b) (by omega) (by omega), ok_bind]
  split
  · rename_i hpos
    rw [abs_of_pos hpos]
  · rename_i hneg
    rw [checkedInt_of_mem (i := b - a) (by omega) (by omega), ok_bind, abs_of_nonpos (by omega),
      neg_sub]

theorem elemAt₂_pixel (hpix : Pixels m) (x y : ℕ) :
    Ends (· ≠ .undefined) (fun v => 0 ≤ v ∧ v ≤ 255) (elemAt₂ m x y) := by
  have hfails := elemAt₂_fails (S := (· ≠ .undefined)) (by decide) m x y
  cases hv : elemAt₂ m x y with
  | error e => exact hfails e hv
  | ok v =>
    obtain ⟨column, hc, hv⟩ := bind_eq_ok hv
    exact hpix column (mem_of_elemAt hc) v (mem_of_elemAt hv)

/-- The loop over the pixels of a letter. -/
theorem sumDifferences_loop (hA : IsShape w h matrixA) : sumDifferences matrixA matrixB =
    forUpTo w (fun x => forUpTo h (addDifference matrixA matrixB x)) 0 := by
  have hpos : 0 < matrixA.length := by rw [hA.length]; exact hA.width_pos
  unfold sumDifferences
  simp only [elemAt_row hpos, ok_bind, hA.rect.length_getD hpos, hA.length]

/-- **Up to `maxArea` pixels the sum does not overflow.** -/
theorem sumDifferences_ends (hA : IsShape w h matrixA) (hpixA : Pixels matrixA)
    (hpixB : Pixels matrixB) (harea : w * h ≤ maxArea) :
    Ends (· ≠ Fault.undefined) (fun sum : ℤ => 0 ≤ sum ∧ sum ≤ 255 * (w * h : ℕ))
      (sumDifferences matrixA matrixB) := by
  rw [sumDifferences_loop hA]
  -- after `k` pixels the sum is at most 255 for each of them
  apply Ends.forUpTo₂ fun k (sum : ℤ) => 0 ≤ sum ∧ sum ≤ 255 * k
  · simp
  intro x hx y hy sum hsum
  have hin : x * h + h ≤ maxArea := by
    rw [← Nat.succ_mul]
    exact le_trans (Nat.mul_le_mul_right h (Nat.succ_le_of_lt hx)) harea
  have hread := elemAt₂_of_lt hA.rect (by rwa [hA.length]) hy
  have hgrey := hpixA.entry hA.rect (by rwa [hA.length]) hy
  have hends := elemAt₂_pixel hpixB x y
  cases hb : elemAt₂ matrixB x y with
  | error e =>
    rw [hb] at hends
    unfold addDifference
    rw [hread, ok_bind, hb]
    exact hends
  | ok b =>
    rw [hb] at hends
    have hd := abs_nonneg (entry matrixA x y - b)
    have hd' := difference_le hgrey hends
    unfold maxArea at hin
    rw [addDifference_eq hread hb hgrey hends, checkedInt_of_mem (by omega) (by omega)]
    constructor <;> push_cast at * <;> omega

/-! ### Larger letters -/

/-- **The sum over more pixels of two colours overflows, if all differ.** -/
theorem sumDifferences_complement (hA : IsShape w h matrixA)
    (hpix : ∀ row ∈ matrixA, ∀ v ∈ row, v = 0 ∨ v = 255) (harea : maxArea < w * h) :
    sumDifferences matrixA (mapEntries (255 - ·) matrixA) = .error .undefined := by
  have hends : Ends (· = Fault.undefined) (fun sum : ℤ => sum = 255 * (w * h : ℕ) ∧ sum < 2 ^ 31)
      (sumDifferences matrixA (mapEntries (255 - ·) matrixA)) := by
    rw [sumDifferences_loop hA]
    apply Ends.forUpTo₂ fun k (sum : ℤ) => sum = 255 * k ∧ sum < 2 ^ 31
    · simp
    intro x hx y hy sum hsum
    have hx' : x < matrixA.length := by rwa [hA.length]
    have hread := elemAt₂_of_lt hA.rect hx' hy
    have hread' := elemAt₂_of_lt (hA.rect.mapEntries (f := (255 - ·)))
      (by rwa [length_mapEntries]) hy
    rw [entry_mapEntries (by rwa [hA.rect.length_getD hx'])] at hread'
    obtain ⟨row, hrow, hv⟩ := entry_mem hA.rect hx' hy
    have hdiff : |entry matrixA x y - (255 - entry matrixA x y)| = 255 := by
      rcases hpix row hrow _ hv with h0 | h0 <;> rw [h0] <;> rfl
    have hbound := hpix row hrow _ hv
    rw [addDifference_eq hread hread' (by omega) (by omega), hdiff]
    refine (checkedInt_ends _).imp fun v hv => ?_
    constructor
    · rw [hv.1, hsum.1]
      push_cast
      ring
    · exact hv.2
  cases hsum : sumDifferences matrixA (mapEntries (255 - ·) matrixA) with
  | error e =>
    rw [hsum] at hends
    exact congrArg Except.error hends
  | ok sum =>
    rw [hsum] at hends
    obtain ⟨heq, hlt⟩ := hends
    unfold maxArea at harea
    omega

/-- Scaled to its own size a matrix is itself, in binary64 arithmetic too. -/
theorem scaleMatrixTo_self {W H : ℕ} (hm : IsTemplate W H m) (hfw : W < fuel) (hfh : H < fuel) :
    scaleMatrixTo binary64 fuel W H m = .ok m := by
  have hW := hm.width_lt
  have hH := hm.height_lt
  obtain ⟨hx, hxend⟩ := binary64_turns_self hm.width_pos (by omega)
  obtain ⟨hy, hyend⟩ := binary64_turns_self hm.height_pos (by omega)
  rw [scaleMatrixTo_of_turns hm.isMatrix hfw hfh (fun k hk => ⟨(hx k hk).1, by rwa [(hx k hk).2]⟩)
    hxend (fun k hk => ⟨(hy k hk).1, by rwa [(hy k hk).2]⟩) hyend]
  have htable := hm.rect.eq_table
  rw [hm.length] at htable
  refine congrArg Except.ok (Eq.trans (table_congr fun i hi j hj => ?_) htable.symm)
  rw [(hx i hi).2, (hy j hj).2]

/-! ### The letters of an image -/

/-- A scaled template has its pixels. -/
theorem scaleMatrixTo_pixels (hpix : Pixels m) {width height : ℤ} {scaled : Matrix}
    (h : scaleMatrixTo fp fuel width height m = .ok scaled) : Pixels scaled := by
  obtain ⟨first, -, h⟩ := bind_eq_ok h
  intro column hcolumn v hv
  obtain ⟨x, hx⟩ := mem_of_collectWhile h hcolumn
  obtain ⟨y, hy⟩ := mem_of_collectWhile hx hv
  have hends := elemAt₂_pixel hpix (fp.toIndex x) (fp.toIndex y)
  rwa [hy] at hends

variable {image : Image} {l : Letter} {a b : ℕ}

theorem crop_area (hab : a < b) :
    (crop 127 m a b).area = (b - a) * (bottomRow 127 m a b - topRow 127 m a b) := by
  have hlen : (crop 127 m a b).matrix.length = b - a := shape_length a b
  have hheight : ((crop 127 m a b).matrix.getD 0 []).length =
      bottomRow 127 m a b - topRow 127 m a b := shape_height hab
  rw [Letter.area, hlen, hheight]

/-- **No template overflows the sum for a small letter.** -/
theorem sum_of_area (hpix : Pixels image.columns) (hl : l ∈ foundLetters 127 image.columns)
    (harea : l.area ≤ maxArea) {T scaled : Matrix} (hT : Pixels T) {width height : ℤ}
    (hscale : scaleMatrixTo fp fuel width height T = .ok scaled) :
    sumDifferences l.matrix scaled ≠ .error .undefined := by
  intro herror
  have hends := sumDifferences_ends (found_isShape hl) (found_pixels hpix hl)
    (scaleMatrixTo_pixels hT hscale) harea
  rw [herror] at hends
  exact hends rfl

/-- **Some template overflows it for a large one.** -/
theorem exists_overflow (hpix : ∀ row ∈ image.columns, ∀ v ∈ row, v = 0 ∨ v = 255)
    (hl : l ∈ foundLetters 127 image.columns) (harea : maxArea < l.area) :
    ∃ W H T, IsMatrix W H T ∧ Pixels T ∧ ∀ fuel, W < fuel → H < fuel → ∃ scaled,
      scaleMatrixTo binary64 fuel (toInt l.matrix.length) (toInt (l.matrix.getD 0 []).length) T =
        .ok scaled ∧ sumDifferences l.matrix scaled = .error .undefined := by
  have hshape := found_isShape hl
  have hpix' : ∀ row ∈ l.matrix, ∀ v ∈ row, v = 0 ∨ v = 255 := by
    intro row hrow v hv
    obtain ⟨column, hcolumn, hmem⟩ := foundLetters_pixel image.rect hl hrow hv
    exact hpix column hcolumn v hmem
  have hheight : 0 < (l.matrix.getD 0 []).length := by
    apply Nat.pos_of_ne_zero
    intro h0
    rw [Letter.area, h0, Nat.mul_zero] at harea
    omega
  have htemplate : IsTemplate l.matrix.length (l.matrix.getD 0 []).length
      (mapEntries (255 - ·) l.matrix) :=
    ⟨hshape.rect.mapEntries, length_mapEntries, hshape.width_pos, hheight, hshape.width_lt,
      hshape.height_lt⟩
  refine ⟨_, _, _, htemplate.isMatrix, ?_, fun fuel hfw hfh => ⟨_, ?_,
    sumDifferences_complement hshape hpix' harea⟩⟩
  · refine forall_mapEntries fun column hcolumn v hv => ?_
    have := hpix' column hcolumn v hv
    omega
  · rw [toInt_natCast hshape.width_lt, toInt_natCast hshape.height_lt]
    exact scaleMatrixTo_self htemplate hfw hfh

/-- **Which letters are small.** The rows of a crop go from its first dark one to its
last drop. -/
theorem areas_iff (image : Image) : (∀ l ∈ foundLetters 127 image.columns, l.area ≤ maxArea) ↔
    (∃ y, Dark 127 image.columns 0 y) ∨
      ∀ a b, IsRun 127 image.columns a b → b < image.width → ∀ y0 y1,
        DarkIn 127 image.columns a b y0 → DropIn 127 image.columns a b y1 →
        (b - a) * (y1 - y0) ≤ maxArea := by
  constructor
  · intro hall
    by_cases h0 : darkColumn 127 image.columns 0 = true
    · exact Or.inl (darkColumn_iff.mp h0)
    refine Or.inr fun a b hrun hb y0 y1 hdark hdrop => ?_
    have hl := mem_foundLetters_iff.mpr ⟨by simpa using h0, a, b, hrun, hb, rfl⟩
    have harea := hall _ hl
    rw [crop_area hrun.lt] at harea
    have htop := topRow_le hdark
    have hbottom := le_bottomRow image.rect (Nat.lt_of_lt_of_le hrun.lt hrun.le) hrun.le hdrop
    exact le_trans (Nat.mul_le_mul_left _ (by omega)) harea
  · intro h l hl
    obtain ⟨h0, a, b, hrun, hb, rfl⟩ := mem_foundLetters_iff.mp hl
    have hsmall := h.resolve_left fun hd => by
      rw [darkColumn_iff.mpr hd] at h0
      cases h0
    rw [crop_area hrun.lt]
    have hdark := darkIn_topRow image.rect hrun.lt hrun.le hrun.exists_dark
    rcases Nat.eq_zero_or_pos (bottomRow 127 image.columns a b) with hzero | hpos
    · rw [hzero, Nat.zero_sub, Nat.mul_zero]
      exact Nat.zero_le _
    · exact hsmall a b hrun hb _ _ hdark (Nat.findGreatest_of_ne_zero rfl hpos.ne')

/-- **The sum of the differences stays in range exactly when no run of columns spans
too many pixels** from a dark row down to a light pixel below a dark one. -/
theorem difference_sum_iff (image : Image)
    (hpix : ∀ row ∈ image.columns, ∀ v ∈ row, v = 0 ∨ v = 255) :
    (∃ letters, findLetters 127 image.columns = .ok letters ∧ ∀ l ∈ letters,
      ∀ W H T, IsMatrix W H T → Pixels T → ∀ fuel scaled,
        scaleMatrixTo binary64 fuel (toInt l.matrix.length) (toInt (l.matrix.getD 0 []).length) T =
          .ok scaled → sumDifferences l.matrix scaled ≠ .error .undefined) ↔
    (∃ y, Dark 127 image.columns 0 y) ∨
      ∀ a b, IsRun 127 image.columns a b → b < image.width → ∀ y0 y1,
        DarkIn 127 image.columns a b y0 → DropIn 127 image.columns a b y1 →
        (b - a) * (y1 - y0) ≤ 8421504 := by
  have hareas := areas_iff image
  unfold maxArea at hareas
  rw [← hareas, findLetters_eq _ image.rect]
  have hgrey : Pixels image.columns := pixels_of_binary hpix
  constructor
  · intro ⟨letters, hok, hall⟩ l hl
    obtain rfl := Except.ok.inj hok
    by_contra hlt
    obtain ⟨W, H, T, hT, hpixT, hover⟩ := exists_overflow hpix hl (not_le.mp hlt)
    obtain ⟨scaled, hscale, herror⟩ := hover (W + H + 1) (by omega) (by omega)
    exact hall l hl W H T hT hpixT _ scaled hscale herror
  · intro hsmall
    exact ⟨_, rfl, fun l hl W H T _ hT fuel scaled => sum_of_area hgrey hl (hsmall l hl) hT⟩

theorem difference_sum_iff_dot : ∃ letters, findLetters 127 dot.columns = .ok letters ∧
    ∀ l ∈ letters, ∀ W H T, IsMatrix W H T → Pixels T → ∀ fuel scaled,
      scaleMatrixTo binary64 fuel (toInt l.matrix.length) (toInt (l.matrix.getD 0 []).length) T =
        .ok scaled → sumDifferences l.matrix scaled ≠ .error .undefined := by
  refine (difference_sum_iff dot (by decide)).mpr (Or.inr fun a b hrun hb y0 y1 _ hdrop => ?_)
  obtain ⟨x, hxb, _, hdrop⟩ := hdrop
  have hwidth : b < 3 := hb
  have hheight : y1 < 3 := hdrop.lt dot.rect (Nat.lt_of_lt_of_le hxb hrun.le)
  have := Nat.mul_le_mul (show b - a ≤ 3 by omega) (show y1 - y0 ≤ 3 by omega)
  omega

section Block

/-- A black block of `w` by `h` pixels in a light frame. -/
def block (w h : ℕ) : Matrix := table (w + 2) (h + 2) fun x y =>
  if (0 < x ∧ x ≤ w) ∧ 0 < y ∧ y ≤ h then 0 else 255

theorem block_length (w h : ℕ) : (block w h).length = w + 2 := length_table _ _ _

theorem block_rect (w h : ℕ) : Rect (h + 2) (block w h) := rect_table _ _ _

theorem block_binary (w h : ℕ) : ∀ row ∈ block w h, ∀ v ∈ row, v = 0 ∨ v = 255 :=
  binary_table fun x y => (0 < x ∧ x ≤ w) ∧ 0 < y ∧ y ≤ h

theorem block_entry {x y : ℕ} (hx : x < w + 2) (hy : y < h + 2) : entry (block w h) x y =
    if (0 < x ∧ x ≤ w) ∧ 0 < y ∧ y ≤ h then 0 else 255 :=
  entry_table _ hx hy

theorem block_height {x : ℕ} (hx : x < w + 2) : ((block w h).getD x []).length = h + 2 :=
  (block_rect w h).length_getD (by rwa [block_length])

theorem block_dark_iff {x y : ℕ} (hx : x < w + 2) : Dark 127 (block w h) x y ↔
    (0 < x ∧ x ≤ w) ∧ 0 < y ∧ y ≤ h := by
  unfold Dark
  rw [block_height hx]
  constructor
  · intro ⟨hy, hlt⟩
    rw [block_entry hx hy] at hlt
    by_contra hout
    rw [if_neg hout] at hlt
    omega
  · intro hin
    have hy : y < h + 2 := by omega
    rw [block_entry hx hy, if_pos hin]
    exact ⟨hy, by decide⟩

theorem block_isRun (hw : 0 < w) (hh : 0 < h) : IsRun 127 (block w h) 1 (w + 1) where
  lt := by omega
  le := by rw [block_length]; omega
  dark x h1 h2 := ⟨1, (block_dark_iff (by omega)).mpr (by omega)⟩
  before := Or.inr fun y hd => by
    have := (block_dark_iff (by omega)).mp hd
    omega
  after y hd := by
    have := (block_dark_iff (by omega)).mp hd
    omega

/-- The last row of the block is followed by a light one. -/
theorem block_drop (hw : 0 < w) (hh : 0 < h) : Drop 127 (block w h) 1 (h + 1) := by
  refine ⟨by omega, ?_, ?_, ?_⟩
  · rw [block_height (by omega)]
    omega
  · rw [block_entry (by omega) (by omega), if_neg (by omega)]
    decide
  · exact ((block_dark_iff (by omega)).mpr (by omega)).2

/-- The letter of a large block overflows the sum, on some template. -/
theorem block_overflow (hw : w + 2 < 2 ^ 31) (hh : h + 2 < 2 ^ 31) (harea : maxArea < w * h) :
    ∃ letters, findLetters 127 (block w h) = .ok letters ∧ ∃ l ∈ letters,
      ∃ W H T, IsMatrix W H T ∧ Pixels T ∧ ∀ fuel, W < fuel → H < fuel → ∃ scaled,
        scaleMatrixTo binary64 fuel (toInt l.matrix.length) (toInt (l.matrix.getD 0 []).length) T =
          .ok scaled ∧ sumDifferences l.matrix scaled = .error .undefined := by
  let image : Image := ⟨block w h, h + 2, block_rect w h, by rwa [block_length], hh⟩
  have hpos : 0 < w * h := Nat.zero_lt_of_lt harea
  have hw0 : 0 < w := Nat.pos_of_mul_pos_right hpos
  have hh0 : 0 < h := Nat.pos_of_mul_pos_left hpos
  have hrun := block_isRun hw0 hh0
  have hlight : darkColumn 127 (block w h) 0 = false := by
    rw [darkColumn_eq_false_iff]
    intro y hd
    have := (block_dark_iff (by omega)).mp hd
    omega
  have hl : crop 127 (block w h) 1 (w + 1) ∈ foundLetters 127 image.columns :=
    mem_foundLetters_iff.mpr ⟨hlight, 1, w + 1, hrun, by rw [block_length]; omega, rfl⟩
  have htop : topRow 127 (block w h) 1 (w + 1) ≤ 1 :=
    topRow_le ⟨1, by omega, by omega, (block_dark_iff (by omega)).mpr (by omega)⟩
  have hbottom : h + 1 ≤ bottomRow 127 (block w h) 1 (w + 1) :=
    le_bottomRow (block_rect w h) (by rw [block_length]; omega) hrun.le
      ⟨1, by omega, by omega, block_drop hw0 hh0⟩
  have hlarge : w * h ≤ (crop 127 (block w h) 1 (w + 1)).area := by
    rw [crop_area hrun.lt, Nat.add_sub_cancel]
    exact Nat.mul_le_mul_left w (by omega)
  exact ⟨_, findLetters_eq _ (block_rect w h), _, hl,
    exists_overflow (block_binary w h) hl (Nat.lt_of_lt_of_le harea hlarge)⟩

/-- A letter of 2903 by 2902 pixels is too large. -/
theorem block_overflows : Rect 2904 (block 2903 2902) ∧
    (∀ row ∈ block 2903 2902, ∀ v ∈ row, v = 0 ∨ v = 255) ∧
    ∃ letters, findLetters 127 (block 2903 2902) = .ok letters ∧ ∃ l ∈ letters,
      ∃ W H T, IsMatrix W H T ∧ Pixels T ∧ ∀ fuel, W < fuel → H < fuel → ∃ scaled,
        scaleMatrixTo binary64 fuel (toInt l.matrix.length) (toInt (l.matrix.getD 0 []).length) T =
          .ok scaled ∧ sumDifferences l.matrix scaled = .error .undefined :=
  ⟨block_rect 2903 2902, block_binary 2903 2902,
    block_overflow (by omega) (by omega) (by unfold maxArea; omega)⟩

end Block

end Ocr
end IcnDemo
