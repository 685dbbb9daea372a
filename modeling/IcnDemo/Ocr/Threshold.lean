/-
# Thresholds

`applyThreshold` of `lib/image_util.cpp` makes a grey image black and white:
`high` where a pixel is above the threshold, `low` elsewhere. It commutes with
the segmentation (`findLetters_applyThreshold`): since `low` is dark and `high`
light to `findLetters s`, and a pixel above `t` is light to `findLetters (t + 1)`,
the two find the same letters, the ones black and white, the others grey.
`loadImage` uses 90 and the recognisers 127, so together they are the one
threshold 91 of `findLetters` on the grey image. The counters of `applyThreshold`
are `int`s in the source, which go through the sides of an `Image`.
-/
import IcnDemo.Ocr.Segmentation

namespace IcnDemo
namespace Ocr

open Lib.Loop Lib.Grid Lib.Segments

/-- `THRESHOLD` -/
def THRESHOLD : ℤ := 90

/-- What the pixel becomes; it is an `unsigned int` between two `int`s. -/
def thresholdPixel (threshold high low pixel : ℤ) : ℤ :=
  let shade := (if threshold < pixel then high else low) % 2 ^ 32
  toInt shade

/-- `apply_threshold` -/
def applyThreshold (threshold : ℤ) (oldMatrix : Matrix) (high low : ℤ) : Except Fault Matrix :=
  (List.range oldMatrix.length).mapM fun x => do
    let first ← elemAt oldMatrix 0
    (List.range first.length).mapM fun y => do
      let pixel ← elemAt₂ oldMatrix x y
      .ok (thresholdPixel threshold high low pixel)

/-- `load_image`, from the shades of grey of the image on. -/
def loadImage (grey : Matrix) : Except Fault Matrix := applyThreshold THRESHOLD grey 255 0

variable {threshold high low s t : ℤ} {m : Matrix} {r : ℕ}

/-! ### What a threshold makes of a matrix -/

/-- Through `unsigned int` and back an `int` stays as it is. -/
theorem toInt_emod (v : ℤ) : toInt (v % 2 ^ 32) = toInt v := by
  unfold toInt
  exact Int.emod_bmod v (2 ^ 32)

theorem thresholdPixel_eq (hlow : -2 ^ 31 ≤ low) (hle : low ≤ high) (hhigh : high < 2 ^ 31)
    (v : ℤ) : thresholdPixel threshold high low v = if threshold < v then high else low := by
  unfold thresholdPixel
  rw [toInt_emod]
  split
  · exact toInt_of_mem (by omega) hhigh
  · exact toInt_of_mem hlow (by omega)

/-- **Every pixel is compared with the threshold.** -/
theorem applyThreshold_eq (hm : Rect r m) : applyThreshold threshold m high low =
    .ok (mapEntries (thresholdPixel threshold high low) m) := by
  unfold applyThreshold
  conv_rhs => rw [hm.eq_table, mapEntries_table]
  apply mapM_ok
  intro x hx
  rw [List.mem_range] at hx
  rw [elemAt_row (by omega), ok_bind, hm.length_getD (by omega)]
  apply mapM_ok
  intro y hy
  rw [elemAt₂_of_lt hm hx (List.mem_range.mp hy), ok_bind]

/-- A matrix of two colours. -/
theorem mem_applyThreshold (hlow : -2 ^ 31 ≤ low) (hle : low ≤ high) (hhigh : high < 2 ^ 31)
    {row : List ℤ} (hrow : row ∈ mapEntries (thresholdPixel threshold high low) m) {v : ℤ}
    (hv : v ∈ row) : v = low ∨ v = high := by
  refine forall_mapEntries (p := fun v => v = low ∨ v = high) (fun _ _ v _ => ?_) row hrow v hv
  rw [thresholdPixel_eq hlow hle hhigh]
  split
  · exact Or.inr rfl
  · exact Or.inl rfl

/-- A matrix of the two colours stays as it is. -/
theorem applyThreshold_of_binary (hlow : -2 ^ 31 ≤ low) (hle : low ≤ threshold)
    (hlt : threshold < high) (hhigh : high < 2 ^ 31) (hm : Rect r m)
    (hpix : ∀ row ∈ m, ∀ v ∈ row, v = low ∨ v = high) :
    applyThreshold threshold m high low = .ok m := by
  have hkeep : ∀ row ∈ m, row.map (thresholdPixel threshold high low) = id row := by
    intro row hrow
    conv_rhs => rw [id_eq, ← List.map_id row]
    apply List.map_congr_left
    intro v hv
    rw [thresholdPixel_eq hlow (by omega) hhigh]
    rcases hpix row hrow v hv with rfl | rfl
    · exact if_neg (not_lt.mpr hle)
    · exact if_pos hlt
  rw [applyThreshold_eq hm, mapEntries, List.map_congr_left hkeep, List.map_id]

/-- **What `load_image` returns has two colours**, and every such image is one. -/
theorem loadImage_pixels (hm : Rect r m) : (∃ grey, Rect r grey ∧ loadImage grey = .ok m) ↔
    ∀ row ∈ m, ∀ v ∈ row, v = 0 ∨ v = 255 := by
  constructor
  · intro ⟨grey, hgrey, hload⟩ row hrow v hv
    rw [loadImage, applyThreshold_eq hgrey] at hload
    obtain rfl := Except.ok.inj hload
    exact mem_applyThreshold (by decide) (by decide) (by decide) hrow hv
  · intro hpix
    exact ⟨m, hm, applyThreshold_of_binary (by decide) (by decide) (by decide) (by decide) hm hpix⟩

/-! ### Segmentation after a change of the pixels -/

section Change

variable {f : ℤ → ℤ} (hf : ∀ v, f v < s ↔ v < t)
include hf

theorem dark_mapEntries (x y : ℕ) : Dark s (mapEntries f m) x y ↔ Dark t m x y := by
  unfold Dark
  rw [getD_mapEntries, List.length_map]
  apply and_congr_right
  intro hy
  rw [entry_mapEntries hy, hf]

theorem drop_mapEntries (x y : ℕ) : Drop s (mapEntries f m) x y ↔ Drop t m x y := by
  unfold Drop
  rw [getD_mapEntries, List.length_map]
  apply and_congr_right
  intro _
  apply and_congr_right
  intro hy
  rw [entry_mapEntries hy, entry_mapEntries (Nat.lt_of_le_of_lt (Nat.sub_le y 1) hy), hf,
    ← not_lt, ← not_lt, hf]

theorem darkColumn_mapEntries : darkColumn s (mapEntries f m) = darkColumn t m := by
  funext x
  rw [Bool.eq_iff_iff, darkColumn_iff, darkColumn_iff]
  exact exists_congr (dark_mapEntries hf x)

theorem darkIn_mapEntries (a b y : ℕ) : DarkIn s (mapEntries f m) a b y ↔ DarkIn t m a b y := by
  unfold DarkIn
  simp only [dark_mapEntries hf]

theorem dropIn_mapEntries (a b y : ℕ) : DropIn s (mapEntries f m) a b y ↔ DropIn t m a b y := by
  unfold DropIn
  simp only [drop_mapEntries hf]

theorem topRow_mapEntries (a b : ℕ) : topRow s (mapEntries f m) a b = topRow t m a b := by
  have hdark : (fun y => decide (DarkIn s (mapEntries f m) a b y)) =
      fun y => decide (DarkIn t m a b y) :=
    funext fun y => decide_eq_decide.mpr (darkIn_mapEntries hf a b y)
  unfold topRow
  rw [hdark, getD_mapEntries, List.length_map]

theorem bottomRow_mapEntries (a b : ℕ) : bottomRow s (mapEntries f m) a b = bottomRow t m a b := by
  unfold bottomRow
  rw [getD_mapEntries, List.length_map]
  apply Nat.le_antisymm
  · exact Nat.findGreatest_mono_left (fun y => (dropIn_mapEntries hf a b y).mp) _
  · exact Nat.findGreatest_mono_left (fun y => (dropIn_mapEntries hf a b y).mpr) _

theorem shape_mapEntries (hm : Rect r m) {a b : ℕ} (hab : a < b) (hb : b ≤ m.length) :
    shape s (mapEntries f m) a b = mapEntries f (shape t m a b) := by
  have hbottom := bottomRow_le (t := t) hm (show a < m.length by omega) b
  unfold shape
  rw [topRow_mapEntries hf, bottomRow_mapEntries hf, mapEntries_table]
  apply table_congr
  intro i hi j hj
  apply entry_mapEntries
  rw [hm.length_getD (by omega)]
  omega

/-- **A change of the pixels that keeps what is dark keeps the letters**, up to the
change. -/
theorem foundLetters_mapEntries (hm : Rect r m) : foundLetters s (mapEntries f m) =
    (foundLetters t m).map fun l => { l with matrix := mapEntries f l.matrix } := by
  unfold foundLetters
  rw [darkColumn_mapEntries hf, length_mapEntries]
  split
  · rfl
  · rw [List.map_map]
    apply List.map_congr_left
    intro b hb
    obtain ⟨hlt, hbm⟩ := run_bounds hb
    simp only [shapeLetter, Function.comp_apply, darkColumn_mapEntries hf, topRow_mapEntries hf,
      shape_mapEntries hf hm hlt hbm.le]
    rfl

end Change

/-! ### Binarising first and segmenting first -/

/-- **The two thresholds act as one.** -/
theorem findLetters_applyThreshold (grey : Image) (hlow : -2 ^ 31 ≤ low) (hs : low < s)
    (hle : s ≤ high) (hhigh : high < 2 ^ 31) : ∃ binary letters letters',
      applyThreshold threshold grey.columns high low = .ok binary ∧
      findLetters s binary = .ok letters' ∧
      findLetters (threshold + 1) grey.columns = .ok letters ∧
      List.Forall₂ (fun l l' => l'.x = l.x ∧ l'.y = l.y ∧
        applyThreshold threshold l.matrix high low = .ok l'.matrix) letters letters' := by
  have hm := grey.rect
  -- a pixel is dark after the threshold exactly when it is not above it
  have hf : ∀ v, thresholdPixel threshold high low v < s ↔ v < threshold + 1 := by
    intro v
    rw [thresholdPixel_eq hlow (by omega) hhigh]
    split <;> omega
  refine ⟨_, _, _, applyThreshold_eq hm, findLetters_eq s hm.mapEntries,
    findLetters_eq (threshold + 1) hm, ?_⟩
  rw [foundLetters_mapEntries hf hm, List.forall₂_map_right_iff, List.forall₂_same]
  intro l hl
  obtain ⟨_, _, -, -, -, -, hrect⟩ := foundLetters_size hm hl
  exact ⟨rfl, rfl, applyThreshold_eq hrect⟩

/-- Grey levels next to both thresholds of the code. -/
def greyLevels : Image where
  columns := [[255, 127, 200, 91], [91, 90, 0, 127], [126, 255, 91, 92]]
  height := 4
  rect := by decide
  width_lt := by decide
  height_lt := by decide

theorem findLetters_applyThreshold_grey : ∃ binary letters letters',
    loadImage greyLevels.columns = .ok binary ∧ findLetters 127 binary = .ok letters' ∧
    findLetters 91 greyLevels.columns = .ok letters ∧
    List.Forall₂ (fun l l' => l'.x = l.x ∧ l'.y = l.y ∧
      applyThreshold 90 l.matrix 255 0 = .ok l'.matrix) letters letters' :=
  findLetters_applyThreshold greyLevels (by decide) (by decide) (by decide) (by decide)

end Ocr
end IcnDemo
