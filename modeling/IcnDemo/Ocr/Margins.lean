/-
# Gaps and margins

What stands left of a light column matters to the letters on its right only if
the first column is dark, which keeps `leftEdge` at 0 and hides them all
(`gap_isolates_iff`). And light columns put on the right of an image bring out
the letter that touches that border, if there is one and the first column is
light (`margin_iff`).
-/
import IcnDemo.Ocr.Layout

namespace IcnDemo
namespace Ocr

open Lib.Loop Lib.Grid Lib.Segments

variable {t : ℤ} {m m' A B margin : Matrix} {g : List ℤ} {r a b k : ℕ}

/-- The crop of the same columns at another place. -/
theorem crop_of_same_columns (hm : Rect r m) (hm' : Rect r m') (hrun : IsRun t m a b)
    (hb' : k + b ≤ m'.length) (hcol : ∀ x < b, m'.getD (k + x) [] = m.getD x []) :
    crop t m' (k + a) (k + b) = { crop t m a b with x := (crop t m a b).x + k } := by
  have hlt := hrun.lt
  have hend : k + b = k + a + (b - a) := by omega
  have hfrom : LoweredFrom t 0 m m' a b (k + a) := fun i hi => by
    rw [Nat.add_assoc, hcol _ (by omega)]
    exact Lowered.refl _
  rw [hend, crop_lowered hm (d := 0) hm' hrun (by omega) hfrom, Letter.mk.injEq]
  refine ⟨rfl, rfl, ?_, Int.add_zero _⟩
  show ((k + a : ℕ) : ℤ) = a + k
  omega

theorem darkColumn_of_light (h : ∀ v ∈ m.getD a [], t ≤ v) : darkColumn t m a = false := by
  unfold darkColumn
  rw [List.any_eq_false]
  intro v hv
  simpa using h v hv

/-! ### A margin on the right -/

section Margin

variable (hlight : ∀ column ∈ margin, ∀ v ∈ column, t ≤ v)

include hlight

theorem darkColumn_margin : darkColumn t (m ++ margin) = darkColumn t m := by
  funext x
  by_cases hx : x < m.length
  · unfold darkColumn
    rw [List.getD_append _ _ _ _ hx]
  · rw [darkColumn_of_length_le (not_lt.mp hx)]
    apply darkColumn_of_light
    intro v hv
    rw [List.getD_append_right _ _ _ _ (not_lt.mp hx)] at hv
    by_cases hx' : x - m.length < margin.length
    · rw [List.getD_eq_getElem _ _ hx'] at hv
      exact hlight _ (List.getElem_mem hx') v hv
    · rw [List.getD_eq_default _ _ (not_lt.mp hx')] at hv
      cases hv

/-- A margin of one column or more ends the run that touches the border. -/
theorem foundLetters_margin (hm : Rect r m) (hr : Rect r margin) (hne : margin ≠ [])
    (h0 : darkColumn t m 0 = false) : foundLetters t (m ++ margin) = foundLetters t m ++
      if runStart (darkColumn t m) m.length < m.length then
        [crop t (m ++ margin) (runStart (darkColumn t m) m.length) m.length] else [] := by
  have hrect := hm.append hr
  have hd := darkColumn_margin (m := m) hlight
  obtain ⟨j, hj⟩ := Nat.exists_eq_succ_of_ne_zero (List.length_pos_iff.mpr hne).ne'
  have hlen : (m ++ margin).length = m.length + j + 1 := by
    rw [List.length_append, hj]
    rfl
  have hnone : ∀ x, m.length ≤ x → darkColumn t m x = false := fun x hx => darkColumn_of_length_le hx
  rw [foundLetters_eq_crops, foundLetters_eq_crops, hd, h0, if_neg (by simp), if_neg (by simp),
    hlen, (runs_blank fun x h1 _ => hnone x h1).2, runs_succ, hnone _ (Nat.le_refl _),
    List.map_append]
  congr 1
  · -- the crops of the image, whose columns are still there
    apply List.map_congr_left
    intro p hp
    obtain ⟨hrun, hlt⟩ := (mem_runs_iff (Nat.le_refl _)).mp hp
    have hcrop := crop_of_same_columns (k := 0) hm hrect hrun (by omega) fun x hx => by
      rw [Nat.zero_add, List.getD_append _ _ _ _ (by omega)]
    rw [Nat.zero_add, Nat.zero_add] at hcrop
    rw [hcrop, Letter.mk.injEq]
    exact ⟨rfl, rfl, Int.add_zero _, rfl⟩
  · by_cases hrun : runStart (darkColumn t m) m.length < m.length
    · rw [if_pos ⟨rfl, hrun⟩, if_pos hrun]
      rfl
    · rw [if_neg fun hc => hrun hc.2, if_neg hrun]
      rfl

end Margin

/-- **A margin on the right does not matter exactly when** it is empty, or the first
column is dark, or no letter touches the right border. -/
theorem margin_iff (t : ℤ) {image wider : Image}
    (hwider : wider.columns = image.columns ++ margin)
    (hlight : ∀ column ∈ margin, ∀ v ∈ column, t ≤ v) :
    findLetters t wider.columns = findLetters t image.columns ↔
      margin = [] ∨ (∃ y, Dark t image.columns 0 y) ∨
        ∀ y, ¬ Dark t image.columns (image.width - 1) y := by
  have hrect : Rect wider.height (image.columns ++ margin) := hwider ▸ wider.rect
  obtain ⟨hm, hr⟩ := rect_append_iff.mp hrect
  rw [hwider, findLetters_eq t hm, findLetters_eq t hrect, Except.ok.injEq, ← darkColumn_iff,
    ← darkColumn_eq_false_iff, Image.width]
  by_cases hne : margin = []
  · rw [hne, List.append_nil]
    simp
  · cases h0 : darkColumn t image.columns 0 with
    | true =>
      unfold foundLetters
      rw [darkColumn_margin hlight, h0, if_pos rfl, if_pos rfl]
      simp
    | false =>
      rw [foundLetters_margin hlight hm hr hne h0]
      by_cases hlast : darkColumn t image.columns (image.columns.length - 1) = true
      · have hpos : 0 < image.columns.length := by
          by_contra hzero
          rw [darkColumn_of_length_le (by omega)] at hlast
          cases hlast
        rw [if_pos (runStart_lt_iff.mpr ⟨hpos, hlast⟩)]
        simp [hne, hlast]
      · rw [if_neg fun hc => hlast (runStart_lt_iff.mp hc).2]
        simp [hlast]

/-- The dot's image with a column more. -/
def widerDot : Image where
  columns := dot.columns ++ [[255, 255, 255]]
  height := dot.height
  rect := by decide
  width_lt := by decide
  height_lt := dot.height_lt

theorem margin_iff_dot : findLetters 127 widerDot.columns = findLetters 127 dot.columns ↔
    ([[255, 255, 255]] : Matrix) = [] ∨ (∃ y, Dark 127 dot.columns 0 y) ∨
      ∀ y, ¬ Dark 127 dot.columns (dot.width - 1) y :=
  margin_iff 127 (show widerDot.columns = dot.columns ++ [[255, 255, 255]] from rfl) (by decide)

/-- A letter at the right border is only found with a margin. -/
theorem margin_finds_letter : findLetters 127 [[255, 255], [0, 255]] = .ok [] ∧
    findLetters 127 ([[255, 255], [0, 255]] ++ [[255, 255]]) = .ok [⟨star, [[0]], 1, 0⟩] := by
  decide

/-! ### A light column between two images -/

section Gap

variable (hA : Rect r A) (hB : Rect r B) (hg : g.length = r) (hlight : ∀ v ∈ g, t ≤ v)

theorem gap_getD (i : ℕ) : (A ++ [g] ++ B).getD (A.length + i) [] = ([g] ++ B).getD i [] := by
  rw [List.append_assoc, List.getD_append_right _ _ _ _ (Nat.le_add_right _ _),
    Nat.add_sub_cancel_left]

include hlight in
/-- Whether the first column is dark is up to the left image. -/
theorem darkColumn_gap : darkColumn t (A ++ [g] ++ B) 0 = darkColumn t A 0 := by
  cases A with
  | nil => exact darkColumn_of_light hlight
  | cons column A => rfl

include hA hB hg hlight

/-- **The letters left of the gap, and then those right of it, moved.** -/
theorem foundLetters_gap (h0 : darkColumn t A 0 = false) : ∃ left : List Letter,
    (∀ l ∈ left, l.x < (A.length : ℤ)) ∧ foundLetters t (A ++ [g] ++ B) = left ++
      (foundLetters t ([g] ++ B)).map fun l => { l with x := l.x + (A.length : ℤ) } := by
  have hgB : Rect r ([g] ++ B) := hB.cons hg
  have hrect : Rect r (A ++ [g] ++ B) := by
    rw [List.append_assoc]
    exact hA.append hgB
  have hgap : darkColumn t ([g] ++ B) 0 = false := darkColumn_of_light hlight
  have hcol : (fun i => darkColumn t (A ++ [g] ++ B) (A.length + i)) = darkColumn t ([g] ++ B) := by
    funext i
    unfold darkColumn
    rw [gap_getD]
  have hk : darkColumn t (A ++ [g] ++ B) A.length = false := by
    have := congrFun hcol 0
    rw [hgap] at this
    exact this
  have hlen : (A ++ [g] ++ B).length = A.length + 1 + B.length := by simp; omega
  have hlenB : ([g] ++ B).length = 1 + B.length := by simp; omega
  have hshift := (runs_shift hk B.length).2
  rw [hcol] at hshift
  refine ⟨(runs (darkColumn t (A ++ [g] ++ B)) (A.length + 1)).map fun p =>
    crop t (A ++ [g] ++ B) p.1 p.2, fun l hl => ?_, ?_⟩
  · obtain ⟨p, hp, rfl⟩ := List.mem_map.mp hl
    obtain ⟨hab, hlt, -⟩ := mem_runs.mp hp
    show (p.1 : ℤ) < A.length
    omega
  · rw [foundLetters_eq_crops, foundLetters_eq_crops, darkColumn_gap hlight, h0, hgap,
      if_neg (by simp), if_neg (by simp), hlen, hlenB, hshift, List.map_append, List.map_map,
      List.map_map]
    congr 1
    apply List.map_congr_left
    intro p hp
    obtain ⟨hrun, hlt⟩ := (mem_runs_iff (by rw [hlenB])).mp hp
    exact crop_of_same_columns hgB hrect hrun (by omega) fun x _ => gap_getD x

/-- The letters right of the gap are those with `x` beyond the left image. -/
theorem filter_foundLetters_gap (h0 : darkColumn t A 0 = false) :
    ((foundLetters t (A ++ [g] ++ B)).filter fun l => decide ((A.length : ℤ) < l.x)) =
      (foundLetters t ([g] ++ B)).map fun l => { l with x := l.x + (A.length : ℤ) } := by
  have hgap : darkColumn t ([g] ++ B) 0 = false := darkColumn_of_light hlight
  obtain ⟨left, hleft, hfound⟩ := foundLetters_gap hA hB hg hlight h0
  rw [hfound, List.filter_append, List.filter_eq_nil_iff.mpr, List.nil_append,
    List.filter_eq_self.mpr]
  · intro l hl
    obtain ⟨l', hl', rfl⟩ := List.mem_map.mp hl
    obtain ⟨-, a, b, hrun, -, rfl⟩ := mem_foundLetters_iff.mp hl'
    -- no run starts at the gap
    have hpos := hrun.pos hgap
    rw [decide_eq_true_eq]
    show (A.length : ℤ) < a + A.length
    omega
  · intro l hl
    have := hleft l hl
    rw [decide_eq_true_eq]
    omega

end Gap

/-- Right of the gap no letter is found exactly when no light column comes after a
dark one. -/
theorem foundLetters_gap_eq_nil_iff (hlight : ∀ v ∈ g, t ≤ v) : foundLetters t ([g] ++ B) = [] ↔
    ∀ i j, i < j → j < B.length → (∃ y, Dark t B i y) → ∃ y, Dark t B j y := by
  have hgap : darkColumn t ([g] ++ B) 0 = false := darkColumn_of_light hlight
  rw [foundLetters_eq_crops, hgap, if_neg (by simp), List.map_eq_nil_iff, runs_eq_nil_iff]
  simp only [← darkColumn_iff]
  have hnext : ∀ i, darkColumn t ([g] ++ B) (i + 1) = darkColumn t B i := fun _ => rfl
  constructor
  · intro h i j hij hj hi
    have := h (i + 1) (j + 1) (by omega) (by simpa using hj)
    rw [hnext, hnext] at this
    exact this hi
  · intro h i j hij hj hi
    cases i with
    | zero => rw [hgap] at hi; cases hi
    | succ i =>
      cases j with
      | zero => omega
      | succ j =>
        rw [hnext] at hi ⊢
        exact h i j (by omega) (by simpa using hj) hi

/-- **A light column isolates what follows it exactly when** the first column is
light, or nothing follows that would be found. -/
theorem gap_isolates_iff (t : ℤ) (image : Image) (hcut : image.columns = A ++ [g] ++ B)
    (hlight : ∀ v ∈ g, t ≤ v) : ∃ letters lettersB, findLetters t image.columns = .ok letters ∧
      findLetters t ([g] ++ B) = .ok lettersB ∧
      ((letters.filter fun l => decide ((A.length : ℤ) < l.x)) =
          lettersB.map (fun l => { l with x := l.x + (A.length : ℤ) }) ↔
        (∀ y, ¬ Dark t A 0 y) ∨
        ∀ i j, i < j → j < B.length → (∃ y, Dark t B i y) → ∃ y, Dark t B j y) := by
  have hrect : Rect image.height (A ++ [g] ++ B) := hcut ▸ image.rect
  obtain ⟨hAg, hB⟩ := rect_append_iff.mp hrect
  obtain ⟨hA, hg'⟩ := rect_append_iff.mp hAg
  have hg : g.length = image.height := hg' g (List.mem_singleton_self g)
  have hgB : Rect image.height ([g] ++ B) := hB.cons hg
  rw [hcut]
  refine ⟨_, _, findLetters_eq t hrect, findLetters_eq t hgB, ?_⟩
  rw [← foundLetters_gap_eq_nil_iff hlight, ← darkColumn_eq_false_iff]
  cases h0 : darkColumn t A 0 with
  | false =>
    rw [filter_foundLetters_gap hA hB hg hlight h0]
    exact iff_of_true rfl (Or.inl rfl)
  | true =>
    have hnil : foundLetters t (A ++ [g] ++ B) = [] := by
      unfold foundLetters
      rw [darkColumn_gap hlight, h0, if_pos rfl]
    rw [hnil, List.filter_nil, eq_comm, List.map_eq_nil_iff]
    simp

/-- Two light columns, a dot in the upper row and a light column. -/
def cutImage : Image where
  columns := [[255, 255, 255]] ++ [[255, 255, 255]] ++ [[0, 255, 255], [255, 255, 255]]
  height := dot.height
  rect := by decide
  width_lt := by decide
  height_lt := dot.height_lt

theorem gap_isolates_iff_light : ∃ letters lettersB,
    findLetters 127 cutImage.columns = .ok letters ∧
    findLetters 127 ([[255, 255, 255]] ++ [[0, 255, 255], [255, 255, 255]]) = .ok lettersB ∧
      ((letters.filter fun l => decide ((([[255, 255, 255]] : Matrix).length : ℤ) < l.x)) =
          lettersB.map (fun l => { l with x := l.x + (([[255, 255, 255]] : Matrix).length : ℤ) }) ↔
        (∀ y, ¬ Dark 127 [[255, 255, 255]] 0 y) ∨
        ∀ i j, i < j → j < ([[0, 255, 255], [255, 255, 255]] : Matrix).length →
          (∃ y, Dark 127 [[0, 255, 255], [255, 255, 255]] i y) →
          ∃ y, Dark 127 [[0, 255, 255], [255, 255, 255]] j y) :=
  gap_isolates_iff 127 cutImage rfl (by decide)

/-- A mark in the first column hides the letter behind the gap. -/
theorem mark_hides_letter :
    findLetters 127 ([[255, 255]] ++ [[0, 255], [255, 255]]) = .ok [⟨star, [[0]], 1, 0⟩] ∧
    findLetters 127 ([[0, 255]] ++ [[255, 255]] ++ [[0, 255], [255, 255]]) = .ok [] := by
  decide

end Ocr
end IcnDemo
