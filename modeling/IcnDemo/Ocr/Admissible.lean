/-
# Which images are recognised

The bottom edge of a shape is where, in one of its columns, a light pixel
follows a dark one. A shape that reaches the last row in every column has no
such place: its copy has no pixels, no template is nearest to it, and the
recogniser throws. `recognises_iff` says that this is the only way to fail: an
image is recognised exactly when every shape it is cut into is closed at the
bottom by a light pixel in some column (`Closed`).
-/
import IcnDemo.Ocr.Agree
import IcnDemo.Ocr.Matching
import IcnDemo.Lib.Binary64

namespace IcnDemo
namespace Ocr

open Lib.Loop Lib.Grid Lib.Double Lib.Segments

/-- The number of pixels of a letter. -/
def Letter.area (l : Letter) : ℕ := l.matrix.length * (l.matrix.getD 0 []).length

/-- The pixels of the templates are shades of grey. -/
def GreyTemplates (letters_c : Matrix) : Prop :=
  ∀ i < letters_c.length, ∀ k < (sizes.getD i (0, 0)).1 * (sizes.getD i (0, 0)).2,
    0 ≤ entry letters_c i k ∧ entry letters_c i k ≤ 255

/-- The first column has a dark pixel (then nothing is cut out at all), or every
maximal run of columns with dark pixels before the last column has, in one of
them, a light pixel right below a dark one. -/
def Closed (image : Image) : Prop :=
  darkColumn 127 image.columns 0 = true ∨
  ∀ a b, 0 < a → a < b → b < image.width →
    (∀ x, a ≤ x → x < b → darkColumn 127 image.columns x = true) →
    darkColumn 127 image.columns (a - 1) = false → darkColumn 127 image.columns b = false →
    ∃ x y, a ≤ x ∧ x < b ∧ Drop 127 image.columns x y

variable {F : Type} {fp : Ops F} {fuel : ℕ} {letters_c : Matrix} {image : Image} {l : Letter}

theorem templates_areTemplates (h : IsAlphabet letters_c) (hgrey : GreyTemplates letters_c) :
    AreTemplates (templates letters_c) := by
  intro l hl
  obtain ⟨W, H, hT⟩ := template_isTemplate h.length_le hl
  refine ⟨⟨W, H, hT⟩, ?_⟩
  obtain ⟨i, hi, rfl⟩ := List.mem_map.mp hl
  rw [List.mem_range] at hi
  apply Pixels.table
  intro x hx y hy
  have hle : (sizes.getD i (0, 0)).2 * (x + 1) ≤ (sizes.getD i (0, 0)).2 * (sizes.getD i (0, 0)).1 :=
    Nat.mul_le_mul_left _ hx
  rw [Nat.mul_succ] at hle
  exact hgrey i hi _ (by rw [Nat.mul_comm (sizes.getD i (0, 0)).1]; omega)

theorem found_isShape (hl : l ∈ foundLetters 127 image.columns) :
    IsShape l.matrix.length (l.matrix.getD 0 []).length l.matrix := by
  obtain ⟨w, k, hw, hwlt, hk, hlen, hrect⟩ := foundLetters_size image.rect hl
  have hk' := hrect.length_getD (i := 0) (by omega)
  have := image.width_lt
  have := image.height_lt
  exact ⟨by rwa [hk'], rfl, by omega, by omega, by omega⟩

/-- The pixels of a letter are shades of grey. -/
theorem found_pixels (hpix : Pixels image.columns) (hl : l ∈ foundLetters 127 image.columns) :
    Pixels l.matrix := by
  intro row hrow v hv
  obtain ⟨column, hcolumn, hmem⟩ := foundLetters_pixel image.rect hl hrow hv
  exact hpix column hcolumn v hmem

/-- **A letter is recognised exactly when it has pixels.** -/
theorem recognise_of_area (model : StandardModel fp) (hfuel : 2 ^ 32 < fuel)
    (hpix : Pixels image.columns) (h : IsAlphabet letters_c) (hgrey : GreyTemplates letters_c)
    (hne : letters_c ≠ []) (hl : l ∈ foundLetters 127 image.columns) (harea : l.area ≤ maxArea) :
    (0 < l.area → ∃ c, recognise fp fuel (templates letters_c) l = .ok c) ∧
    (l.area = 0 → recognise fp fuel (templates letters_c) l = .error .outOfRange) := by
  have hshape := found_isShape hl
  have hT := templates_areTemplates h hgrey
  have hlen : 0 < (templates letters_c).length := by
    unfold templates
    rw [List.length_map, List.length_range]
    exact List.length_pos_iff.mpr hne
  unfold recognise
  rw [elemAt_of_lt hlen, ok_bind]
  refine ⟨fun hpos => ?_, fun hzero => ?_⟩
  · obtain ⟨found, -, hfound⟩ := matchLetter_model model hfuel hshape
      (Nat.pos_of_mul_pos_left hpos) harea (found_pixels hpix hl) hT (List.length_pos_iff.mp hlen)
    exact ⟨found.letter, by rw [hfound]; rfl⟩
  · have hheight : (l.matrix.getD 0 []).length = 0 := by
      rcases Nat.mul_eq_zero.mp hzero with h0 | h0
      · exact absurd h0 hshape.width_pos.ne'
      · exact h0
    rw [hheight] at hshape
    rw [matchLetter_empty model hfuel hshape hT]
    rfl

/-- **Every letter has pixels exactly when the image is closed.** -/
theorem closed_iff (image : Image) :
    Closed image ↔ ∀ l ∈ foundLetters 127 image.columns, 0 < l.area := by
  have harea : ∀ b ∈ runEnds (darkColumn 127 image.columns) image.columns.length,
      0 < (shapeLetter 127 image.columns b).area ↔
        ∃ y, DropIn 127 image.columns (runStart (darkColumn 127 image.columns) b) b y := by
    intro b hb
    obtain ⟨hlt, hbm⟩ := run_bounds hb
    rw [← topRow_lt_bottomRow_iff image.rect hlt hbm.le]
    change 0 < (shape _ _ _ _).length * ((shape _ _ _ _).getD 0 []).length ↔ _
    rw [shape_length, shape_height hlt, Nat.mul_pos_iff_of_pos_left (by omega)]
    omega
  constructor
  · rintro (h0 | hruns) l hl
    · rw [(mem_foundLetters hl).1] at h0; cases h0
    · obtain ⟨h0, b, hb, rfl⟩ := mem_foundLetters hl
      obtain ⟨hlt, hbm⟩ := run_bounds hb
      have hpos := runStart_pos h0 (show 0 < b by omega)
      obtain ⟨x, y, hax, hxb, hd⟩ := hruns _ b hpos hlt hbm
        (fun x h1 h2 => holds_of_runStart_le h1 h2) (not_holds_before hpos) (mem_runEnds.mp hb).2.2.1
      exact (harea b hb).mpr ⟨y, x, hxb, hax, hd⟩
  · intro hall
    cases h0 : darkColumn 127 image.columns 0 with
    | true => exact Or.inl h0
    | false =>
      refine Or.inr fun a b ha hab hbm hdark hbefore hafter => ?_
      have hstart := runStart_of_interval hab.le hdark (Or.inr hbefore)
      have hb : b ∈ runEnds (darkColumn 127 image.columns) image.columns.length :=
        mem_runEnds.mpr ⟨hbm, by omega, hafter, hdark _ (by omega) (by omega)⟩
      have hl : shapeLetter 127 image.columns b ∈ foundLetters 127 image.columns := by
        unfold foundLetters
        rw [h0]
        exact List.mem_map.mpr ⟨b, hb, rfl⟩
      obtain ⟨y, x, hxb, hax, hd⟩ := (harea b hb).mp (hall _ hl)
      rw [hstart] at hax
      exact ⟨x, y, hax, hxb, hd⟩

/-- The run ends normally if every letter has pixels, else with an exception. -/
theorem wrap_fault (model : StandardModel fp) (hfuel : 2 ^ 32 < fuel)
    (hpix : Pixels image.columns) (h : IsAlphabet letters_c) (hgrey : GreyTemplates letters_c)
    (hne : letters_c ≠ []) (harea : ∀ l ∈ foundLetters 127 image.columns, l.area ≤ maxArea) :
    (Closed image → (characterRecognitionWrap fp fuel image.columns image.width image.height
      letters_c letters_c.length).fault = none) ∧
    (¬ Closed image → (characterRecognitionWrap fp fuel image.columns image.width image.height
      letters_c letters_c.length).fault = some .outOfRange) := by
  have hletter := fun l hl => recognise_of_area (l := l) model hfuel hpix h hgrey hne hl (harea l hl)
  rw [characterRecognitionWrap_eq fp fuel image h, closed_iff]
  refine ⟨fun hall => storeEach_none_iff.mpr fun l hl => (hletter l hl).1 (hall l hl),
    fun hnot => ?_⟩
  change (storeEach _ _).2 = _
  cases hfault : (storeEach (recognise fp fuel (templates letters_c))
      (foundLetters 127 image.columns)).2 with
  | none =>
    refine absurd (fun l hl => Nat.pos_of_ne_zero fun hzero => ?_) hnot
    obtain ⟨c, hc⟩ := storeEach_none_iff.mp hfault l hl
    rw [(hletter l hl).2 hzero] at hc
    cases hc
  | some e =>
    obtain ⟨l, hl, he⟩ := storeEach_error hfault
    rcases Nat.eq_zero_or_pos l.area with hzero | hpos
    · rw [(hletter l hl).2 hzero] at he
      exact congrArg some (Except.error.inj he).symm
    · obtain ⟨c, hc⟩ := (hletter l hl).1 hpos
      rw [hc] at he
      cases he

/-- **An image is recognised exactly when it is closed.** Recognised: the run
ends normally, and no average is taken over no pixels. On any other image the
run ends with `out_of_range`. -/
theorem recognises_iff {F : Type} {fp : Ops F} (model : StandardModel fp) (image : Image)
    (hpix : Pixels image.columns) {letters_c : Matrix} (h : IsAlphabet letters_c)
    (hgrey : GreyTemplates letters_c) (hne : letters_c ≠ [])
    (harea : ∀ l ∈ foundLetters 127 image.columns, l.area ≤ maxArea) :
    (((∃ fuel₀, ∀ fuel ≥ fuel₀, (characterRecognitionWrap fp fuel image.columns image.width
        image.height letters_c letters_c.length).fault = none) ∧
      ∀ l ∈ foundLetters 127 image.columns, 0 < l.area) ↔ Closed image) ∧
    (¬ Closed image → ∃ fuel₀, ∀ fuel ≥ fuel₀, (characterRecognitionWrap fp fuel image.columns
      image.width image.height letters_c letters_c.length).fault = some .outOfRange) := by
  refine ⟨⟨fun hrec => (closed_iff image).mpr hrec.2, fun hclosed =>
    ⟨⟨2 ^ 32 + 1, fun fuel hfuel => ?_⟩, (closed_iff image).mp hclosed⟩⟩, fun hnot =>
    ⟨2 ^ 32 + 1, fun fuel hfuel => ?_⟩⟩
  · exact (wrap_fault model (by omega) hpix h hgrey hne harea).1 hclosed
  · exact (wrap_fault model (by omega) hpix h hgrey hne harea).2 hnot

theorem blank_grey : GreyTemplates blank := by
  intro i hi k hk
  obtain rfl : i = 0 := Nat.lt_one_iff.mp hi
  have hzero : ∀ n, (List.replicate n (0 : ℤ)).getD k 0 = 0 := fun n => by
    rw [List.getD_eq_getElem?_getD, List.getElem?_replicate]
    split <;> rfl
  have hentry : entry blank 0 k = 0 := hzero 4901
  rw [hentry]
  decide

/-- A dot above a light row is recognised. -/
theorem recognises_iff_dot : ∃ fuel₀, ∀ fuel ≥ fuel₀,
    (characterRecognitionWrap binary64 fuel dot.columns dot.width dot.height blank
      blank.length).fault = none := by
  have hclosed : Closed dot := by
    refine Or.inr fun a b ha hab hb _ _ _ => ⟨1, 2, ?_, ?_, by decide⟩
    · have : b < 3 := hb; omega
    · omega
  exact ((recognises_iff binary64Model dot (by decide) blank_isAlphabet blank_grey (by decide)
    (by decide)).1.mpr hclosed).1

/-- A dot in the only row. -/
def thin : Image where
  columns := [[255], [0], [255]]
  height := 1
  rect := by decide
  width_lt := by decide
  height_lt := by decide

/-- The dot has no light pixel below it, and the recogniser throws. -/
theorem thin_throws : (∀ column ∈ thin.columns, ∀ pixel ∈ column, pixel = 0 ∨ pixel = 255) ∧
    IsAlphabet blank ∧ GreyTemplates blank ∧
    (∀ l ∈ foundLetters 127 thin.columns, l.area ≤ maxArea) ∧
    ∀ fuel > 2 ^ 32, characterRecognitionWrap binary64 fuel thin.columns thin.width thin.height
      blank blank.length = ⟨some 1, [], some .outOfRange⟩ := by
  have hfound : foundLetters 127 thin.columns = [⟨star, [[]], 1, 0⟩] := by decide
  refine ⟨by decide, blank_isAlphabet, blank_grey, by rw [hfound]; decide, fun fuel hfuel => ?_⟩
  have hmem : ⟨star, [[]], 1, 0⟩ ∈ foundLetters 127 thin.columns := by
    rw [hfound]
    exact List.mem_cons_self
  have hthrow := (recognise_of_area binary64Model hfuel (by decide) blank_isAlphabet blank_grey
    (by decide) hmem (by decide)).2 rfl
  rw [characterRecognitionWrap_eq binary64 fuel thin blank_isAlphabet, hfound, storeEach, hthrow]
  rfl

end Ocr
end IcnDemo
