/-
# Rendered text is read

A letter found in an image that some template fits is read as the first template
that fits it (`wrap_firstFits`). A word rendered from left to right, each glyph
enlarged by whole factors, is found glyph by glyph, and every glyph fits its own
template: so the recogniser reads the word, up to earlier templates that enlarge
to the same glyph (`word_is_read`). Doubles are exact.
-/
import IcnDemo.Ocr.Admissible
import IcnDemo.Ocr.Blocks
import IcnDemo.Ocr.Template

namespace IcnDemo
namespace Ocr

open Lib.Loop Lib.Grid Lib.Double

/-! ### Reading letters that fit -/

variable {letters : List Letter} {image : Image}

theorem AreSaved.areTemplates (h : AreSaved letters) (hpix : ∀ l ∈ letters, Pixels l.matrix) :
    AreTemplates letters := by
  intro l hl
  obtain ⟨i, hi⟩ := List.mem_iff_getElem?.mp hl
  have hsaved := h i l hi
  exact ⟨⟨_, _, isTemplate_of_sizes hsaved.lt hsaved.rect hsaved.length⟩, hpix l hl⟩

/-- A letter of the image that can be matched: some template fits it. -/
structure Legible (letters : List Letter) (l : Letter) : Prop where
  height_pos : 0 < (l.matrix.getD 0 []).length
  area_le : l.area ≤ maxArea
  pixels : Pixels l.matrix
  fits : ∃ i, Fits letters l.matrix i

/-- **Legible letters are read as the first templates that fit them.** -/
theorem wrap_firstFits (signed : Bool) (h : AreSaved letters) (hpix : ∀ l ∈ letters, Pixels l.matrix)
    (hfound : ∀ l ∈ foundLetters 127 image.columns, Legible letters l) :
    ∃ output, (∀ fuel, image.width < fuel → image.height < fuel →
      characterRecognitionWrap exact fuel image.columns image.width image.height
        (letters.map (Letter.toRow signed)) letters.length =
        ⟨some (foundLetters 127 image.columns).length, output, none⟩) ∧
      output.length = (foundLetters 127 image.columns).length ∧
      ∀ (t : ℕ) (l : Letter), (foundLetters 127 image.columns)[t]? = some l →
        ∃ j T, letters[j]? = some T ∧ FirstFit letters l.matrix j ∧ output[t]? = some T.letter := by
  have hread : ∀ l ∈ foundLetters 127 image.columns, ∃ c,
      (∃ j T, letters[j]? = some T ∧ FirstFit letters l.matrix j ∧ c = T.letter) ∧
      ∀ fuel, image.width < fuel → image.height < fuel →
        recognise exact fuel letters l = .ok c := by
    intro l hl
    obtain ⟨i, hi⟩ := (hfound l hl).fits
    obtain ⟨j, T, hT, hfirst, -⟩ := hi.exists_first
    refine ⟨T.letter, ⟨j, T, hT, hfirst, rfl⟩, fun fuel hfw hfh => ?_⟩
    obtain ⟨w, k, hw, hwlt, hk, hlen, hrect⟩ := foundLetters_size image.rect hl
    have hwidth : image.width = image.columns.length := rfl
    have hheight : (l.matrix.getD 0 []).length = k := hrect.length_getD (by omega)
    exact recognise_firstFit (by omega) (by omega) (found_isShape hl) (hfound l hl).height_pos
      (hfound l hl).area_le (hfound l hl).pixels (h.areTemplates hpix) hT hfirst
  choose! c hc using hread
  refine ⟨(foundLetters 127 image.columns).map c, fun fuel hfw hfh => ?_, List.length_map _,
    fun t l hl => ?_⟩
  · have hwrap := characterRecognitionWrap_eq exact fuel image (exported_isAlphabet signed h)
    rw [List.length_map] at hwrap
    rw [hwrap, templates_exported signed h, storeEach_ok fun l hl => (hc l hl).2 fuel hfw hfh]
  · obtain ⟨j, T, hT, hfirst, heq⟩ := (hc l (List.mem_of_getElem? hl)).1
    exact ⟨j, T, hT, hfirst, by rw [List.getElem?_map, hl, Option.map_some, heq]⟩

/-! ### Enlarging a template -/

/-- Every pixel repeated `p` times horizontally and `q` times vertically. -/
def enlarge (p q : ℕ) (m : Matrix) : Matrix :=
  table (m.length * p) ((m.getD 0 []).length * q) fun x y => entry m (x / p) (y / q)

variable {m : Matrix} {t : ℤ} {p q : ℕ}

theorem enlarge_length (p q : ℕ) (m : Matrix) : (enlarge p q m).length = m.length * p :=
  length_table _ _ _

theorem enlarge_height (hm : 0 < m.length) (hp : 0 < p) :
    ((enlarge p q m).getD 0 []).length = (m.getD 0 []).length * q :=
  (rect_table _ _ _).length_getD (by rw [length_table]; exact Nat.mul_pos hm hp)

theorem entry_enlarge {x y : ℕ} (hx : x < m.length * p) (hy : y < (m.getD 0 []).length * q) :
    entry (enlarge p q m) x y = entry m (x / p) (y / q) := entry_table _ hx hy

/-- **Enlarged templates have dark pixels where templates have them.** -/
theorem Inked.enlarge (h : Inked t m) (hp : 0 < p) (hq : 0 < q) : Inked t (enlarge p q m) := by
  have hheight := enlarge_height (q := q) h.width_pos hp
  have hpos := h.height_pos
  constructor
  · rw [hheight]
    exact rect_table _ _ _
  · intro x hx
    rw [enlarge_length] at hx
    obtain ⟨y, hy, hlt⟩ := h.columns (x / p) ((Nat.div_lt_iff_lt_mul hp).mpr hx)
    have hy' := Nat.mul_lt_mul_of_pos_right hy hq
    rw [hheight]
    refine ⟨y * q, hy', ?_⟩
    rwa [entry_enlarge hx hy', Nat.mul_div_cancel _ hq]
  · obtain ⟨x, hx, hlt⟩ := h.firstRow
    have hx' := Nat.mul_lt_mul_of_pos_right hx hp
    rw [enlarge_length]
    refine ⟨x * p, hx', ?_⟩
    rwa [entry_enlarge hx' (Nat.mul_pos hpos hq), Nat.mul_div_cancel _ hp, Nat.zero_div]
  · obtain ⟨x, hx, hlt⟩ := h.lastRow
    have hx' := Nat.mul_lt_mul_of_pos_right hx hp
    have hle := Nat.mul_pos hpos hq
    have hdiv : ((m.getD 0 []).length * q - 1) / q = (m.getD 0 []).length - 1 := by
      refine Nat.div_eq_of_lt_le ?_ ?_
      · rw [Nat.sub_mul, Nat.one_mul]
        omega
      · rw [Nat.sub_add_cancel hpos]
        omega
    rw [enlarge_length, hheight]
    refine ⟨x * p, hx', ?_⟩
    rwa [entry_enlarge hx' (by omega), Nat.mul_div_cancel _ hp, hdiv]

theorem Pixels.enlarge (h : Pixels m) (hrect : Rect (m.getD 0 []).length m) (hp : 0 < p)
    (hq : 0 < q) : Pixels (enlarge p q m) :=
  Pixels.table fun _ hx _ hy =>
    h.entry hrect ((Nat.div_lt_iff_lt_mul hp).mpr hx) ((Nat.div_lt_iff_lt_mul hq).mpr hy)

/-! ### Words -/

/-- A glyph of a word: its template, how often a pixel is repeated horizontally and
vertically, and the place of its first pixel. -/
structure Glyph where
  index : ℕ
  p : ℕ
  q : ℕ
  left : ℕ
  top : ℕ

/-- The glyph as it is rendered. -/
def Glyph.block (letters : List Letter) (g : Glyph) : Block :=
  ⟨enlarge g.p g.q (letters.getD g.index (Letter.new [])).matrix, g.left, g.top⟩

/-- The glyph can be rendered, with an area that can be summed up. -/
structure IsGlyph (letters : List Letter) (g : Glyph) : Prop where
  index_lt : g.index < letters.length
  p_pos : 0 < g.p
  q_pos : 0 < g.q
  area_le : (g.block letters).width * (g.block letters).height ≤ maxArea

/-- Templates of the dimensions in `sizes`, in shades of grey, with dark pixels in
every column, in the first and in the last row. -/
structure IsFont (letters : List Letter) : Prop where
  saved : AreSaved letters
  pixels : ∀ l ∈ letters, Pixels l.matrix
  inked : ∀ l ∈ letters, Inked 127 l.matrix

variable {g : Glyph}

theorem IsGlyph.mem (hg : IsGlyph letters g) : letters.getD g.index (Letter.new []) ∈ letters := by
  rw [List.getD_eq_getElem _ _ hg.index_lt]
  exact List.getElem_mem _

theorem IsGlyph.inked (hg : IsGlyph letters g) (h : IsFont letters) :
    Inked 127 (g.block letters).matrix :=
  (h.inked _ hg.mem).enlarge hg.p_pos hg.q_pos

/-- **A glyph fits its own template.** -/
theorem IsGlyph.fits (hg : IsGlyph letters g) (h : IsFont letters) :
    Fits letters (g.block letters).matrix g.index := by
  have hink := h.inked _ hg.mem
  obtain ⟨⟨W, H, hT⟩, -⟩ := h.saved.areTemplates h.pixels _ hg.mem
  refine ⟨letters.getD g.index (Letter.new []), ?_, ?_⟩
  · rw [List.getElem?_eq_getElem hg.index_lt, List.getD_eq_getElem _ _ hg.index_lt]
    rfl
  · change resample (enlarge _ _ _).length ((enlarge _ _ _).getD 0 []).length _ = enlarge _ _ _
    rw [enlarge_length, enlarge_height hink.width_pos hg.p_pos, enlarge, hT.length, hT.height,
      resample_mul hT.isMatrix]

/-- A glyph found in the image is legible. -/
theorem IsGlyph.legible (hg : IsGlyph letters g) (h : IsFont letters) :
    Legible letters (g.block letters).letter where
  height_pos := (hg.inked h).height_pos
  area_le := hg.area_le
  pixels := (h.pixels _ hg.mem).enlarge (h.inked _ hg.mem).rect hg.p_pos hg.q_pos
  fits := ⟨g.index, hg.fits h⟩

/-- **A rendered word is read.** For each glyph the `char` of the first template
that, scaled to the size of the glyph, is the glyph: the glyph's own template, if
no earlier one is. -/
theorem word_is_read (signed : Bool) {letters : List Letter} (h : IsFont letters)
    {word : List Glyph} (hword : ∀ g ∈ word, IsGlyph letters g) {image : Image}
    (hshows : Shows 127 image (word.map (Glyph.block letters))) :
    ∃ rows output, exportLetters signed letters = .ok rows ∧
      (∀ fuel, image.width < fuel → image.height < fuel →
        characterRecognitionWrap exact fuel image.columns image.width image.height rows
          letters.length = ⟨some word.length, output, none⟩) ∧
      output.length = word.length ∧
      ∀ (t : ℕ) (g : Glyph), word[t]? = some g →
        ∃ j T, letters[j]? = some T ∧ FirstFit letters (g.block letters).matrix j ∧ j ≤ g.index ∧
          output[t]? = some T.letter := by
  have hink : ∀ b ∈ word.map (Glyph.block letters), Inked 127 b.matrix := fun b hb => by
    obtain ⟨g, hg, rfl⟩ := List.mem_map.mp hb
    exact (hword g hg).inked h
  have hfound := hshows.foundLetters_eq hink
  rw [List.map_map] at hfound
  have hlegible : ∀ l ∈ foundLetters 127 image.columns, Legible letters l := fun l hl => by
    rw [hfound] at hl
    obtain ⟨g, hg, rfl⟩ := List.mem_map.mp hl
    exact (hword g hg).legible h
  obtain ⟨output, hwrap, hlen, hread⟩ := wrap_firstFits signed h.saved h.pixels hlegible
  rw [hfound, List.length_map] at hlen
  refine ⟨_, output, exportLetters_eq h.saved, fun fuel hfw hfh => ?_, hlen, fun t g hg => ?_⟩
  · rw [hwrap fuel hfw hfh, hfound, List.length_map]
  · obtain ⟨j, T, hT, hfirst, hout⟩ := hread t (g.block letters).letter (by
      rw [hfound, List.getElem?_map, hg]
      rfl)
    exact ⟨j, T, hT, hfirst, not_lt.mp fun hlt =>
      hfirst.first _ hlt ((hword g (List.mem_of_getElem? hg)).fits h), hout⟩

/-! ### Black templates -/

/-- A black template of the `i`-th dimensions. -/
def solid (i : ℕ) (c : BitVec 8) : Letter :=
  { Letter.new (table (sizes.getD i (0, 0)).1 (sizes.getD i (0, 0)).2 fun _ _ => 0) with letter := c }

theorem solid_inked {w h : ℕ} (hw : 0 < w) (hh : 0 < h) :
    Inked 127 (table w h fun _ _ => (0 : ℤ)) := by
  have hheight : ((table w h fun _ _ => (0 : ℤ)).getD 0 []).length = h :=
    (rect_table w h _).length_getD (by rwa [length_table])
  have hentry : ∀ x < w, ∀ y < h, entry (table w h fun _ _ => (0 : ℤ)) x y < 127 :=
    fun x hx y hy => by rw [entry_table _ hx hy]; decide
  refine ⟨?_, ?_, ?_, ?_⟩
  · rw [hheight]
    exact rect_table _ _ _
  · intro x hx
    rw [length_table] at hx
    rw [hheight]
    exact ⟨0, hh, hentry x hx 0 hh⟩
  · rw [length_table]
    exact ⟨0, hw, hentry 0 hw 0 hh⟩
  · rw [length_table, hheight]
    exact ⟨0, hw, hentry 0 hw _ (by omega)⟩

/-- A black `A` and a black `B`. -/
def blackTemplates : List Letter := [solid 0 65#8, solid 1 66#8]

theorem blackTemplates_isFont : IsFont blackTemplates := by
  have hboth : ∀ {P : Letter → Prop}, P (solid 0 65#8) → P (solid 1 66#8) →
      ∀ l ∈ blackTemplates, P l := fun h1 h2 l hl => by
    rcases List.mem_pair.mp hl with rfl | rfl
    · exact h1
    · exact h2
  have hgrey : (0 : ℤ) ≤ 0 ∧ (0 : ℤ) ≤ 255 := by decide
  have hint : IsInt 0 := by decide
  refine ⟨fun i l hl => ?_, hboth ?_ ?_, hboth ?_ ?_⟩
  · match i, hl with
    | 0, hl =>
      obtain rfl := Option.some.inj hl
      exact isSaved_of_table (by decide) rfl (fun _ _ => hint) hint hint
    | 1, hl =>
      obtain rfl := Option.some.inj hl
      exact isSaved_of_table (by decide) rfl (fun _ _ => hint) hint hint
  · exact Pixels.table fun _ _ _ _ => hgrey
  · exact Pixels.table fun _ _ _ _ => hgrey
  · exact solid_inked (by decide) (by decide)
  · exact solid_inked (by decide) (by decide)

/-- The size of a black glyph. -/
theorem solid_block_size {letters : List Letter} {i : ℕ} {c : BitVec 8} {W H : ℕ}
    (hi : letters.getD i (Letter.new []) = solid i c) (hsize : sizes.getD i (0, 0) = (W, H))
    (hW : 0 < W) {p : ℕ} (hp : 0 < p) (q left top : ℕ) :
    (Glyph.block letters ⟨i, p, q, left, top⟩).width = W * p ∧
      (Glyph.block letters ⟨i, p, q, left, top⟩).height = H * q := by
  have hmatrix : (letters.getD i (Letter.new [])).matrix = table W H fun _ _ => 0 := by
    rw [hi, solid, hsize]
    rfl
  have hlen : (letters.getD i (Letter.new [])).matrix.length = W := by
    rw [hmatrix]
    exact length_table _ _ _
  have hheight : ((letters.getD i (Letter.new [])).matrix.getD 0 []).length = H := by
    rw [hmatrix]
    exact (rect_table _ _ _).length_getD (by rwa [length_table])
  constructor
  · rw [← hlen]
    exact enlarge_length _ _ _
  · rw [← hheight]
    exact enlarge_height (by rwa [hlen]) hp

/-- The `B`, and the `A` twice as wide and three rows lower. -/
def twoGlyphs : List Glyph := [⟨1, 1, 1, 1, 0⟩, ⟨0, 2, 1, 65, 3⟩]

def twoGlyphsImage : Image :=
  painting (twoGlyphs.map (Glyph.block blackTemplates)) 200 90 (by decide) (by decide)

/-- They are read; the black `A` comes first, and fits both. -/
theorem word_is_read_twice : ∃ rows output, exportLetters true blackTemplates = .ok rows ∧
    (∀ fuel, twoGlyphsImage.width < fuel → twoGlyphsImage.height < fuel →
      characterRecognitionWrap exact fuel twoGlyphsImage.columns twoGlyphsImage.width
        twoGlyphsImage.height rows blackTemplates.length = ⟨some twoGlyphs.length, output, none⟩) ∧
    output.length = twoGlyphs.length ∧
    ∀ (t : ℕ) (g : Glyph), twoGlyphs[t]? = some g →
      ∃ j T, blackTemplates[j]? = some T ∧
        FirstFit blackTemplates (g.block blackTemplates).matrix j ∧ j ≤ g.index ∧
        output[t]? = some T.letter := by
  have hA : blackTemplates.getD 0 (Letter.new []) = solid 0 65#8 := rfl
  have hB : blackTemplates.getD 1 (Letter.new []) = solid 1 66#8 := rfl
  obtain ⟨hw1, hh1⟩ := solid_block_size hB (show sizes.getD 1 (0, 0) = (48, 79) from rfl)
    (by decide) Nat.one_pos 1 1 0
  obtain ⟨hw2, hh2⟩ := solid_block_size hA (show sizes.getD 0 (0, 0) = (62, 79) from rfl)
    (by decide) Nat.two_pos 1 65 3
  have hboth : ∀ {P : Glyph → Prop}, P ⟨1, 1, 1, 1, 0⟩ → P ⟨0, 2, 1, 65, 3⟩ → ∀ g ∈ twoGlyphs, P g :=
    fun h1 h2 g hg => by
      rcases List.mem_pair.mp hg with rfl | rfl
      · exact h1
      · exact h2
  have hword : ∀ g ∈ twoGlyphs, IsGlyph blackTemplates g :=
    hboth ⟨by decide, by decide, by decide, by rw [hw1, hh1]; decide⟩
      ⟨by decide, by decide, by decide, by rw [hw2, hh2]; decide⟩
  refine word_is_read true blackTemplates_isFont hword
    (painting_shows (by decide) (by decide) (by decide) ?_ ?_ ?_ ?_)
  · exact List.forall_mem_map.mpr (hboth Nat.one_pos (by decide : 0 < 65))
  · refine List.pairwise_map.mpr (List.pairwise_pair.mpr ?_)
    rw [Block.right, hw1]
    exact (by decide : 1 + 48 * 1 < 65)
  · refine List.forall_mem_map.mpr (hboth ?_ ?_)
    · rw [Block.right, hw1]
      exact (by decide : 1 + 48 * 1 < 200)
    · rw [Block.right, hw2]
      exact (by decide : 65 + 62 * 2 < 200)
  · refine List.forall_mem_map.mpr (hboth ?_ ?_)
    · rw [Block.bottom, hh1]
      exact (by decide : 0 + 79 * 1 < 90)
    · rw [Block.bottom, hh2]
      exact (by decide : 3 + 79 * 1 < 90)

end Ocr
end IcnDemo
