/-
# The caller of the recogniser

`runOcr` of `ocr.cpp`, from the templates and the image on: it exports the
templates, calls `characterRecognitionWrap` and reads back the characters that
were written to its array of 100. The recogniser is not told the size of the
array. All accesses stand inside it exactly when at most 100 letters are
segmented (`output_buffer_iff`), as in every image of at most 202 columns
(`segments_length_le`); with more, a run whose letters are all matched is undefined
(`runOcr_eq`).
-/
import IcnDemo.Ocr.Admissible
import IcnDemo.Ocr.Template
import IcnDemo.Ocr.Threshold

namespace IcnDemo
namespace Ocr

open Lib.Loop Lib.Grid Lib.Segments Lib.Double

/-- A `char` array; a cell is `none` until it is written. -/
abbrev CharArray := List (Option (BitVec 8))

/-- `char recognised_letters[100]; // make array big enough` -/
def recognisedLetters : CharArray := List.replicate 100 none

/-- `output_letters[i] = c` -/
def CharArray.store (output_letters : CharArray) (i : ℕ) (c : BitVec 8) : Except Fault CharArray :=
  if i < output_letters.length then .ok (output_letters.set i (some c)) else .error .undefined

/-- `recognised_letters[i]` -/
def CharArray.load (recognised_letters : CharArray) (i : ℕ) : Except Fault (BitVec 8) :=
  match recognised_letters[i]? with
  | some (some c) => .ok c
  | _ => .error .undefined

/-- The writes of the recogniser to the array. -/
def writeLetters (output_letters : CharArray) (written : List (BitVec 8)) : Except Fault CharArray :=
  forUpTo written.length (fun i output_letters => do
    let c ← rawGet written i
    output_letters.store i c) output_letters

/-- `OCR output: ` -/
def banner : List (BitVec 8) := "OCR output: ".toList.map fun c => BitVec.ofNat 8 c.toNat

/-- `print result` -/
def printLetters (recognised_letters : CharArray) (length : ℤ) : Except Fault (List (BitVec 8)) := do
  let printed ← (intRange 0 length).mapM fun i => recognised_letters.load i.toNat
  .ok (banner ++ printed)

/-- The call with the array, and what is printed from it. -/
def readLetters (out : Outcome) : Except Fault (List (BitVec 8)) := do
  let recognised_letters ← writeLetters recognisedLetters out.output_letters
  match out.fault, out.length with
  | none, some length => printLetters recognised_letters length
  | some e, _ => .error e
  | none, none => .error .undefined

/-- `run_ocr`, the templates and the image loaded. -/
def runOcr {F : Type} (fp : Ops F) (fuel : ℕ) (signed : Bool) (letters : List Letter)
    (pixels : Matrix) : Except Fault (List (BitVec 8)) := do
  let first ← rawGet pixels 0
  let rows := (toInt pixels.length).toNat
  let cols := (toInt first.length).toNat
  let letters_vec ← exportLetters signed letters
  let letters_rows := (toInt letters_vec.length).toNat
  readLetters (characterRecognitionWrap fp fuel pixels rows cols letters_vec letters_rows)

/-! ### The array -/

/-- The array after the first `k` writes. -/
def holding (written : List (BitVec 8)) (k : ℕ) : CharArray :=
  (written.take k).map some ++ List.replicate (100 - k) none

variable {written : List (BitVec 8)}

theorem store_holding {k : ℕ} {c : BitVec 8} (hk : k < 100) (h : written[k]? = some c) :
    (holding written k).store k c = .ok (holding written (k + 1)) := by
  obtain ⟨hlt, rfl⟩ := List.getElem?_eq_some_iff.mp h
  have htake : ((written.take k).map some).length = k := by simp; omega
  have hlen : k < (holding written k).length := by simp [holding]; omega
  have hrep : List.replicate (100 - k) (none : Option (BitVec 8)) =
      none :: List.replicate (100 - (k + 1)) none := by
    rw [← List.replicate_succ]; congr 1; omega
  rw [CharArray.store, if_pos hlen, holding, List.set_append_right _ _ (by omega), htake,
    Nat.sub_self, hrep, List.set_cons_zero, holding, List.take_succ_eq_append_getElem hlt,
    List.map_append, List.append_assoc]
  rfl

/-- As long as they stand inside the array the writes are kept. -/
theorem writeLetters_take {n : ℕ} (hn : n ≤ 100) (hlen : n ≤ written.length) :
    forUpTo n (fun i output_letters => do
      let c ← rawGet written i
      output_letters.store i c) recognisedLetters = .ok (holding written n) := by
  have hstart : recognisedLetters = holding written 0 := rfl
  rw [hstart]
  apply forUpTo_trajectory (holding written)
  intro i hi
  rw [rawGet_of_lt (by omega), ok_bind]
  exact store_holding (by omega) (List.getElem?_eq_getElem (by omega))

theorem load_holding {k : ℕ} (hk : k < written.length) :
    (holding written written.length).load k = .ok written[k] := by
  have hk' : k < ((written.take written.length).map some).length := by simpa using hk
  rw [CharArray.load, holding, List.getElem?_append_left hk', List.getElem?_map,
    List.take_length, List.getElem?_eq_getElem hk]
  rfl

theorem printLetters_holding :
    printLetters (holding written written.length) written.length = .ok (banner ++ written) := by
  have hread : (intRange 0 written.length).mapM
      (fun i => (holding written written.length).load i.toNat) =
      .ok ((List.range written.length).map fun k => written.getD k 0) := by
    unfold intRange
    rw [List.mapM_map, sub_zero, Int.toNat_natCast]
    apply mapM_ok
    intro k hk
    rw [List.mem_range] at hk
    rw [Function.comp_apply, zero_add, Int.toNat_natCast, load_holding hk,
      List.getD_eq_getElem _ _ hk]
  have hall : (List.range written.length).map (fun k => written.getD k 0) = written := by
    apply List.ext_getElem (by simp)
    intro k hk _
    simp_all
  rw [printLetters, hread, ok_bind, hall]

/-- **An array of 100 cells holds 100 characters.** More are written beyond it. -/
theorem readLetters_eq {out : Outcome} (hfault : out.fault = none)
    (hlen : out.length = some (out.output_letters.length : ℤ)) : readLetters out =
    if out.output_letters.length ≤ 100 then .ok (banner ++ out.output_letters)
    else .error .undefined := by
  unfold readLetters writeLetters
  by_cases hle : out.output_letters.length ≤ 100
  · rw [if_pos hle, writeLetters_take hle (Nat.le_refl _), ok_bind, hfault, hlen]
    exact printLetters_holding
  · rw [if_neg hle]
    have hgt := not_le.mp hle
    rw [forUpTo_error (writeLetters_take (Nat.le_refl 100) hgt.le) ?_ hgt]
    · rfl
    · -- the write to the cell after the last one
      rw [rawGet_of_lt (by omega), ok_bind, CharArray.store, if_neg (by simp [holding])]

/-! ### Accesses to the array -/

/-- Every write of the recogniser and every read of the print loop is inside the array. -/
structure InsideBuffer (out : Outcome) : Prop where
  writes : ∀ i < out.output_letters.length, i < 100
  reads : ∀ length, out.length = some length → ∀ i ∈ intRange 0 length, 0 ≤ i ∧ i < 100

variable {F : Type} {fp : Ops F} {fuel : ℕ}

/-- Whatever the templates, `*length` is the number of letters if it is stored, and no
more characters are written. -/
theorem wrap_lengths (image : Image) (letters_c : Matrix) (letters_rows : ℕ) {out : Outcome}
    (hout : characterRecognitionWrap fp fuel image.columns image.width image.height letters_c
      letters_rows = out) :
    out.output_letters.length ≤ (foundLetters 127 image.columns).length ∧
    ∀ length, out.length = some length → length = (foundLetters 127 image.columns).length := by
  obtain ⟨s, hseg, hletters⟩ := segments_eq image
  have hlen : s.possible_letters.length = (foundLetters 127 image.columns).length := by
    rw [hletters, List.length_map]
  have hlt := lt_of_le_of_lt (foundLetters_length_le (t := 127)) image.width_lt
  unfold characterRecognitionWrap at hout
  rw [Image.width, readRows_of_rect image.rect, ok_bind] at hout
  cases hretrieve : retrieveLetters letters_c letters_rows with
  | error e =>
    rw [hretrieve] at hout
    subst hout
    exact ⟨Nat.zero_le _, fun length h => by cases h⟩
  | ok letters =>
    rw [hretrieve, ok_bind, hseg, ok_bind] at hout
    subst hout
    dsimp only
    refine ⟨?_, fun length h => ?_⟩
    · rw [← hlen]
      exact storeEach_length_le _
    · rw [← Option.some.inj h, hlen, toInt_natCast hlt]

/-- Every letter takes two columns, after a light first one. -/
theorem segments_length_le (image : Image) : ∃ s, segments image.columns = .ok s ∧
    2 * s.possible_letters.length ≤ image.width - 1 := by
  obtain ⟨s, hseg, hletters⟩ := segments_eq image
  refine ⟨s, hseg, ?_⟩
  rw [hletters, List.length_map, foundLetters_length]
  split
  · exact Nat.zero_le _
  · rename_i h0
    unfold Image.width
    cases image.columns.length with
    | zero => exact Nat.le_refl 0
    | succ n =>
      have := runEnds_length_le (d := darkColumn 127 image.columns) (by simpa using h0) n
      omega

/-- **The caller's array is large enough exactly when at most 100 letters are cut
out.** -/
theorem output_buffer_iff (image : Image) :
    (∃ s, segments image.columns = .ok s ∧ s.possible_letters.length ≤ 100 ∧
      ∀ {F : Type} (fp : Ops F) (fuel : ℕ) (letters_c : Matrix) (letters_rows : ℕ),
        InsideBuffer (characterRecognitionWrap fp fuel image.columns image.width image.height
          letters_c letters_rows)) ↔
    darkColumn 127 image.columns 0 = true ∨
      (runEnds (darkColumn 127 image.columns) image.width).length ≤ 100 := by
  have hcount : (foundLetters 127 image.columns).length ≤ 100 ↔
      darkColumn 127 image.columns 0 = true ∨
        (runEnds (darkColumn 127 image.columns) image.width).length ≤ 100 := by
    rw [foundLetters_length, Image.width]
    by_cases h0 : darkColumn 127 image.columns 0 = true
    · simp [h0]
    · rw [if_neg h0, or_iff_right h0]
  obtain ⟨s, hseg, hletters⟩ := segments_eq image
  have hlen : s.possible_letters.length = (foundLetters 127 image.columns).length := by
    rw [hletters, List.length_map]
  rw [← hcount, ← hlen]
  constructor
  · rintro ⟨s', hseg', hle, _⟩
    rw [hseg] at hseg'
    rwa [Except.ok.inj hseg']
  · intro hle
    refine ⟨s, hseg, hle, fun fp fuel letters_c letters_rows => ?_⟩
    set out := characterRecognitionWrap fp fuel image.columns image.width image.height
      letters_c letters_rows with hout
    obtain ⟨hwrites, hreads⟩ := wrap_lengths image letters_c letters_rows hout.symm
    refine ⟨fun i hi => by omega, fun length hlength i hi => ?_⟩
    rw [mem_intRange, hreads length hlength] at hi
    omega

/-! ### More than 100 letters -/

/-- Templates that are shades of grey are exported as such. -/
theorem exported_greyTemplates (signed : Bool) {letters : List Letter} (h : AreSaved letters)
    (hpix : ∀ l ∈ letters, Pixels l.matrix) :
    GreyTemplates (letters.map (Letter.toRow signed)) := by
  intro i hi k hk
  have hi' : i < letters.length := by rwa [List.length_map] at hi
  have hsaved := h i _ (List.getElem?_eq_getElem hi')
  have hflat : k < letters[i].matrix.flatten.length := by
    rw [hsaved.rect.length_flatten, hsaved.length, Nat.mul_comm]
    exact hk
  have hk' : k < (letters[i].toRow signed).length := by
    rw [Letter.toRow, List.length_append]
    omega
  unfold entry
  rw [List.getD_eq_getElem _ _ hi, List.getElem_map, List.getD_eq_getElem _ _ hk']
  simp only [Letter.toRow, List.getElem_append_left hflat]
  obtain ⟨column, hcolumn, hmem⟩ := List.mem_flatten.mp (List.getElem_mem hflat)
  exact hpix _ (List.getElem_mem hi') column hcolumn _ hmem

/-- **Where every letter is matched, the run returns at most 100 characters, and is
undefined if there are more.** -/
theorem runOcr_eq (model : StandardModel fp) (hfuel : 2 ^ 32 < fuel) (signed : Bool)
    {letters : List Letter} (h : AreSaved letters) (hgrey : ∀ l ∈ letters, Pixels l.matrix)
    (hne : letters ≠ []) (image : Image) (hwidth : 0 < image.width) (hpix : Pixels image.columns)
    (harea : ∀ l ∈ foundLetters 127 image.columns, l.area ≤ maxArea) (hclosed : Closed image) :
    ∃ output, output.length = (foundLetters 127 image.columns).length ∧
      runOcr fp fuel signed letters image.columns =
        if output.length ≤ 100 then .ok (banner ++ output) else .error .undefined := by
  have halphabet := exported_isAlphabet signed h
  have hrows : (letters.map (Letter.toRow signed)).length < 2 ^ 31 :=
    lt_of_le_of_lt halphabet.length_le (by decide)
  have hfault := (wrap_fault model hfuel hpix halphabet (exported_greyTemplates signed h hgrey)
    (by simpa using hne) harea).1 hclosed
  have hfirst : (image.columns.getD 0 []).length = image.height := image.rect.length_getD hwidth
  unfold runOcr
  rw [rawGet_row hwidth, ok_bind, exportLetters_eq h, ok_bind, hfirst, toInt_natCast image.width_lt,
    toInt_natCast image.height_lt, toInt_natCast hrows]
  simp only [Int.toNat_natCast]
  set out := characterRecognitionWrap fp fuel image.columns image.width image.height
    (letters.map (Letter.toRow signed)) (letters.map (Letter.toRow signed)).length with hout
  have hwrap := characterRecognitionWrap_eq fp fuel image halphabet
  have hlen : out.output_letters.length = (foundLetters 127 image.columns).length := by
    rw [hout, hwrap] at hfault ⊢
    exact storeEach_length hfault
  have hstored : out.length = some (out.output_letters.length : ℤ) := by rw [hlen, hout, hwrap]
  exact ⟨out.output_letters, hlen, readLetters_eq hfault hstored⟩

/-- An image of 203 columns, every other one with a dark pixel in its first row. -/
def stripes : Image where
  columns := table 203 2 fun x y => if x % 2 = 1 ∧ y = 0 then 0 else 255
  height := 2
  rect := rect_table _ _ _
  width_lt := by rw [length_table]; decide
  height_lt := by decide

theorem stripes_width : stripes.width = 203 := length_table _ _ _

theorem stripes_column {x : ℕ} (hx : x < 203) :
    stripes.columns.getD x [] = [if x % 2 = 1 then 0 else 255, 255] := by
  have hcolumns : stripes.columns =
      table 203 2 fun x y => if x % 2 = 1 ∧ y = 0 then 0 else 255 := rfl
  rw [hcolumns, getD_table _ hx]
  simp [List.range_succ]

theorem darkColumn_stripes {x : ℕ} (hx : x < 203) :
    darkColumn 127 stripes.columns x = decide (x % 2 = 1) := by
  unfold darkColumn
  rw [stripes_column hx]
  by_cases h : x % 2 = 1
  · simp [h]
  · simp [h]

theorem stripes_closed : Closed stripes := by
  refine Or.inr fun a b _ hab hb hrun _ _ => ⟨a, 1, Nat.le_refl a, hab, ?_⟩
  rw [stripes_width] at hb
  have ha := hrun a (Nat.le_refl a) hab
  rw [darkColumn_stripes (by omega), decide_eq_true_iff] at ha
  unfold Drop entry
  rw [stripes_column (by omega), if_pos ha]
  decide

/-- A template without a light pixel. -/
def blankLetter : Letter := Letter.new (table 62 79 fun _ _ => 0)

theorem blankLetter_areSaved : AreSaved [blankLetter] :=
  areSaved_singleton (isSaved_of_table (by decide) rfl
    (fun _ _ => (by decide : IsInt 0)) (by decide : IsInt 0) (by decide : IsInt 0))

theorem blankLetter_pixels : ∀ l ∈ [blankLetter], Pixels l.matrix := by
  intro l hl
  obtain rfl := List.mem_singleton.mp hl
  exact Pixels.table fun _ _ _ _ => by decide

theorem stripes_binary : ∀ row ∈ stripes.columns, ∀ v ∈ row, v = 0 ∨ v = 255 :=
  binary_table fun x y => x % 2 = 1 ∧ y = 0

theorem stripes_count : (foundLetters 127 stripes.columns).length = 101 := by
  have hwidth : stripes.columns.length = 203 := stripes_width
  rw [foundLetters_length, darkColumn_stripes (by decide), hwidth,
    runEnds_congr fun x hx => darkColumn_stripes hx]
  decide +kernel

theorem stripes_area : ∀ l ∈ foundLetters 127 stripes.columns, l.area ≤ maxArea := by
  intro l hl
  obtain ⟨w, k, hw, hwlt, hk, hlen, hrect⟩ := foundLetters_size stripes.rect hl
  have hwidth : w < 203 := lt_of_lt_of_eq hwlt stripes_width
  have hheight : k ≤ 2 := hk
  have := Nat.mul_le_mul hwidth.le hheight
  unfold Letter.area maxArea
  rw [hlen, hrect.length_getD (by omega)]
  omega

/-- `load_image` can return the stripes; 101 letters are cut out of them, and the run
writes beyond the array. -/
theorem stripes_overflow : (∃ grey, Rect 2 grey ∧ loadImage grey = .ok stripes.columns) ∧
    (∃ s, segments stripes.columns = .ok s ∧ s.possible_letters.length = 101) ∧
    ∀ fuel > 2 ^ 32, ∀ signed,
      runOcr binary64 fuel signed [blankLetter] stripes.columns = .error .undefined := by
  refine ⟨(loadImage_pixels stripes.rect).mpr stripes_binary, ?_, fun fuel hfuel signed => ?_⟩
  · obtain ⟨s, hseg, hletters⟩ := segments_eq stripes
    exact ⟨s, hseg, by rw [hletters, List.length_map, stripes_count]⟩
  · have hwidth : 0 < stripes.width := by rw [stripes_width]; decide
    obtain ⟨output, hlen, hrun⟩ := runOcr_eq binary64Model hfuel signed blankLetter_areSaved
      blankLetter_pixels (by simp) stripes hwidth (pixels_of_binary stripes_binary) stripes_area
      stripes_closed
    rw [hrun, if_neg (by rw [hlen, stripes_count]; decide)]

end Ocr
end IcnDemo
