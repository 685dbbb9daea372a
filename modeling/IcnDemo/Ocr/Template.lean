/-
# Template files

`lib/image_util.cpp` labels the letters of an alphabet image (`loadAlphabet`),
writes each as decimal text to a file of its own (`createTemplate`) and reads
the files back (`loadTemplate`); `run_ocr` lays the letters out for the
recogniser (`exportLetters`). Letters of the dimensions in `sizes` go through
unchanged (`round_trip_iff`), as long as the names of their files fit the array
they are formatted in: from the eleventh letter on, `"10.sav"` and its NUL are
seven bytes, and `char filename[6]` has six.
-/
import IcnDemo.Ocr.Agree
import IcnDemo.Lib.DecimalText

namespace IcnDemo
namespace Ocr

open Lib.Loop Lib.Grid Lib.DecimalText

/-- The files and their text, the last write first. -/
abbrev Disk := List (List Char × List Char)

/-- `char filename[6];` -/
def filenameSize : ℕ := 6

/-- `sprintf(filename, "%d.sav", i)` into an array of `room` bytes: the name and
the NUL after it have to fit. -/
def savName (room i : ℕ) : Except Fault (List Char) :=
  let name := printInt i ++ ['.', 's', 'a', 'v']
  if name.length + 1 ≤ room then .ok name else .error .undefined

/-- `file << (int)data[i] << " "` for each cell. -/
def savText (data : List ℤ) : List Char := data.flatMap fun i => printInt i ++ [' ']

/-- `load_alphabet`, from the pixels `load_image` gives. -/
def loadAlphabet (pixels : Matrix) (text_alphabet : List (BitVec 8)) (alphabet_length : ℕ) :
    Except Fault (List Letter) := do
  let letters ← findLetters 127 pixels
  forUpTo alphabet_length (fun i letters => do
    let c ← rawGet text_alphabet i
    let l ← elemAt letters i
    .ok (letters.set i { l with letter := c })) letters

/-- The loop of `create_template`. -/
def saveLetters (signed : Bool) (room : ℕ) (letters : List Letter) (disk : Disk) :
    Except Fault Disk :=
  forUpTo letters.length (fun i disk => do
    let filename ← savName room i
    let l ← rawGet letters i
    let data ← l.exported signed
    let cells ← data.contents
    .ok ((filename, savText cells) :: disk)) disk

/-- `create_template` -/
def createTemplate (signed : Bool) (room : ℕ) (pixels : Matrix) (text_alphabet : List (BitVec 8))
    (alphabet_length : ℕ) (disk : Disk) : Except Fault Disk := do
  let letters ← loadAlphabet pixels text_alphabet alphabet_length
  saveLetters signed room letters disk

/-- The body of the loop of `load_template`; a file that is missing reads as an
empty one. -/
def loadLetter (room : ℕ) (disk : Disk) (i : ℕ) : Except Fault Letter := do
  let filename ← savName room i
  let size ← rawGet sizes i
  let cells := readInts (-2 ^ 31) (2 ^ 31 - 1) ((disk.lookup filename).getD [])
  let data ← forUpTo cells.length (fun j (data : CArray) => do
    let x ← rawGet cells j
    data.store j x) (CArray.declare (size.1 * size.2 + 3))
  Letter.importLetter data size.1 size.2

/-- `load_template` -/
def loadTemplate (room alphabet_length : ℕ) (disk : Disk) : Except Fault (List Letter) :=
  (List.range alphabet_length).mapM (loadLetter room disk)

/-- `convert alphabet letters to C type for ECALL` in `run_ocr`. -/
def exportLetters (signed : Bool) (letters : List Letter) : Except Fault Matrix :=
  letters.mapM fun l => do
    let data ← l.exported signed
    data.contents

/-! ### One letter -/

/-- A value of type `int`. -/
def IsInt (i : ℤ) : Prop := -2 ^ 31 ≤ i ∧ i ≤ 2 ^ 31 - 1

instance (i : ℤ) : Decidable (IsInt i) := inferInstanceAs (Decidable (_ ∧ _))

/-- A letter as the program can hold it for the `i`-th template. -/
structure IsSaved (i : ℕ) (l : Letter) : Prop where
  lt : i < 26
  rect : Rect (sizes.getD i (0, 0)).2 l.matrix
  length : l.matrix.length = (sizes.getD i (0, 0)).1
  pixels : ∀ column ∈ l.matrix, ∀ pixel ∈ column, IsInt pixel
  x : IsInt l.x
  y : IsInt l.y

variable {signed : Bool} {room i : ℕ} {l : Letter} {letters : List Letter} {disk : Disk}

theorem IsSaved.hasSize (h : IsSaved i l) :
    l.HasSize (sizes.getD i (0, 0)).1 (sizes.getD i (0, 0)).2 := by
  obtain ⟨h1, h2, h3, h4⟩ := sizes_bounds h.lt
  refine ⟨h.rect, h.length, h1, h3, ?_⟩
  have := Nat.mul_le_mul h2.le h4.le
  omega

theorem IsSaved.toRow_isInt (signed : Bool) (h : IsSaved i l) :
    ∀ v ∈ l.toRow signed, IsInt v := by
  intro v hv
  rcases List.mem_append.mp hv with hv | hv
  · obtain ⟨column, hc, hv⟩ := List.mem_flatten.mp hv
    exact h.pixels column hc v hv
  · have hchar := charToInt_bounds signed l.letter
    simp only [List.mem_cons, List.not_mem_nil, or_false] at hv
    rcases hv with rfl | rfl | rfl
    · exact h.x
    · exact h.y
    · exact ⟨hchar.1, by omega⟩

/-- The text of a saved letter is its cells. -/
theorem readInts_savText {cells : List ℤ} (h : ∀ v ∈ cells, IsInt v) :
    readInts (-2 ^ 31) (2 ^ 31 - 1) (savText cells) = cells :=
  readInts_print h

/-- Cells stored one after the other. -/
theorem store_cells (cells : List ℤ) :
    forUpTo cells.length (fun j (data : CArray) => do
      let x ← rawGet cells j
      data.store j x) (CArray.declare cells.length) = .ok (CArray.ofList cells) := by
  rw [← CArray.upTo_zero, ← CArray.upTo_length]
  refine forUpTo_trajectory (CArray.upTo cells) fun j hj => ?_
  rw [rawGet_of_lt hj, ok_bind, CArray.store_upTo (List.getElem?_eq_getElem hj)]

/-- **A letter is loaded from the file it was saved to.** -/
theorem loadLetter_eq (h : IsSaved i l) {filename : List Char}
    (hname : savName room i = .ok filename)
    (hdisk : disk.lookup filename = some (savText (l.toRow signed))) :
    loadLetter room disk i = .ok l := by
  have hsize := h.hasSize
  have hlen := hsize.toRow_length signed
  unfold loadLetter
  rw [hname, ok_bind, rawGet_sizes h.lt, ok_bind]
  dsimp only
  rw [hdisk, Option.getD_some, readInts_savText (h.toRow_isInt signed), ← hlen, store_cells, ok_bind,
    importLetter_eq hlen.ge, ofRow_toRow signed hsize]

/-! ### File names -/

/-- **Ten letters have names that fit six bytes; with one more byte all do.** -/
theorem savName_eq (hi : i < 26) (hfit : i < 10 ∨ 7 ≤ room) (hroom : 6 ≤ room) :
    savName room i = .ok (printInt i ++ ['.', 's', 'a', 'v']) := by
  have h1 := length_printInt_natCast_le (n := i) (k := 1) (by decide)
  have h2 := length_printInt_natCast_le (n := i) (k := 2) (by decide)
  apply if_pos
  rw [List.length_append, List.length_cons, List.length_cons, List.length_cons, List.length_cons,
    List.length_nil]
  rcases hfit with h | h
  · have := h1.mpr (by omega); omega
  · have := h2.mpr (by omega); omega

theorem savName_overflow (hi : 10 ≤ i) (hroom : room < 7) : savName room i = .error .undefined := by
  have h1 := length_printInt_natCast_le (n := i) (k := 1) (by decide)
  apply if_neg
  rw [List.length_append, List.length_cons, List.length_cons, List.length_cons, List.length_cons,
    List.length_nil]
  intro hle
  have := h1.mp (by omega)
  omega

theorem savName_inj {j : ℕ} (h : printInt i ++ ['.', 's', 'a', 'v'] =
    printInt j ++ ['.', 's', 'a', 'v']) : i = j :=
  printInt_natCast_inj (List.append_cancel_right h)

/-! ### All letters -/

/-- The first `n` letters, saved. -/
def savedDisk (signed : Bool) (letters : List Letter) (disk : Disk) : ℕ → Disk
  | 0 => disk
  | n + 1 => (printInt n ++ ['.', 's', 'a', 'v'],
      savText (((letters[n]?.map (Letter.toRow signed)).getD []))) :: savedDisk signed letters disk n

theorem lookup_savedDisk (disk : Disk) : ∀ {n : ℕ}, i < n → (hl : letters[i]? = some l) →
    (savedDisk signed letters disk n).lookup (printInt i ++ ['.', 's', 'a', 'v']) =
      some (savText (l.toRow signed))
  | n + 1, hi, hl => by
    unfold savedDisk
    rcases Nat.lt_succ_iff_lt_or_eq.mp hi with hlt | rfl
    · have hne : (printInt i ++ ['.', 's', 'a', 'v'] == printInt n ++ ['.', 's', 'a', 'v']) = false :=
        beq_false_of_ne fun heq => hlt.ne (savName_inj heq)
      rw [List.lookup_cons, hne]
      exact lookup_savedDisk disk hlt hl
    · rw [List.lookup_cons_self, hl]
      rfl

/-- Every letter of the list is of its template's dimensions. -/
def AreSaved (letters : List Letter) : Prop := ∀ i l, letters[i]? = some l → IsSaved i l

theorem areSaved_singleton (h : IsSaved 0 l) : AreSaved [l] := by
  intro i l' hl'
  cases i with
  | zero => rwa [← Option.some.inj hl']
  | succ i => cases hl'

/-- A letter drawn with its template's dimensions. -/
theorem isSaved_of_table {f : ℕ → ℕ → ℤ} (hi : i < 26)
    (hmatrix : l.matrix = table (sizes.getD i (0, 0)).1 (sizes.getD i (0, 0)).2 f)
    (hf : ∀ x y, IsInt (f x y)) (hx : IsInt l.x) (hy : IsInt l.y) : IsSaved i l where
  lt := hi
  rect := by rw [hmatrix]; exact rect_table _ _ _
  length := by rw [hmatrix]; exact length_table _ _ _
  pixels := by rw [hmatrix]; exact forall_table fun x _ y _ => hf x y
  x := hx
  y := hy

theorem AreSaved.length_le (h : AreSaved letters) : letters.length ≤ 26 := by
  by_contra hlt
  have := (h 26 _ (List.getElem?_eq_getElem (by omega))).lt
  omega

theorem exported_contents (h : IsSaved i l) : (do
    let data ← l.exported signed
    data.contents) = .ok (l.toRow signed) := by
  rw [exported_eq signed h.hasSize, ok_bind, CArray.contents_ofList]

/-- One turn of the loop that saves. -/
theorem saveLetter_eq (h : AreSaved letters) (hroom : 6 ≤ room) (hi : i < letters.length)
    (hfit : i < 10 ∨ 7 ≤ room) (disk : Disk) : (do
      let filename ← savName room i
      let l ← rawGet letters i
      let data ← l.exported signed
      let cells ← data.contents
      .ok ((filename, savText cells) :: savedDisk signed letters disk i)) =
      .ok (savedDisk signed letters disk (i + 1)) := by
  have hsaved := h i _ (List.getElem?_eq_getElem hi)
  rw [savName_eq hsaved.lt hfit hroom, ok_bind, rawGet_of_lt hi, ok_bind,
    exported_eq signed hsaved.hasSize, ok_bind, CArray.contents_ofList, ok_bind, savedDisk,
    List.getElem?_eq_getElem hi]
  rfl

theorem saveLetters_eq (h : AreSaved letters) (hroom : 6 ≤ room)
    (hfit : letters.length ≤ 10 ∨ 7 ≤ room) (disk : Disk) :
    saveLetters signed room letters disk =
      .ok (savedDisk signed letters disk letters.length) :=
  forUpTo_trajectory (savedDisk signed letters disk) fun _ hi =>
    saveLetter_eq h hroom hi (hfit.imp (by omega) id) disk

/-- The eleventh name overflows the array. -/
theorem saveLetters_overflow (h : AreSaved letters) (hroom : 6 ≤ room) (hroom' : room < 7)
    (hlen : 10 < letters.length) (disk : Disk) :
    saveLetters signed room letters disk = .error .undefined := by
  refine forUpTo_error (k := 10) (forUpTo_trajectory (savedDisk signed letters disk) fun i hi =>
    saveLetter_eq h hroom (by omega) (Or.inl hi) disk) ?_ hlen
  rw [savName_overflow (le_refl 10) hroom']
  rfl

theorem loadTemplate_eq (h : AreSaved letters) (hroom : 6 ≤ room)
    (hfit : letters.length ≤ 10 ∨ 7 ≤ room) (disk : Disk) :
    loadTemplate room letters.length (savedDisk signed letters disk letters.length) =
      .ok letters := by
  unfold loadTemplate
  rw [mapM_ok (g := fun i => letters.getD i (Letter.new []))]
  · congr 1
    refine List.ext_getElem (by simp) fun i hi hi' => ?_
    rw [List.getElem_map, List.getElem_range, List.getD_eq_getElem _ _ hi']
  · intro i hi
    rw [List.mem_range] at hi
    have hget := List.getElem?_eq_getElem hi
    have hsaved := h i _ hget
    rw [List.getD_eq_getElem _ _ hi]
    exact loadLetter_eq hsaved (savName_eq hsaved.lt (hfit.imp (by omega) id) hroom)
      (lookup_savedDisk disk hi hget)

/-- The arrays the recogniser is given. -/
theorem exportLetters_eq (h : AreSaved letters) :
    exportLetters signed letters = .ok (letters.map (Letter.toRow signed)) := by
  apply mapM_ok
  intro l hl
  obtain ⟨i, hi⟩ := List.mem_iff_getElem?.mp hl
  exact exported_contents (h i l hi)

theorem exported_isAlphabet (signed : Bool) (h : AreSaved letters) :
    IsAlphabet (letters.map (Letter.toRow signed)) where
  length_le := by rw [List.length_map]; exact h.length_le
  fits i hi := by
    rw [List.length_map] at hi
    have hi' : i < (letters.map (Letter.toRow signed)).length := by rwa [List.length_map]
    rw [List.getD_eq_getElem _ _ hi', List.getElem_map]
    exact ((h i _ (List.getElem?_eq_getElem hi)).hasSize.toRow_length signed).ge

/-- **What the recogniser rebuilds are the letters.** -/
theorem templates_exported (signed : Bool) (h : AreSaved letters) :
    templates (letters.map (Letter.toRow signed)) = letters := by
  unfold templates
  rw [List.length_map]
  refine List.ext_getElem (by simp) fun i hi hi' => ?_
  rw [List.getElem_map, List.getElem_range, template,
    List.getD_eq_getElem _ _ (by rwa [List.length_map]), List.getElem_map,
    ofRow_toRow signed (h i _ (List.getElem?_eq_getElem hi')).hasSize]

/-- **Letters are saved, loaded and rebuilt unchanged exactly when their names
fit.** `room` is the number of bytes at `filename`, six by its declaration
(`filenameSize`). -/
theorem round_trip_iff (signed : Bool) {room : ℕ} (hroom : 6 ≤ room) {letters : List Letter}
    (h : AreSaved letters) (disk : Disk) :
    (∃ disk' rows, saveLetters signed room letters disk = .ok disk' ∧
      loadTemplate room letters.length disk' = .ok letters ∧
      exportLetters signed letters = .ok rows ∧
      retrieveLetters rows letters.length = .ok (letters.map Letter.toLetter2)) ↔
    letters.length ≤ 10 ∨ 7 ≤ room := by
  constructor
  · rintro ⟨disk', rows, hsave, -⟩
    by_contra hcon
    rw [saveLetters_overflow h hroom (by omega) (by omega)] at hsave
    cases hsave
  · intro hfit
    refine ⟨_, _, saveLetters_eq h hroom hfit disk, loadTemplate_eq h hroom hfit disk,
      exportLetters_eq h, ?_⟩
    have hretrieve := retrieveLetters_eq (exported_isAlphabet signed h)
    rwa [List.length_map, templates_exported signed h] at hretrieve

/-- A letter all of whose pixels are the least `int`. -/
def darkest (i : ℕ) : Letter :=
  { Letter.new (table (sizes.getD i (0, 0)).1 (sizes.getD i (0, 0)).2 fun _ _ => -2 ^ 31) with
    letter := 0xff#8 }

def darkestLetters (n : ℕ) : List Letter := (List.range n).map darkest

theorem darkestLetters_areSaved {n : ℕ} (hn : n ≤ 26) : AreSaved (darkestLetters n) := by
  intro i l hl
  unfold darkestLetters at hl
  rw [List.getElem?_map, Option.map_eq_some_iff] at hl
  obtain ⟨j, hj, rfl⟩ := hl
  obtain ⟨hlt, rfl⟩ := List.getElem?_eq_some_iff.mp hj
  rw [List.length_range] at hlt
  rw [List.getElem_range]
  exact isSaved_of_table (by omega) rfl (fun _ _ => (by decide : IsInt (-2 ^ 31)))
    (by decide : IsInt 0) (by decide : IsInt 0)

/-- Ten letters make the round trip. -/
theorem round_trip_ten : ∃ disk' rows,
    saveLetters true filenameSize (darkestLetters 10) [] = .ok disk' ∧
    loadTemplate filenameSize (darkestLetters 10).length disk' = .ok (darkestLetters 10) ∧
    exportLetters true (darkestLetters 10) = .ok rows ∧
    retrieveLetters rows (darkestLetters 10).length =
      .ok ((darkestLetters 10).map Letter.toLetter2) :=
  (round_trip_iff true (by decide) (darkestLetters_areSaved (by decide)) []).mpr
    (Or.inl (by simp [darkestLetters]))

/-- Eleven do not: `sprintf` writes past the end of `filename`. -/
theorem eleven_letters_overflow : (darkestLetters 11).length = 11 ∧ AreSaved (darkestLetters 11) ∧
    ∀ signed disk, saveLetters signed filenameSize (darkestLetters 11) disk = .error .undefined := by
  have hsaved := darkestLetters_areSaved (n := 11) (by decide)
  have hlen : (darkestLetters 11).length = 11 := by simp [darkestLetters]
  exact ⟨hlen, hsaved, fun signed disk =>
    saveLetters_overflow hsaved (by decide) (by decide) (by omega) disk⟩

end Ocr
end IcnDemo
