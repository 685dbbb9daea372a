/-
# The recogniser of the enclave

`ocr.cpp` has the recogniser once more: `characterRecognitionWrap` is the whole
pipeline in one function, with `Letter2` for `Letter`, the segmentation and the
matching written out in its body. It calls the library's `scaleMatrixTo` and
`compareMatrices`.
-/
import IcnDemo.Ocr.Processing

namespace IcnDemo
namespace Ocr

open Lib.Loop Lib.Double

/-- The class `Letter2`. -/
structure Letter2 where
  letter : BitVec 8
  matrix : Matrix
  x : ℤ
  y : ℤ
deriving DecidableEq

/-- The constructor. -/
def Letter2.new (matrix : Matrix) : Letter2 := ⟨star, matrix, 0, 0⟩

def Letter2.importLetter (data : CArray) (rows cols : ℕ) : Except Fault Letter2 := do
  let new_matrix ← (List.range rows).mapM fun i => (List.range cols).mapM fun j =>
    data.load (cols * i + j)
  let x ← data.load (rows * cols + 0)
  let y ← data.load (rows * cols + 1)
  let c ← data.load (rows * cols + 2)
  .ok { Letter2.new new_matrix with x := x, y := y, letter := intToChar c }

/-- `convert letters C-type to object`: only the cells a template has are
copied. -/
def retrieveLetters (letters_c : Matrix) (letters_rows : ℕ) : Except Fault (List Letter2) :=
  (List.range letters_rows).mapM fun i => do
    let size ← rawGet sizes i
    let letters_cols := size.1 * size.2 + 3
    let data ← (List.range letters_cols).mapM fun j => do
      let row ← rawGet letters_c i
      rawGet row j
    Letter2.importLetter (CArray.ofList data) size.1 size.2

/-! ### `find letters in image` -/

/-- The variables of the loop over the columns; `found` is set anew for each. -/
structure Segments where
  leftEdge : ℤ
  topEdge : ℤ
  bottomEdge : ℤ
  found : Bool
  possible_letters : List Letter2

/-- The body of the loop over the rows. -/
def segmentPixel (threshold : ℤ) (input_image : Matrix) (x y : ℕ) (s : Segments) :
    Except Fault Segments := do
  let pixel ← elemAt₂ input_image x y
  if pixel < threshold then
    let s := if s.topEdge < 0 ∨ (y : ℤ) < s.topEdge then { s with topEdge := (y : ℤ) } else s
    .ok { s with found := true }
  else if 0 < y then do
    let above ← elemAt₂ input_image x (y - 1)
    if above < threshold ∧ (s.bottomEdge < 0 ∨ (y : ℤ) > s.bottomEdge) then
      .ok { s with bottomEdge := y }
    else .ok s
  else .ok s

/-- The body of the loop over the columns. -/
def segmentColumn (threshold : ℤ) (input_image : Matrix) (x : ℕ) (s : Segments) :
    Except Fault Segments := do
  let first ← elemAt input_image 0
  let s ← forUpTo first.length (segmentPixel threshold input_image x) { s with found := false }
  if s.found then
    .ok (if s.leftEdge < 0 then { s with leftEdge := (x : ℤ) } else s)
  else if s.leftEdge > 0 then do
    let shape ← (intRange s.leftEdge x).mapM fun subx =>
      (intRange s.topEdge s.bottomEdge).mapM fun suby => elemAtInt₂ input_image subx suby
    let letter := { Letter2.new shape with x := s.leftEdge, y := s.topEdge }
    .ok { s with
      leftEdge := -1
      topEdge := -1
      bottomEdge := -1
      possible_letters := s.possible_letters ++ [letter] }
  else .ok s

def segments (input_image : Matrix) : Except Fault Segments :=
  forUpTo input_image.length (segmentColumn 127 input_image) ⟨-1, -1, -1, false, []⟩

/-! ### `find the best match in the alphabet for each letter` -/

variable {F : Type} (fp : Ops F) (fuel : ℕ)

/-- The body of the loop over the templates. -/
def compareTemplate (to_match : Letter2) (letters : List Letter2) (j : ℕ) (lowest : Lowest F) :
    Except Fault (Lowest F) := do
  let first ← elemAt to_match.matrix 0
  let template ← elemAt letters j
  let scaled ← scaleMatrixTo fp fuel (toInt to_match.matrix.length) (toInt first.length)
    template.matrix
  let difference ← compareMatrices fp to_match.matrix scaled
  if fp.lt difference lowest.difference then .ok ⟨difference, j⟩ else .ok lowest

/-- The body of the loop over the letters found. -/
def bestMatch (letters : List Letter2) (to_match : Letter2) : Except Fault (BitVec 8) := do
  let lowest ← forUpTo letters.length (compareTemplate fp fuel to_match letters) ⟨fp.ofInt 256, -1⟩
  let best_match ← elemAtInt letters lowest.index
  .ok best_match.letter

/-- `character_recognition_wrap` -/
def characterRecognitionWrap (input : Matrix) (rows cols : ℕ) (letters_c : Matrix)
    (letters_rows : ℕ) : Outcome :=
  let found : Except Fault (List Letter2 × List Letter2) := do
    let input_image ← readRows input rows cols
    let letters ← retrieveLetters letters_c letters_rows
    let s ← segments input_image
    .ok (letters, s.possible_letters)
  match found with
  | .error e => ⟨none, [], some e⟩
  | .ok (letters, possible_letters) =>
    let written := storeEach (bestMatch fp fuel letters) possible_letters
    ⟨some (toInt possible_letters.length), written.1, written.2⟩

end Ocr
end IcnDemo
