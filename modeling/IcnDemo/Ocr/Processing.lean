/-
# The recogniser of the library

`lib/processing.cpp`: `findLetters` cuts the shapes out of an image,
`matchLetter` finds the template nearest to a shape, by scaling every template
to its size and comparing the pixels, and `characterRecognition` writes the
`char` of the nearest template for every shape.

`double` is a parameter (`Lib.Double.Ops`), and the two loops of
`scaleMatrixTo` that count in `double`s run on fuel. An `int` that overflows
wraps around. The edges and the counters of `findLetters`, which are `int`s in
the source, are rows and columns of the image: those of an `Image`, whose sides
are below 2^31, do not overflow.
-/
import IcnDemo.Ocr.Letter
import IcnDemo.Lib.Double

namespace IcnDemo
namespace Ocr

open Lib.Loop Lib.Grid Lib.Double

/-- The dimensions of the templates. -/
def sizes : List (ℕ × ℕ) := [
  (62, 79), (48, 79), (51, 81), (49, 79), (41, 79), (42, 79), (52, 81), (45, 79), (36, 79),
  (39, 80), (55, 79), (43, 79), (50, 79), (47, 79), (54, 81), (45, 79), (56, 94), (53, 79),
  (44, 81), (57, 79), (45, 80), (62, 79), (63, 79), (60, 79), (58, 79), (48, 79)]

/-! ### Finding letters -/

/-- What a column's pixels change. -/
structure Edges where
  topEdge : ℤ
  bottomEdge : ℤ
  found : Bool

/-- The pixel at `(x, y)`. -/
def scanPixel (threshold : ℤ) (matrix : Matrix) (x y : ℕ) (e : Edges) : Except Fault Edges := do
  let pixel ← elemAt₂ matrix x y
  if pixel < threshold then
    .ok { e with
      topEdge := if e.topEdge < 0 ∨ (y : ℤ) < e.topEdge then y else e.topEdge
      found := true }
  else if 0 < y then do
    let above ← elemAt₂ matrix x (y - 1)
    if above < threshold ∧ (e.bottomEdge < 0 ∨ e.bottomEdge < y) then
      .ok { e with bottomEdge := y }
    else .ok e
  else .ok e

/-- What the columns change. -/
structure Scan where
  leftEdge : ℤ
  topEdge : ℤ
  bottomEdge : ℤ
  letters : List Letter

/-- The copy of a shape to a new matrix. -/
def subMatrix (matrix : Matrix) (leftEdge x topEdge bottomEdge : ℤ) : Except Fault Matrix :=
  (intRange leftEdge x).mapM fun subx => (intRange topEdge bottomEdge).mapM fun suby =>
    elemAtInt₂ matrix subx suby

/-- The column `x`. -/
def scanColumn (threshold : ℤ) (matrix : Matrix) (x : ℕ) (s : Scan) : Except Fault Scan := do
  let first ← elemAt matrix 0
  let e ← forUpTo first.length (scanPixel threshold matrix x) ⟨s.topEdge, s.bottomEdge, false⟩
  if e.found then
    .ok { s with
      leftEdge := if s.leftEdge < 0 then x else s.leftEdge
      topEdge := e.topEdge
      bottomEdge := e.bottomEdge }
  else if 0 < s.leftEdge then do
    let shape ← subMatrix matrix s.leftEdge x e.topEdge e.bottomEdge
    let letter := { Letter.new shape with x := s.leftEdge, y := e.topEdge }
    .ok ⟨-1, -1, -1, s.letters ++ [letter]⟩
  else .ok { s with topEdge := e.topEdge, bottomEdge := e.bottomEdge }

def findLetters (threshold : ℤ) (matrix : Matrix) : Except Fault (List Letter) := do
  let s ← forUpTo matrix.length (scanColumn threshold matrix) ⟨-1, -1, -1, []⟩
  .ok s.letters

/-! ### Matching letters -/

variable {F : Type} (fp : Ops F) (fuel : ℕ)

/-- `scale_Matrix_to` -/
def scaleMatrixTo (width height : ℤ) (oldMatrix : Matrix) : Except Fault Matrix := do
  let first ← elemAt oldMatrix 0
  let wScaler := fp.div (fp.ofInt oldMatrix.length) (fp.ofInt width)
  let hScaler := fp.div (fp.ofInt first.length) (fp.ofInt height)
  collectWhile .outOfFuel (fun x => fp.lt x (fp.ofInt oldMatrix.length)) (fp.add · wScaler)
    (fun x => collectWhile .outOfFuel (fun y => fp.lt y (fp.ofInt first.length)) (fp.add · hScaler)
      (fun y => elemAt₂ oldMatrix (fp.toIndex x) (fp.toIndex y)) fuel (fp.ofInt 0))
    fuel (fp.ofInt 0)

/-- The pixel at `(x, y)` in the loop of `compare_matrices`. -/
def comparePixel (matrixA matrixB : Matrix) (x y : ℕ) (differenceSum : ℤ) : Except Fault ℤ := do
  let a ← elemAt₂ matrixA x y
  let b ← elemAt₂ matrixB x y
  if 0 < toInt (a - b) then .ok (toInt (differenceSum + toInt (a - b)))
  else .ok (toInt (differenceSum + toInt (b - a)))

/-- `compare_matrices` -/
def compareMatrices (matrixA matrixB : Matrix) : Except Fault F := do
  let differenceSum ← forUpTo matrixA.length (fun x differenceSum => do
    let first ← elemAt matrixA 0
    forUpTo first.length (comparePixel matrixA matrixB x) differenceSum) 0
  let first ← elemAt matrixA 0
  .ok (fp.div (fp.ofInt differenceSum) (fp.ofInt (matrixA.length * first.length)))

/-- The lowest difference so far, and the index of the template it is to. -/
structure Lowest (F : Type) where
  difference : F
  index : ℤ

/-- The template `j` in the loop of `match_letter`. -/
def tryTemplate (to_match : Letter) (letters : List Letter) (j : ℕ) (lowest : Lowest F) :
    Except Fault (Lowest F) := do
  let first ← elemAt to_match.matrix 0
  let template ← elemAt letters j
  let scaled ← scaleMatrixTo fp fuel (toInt to_match.matrix.length) (toInt first.length)
    template.matrix
  let difference ← compareMatrices fp to_match.matrix scaled
  .ok (if fp.lt difference lowest.difference then ⟨difference, j⟩ else lowest)

/-- `match_letter` -/
def matchLetter (to_match : Letter) (letters : List Letter) : Except Fault Letter := do
  let lowest ← forUpTo letters.length (tryTemplate fp fuel to_match letters) ⟨fp.ofInt 256, -1⟩
  elemAtInt letters lowest.index

/-! ### Character recognition -/

/-- What a recogniser leaves: `*length` if it is stored, the characters written
to `output_letters`, and the fault that ended it, if one did. -/
structure Outcome where
  length : Option ℤ
  output_letters : List (BitVec 8)
  fault : Option Fault
deriving DecidableEq

/-- The templates made from their arrays. -/
def importLetters (letters_vec : Matrix) (letters_rows : ℕ) : Except Fault (List Letter) :=
  (List.range letters_rows).mapM fun i => do
    let row ← rawGet letters_vec i
    let size ← rawGet sizes i
    Letter.importLetter (CArray.ofList row) size.1 size.2

/-- What stands before `*length` is stored: the templates and the letters found. -/
def prepare (input : Matrix) (rows cols : ℕ) (letters_c : Matrix)
    (letters_rows letters_cols : ℕ) : Except Fault (List Letter × List Letter) := do
  let input_image ← readRows input rows cols
  let letters_vec ← readRows letters_c letters_rows letters_cols
  let letters ← importLetters letters_vec letters_rows
  let possible_letters ← findLetters 127 input_image
  .ok (letters, possible_letters)

/-- The match for one letter; `letters.at(0)` stands before it. -/
def recognise (letters : List Letter) (letter : Letter) : Except Fault (BitVec 8) := do
  let _ ← elemAt letters 0
  let found ← matchLetter fp fuel letter letters
  .ok found.letter

/-- `character_recognition` -/
def characterRecognition (input : Matrix) (rows cols : ℕ) (letters_c : Matrix)
    (letters_rows letters_cols : ℕ) : Outcome :=
  match prepare input rows cols letters_c letters_rows letters_cols with
  | .error e => ⟨none, [], some e⟩
  | .ok (letters, possible_letters) =>
    let written := storeEach (recognise fp fuel letters) possible_letters
    ⟨some (toInt possible_letters.length), written.1, written.2⟩

end Ocr
end IcnDemo
