/-
# Letters

`lib/Letter.cpp`: a matrix of pixels with the place it was found at and the
`char` it stands for. `exportLetter` lays it out in an `int` array, the matrix
row by row and then `x`, `y` and the `char`; `importLetter` reads it back, given
the dimensions. The one undoes the other (`exportLetter_eq`,
`ofRow_toRow`).
-/
import IcnDemo.Cxx

namespace IcnDemo
namespace Ocr

open Lib.Loop Lib.Grid

/-- `vector< vector<int> >` -/
abbrev Matrix := List (List ℤ)

/-- The class `Letter`. -/
structure Letter where
  letter : BitVec 8
  matrix : Matrix
  x : ℤ
  y : ℤ
deriving DecidableEq

/-- `'*'` -/
def star : BitVec 8 := 42#8

/-- The constructor. -/
def Letter.new (matrix : Matrix) : Letter := ⟨star, matrix, 0, 0⟩

/-- `signed` says whether the platform's `char` is. -/
def Letter.exportLetter (signed : Bool) (l : Letter) (data : CArray) : Except Fault CArray := do
  let first ← rawGet l.matrix 0
  let rows := (toInt l.matrix.length).toNat
  let cols := (toInt first.length).toNat
  let data ← forUpTo rows (fun i data => forUpTo cols (fun j data => do
    let row ← rawGet l.matrix i
    let v ← rawGet row j
    data.store (cols * i + j) v) data) data
  let data ← data.store (l.matrix.length * first.length + 0) l.x
  let data ← data.store (l.matrix.length * first.length + 1) l.y
  data.store (l.matrix.length * first.length + 2) (charToInt signed l.letter)

def Letter.importLetter (data : CArray) (rows cols : ℕ) : Except Fault Letter := do
  let new_matrix ← (List.range rows).mapM fun i => (List.range cols).mapM fun j =>
    data.load (cols * i + j)
  let x ← data.load (rows * cols + 0)
  let y ← data.load (rows * cols + 1)
  let c ← data.load (rows * cols + 2)
  .ok { Letter.new new_matrix with x := x, y := y, letter := intToChar c }

/-- `int data[data_length]; exportLetter(data)`, as both callers do it. -/
def Letter.exported (signed : Bool) (l : Letter) : Except Fault CArray := do
  let first ← rawGet l.matrix 0
  let data_length := toInt (l.matrix.length * first.length + 3)
  if data_length ≤ 0 then .error .undefined
  else l.exportLetter signed (CArray.declare data_length.toNat)

/-! ### The layout -/

/-- The cells of an exported letter. -/
def Letter.toRow (signed : Bool) (l : Letter) : List ℤ :=
  l.matrix.flatten ++ [l.x, l.y, charToInt signed l.letter]

/-- The letter of `rows` by `cols` pixels laid out in `row`. -/
def Letter.ofRow (row : List ℤ) (rows cols : ℕ) : Letter where
  letter := intToChar (row.getD (rows * cols + 2) 0)
  matrix := table rows cols fun i j => row.getD (cols * i + j) 0
  x := row.getD (rows * cols + 0) 0
  y := row.getD (rows * cols + 1) 0

variable {l : Letter} {rows cols : ℕ}

/-- The dimensions of a letter's matrix, small enough to be exported. -/
structure Letter.HasSize (l : Letter) (rows cols : ℕ) : Prop where
  rect : Rect cols l.matrix
  length : l.matrix.length = rows
  rows_pos : 0 < rows
  cols_pos : 0 < cols
  small : rows * cols + 3 < 2 ^ 31

theorem Letter.HasSize.flatten_length (h : l.HasSize rows cols) :
    l.matrix.flatten.length = cols * rows := by
  rw [h.rect.length_flatten, h.length]

theorem Letter.HasSize.toRow_length (signed : Bool) (h : l.HasSize rows cols) :
    (l.toRow signed).length = rows * cols + 3 := by
  unfold toRow
  rw [List.length_append, h.flatten_length, Nat.mul_comm]
  rfl

theorem Letter.HasSize.first (h : l.HasSize rows cols) :
    ∃ first, rawGet l.matrix 0 = .ok first ∧ first.length = cols := by
  have h0 : 0 < l.matrix.length := by rw [h.length]; exact h.rows_pos
  exact ⟨_, rawGet_of_lt h0, h.rect _ (List.getElem_mem h0)⟩

/-- The pixel at `(i, j)` in the layout. -/
theorem Letter.HasSize.toRow_pixel (signed : Bool) (h : l.HasSize rows cols) {i j : ℕ}
    (hi : i < rows) (hj : j < cols) :
    (l.toRow signed)[cols * i + j]? = some (entry l.matrix i j) := by
  have hpix := h.rect.flatten_getElem? (by rwa [h.length]) hj
  unfold toRow
  rw [List.getElem?_append_left (List.getElem?_eq_some_iff.mp hpix).1, hpix]

/-- What follows the pixels. -/
theorem Letter.HasSize.toRow_tail (signed : Bool) (h : l.HasSize rows cols) (k : ℕ) :
    (l.toRow signed)[rows * cols + k]? = [l.x, l.y, charToInt signed l.letter][k]? := by
  have hlen : l.matrix.flatten.length = rows * cols := by rw [h.flatten_length, Nat.mul_comm]
  unfold toRow
  rw [List.getElem?_append_right (by omega), hlen, Nat.add_sub_cancel_left]

/-- The pixel loop writes the first `rows * cols` cells, row by row. -/
theorem writePixels_eq (signed : Bool) (h : l.HasSize rows cols) :
    forUpTo rows (fun i data => forUpTo cols (fun j data => do
      let row ← rawGet l.matrix i
      let v ← rawGet row j
      data.store (cols * i + j) v) data) (CArray.declare (rows * cols + 3)) =
      .ok (CArray.upTo (l.toRow signed) (rows * cols)) := by
  have hloop : forUpTo rows (fun i data => forUpTo cols (fun j data => do
      let row ← rawGet l.matrix i
      let v ← rawGet row j
      data.store (cols * i + j) v) data) (CArray.upTo (l.toRow signed) (cols * 0)) =
      .ok (CArray.upTo (l.toRow signed) (cols * rows)) := by
    refine forUpTo_trajectory (fun i => CArray.upTo (l.toRow signed) (cols * i)) fun i hi => ?_
    refine forUpTo_trajectory (fun j => CArray.upTo (l.toRow signed) (cols * i + j)) fun j hj => ?_
    have hi' : i < l.matrix.length := by rwa [h.length]
    have hj' : j < l.matrix[i].length := by rwa [h.rect _ (List.getElem_mem hi')]
    rw [rawGet_of_lt hi', ok_bind, rawGet_of_lt hj', ok_bind, CArray.store_upTo]
    · rfl
    · rw [h.toRow_pixel signed hi hj, entry, List.getD_eq_getElem _ _ hi',
        List.getD_eq_getElem _ _ hj']
  rwa [Nat.mul_zero, CArray.upTo_zero, h.toRow_length, Nat.mul_comm cols rows] at hloop

/-- **An exported letter is its layout.** -/
theorem exportLetter_eq (signed : Bool) (h : l.HasSize rows cols) :
    l.exportLetter signed (CArray.declare (rows * cols + 3)) =
      .ok (CArray.ofList (l.toRow signed)) := by
  obtain ⟨first, hfirst, hlen⟩ := h.first
  have hsmall := h.small
  have hle : rows ≤ rows * cols := Nat.le_mul_of_pos_right _ h.cols_pos
  have hle' : cols ≤ rows * cols := Nat.le_mul_of_pos_left _ h.rows_pos
  have hrows : (toInt (rows : ℕ)).toNat = rows := by
    rw [toInt_natCast (by omega), Int.toNat_natCast]
  have hcols : (toInt (cols : ℕ)).toNat = cols := by
    rw [toInt_natCast (by omega), Int.toNat_natCast]
  have htail : ∀ (k : ℕ) (v : ℤ), [l.x, l.y, charToInt signed l.letter][k]? = some v →
      (CArray.upTo (l.toRow signed) (rows * cols + k)).store (rows * cols + k) v =
        .ok (CArray.upTo (l.toRow signed) (rows * cols + k + 1)) := fun k v hv =>
    CArray.store_upTo (by rw [h.toRow_tail signed, hv])
  have hend := CArray.upTo_length (l.toRow signed)
  rw [h.toRow_length] at hend
  unfold Letter.exportLetter
  rw [hfirst, ok_bind]
  dsimp only
  rw [hlen, h.length, hrows, hcols]
  have hx : (CArray.upTo (l.toRow signed) (rows * cols)).store (rows * cols + 0) l.x =
      .ok (CArray.upTo (l.toRow signed) (rows * cols + 1)) := htail 0 _ rfl
  rw [writePixels_eq signed h, ok_bind, hx, ok_bind, htail 1 _ rfl, ok_bind, htail 2 _ rfl, hend]

theorem exported_eq (signed : Bool) (h : l.HasSize rows cols) :
    l.exported signed = .ok (CArray.ofList (l.toRow signed)) := by
  obtain ⟨first, hfirst, hlen⟩ := h.first
  have hsmall := h.small
  have hint : toInt (rows * cols + 3 : ℤ) = (rows * cols + 3 : ℕ) := by
    rw [← toInt_natCast hsmall]; push_cast; rfl
  unfold Letter.exported
  rw [hfirst, ok_bind]
  dsimp only
  rw [hlen, h.length, hint, if_neg (by omega), Int.toNat_natCast, exportLetter_eq signed h]

/-- **A letter is read from a long enough array.** -/
theorem importLetter_eq {row : List ℤ} (h : rows * cols + 3 ≤ row.length) :
    Letter.importLetter (CArray.ofList row) rows cols = .ok (Letter.ofRow row rows cols) := by
  have hload : ∀ k < row.length, (CArray.ofList row).load k = .ok (row.getD k 0) := fun k hk => by
    apply CArray.load_ofList
    rw [List.getElem?_eq_getElem hk, List.getD_eq_getElem _ _ hk]
  have hpix : ((List.range rows).mapM fun i => (List.range cols).mapM fun j =>
      (CArray.ofList row).load (cols * i + j)) =
      .ok (table rows cols fun i j => row.getD (cols * i + j) 0) := by
    refine mapM_table fun i hi j hj => hload _ ?_
    have : cols * (i + 1) ≤ cols * rows := Nat.mul_le_mul_left _ hi
    rw [Nat.mul_succ] at this
    rw [Nat.mul_comm rows] at h
    omega
  rw [Letter.importLetter, hpix, ok_bind, hload _ (by omega), ok_bind, hload _ (by omega), ok_bind,
    hload _ (by omega), ok_bind]
  rfl

/-- **The layout of a letter is read back as the letter.** -/
theorem ofRow_toRow (signed : Bool) (h : l.HasSize rows cols) :
    Letter.ofRow (l.toRow signed) rows cols = l := by
  have htail := h.toRow_tail signed
  have hmatrix : table rows cols (fun i j => (l.toRow signed).getD (cols * i + j) 0) = l.matrix := by
    rw [h.rect.eq_table, h.length]
    apply table_congr
    intro i hi j hj
    rw [List.getD_eq_getElem?_getD, h.toRow_pixel signed hi hj, Option.getD_some]
  cases l with
  | mk letter matrix x y =>
    simp only [Letter.ofRow, List.getD_eq_getElem?_getD, htail, List.getElem?_cons_zero,
      List.getElem?_cons_succ, Option.getD_some, intToChar_charToInt, Letter.mk.injEq, true_and,
      and_true]
    simpa only [List.getD_eq_getElem?_getD] using hmatrix

end Ocr
end IcnDemo
