/-
# The C++ the code is written in

What ends a run early (`Fault`), the two's complement `int` (`toInt`), the
casts between `char` and `int`, `std::vector`'s checked `at` (`elemAt`) and
unchecked `operator[]` (`rawGet`), the same for a vector of vectors (`elemAt₂`,
`readRows`), and a C array with cells not yet written (`CArray`).
-/
import IcnDemo.Lib.Loop
import IcnDemo.Lib.Grid
import Mathlib.Data.Int.Notation
import Mathlib.Order.Basic
import Mathlib.Tactic.Ring

namespace IcnDemo

open Lib.Loop Lib.Grid

/-- What ends a run of the code early. -/
inductive Fault
  /-- `std::out_of_range`, thrown by `vector::at`. -/
  | outOfRange
  /-- Undefined behaviour: an unchecked access outside its array, a read of a
  cell never written, a remainder by zero. -/
  | undefined
  /-- Not in the code: the fuel of a loop over `double`s is spent. -/
  | outOfFuel
deriving DecidableEq, Repr

/-! ### Integers -/

/-- The value as a 32-bit `int`. -/
def toInt (i : ℤ) : ℤ := i.bmod (2 ^ 32)

theorem toInt_of_mem {i : ℤ} (h1 : -2 ^ 31 ≤ i) (h2 : i < 2 ^ 31) : toInt i = i := by
  unfold toInt
  apply Int.bmod_eq_of_le_mul_two <;> omega

theorem toInt_natCast {n : ℕ} (h : n < 2 ^ 31) : toInt n = n :=
  toInt_of_mem (by omega) (by omega)

theorem toInt_eq (n : ℕ) : ∃ q : ℤ, toInt n = n - 2 ^ 32 * q := by
  refine ⟨((n : ℤ) - toInt n) / 2 ^ 32, ?_⟩
  have hdvd : (2 ^ 32 : ℤ) ∣ (n : ℤ) - toInt n := Int.dvd_self_sub_bmod
  rw [Int.mul_ediv_cancel' hdvd]
  ring

theorem toInt_bounds (i : ℤ) : -2 ^ 31 ≤ toInt i ∧ toInt i < 2 ^ 31 := by
  have h1 := Int.le_bmod (x := i) (m := 2 ^ 32) (by decide)
  have h2 := Int.bmod_lt (x := i) (m := 2 ^ 32) (by decide)
  unfold toInt
  omega

theorem toInt_eq_zero_iff (n : ℕ) : toInt n = 0 ↔ 2 ^ 32 ∣ n := by
  obtain ⟨q, hq⟩ := toInt_eq n
  have := toInt_bounds n
  omega

/-- `++i` from a value that has wrapped around. -/
theorem toInt_succ (n : ℕ) : toInt (toInt n + 1) = toInt (n + 1 : ℕ) := by
  unfold toInt
  rw [Int.bmod_add_bmod]
  push_cast
  rfl

/-- `a % b` on `int`s: truncating, undefined where `a / b` is not an `int`. -/
def intMod (a b : ℤ) : Except Fault ℤ :=
  if b = 0 ∨ (a = -2 ^ 31 ∧ b = -1) then .error .undefined else .ok (a.tmod b)

theorem intMod_of_defined {a b : ℤ} (hb : b ≠ 0) (hover : ¬ (a = -2 ^ 31 ∧ b = -1)) :
    intMod a b = .ok (a.tmod b) :=
  if_neg fun hbad => hbad.elim hb hover

/-- The value of an `int` expression; undefined if it is not an `int`. -/
def checkedInt (i : ℤ) : Except Fault ℤ :=
  if -2 ^ 31 ≤ i ∧ i < 2 ^ 31 then .ok i else .error .undefined

theorem checkedInt_of_mem {i : ℤ} (h1 : -2 ^ 31 ≤ i) (h2 : i < 2 ^ 31) : checkedInt i = .ok i :=
  if_pos ⟨h1, h2⟩

theorem checkedInt_ends (i : ℤ) :
    Ends (· = .undefined) (fun v => v = i ∧ v < 2 ^ 31) (checkedInt i) := by
  unfold checkedInt
  split
  · rename_i h
    exact ⟨rfl, h.2⟩
  · rfl

/-- Where the expression is defined, wrapping around changes nothing. -/
theorem toInt_of_checkedInt {i v : ℤ} (h : checkedInt i = .ok v) : toInt i = v := by
  unfold checkedInt at h
  split at h
  · rename_i hi
    rw [toInt_of_mem hi.1 hi.2, Except.ok.inj h]
  · cases h

/-! ### Characters -/

/-- `(int) c`: where `char` is signed, the high half is negative. -/
def charToInt (signed : Bool) (c : BitVec 8) : ℤ := if signed then c.toInt else c.toNat

/-- `(char) i`. -/
def intToChar (i : ℤ) : BitVec 8 := BitVec.ofInt 8 i

@[simp] theorem intToChar_charToInt (signed : Bool) (c : BitVec 8) :
    intToChar (charToInt signed c) = c := by
  cases signed with
  | true => simp [intToChar, charToInt]
  | false => simp [intToChar, charToInt, BitVec.ofInt_natCast]

theorem charToInt_bounds (signed : Bool) (c : BitVec 8) :
    -2 ^ 31 ≤ charToInt signed c ∧ charToInt signed c < 2 ^ 31 := by
  have h1 := c.isLt
  have h2 := c.toInt_lt
  have h3 := c.le_toInt
  cases signed <;> simp only [charToInt, Bool.false_eq_true, ↓reduceIte] <;> omega

/-! ### Vectors -/

variable {α : Type}

/-- `v.at(i)`. -/
def elemAt (v : List α) (i : ℕ) : Except Fault α :=
  match v[i]? with
  | some a => .ok a
  | none => .error .outOfRange

/-- `v.at(i)` for an `int`: a negative index converts to a `size_t` above every
`max_size`. -/
def elemAtInt (v : List α) (i : ℤ) : Except Fault α :=
  if i < 0 then .error .outOfRange else elemAt v i.toNat

/-- `v[i]`. -/
def rawGet (v : List α) (i : ℕ) : Except Fault α :=
  match v[i]? with
  | some a => .ok a
  | none => .error .undefined

theorem elemAt_of_lt {v : List α} {i : ℕ} (h : i < v.length) : elemAt v i = .ok v[i] := by
  simp [elemAt, h]

@[simp] theorem elemAtInt_natCast (v : List α) (i : ℕ) : elemAtInt v (i : ℤ) = elemAt v i := by
  unfold elemAtInt
  rw [if_neg (by omega), Int.toNat_natCast]

theorem elemAtInt_neg (v : List α) {i : ℤ} (h : i < 0) : elemAtInt v i = .error .outOfRange := by
  simp [elemAtInt, h]

theorem mem_of_elemAt {v : List α} {i : ℕ} {a : α} (h : elemAt v i = .ok a) : a ∈ v := by
  unfold elemAt at h
  split at h
  · rename_i b hb
    obtain rfl := Except.ok.inj h
    exact List.mem_of_getElem? hb
  · cases h

/-- `at` throws `std::out_of_range` or nothing. -/
theorem elemAt_fails {S : Fault → Prop} (hS : S .outOfRange) (v : List α) (i : ℕ) :
    FailsOnly S (elemAt v i) := by
  unfold elemAt
  split
  · exact failsOnly_ok _
  · exact fun e h => Except.error.inj h ▸ hS

theorem elemAtInt_fails {S : Fault → Prop} (hS : S .outOfRange) (v : List α) (i : ℤ) :
    FailsOnly S (elemAtInt v i) := by
  unfold elemAtInt
  split
  · exact fun e h => Except.error.inj h ▸ hS
  · exact elemAt_fails hS v _

theorem rawGet_of_lt {v : List α} {i : ℕ} (h : i < v.length) : rawGet v i = .ok v[i] := by
  simp [rawGet, h]

/-! ### Vectors of vectors -/

/-- `v.at(i).at(j)`. -/
def elemAt₂ (v : List (List α)) (i j : ℕ) : Except Fault α := do
  let row ← elemAt v i
  elemAt row j

/-- `v.at(i).at(j)` for `int`s. -/
def elemAtInt₂ (v : List (List α)) (i j : ℤ) : Except Fault α := do
  let row ← elemAtInt v i
  elemAtInt row j

/-- The `int`s from `a` up to `b`: the turns of `for (i = a; i < b; i++)`. -/
def intRange (a b : ℤ) : List ℤ := (List.range (b - a).toNat).map fun k => a + (k : ℕ)

/-- The copy of an `int**` into a vector of `rows` vectors of `cols` elements. -/
def readRows (p : List (List α)) (rows cols : ℕ) : Except Fault (List (List α)) :=
  (List.range rows).mapM fun i => (List.range cols).mapM fun j => do
    let row ← rawGet p i
    rawGet row j

theorem mem_intRange {a b i : ℤ} : i ∈ intRange a b ↔ a ≤ i ∧ i < b := by
  unfold intRange
  rw [List.mem_map]
  constructor
  · intro ⟨k, hk, hi⟩
    rw [List.mem_range] at hk
    omega
  · intro ⟨ha, hb⟩
    exact ⟨(i - a).toNat, by rw [List.mem_range]; omega, by omega⟩

theorem elemAt_row {v : List (List α)} {i : ℕ} (hi : i < v.length) :
    elemAt v i = .ok (v.getD i []) := by
  rw [elemAt_of_lt hi, List.getD_eq_getElem _ _ hi]

/-- The rows need not all be of one length. -/
theorem elemAt₂_of_row {v : List (List ℤ)} {i j : ℕ} (hi : i < v.length)
    (hj : j < (v.getD i []).length) : elemAt₂ v i j = .ok (entry v i j) := by
  unfold elemAt₂
  rw [elemAt_row hi, ok_bind, elemAt_of_lt hj, entry, List.getD_eq_getElem _ _ hj]

theorem elemAt₂_of_lt {n : ℕ} {v : List (List ℤ)} (h : Rect n v) {i j : ℕ} (hi : i < v.length)
    (hj : j < n) : elemAt₂ v i j = .ok (entry v i j) :=
  elemAt₂_of_row hi (by rwa [h.length_getD hi])

theorem elemAt₂_fails {S : Fault → Prop} (hS : S .outOfRange) (v : List (List α)) (i j : ℕ) :
    FailsOnly S (elemAt₂ v i j) :=
  (elemAt_fails hS v i).bind fun row _ => elemAt_fails hS row j

theorem elemAtInt₂_natCast (v : List (List α)) (i j : ℕ) : elemAtInt₂ v i j = elemAt₂ v i j := by
  simp only [elemAtInt₂, elemAt₂, elemAtInt_natCast]

theorem readRows_of_rect {n : ℕ} {v : List (List ℤ)} (h : Rect n v) :
    readRows v v.length n = .ok v := by
  refine Eq.trans (mapM_table fun i hi j hj => ?_) (congrArg Except.ok h.eq_table.symm)
  have hj' : j < v[i].length := by rwa [h _ (List.getElem_mem hi)]
  rw [rawGet_of_lt hi, ok_bind, rawGet_of_lt hj', entry, List.getD_eq_getElem _ _ hi,
    List.getD_eq_getElem _ _ hj']

/-! ### C arrays -/

/-- An `int` array; a cell is `none` until it is written. -/
abbrev CArray := List (Option ℤ)

/-- `int data[n];` -/
def CArray.declare (n : ℕ) : CArray := List.replicate n none

/-- `data[i] = v`. -/
def CArray.store (data : CArray) (i : ℕ) (v : ℤ) : Except Fault CArray :=
  if i < data.length then .ok (data.set i (some v)) else .error .undefined

/-- `data[i]`. -/
def CArray.load (data : CArray) (i : ℕ) : Except Fault ℤ :=
  match data[i]? with
  | some (some v) => .ok v
  | _ => .error .undefined

/-- The whole array, every cell of it written. -/
def CArray.contents (data : CArray) : Except Fault (List ℤ) :=
  (List.range data.length).mapM data.load

/-- An array of `vs.length` cells, the first `k` written with those of `vs`. -/
def CArray.upTo (vs : List ℤ) (k : ℕ) : CArray :=
  (vs.take k).map some ++ List.replicate (vs.length - k) none

/-- A vector's elements, every cell written. -/
def CArray.ofList (vs : List ℤ) : CArray := vs.map some

theorem CArray.upTo_zero (vs : List ℤ) : CArray.upTo vs 0 = CArray.declare vs.length := by
  simp [upTo, declare]

theorem CArray.upTo_length (vs : List ℤ) : CArray.upTo vs vs.length = CArray.ofList vs := by
  simp [upTo, ofList]

theorem CArray.store_upTo {vs : List ℤ} {k : ℕ} {v : ℤ} (h : vs[k]? = some v) :
    (CArray.upTo vs k).store k v = .ok (CArray.upTo vs (k + 1)) := by
  obtain ⟨hk, rfl⟩ := List.getElem?_eq_some_iff.mp h
  have hlen : k < (CArray.upTo vs k).length := by simp [upTo]; omega
  have htake : ((vs.take k).map some).length = k := by simp; omega
  have hrep : List.replicate (vs.length - k) (none : Option ℤ) =
      none :: List.replicate (vs.length - (k + 1)) none := by
    rw [← List.replicate_succ]; congr 1; omega
  rw [store, if_pos hlen, Except.ok.injEq, upTo, List.set_append_right _ _ (by omega), htake,
    Nat.sub_self, hrep, List.set_cons_zero, upTo, List.take_succ_eq_append_getElem hk,
    List.map_append,
    List.append_assoc]
  rfl

theorem CArray.load_ofList {vs : List ℤ} {k : ℕ} {v : ℤ} (h : vs[k]? = some v) :
    (CArray.ofList vs).load k = .ok v := by
  simp [load, ofList, h]

theorem CArray.contents_ofList (vs : List ℤ) : (CArray.ofList vs).contents = .ok vs := by
  have hlen : (CArray.ofList vs).length = vs.length := by simp [ofList]
  unfold contents
  rw [hlen, mapM_ok (g := fun i => vs.getD i 0)]
  · congr 1
    refine List.ext_getElem (by simp) fun i hi _ => ?_
    simp_all
  · intro i hi
    apply load_ofList
    rw [List.mem_range] at hi
    rw [List.getElem?_eq_getElem hi, List.getD_eq_getElem _ _ hi]

end IcnDemo
