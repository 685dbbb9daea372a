/-
# Integers in decimal text

How `<<` writes an `int` to a text stream (`printInt`) and how `>>` reads one
back (`readInt`): white space skipped, a sign, digits, failure if there are none
or the value is not in the range of the type. `readInts` reads until that fails.
Integers of the range, each followed by a space, are read back as they were
(`readInts_print`).
-/
import IcnDemo.Lib.Codec
import Mathlib.Algebra.Group.Nat.Defs
import Mathlib.Data.Int.Notation

namespace Lib
namespace DecimalText

open Codec

def printInt (i : ℤ) : List Char :=
  if i < 0 then '-' :: Nat.toDigits 10 i.natAbs else Nat.toDigits 10 i.natAbs

/-- `isspace` -/
def isSpace (c : Char) : Bool :=
  c = ' ' || c = '\t' || c = '\n' || c = '\x0b' || c = '\x0c' || c = '\r'

/-- Whether there is a minus sign, and what follows the sign. -/
def takeSign : List Char → Bool × List Char
  | '-' :: text => (true, text)
  | '+' :: text => (false, text)
  | text => (false, text)

/-- An integer from `low` to `high`, and the rest of the text. -/
def readInt (low high : ℤ) (text : List Char) : Option (ℤ × List Char) :=
  let body := takeSign (text.dropWhile isSpace)
  let digits := body.2.takeWhile Char.isDigit
  let n : ℤ := Nat.ofDigitChars 10 digits 0
  let i := if body.1 then -n else n
  if digits = [] ∨ i < low ∨ high < i then none else some (i, body.2.dropWhile Char.isDigit)

theorem takeSign_length_le : ∀ text : List Char, (takeSign text).2.length ≤ text.length := by
  intro text
  unfold takeSign
  split <;> simp

/-- Reading consumes text. -/
theorem readInt_rest_lt {low high i : ℤ} {text rest : List Char}
    (h : readInt low high text = some (i, rest)) : rest.length < text.length := by
  unfold readInt at h
  dsimp only at h
  rw [Option.ite_none_left_eq_some] at h
  obtain ⟨hcond, h⟩ := h
  obtain ⟨-, rfl⟩ := Prod.mk.inj (Option.some.inj h)
  set body := takeSign (text.dropWhile isSpace)
  have hdigits : 0 < (body.2.takeWhile Char.isDigit).length :=
    List.length_pos_iff.mpr fun he => hcond (Or.inl he)
  have hsplit := congrArg List.length
    (List.takeWhile_append_dropWhile (p := Char.isDigit) (l := body.2))
  rw [List.length_append] at hsplit
  have hbody : body.2.length ≤ _ := takeSign_length_le (text.dropWhile isSpace)
  have hdrop := (List.dropWhile_suffix isSpace (l := text)).length_le
  omega

/-- `while (in >> i)` -/
def readInts (low high : ℤ) (text : List Char) : List ℤ :=
  match _h : readInt low high text with
  | none => []
  | some (i, rest) => i :: readInts low high rest
termination_by text.length
decreasing_by exact readInt_rest_lt _h

variable {low high : ℤ}

theorem readInts_of_some {i : ℤ} {text rest : List Char}
    (h : readInt low high text = some (i, rest)) :
    readInts low high text = i :: readInts low high rest := by
  rw [readInts]
  split
  · rename_i hnone; rw [h] at hnone; cases hnone
  · rename_i i' rest' hsome
    rw [h] at hsome
    obtain ⟨rfl, rfl⟩ := Prod.mk.inj (Option.some.inj hsome)
    rfl

theorem readInts_of_none {text : List Char} (h : readInt low high text = none) :
    readInts low high text = [] := by
  unfold readInts
  split
  · rfl
  · rename_i hsome; rw [h] at hsome; cases hsome

/-! ### Round trip -/

theorem isDigit_of_mem {n : ℕ} {c : Char} (h : c ∈ Nat.toDigits 10 n) : c.isDigit = true :=
  Nat.isDigit_of_mem_toDigits (by decide) (by decide) h

/-- A digit is no sign and no space. -/
theorem not_special_of_isDigit {c : Char} (h : c.isDigit = true) :
    c ≠ '-' ∧ c ≠ '+' ∧ isSpace c = false := by
  refine ⟨?_, ?_, ?_⟩
  · rintro rfl; cases h
  · rintro rfl; cases h
  · rw [Bool.eq_false_iff]
    intro hs
    simp only [isSpace, Bool.or_eq_true, decide_eq_true_eq, or_assoc] at hs
    rcases hs with rfl | rfl | rfl | rfl | rfl | rfl <;> cases h

theorem takeSign_of_isDigit {c : Char} (h : c.isDigit = true) (text : List Char) :
    takeSign (c :: text) = (false, c :: text) := by
  obtain ⟨h1, h2, -⟩ := not_special_of_isDigit h
  unfold takeSign
  split
  · rename_i heq; exact absurd (List.cons.inj heq).1 h1
  · rename_i heq; exact absurd (List.cons.inj heq).1 h2
  · rfl

/-- The digits up to a space, and the rest from there. -/
theorem digits_then_space (n : ℕ) (rest : List Char) :
    (Nat.toDigits 10 n ++ ' ' :: rest).takeWhile Char.isDigit = Nat.toDigits 10 n ∧
      (Nat.toDigits 10 n ++ ' ' :: rest).dropWhile Char.isDigit = ' ' :: rest := by
  have hall : ∀ c ∈ Nat.toDigits 10 n, c.isDigit = true := fun c hc => isDigit_of_mem hc
  constructor
  · rw [List.takeWhile_append_of_pos hall]
    simp
  · rw [List.dropWhile_append_of_pos hall]
    simp

/-- The sign of a printed integer. -/
theorem takeSign_printInt (i : ℤ) (rest : List Char) :
    takeSign ((printInt i ++ rest).dropWhile isSpace) =
      (decide (i < 0), Nat.toDigits 10 i.natAbs ++ rest) := by
  unfold printInt
  split
  · rename_i hneg
    simp [takeSign, isSpace, hneg]
  · rename_i hneg
    obtain ⟨c, ds, hds⟩ := List.exists_cons_of_ne_nil (Nat.toDigits_ne_nil (n := i.natAbs) (b := 10))
    have hc : c.isDigit = true := isDigit_of_mem (n := i.natAbs) (by rw [hds]; exact List.mem_cons_self)
    rw [hds, List.cons_append, List.dropWhile_cons_of_neg (by simp [(not_special_of_isDigit hc).2.2]),
      takeSign_of_isDigit hc]
    simp [hneg]

/-- **A printed integer is read back.** -/
theorem readInt_printInt {i : ℤ} (h1 : low ≤ i) (h2 : i ≤ high) (rest : List Char) :
    readInt low high (printInt i ++ ' ' :: rest) = some (i, ' ' :: rest) := by
  obtain ⟨htake, hdrop⟩ := digits_then_space i.natAbs rest
  unfold readInt
  rw [takeSign_printInt]
  dsimp only
  rw [htake, hdrop, Nat.ofDigitChars_ten_toDigits]
  have hvalue : (if decide (i < 0) = true then -(i.natAbs : ℤ) else i.natAbs) = i := by
    by_cases hneg : i < 0
    · rw [if_pos (decide_eq_true hneg)]
      omega
    · rw [if_neg (by simpa using hneg)]
      omega
  rw [hvalue, if_neg]
  rintro (h | h | h)
  · exact Nat.toDigits_ne_nil h
  · omega
  · omega

theorem readInt_space (text : List Char) :
    readInt low high (' ' :: text) = readInt low high text := by
  simp [readInt, isSpace]

theorem readInts_space (text : List Char) :
    readInts low high (' ' :: text) = readInts low high text := by
  cases h : readInt low high text with
  | none => rw [readInts_of_none h, readInts_of_none (by rw [readInt_space, h])]
  | some r => rw [readInts_of_some h, readInts_of_some (by rw [readInt_space, h])]

/-- **Integers each followed by a space are read back.** -/
theorem readInts_print {is : List ℤ} (h : ∀ i ∈ is, low ≤ i ∧ i ≤ high) :
    readInts low high (is.flatMap fun i => printInt i ++ [' ']) = is := by
  refine decode_flatMap (readInts_of_none ?_) is fun i hi rest => ?_
  · simp [readInt, takeSign]
  · rw [List.append_assoc, List.singleton_append,
      readInts_of_some (readInt_printInt (h i hi).1 (h i hi).2 rest), readInts_space]

/-- Different naturals print differently. -/
theorem printInt_natCast_inj {m n : ℕ} (h : printInt m = printInt n) : m = n := by
  have hpos : ∀ k : ℕ, printInt k = Nat.toDigits 10 k := fun k => by
    unfold printInt
    rw [if_neg (by omega), Int.natAbs_natCast]
  rw [hpos, hpos] at h
  rw [← Nat.ofDigitChars_ten_toDigits (n := m), h, Nat.ofDigitChars_ten_toDigits]

theorem length_printInt_natCast_le {n k : ℕ} (hk : 0 < k) :
    (printInt n).length ≤ k ↔ n < 10 ^ k := by
  unfold printInt
  rw [if_neg (by omega), Int.natAbs_natCast, Nat.length_toDigits_le_iff (by decide) hk]

end DecimalText
end Lib
