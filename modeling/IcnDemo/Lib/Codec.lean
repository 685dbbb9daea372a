/-
# Codes read from the left

An encoding of symbols that a decoder reads one symbol at a time from the left
decodes whole texts (`decode_flatMap`). Fields put after a separator none of
them holds are read back by taking up to the next separator (`takeWhile_field`),
and determine one another (`fields_injective`). Hexadecimal digits, in both
cases, are the standard instance (`hexByte`).
-/
import Mathlib.Data.List.Basic
import Mathlib.Tactic.Common

namespace Lib
namespace Codec

variable {α β : Type}

/-- A decoder that reads each code and leaves the rest decodes whole texts. -/
theorem decode_flatMap {enc : α → List β} {dec : List β → List α} (hnil : dec [] = []) :
    ∀ s : List α, (∀ a ∈ s, ∀ rest, dec (enc a ++ rest) = a :: dec rest) →
      dec (s.flatMap enc) = s
  | [], _ => hnil
  | a :: s, h => by
    rw [List.flatMap_cons, h a List.mem_cons_self,
      decode_flatMap hnil s fun b hb => h b (List.mem_cons_of_mem _ hb)]

/-! ### Fields after separators -/

variable [DecidableEq β]

theorem takeWhile_field {sep : β} {field rest : List β} (h : sep ∉ field)
    (hrest : rest = [] ∨ ∃ tail, rest = sep :: tail) :
    (field ++ rest).takeWhile (· ≠ sep) = field := by
  have hall : ∀ b ∈ field, (decide (b ≠ sep)) = true := by
    intro b hb
    have hne : b ≠ sep := fun he => h (he ▸ hb)
    simpa using hne
  rw [List.takeWhile_append_of_pos hall]
  rcases hrest with rfl | ⟨tail, rfl⟩
  · simp
  · simp

/-- Fields without the separator are determined by their joined text. -/
theorem fields_injective {sep : β} : ∀ {l l' : List (List β)}, (∀ f ∈ l, sep ∉ f) →
    (∀ f ∈ l', sep ∉ f) → (l.flatMap fun f => sep :: f) = (l'.flatMap fun f => sep :: f) → l = l'
  | [], [], _, _, _ => rfl
  | [], _ :: _, _, _, h => by simp at h
  | _ :: _, [], _, _, h => by simp at h
  | f :: l, f' :: l', hl, hl', h => by
    have hshape : ∀ l : List (List β), (l.flatMap fun f => sep :: f) = [] ∨
        ∃ tail, (l.flatMap fun f => sep :: f) = sep :: tail := by
      intro l
      cases l with
      | nil => exact Or.inl rfl
      | cons g l => exact Or.inr ⟨g ++ l.flatMap fun f => sep :: f, by simp⟩
    simp only [List.flatMap_cons, List.cons_append, List.cons.injEq, true_and] at h
    have hf : f = f' := by
      rw [← takeWhile_field (hl f List.mem_cons_self) (hshape l), h,
        takeWhile_field (hl' f' List.mem_cons_self) (hshape l')]
    subst hf
    rw [fields_injective (fun g hg => hl g (List.mem_cons_of_mem _ hg))
      (fun g hg => hl' g (List.mem_cons_of_mem _ hg)) (List.append_cancel_left h)]

/-! ### Hexadecimal -/

/-- The hexadecimal digit of `n < 16`, as an ASCII byte. -/
def hexDigit (upper : Bool) (n : ℕ) : UInt8 :=
  if n < 10 then UInt8.ofNat (0x30 + n)
  else UInt8.ofNat ((if upper then 0x41 else 0x61) + (n - 10))

/-- Two digits for a byte. -/
def hexByte (upper : Bool) (b : UInt8) : List UInt8 :=
  [hexDigit upper (b.toNat / 16), hexDigit upper (b.toNat % 16)]

theorem div_sixteen_lt (b : UInt8) : b.toNat / 16 < 16 := by
  have := b.toNat_lt; omega

/-- What holds of every digit holds of both digits of a byte. -/
theorem forall_mem_hexByte (P : UInt8 → Prop) {upper : Bool}
    (h : ∀ n < 16, P (hexDigit upper n)) (b : UInt8) : ∀ c ∈ hexByte upper b, P c := by
  intro c hc
  simp only [hexByte, List.mem_cons, List.not_mem_nil, or_false] at hc
  rcases hc with rfl | rfl
  · exact h _ (div_sixteen_lt b)
  · exact h _ (Nat.mod_lt _ (by decide))

theorem ofNat_div_mod (b : UInt8) : UInt8.ofNat (16 * (b.toNat / 16) + b.toNat % 16) = b := by
  rw [Nat.div_add_mod, UInt8.ofNat_toNat]

end Codec
end Lib
