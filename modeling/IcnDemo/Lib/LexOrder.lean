/-
# Lists in lexicographic order

Comparing lists item by item and then by length compares them in lexicographic
order (`compares_cons`), and so does comparing pairs by their parts
(`compares_toLex`). The lists that start with `p ++ [a]` are those from it up to
the list with the last item's successor (`append_singleton_isPrefix_iff`).
-/
import Mathlib.Data.List.Lex
import Mathlib.Data.Prod.Lex
import Mathlib.Order.Compare
import Mathlib.Tactic.Common

namespace Lib
namespace LexOrder

variable {α β : Type} [LinearOrder α] [LinearOrder β]

/-- The first items decide, and the rests if they are equal. -/
theorem compares_cons {o o' : Ordering} {a b : α} {as bs : List α} (h : o.Compares a b)
    (h' : o = .eq → o'.Compares as bs) : (o.then o').Compares (a :: as) (b :: bs) := by
  cases o with
  | lt => exact List.cons_lt_cons_iff.mpr (.inl h)
  | gt => exact List.cons_lt_cons_iff.mpr (.inl h)
  | eq =>
    have hab : a = b := h
    subst hab
    have hrest := h' rfl
    cases o' with
    | lt => exact List.cons_lt_cons_iff.mpr (.inr ⟨rfl, hrest⟩)
    | gt => exact List.cons_lt_cons_iff.mpr (.inr ⟨rfl, hrest⟩)
    | eq => exact congrArg (a :: ·) hrest

/-- The first parts decide, and the second ones if they are equal. -/
theorem compares_toLex {o o' : Ordering} {a b : α} {c d : β} (h : o.Compares a b)
    (h' : o = .eq → o'.Compares c d) : (o.then o').Compares (toLex (a, c)) (toLex (b, d)) := by
  cases o with
  | lt => exact Prod.Lex.toLex_lt_toLex.mpr (.inl h)
  | gt => exact Prod.Lex.toLex_lt_toLex.mpr (.inl h)
  | eq =>
    have hab : a = b := h
    subst hab
    have hrest := h' rfl
    cases o' with
    | lt => exact Prod.Lex.toLex_lt_toLex.mpr (.inr ⟨rfl, hrest⟩)
    | gt => exact Prod.Lex.toLex_lt_toLex.mpr (.inr ⟨rfl, hrest⟩)
    | eq => exact congrArg (fun x => toLex (a, x)) hrest

/-- The lists with the prefix `p ++ [a]` are those from it up to `p ++ [s]`, where no
item of the list lies between `a` and `s`. -/
theorem append_singleton_isPrefix_iff {a s : α} (has : a < s) :
    ∀ {p z : List α}, (∀ b ∈ z, a < b → s ≤ b) →
      (p ++ [a] <+: z ↔ p ++ [a] ≤ z ∧ z < p ++ [s])
  | [], [], _ => by
    simp only [List.nil_append]
    constructor
    · intro h
      simp at h
    · rintro ⟨h, -⟩
      exact absurd (List.nil_lt_cons a []) (not_lt.mpr h)
  | [], b :: z, hcov => by
    simp only [List.nil_append]
    rw [← not_lt, List.cons_lt_cons_iff, List.cons_lt_cons_iff]
    constructor
    · intro h
      obtain ⟨rfl, -⟩ := List.cons_prefix_cons.mp h
      exact ⟨by simp, .inl has⟩
    · rintro ⟨hge, hlt⟩
      have hba : ¬ b < a := fun h => hge (.inl h)
      have hbs : b < s := by
        rcases hlt with h | ⟨-, h⟩
        · exact h
        · exact absurd h (List.not_lt_nil z)
      have hab : a = b := by
        by_contra hne
        have h := hcov b List.mem_cons_self (lt_of_le_of_ne (not_lt.mp hba) hne)
        exact absurd hbs (not_lt.mpr h)
      rw [hab]
      exact List.cons_prefix_cons.mpr ⟨rfl, List.nil_prefix⟩
  | c :: p, [], _ => by
    rw [List.cons_append]
    constructor
    · intro h
      simp at h
    · rintro ⟨h, -⟩
      exact absurd (List.nil_lt_cons c (p ++ [a])) (not_lt.mpr h)
  | c :: p, b :: z, hcov => by
    rw [List.cons_append, List.cons_append, List.cons_prefix_cons, ← not_lt,
      List.cons_lt_cons_iff, List.cons_lt_cons_iff]
    have ih := append_singleton_isPrefix_iff has (p := p) (z := z)
      fun b hb => hcov b (List.mem_cons_of_mem _ hb)
    constructor
    · rintro ⟨rfl, h⟩
      obtain ⟨hle, hlt⟩ := ih.mp h
      refine ⟨?_, .inr ⟨rfl, hlt⟩⟩
      rintro (h | ⟨-, h⟩)
      · exact lt_irrefl c h
      · exact absurd h (not_lt.mpr hle)
    · rintro ⟨hge, hlt⟩
      have hbc : b = c := by
        rcases hlt with h | ⟨h, -⟩
        · exact absurd (.inl h) hge
        · exact h
      subst hbc
      refine ⟨rfl, ih.mpr ⟨not_lt.mp fun h => hge (.inr ⟨rfl, h⟩), ?_⟩⟩
      rcases hlt with h | ⟨-, h⟩
      · exact absurd h (lt_irrefl b)
      · exact h

end LexOrder
end Lib
