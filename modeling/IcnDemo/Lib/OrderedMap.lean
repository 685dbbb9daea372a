/-
# Ordered maps with the greatest key first

`DescMap` is a map as a list of entries whose keys decrease, with that as a field.
Its operations are said by what entries they leave (`mem_emplace`, `mem_assign`,
`mem_eraseIf`), and a map is determined by its entries (`ext_mem`). `lowerBound k` is
the entry with the greatest key that is not above `k` (`lowerBound_eq_some_iff`).
-/
import Mathlib.Data.List.Nodup
import Mathlib.Data.List.Sort
import Mathlib.Order.Basic
import Mathlib.Tactic.Common

namespace Lib
namespace OrderedMap

/-- A map with its entries in the order of decreasing keys. -/
structure DescMap (κ ν : Type) [LT κ] where
  entries : List (κ × ν)
  sorted : entries.Pairwise fun a b => b.1 < a.1

namespace DescMap

variable {κ ν : Type} [LinearOrder κ]

instance : Membership (κ × ν) (DescMap κ ν) := ⟨fun m e => e ∈ m.entries⟩

theorem mem_def {m : DescMap κ ν} {e : κ × ν} : e ∈ m ↔ e ∈ m.entries := Iff.rfl

def empty : DescMap κ ν := ⟨[], .nil⟩

@[simp] theorem not_mem_empty (e : κ × ν) : ¬ e ∈ (empty : DescMap κ ν) := by
  simp [mem_def, empty]

theorem eq_of_key_eq {m : DescMap κ ν} {e e' : κ × ν} (h : e ∈ m) (h' : e' ∈ m)
    (hkey : e.1 = e'.1) : e = e' := by
  have hnodup : (m.entries.map Prod.fst).Nodup :=
    List.pairwise_map.mpr (m.sorted.imp fun h => ne_of_gt h)
  exact List.inj_on_of_nodup_map hnodup h h' hkey

/-- Maps with the same entries are equal. -/
theorem ext_mem {m m' : DescMap κ ν} (h : ∀ e, e ∈ m ↔ e ∈ m') : m = m' := by
  obtain ⟨es, hes⟩ := m
  obtain ⟨es', hes'⟩ := m'
  have hnodup : ∀ {l : List (κ × ν)}, l.Pairwise (fun a b => b.1 < a.1) → l.Nodup :=
    fun hl => List.Pairwise.imp (fun {a b} h (he : a = b) => ne_of_gt h (congrArg Prod.fst he)) hl
  have hperm : es.Perm es' := (List.perm_ext_iff_of_nodup (hnodup hes) (hnodup hes')).mpr h
  have heq : es = es' := hperm.eq_of_pairwise
    (fun a b _ _ hab hba => absurd hab (lt_asymm hba)) hes hes'
  subst heq
  rfl

/-! ### Lookup -/

/-- The first entry whose key is not before `k`: the greatest key up to `k`. -/
def lowerBound (m : DescMap κ ν) (k : κ) : Option (κ × ν) :=
  m.entries.find? fun e => e.1 ≤ k

/-- The entry after `k`: the greatest key below. -/
def next (m : DescMap κ ν) (k : κ) : Option (κ × ν) :=
  m.entries.find? fun e => e.1 < k

theorem find?_eq_some_iff {p : κ × ν → Bool} {e : κ × ν} :
    ∀ {l : List (κ × ν)}, l.Pairwise (fun a b => b.1 < a.1) →
      (l.find? p = some e ↔ e ∈ l ∧ p e = true ∧ ∀ e' ∈ l, p e' = true → e'.1 ≤ e.1)
  | [], _ => by simp
  | a :: l, h => by
    obtain ⟨ha, hl⟩ := List.pairwise_cons.mp h
    by_cases hp : p a = true
    · rw [List.find?_cons_of_pos hp]
      simp only [Option.some.injEq, List.mem_cons, forall_eq_or_imp]
      constructor
      · rintro rfl
        exact ⟨.inl rfl, hp, fun _ => le_refl _, fun e' he' _ => le_of_lt (ha e' he')⟩
      · rintro ⟨rfl | he, -, hle, -⟩
        · rfl
        · exact absurd (ha e he) (not_lt.mpr (hle hp))
    · rw [List.find?_cons_of_neg hp, find?_eq_some_iff hl]
      simp only [List.mem_cons, forall_eq_or_imp]
      constructor
      · rintro ⟨he, hpe, hle⟩
        exact ⟨.inr he, hpe, fun h => absurd h hp, hle⟩
      · rintro ⟨rfl | he, hpe, -, hle⟩
        · exact absurd hpe hp
        · exact ⟨he, hpe, hle⟩

theorem lowerBound_eq_some_iff {m : DescMap κ ν} {k : κ} {e : κ × ν} :
    m.lowerBound k = some e ↔ e ∈ m ∧ e.1 ≤ k ∧ ∀ e' ∈ m, e'.1 ≤ k → e'.1 ≤ e.1 := by
  unfold lowerBound
  rw [find?_eq_some_iff m.sorted]
  simp [mem_def]

theorem next_eq_some_iff {m : DescMap κ ν} {k : κ} {e : κ × ν} :
    m.next k = some e ↔ e ∈ m ∧ e.1 < k ∧ ∀ e' ∈ m, e'.1 < k → e'.1 ≤ e.1 := by
  unfold next
  rw [find?_eq_some_iff m.sorted]
  simp [mem_def]

theorem lowerBound_eq_none_iff {m : DescMap κ ν} {k : κ} :
    m.lowerBound k = none ↔ ∀ e ∈ m, k < e.1 := by
  unfold lowerBound
  rw [List.find?_eq_none]
  simp [mem_def]

/-- There is a lower bound where there is any key up to `k`. -/
theorem exists_lowerBound {m : DescMap κ ν} {k : κ} {e : κ × ν} (he : e ∈ m) (hle : e.1 ≤ k) :
    ∃ e', m.lowerBound k = some e' ∧ e.1 ≤ e'.1 := by
  cases h : m.lowerBound k with
  | none => exact absurd (lowerBound_eq_none_iff.mp h e he) (not_lt.mpr hle)
  | some e' => exact ⟨e', rfl, (lowerBound_eq_some_iff.mp h).2.2 e he hle⟩

/-- Maps with the same entries up to `k` have the same lower bound of `k`. -/
theorem lowerBound_congr {m m' : DescMap κ ν} {k : κ}
    (h : ∀ e : κ × ν, e.1 ≤ k → (e ∈ m ↔ e ∈ m')) : m.lowerBound k = m'.lowerBound k := by
  ext e
  rw [lowerBound_eq_some_iff, lowerBound_eq_some_iff]
  constructor
  · rintro ⟨he, hle, hmax⟩
    exact ⟨(h e hle).mp he, hle, fun e' he' hle' => hmax e' ((h e' hle').mpr he') hle'⟩
  · rintro ⟨he, hle, hmax⟩
    exact ⟨(h e hle).mpr he, hle, fun e' he' hle' => hmax e' ((h e' hle').mp he') hle'⟩

/-- Where no key lies above `k` and up to `c`, both have the same lower bound. -/
theorem lowerBound_of_gap {m : DescMap κ ν} {k c : κ} (hkc : k ≤ c)
    (hgap : ∀ e ∈ m, e.1 ≤ c → e.1 ≤ k) : m.lowerBound c = m.lowerBound k := by
  ext e
  rw [lowerBound_eq_some_iff, lowerBound_eq_some_iff]
  constructor
  · rintro ⟨he, hle, hmax⟩
    exact ⟨he, hgap e he hle, fun e' he' hle' => hmax e' he' (le_trans hle' hkc)⟩
  · rintro ⟨he, hle, hmax⟩
    exact ⟨he, le_trans hle hkc, fun e' he' hle' => hmax e' he' (hgap e' he' hle')⟩

/-- Where maps have the same entries above `k`, one of them up to `c`, both have the same
lower bound of `c`. -/
theorem lowerBound_above {m m' : DescMap κ ν} {k c : κ} {e : κ × ν} (he : e ∈ m) (hke : k < e.1)
    (hec : e.1 ≤ c) (h : ∀ e : κ × ν, k < e.1 → (e ∈ m' ↔ e ∈ m)) :
    ∃ e', k < e'.1 ∧ m.lowerBound c = some e' ∧ m'.lowerBound c = some e' := by
  obtain ⟨e', he', hle⟩ := exists_lowerBound he hec
  obtain ⟨hmem, hec', hmax⟩ := lowerBound_eq_some_iff.mp he'
  have hke' : k < e'.1 := lt_of_lt_of_le hke hle
  refine ⟨e', hke', he', lowerBound_eq_some_iff.mpr ⟨(h e' hke').mpr hmem, hec', ?_⟩⟩
  intro e'' he'' hle''
  rcases lt_or_ge k e''.1 with hk | hk
  · exact hmax e'' ((h e'' hk).mp he'') hle''
  · exact le_of_lt (lt_of_le_of_lt hk hke')

/-! ### Changes -/

/-- The entry in its place, unless the key is there. -/
def insertEntry (k : κ) (v : ν) : List (κ × ν) → List (κ × ν)
  | [] => [(k, v)]
  | e :: es =>
    if e.1 < k then (k, v) :: e :: es
    else if e.1 = k then e :: es
    else e :: insertEntry k v es

theorem mem_insertEntry {k : κ} {v : ν} {e : κ × ν} : ∀ {es : List (κ × ν)},
    es.Pairwise (fun a b => b.1 < a.1) →
    (e ∈ insertEntry k v es ↔ e ∈ es ∨ (e = (k, v) ∧ ∀ e' ∈ es, e'.1 ≠ k))
  | [], _ => by simp [insertEntry]
  | a :: es, h => by
    obtain ⟨ha, hes⟩ := List.pairwise_cons.mp h
    unfold insertEntry
    by_cases h1 : a.1 < k
    · rw [if_pos h1]
      have hall : ∀ e' ∈ a :: es, e'.1 ≠ k := by
        intro e' he'
        rcases List.mem_cons.mp he' with rfl | he'
        · exact ne_of_lt h1
        · exact ne_of_lt (lt_trans (ha e' he') h1)
      simp only [List.mem_cons] at hall ⊢
      constructor
      · rintro (h | h)
        · exact .inr ⟨h, hall⟩
        · exact .inl h
      · rintro (h | ⟨h, -⟩)
        · exact .inr h
        · exact .inl h
    · by_cases h2 : a.1 = k
      · rw [if_neg h1, if_pos h2]
        constructor
        · exact .inl
        · rintro (h | ⟨-, h⟩)
          · exact h
          · exact absurd h2 (h a List.mem_cons_self)
      · rw [if_neg h1, if_neg h2, List.mem_cons, mem_insertEntry hes]
        simp only [List.mem_cons, forall_eq_or_imp]
        constructor
        · rintro (h | h | ⟨h, h'⟩)
          · exact .inl (.inl h)
          · exact .inl (.inr h)
          · exact .inr ⟨h, h2, h'⟩
        · rintro ((h | h) | ⟨h, -, h'⟩)
          · exact .inl h
          · exact .inr (.inl h)
          · exact .inr (.inr ⟨h, h'⟩)

theorem insertEntry_sorted {k : κ} {v : ν} : ∀ {es : List (κ × ν)},
    es.Pairwise (fun a b => b.1 < a.1) → (insertEntry k v es).Pairwise fun a b => b.1 < a.1
  | [], _ => List.pairwise_singleton _ _
  | a :: es, h => by
    obtain ⟨ha, hes⟩ := List.pairwise_cons.mp h
    unfold insertEntry
    by_cases h1 : a.1 < k
    · rw [if_pos h1]
      refine List.pairwise_cons.mpr ⟨?_, h⟩
      intro e' he'
      rcases List.mem_cons.mp he' with rfl | he'
      · exact h1
      · exact lt_trans (ha e' he') h1
    · by_cases h2 : a.1 = k
      · rw [if_neg h1, if_pos h2]
        exact h
      · rw [if_neg h1, if_neg h2]
        refine List.pairwise_cons.mpr ⟨?_, insertEntry_sorted hes⟩
        intro e' he'
        rcases (mem_insertEntry hes).mp he' with he' | ⟨rfl, -⟩
        · exact ha e' he'
        · exact lt_of_le_of_ne (not_lt.mp h1) (Ne.symm h2)

/-- `emplace`: an entry that is there is kept. -/
def emplace (m : DescMap κ ν) (k : κ) (v : ν) : DescMap κ ν :=
  ⟨insertEntry k v m.entries, insertEntry_sorted m.sorted⟩

theorem mem_emplace {m : DescMap κ ν} {k : κ} {v : ν} {e : κ × ν} :
    e ∈ m.emplace k v ↔ e ∈ m ∨ (e = (k, v) ∧ ∀ e' ∈ m, e'.1 ≠ k) :=
  mem_insertEntry m.sorted

/-- `it->second = v` at the key `k`. -/
def assign (m : DescMap κ ν) (k : κ) (v : ν) : DescMap κ ν where
  entries := m.entries.map fun e => if e.1 = k then (e.1, v) else e
  sorted := by
    refine List.pairwise_map.mpr (m.sorted.imp ?_)
    intro a b h
    split_ifs <;> exact h

theorem mem_assign {m : DescMap κ ν} {k : κ} {v : ν} {e : κ × ν} :
    e ∈ m.assign k v ↔ (e ∈ m ∧ e.1 ≠ k) ∨ (e = (k, v) ∧ ∃ e' ∈ m, e'.1 = k) := by
  simp only [mem_def, assign, List.mem_map]
  constructor
  · rintro ⟨a, ha, rfl⟩
    by_cases h : a.1 = k
    · rw [if_pos h]
      exact .inr ⟨by rw [h], a, ha, h⟩
    · rw [if_neg h]
      exact .inl ⟨ha, h⟩
  · rintro (⟨he, hne⟩ | ⟨rfl, a, ha, h⟩)
    · exact ⟨e, he, if_neg hne⟩
    · exact ⟨a, ha, by rw [if_pos h, h]⟩

/-- The entries that do not satisfy `p`. -/
def eraseIf (m : DescMap κ ν) (p : κ → Bool) : DescMap κ ν :=
  ⟨m.entries.filter fun e => !p e.1, m.sorted.filter _⟩

theorem mem_eraseIf {m : DescMap κ ν} {p : κ → Bool} {e : κ × ν} :
    e ∈ m.eraseIf p ↔ e ∈ m ∧ p e.1 = false := by
  simp [mem_def, eraseIf]

end DescMap

end OrderedMap
end Lib
