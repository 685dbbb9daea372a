/-
# Patterns of characters and wildcards, searched for in lines

A basic regular expression without brackets, stars and anchors is a list of
items, each a character or a wildcard that stands for any one (`ofText`). It
matches at the start of a text (`matchesPrefix`) or anywhere in a line
(`matchesLine`, what `grep` keeps a line for). A pattern that starts with a
literal occurring once in the line matches the line exactly when the rest of it
matches what follows that literal (`matchesLine_of_key`).

`firstField` is `awk '{print $1}'` and `dropPrefix` is `sed 's/^prefix//'`, for
one line each.
-/
import Mathlib.Tactic.Common
import Mathlib.Data.List.Basic
import Mathlib.Data.List.Infix
import Mathlib.Data.Nat.Notation

namespace Lib
namespace Grep

variable {α : Type} [DecidableEq α]

/-! ### Matching at the start -/

/-- The pattern a text is, if `dot` is the wildcard. -/
def ofText (dot : α) (text : List α) : List (Option α) :=
  text.map fun c => if c = dot then none else some c

/-- The pattern matches a beginning of the text. -/
def matchesPrefix : List (Option α) → List α → Bool
  | [], _ => true
  | _ :: _, [] => false
  | none :: p, _ :: s => matchesPrefix p s
  | some a :: p, c :: s => decide (a = c) && matchesPrefix p s

@[simp] theorem matchesPrefix_nil (s : List α) : matchesPrefix [] s = true := by
  unfold matchesPrefix
  rfl

@[simp] theorem matchesPrefix_cons_nil (i : Option α) (p : List (Option α)) :
    matchesPrefix (i :: p) [] = false := by
  unfold matchesPrefix
  rfl

@[simp] theorem matchesPrefix_any (p : List (Option α)) (c : α) (s : List α) :
    matchesPrefix (none :: p) (c :: s) = matchesPrefix p s := rfl

@[simp] theorem matchesPrefix_char (a : α) (p : List (Option α)) (c : α) (s : List α) :
    matchesPrefix (some a :: p) (c :: s) = (decide (a = c) && matchesPrefix p s) := rfl

theorem ofText_append (dot : α) (s t : List α) :
    ofText dot (s ++ t) = ofText dot s ++ ofText dot t := List.map_append

/-- A text without the wildcard is a literal. -/
theorem ofText_literal {dot : α} {s : List α} (h : dot ∉ s) : ofText dot s = s.map some := by
  refine List.map_congr_left fun c hc => if_neg ?_
  intro heq
  exact h (heq ▸ hc)

/-- A literal matches what starts with it. -/
theorem matchesPrefix_literal_append (q : List (Option α)) :
    ∀ (l s : List α), matchesPrefix (l.map some ++ q) (l ++ s) = matchesPrefix q s
  | [], _ => rfl
  | a :: l, s => by
    show (decide (a = a) && matchesPrefix (l.map some ++ q) (l ++ s)) = _
    rw [decide_eq_true rfl, Bool.true_and, matchesPrefix_literal_append q l s]

theorem prefix_of_matchesPrefix_literal {q : List (Option α)} :
    ∀ {l s : List α}, matchesPrefix (l.map some ++ q) s = true → l <+: s
  | [], _, _ => List.nil_prefix
  | a :: l, [], h => by simp at h
  | a :: l, c :: s, h => by
    rw [List.map_cons, List.cons_append, matchesPrefix_char, Bool.and_eq_true,
      decide_eq_true_eq] at h
    obtain ⟨rfl, h⟩ := h
    rw [List.prefix_cons_inj]
    exact prefix_of_matchesPrefix_literal h

/-- A text matches itself. -/
theorem matchesPrefix_self (dot : α) : ∀ s : List α, matchesPrefix (ofText dot s) s = true
  | [] => rfl
  | c :: s => by
    have ih := matchesPrefix_self dot s
    unfold ofText at ih ⊢
    rw [List.map_cons]
    by_cases hc : c = dot
    · rw [if_pos hc, matchesPrefix_any, ih]
    · rw [if_neg hc, matchesPrefix_char, ih, decide_eq_true rfl]
      rfl

/-- What follows a text that matches does not matter. -/
theorem matchesPrefix_append_right (t : List α) :
    ∀ {p : List (Option α)} {s : List α}, matchesPrefix p s = true → matchesPrefix p (s ++ t) = true
  | [], _, _ => by simp
  | _ :: _, [], h => by simp at h
  | none :: p, c :: s, h => by
    rw [List.cons_append, matchesPrefix_any]
    exact matchesPrefix_append_right t (by simpa using h)
  | some a :: p, c :: s, h => by
    rw [matchesPrefix_char, Bool.and_eq_true] at h
    rw [List.cons_append, matchesPrefix_char, h.1, matchesPrefix_append_right t h.2]
    rfl

/-- **A terminator can only be met by a wildcard.** Where `b` is followed by a
character `stop` that `a` does not have, and `a` has no more wildcards than `b`
has characters `dot`, the pattern `a` ends within `b`. -/
theorem matchesPrefix_of_terminated {dot stop : α} {rest : List α} :
    ∀ {a b : List α}, stop ∉ a → a.count dot ≤ b.count dot →
      matchesPrefix (ofText dot a) (b ++ stop :: rest) = true → matchesPrefix (ofText dot a) b = true
  | [], _, _, _, _ => by simp [ofText]
  | c :: a, [], hstop, hcount, h => by
    -- `b` has no `dot`, so `c` is none, and it is not `stop` either
    have hc : c ≠ dot := by
      rintro rfl
      simp at hcount
    have hne : c ≠ stop := fun heq => hstop (heq ▸ List.mem_cons_self)
    simp [ofText, hc, hne] at h
  | c :: a, d :: b, hstop, hcount, h => by
    have hstop' : stop ∉ a := fun hmem => hstop (List.mem_cons_of_mem _ hmem)
    rw [List.count_cons, List.count_cons] at hcount
    unfold ofText at h ⊢
    rw [List.map_cons] at h ⊢
    by_cases hc : c = dot
    · rw [if_pos hc, List.cons_append, matchesPrefix_any] at h
      rw [if_pos hc, matchesPrefix_any]
      refine matchesPrefix_of_terminated hstop' ?_ h
      -- a wildcard of `a` is used up, and at most one `dot` of `b`
      rw [if_pos (beq_iff_eq.mpr hc)] at hcount
      have hle : (if (d == dot) = true then 1 else 0) ≤ 1 := by split <;> omega
      omega
    · rw [if_neg hc, List.cons_append, matchesPrefix_char, Bool.and_eq_true,
        decide_eq_true_eq] at h
      obtain ⟨rfl, h⟩ := h
      rw [if_neg hc, matchesPrefix_char, decide_eq_true rfl, Bool.true_and]
      exact matchesPrefix_of_terminated hstop' (by omega) h

/-! ### Matching in a line -/

/-- The pattern matches somewhere in the line. -/
def matchesLine (p : List (Option α)) (line : List α) : Bool := line.tails.any (matchesPrefix p)

theorem matchesLine_iff {p : List (Option α)} {line : List α} :
    matchesLine p line = true ↔ ∃ s, s <:+ line ∧ matchesPrefix p s = true := by
  unfold matchesLine
  rw [List.any_eq_true]
  simp only [List.mem_tails]

omit [DecidableEq α] in
/-- A suffix that starts with a character the first part does not have stands in
the second. -/
theorem suffix_of_notMem {c : α} {s : List α} :
    ∀ {u v : List α}, c ∉ u → (c :: s) <:+ u ++ v → (c :: s) <:+ v
  | [], _, _, h => h
  | a :: u, v, hu, h => by
    rcases List.suffix_cons_iff.mp (List.cons_append ▸ h) with heq | h
    · exact absurd (List.cons.inj heq).1 fun hca => hu (hca ▸ List.mem_cons_self)
    · exact suffix_of_notMem (fun hmem => hu (List.mem_cons_of_mem _ hmem)) h

/-- **A pattern that starts with a key matches where the key stands.** The line
is `u`, the key `c :: key`, `v` and `w`; neither `u`, nor the rest of the key,
nor `v` has the character `c`, and the key does not occur in `w`. -/
theorem matchesLine_of_key {c : α} {key u v w : List α} {q : List (Option α)} (hu : c ∉ u)
    (hkey : c ∉ key) (hv : c ∉ v) (hw : ¬ (c :: key) <:+: w) :
    matchesLine ((c :: key).map some ++ q) (u ++ ((c :: key) ++ (v ++ w))) =
      matchesPrefix q (v ++ w) := by
  rw [Bool.eq_iff_iff, matchesLine_iff]
  refine ⟨fun ⟨s, hs, hmatch⟩ => ?_, fun h => ?_⟩
  · obtain ⟨s', rfl⟩ := prefix_of_matchesPrefix_literal hmatch
    rw [List.cons_append] at hs hmatch
    -- the match starts in `c :: key ++ (v ++ w)`: at its head, or in `w`
    have hs := suffix_of_notMem hu hs
    rw [List.cons_append] at hs
    rcases List.suffix_cons_iff.mp hs with heq | hs
    · rw [← List.cons_append, matchesPrefix_literal_append] at hmatch
      rw [← List.append_cancel_left (List.cons.inj heq).2]
      exact hmatch
    · have hs := suffix_of_notMem hv (suffix_of_notMem hkey hs)
      have hin : (c :: key) <:+: c :: (key ++ s') := (List.prefix_append (c :: key) s').isInfix
      exact absurd (hin.trans hs.isInfix) hw
  · refine ⟨(c :: key) ++ (v ++ w), List.suffix_append u _, ?_⟩
    rw [matchesPrefix_literal_append]
    exact h

/-! ### Fields -/

/-- `awk '{print $1}'`, for one line: the first of the fields between blanks. -/
def firstField (blank : α → Bool) (line : List α) : List α :=
  (line.dropWhile blank).takeWhile fun c => !blank c

omit [DecidableEq α] in
theorem firstField_eq {blank : α → Bool} {word rest : List α} {b : α}
    (hword : ∀ c ∈ word, blank c = false) (hne : word ≠ []) (hb : blank b = true) :
    firstField blank (word ++ b :: rest) = word := by
  obtain ⟨c, word, rfl⟩ := List.exists_cons_of_ne_nil hne
  unfold firstField
  rw [List.cons_append, List.dropWhile_cons_of_neg (by simp [hword c List.mem_cons_self]),
    ← List.cons_append, List.takeWhile_append_of_pos fun d hd => by simp [hword d hd]]
  simp [hb]

omit [DecidableEq α] in
/-- What stands before the first separator, and what follows it. -/
theorem eq_of_separated {c : α} : ∀ {u v s t : List α}, c ∉ u → c ∉ v →
    u ++ c :: s = v ++ c :: t → u = v ∧ s = t
  | [], [], _, _, _, _, h => ⟨rfl, (List.cons.inj h).2⟩
  | [], b :: v, _, _, _, hv, h => absurd (List.cons.inj h).1 (List.ne_of_not_mem_cons hv)
  | a :: u, [], _, _, hu, _, h => absurd (List.cons.inj h).1.symm (List.ne_of_not_mem_cons hu)
  | a :: u, b :: v, s, t, hu, hv, h => by
    obtain ⟨hab, htail⟩ := List.cons.inj h
    obtain ⟨huv, hst⟩ := eq_of_separated (List.not_mem_of_not_mem_cons hu)
      (List.not_mem_of_not_mem_cons hv) htail
    exact ⟨by rw [hab, huv], hst⟩

/-- `sed 's/^key//'`, for one line. -/
def dropPrefix (key line : List α) : List α :=
  if key <+: line then line.drop key.length else line

@[simp] theorem dropPrefix_append (key s : List α) : dropPrefix key (key ++ s) = s := by
  unfold dropPrefix
  rw [if_pos (List.prefix_append key s), List.drop_left]

end Grep
end Lib
