/-
# Balanced sequences

A sequence over a finite set `s` of values is balanced when every window of
`w` consecutive entries holds each value `⌊w / n⌋` or `⌈w / n⌉` times, `n` the
number of values. That is so exactly when entries less than `n` places apart
differ (`balanced_iff_spread`); the residues `0, 1, 2, ... mod n` are the
standard case (`spread_mod`).
-/
import Mathlib.Data.Finset.Card
import Mathlib.Data.Finset.Range
import Mathlib.Data.Int.ModEq
import Mathlib.Data.List.Nodup
import Mathlib.Tactic.Ring
import Mathlib.Tactic.Common

namespace Lib
namespace Rotation

variable {α : Type} [DecidableEq α]

/-- Every window of `w` consecutive entries of `l` holds each value of `s`
`⌊w / n⌋` or `⌈w / n⌉` times, `n = s.card`. -/
def Balanced (s : Finset α) (l : List α) : Prop :=
  ∀ a w, a + w ≤ l.length → ∀ v ∈ s,
    ((l.drop a).take w).count v = w / s.card ∨
    ((l.drop a).take w).count v = (w + s.card - 1) / s.card

/-- Entries less than `n` places apart differ. -/
def Spread (n : ℕ) (l : List α) : Prop :=
  ∀ i j, i < j → j < i + n → j < l.length → l[i]? ≠ l[j]?

omit [DecidableEq α] in
theorem Spread.nodup_window {n : ℕ} {l : List α} (h : Spread n l) {a w : ℕ} (hw : w ≤ n) :
    ((l.drop a).take w).Nodup := by
  rw [List.nodup_iff_getElem?_ne_getElem?]
  intro i j hij hj
  rw [List.length_take, List.length_drop] at hj
  rw [List.getElem?_take_of_lt (by omega), List.getElem?_take_of_lt (by omega),
    List.getElem?_drop, List.getElem?_drop]
  exact h (a + i) (a + j) (by omega) (by omega) (by omega)

/-- A window of `n` entries that differ holds each of the `n` values once. -/
theorem count_full_window {s : Finset α} {l : List α} (hl : ∀ x ∈ l, x ∈ s) (hn : l.Nodup)
    (hlen : l.length = s.card) {v : α} (hv : v ∈ s) : l.count v = 1 := by
  have hsub : l.toFinset ⊆ s := fun x hx => hl x (List.mem_toFinset.mp hx)
  have hcard : s.card ≤ l.toFinset.card := by
    rw [List.toFinset_card_of_nodup hn, hlen]
  have heq : l.toFinset = s := Finset.eq_of_subset_of_card_le hsub hcard
  exact List.count_eq_one_of_mem hn (List.mem_toFinset.mp (heq ▸ hv))

theorem Spread.balanced {s : Finset α} {l : List α} (hl : ∀ x ∈ l, x ∈ s)
    (h : Spread s.card l) : Balanced s l := by
  intro a w
  induction w using Nat.strong_induction_on generalizing a with
  | _ w ih =>
    intro haw v hv
    have hpos : 0 < s.card := Finset.card_pos.mpr ⟨v, hv⟩
    rcases Nat.lt_or_ge w s.card with hlt | hge
    · -- a window shorter than a turn holds no value twice
      have h1 : ((l.drop a).take w).count v ≤ 1 :=
        List.nodup_iff_count_le_one.mp (h.nodup_window (le_of_lt hlt)) v
      rcases Nat.eq_zero_or_pos w with rfl | hw
      · left; simp
      · have hfloor : w / s.card = 0 := Nat.div_eq_of_lt hlt
        have hceil : (w + s.card - 1) / s.card = 1 := by
          rw [Nat.div_eq_iff hpos]; omega
        omega
    · -- a full turn, then a shorter window
      obtain ⟨w', rfl⟩ : ∃ w', w = s.card + w' := ⟨w - s.card, by omega⟩
      have hfull : ((l.drop a).take s.card).count v = 1 :=
        count_full_window (fun x hx => hl x (List.mem_of_mem_drop (List.mem_of_mem_take hx)))
          (h.nodup_window (le_refl _)) (by rw [List.length_take, List.length_drop]; omega) hv
      have hrest := ih w' (by omega) (a + s.card) (by omega) v hv
      have hsplit : ((l.drop a).take (s.card + w')).count v =
          1 + ((l.drop (a + s.card)).take w').count v := by
        rw [List.take_add, List.count_append, hfull, List.drop_drop]
      have hfloor : (s.card + w') / s.card = 1 + w' / s.card := by
        rw [Nat.add_div_left _ hpos]; omega
      have hceil : (s.card + w' + s.card - 1) / s.card = 1 + (w' + s.card - 1) / s.card := by
        rw [show s.card + w' + s.card - 1 = s.card + (w' + s.card - 1) by omega,
          Nat.add_div_left _ hpos]
        omega
      rw [hsplit, hfloor, hceil]
      omega

theorem Balanced.spread {s : Finset α} {l : List α} (hl : ∀ x ∈ l, x ∈ s)
    (h : Balanced s l) : Spread s.card l := by
  intro i j hij hjn hj heq
  have hi : i < l.length := by omega
  have hv : l[i] ∈ s := hl _ (List.getElem_mem hi)
  have hpos : 0 < s.card := Finset.card_pos.mpr ⟨_, hv⟩
  have hw := h i (j - i + 1) (by omega) l[i] hv
  have hceil : (j - i + 1 + s.card - 1) / s.card = 1 := by
    rw [Nat.div_eq_iff hpos]; omega
  have hfloor : (j - i + 1) / s.card ≤ 1 := by
    rw [Nat.div_le_iff_le_mul_add_pred hpos]; omega
  -- the window from `i` to `j` holds the value of both its ends
  have htwo : 2 ≤ ((l.drop i).take (j - i + 1)).count l[i] := by
    by_contra hlt
    have hsub : [l[i], l[i]].Sublist ((l.drop i).take (j - i + 1)) := by
      have hji : l[j] = l[i] := by
        rw [List.getElem?_eq_getElem hi, List.getElem?_eq_getElem hj] at heq
        exact (Option.some.inj heq).symm
      have hd : (l.drop i).take (j - i + 1) = l[i] :: (l.drop (i + 1)).take (j - i) := by
        rw [List.drop_eq_getElem_cons hi, List.take_succ_cons]
      rw [hd]
      refine List.Sublist.cons_cons _ (List.singleton_sublist.mpr ?_)
      rw [← hji, List.mem_take_iff_getElem]
      exact ⟨j - i - 1, by rw [List.length_drop]; omega, by
        rw [List.getElem_drop]; congr 1; omega⟩
    have := hsub.count_le l[i]
    simp at this
    omega
  omega

/-- **A sequence is balanced exactly when near entries differ.** -/
theorem balanced_iff_spread {s : Finset α} {l : List α} (hl : ∀ x ∈ l, x ∈ s) :
    Balanced s l ↔ Spread s.card l :=
  ⟨Balanced.spread hl, Spread.balanced hl⟩

omit [DecidableEq α] in
/-- Full windows of entries that differ are all there is to ask. -/
theorem windows_nodup_iff {n : ℕ} {l : List α} :
    (∀ a, a + n ≤ l.length → ((l.drop a).take n).Nodup) ↔ (n ≤ l.length → Spread n l) := by
  constructor
  · intro h hn i j hij hjn hj heq
    -- a full window with `i` and `j` in it
    obtain ⟨a, hai, haj, ha⟩ : ∃ a, a ≤ i ∧ j < a + n ∧ a + n ≤ l.length :=
      ⟨min i (l.length - n), by omega, by omega, by omega⟩
    have hwindow := List.nodup_iff_getElem?_ne_getElem?.mp (h a ha) (i - a) (j - a) (by omega)
      (by rw [List.length_take, List.length_drop]; omega)
    rw [List.getElem?_take_of_lt (by omega), List.getElem?_take_of_lt (by omega),
      List.getElem?_drop, List.getElem?_drop, Nat.add_sub_cancel' hai,
      Nat.add_sub_cancel' (by omega)] at hwindow
    exact hwindow heq
  · intro h a ha
    exact (h (by omega)).nodup_window (Nat.le_refl n)

omit [DecidableEq α] in
/-- A sequence given by a function. -/
theorem spread_map_range {n k : ℕ} {f : ℕ → α} : Spread n ((List.range k).map f) ↔
    ∀ i j, i < j → j < i + n → j < k → f i ≠ f j := by
  have hget : ∀ i < k, ((List.range k).map f)[i]? = some (f i) := fun i hi => by
    rw [List.getElem?_map, List.getElem?_range hi]
    rfl
  unfold Spread
  rw [List.length_map, List.length_range]
  constructor
  · intro h i j hij hjn hj heq
    apply h i j hij hjn hj
    rw [hget i (by omega), hget j hj, heq]
  · intro h i j hij hjn hj heq
    apply h i j hij hjn hj
    rw [hget i (by omega), hget j hj] at heq
    exact Option.some.inj heq

/-- Numbers less than `n` apart leave different remainders. -/
theorem mod_ne_mod {n i j : ℕ} (hij : i < j) (hjn : j < i + n) : i % n ≠ j % n := by
  intro hmod
  have hdvd : n ∣ j - i := (Nat.modEq_iff_dvd' (le_of_lt hij)).mp hmod
  exact absurd (Nat.le_of_dvd (by omega) hdvd) (by omega)

/-- The residues in order come round. -/
theorem spread_mod (n k : ℕ) : Spread n ((List.range k).map (· % n)) :=
  spread_map_range.mpr fun _ _ hij hjn _ => mod_ne_mod hij hjn

theorem mod_mem_range {n : ℕ} (hn : 0 < n) {l : List ℕ} :
    ∀ x ∈ l.map (· % n), x ∈ Finset.range n := by
  intro x hx
  obtain ⟨k, -, rfl⟩ := List.mem_map.mp hx
  exact Finset.mem_range.mpr (Nat.mod_lt k hn)

end Rotation
end Lib
