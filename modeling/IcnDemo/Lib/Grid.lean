/-
# Rectangular arrays

An array of rows all of one length (`Rect`), its entries (`entry`, 0 outside),
the array of a function on indices (`table`), and the row-major order: in the
flattened array the entry at `(i, j)` stands at `n * i + j`
(`Rect.flatten_getElem?`). `mapEntries` applies a function to every entry.
-/
import IcnDemo.Lib.Loop
import Mathlib.Data.List.GetD
import Mathlib.Data.List.Flatten
import Mathlib.Tactic.Ring

namespace Lib
namespace Grid

variable {α β : Type}

/-- Every row of `v` has `n` elements. -/
def Rect (n : ℕ) (v : List (List α)) : Prop := ∀ row ∈ v, row.length = n

instance (n : ℕ) (v : List (List α)) : Decidable (Rect n v) :=
  inferInstanceAs (Decidable (∀ row ∈ v, row.length = n))

/-- The `w` rows of `h` elements each with `f i j` at `(i, j)`. -/
def table (w h : ℕ) (f : ℕ → ℕ → α) : List (List α) :=
  (List.range w).map fun i => (List.range h).map fun j => f i j

@[simp] theorem length_table (w h : ℕ) (f : ℕ → ℕ → α) : (table w h f).length = w := by
  simp [table]

theorem rect_table (w h : ℕ) (f : ℕ → ℕ → α) : Rect h (table w h f) := by
  intro row hrow
  obtain ⟨i, -, rfl⟩ := List.mem_map.mp hrow
  simp

theorem getD_table {w h i : ℕ} (f : ℕ → ℕ → α) (hi : i < w) :
    (table w h f).getD i [] = (List.range h).map (f i) := by
  have hi' : i < (table w h f).length := by rwa [length_table]
  rw [List.getD_eq_getElem _ _ hi']
  simp [table]

/-- What holds of the values of the function holds of every entry. -/
theorem forall_table {w h : ℕ} {f : ℕ → ℕ → α} {p : α → Prop}
    (hp : ∀ i < w, ∀ j < h, p (f i j)) : ∀ row ∈ table w h f, ∀ a ∈ row, p a := by
  intro row hrow a ha
  obtain ⟨i, hi, rfl⟩ := List.mem_map.mp hrow
  obtain ⟨j, hj, rfl⟩ := List.mem_map.mp ha
  exact hp i (List.mem_range.mp hi) j (List.mem_range.mp hj)

theorem rect_append_iff {n : ℕ} {v w : List (List α)} :
    Rect n (v ++ w) ↔ Rect n v ∧ Rect n w := List.forall_mem_append

theorem Rect.append {n : ℕ} {v w : List (List α)} (hv : Rect n v) (hw : Rect n w) :
    Rect n (v ++ w) := rect_append_iff.mpr ⟨hv, hw⟩

theorem Rect.cons {n : ℕ} {row : List α} {v : List (List α)} (hrow : row.length = n)
    (hv : Rect n v) : Rect n (row :: v) := by
  unfold Rect
  rw [List.forall_mem_cons]
  exact ⟨hrow, hv⟩

theorem table_congr {w h : ℕ} {f g : ℕ → ℕ → α} (hfg : ∀ i < w, ∀ j < h, f i j = g i j) :
    table w h f = table w h g :=
  List.map_congr_left fun i hi => List.map_congr_left fun j hj =>
    hfg i (List.mem_range.mp hi) j (List.mem_range.mp hj)

/-- Loops that compute the entries one by one compute the table. -/
theorem mapM_table {ε : Type} {w h : ℕ} {f : ℕ → ℕ → Except ε α} {g : ℕ → ℕ → α}
    (hfg : ∀ i < w, ∀ j < h, f i j = .ok (g i j)) :
    ((List.range w).mapM fun i => (List.range h).mapM (f i)) = .ok (table w h g) :=
  Loop.mapM_ok fun i hi => Loop.mapM_ok fun j hj =>
    hfg i (List.mem_range.mp hi) j (List.mem_range.mp hj)

theorem Rect.length_getD {n : ℕ} {v : List (List α)} (h : Rect n v) {i : ℕ} (hi : i < v.length) :
    (v.getD i []).length = n := by
  rw [List.getD_eq_getElem _ _ hi]
  exact h _ (List.getElem_mem hi)

theorem Rect.length_flatten {n : ℕ} : ∀ {v : List (List α)}, Rect n v →
    v.flatten.length = n * v.length
  | [], _ => rfl
  | row :: v, h => by
    rw [List.flatten_cons, List.length_append, h row List.mem_cons_self,
      Rect.length_flatten fun r hr => h r (List.mem_cons_of_mem _ hr), List.length_cons]
    ring

section Entries

variable [Zero α]

/-- The entry at `(i, j)`, 0 outside. -/
def entry (v : List (List α)) (i j : ℕ) : α := (v.getD i []).getD j 0

theorem entry_table {w h i j : ℕ} (f : ℕ → ℕ → α) (hi : i < w) (hj : j < h) :
    entry (table w h f) i j = f i j := by
  have hj' : j < ((List.range h).map (f i)).length := by simpa using hj
  unfold entry
  rw [getD_table f hi, List.getD_eq_getElem _ _ hj']
  simp

/-- A table of zeros has no other entry, outside neither. -/
theorem entry_table_zero (w h i j : ℕ) : entry (table w h fun _ _ => (0 : α)) i j = 0 := by
  simp only [entry, table, List.getD_eq_getElem?_getD, List.getElem?_map]
  cases (List.range w)[i]? with
  | none => rfl
  | some k =>
    simp only [Option.map_some, Option.getD_some, List.getElem?_map]
    cases (List.range h)[j]? <;> rfl

/-- A rectangular array is the table of its entries. -/
theorem Rect.eq_table {n : ℕ} {v : List (List α)} (h : Rect n v) :
    v = table v.length n (entry v) := by
  refine List.ext_getElem (by simp) fun i hi _ => ?_
  have hlen := h _ (List.getElem_mem hi)
  simp only [table, List.getElem_map, List.getElem_range]
  refine List.ext_getElem (by simp [hlen]) fun j hj _ => ?_
  simp only [List.getElem_map, List.getElem_range]
  unfold entry
  rw [List.getD_eq_getElem _ _ hi, List.getD_eq_getElem _ _ hj]

/-- Two tables are equal when they are entry by entry. -/
theorem table_eq_iff {w h : ℕ} {f g : ℕ → ℕ → α} :
    table w h f = table w h g ↔ ∀ i < w, ∀ j < h, f i j = g i j := by
  refine ⟨fun heq i hi j hj => ?_, table_congr⟩
  rw [← entry_table f hi hj, heq, entry_table g hi hj]

theorem entry_mem {n : ℕ} {v : List (List α)} (h : Rect n v) {i j : ℕ} (hi : i < v.length)
    (hj : j < n) : ∃ row ∈ v, entry v i j ∈ row := by
  have hj' : j < v[i].length := by rwa [h _ (List.getElem_mem hi)]
  refine ⟨v[i], List.getElem_mem hi, ?_⟩
  unfold entry
  rw [List.getD_eq_getElem _ _ hi, List.getD_eq_getElem _ _ hj']
  exact List.getElem_mem hj'

/-- **In row-major order the entry at `(i, j)` stands at `n i + j`.** -/
theorem Rect.flatten_getElem? {n : ℕ} : ∀ {v : List (List α)} {i j : ℕ}, Rect n v →
    i < v.length → j < n → v.flatten[n * i + j]? = some (entry v i j)
  | [], _, _, _, hi, _ => absurd hi (Nat.not_lt_zero _)
  | row :: v, 0, j, h, _, hj => by
    have hrow := h row List.mem_cons_self
    have hj' : j < row.length := by rwa [hrow]
    rw [List.flatten_cons, Nat.mul_zero, Nat.zero_add, List.getElem?_append_left hj',
      List.getElem?_eq_getElem hj', entry, List.getD_cons_zero, List.getD_eq_getElem _ _ hj']
  | row :: v, i + 1, j, h, hi, hj => by
    have hrow := h row List.mem_cons_self
    have ih := Rect.flatten_getElem? (i := i) (fun r hr => h r (List.mem_cons_of_mem _ hr))
      (Nat.lt_of_succ_lt_succ hi) hj
    have hidx : n * (i + 1) + j = row.length + (n * i + j) := by rw [hrow]; ring
    rw [List.flatten_cons, hidx, List.getElem?_append_right (by omega), Nat.add_sub_cancel_left, ih]
    rfl

end Entries

/-! ### A function applied to every entry -/

/-- The array with `f` applied to every entry. -/
def mapEntries (f : α → β) (v : List (List α)) : List (List β) := v.map (List.map f)

variable {f : α → β} {v : List (List α)}

@[simp] theorem length_mapEntries : (mapEntries f v).length = v.length := by simp [mapEntries]

theorem getD_mapEntries (i : ℕ) : (mapEntries f v).getD i [] = (v.getD i []).map f := by
  simp only [mapEntries, List.getD_eq_getElem?_getD, List.getElem?_map]
  cases v[i]? <;> rfl

theorem Rect.mapEntries {n : ℕ} (h : Rect n v) : Rect n (mapEntries f v) := by
  intro row hrow
  obtain ⟨row', hrow', rfl⟩ := List.mem_map.mp hrow
  rw [List.length_map, h row' hrow']

theorem forall_mapEntries {p : β → Prop} (hp : ∀ row ∈ v, ∀ a ∈ row, p (f a)) :
    ∀ row ∈ mapEntries f v, ∀ b ∈ row, p b := by
  intro row hrow b hb
  obtain ⟨row', hrow', rfl⟩ := List.mem_map.mp hrow
  obtain ⟨a, ha, rfl⟩ := List.mem_map.mp hb
  exact hp row' hrow' a ha

theorem mapEntries_table (w h : ℕ) (g : ℕ → ℕ → α) :
    mapEntries f (table w h g) = table w h fun i j => f (g i j) := by
  simp [mapEntries, table]

theorem entry_mapEntries [Zero α] [Zero β] {i j : ℕ} (hj : j < (v.getD i []).length) :
    entry (mapEntries f v) i j = f (entry v i j) := by
  have hj' : j < ((v.getD i []).map f).length := by rwa [List.length_map]
  unfold entry
  rw [getD_mapEntries, List.getD_eq_getElem _ _ hj', List.getD_eq_getElem _ _ hj,
    List.getElem_map]

end Grid
end Lib
