/-
# The crops of the letters found

The letters of `findLetters` are the crops of the maximal runs of columns with
dark pixels (`IsRun`) that do not touch the left or the right border, from the
first dark row on (`segmentation_exact`). The crop ends right below the last dark
row unless the run has a dark pixel in the last row of the image, where no light
pixel follows; then the crop loses that row (`crops_whole_iff`).
-/
import IcnDemo.Ocr.Segmentation

namespace IcnDemo
namespace Ocr

open Lib.Loop Lib.Grid Lib.Segments

/-- The letter of the columns from `a` up to `b`. -/
def crop (t : ℤ) (m : Matrix) (a b : ℕ) : Letter :=
  { Letter.new (shape t m a b) with x := a, y := topRow t m a b }

/-- The columns from `a` up to `b` are a maximal run of columns with dark pixels;
beyond the last column there is none. -/
structure IsRun (t : ℤ) (m : Matrix) (a b : ℕ) : Prop where
  lt : a < b
  le : b ≤ m.length
  dark : ∀ x, a ≤ x → x < b → ∃ y, Dark t m x y
  before : a = 0 ∨ ∀ y, ¬ Dark t m (a - 1) y
  after : ∀ y, ¬ Dark t m b y

/-- The letter is the block of the columns from `a` up to `b` and the `k` rows from
`top`, their first dark row, in an image of `r` rows. -/
structure IsCrop (t : ℤ) (m : Matrix) (r a b top k : ℕ) (l : Letter) : Prop where
  x : l.x = a
  y : l.y = top
  dark : DarkIn t m a b top
  first : ∀ y, DarkIn t m a b y → top ≤ y
  le : top + k ≤ r
  matrix : l.matrix = table (b - a) k fun i j => entry m (a + i) (top + j)

/-- The last row with a dark pixel in the columns from `a` up to `b`. -/
structure LastDark (t : ℤ) (m : Matrix) (a b last : ℕ) : Prop where
  dark : DarkIn t m a b last
  last : ∀ y, DarkIn t m a b y → y ≤ last

variable {t : ℤ} {m : Matrix} {r a b : ℕ}

/-! ### Runs of columns -/

theorem darkColumn_eq_false_iff {x : ℕ} : darkColumn t m x = false ↔ ∀ y, ¬ Dark t m x y := by
  rw [Bool.eq_false_iff, ne_eq, darkColumn_iff, not_exists]

theorem mem_runs_iff {n : ℕ} (hn : n ≤ m.length) :
    (a, b) ∈ runs (darkColumn t m) n ↔ IsRun t m a b ∧ b < n := by
  rw [mem_runs]
  simp only [darkColumn_iff, darkColumn_eq_false_iff]
  constructor
  · intro ⟨hab, hbn, hd, ha, hb⟩
    exact ⟨⟨hab, by omega, hd, ha, hb⟩, hbn⟩
  · intro ⟨hrun, hbn⟩
    exact ⟨hrun.lt, hbn, hrun.dark, hrun.before, hrun.after⟩

/-- **The letters found are the crops of the runs**, unless the first column is dark. -/
theorem foundLetters_eq_crops : foundLetters t m =
    if darkColumn t m 0 then []
    else (runs (darkColumn t m) m.length).map fun p => crop t m p.1 p.2 := by
  unfold foundLetters runs
  rw [List.map_map]
  rfl

theorem mem_foundLetters_iff {l : Letter} : l ∈ foundLetters t m ↔
    darkColumn t m 0 = false ∧ ∃ a b, IsRun t m a b ∧ b < m.length ∧ l = crop t m a b := by
  rw [foundLetters_eq_crops]
  cases h0 : darkColumn t m 0 with
  | true => simp
  | false =>
    rw [if_neg (by simp), List.mem_map]
    constructor
    · intro ⟨p, hp, hl⟩
      obtain ⟨hrun, hlt⟩ := (mem_runs_iff (Nat.le_refl _)).mp hp
      exact ⟨rfl, p.1, p.2, hrun, hlt, hl.symm⟩
    · intro ⟨_, a, b, hrun, hlt, hl⟩
      exact ⟨(a, b), (mem_runs_iff (Nat.le_refl _)).mpr ⟨hrun, hlt⟩, hl.symm⟩

/-- No run starts at a light first column. -/
theorem IsRun.pos (h : IsRun t m a b) (h0 : darkColumn t m 0 = false) : 0 < a := by
  apply Nat.pos_of_ne_zero
  rintro rfl
  rw [darkColumn_iff.mpr (h.dark 0 (Nat.le_refl 0) h.lt)] at h0
  cases h0

/-! ### The rows of a crop -/

theorem IsRun.exists_dark (h : IsRun t m a b) : ∃ y, DarkIn t m a b y := by
  obtain ⟨y, hy⟩ := h.dark a (Nat.le_refl a) h.lt
  exact ⟨y, a, h.lt, Nat.le_refl a, hy⟩

theorem DarkIn.lt (hm : Rect r m) (hb : b ≤ m.length) {y : ℕ} (h : DarkIn t m a b y) : y < r := by
  obtain ⟨x, hx, -, hd⟩ := h
  exact hd.lt hm (by omega)

/-- Some row is the first dark one. -/
theorem darkIn_topRow (hm : Rect r m) (hab : a < b) (hb : b ≤ m.length)
    (h : ∃ y, DarkIn t m a b y) : DarkIn t m a b (topRow t m a b) := by
  obtain ⟨y, hy⟩ := h
  have hsome : ((List.range (m.getD a []).length).find? fun y =>
      decide (DarkIn t m a b y)).isSome = true := by
    rw [List.find?_isSome]
    refine ⟨y, List.mem_range.mpr ?_, decide_eq_true hy⟩
    rw [hm.length_getD (by omega)]
    exact hy.lt hm hb
  obtain ⟨k, hk⟩ := Option.isSome_iff_exists.mp hsome
  unfold topRow
  rw [hk, Option.getD_some]
  simpa using List.find?_some hk

/-- **The crop of a run is its block from the first dark row on.** -/
theorem IsRun.isCrop (hm : Rect r m) (h : IsRun t m a b) :
    IsCrop t m r a b (topRow t m a b) (bottomRow t m a b - topRow t m a b) (crop t m a b) := by
  have hlen := hm.length_getD (show a < m.length from Nat.lt_of_lt_of_le h.lt h.le)
  have htop := topRow_le_height (t := t) (m := m) a b
  have hbottom := bottomRow_le (t := t) hm (Nat.lt_of_lt_of_le h.lt h.le) b
  exact ⟨rfl, rfl, darkIn_topRow hm h.lt h.le h.exists_dark, fun y => topRow_le, by omega, rfl⟩

theorem LastDark.exists (hm : Rect r m) (hb : b ≤ m.length) (h : ∃ y, DarkIn t m a b y) :
    ∃ last, LastDark t m a b last := by
  obtain ⟨y, hy⟩ := h
  have hle : ∀ y, DarkIn t m a b y → y ≤ r := fun y hy => (hy.lt hm hb).le
  exact ⟨Nat.findGreatest (DarkIn t m a b) r, Nat.findGreatest_spec (hle y hy) hy,
    fun y hy => Nat.le_findGreatest (hle y hy) hy⟩

/-- If the last row is light in the columns, the last dark row is above it. -/
theorem LastDark.succ_lt (hm : Rect r m) (hb : b ≤ m.length) {last : ℕ}
    (hlast : LastDark t m a b last) (hlight : ∀ x, a ≤ x → x < b → ¬ Dark t m x (r - 1)) :
    last + 1 < r := by
  have hlt := hlast.dark.lt hm hb
  obtain ⟨x, hxb, hax, hd⟩ := hlast.dark
  by_contra hge
  apply hlight x hax hxb
  rw [show r - 1 = last by omega]
  exact hd

/-- **Above the last row of the image, the crop ends below the last dark row.** A
light pixel follows the last dark one of its column. -/
theorem bottomRow_of_lastDark (hm : Rect r m) (hb : b ≤ m.length) {last : ℕ}
    (hlast : LastDark t m a b last) (hlt : last + 1 < r) : bottomRow t m a b = last + 1 := by
  obtain ⟨x, hx, hax, hd⟩ := hlast.dark
  have hlen := hm.length_getD (show x < m.length by omega)
  have hlight : t ≤ entry m x (last + 1) := by
    by_contra hdark
    have : DarkIn t m a b (last + 1) := ⟨x, hx, hax, by rw [hlen]; exact hlt, not_le.mp hdark⟩
    have := hlast.last _ this
    omega
  unfold bottomRow
  rw [hm.length_getD (by omega), Nat.findGreatest_eq_iff]
  refine ⟨hlt.le, fun _ => ⟨x, hx, hax, Nat.succ_pos _, by rw [hlen]; exact hlt, hlight, hd.2⟩, ?_⟩
  intro y hy _ ⟨x', hx', hax', hdrop⟩
  -- a drop has a dark pixel above it
  have hpos := hdrop.1
  have hlt' := hdrop.2.1
  have habove := hlast.last (y - 1) ⟨x', hx', hax', by omega, hdrop.2.2.2⟩
  omega

/-! ### Segmentation is exact -/

theorem foundLetters_pairwise : (foundLetters t m).Pairwise fun l l' =>
    l.x + (l.matrix.length : ℤ) < l'.x := by
  rw [foundLetters_eq_crops]
  split
  · exact List.Pairwise.nil
  · rw [List.pairwise_map]
    refine (runs_pairwise m.length).imp_of_mem fun {p q} hp _ hpq => ?_
    obtain ⟨hrun, -⟩ := (mem_runs_iff (Nat.le_refl _)).mp hp
    have hlt := hrun.lt
    show (p.1 : ℤ) + (shape t m p.1 p.2).length < q.1
    rw [shape_length]
    omega

/-- A run of an image with light first and last columns touches neither border. -/
theorem IsRun.inside (h : IsRun t m a b) (h0 : ∀ y, ¬ Dark t m 0 y)
    (hn : ∀ y, ¬ Dark t m (m.length - 1) y) : 1 ≤ a ∧ b < m.length := by
  have hlt := h.lt
  have hle := h.le
  refine ⟨h.pos (darkColumn_eq_false_iff.mpr h0), lt_of_le_of_ne hle fun hb => ?_⟩
  obtain ⟨y, hy⟩ := h.dark (m.length - 1) (by omega) (by omega)
  exact hn y hy

/-- **Segmentation is exact.** For every image the letters found are blocks of separated
maximal runs of columns with dark pixels, which touch neither the left nor the right
border, from the first dark row on. If the first and the last column and the last row
are light they are the blocks of all runs, in order, each down to the last dark row. -/
theorem segmentation_exact (t : ℤ) (image : Image) :
    ∃ letters, findLetters t image.columns = .ok letters ∧
    (letters.Pairwise fun l l' => l.x < l'.x ∧ l.x + (l.matrix.length : ℤ) < l'.x) ∧
    (∀ l ∈ letters, ∃ a b top k, 1 ≤ a ∧ b < image.width ∧ IsRun t image.columns a b ∧
      IsCrop t image.columns image.height a b top k l) ∧
    ((∀ y, ¬ Dark t image.columns 0 y) → (∀ y, ¬ Dark t image.columns (image.width - 1) y) →
      (∀ x, ¬ Dark t image.columns x (image.height - 1)) →
      ∃ intervals : List (ℕ × ℕ), (∀ a b, (a, b) ∈ intervals ↔ IsRun t image.columns a b) ∧
        (intervals.Pairwise fun p q => p.2 < q.1) ∧
        List.Forall₂ (fun p l => ∃ top last, top ≤ last ∧
          LastDark t image.columns p.1 p.2 last ∧
          IsCrop t image.columns image.height p.1 p.2 top (last + 1 - top) l)
          intervals letters) := by
  have hm := image.rect
  refine ⟨_, findLetters_eq t hm, ?_, fun l hl => ?_, fun h0 hn hbottom => ?_⟩
  · exact foundLetters_pairwise.imp fun h => ⟨by omega, h⟩
  · obtain ⟨hcol, a, b, hrun, hlt, rfl⟩ := mem_foundLetters_iff.mp hl
    exact ⟨a, b, _, _, hrun.pos hcol, hlt, hrun, hrun.isCrop hm⟩
  · have hall : ∀ a b, (a, b) ∈ runs (darkColumn t image.columns) image.width ↔
        IsRun t image.columns a b := fun a b => by
      rw [Image.width, mem_runs_iff (Nat.le_refl _)]
      exact and_iff_left_of_imp fun hrun => (hrun.inside h0 hn).2
    refine ⟨runs (darkColumn t image.columns) image.width, hall, runs_pairwise _, ?_⟩
    rw [foundLetters_eq_crops, darkColumn_eq_false_iff.mpr h0, if_neg (by simp),
      List.forall₂_map_right_iff, Image.width, List.forall₂_same]
    intro p hp
    have hrun := (hall p.1 p.2).mp hp
    obtain ⟨last, hlast⟩ := LastDark.exists hm hrun.le hrun.exists_dark
    have hcrop := hrun.isCrop hm
    have hlt := hlast.succ_lt hm hrun.le fun x _ _ => hbottom x
    rw [bottomRow_of_lastDark hm hrun.le hlast hlt] at hcrop
    exact ⟨_, last, hlast.last _ hcrop.dark, hlast, hcrop⟩

/-- The borders of the dot's image are light, so it is found whole. -/
theorem segmentation_exact_dot : ∃ letters, findLetters 127 dot.columns = .ok letters ∧
    (letters.Pairwise fun l l' => l.x < l'.x ∧ l.x + (l.matrix.length : ℤ) < l'.x) ∧
    (∀ l ∈ letters, ∃ a b top k, 1 ≤ a ∧ b < dot.width ∧ IsRun 127 dot.columns a b ∧
      IsCrop 127 dot.columns dot.height a b top k l) ∧
    ∃ intervals : List (ℕ × ℕ), (∀ a b, (a, b) ∈ intervals ↔ IsRun 127 dot.columns a b) ∧
      (intervals.Pairwise fun p q => p.2 < q.1) ∧
      List.Forall₂ (fun p l => ∃ top last, top ≤ last ∧
        LastDark 127 dot.columns p.1 p.2 last ∧
        IsCrop 127 dot.columns dot.height p.1 p.2 top (last + 1 - top) l) intervals letters := by
  obtain ⟨letters, hok, hsep, hsound, hcomplete⟩ := segmentation_exact 127 dot
  refine ⟨letters, hok, hsep, hsound, hcomplete ?_ ?_ fun x hd => ?_⟩
  · exact darkColumn_eq_false_iff.mp (by decide)
  · exact darkColumn_eq_false_iff.mp (by decide)
  · have hinside : ∀ x < 3, ¬ Dark 127 dot.columns x (dot.height - 1) := by decide
    by_cases hx : x < 3
    · exact hinside x hx hd
    · have hlt := hd.1
      rw [List.getD_eq_default _ _ (not_lt.mp hx)] at hlt
      exact Nat.not_lt_zero _ hlt

/-! ### Ink -/

/-- The letter's matrix has every dark pixel of its columns, and a dark pixel in its
first and in its last row. -/
structure Whole (t : ℤ) (m : Matrix) (l : Letter) : Prop where
  rows_pos : 0 < (l.matrix.getD 0 []).length
  ink : ∀ x y : ℕ, Dark t m x y → l.x ≤ x → x < l.x + (l.matrix.length : ℤ) →
    ∃ i j : ℕ, x = l.x + i ∧ y = l.y + j ∧ i < l.matrix.length ∧
      j < (l.matrix.getD 0 []).length ∧ entry l.matrix i j = entry m x y
  first : ∃ i < l.matrix.length, entry l.matrix i 0 < t
  last : ∃ i < l.matrix.length, entry l.matrix i ((l.matrix.getD 0 []).length - 1) < t

theorem IsCrop.length {top k : ℕ} {l : Letter} (h : IsCrop t m r a b top k l) :
    l.matrix.length = b - a := by
  rw [h.matrix, length_table]

theorem IsCrop.rows {top k : ℕ} {l : Letter} (h : IsCrop t m r a b top k l) (hab : a < b) :
    (l.matrix.getD 0 []).length = k := by
  rw [h.matrix]
  exact (rect_table _ _ _).length_getD (by rw [length_table]; omega)

/-- The pixels of a crop. -/
theorem IsCrop.entry_eq {top k : ℕ} {l : Letter} (h : IsCrop t m r a b top k l) {x y : ℕ}
    (hax : a ≤ x) (hxb : x < b) (hy : top ≤ y) (hyk : y < top + k) :
    entry l.matrix (x - a) (y - top) = entry m x y := by
  rw [h.matrix, entry_table _ (by omega) (by omega)]
  congr 1 <;> omega

/-- A crop down to the last dark row is whole. -/
theorem IsCrop.whole {top last : ℕ} {l : Letter} (hab : a < b) (hlast : LastDark t m a b last)
    (h : IsCrop t m r a b top (last + 1 - top) l) : Whole t m l := by
  have htop := hlast.last top h.dark
  have hlen := h.length
  have hrows := h.rows hab
  refine ⟨by omega, fun x y hd hax hxb => ?_, ?_, ?_⟩
  · rw [h.x] at hax hxb
    have hy : DarkIn t m a b y := ⟨x, by omega, by omega, hd⟩
    have h1 := h.first y hy
    have h2 := hlast.last y hy
    refine ⟨x - a, y - top, ?_, ?_, by omega, by omega,
      h.entry_eq (by omega) (by omega) h1 (by omega)⟩
    · rw [h.x]; omega
    · rw [h.y]; omega
  · obtain ⟨x, hx, hax, hd⟩ := h.dark
    refine ⟨x - a, by omega, ?_⟩
    rw [← Nat.sub_self top, h.entry_eq hax hx (Nat.le_refl _) (by omega)]
    exact hd.2
  · obtain ⟨x, hx, hax, hd⟩ := hlast.dark
    refine ⟨x - a, by omega, ?_⟩
    rw [hrows, show last + 1 - top - 1 = last - top by omega,
      h.entry_eq hax hx htop (by omega)]
    exact hd.2

/-- The last row is never in a crop: no light pixel is below it. -/
theorem IsRun.not_whole (hm : Rect r m) (h : IsRun t m a b) {x : ℕ} (hax : a ≤ x) (hxb : x < b)
    (hd : Dark t m x (r - 1)) : ¬ Whole t m (crop t m a b) := by
  intro hwhole
  have hle := h.le
  have hcrop := h.isCrop hm
  have hlen := hcrop.length
  have hrows := hcrop.rows h.lt
  have hpos := hwhole.rows_pos
  obtain ⟨i, j, -, hj, -, hjk, -⟩ := hwhole.ink x (r - 1) hd (by rw [hcrop.x]; omega)
    (by rw [hcrop.x, hlen]; omega)
  rw [hcrop.y] at hj
  -- the crop would reach the last row, but the lowest drop is in the image
  obtain ⟨y, x', hx', -, hdrop⟩ :=
    (topRow_lt_bottomRow_iff (t := t) hm h.lt hle).mp (by omega)
  have hdropIn : DropIn t m a b (bottomRow t m a b) := by
    have hle' := bottomRow_le (t := t) hm (show a < m.length by omega) b
    exact Nat.findGreatest_of_ne_zero rfl (by omega)
  obtain ⟨x'', hx'', -, hdrop'⟩ := hdropIn
  have := hdrop'.lt hm (by omega)
  omega

/-- **Crops lose no ink exactly when no letter's run has a dark pixel in the last
row.** -/
theorem crops_whole_iff (t : ℤ) (image : Image) :
    ∃ letters, findLetters t image.columns = .ok letters ∧
    ((∀ l ∈ letters, Whole t image.columns l) ↔ (∃ y, Dark t image.columns 0 y) ∨
      ∀ a b, IsRun t image.columns a b → b < image.width → ∀ x, a ≤ x → x < b →
        ¬ Dark t image.columns x (image.height - 1)) := by
  have hm := image.rect
  refine ⟨_, findLetters_eq t hm, fun h => ?_, fun h l hl => ?_⟩
  · by_cases h0 : darkColumn t image.columns 0 = true
    · exact Or.inl (darkColumn_iff.mp h0)
    · refine Or.inr fun a b hrun hlt x hax hxb hd => hrun.not_whole hm hax hxb hd ?_
      exact h _ (mem_foundLetters_iff.mpr ⟨by simpa using h0, a, b, hrun, hlt, rfl⟩)
  · obtain ⟨h0, a, b, hrun, hlt, rfl⟩ := mem_foundLetters_iff.mp hl
    have hnone := h.resolve_left fun hd => by
      rw [darkColumn_iff.mpr hd] at h0
      cases h0
    obtain ⟨last, hlast⟩ := LastDark.exists hm hrun.le hrun.exists_dark
    have habove := hlast.succ_lt hm hrun.le (hnone a b hrun hlt)
    have hcrop := hrun.isCrop hm
    rw [bottomRow_of_lastDark hm hrun.le hlast habove] at hcrop
    exact hcrop.whole hrun.lt hlast

theorem crops_whole_iff_dot : ∃ letters, findLetters 127 dot.columns = .ok letters ∧
    ((∀ l ∈ letters, Whole 127 dot.columns l) ↔ (∃ y, Dark 127 dot.columns 0 y) ∨
      ∀ a b, IsRun 127 dot.columns a b → b < dot.width → ∀ x, a ≤ x → x < b →
        ¬ Dark 127 dot.columns x (dot.height - 1)) :=
  crops_whole_iff 127 dot

/-- A mark of one pixel in the last row is cut out without a row. -/
theorem mark_without_ink : Rect 2 [[255, 255], [255, 0], [255, 255]] ∧
    ∃ l, findLetters 127 [[255, 255], [255, 0], [255, 255]] = .ok [l] ∧
      ¬ 0 < (l.matrix.getD 0 []).length := by
  exact ⟨by decide, ⟨star, [[]], 1, 1⟩, by decide, by decide⟩

end Ocr
end IcnDemo
