/-
# What segmentation finds

`findLetters` on a rectangular matrix, in closed form (`findLetters_eq`): if the
first column has a dark pixel it finds nothing; else one letter for every run of
columns with dark pixels that ends before the last column does (`shapeLetter`).
The letter's rows go from the first row with a dark pixel of the run
(`topRow`) to the last row at which, in some column of the run, a light pixel
follows a dark one (`bottomRow`).
-/
import IcnDemo.Ocr.Processing
import IcnDemo.Lib.Segments

namespace IcnDemo
namespace Ocr

open Lib.Loop Lib.Grid Lib.Segments

/-! ### Dark pixels -/

section

variable (t : ℤ) (m : Matrix)

/-- There is a pixel at `(x, y)`, below the threshold. -/
def Dark (x y : ℕ) : Prop := y < (m.getD x []).length ∧ entry m x y < t

/-- There is a light pixel at `(x, y)`, right below a dark one. -/
def Drop (x y : ℕ) : Prop :=
  0 < y ∧ y < (m.getD x []).length ∧ t ≤ entry m x y ∧ entry m x (y - 1) < t

instance (x y : ℕ) : Decidable (Dark t m x y) := inferInstanceAs (Decidable (_ ∧ _))

instance (x y : ℕ) : Decidable (Drop t m x y) := inferInstanceAs (Decidable (_ ∧ _))

/-- The column has a dark pixel. -/
def darkColumn (x : ℕ) : Bool := (m.getD x []).any (· < t)

/-- Row `y` has a dark pixel in the columns from `a` up to `b`. -/
def DarkIn (a b y : ℕ) : Prop := ∃ x < b, a ≤ x ∧ Dark t m x y

def DropIn (a b y : ℕ) : Prop := ∃ x < b, a ≤ x ∧ Drop t m x y

instance (a b : ℕ) : DecidablePred (DarkIn t m a b) := fun y =>
  inferInstanceAs (Decidable (∃ x < b, a ≤ x ∧ Dark t m x y))

instance (a b : ℕ) : DecidablePred (DropIn t m a b) := fun y =>
  inferInstanceAs (Decidable (∃ x < b, a ≤ x ∧ Drop t m x y))

/-- The first row with a dark pixel in the columns from `a` up to `b`. -/
def topRow (a b : ℕ) : ℕ :=
  ((List.range (m.getD a []).length).find? fun y => decide (DarkIn t m a b y)).getD 0

/-- The last row with a drop in the columns from `a` up to `b`, 0 if there is none. -/
def bottomRow (a b : ℕ) : ℕ := Nat.findGreatest (DropIn t m a b) (m.getD a []).length

/-- The pixels of the columns from `a` up to `b` between those rows. -/
def shape (a b : ℕ) : Matrix :=
  table (b - a) (bottomRow t m a b - topRow t m a b) fun i j =>
    entry m (a + i) (topRow t m a b + j)

/-- The letter of the run of dark columns that ends before `b`. -/
def shapeLetter (b : ℕ) : Letter :=
  let a := runStart (darkColumn t m) b
  { Letter.new (shape t m a b) with x := a, y := topRow t m a b }

def foundLetters : List Letter :=
  if darkColumn t m 0 then []
  else (runEnds (darkColumn t m) m.length).map (shapeLetter t m)

end

variable {t : ℤ} {m : Matrix} {h x : ℕ}

theorem darkColumn_iff : darkColumn t m x = true ↔ ∃ y, Dark t m x y := by
  unfold darkColumn
  rw [List.any_eq_true]
  constructor
  · rintro ⟨v, hv, hlt⟩
    obtain ⟨y, hy, rfl⟩ := List.mem_iff_getElem.mp hv
    exact ⟨y, hy, by rw [entry, List.getD_eq_getElem _ _ hy]; simpa using hlt⟩
  · rintro ⟨y, hy, hlt⟩
    unfold entry at hlt
    rw [List.getD_eq_getElem _ _ hy] at hlt
    exact ⟨_, List.getElem_mem hy, by simpa using hlt⟩

theorem Dark.lt (hm : Rect h m) (hx : x < m.length) {y : ℕ} (hd : Dark t m x y) : y < h := by
  rw [← hm.length_getD hx]; exact hd.1

theorem Drop.lt (hm : Rect h m) (hx : x < m.length) {y : ℕ} (hd : Drop t m x y) : y < h := by
  rw [← hm.length_getD hx]; exact hd.2.1

/-- The rows of an interval, one column more. -/
theorem darkIn_succ {a b : ℕ} (hab : a ≤ b) (y : ℕ) :
    DarkIn t m a (b + 1) y ↔ DarkIn t m a b y ∨ Dark t m b y :=
  exists_between_succ hab

theorem dropIn_succ {a b : ℕ} (hab : a ≤ b) (y : ℕ) :
    DropIn t m a (b + 1) y ↔ DropIn t m a b y ∨ Drop t m b y :=
  exists_between_succ hab

theorem not_darkIn_self (a y : ℕ) : ¬ DarkIn t m a a y := fun ⟨_, hx, hax, _⟩ => by omega

theorem not_dropIn_self (a y : ℕ) : ¬ DropIn t m a a y := fun ⟨_, hx, hax, _⟩ => by omega

/-- A column without dark pixels has no drops. -/
theorem Drop.darkColumn {y : ℕ} (hd : Drop t m x y) : darkColumn t m x = true :=
  darkColumn_iff.mpr ⟨y - 1, by have := hd.2.1; omega, hd.2.2.2⟩

/-! ### The scan of a column -/

/-- The pixel at `(x, y)` adds row `y` to the dark rows or to the drops. -/
theorem scanPixel_step (hm : Rect h m) (hx : x < m.length) {P Q : ℕ → Prop} {y : ℕ} (hy : y < h)
    {e : Edges} (htop : LeastOf (fun z => P z ∨ z < y ∧ Dark t m x z) e.topEdge)
    (hbottom : GreatestOf (fun z => Q z ∨ z < y ∧ Drop t m x z) e.bottomEdge)
    (hfound : e.found = true ↔ ∃ z, False ∨ z < y ∧ Dark t m x z) :
    ∃ e', scanPixel t m x y e = .ok e' ∧
      LeastOf (fun z => P z ∨ z < y + 1 ∧ Dark t m x z) e'.topEdge ∧
      GreatestOf (fun z => Q z ∨ z < y + 1 ∧ Drop t m x z) e'.bottomEdge ∧
      (e'.found = true ↔ ∃ z, False ∨ z < y + 1 ∧ Dark t m x z) := by
  have hlen := hm.length_getD hx
  have hdark : Dark t m x y ↔ entry m x y < t := by rw [Dark, hlen]; simp [hy]
  unfold scanPixel
  rw [elemAt₂_of_lt hm hx hy, ok_bind]
  split
  · rename_i hlt
    have hd := hdark.mpr hlt
    have hn : ¬ Drop t m x y := fun hn => absurd hn.2.2.1 (not_le.mpr hlt)
    exact ⟨_, rfl, (htop.insert y).congr (below_succ_of hd), hbottom.congr (below_succ_of_not hn),
      fun _ => ⟨y, Or.inr ⟨Nat.lt_succ_self y, hd⟩⟩, fun _ => rfl⟩
  · rename_i hge
    have hnd : ¬ Dark t m x y := fun hd => hge (hdark.mp hd)
    have htop' := htop.congr (below_succ_of_not hnd)
    have hfound' := hfound.trans (exists_congr (below_succ_of_not hnd))
    -- the greatest drop changes only if there is one here
    have hkeep (hn : ¬ Drop t m x y) := hbottom.congr (below_succ_of_not hn)
    have hadd (hd : Drop t m x y) := (hbottom.insert y).congr (below_succ_of hd)
    split
    · rename_i hy0
      rw [elemAt₂_of_lt hm hx (show y - 1 < h by omega), ok_bind]
      have hdrop : Drop t m x y ↔ entry m x (y - 1) < t := by
        unfold Drop
        rw [hlen]; simp [hy0, hy, not_lt.mp hge]
      split
      · rename_i hcond
        have hadd' := hadd (hdrop.mpr hcond.1)
        rw [if_pos hcond.2] at hadd'
        exact ⟨_, rfl, htop', hadd', hfound'⟩
      · rename_i hcond
        refine ⟨_, rfl, htop', ?_, hfound'⟩
        by_cases hd : Drop t m x y
        · have hadd' := hadd hd
          rwa [if_neg fun hlt => hcond ⟨hdrop.mp hd, hlt⟩] at hadd'
        · exact hkeep hd
    · rename_i hy0
      exact ⟨_, rfl, htop', hkeep fun hd => hy0 hd.1, hfound'⟩

/-- **A column adds its dark rows and its drops.** -/
theorem scanPixels (hm : Rect h m) (hx : x < m.length) {P Q : ℕ → Prop} {top bottom : ℤ}
    (htop : LeastOf P top) (hbottom : GreatestOf Q bottom) :
    ∃ e, forUpTo h (scanPixel t m x) ⟨top, bottom, false⟩ = .ok e ∧
      LeastOf (fun y => P y ∨ Dark t m x y) e.topEdge ∧
      GreatestOf (fun y => Q y ∨ Drop t m x y) e.bottomEdge ∧ e.found = darkColumn t m x := by
  obtain ⟨e, he, h1, h2, h3⟩ := forUpTo_invariant
    (fun y e => LeastOf (fun z => P z ∨ z < y ∧ Dark t m x z) e.topEdge ∧
      GreatestOf (fun z => Q z ∨ z < y ∧ Drop t m x z) e.bottomEdge ∧
      (e.found = true ↔ ∃ z, False ∨ z < y ∧ Dark t m x z))
    (scanPixel t m x) (s := ⟨top, bottom, false⟩) (n := h)
    ⟨htop.congr fun y => by simp, hbottom.congr fun y => by simp, by simp⟩
    fun y hy e he => scanPixel_step hm hx hy he.1 he.2.1 he.2.2
  refine ⟨e, he, h1.congr fun y => ?_, h2.congr fun y => ?_, ?_⟩
  · exact or_congr_right ⟨And.right, fun hd => ⟨hd.lt hm hx, hd⟩⟩
  · exact or_congr_right ⟨And.right, fun hd => ⟨hd.lt hm hx, hd⟩⟩
  · rw [Bool.eq_iff_iff, h3, darkColumn_iff]
    exact ⟨fun ⟨y, hy⟩ => ⟨y, (hy.resolve_left id).2⟩,
      fun ⟨y, hd⟩ => ⟨y, Or.inr ⟨hd.lt hm hx, hd⟩⟩⟩

/-! ### The copy of a shape -/

/-- The copy of a block of columns and rows of the matrix. -/
theorem subMatrix_eq (hm : Rect h m) {a b top : ℕ} {bottom : ℤ} (hb : b ≤ m.length)
    (hbottom : bottom ≤ h) :
    subMatrix m a b top bottom =
      .ok (table (b - a) (bottom.toNat - top) fun i j => entry m (a + i) (top + j)) := by
  have hw : ((b : ℤ) - a).toNat = b - a := by omega
  have hh : (bottom - top).toNat = bottom.toNat - top := by omega
  simp only [subMatrix, intRange, List.mapM_map, hw, hh]
  apply mapM_table
  intro i hi j hj
  have := elemAtInt₂_natCast m (a + i) (top + j)
  push_cast at this
  change elemAtInt₂ m (a + i) (top + j) = _
  rw [this, elemAt₂_of_lt hm (by omega) (by omega)]

/-! ### The scan of the columns -/

/-- What the scan holds before column `x`, if the first column is light. -/
structure ScanInv (t : ℤ) (m : Matrix) (x : ℕ) (s : Scan) : Prop where
  left : s.leftEdge =
    if runStart (darkColumn t m) x < x then (runStart (darkColumn t m) x : ℤ) else -1
  top : LeastOf (DarkIn t m (runStart (darkColumn t m) x) x) s.topEdge
  bottom : GreatestOf (DropIn t m (runStart (darkColumn t m) x) x) s.bottomEdge
  letters : s.letters = (runEnds (darkColumn t m) x).map (shapeLetter t m)

theorem ScanInv.start : ScanInv t m 0 ⟨-1, -1, -1, []⟩ where
  left := rfl
  top := leastOf_empty (not_darkIn_self 0)
  bottom := greatestOf_empty (not_dropIn_self 0)
  letters := rfl

/-- The letter copied at the end of a run is `shapeLetter`. -/
theorem shape_copied (hm : Rect h m) (hx : x < m.length)
    (hrun : runStart (darkColumn t m) x < x) {top bottom : ℤ}
    (htop : LeastOf (DarkIn t m (runStart (darkColumn t m) x) x) top)
    (hbottom : GreatestOf (DropIn t m (runStart (darkColumn t m) x) x) bottom) :
    top = topRow t m (runStart (darkColumn t m) x) x ∧
    subMatrix m (runStart (darkColumn t m) x) x top bottom =
      .ok (shape t m (runStart (darkColumn t m) x) x) := by
  set a := runStart (darkColumn t m) x with ha
  have halen : (m.getD a []).length = h := hm.length_getD (by omega)
  have hdarkLt : ∀ y, DarkIn t m a x y → y < h := fun y ⟨x', hx', _, hd⟩ => hd.lt hm (by omega)
  have hdropLt : ∀ y, DropIn t m a x y → y < h := fun y ⟨x', hx', _, hd⟩ => hd.lt hm (by omega)
  -- column `a` is dark, so some row is
  obtain ⟨y0, hy0⟩ := darkColumn_iff.mp (holds_of_runStart_le (Nat.le_of_eq ha.symm) hrun)
  have htopEq : top = topRow t m a x := by
    refine htop.eq_find (fun y => decide_eq_true_iff) (fun y hy => ?_)
      ⟨y0, a, hrun, Nat.le_refl a, hy0⟩
    rw [halen]
    exact hdarkLt y hy
  have hbottomEq : bottom.toNat = bottomRow t m a x :=
    hbottom.toNat_eq fun y hy => by rw [halen]; exact (hdropLt y hy).le
  have hle : bottom ≤ h := by
    rcases hbottom with ⟨rfl, -⟩ | ⟨k, rfl, hk, -⟩
    · omega
    · have := hdropLt k hk; omega
  refine ⟨htopEq, ?_⟩
  rw [htopEq, subMatrix_eq hm hx.le hle, hbottomEq]
  rfl

/-- A dark column goes on with the run, or starts one. -/
theorem ScanInv.dark {s : Scan} (hI : ScanInv t m x s) (hd : darkColumn t m x = true) {e : Edges}
    (htop : LeastOf (fun y => DarkIn t m (runStart (darkColumn t m) x) x y ∨ Dark t m x y) e.topEdge)
    (hbottom : GreatestOf (fun y => DropIn t m (runStart (darkColumn t m) x) x y ∨ Drop t m x y)
      e.bottomEdge) :
    ScanInv t m (x + 1) { s with
      leftEdge := if s.leftEdge < 0 then x else s.leftEdge
      topEdge := e.topEdge
      bottomEdge := e.bottomEdge } := by
  have hle := runStart_le (d := darkColumn t m) x
  have hstart := runStart_of_holds hd
  refine ⟨?_, ?_, ?_, ?_⟩
  · show (if s.leftEdge < 0 then (x : ℤ) else s.leftEdge) = _
    rw [hstart, hI.left]
    split_ifs <;> omega
  · rw [hstart]
    exact htop.congr fun y => (darkIn_succ hle y).symm
  · rw [hstart]
    exact hbottom.congr fun y => (dropIn_succ hle y).symm
  · rw [runEnds_succ, hd]
    simpa using hI.letters

/-- A light column that ends a run leaves nothing open. -/
theorem ScanInv.close {s : Scan} (hI : ScanInv t m x s) (hd : darkColumn t m x = false)
    (hrun : runStart (darkColumn t m) x < x) :
    ScanInv t m (x + 1) ⟨-1, -1, -1, s.letters ++ [shapeLetter t m x]⟩ := by
  have hstart := runStart_of_not hd
  refine ⟨?_, ?_, ?_, ?_⟩
  · rw [hstart, if_neg (by omega)]
  · rw [hstart]; exact leastOf_empty (not_darkIn_self _)
  · rw [hstart]; exact greatestOf_empty (not_dropIn_self _)
  · rw [runEnds_succ, if_pos ⟨hd, hrun⟩, List.map_append, hI.letters]
    rfl

/-- A light column outside a run changes nothing. -/
theorem ScanInv.light {s : Scan} (hI : ScanInv t m x s) (hd : darkColumn t m x = false)
    (hself : runStart (darkColumn t m) x = x) {e : Edges}
    (htop : LeastOf (DarkIn t m (runStart (darkColumn t m) x) x) e.topEdge)
    (hbottom : GreatestOf (DropIn t m (runStart (darkColumn t m) x) x) e.bottomEdge) :
    ScanInv t m (x + 1) { s with topEdge := e.topEdge, bottomEdge := e.bottomEdge } := by
  have hstart := runStart_of_not hd
  rw [hself] at htop hbottom
  refine ⟨?_, ?_, ?_, ?_⟩
  · rw [hstart, if_neg (by omega), hI.left, if_neg (by omega)]
  · rw [hstart]
    exact htop.congr fun y => iff_of_false (not_darkIn_self _ y) (not_darkIn_self _ y)
  · rw [hstart]
    exact hbottom.congr fun y => iff_of_false (not_dropIn_self _ y) (not_dropIn_self _ y)
  · rw [runEnds_succ, if_neg (fun hc => by omega), List.append_nil]
    exact hI.letters

/-- **One column keeps the invariant.** -/
theorem ScanInv.step (hm : Rect h m) (h0 : darkColumn t m 0 = false) (hx : x < m.length)
    {s : Scan} (hI : ScanInv t m x s) :
    ∃ s', scanColumn t m x s = .ok s' ∧ ScanInv t m (x + 1) s' := by
  have hfirst : (m.getD 0 []).length = h := hm.length_getD (by omega)
  have hle := runStart_le (d := darkColumn t m) x
  obtain ⟨e, he, htop, hbottom, hfound⟩ := scanPixels hm hx hI.top hI.bottom
  unfold scanColumn
  rw [elemAt_row (by omega), ok_bind, hfirst, he, ok_bind, hfound]
  cases hd : darkColumn t m x with
  | true =>
    rw [if_pos rfl]
    exact ⟨_, rfl, hI.dark hd htop hbottom⟩
  | false =>
    rw [if_neg (by simp)]
    have hnoDark : ∀ y, ¬ Dark t m x y := fun y hy => by
      rw [darkColumn_iff.mpr ⟨y, hy⟩] at hd; cases hd
    have hnoDrop : ∀ y, ¬ Drop t m x y := fun y hy => by rw [hy.darkColumn] at hd; cases hd
    have htop' := htop.congr fun y => or_iff_left (hnoDark y)
    have hbottom' := hbottom.congr fun y => or_iff_left (hnoDrop y)
    by_cases hrun : runStart (darkColumn t m) x < x
    · have hleft : s.leftEdge = (runStart (darkColumn t m) x : ℕ) := by rw [hI.left, if_pos hrun]
      have hpos := runStart_pos h0 (show 0 < x by omega)
      obtain ⟨htopEq, hshape⟩ := shape_copied hm hx hrun htop' hbottom'
      rw [if_pos (by omega), hleft, hshape, ok_bind, htopEq]
      exact ⟨_, rfl, hI.close hd hrun⟩
    · have hleft : s.leftEdge = -1 := by rw [hI.left, if_neg hrun]
      rw [if_neg (by omega)]
      exact ⟨_, rfl, hI.light hd (by omega) htop' hbottom'⟩

/-- If the first column is dark the left edge stays 0, and nothing is emitted. -/
theorem scanColumn_stuck (hm : Rect h m) (hx : x < m.length) (h0 : darkColumn t m 0 = true)
    {s : Scan} (hletters : s.letters = []) (hleft : s.leftEdge = if x = 0 then -1 else 0)
    (htop : ∃ P, LeastOf P s.topEdge) (hbottom : ∃ Q, GreatestOf Q s.bottomEdge) :
    ∃ s', scanColumn t m x s = .ok s' ∧ s'.letters = [] ∧ s'.leftEdge = 0 ∧
      (∃ P, LeastOf P s'.topEdge) ∧ ∃ Q, GreatestOf Q s'.bottomEdge := by
  obtain ⟨P, hP⟩ := htop
  obtain ⟨Q, hQ⟩ := hbottom
  have hfirst : (m.getD 0 []).length = h := hm.length_getD (by omega)
  obtain ⟨e, he, hP', hQ', hfound⟩ := scanPixels hm hx hP hQ
  unfold scanColumn
  rw [elemAt_row (by omega), ok_bind, hfirst, he, ok_bind, hfound]
  by_cases hx0 : x = 0
  · subst hx0
    rw [h0, if_pos rfl, hleft]
    exact ⟨_, rfl, hletters, rfl, ⟨_, hP'⟩, _, hQ'⟩
  · rw [if_neg hx0] at hleft
    split
    · rw [hleft]
      exact ⟨_, rfl, hletters, rfl, ⟨_, hP'⟩, _, hQ'⟩
    · rw [if_neg (by omega)]
      exact ⟨_, rfl, hletters, hleft, ⟨_, hP'⟩, _, hQ'⟩

/-- **What `findLetters` finds in a rectangular matrix.** -/
theorem findLetters_eq (t : ℤ) (hm : Rect h m) : findLetters t m = .ok (foundLetters t m) := by
  unfold findLetters
  rw [foundLetters]
  cases h0 : darkColumn t m 0 with
  | false =>
    obtain ⟨s, hs, hI⟩ := forUpTo_invariant (ScanInv t m) _ ScanInv.start
      fun x hx s hI => hI.step hm h0 hx
    rw [hs, ok_bind, hI.letters]
    rfl
  | true =>
    obtain ⟨s, hs, hletters, -⟩ := forUpTo_invariant
      (fun x s => s.letters = [] ∧ s.leftEdge = (if x = 0 then -1 else 0) ∧
        (∃ P, LeastOf P s.topEdge) ∧ ∃ Q, GreatestOf Q s.bottomEdge)
      (scanColumn t m) (s := ⟨-1, -1, -1, []⟩) (n := m.length)
      ⟨rfl, rfl, ⟨_, leastOf_empty fun _ => id⟩, _, greatestOf_empty fun _ => id⟩
      fun x hx s ⟨h1, h2, h3, h4⟩ => by
        obtain ⟨s', hs', h5, h6, h7, h8⟩ := scanColumn_stuck hm hx h0 h1 h2 h3 h4
        exact ⟨s', hs', h5, by rw [h6, if_neg (Nat.succ_ne_zero x)], h7, h8⟩
    rw [hs, ok_bind, hletters]
    rfl

/-! ### Images and the letters found -/

/-- An image as the recognisers take it: a rectangle whose sides are `int`s. -/
structure Image where
  columns : Matrix
  height : ℕ
  rect : Rect height columns
  width_lt : columns.length < 2 ^ 31
  height_lt : height < 2 ^ 31

def Image.width (image : Image) : ℕ := image.columns.length

/-- A dot in a blank image. -/
def dot : Image where
  columns := [[255, 255, 255], [255, 0, 255], [255, 255, 255]]
  height := 3
  rect := by decide
  width_lt := by decide
  height_lt := by decide

theorem mem_foundLetters {l : Letter} (hl : l ∈ foundLetters t m) :
    darkColumn t m 0 = false ∧
      ∃ b ∈ runEnds (darkColumn t m) m.length, l = shapeLetter t m b := by
  unfold foundLetters at hl
  split at hl
  · cases hl
  · rename_i h0
    obtain ⟨b, hb, rfl⟩ := List.mem_map.mp hl
    exact ⟨by simpa using h0, b, hb, rfl⟩

/-- The run that has ended before `b` is not empty, and stands inside the matrix. -/
theorem run_bounds {b : ℕ} (hb : b ∈ runEnds (darkColumn t m) m.length) :
    runStart (darkColumn t m) b < b ∧ b < m.length := by
  rw [mem_runEnds] at hb
  exact ⟨runStart_lt_iff.mpr ⟨hb.2.1, hb.2.2.2⟩, hb.1⟩

theorem shape_length (a b : ℕ) : (shape t m a b).length = b - a := length_table _ _ _

theorem shape_rect (a b : ℕ) : Rect (bottomRow t m a b - topRow t m a b) (shape t m a b) :=
  rect_table _ _ _

theorem shape_height {a b : ℕ} (hab : a < b) :
    ((shape t m a b).getD 0 []).length = bottomRow t m a b - topRow t m a b :=
  (shape_rect a b).length_getD (by rw [shape_length]; omega)

theorem bottomRow_le (hm : Rect h m) {a : ℕ} (ha : a < m.length) (b : ℕ) :
    bottomRow t m a b ≤ h := by
  unfold bottomRow
  rw [hm.length_getD ha]
  exact Nat.findGreatest_le _

theorem topRow_le_height (a b : ℕ) : topRow t m a b ≤ (m.getD a []).length := by
  unfold topRow
  cases hfind : (List.range (m.getD a []).length).find? fun y => decide (DarkIn t m a b y) with
  | none => exact Nat.zero_le _
  | some k => exact (List.mem_range.mp (List.mem_of_find?_eq_some hfind)).le

/-- No dark row of the interval stands above `topRow`. -/
theorem topRow_le {a b y : ℕ} (hy : DarkIn t m a b y) : topRow t m a b ≤ y := by
  unfold topRow
  cases hfind : (List.range (m.getD a []).length).find? fun y => decide (DarkIn t m a b y) with
  | none => exact Nat.zero_le y
  | some k =>
    rw [List.find?_range_eq_some] at hfind
    by_contra hlt
    have := hfind.2.2 y (by simpa using hlt)
    simp [hy] at this

/-- Every drop of the interval stands at or above `bottomRow`. -/
theorem le_bottomRow (hm : Rect h m) {a b y : ℕ} (ha : a < m.length) (hb : b ≤ m.length)
    (hy : DropIn t m a b y) : y ≤ bottomRow t m a b := by
  refine Nat.le_findGreatest ?_ hy
  obtain ⟨x, hx, -, hd⟩ := hy
  rw [hm.length_getD ha]
  exact (hd.lt hm (by omega)).le

/-- **A shape has a row exactly when its columns have a drop.** -/
theorem topRow_lt_bottomRow_iff (hm : Rect h m) {a b : ℕ} (hab : a < b) (hb : b ≤ m.length) :
    topRow t m a b < bottomRow t m a b ↔ ∃ y, DropIn t m a b y := by
  constructor
  · intro hlt
    by_contra hno
    have : bottomRow t m a b = 0 :=
      Nat.findGreatest_eq_zero_iff.mpr fun y _ _ hy => hno ⟨y, hy⟩
    omega
  · rintro ⟨y, hy⟩
    have hbottom := le_bottomRow hm (by omega) hb hy
    obtain ⟨x, hx, hax, hd⟩ := hy
    have hdark : DarkIn t m a b (y - 1) :=
      ⟨x, hx, hax, by have := hd.2.1; omega, hd.2.2.2⟩
    have htop := topRow_le hdark
    have := hd.1
    omega

/-- The size of a letter found: at least one column, perhaps no row. -/
theorem foundLetters_size (hm : Rect h m) {l : Letter} (hl : l ∈ foundLetters t m) :
    ∃ w k, 0 < w ∧ w < m.length ∧ k ≤ h ∧ l.matrix.length = w ∧ Rect k l.matrix := by
  obtain ⟨-, b, hb, rfl⟩ := mem_foundLetters hl
  obtain ⟨hlt, hbm⟩ := run_bounds hb
  have hle := bottomRow_le (t := t) hm (Nat.lt_trans hlt hbm) b
  exact ⟨_, _, by omega, by omega, by omega, shape_length _ b, shape_rect _ b⟩

/-- The pixels of a letter are pixels of the matrix. -/
theorem foundLetters_pixel (hm : Rect h m) {l : Letter} (hl : l ∈ foundLetters t m)
    {row : List ℤ} (hrow : row ∈ l.matrix) {v : ℤ} (hv : v ∈ row) : ∃ column ∈ m, v ∈ column := by
  obtain ⟨-, b, hb, rfl⟩ := mem_foundLetters hl
  obtain ⟨hlt, hbm⟩ := run_bounds hb
  have hle := bottomRow_le (t := t) hm (Nat.lt_trans hlt hbm) b
  refine forall_table (p := fun v => ∃ column ∈ m, v ∈ column) (fun i hi j hj => ?_) row hrow v hv
  exact entry_mem hm (by omega) (by omega)

theorem foundLetters_length : (foundLetters t m).length =
    if darkColumn t m 0 then 0 else (runEnds (darkColumn t m) m.length).length := by
  unfold foundLetters
  split
  · rfl
  · exact List.length_map _

theorem foundLetters_length_le : (foundLetters t m).length ≤ m.length := by
  unfold foundLetters
  split
  · exact Nat.zero_le _
  · rw [List.length_map]
    exact le_trans (List.length_filter_le _ _) (by rw [List.length_range])

end Ocr
end IcnDemo
