/-
# Layouts that make no difference

A letter's crop depends on its own columns only, and light pixels put on top of
them move it down (`crop_lowered`). So light columns can be repeated, and light
rows put on top of an image, without a change in what is recognised
(`layout_invariant`).
-/
import IcnDemo.Ocr.Crops

namespace IcnDemo
namespace Ocr

open Lib.Loop Lib.Grid Lib.Segments

/-- `column'` is `column` with `d` light pixels put on top. -/
def Lowered (t : ℤ) (d : ℕ) (column column' : List ℤ) : Prop :=
  ∃ top : List ℤ, top.length = d ∧ (∀ v ∈ top, t ≤ v) ∧ column' = top ++ column

variable {t : ℤ} {m m' : Matrix} {r d : ℕ}

/-! ### Lowered columns -/

theorem Lowered.refl (column : List ℤ) : Lowered t 0 column column :=
  ⟨[], rfl, fun _ hv => absurd hv List.not_mem_nil, rfl⟩

theorem Lowered.entry {x x' : ℕ} (h : Lowered t d (m.getD x []) (m'.getD x' [])) (y : ℕ) :
    entry m' x' (y + d) = entry m x y := by
  obtain ⟨top, rfl, -, hcol⟩ := h
  unfold Lib.Grid.entry
  rw [hcol, Nat.add_comm y, List.getD_append_right _ _ _ _ (by omega), Nat.add_sub_cancel_left]

/-- The pixels put on top are light. -/
theorem Lowered.light {x x' y : ℕ} (h : Lowered t d (m.getD x []) (m'.getD x' [])) (hy : y < d) :
    t ≤ Lib.Grid.entry m' x' y := by
  obtain ⟨top, rfl, hlight, hcol⟩ := h
  unfold Lib.Grid.entry
  rw [hcol, List.getD_append _ _ _ _ hy, List.getD_eq_getElem _ _ hy]
  exact hlight _ (List.getElem_mem hy)

theorem Lowered.length {x x' : ℕ} (h : Lowered t d (m.getD x []) (m'.getD x' [])) :
    (m'.getD x' []).length = (m.getD x []).length + d := by
  obtain ⟨top, rfl, -, hcol⟩ := h
  rw [hcol, List.length_append, Nat.add_comm]

/-- A lowered column has the dark pixels of the column, lowered. -/
theorem Lowered.dark_iff {x x' y' : ℕ} (h : Lowered t d (m.getD x []) (m'.getD x' [])) :
    Dark t m' x' y' ↔ ∃ y, y' = y + d ∧ Dark t m x y := by
  unfold Dark
  rw [h.length]
  constructor
  · intro ⟨hlt, hdark⟩
    have hd : d ≤ y' := by
      by_contra hlt'
      have := h.light (not_le.mp hlt')
      omega
    obtain ⟨y, rfl⟩ := Nat.exists_eq_add_of_le' hd
    rw [h.entry] at hdark
    exact ⟨y, rfl, by omega, hdark⟩
  · intro ⟨y, hy, hlt, hdark⟩
    subst hy
    rw [h.entry]
    exact ⟨by omega, hdark⟩

theorem Lowered.drop_iff {x x' y' : ℕ} (h : Lowered t d (m.getD x []) (m'.getD x' [])) :
    Drop t m' x' y' ↔ ∃ y, y' = y + d ∧ Drop t m x y := by
  unfold Drop
  rw [h.length]
  constructor
  · intro ⟨hpos, hlt, hlight, habove⟩
    -- the pixel above is dark, so it is not one of those put on top
    have hd : d ≤ y' - 1 := by
      by_contra hlt'
      have := h.light (not_le.mp hlt')
      omega
    obtain ⟨y, hy⟩ := Nat.exists_eq_add_of_le' hd
    obtain rfl : y' = (y + 1) + d := by omega
    rw [h.entry] at hlight
    rw [hy, h.entry] at habove
    exact ⟨y + 1, rfl, Nat.succ_pos y, by omega, hlight, habove⟩
  · intro ⟨y, hy, hpos, hlt, hlight, habove⟩
    subst hy
    rw [h.entry, show y + d - 1 = (y - 1) + d by omega, h.entry]
    exact ⟨by omega, by omega, hlight, habove⟩

theorem Lowered.darkColumn_eq {x x' : ℕ} (h : Lowered t d (m.getD x []) (m'.getD x' [])) :
    darkColumn t m' x' = darkColumn t m x := by
  rw [Bool.eq_iff_iff, darkColumn_iff, darkColumn_iff]
  constructor
  · intro ⟨y', hy'⟩
    obtain ⟨y, -, hy⟩ := h.dark_iff.mp hy'
    exact ⟨y, hy⟩
  · intro ⟨y, hy⟩
    exact ⟨y + d, h.dark_iff.mpr ⟨y, rfl, hy⟩⟩

/-! ### Lowered crops -/

section Crop

variable {a b a' : ℕ}

/-- The columns of `m'` from `a'` are those of `m` from `a` up to `b`, lowered. -/
def LoweredFrom (t : ℤ) (d : ℕ) (m m' : Matrix) (a b a' : ℕ) : Prop :=
  ∀ i < b - a, Lowered t d (m.getD (a + i) []) (m'.getD (a' + i) [])

/-- A property of the rows of the columns that holds of lowered rows holds of the
rows of lowered columns. -/
theorem exists_column_iff {P P' : ℕ → ℕ → Prop} {y' : ℕ}
    (hP : ∀ i < b - a, P' (a' + i) y' ↔ ∃ y, y' = y + d ∧ P (a + i) y) :
    (∃ x' < a' + (b - a), a' ≤ x' ∧ P' x' y') ↔ ∃ y, y' = y + d ∧ ∃ x < b, a ≤ x ∧ P x y := by
  constructor
  · intro ⟨x', hx', hax', hp⟩
    obtain ⟨i, rfl⟩ := Nat.exists_eq_add_of_le hax'
    obtain ⟨y, hy, hp⟩ := (hP i (by omega)).mp hp
    exact ⟨y, hy, a + i, by omega, by omega, hp⟩
  · intro ⟨y, hy, x, hx, hax, hp⟩
    obtain ⟨i, rfl⟩ := Nat.exists_eq_add_of_le hax
    exact ⟨a' + i, by omega, by omega, (hP i (by omega)).mpr ⟨y, hy, hp⟩⟩

theorem LoweredFrom.darkIn_iff (h : LoweredFrom t d m m' a b a') {y' : ℕ} :
    DarkIn t m' a' (a' + (b - a)) y' ↔ ∃ y, y' = y + d ∧ DarkIn t m a b y :=
  exists_column_iff fun i hi => (h i hi).dark_iff

theorem LoweredFrom.dropIn_iff (h : LoweredFrom t d m m' a b a') {y' : ℕ} :
    DropIn t m' a' (a' + (b - a)) y' ↔ ∃ y, y' = y + d ∧ DropIn t m a b y :=
  exists_column_iff fun i hi => (h i hi).drop_iff

variable (hm : Rect r m) (hm' : Rect (r + d) m') (hrun : IsRun t m a b)
  (hb' : a' + (b - a) ≤ m'.length) (h : LoweredFrom t d m m' a b a')

include hm hm' hrun hb' h

theorem LoweredFrom.topRow_eq : topRow t m' a' (a' + (b - a)) = topRow t m a b + d := by
  have hlt := hrun.lt
  have hdark := darkIn_topRow hm hlt hrun.le hrun.exists_dark
  have hlow : DarkIn t m' a' (a' + (b - a)) (topRow t m a b + d) := h.darkIn_iff.mpr ⟨_, rfl, hdark⟩
  obtain ⟨y, hy, hdark'⟩ :=
    h.darkIn_iff.mp (darkIn_topRow hm' (by omega) hb' ⟨_, hlow⟩)
  have h1 := topRow_le hlow
  have h2 := topRow_le hdark'
  omega

/-- Lowered columns have their lowest drop lowered, if they have one. -/
theorem LoweredFrom.rows_eq :
    bottomRow t m' a' (a' + (b - a)) - topRow t m' a' (a' + (b - a)) =
      bottomRow t m a b - topRow t m a b := by
  have hlt := hrun.lt
  have hle := hrun.le
  rw [h.topRow_eq hm hm' hrun hb']
  unfold bottomRow
  rw [hm.length_getD (by omega), hm'.length_getD (by omega)]
  by_cases hdrop : ∃ y, DropIn t m a b y
  · obtain ⟨y, hy⟩ := hdrop
    have hbound : ∀ y, DropIn t m a b y → y ≤ r := fun y ⟨x, hx, _, hd⟩ => (hd.lt hm (by omega)).le
    have hspec := Nat.findGreatest_spec (hbound y hy) hy
    have hfind : Nat.findGreatest (DropIn t m' a' (a' + (b - a))) (r + d) =
        Nat.findGreatest (DropIn t m a b) r + d := by
      rw [Nat.findGreatest_eq_iff]
      refine ⟨Nat.add_le_add_right (Nat.findGreatest_le r) d, fun _ => ?_, fun n hn _ hdrop => ?_⟩
      · exact h.dropIn_iff.mpr ⟨_, rfl, hspec⟩
      · obtain ⟨z, rfl, hz⟩ := h.dropIn_iff.mp hdrop
        have := Nat.le_findGreatest (hbound z hz) hz
        omega
    omega
  · have h0 : Nat.findGreatest (DropIn t m a b) r = 0 :=
      Nat.findGreatest_eq_zero_iff.mpr fun y _ _ hy => hdrop ⟨y, hy⟩
    have h0' : Nat.findGreatest (DropIn t m' a' (a' + (b - a))) (r + d) = 0 :=
      Nat.findGreatest_eq_zero_iff.mpr fun y _ _ hy => by
        obtain ⟨z, -, hz⟩ := h.dropIn_iff.mp hy
        exact hdrop ⟨z, hz⟩
    omega

/-- **The crop of lowered columns is the crop of the columns, moved.** -/
theorem crop_lowered : crop t m' a' (a' + (b - a)) =
    { crop t m a b with x := a', y := (crop t m a b).y + d } := by
  have hshape : shape t m' a' (a' + (b - a)) = shape t m a b := by
    unfold shape
    rw [h.rows_eq hm hm' hrun hb', Nat.add_sub_cancel_left]
    apply table_congr
    intro i hi j _
    rw [h.topRow_eq hm hm' hrun hb', Nat.add_right_comm, (h i hi).entry]
  unfold crop
  rw [hshape, h.topRow_eq hm hm' hrun hb']
  rfl

end Crop

/-! ### Stretched images -/

theorem darkColumn_of_length_le {x : ℕ} (hx : m.length ≤ x) : darkColumn t m x = false := by
  unfold darkColumn
  rw [List.getD_eq_default _ _ hx]
  rfl

/-- **The letters of a stretched and lowered image are those of the image, moved.** -/
theorem foundLetters_stretch {φ : ℕ → ℕ} (hm : Rect r m) (hm' : Rect (r + d) m')
    (hs : Stretch (darkColumn t m) (darkColumn t m') φ) (hlen : m'.length = φ m.length)
    (hcol : ∀ x < m.length, Lowered t d (m.getD x []) (m'.getD (φ x) [])) :
    foundLetters t m' =
      (foundLetters t m).map fun l => { l with x := φ l.x.toNat, y := l.y + d } := by
  have h0 : darkColumn t m' 0 = darkColumn t m 0 := by
    refine hs.same 0 0 (by rw [hs.zero]) ?_
    have := hs.lt_succ 0
    omega
  rw [foundLetters_eq_crops, foundLetters_eq_crops, h0, hlen, (hs.runs m.length).2]
  split
  · rfl
  · rw [List.map_map, List.map_map]
    apply List.map_congr_left
    intro p hp
    obtain ⟨hrun, hlt⟩ := (mem_runs_iff (Nat.le_refl _)).mp hp
    have hab := hrun.lt
    -- along the run `φ` moves column by column
    have hmove : ∀ i ≤ p.2 - p.1, φ (p.1 + i) = φ p.1 + i := fun i hi =>
      hs.add_of_holds p.1 fun j hj => darkColumn_iff.mpr (hrun.dark _ (by omega) (by omega))
    have hend : φ p.2 = φ p.1 + (p.2 - p.1) := by
      rw [← hmove _ (Nat.le_refl _), Nat.add_sub_cancel' hab.le]
    have hfrom : LoweredFrom t d m m' p.1 p.2 (φ p.1) := fun i hi => by
      rw [← hmove i hi.le]
      exact hcol _ (by omega)
    have hb' : φ p.1 + (p.2 - p.1) ≤ m'.length := by
      rw [hlen, ← hend]
      exact (hs.strictMono hlt).le
    show crop t m' (φ p.1) (φ p.2) = _
    rw [hend, crop_lowered hm hm' hrun hb' hfrom]
    rfl

/-! ### Repeated columns and rows on top -/

/-- Column `x` and `copies x` more of it, for every column. -/
def duplicate : (ℕ → ℕ) → Matrix → Matrix
  | _, [] => []
  | copies, column :: m =>
    List.replicate (copies 0 + 1) column ++ duplicate (fun x => copies (x + 1)) m

/-- The pixels `tops x` put on top of column `x`. -/
def lower (tops : ℕ → List ℤ) (m : Matrix) : Matrix := m.mapIdx fun x column => tops x ++ column

/-- The number of columns inserted left of column `x`. -/
def inserted (copies : ℕ → ℕ) : ℕ → ℕ
  | 0 => 0
  | x + 1 => inserted copies x + copies x

theorem inserted_succ' (copies : ℕ → ℕ) (x : ℕ) :
    inserted copies (x + 1) = copies 0 + inserted (fun x => copies (x + 1)) x := by
  induction x with
  | zero => rw [inserted, inserted, inserted, Nat.zero_add, Nat.add_zero]
  | succ x ih => rw [inserted, ih, inserted, Nat.add_assoc]

theorem duplicate_length : ∀ (m : Matrix) (copies : ℕ → ℕ),
    (duplicate copies m).length = m.length + inserted copies m.length
  | [], _ => rfl
  | column :: m, copies => by
    unfold duplicate
    rw [List.length_append, List.length_replicate, duplicate_length m, List.length_cons,
      inserted_succ']
    omega

/-- Where the copies of column `x` stand. -/
theorem duplicate_getD : ∀ (m : Matrix) (copies : ℕ → ℕ) {x x' : ℕ}, x + inserted copies x ≤ x' →
    x' < x + 1 + inserted copies (x + 1) → (duplicate copies m).getD x' [] = m.getD x []
  | [], _, _, _, _, _ => rfl
  | column :: m, copies, 0, x', _, h2 => by
    rw [inserted_succ', inserted] at h2
    unfold duplicate
    rw [List.getD_append _ _ _ _ (by rw [List.length_replicate]; omega), List.getD_cons_zero,
      List.getD_eq_getElem _ _ (by rw [List.length_replicate]; omega), List.getElem_replicate]
  | column :: m, copies, x + 1, x', h1, h2 => by
    rw [inserted_succ'] at h1 h2
    unfold duplicate
    rw [List.getD_append_right _ _ _ _ (by rw [List.length_replicate]; omega),
      List.length_replicate, List.getD_cons_succ]
    exact duplicate_getD m _ (by omega) (by omega)

theorem mem_duplicate : ∀ {m : Matrix} {copies : ℕ → ℕ} {column : List ℤ},
    column ∈ duplicate copies m → column ∈ m
  | first :: m, copies, column, h => by
    unfold duplicate at h
    rcases List.mem_append.mp h with h | h
    · rw [List.eq_of_mem_replicate h]
      exact List.mem_cons_self
    · exact List.mem_cons_of_mem _ (mem_duplicate h)

theorem lower_length (tops : ℕ → List ℤ) (m : Matrix) : (lower tops m).length = m.length := by
  unfold lower
  rw [List.length_mapIdx]

theorem lower_getD {tops : ℕ → List ℤ} {x : ℕ} (hx : x < m.length) :
    (lower tops m).getD x [] = tops x ++ m.getD x [] := by
  unfold lower
  rw [List.getD_eq_getElem _ _ (by rw [List.length_mapIdx]; exact hx), List.getElem_mapIdx,
    List.getD_eq_getElem _ _ hx]

/-- A recogniser sees of a letter its matrix only. -/
theorem recognise_congr {F : Type} (fp : Lib.Double.Ops F) (fuel : ℕ) (letters : List Letter)
    {l l' : Letter} (h : l.matrix = l'.matrix) :
    recognise fp fuel letters l = recognise fp fuel letters l' := by
  have hturn : ∀ j, tryTemplate fp fuel l letters j = tryTemplate fp fuel l' letters j := fun j => by
    unfold tryTemplate
    rw [h]
  unfold recognise matchLetter
  rw [show tryTemplate fp fuel l letters = tryTemplate fp fuel l' letters from funext hturn]

/-- Images with the same crops are recognised alike. -/
theorem characterRecognition_congr {F : Type} (fp : Lib.Double.Ops F) (fuel : ℕ) {r' : ℕ}
    (hm : Rect r m) (hm' : Rect r' m') {f : Letter → Letter}
    (hfound : foundLetters 127 m' = (foundLetters 127 m).map f) (hf : ∀ l, (f l).matrix = l.matrix)
    (letters_c : Matrix) (letters_rows letters_cols : ℕ) :
    characterRecognition fp fuel m' m'.length r' letters_c letters_rows letters_cols =
      characterRecognition fp fuel m m.length r letters_c letters_rows letters_cols := by
  unfold characterRecognition prepare
  rw [readRows_of_rect hm, readRows_of_rect hm', ok_bind, ok_bind]
  cases readRows letters_c letters_rows letters_cols with
  | error e => rfl
  | ok letters_vec =>
    rw [ok_bind, ok_bind]
    cases importLetters letters_vec letters_rows with
    | error e => rfl
    | ok letters =>
      rw [ok_bind, ok_bind, findLetters_eq _ hm, findLetters_eq _ hm', ok_bind, ok_bind, hfound]
      dsimp only
      rw [List.length_map, storeEach_map f fun l _ => recognise_congr fp fuel letters (hf l)]

theorem inserted_mono (copies : ℕ → ℕ) {x y : ℕ} (hxy : x ≤ y) :
    inserted copies x ≤ inserted copies y := by
  apply monotone_nat_of_le_succ _ hxy
  intro x
  exact Nat.le_add_right _ _

section Duplicate

variable {copies : ℕ → ℕ} {tops : ℕ → List ℤ}
  (htops : ∀ x < (duplicate copies m).length, (tops x).length = d ∧ ∀ v ∈ tops x, t ≤ v)

include htops

/-- The copies of a column, with the pixels put on top. -/
theorem lowered_copies {x x' : ℕ} (hx : x < m.length) (h1 : x + inserted copies x ≤ x')
    (h2 : x' < x + 1 + inserted copies (x + 1)) :
    Lowered t d (m.getD x []) ((lower tops (duplicate copies m)).getD x' []) := by
  have hx' : x' < (duplicate copies m).length := by
    have := inserted_mono copies (show x + 1 ≤ m.length by omega)
    rw [duplicate_length]
    omega
  refine ⟨tops x', (htops x' hx').1, (htops x' hx').2, ?_⟩
  rw [lower_getD hx', duplicate_getD m copies h1 h2]

/-- **Light columns repeated are a stretch.** -/
theorem stretch_duplicate (hcopies : ∀ x y, Dark t m x y → copies x = 0) :
    Stretch (darkColumn t m) (darkColumn t (lower tops (duplicate copies m)))
      fun x => x + inserted copies x := by
  refine ⟨rfl, fun x => ?_, fun x hd => ?_, fun x x' h1 h2 => ?_⟩
  · have := inserted_mono copies (show x ≤ x + 1 by omega)
    show x + inserted copies x < x + 1 + inserted copies (x + 1)
    omega
  · obtain ⟨y, hy⟩ := darkColumn_iff.mp hd
    show x + 1 + (inserted copies x + copies x) = x + inserted copies x + 1
    rw [hcopies x y hy]
    omega
  · by_cases hx : x < m.length
    · exact (lowered_copies htops hx h1 h2).darkColumn_eq
    · have hbeyond : (lower tops (duplicate copies m)).length ≤ x' := by
        have := inserted_mono copies (not_lt.mp hx)
        have h1' : x + inserted copies x ≤ x' := h1
        rw [lower_length, duplicate_length]
        omega
      rw [darkColumn_of_length_le (not_lt.mp hx), darkColumn_of_length_le hbeyond]

end Duplicate

/-- **Layout does not matter.** Repeat light columns any number of times and put
light pixels on top of every column: the letters found are the same, moved right
by the columns inserted on their left and down by the rows, and what is recognised
is the same. -/
theorem layout_invariant (t : ℤ) (image changed : Image) (copies : ℕ → ℕ)
    (hcopies : ∀ x y, Dark t image.columns x y → copies x = 0) (tops : ℕ → List ℤ)
    (htops : ∀ x < (duplicate copies image.columns).length,
      (tops x).length = d ∧ ∀ v ∈ tops x, t ≤ v)
    (hcolumns : changed.columns = lower tops (duplicate copies image.columns))
    (hheight : changed.height = image.height + d) :
    ∃ letters, findLetters t image.columns = .ok letters ∧
      findLetters t changed.columns = .ok (letters.map fun l =>
        { l with x := l.x + inserted copies l.x.toNat, y := l.y + d }) ∧
      (t = 127 → ∀ {F : Type} (fp : Lib.Double.Ops F) (fuel : ℕ) (letters_c : Matrix)
        (letters_rows letters_cols : ℕ),
        characterRecognition fp fuel changed.columns changed.width changed.height letters_c
            letters_rows letters_cols =
          characterRecognition fp fuel image.columns image.width image.height letters_c
            letters_rows letters_cols) := by
  have hm := image.rect
  have hm' : Rect (image.height + d) changed.columns := hheight ▸ changed.rect
  have hs := stretch_duplicate htops hcopies
  have hlen : changed.columns.length =
      image.columns.length + inserted copies image.columns.length := by
    rw [hcolumns, lower_length, duplicate_length]
  rw [← hcolumns] at hs
  have hfound := foundLetters_stretch hm hm' hs hlen fun x hx => by
    rw [hcolumns]
    exact lowered_copies htops hx (Nat.le_refl _) (hs.lt_succ x)
  refine ⟨_, findLetters_eq t hm, ?_, fun ht F fp fuel letters_c => ?_⟩
  · rw [findLetters_eq t hm', hfound]
    congr 1
    apply List.map_congr_left
    intro l hl
    obtain ⟨-, a, b, -, -, rfl⟩ := mem_foundLetters_iff.mp hl
    rw [Letter.mk.injEq]
    refine ⟨rfl, rfl, ?_, rfl⟩
    show (((a : ℤ).toNat + inserted copies (a : ℤ).toNat : ℕ) : ℤ) = a + inserted copies (a : ℤ).toNat
    rw [Int.toNat_natCast, Nat.cast_add]
  · subst ht
    rw [Image.width, Image.width]
    exact characterRecognition_congr fp fuel hm changed.rect hfound (fun _ => rfl) letters_c

/-- The dot's image with its first column three times, and a row on top. -/
def changedDot : Image where
  columns := lower (fun _ => [255]) (duplicate (fun x => if x = 0 then 2 else 0) dot.columns)
  height := dot.height + 1
  rect := by decide
  width_lt := by decide
  height_lt := by decide

theorem layout_invariant_dot : ∃ letters, findLetters 127 dot.columns = .ok letters ∧
    findLetters 127 changedDot.columns = .ok (letters.map fun l => { l with
      x := l.x + inserted (fun x => if x = 0 then 2 else 0) l.x.toNat
      y := l.y + (1 : ℕ) }) ∧
    ∀ {F : Type} (fp : Lib.Double.Ops F) (fuel : ℕ) (letters_c : Matrix)
      (letters_rows letters_cols : ℕ),
      characterRecognition fp fuel changedDot.columns changedDot.width changedDot.height letters_c
          letters_rows letters_cols =
        characterRecognition fp fuel dot.columns dot.width dot.height letters_c
          letters_rows letters_cols := by
  have hlight : ∀ y, ¬ Dark 127 dot.columns 0 y := darkColumn_eq_false_iff.mp (by decide)
  have hcopies : ∀ x y, Dark 127 dot.columns x y → (if x = 0 then 2 else 0) = 0 := fun x y hd => by
    by_cases hx : x = 0
    · exact absurd (hx ▸ hd) (hlight y)
    · exact if_neg hx
  obtain ⟨letters, hfound, hmoved, hsame⟩ := layout_invariant 127 dot changedDot
    _ hcopies (fun _ => [255]) (d := 1) (fun _ _ => ⟨rfl, by decide⟩) rfl rfl
  exact ⟨letters, hfound, hmoved, hsame rfl⟩

end Ocr
end IcnDemo
