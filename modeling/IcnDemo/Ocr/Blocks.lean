/-
# Images made of blocks

An image that shows blocks of pixels on a light ground, from left to right, with
light columns between them and a light row below (`Shows`). If every block has a
dark pixel in each of its columns and in its first and last row (`Inked`),
segmentation finds exactly the blocks (`Shows.foundLetters_eq`). `painting` makes
such an image (`painting_shows`).
-/
import IcnDemo.Ocr.Segmentation

namespace IcnDemo
namespace Ocr

open Lib.Grid Lib.Segments

/-- A matrix and the place of its first pixel. -/
structure Block where
  matrix : Matrix
  left : ℕ
  top : ℕ

namespace Block

variable (b : Block)

def width : ℕ := b.matrix.length

def height : ℕ := (b.matrix.getD 0 []).length

/-- The first column after the block. -/
def right : ℕ := b.left + b.width

/-- The first row below the block. -/
def bottom : ℕ := b.top + b.height

/-- The pixel `(x, y)` is in the block. -/
def Covers (x y : ℕ) : Prop := (b.left ≤ x ∧ x < b.right) ∧ b.top ≤ y ∧ y < b.bottom

instance (x y : ℕ) : Decidable (b.Covers x y) := inferInstanceAs (Decidable (_ ∧ _))

/-- The letter found where the block is. -/
def letter : Letter := { Letter.new b.matrix with x := b.left, y := b.top }

end Block

/-- A rectangle with a dark pixel in every column, in the first and in the last row. -/
structure Inked (t : ℤ) (m : Matrix) : Prop where
  rect : Rect (m.getD 0 []).length m
  columns : ∀ x < m.length, ∃ y < (m.getD 0 []).length, entry m x y < t
  firstRow : ∃ x < m.length, entry m x 0 < t
  lastRow : ∃ x < m.length, entry m x ((m.getD 0 []).length - 1) < t

instance (t : ℤ) (m : Matrix) : Decidable (Inked t m) :=
  decidable_of_iff (Rect (m.getD 0 []).length m ∧
    (∀ x < m.length, ∃ y < (m.getD 0 []).length, entry m x y < t) ∧
    (∃ x < m.length, entry m x 0 < t) ∧
    ∃ x < m.length, entry m x ((m.getD 0 []).length - 1) < t)
    ⟨fun ⟨h1, h2, h3, h4⟩ => ⟨h1, h2, h3, h4⟩, fun ⟨h1, h2, h3, h4⟩ => ⟨h1, h2, h3, h4⟩⟩

/-- The image shows the blocks, from left to right, and is light elsewhere. -/
structure Shows (t : ℤ) (image : Image) (blocks : List Block) : Prop where
  before : ∀ b ∈ blocks, 0 < b.left
  apart : blocks.Pairwise fun b b' => b.right < b'.left
  after : ∀ b ∈ blocks, b.right < image.width
  below : ∀ b ∈ blocks, b.bottom < image.height
  inside : ∀ b ∈ blocks, ∀ x < b.width, ∀ y < b.height,
    entry image.columns (b.left + x) (b.top + y) = entry b.matrix x y
  outside : ∀ x < image.width, ∀ y < image.height, (∀ b ∈ blocks, ¬ b.Covers x y) →
    t ≤ entry image.columns x y

variable {t : ℤ} {image : Image} {blocks : List Block} {b : Block} {x y : ℕ}

theorem Inked.width_pos {m : Matrix} (h : Inked t m) : 0 < m.length := by
  obtain ⟨x, hx, -⟩ := h.firstRow
  omega

theorem Inked.height_pos {m : Matrix} (h : Inked t m) : 0 < (m.getD 0 []).length := by
  obtain ⟨y, hy, -⟩ := h.columns 0 h.width_pos
  omega

theorem Dark.lt_length {m : Matrix} (hd : Dark t m x y) : x < m.length := by
  by_contra hge
  have hlt := hd.1
  rw [List.getD_eq_default _ _ (not_lt.mp hge)] at hlt
  exact absurd hlt (Nat.not_lt_zero y)

/-! ### The pixels of the image -/

/-- No column is in two blocks. -/
theorem block_unique (apart : blocks.Pairwise fun b b' => b.right < b'.left) (hb : b ∈ blocks)
    {b' : Block} (hb' : b' ∈ blocks) (hx : b.left ≤ x ∧ x < b.right)
    (hx' : b'.left ≤ x ∧ x < b'.right) : b = b' := by
  obtain ⟨i, hi, rfl⟩ := List.mem_iff_getElem.mp hb
  obtain ⟨j, hj, rfl⟩ := List.mem_iff_getElem.mp hb'
  have hord := List.pairwise_iff_getElem.mp apart
  rcases Nat.lt_trichotomy i j with hij | rfl | hij
  · have := hord i j hi hj hij; omega
  · rfl
  · have := hord j i hj hi hij; omega

namespace Shows

/-- **The dark pixels in the columns of a block are the block's.** -/
theorem dark_iff (h : Shows t image blocks) (hb : b ∈ blocks) (hx : b.left ≤ x ∧ x < b.right) :
    Dark t image.columns x y ↔
      (b.top ≤ y ∧ y < b.bottom) ∧ entry b.matrix (x - b.left) (y - b.top) < t := by
  have hafter := h.after b hb
  have hbelow := h.below b hb
  have hpixel : b.top ≤ y → y < b.bottom →
      entry image.columns x y = entry b.matrix (x - b.left) (y - b.top) := fun h1 h2 => by
    have := h.inside b hb (x - b.left) (by have := hx.2; rw [Block.right] at this; omega)
      (y - b.top) (by rw [Block.bottom] at h2; omega)
    rwa [Nat.add_sub_cancel' hx.1, Nat.add_sub_cancel' h1] at this
  constructor
  · intro hd
    have hy : b.top ≤ y ∧ y < b.bottom := by
      by_contra hout
      refine absurd (h.outside x hd.lt_length y (hd.lt image.rect hd.lt_length) ?_) (not_le.mpr hd.2)
      intro b' hb' hcov
      obtain rfl := block_unique h.apart hb hb' hx hcov.1
      exact hout hcov.2
    exact ⟨hy, hpixel hy.1 hy.2 ▸ hd.2⟩
  · rintro ⟨⟨h1, h2⟩, hlt⟩
    refine ⟨?_, hpixel h1 h2 ▸ hlt⟩
    rw [image.rect.length_getD (show x < image.columns.length from lt_trans hx.2 hafter)]
    omega

/-- The dark columns are those of the blocks. -/
theorem darkColumn_iff (h : Shows t image blocks) (hink : ∀ b ∈ blocks, Inked t b.matrix) :
    darkColumn t image.columns x = true ↔ ∃ b ∈ blocks, b.left ≤ x ∧ x < b.right := by
  rw [Ocr.darkColumn_iff]
  constructor
  · rintro ⟨y, hd⟩
    by_contra hno
    refine absurd (h.outside x hd.lt_length y (hd.lt image.rect hd.lt_length) ?_) (not_le.mpr hd.2)
    exact fun b hb hcov => hno ⟨b, hb, hcov.1⟩
  · rintro ⟨b, hb, hx⟩
    obtain ⟨y, hy, hlt⟩ := (hink b hb).columns (x - b.left) (by
      have := hx.2
      rw [Block.right, Block.width] at this
      omega)
    refine ⟨b.top + y, (h.dark_iff hb hx).mpr ⟨⟨Nat.le_add_right _ _, ?_⟩, ?_⟩⟩
    · exact Nat.add_lt_add_left hy _
    · rwa [Nat.add_sub_cancel_left]

/-! ### The rows of a block -/

theorem darkIn_iff (h : Shows t image blocks) (hb : b ∈ blocks) :
    DarkIn t image.columns b.left b.right y ↔
      (b.top ≤ y ∧ y < b.bottom) ∧ ∃ x < b.width, entry b.matrix x (y - b.top) < t := by
  constructor
  · rintro ⟨x, hxr, hxl, hd⟩
    obtain ⟨hy, hlt⟩ := (h.dark_iff hb ⟨hxl, hxr⟩).mp hd
    exact ⟨hy, x - b.left, by rw [Block.right] at hxr; omega, hlt⟩
  · rintro ⟨hy, x, hx, hlt⟩
    refine ⟨b.left + x, Nat.add_lt_add_left hx _, Nat.le_add_right _ _, ?_⟩
    exact (h.dark_iff hb ⟨Nat.le_add_right _ _, Nat.add_lt_add_left hx _⟩).mpr
      ⟨hy, by rwa [Nat.add_sub_cancel_left]⟩

theorem topRow_eq (h : Shows t image blocks) (hink : ∀ b ∈ blocks, Inked t b.matrix)
    (hb : b ∈ blocks) : topRow t image.columns b.left b.right = b.top := by
  have hpos := (hink b hb).height_pos
  have hdark : DarkIn t image.columns b.left b.right b.top :=
    (h.darkIn_iff hb).mpr ⟨⟨Nat.le_refl _, Nat.lt_add_of_pos_right hpos⟩, by
      rw [Nat.sub_self]; exact (hink b hb).firstRow⟩
  have hleast : LeastOf (DarkIn t image.columns b.left b.right) (b.top : ℤ) :=
    Or.inr ⟨_, rfl, hdark, fun y hy => ((h.darkIn_iff hb).mp hy).1.1⟩
  have hleft : b.left < image.columns.length :=
    lt_of_le_of_lt (Nat.le_add_right _ _) (h.after b hb)
  have hfind : (b.top : ℤ) = topRow t image.columns b.left b.right := by
    refine hleast.eq_find (fun y => decide_eq_true_iff) (fun y hy => ?_) ⟨_, hdark⟩
    obtain ⟨x, -, -, hd⟩ := hy
    rw [image.rect.length_getD hleft]
    exact hd.lt image.rect hd.lt_length
  exact_mod_cast hfind.symm

/-- Below the last row of a block there is a drop, and none further down. -/
theorem bottomRow_eq (h : Shows t image blocks) (hink : ∀ b ∈ blocks, Inked t b.matrix)
    (hb : b ∈ blocks) : bottomRow t image.columns b.left b.right = b.bottom := by
  have hpos := (hink b hb).height_pos
  have hbelow := h.below b hb
  have hafter := h.after b hb
  have hheight : b.bottom = b.top + (b.matrix.getD 0 []).length := rfl
  have hdrop : DropIn t image.columns b.left b.right b.bottom := by
    obtain ⟨x, hx, hlt⟩ := (hink b hb).lastRow
    have hcol : b.left ≤ b.left + x ∧ b.left + x < b.right :=
      ⟨Nat.le_add_right _ _, Nat.add_lt_add_left hx _⟩
    have hrow : b.bottom < (image.columns.getD (b.left + x) []).length := by
      rwa [image.rect.length_getD]
      exact lt_trans hcol.2 hafter
    refine ⟨b.left + x, hcol.2, hcol.1, by omega, hrow, not_lt.mp fun hdark => ?_, ?_⟩
    · have := ((h.dark_iff hb hcol).mp ⟨hrow, hdark⟩).1.2
      omega
    · refine ((h.dark_iff hb hcol).mpr ⟨⟨by omega, by omega⟩, ?_⟩).2
      rwa [Nat.add_sub_cancel_left, hheight, Nat.add_sub_assoc (by omega), Nat.add_sub_cancel_left]
  have hmax : ∀ y, DropIn t image.columns b.left b.right y → y ≤ b.bottom := by
    rintro y ⟨x, hxr, hxl, hd⟩
    have hprev : Dark t image.columns x (y - 1) := ⟨by have := hd.2.1; omega, hd.2.2.2⟩
    have := ((h.dark_iff hb ⟨hxl, hxr⟩).mp hprev).1.2
    omega
  have hgreatest : GreatestOf (DropIn t image.columns b.left b.right) (b.bottom : ℤ) :=
    Or.inr ⟨_, rfl, hdrop, hmax⟩
  have hleft : b.left < image.columns.length :=
    lt_of_le_of_lt (Nat.le_add_right _ _) hafter
  unfold bottomRow
  rw [← hgreatest.toNat_eq fun y hy => ?_, Int.toNat_natCast]
  rw [image.rect.length_getD hleft]
  exact le_trans (hmax y hy) hbelow.le

/-! ### The letters found -/

theorem shapeLetter_eq (h : Shows t image blocks) (hink : ∀ b ∈ blocks, Inked t b.matrix)
    (hb : b ∈ blocks) (hstart : runStart (darkColumn t image.columns) b.right = b.left) :
    shapeLetter t image.columns b.right = b.letter := by
  have hw : b.right - b.left = b.matrix.length := Nat.add_sub_cancel_left _ _
  have hh : b.bottom - b.top = (b.matrix.getD 0 []).length := Nat.add_sub_cancel_left _ _
  have hshape : shape t image.columns b.left b.right = b.matrix := by
    unfold shape
    rw [h.topRow_eq hink hb, h.bottomRow_eq hink hb, hw, hh]
    exact (table_congr fun x hx y hy => h.inside b hb x hx y hy).trans (hink b hb).rect.eq_table.symm
  rw [shapeLetter, hstart, hshape, h.topRow_eq hink hb]
  rfl

/-- **Segmentation finds the blocks.** -/
theorem foundLetters_eq (h : Shows t image blocks) (hink : ∀ b ∈ blocks, Inked t b.matrix) :
    foundLetters t image.columns = blocks.map Block.letter := by
  have h0 : darkColumn t image.columns 0 = false := Bool.eq_false_iff.mpr fun h0 => by
    obtain ⟨b, hb, hle, -⟩ := (h.darkColumn_iff hink).mp h0
    have := h.before b hb
    omega
  -- the runs of dark columns are the columns of the blocks
  have hmem : ∀ p ∈ blocks.map (fun b => (b.left, b.right)), ∃ b ∈ blocks, (b.left, b.right) = p :=
    fun p hp => List.mem_map.mp hp
  have hlt : ∀ p ∈ blocks.map (fun b => (b.left, b.right)), p.1 < p.2 := fun p hp => by
    obtain ⟨b, hb, rfl⟩ := hmem p hp
    exact Nat.lt_add_of_pos_right (hink b hb).width_pos
  have hsep : (blocks.map fun b => (b.left, b.right)).Pairwise fun p q => p.2 < q.1 :=
    List.pairwise_map.mpr h.apart
  have hend : ∀ p ∈ blocks.map (fun b => (b.left, b.right)), p.2 < image.columns.length :=
    fun p hp => by
      obtain ⟨b, hb, rfl⟩ := hmem p hp
      exact h.after b hb
  have hd : ∀ x < image.columns.length, darkColumn t image.columns x = true ↔
      ∃ p ∈ blocks.map (fun b => (b.left, b.right)), p.1 ≤ x ∧ x < p.2 := fun x _ => by
    simp [h.darkColumn_iff hink]
  rw [foundLetters, h0, if_neg Bool.false_ne_true, runEnds_of_intervals hlt hsep hend hd,
    List.map_map, List.map_map]
  refine List.map_congr_left fun b hb => h.shapeLetter_eq hink hb ?_
  exact runStart_of_mem hlt hsep hend hd (List.mem_map_of_mem hb)

end Shows

/-! ### Painting -/

/-- The blocks on a ground of 255. -/
def paint (blocks : List Block) (x y : ℕ) : ℤ :=
  match blocks.find? fun b => decide (b.Covers x y) with
  | some b => entry b.matrix (x - b.left) (y - b.top)
  | none => 255

/-- A painted image. -/
def painting (blocks : List Block) (width height : ℕ) (hw : width < 2 ^ 31)
    (hh : height < 2 ^ 31) : Image where
  columns := table width height (paint blocks)
  height := height
  rect := rect_table _ _ _
  width_lt := by rwa [length_table]
  height_lt := hh

/-- **A painted image shows its blocks.** -/
theorem painting_shows {width height : ℕ} (hw : width < 2 ^ 31) (hh : height < 2 ^ 31)
    (ht : t ≤ 255) (before : ∀ b ∈ blocks, 0 < b.left)
    (apart : blocks.Pairwise fun b b' => b.right < b'.left) (after : ∀ b ∈ blocks, b.right < width)
    (below : ∀ b ∈ blocks, b.bottom < height) :
    Shows t (painting blocks width height hw hh) blocks where
  before := before
  apart := apart
  after b hb := by rw [Image.width, painting, length_table]; exact after b hb
  below := below
  inside b hb x hx y hy := by
    have hcov : b.Covers (b.left + x) (b.top + y) :=
      ⟨⟨Nat.le_add_right _ _, Nat.add_lt_add_left hx _⟩, Nat.le_add_right _ _,
        Nat.add_lt_add_left hy _⟩
    unfold painting
    rw [entry_table _ (lt_trans hcov.1.2 (after b hb)) (lt_trans hcov.2.2 (below b hb)), paint]
    cases hfind : blocks.find? fun b' => decide (b'.Covers (b.left + x) (b.top + y)) with
    | none =>
      have := List.find?_eq_none.mp hfind b hb
      simp [hcov] at this
    | some b' =>
      have hcov' : b'.Covers (b.left + x) (b.top + y) := by
        simpa using List.find?_some hfind
      obtain rfl := block_unique apart hb (List.mem_of_find?_eq_some hfind) hcov.1 hcov'.1
      simp
  outside x hx y hy hno := by
    unfold Image.width at hx
    rw [painting, length_table] at hx
    unfold painting
    have hnone : (blocks.find? fun b => decide (b.Covers x y)) = none :=
      List.find?_eq_none.mpr fun b hb => by simpa using hno b hb
    rw [entry_table _ hx (show y < height from hy), paint, hnone]
    exact ht

end Ocr
end IcnDemo
