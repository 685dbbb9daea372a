/-
# The two recognisers agree

`characterRecognition` and `characterRecognitionWrap` are one pipeline written
twice. Segment by segment and template by template the one simulates the other
(`findLetters_segments`, `matchLetter_bestMatch`), so they leave the same
outcome (`recognisers_agree`), also where they fail: with no templates the one
throws before it matches, the other after. The outcome is a normal return or an
`out_of_range`; in a standard model of `double` the loops end.
-/
import IcnDemo.Ocr.Wrap
import IcnDemo.Ocr.Segmentation
import IcnDemo.Ocr.Scaling

namespace IcnDemo
namespace Ocr

open Lib.Loop Lib.Grid Lib.Double

/-! ### Letters -/

def Letter.toLetter2 (l : Letter) : Letter2 := ⟨l.letter, l.matrix, l.x, l.y⟩

def Letter2.toLetter (l : Letter2) : Letter := ⟨l.letter, l.matrix, l.x, l.y⟩

@[simp] theorem toLetter2_toLetter (l : Letter2) : l.toLetter.toLetter2 = l := rfl

@[simp] theorem toLetter_toLetter2 (l : Letter) : l.toLetter2.toLetter = l := rfl

theorem importLetter_toLetter2 (data : CArray) (rows cols : ℕ) :
    Letter2.importLetter data rows cols =
      (Letter.importLetter data rows cols).map Letter.toLetter2 :=
  bind_eq_map fun _ => bind_eq_map fun _ => bind_eq_map fun _ => bind_eq_map fun _ => rfl

/-- An array of templates as the recognisers take it: at most 26 rows, each long
enough for its template. -/
structure IsAlphabet (letters_c : Matrix) : Prop where
  length_le : letters_c.length ≤ 26
  fits : ∀ i < letters_c.length,
    (sizes.getD i (0, 0)).1 * (sizes.getD i (0, 0)).2 + 3 ≤ (letters_c.getD i []).length

/-- The `i`-th template. -/
def template (letters_c : Matrix) (i : ℕ) : Letter :=
  Letter.ofRow (letters_c.getD i []) (sizes.getD i (0, 0)).1 (sizes.getD i (0, 0)).2

def templates (letters_c : Matrix) : List Letter :=
  (List.range letters_c.length).map (template letters_c)

theorem rawGet_sizes {i : ℕ} (hi : i < 26) : rawGet sizes i = .ok (sizes.getD i (0, 0)) := by
  have hi' : i < sizes.length := hi
  rw [rawGet_of_lt hi', List.getD_eq_getElem _ _ hi']

/-- The dimensions in the table. -/
theorem sizes_bounds {i : ℕ} (hi : i < 26) :
    0 < (sizes.getD i (0, 0)).1 ∧ (sizes.getD i (0, 0)).1 < 100 ∧
    0 < (sizes.getD i (0, 0)).2 ∧ (sizes.getD i (0, 0)).2 < 100 := by
  revert i
  decide

/-- A matrix of the dimensions in the table is one of a template. -/
theorem isTemplate_of_sizes {i : ℕ} (hi : i < 26) {m : Matrix}
    (hrect : Rect (sizes.getD i (0, 0)).2 m) (hlen : m.length = (sizes.getD i (0, 0)).1) :
    IsTemplate (sizes.getD i (0, 0)).1 (sizes.getD i (0, 0)).2 m := by
  obtain ⟨h1, h2, h3, h4⟩ := sizes_bounds hi
  exact ⟨hrect, hlen, h1, h3, by omega, by omega⟩

variable {letters_c : Matrix}

theorem rawGet_row {i : ℕ} (hi : i < letters_c.length) :
    rawGet letters_c i = .ok (letters_c.getD i []) := by
  rw [rawGet_of_lt hi, List.getD_eq_getElem _ _ hi]

theorem importLetters_eq (h : IsAlphabet letters_c) :
    importLetters letters_c letters_c.length = .ok (templates letters_c) := by
  apply mapM_ok
  intro i hi
  rw [List.mem_range] at hi
  rw [rawGet_row hi, ok_bind, rawGet_sizes (lt_of_lt_of_le hi h.length_le), ok_bind,
    importLetter_eq (h.fits i hi)]
  rfl

/-- Cells that a template does not have change nothing. -/
theorem ofRow_take (row : List ℤ) (rows cols : ℕ) :
    Letter.ofRow (row.take (rows * cols + 3)) rows cols = Letter.ofRow row rows cols := by
  have htake : ∀ k < rows * cols + 3, (row.take (rows * cols + 3)).getD k 0 = row.getD k 0 :=
    fun k hk => by
      rw [List.getD_eq_getElem?_getD, List.getElem?_take_of_lt hk, List.getD_eq_getElem?_getD]
  unfold Letter.ofRow
  rw [htake _ (by omega), htake _ (by omega), htake _ (by omega)]
  congr 1
  refine table_congr fun i hi j hj => htake _ ?_
  have : cols * (i + 1) ≤ cols * rows := Nat.mul_le_mul_left _ hi
  rw [Nat.mul_succ] at this
  rw [Nat.mul_comm rows]
  omega

/-- The first cells of a row, copied one by one. -/
theorem mapM_rawGet_take (row : List ℤ) {n : ℕ} (hn : n ≤ row.length) :
    (List.range n).mapM (rawGet row) = .ok (row.take n) := by
  rw [mapM_ok (g := fun j => row.getD j 0)]
  · congr 1
    refine List.ext_getElem (by simp; omega) fun j hj hj' => ?_
    rw [List.length_map, List.length_range] at hj
    simp only [List.getElem_map, List.getElem_range, List.getElem_take]
    exact List.getD_eq_getElem _ _ (Nat.lt_of_lt_of_le hj hn)
  · intro j hj
    have hj' := lt_of_lt_of_le (List.mem_range.mp hj) hn
    rw [rawGet_of_lt hj', List.getD_eq_getElem _ _ hj']

theorem retrieveLetters_eq (h : IsAlphabet letters_c) :
    retrieveLetters letters_c letters_c.length =
      .ok ((templates letters_c).map Letter.toLetter2) := by
  unfold templates
  rw [List.map_map]
  apply mapM_ok
  intro i hi
  rw [List.mem_range] at hi
  have hlen := h.fits i hi
  rw [rawGet_sizes (lt_of_lt_of_le hi h.length_le), ok_bind]
  dsimp only
  rw [rawGet_row hi]
  simp only [ok_bind]
  have hlen' := List.length_take_of_le hlen
  rw [mapM_rawGet_take _ hlen, ok_bind, importLetter_toLetter2, importLetter_eq hlen'.ge,
    ofRow_take]
  rfl

/-! ### Segmentation -/

/-- The enclave's variables with those of a column put in. -/
def Segments.withEdges (s : Segments) (e : Edges) : Segments :=
  { s with topEdge := e.topEdge, bottomEdge := e.bottomEdge, found := e.found }

/-- The library's variables. -/
def Segments.toScan (s : Segments) : Scan :=
  ⟨s.leftEdge, s.topEdge, s.bottomEdge, s.possible_letters.map Letter2.toLetter⟩

variable (threshold : ℤ) (matrix : Matrix)

theorem segmentPixel_withEdges (x y : ℕ) (s : Segments) (e : Edges) :
    segmentPixel threshold matrix x y (s.withEdges e) =
      (scanPixel threshold matrix x y e).map s.withEdges := by
  refine bind_eq_map fun pixel => ?_
  by_cases hdark : pixel < threshold
  · rw [if_pos hdark, if_pos hdark]
    by_cases htop : e.topEdge < 0 ∨ (y : ℤ) < e.topEdge
    · simp [Segments.withEdges, Except.map, htop]
    · simp [Segments.withEdges, Except.map, htop]
  · rw [if_neg hdark, if_neg hdark]
    by_cases hy : 0 < y
    · rw [if_pos hy, if_pos hy]
      refine bind_eq_map fun above => ?_
      by_cases hcond : above < threshold ∧ (e.bottomEdge < 0 ∨ e.bottomEdge < (y : ℤ))
      · rw [if_pos hcond]; exact if_pos hcond
      · rw [if_neg hcond]; exact if_neg hcond
    · rw [if_neg hy, if_neg hy]; rfl

/-- **A column changes the variables of both alike.** -/
theorem scanColumn_toScan (x : ℕ) (s : Segments) :
    scanColumn threshold matrix x s.toScan =
      (segmentColumn threshold matrix x s).map Segments.toScan := by
  refine bind_eq_map fun first => ?_
  have hloop := forUpTo_map s.withEdges ⟨s.topEdge, s.bottomEdge, false⟩ (n := first.length)
    fun y _ e => segmentPixel_withEdges threshold matrix x y s e
  change _ = Except.map _ (forUpTo first.length (segmentPixel threshold matrix x)
    (s.withEdges ⟨s.topEdge, s.bottomEdge, false⟩) >>= _)
  rw [hloop, map_then]
  refine bind_eq_map fun e => ?_
  by_cases hfound : e.found = true
  · rw [if_pos hfound, if_pos (show (s.withEdges e).found = true from hfound)]
    by_cases hleft : s.leftEdge < 0
    · simp [Segments.toScan, Segments.withEdges, Except.map, hleft]
    · simp [Segments.toScan, Segments.withEdges, Except.map, hleft]
  · rw [if_neg hfound, if_neg (show ¬ (s.withEdges e).found = true from hfound)]
    by_cases hleft : 0 < s.leftEdge
    · rw [if_pos (show 0 < s.toScan.leftEdge from hleft),
        if_pos (show (s.withEdges e).leftEdge > 0 from hleft)]
      refine bind_eq_map fun shape => ?_
      simp [Segments.toScan, Segments.withEdges, Except.map, Letter2.toLetter, Letter.new,
        Letter2.new]
    · rw [if_neg (show ¬ 0 < s.toScan.leftEdge from hleft),
        if_neg (show ¬ (s.withEdges e).leftEdge > 0 from hleft)]
      rfl

/-- **The letters the enclave finds are those of `findLetters`.** -/
theorem findLetters_segments :
    findLetters 127 matrix =
      (segments matrix).map fun s => s.possible_letters.map Letter2.toLetter := by
  have hmap := forUpTo_map Segments.toScan (⟨-1, -1, -1, false, []⟩ : Segments)
    (n := matrix.length) fun x _ s => scanColumn_toScan 127 matrix x s
  unfold findLetters segments
  change (do
    let s ← forUpTo matrix.length (scanColumn 127 matrix) (Segments.toScan ⟨-1, -1, -1, false, []⟩)
    .ok s.letters) = _
  rw [hmap]
  cases forUpTo matrix.length (segmentColumn 127 matrix) ⟨-1, -1, -1, false, []⟩ <;> rfl

/-! ### Matching -/

variable {F : Type} (fp : Ops F) (fuel : ℕ)

theorem elemAt_map {α β : Type} (f : α → β) (l : List α) (i : ℕ) :
    elemAt (l.map f) i = (elemAt l i).map f := by
  unfold elemAt
  rw [List.getElem?_map]
  cases l[i]? <;> rfl

theorem compareTemplate_eq (l : Letter) (letters : List Letter) (j : ℕ) (lowest : Lowest F) :
    compareTemplate fp fuel l.toLetter2 (letters.map Letter.toLetter2) j lowest =
      tryTemplate fp fuel l letters j lowest := by
  refine bind_congr fun first => ?_
  rw [elemAt_map, map_then]
  refine bind_congr fun template => bind_congr fun scaled => bind_congr fun difference => ?_
  split <;> rfl

/-- **Both match a letter to the same template, or fail alike.** -/
theorem matchLetter_bestMatch (l : Letter) (letters : List Letter) :
    bestMatch fp fuel (letters.map Letter.toLetter2) l.toLetter2 = recognise fp fuel letters l := by
  cases letters with
  | nil => rfl
  | cons first rest =>
    rw [bestMatch, List.length_map,
      forUpTo_congr _ fun j _ lowest => compareTemplate_eq fp fuel l _ j lowest, recognise,
      matchLetter, bind_assoc]
    refine bind_congr fun lowest => ?_
    unfold elemAtInt
    split
    · rfl
    · rw [elemAt_map, map_then]
      rfl

/-! ### How recognition ends -/

variable {fp fuel} {S : Fault → Prop}

theorem compareMatrices_fails (hS : S .outOfRange) (matrixA matrixB : Matrix) :
    FailsOnly S (compareMatrices fp matrixA matrixB) := by
  have hpixel : ∀ x y sum, FailsOnly S (comparePixel matrixA matrixB x y sum) := fun x y sum =>
    (elemAt₂_fails hS matrixA x y).bind fun a _ => (elemAt₂_fails hS matrixB x y).bind fun b _ => by
      split <;> exact failsOnly_ok _
  refine FailsOnly.bind (FailsOnly.forUpTo _ fun x _ sum => ?_) fun sum _ => ?_
  · exact (elemAt_fails hS matrixA 0).bind fun first _ =>
      FailsOnly.forUpTo _ fun y _ sum => hpixel x y sum
  · exact (elemAt_fails hS matrixA 0).bind fun first _ => failsOnly_ok _

/-- Recognition of a letter fails as the scaling of the templates to it can, or
with an `out_of_range`. -/
theorem recognise_fails (hS : S .outOfRange) {letters : List Letter} {l : Letter}
    (hscale : ∀ first, elemAt l.matrix 0 = .ok first → ∀ template ∈ letters,
      FailsOnly S (scaleMatrixTo fp fuel (toInt l.matrix.length) (toInt first.length)
        template.matrix)) :
    FailsOnly S (recognise fp fuel letters l) := by
  refine (elemAt_fails hS letters 0).bind fun _ _ => FailsOnly.bind ?_ fun _ _ => failsOnly_ok _
  refine FailsOnly.bind (FailsOnly.forUpTo _ fun j _ lowest => ?_) fun _ _ =>
    elemAtInt_fails hS letters _
  refine (elemAt_fails hS l.matrix 0).bind fun first hfirst => ?_
  refine (elemAt_fails hS letters j).bind fun template ht => ?_
  refine (hscale first hfirst template (mem_of_elemAt ht)).bind fun scaled _ => ?_
  exact (compareMatrices_fails hS _ _).bind fun _ _ => failsOnly_ok _

theorem scaleMatrixTo_fails (w h : ℤ) (matrix : Matrix) :
    FailsOnly (· ≠ .undefined) (scaleMatrixTo fp fuel w h matrix) := by
  refine (elemAt_fails (by decide) matrix 0).bind fun first _ => ?_
  refine FailsOnly.collectWhile (by decide) (fun x => ?_) _ _
  exact FailsOnly.collectWhile (by decide) (fun y => elemAt₂_fails (by decide) matrix _ _) _ _

theorem template_isTemplate (hlen : letters_c.length ≤ 26) {l : Letter}
    (hl : l ∈ templates letters_c) :
    ∃ W H, IsTemplate W H l.matrix := by
  obtain ⟨i, hi, rfl⟩ := List.mem_map.mp hl
  exact ⟨_, _, isTemplate_of_sizes (lt_of_lt_of_le (List.mem_range.mp hi) hlen)
    (rect_table _ _ _) (length_table _ _ _)⟩

/-- In a standard model the loops over a letter that was found end. -/
theorem recognise_ends (model : StandardModel fp) (hfuel : 2 ^ 32 < fuel) (image : Image)
    (hlen : letters_c.length ≤ 26) {l : Letter} (hl : l ∈ foundLetters 127 image.columns) :
    FailsOnly (· = .outOfRange) (recognise fp fuel (templates letters_c) l) := by
  obtain ⟨w, k, hw, hwlt, hk, hwlen, hrect⟩ := foundLetters_size image.rect hl
  have hw31 : w < 2 ^ 31 := lt_trans hwlt image.width_lt
  have hk31 : k < 2 ^ 31 := lt_of_le_of_lt hk image.height_lt
  refine recognise_fails (S := (· = .outOfRange)) rfl fun first hfirst template ht => ?_
  have hfirstLen : first.length = k := hrect _ (mem_of_elemAt hfirst)
  obtain ⟨W, H, hT⟩ := template_isTemplate hlen ht
  obtain ⟨w', h', ix, iy, heq, -⟩ := scaleMatrixTo_model model hT hw31 hk31 hfuel
  rw [hwlen, hfirstLen, toInt_natCast hw31, toInt_natCast hk31, heq]
  exact failsOnly_ok _

/-! ### The recognisers -/

variable (fp fuel)

/-- What the library's recogniser leaves. -/
theorem characterRecognition_eq (image : Image) (h : IsAlphabet letters_c) {letters_cols : ℕ}
    (hrect : Rect letters_cols letters_c) :
    characterRecognition fp fuel image.columns image.width image.height letters_c
        letters_c.length letters_cols =
      ⟨some (foundLetters 127 image.columns).length,
        (storeEach (recognise fp fuel (templates letters_c)) (foundLetters 127 image.columns)).1,
        (storeEach (recognise fp fuel (templates letters_c))
          (foundLetters 127 image.columns)).2⟩ := by
  have hlen : (foundLetters 127 image.columns).length < 2 ^ 31 :=
    lt_of_le_of_lt foundLetters_length_le image.width_lt
  rw [characterRecognition, prepare, Image.width, readRows_of_rect image.rect, ok_bind,
    readRows_of_rect hrect, ok_bind, importLetters_eq h, ok_bind, findLetters_eq _ image.rect,
    ok_bind]
  dsimp only
  rw [toInt_natCast hlen]

/-- The letters the enclave's recogniser segments. -/
theorem segments_eq (image : Image) : ∃ s, segments image.columns = .ok s ∧
    s.possible_letters = (foundLetters 127 image.columns).map Letter.toLetter2 := by
  have hfind := findLetters_segments image.columns
  rw [findLetters_eq _ image.rect] at hfind
  cases hseg : segments image.columns with
  | error e => rw [hseg] at hfind; cases hfind
  | ok s =>
    rw [hseg] at hfind
    exact ⟨s, rfl, by simp [Except.ok.inj hfind, Function.comp_def]⟩

/-- What the enclave's recogniser leaves. -/
theorem characterRecognitionWrap_eq (image : Image) (h : IsAlphabet letters_c) :
    characterRecognitionWrap fp fuel image.columns image.width image.height letters_c
        letters_c.length =
      ⟨some (foundLetters 127 image.columns).length,
        (storeEach (recognise fp fuel (templates letters_c)) (foundLetters 127 image.columns)).1,
        (storeEach (recognise fp fuel (templates letters_c))
          (foundLetters 127 image.columns)).2⟩ := by
  have hlen : (foundLetters 127 image.columns).length < 2 ^ 31 :=
    lt_of_le_of_lt foundLetters_length_le image.width_lt
  obtain ⟨s, hseg, hletters⟩ := segments_eq image
  rw [characterRecognitionWrap, Image.width, readRows_of_rect image.rect, ok_bind,
    retrieveLetters_eq h, ok_bind, hseg, ok_bind]
  dsimp only
  rw [hletters, storeEach_map _ fun l _ => matchLetter_bestMatch fp fuel l _, List.length_map,
    toInt_natCast hlen]

/-- **The two recognisers leave the same outcome**, whatever `double` means: the
same `*length`, the same characters, and a normal return after all of them or
the same exception. In a standard model the run always ends. -/
theorem recognisers_agree {F : Type} (fp : Ops F) (image : Image) {letters_c : Matrix}
    (h : IsAlphabet letters_c) {letters_cols : ℕ} (hrect : Rect letters_cols letters_c) :
    (∀ fuel, ∃ r n,
      characterRecognition fp fuel image.columns image.width image.height letters_c
        letters_c.length letters_cols = r ∧
      characterRecognitionWrap fp fuel image.columns image.width image.height letters_c
        letters_c.length = r ∧
      r.length = some ((n : ℕ) : ℤ) ∧
      (r.fault = none ∧ r.output_letters.length = n ∨ r.fault = some .outOfRange ∨
        r.fault = some .outOfFuel)) ∧
    ∀ _ : StandardModel fp, ∀ fuel > 2 ^ 32,
      (characterRecognition fp fuel image.columns image.width image.height letters_c
        letters_c.length letters_cols).fault ≠ some .outOfFuel := by
  refine ⟨fun fuel => ⟨_, _, characterRecognition_eq fp fuel image h hrect,
    characterRecognitionWrap_eq fp fuel image h, rfl, ?_⟩, fun model fuel hfuel => ?_⟩
  · cases hfault : (storeEach (recognise fp fuel (templates letters_c))
        (foundLetters 127 image.columns)).2 with
    | none => exact Or.inl ⟨rfl, storeEach_length hfault⟩
    | some e =>
      obtain ⟨l, -, hl⟩ := storeEach_error hfault
      have hne := recognise_fails (S := (· ≠ .undefined)) (by decide)
        (fun _ _ _ _ => scaleMatrixTo_fails _ _ _) e hl
      cases e with
      | outOfRange => exact Or.inr (Or.inl rfl)
      | undefined => exact absurd rfl hne
      | outOfFuel => exact Or.inr (Or.inr rfl)
  · rw [characterRecognition_eq fp fuel image h hrect]
    intro hfault
    obtain ⟨l, hl, he⟩ := storeEach_error hfault
    cases recognise_ends model hfuel image h.length_le hl _ he

/-- A template of the first size, as its array. -/
def blank : Matrix := [List.replicate 4901 0]

theorem blank_isAlphabet : IsAlphabet blank where
  length_le := by decide
  fits i hi := by
    obtain rfl : i = 0 := Nat.lt_one_iff.mp hi
    exact (List.length_replicate (n := 4901) (a := (0 : ℤ))).ge

theorem blank_rect : Rect 4901 blank := fun row hrow => by
  rw [List.mem_singleton.mp hrow]
  exact List.length_replicate

/-- The dot is matched with the one template. -/
theorem recognisers_agree_blank :
    characterRecognition exact 10 dot.columns dot.width dot.height blank blank.length 4901 =
      ⟨some 1, [0], none⟩ ∧
    (∀ fuel, ∃ r n,
      characterRecognition exact fuel dot.columns dot.width dot.height blank blank.length 4901 = r ∧
      characterRecognitionWrap exact fuel dot.columns dot.width dot.height blank
        blank.length = r ∧
      r.length = some ((n : ℕ) : ℤ) ∧
      (r.fault = none ∧ r.output_letters.length = n ∨ r.fault = some .outOfRange ∨
        r.fault = some .outOfFuel)) ∧
    ∀ fuel > 2 ^ 32,
      (characterRecognition exact fuel dot.columns dot.width dot.height blank blank.length
        4901).fault ≠ some .outOfFuel := by
  obtain ⟨hsame, hends⟩ := recognisers_agree exact dot blank_isAlphabet blank_rect
  refine ⟨?_, hsame, hends exactModel⟩
  rw [characterRecognition_eq exact 10 dot blank_isAlphabet blank_rect]
  decide +kernel

/-- With no templates both throw after `*length` is stored. -/
example : characterRecognition exact 10 dot.columns 3 3 [] 0 0 = ⟨some 1, [], some .outOfRange⟩ ∧
    characterRecognitionWrap exact 10 dot.columns 3 3 [] 0 = ⟨some 1, [], some .outOfRange⟩ := by
  decide +kernel

end Ocr
end IcnDemo
