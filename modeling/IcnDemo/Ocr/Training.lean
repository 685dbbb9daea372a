/-
# Training on an image and reading it

`create_template` takes the templates from an image whose letters it labels,
`load_template` and `run_ocr` bring them to the recogniser. Run on that same
image, the recogniser reads every letter as the label of the first letter that,
scaled to its size, is the same, as long as the names of the files fit
(`training_iff`): labels survive two segmentations, three encodings and a search.
-/
import IcnDemo.Ocr.Rendering

namespace IcnDemo
namespace Ocr

open Lib.Loop Lib.Grid Lib.Double Lib.Segments

/-- `create_template`, `load_template`, `run_ocr` on the image of the alphabet. -/
def trainAndRecognise {F : Type} (fp : Ops F) (fuel : ℕ) (signed : Bool) (room : ℕ) (image : Image)
    (text_alphabet : List (BitVec 8)) (disk : Disk) : Except Fault Outcome := do
  let disk ← createTemplate signed room image.columns text_alphabet text_alphabet.length disk
  let letters ← loadTemplate room text_alphabet.length disk
  let letters_c ← exportLetters signed letters
  .ok (characterRecognitionWrap fp fuel image.columns image.width image.height letters_c
    letters_c.length)

variable {letters : List Letter} {text : List (BitVec 8)} {image : Image} {i : ℕ} {l : Letter}

/-! ### Labels -/

/-- The letters with the characters of the text, as far as it goes. -/
def labelled (letters : List Letter) (text : List (BitVec 8)) : List Letter :=
  letters.mapIdx fun i l => { l with letter := text.getD i l.letter }

theorem labelled_length : (labelled letters text).length = letters.length := List.length_mapIdx

theorem labelled_getElem? (i : ℕ) : (labelled letters text)[i]? =
    letters[i]?.map fun l => { l with letter := text.getD i l.letter } := List.getElem?_mapIdx

theorem labelled_nil : labelled letters [] = letters :=
  List.ext_getElem? fun i => by
    rw [labelled_getElem?]
    cases letters[i]? <;> rfl

/-- One more letter is labelled. -/
theorem labelled_set {n : ℕ} {c : BitVec 8} (hc : text[n]? = some c)
    (hl : (labelled letters (text.take n))[n]? = some l) :
    (labelled letters (text.take n)).set n { l with letter := c } =
      labelled letters (text.take (n + 1)) := by
  refine List.ext_getElem? fun i => ?_
  rw [List.getElem?_set]
  by_cases hi : n = i
  · subst hi
    rw [labelled_getElem?, Option.map_eq_some_iff] at hl
    obtain ⟨l, hl, rfl⟩ := hl
    have hn : n < (labelled letters (text.take n)).length := by
      rw [labelled_length]
      exact (List.getElem?_eq_some_iff.mp hl).1
    simp [hn, labelled_getElem?, hl, hc]
  · have htake : (text.take (n + 1))[i]? = (text.take n)[i]? := by
      rw [List.getElem?_take, List.getElem?_take]
      have : i < n + 1 ↔ i < n := by omega
      simp only [this]
    simp only [if_neg hi, labelled_getElem?, List.getD_eq_getElem?_getD, htake]

theorem loadAlphabet_eq (hlen : text.length = (foundLetters 127 image.columns).length) :
    loadAlphabet image.columns text text.length =
      .ok (labelled (foundLetters 127 image.columns) text) := by
  unfold loadAlphabet
  rw [findLetters_eq _ image.rect, ok_bind]
  have hloop : forUpTo text.length (fun i letters => do
      let c ← rawGet text i
      let l ← elemAt letters i
      .ok (letters.set i { l with letter := c }))
      (labelled (foundLetters 127 image.columns) (text.take 0)) =
      .ok (labelled (foundLetters 127 image.columns) (text.take text.length)) := by
    refine forUpTo_trajectory (fun n => labelled (foundLetters 127 image.columns) (text.take n))
      fun n hn => ?_
    have hn' : n < (labelled (foundLetters 127 image.columns) (text.take n)).length := by
      rw [labelled_length]; omega
    rw [rawGet_of_lt hn, ok_bind, elemAt_of_lt hn', ok_bind,
      labelled_set (List.getElem?_eq_getElem hn) (List.getElem?_eq_getElem hn')]
  rwa [List.take_zero, labelled_nil, List.take_length] at hloop

/-- Labels do not change what fits. -/
theorem fits_labelled {m : Matrix} {j : ℕ} :
    Fits (labelled letters text) m j ↔ Fits letters m j := by
  unfold Fits
  rw [labelled_getElem?]
  cases letters[j]? <;> simp

theorem firstFit_labelled {m : Matrix} {j : ℕ} :
    FirstFit (labelled letters text) m j ↔ FirstFit letters m j :=
  ⟨fun h => ⟨fits_labelled.mp h.fits, fun i hi hfit => h.first i hi (fits_labelled.mpr hfit)⟩,
    fun h => ⟨fits_labelled.mpr h.fits, fun i hi hfit => h.first i hi (fits_labelled.mp hfit)⟩⟩

/-! ### The letters of the image -/

/-- The `i`-th letter has the dimensions of the `i`-th template. -/
def HasSizes (letters : List Letter) : Prop :=
  ∀ i l, letters[i]? = some l →
    i < 26 ∧ Rect (sizes.getD i (0, 0)).2 l.matrix ∧ l.matrix.length = (sizes.getD i (0, 0)).1

/-- A letter is found inside the image. -/
theorem found_place (hl : l ∈ foundLetters 127 image.columns) : IsInt l.x ∧ IsInt l.y := by
  obtain ⟨-, b, hb, rfl⟩ := mem_foundLetters hl
  obtain ⟨hlt, hbm⟩ := run_bounds hb
  have hwidth := image.width_lt
  have hheight := image.height_lt
  have htop := topRow_le_height (t := 127) (m := image.columns)
    (runStart (darkColumn 127 image.columns) b) b
  rw [image.rect.length_getD (by omega)] at htop
  constructor
  · show IsInt ((runStart (darkColumn 127 image.columns) b : ℕ) : ℤ)
    constructor <;> omega
  · show IsInt ((topRow 127 image.columns (runStart (darkColumn 127 image.columns) b) b : ℕ) : ℤ)
    constructor <;> omega

theorem labelled_areSaved (text : List (BitVec 8)) (hpix : Pixels image.columns)
    (hsizes : HasSizes (foundLetters 127 image.columns)) :
    AreSaved (labelled (foundLetters 127 image.columns) text) := by
  intro i l hl
  rw [labelled_getElem?, Option.map_eq_some_iff] at hl
  obtain ⟨l, hl, rfl⟩ := hl
  obtain ⟨hi, hrect, hlen⟩ := hsizes i l hl
  obtain ⟨hx, hy⟩ := found_place (List.mem_of_getElem? hl)
  refine ⟨hi, hrect, hlen, fun column hc pixel hp => ?_, hx, hy⟩
  have := found_pixels hpix (List.mem_of_getElem? hl) column hc pixel hp
  constructor <;> omega

theorem labelled_pixels (hpix : Pixels image.columns) :
    ∀ l ∈ labelled (foundLetters 127 image.columns) text, Pixels l.matrix := by
  intro l hmem
  obtain ⟨i, hi⟩ := List.mem_iff_getElem?.mp hmem
  rw [labelled_getElem?, Option.map_eq_some_iff] at hi
  obtain ⟨l₀, hl₀, rfl⟩ := hi
  exact found_pixels (l := l₀) hpix (List.mem_of_getElem? hl₀)

/-- **A letter fits itself.** -/
theorem HasSizes.fits (h : HasSizes letters) (hl : letters[i]? = some l) :
    Fits letters l.matrix i := by
  obtain ⟨hi, hrect, hlen⟩ := h i l hl
  have htemplate := isTemplate_of_sizes hi hrect hlen
  refine ⟨l, hl, ?_⟩
  rw [htemplate.height, hlen]
  exact resample_self htemplate.isMatrix

theorem HasSizes.legible (hpix : Pixels image.columns)
    (h : HasSizes (foundLetters 127 image.columns)) (hl : l ∈ foundLetters 127 image.columns) :
    Legible (labelled (foundLetters 127 image.columns) text) l := by
  obtain ⟨i, hi⟩ := List.mem_iff_getElem?.mp hl
  obtain ⟨hlt, hrect, hlen⟩ := h i l hi
  obtain ⟨-, h2, h3, h4⟩ := sizes_bounds hlt
  have hheight := (isTemplate_of_sizes hlt hrect hlen).height
  refine ⟨by omega, ?_, found_pixels hpix hl, i, fits_labelled.mpr (h.fits hi)⟩
  unfold Letter.area
  rw [hheight, hlen]
  exact le_trans (Nat.mul_le_mul h2.le h4.le) (by decide)

/-! ### Training and reading -/

/-- What is read of `letters` is the text, up to letters of one shape: for each
letter the label of the first that fits it, and the text itself if none fits a
later one. -/
structure Relearned (letters : List Letter) (text output : List (BitVec 8)) : Prop where
  length : output.length = letters.length
  label : ∀ (i : ℕ) (l : Letter), letters[i]? = some l →
    ∃ j, FirstFit letters l.matrix j ∧ output[i]? = text[j]?
  all : (∀ (i j : ℕ) (l : Letter), letters[i]? = some l → j < i → ¬ Fits letters l.matrix j) →
    output = text

/-- The labels give the text, if no letter fits a later one. -/
theorem relearned_of_labels (h : HasSizes letters) (hlen : text.length = letters.length)
    {output : List (BitVec 8)} (hout : output.length = letters.length)
    (hlabel : ∀ (i : ℕ) (l : Letter), letters[i]? = some l →
      ∃ j, FirstFit letters l.matrix j ∧ output[i]? = text[j]?) :
    Relearned letters text output where
  length := hout
  label := hlabel
  all hnone := by
    refine List.ext_getElem? fun i => ?_
    rcases Nat.lt_or_ge i letters.length with hi | hi
    · obtain ⟨j, hfirst, heq⟩ := hlabel i _ (List.getElem?_eq_getElem hi)
      obtain rfl : j = i := by
        rcases Nat.lt_trichotomy j i with hji | rfl | hij
        · exact absurd hfirst.fits (hnone i j _ (List.getElem?_eq_getElem hi) hji)
        · rfl
        · exact absurd (h.fits (List.getElem?_eq_getElem hi)) (hfirst.first i hij)
      exact heq
    · rw [List.getElem?_eq_none (by omega), List.getElem?_eq_none (by omega)]

/-- **Training on an image and reading it gives the labels back exactly when the
names of the files fit.** `room` is the number of bytes at `filename`, six by its
declaration (`filenameSize`). -/
theorem training_iff (signed : Bool) {room : ℕ} (hroom : 6 ≤ room) {image : Image}
    (hpix : Pixels image.columns) {letters : List Letter}
    (hfind : findLetters 127 image.columns = .ok letters) (hsizes : HasSizes letters)
    {text : List (BitVec 8)} (hlen : text.length = letters.length) (disk : Disk) :
    (∃ output, (∀ fuel, image.width < fuel → image.height < fuel →
      trainAndRecognise exact fuel signed room image text disk =
        .ok ⟨some letters.length, output, none⟩) ∧ Relearned letters text output) ↔
    letters.length ≤ 10 ∨ 7 ≤ room := by
  obtain rfl : foundLetters 127 image.columns = letters := by
    rw [findLetters_eq _ image.rect] at hfind
    exact Except.ok.inj hfind
  have hsaved := labelled_areSaved text hpix hsizes
  have hcount : (labelled (foundLetters 127 image.columns) text).length = text.length := by
    rw [labelled_length, hlen]
  have htrain : createTemplate signed room image.columns text text.length disk =
      saveLetters signed room (labelled (foundLetters 127 image.columns) text) disk := by
    unfold createTemplate
    rw [loadAlphabet_eq hlen, ok_bind]
  constructor
  · rintro ⟨output, hrun, -⟩
    by_contra hcon
    have hfuel := hrun (image.width + image.height + 1) (by omega) (by omega)
    unfold trainAndRecognise at hfuel
    rw [htrain, saveLetters_overflow hsaved hroom (by omega) (by omega)] at hfuel
    cases hfuel
  · intro hfit
    have hfit' : (labelled (foundLetters 127 image.columns) text).length ≤ 10 ∨ 7 ≤ room := by
      rwa [labelled_length]
    obtain ⟨output, hwrap, hout, hread⟩ := wrap_firstFits signed hsaved
      (labelled_pixels hpix) fun l hl => hsizes.legible hpix hl
    refine ⟨output, fun fuel hfw hfh => ?_, relearned_of_labels hsizes hlen hout fun i l hl => ?_⟩
    · rw [trainAndRecognise, htrain, saveLetters_eq hsaved hroom hfit', ok_bind, ← hcount,
        loadTemplate_eq hsaved hroom hfit', ok_bind, exportLetters_eq hsaved, ok_bind,
        List.length_map, hwrap fuel hfw hfh]
    · obtain ⟨j, T, hT, hfirst, heq⟩ := hread i l hl
      refine ⟨j, firstFit_labelled.mp hfirst, ?_⟩
      rw [labelled_getElem?, Option.map_eq_some_iff] at hT
      obtain ⟨T, hT, rfl⟩ := hT
      have hj : j < text.length := by
        rw [hlen]
        exact (List.getElem?_eq_some_iff.mp hT).1
      rw [heq, List.getElem?_eq_getElem hj, List.getD_eq_getElem _ _ hj]

/-! ### Black letters -/

/-- The black letter of the `i`-th dimensions, a hundred columns from the next. -/
def solidBlock (i : ℕ) : Block := ⟨(solid i star).matrix, 100 * i + 1, 0⟩

theorem solidBlock_width (i : ℕ) : (solidBlock i).width = (sizes.getD i (0, 0)).1 :=
  length_table _ _ _

theorem solidBlock_height (hi : i < 26) : (solidBlock i).height = (sizes.getD i (0, 0)).2 :=
  (rect_table _ _ _).length_getD (by rw [length_table]; exact (sizes_bounds hi).1)

/-- The first `n` of them. -/
def alphabetImage (n : ℕ) (hn : n ≤ 26) : Image :=
  painting ((List.range n).map solidBlock) (100 * n + 1) 100 (by omega) (by decide)

theorem alphabetImage_shows {n : ℕ} (hn : n ≤ 26) :
    Shows 127 (alphabetImage n hn) ((List.range n).map solidBlock) := by
  have hright : ∀ i < n, (solidBlock i).right < 100 * i + 101 := fun i hi => by
    have := (sizes_bounds (lt_of_lt_of_le hi hn)).2.1
    rw [Block.right, solidBlock_width, solidBlock]
    dsimp only
    omega
  refine painting_shows _ _ (by decide) (List.forall_mem_map.mpr fun i _ => Nat.succ_pos _) ?_ ?_ ?_
  · rw [List.pairwise_map]
    refine List.pairwise_lt_range.imp_of_mem fun {i j} hi hj hij => ?_
    have := hright i (List.mem_range.mp hi)
    change _ < 100 * j + 1
    omega
  · refine List.forall_mem_map.mpr fun i hi => ?_
    have := hright i (List.mem_range.mp hi)
    have := List.mem_range.mp hi
    omega
  · refine List.forall_mem_map.mpr fun i hi => ?_
    have hi' := lt_of_lt_of_le (List.mem_range.mp hi) hn
    have := (sizes_bounds hi').2.2.2
    rw [Block.bottom, solidBlock_height hi', solidBlock]
    dsimp only
    omega

theorem alphabetImage_letters {n : ℕ} (hn : n ≤ 26) :
    findLetters 127 (alphabetImage n hn).columns =
      .ok ((List.range n).map fun i => (solidBlock i).letter) := by
  rw [findLetters_eq _ (alphabetImage n hn).rect, (alphabetImage_shows hn).foundLetters_eq,
    List.map_map]
  · rfl
  · refine List.forall_mem_map.mpr fun i hi => ?_
    obtain ⟨h1, -, h3, -⟩ := sizes_bounds (lt_of_lt_of_le (List.mem_range.mp hi) hn)
    exact solid_inked h1 h3

theorem alphabetImage_hasSizes {n : ℕ} (hn : n ≤ 26) :
    HasSizes ((List.range n).map fun i => (solidBlock i).letter) := by
  intro i l hl
  rw [List.getElem?_map, Option.map_eq_some_iff] at hl
  obtain ⟨j, hj, rfl⟩ := hl
  obtain ⟨hlt, rfl⟩ := List.getElem?_eq_some_iff.mp hj
  rw [List.length_range] at hlt
  rw [List.getElem_range]
  exact ⟨by omega, rect_table _ _ _, length_table _ _ _⟩

/-- The image is black and white. -/
theorem alphabetImage_pixels {n : ℕ} (hn : n ≤ 26) :
    ∀ column ∈ (alphabetImage n hn).columns, ∀ pixel ∈ column, pixel = 0 ∨ pixel = 255 := by
  refine forall_table fun x _ y _ => ?_
  unfold paint
  split
  · rename_i b hfind
    obtain ⟨i, -, rfl⟩ := List.mem_map.mp (List.mem_of_find?_eq_some hfind)
    exact Or.inl (entry_table_zero _ _ _ _)
  · exact Or.inr rfl

theorem alphabetImage_grey {n : ℕ} (hn : n ≤ 26) : Pixels (alphabetImage n hn).columns :=
  pixels_of_binary (alphabetImage_pixels hn)

/-- Ten letters are learned and read. -/
theorem training_ten : ∃ output, (∀ fuel, (alphabetImage 10 (by decide)).width < fuel →
    (alphabetImage 10 (by decide)).height < fuel →
      trainAndRecognise exact fuel true filenameSize (alphabetImage 10 (by decide))
        ((List.range 10).map fun i => BitVec.ofNat 8 (65 + i)) [] =
        .ok ⟨some ((List.range 10).map fun i => (solidBlock i).letter).length, output, none⟩) ∧
    Relearned ((List.range 10).map fun i => (solidBlock i).letter)
      ((List.range 10).map fun i => BitVec.ofNat 8 (65 + i)) output :=
  (training_iff true (by decide) (alphabetImage_grey _) (alphabetImage_letters _)
    (alphabetImage_hasSizes (by decide)) (by simp) []).mpr (Or.inl (by simp))

/-- Eleven are not: the name of the last file does not fit. -/
theorem eleven_labels_overflow :
    (∀ column ∈ (alphabetImage 11 (by decide)).columns, ∀ pixel ∈ column,
      pixel = 0 ∨ pixel = 255) ∧
    ∃ letters, findLetters 127 (alphabetImage 11 (by decide)).columns = .ok letters ∧
      letters.length = 11 ∧ HasSizes letters ∧
      ∀ fuel signed disk, ∀ text : List (BitVec 8), text.length = 11 →
        trainAndRecognise exact fuel signed filenameSize (alphabetImage 11 (by decide)) text disk =
          .error .undefined := by
  have hfind := alphabetImage_letters (n := 11) (by decide)
  have hsizes := alphabetImage_hasSizes (n := 11) (by decide)
  refine ⟨alphabetImage_pixels _, _, hfind, by simp, hsizes, fun fuel signed disk text htext => ?_⟩
  have hfound : foundLetters 127 (alphabetImage 11 (by decide)).columns =
      (List.range 11).map fun i => (solidBlock i).letter := by
    rw [findLetters_eq _ (alphabetImage 11 (by decide)).rect] at hfind
    exact Except.ok.inj hfind
  have hlen : (foundLetters 127 (alphabetImage 11 (by decide)).columns).length = 11 := by
    rw [hfound]
    simp
  rw [← hfound] at hsizes
  have hsaved := labelled_areSaved text (alphabetImage_grey _) hsizes
  rw [trainAndRecognise, createTemplate, loadAlphabet_eq (by rw [htext, hlen]), ok_bind,
    saveLetters_overflow hsaved (by decide) (by decide) (by rw [labelled_length, hlen]; decide)]
  rfl

end Ocr
end IcnDemo
