/-
# Scaling with rounding errors

`scaleMatrixRounded` is `scale_Matrix_to` over the rationals with a relative error in
every operation, chosen at will (`Errors`). In a standard model `scaleMatrixTo` is
one of these (`scaleMatrixTo_rounded`). Up to sizes of 65536 the errors do little
harm (`rescaling_rounded`): both loops end, inside the template; the result has the
columns and rows asked for or one more, so that a letter is compared with it inside
both; and its pixels are those of exact scaling, or of the column or row before
where the exact place is on the edge between two.
-/
import IcnDemo.Ocr.Scaling

namespace IcnDemo
namespace Ocr

open Lib.Loop Lib.Grid Lib.Double

/-- The relative errors of the operations of `scale_Matrix_to`: of the two quotients,
of `x += wScaler` in turn `k`, and of `y += hScaler` in turn `k` of the loop in
column `i`. -/
structure Errors where
  wScaler : ℚ
  hScaler : ℚ
  x : ℕ → ℚ
  y : ℕ → ℕ → ℚ
  wScaler_le : |wScaler| ≤ unitRoundoff
  hScaler_le : |hScaler| ≤ unitRoundoff
  x_le : ∀ k, |x k| ≤ unitRoundoff
  y_le : ∀ i k, |y i k| ≤ unitRoundoff

/-- A loop variable: how often it was raised, and its value. -/
structure Turn where
  count : ℕ
  value : ℚ

/-- `x < n` -/
def Turn.below (n : ℕ) (x : Turn) : Bool := decide (x.value < n)

/-- `x += scaler`, with the errors of its turns. -/
def Turn.raise (d : ℕ → ℚ) (scaler : ℚ) (x : Turn) : Turn where
  count := x.count + 1
  value := (x.value + scaler) * (1 + d (x.count + 1))

/-- `scale_Matrix_to` -/
def scaleMatrixRounded (e : Errors) (fuel : ℕ) (width height : ℤ) (oldMatrix : Matrix) :
    Except Fault Matrix := do
  let first ← elemAt oldMatrix 0
  let wScaler : ℚ := oldMatrix.length / width * (1 + e.wScaler)
  let hScaler : ℚ := first.length / height * (1 + e.hScaler)
  collectWhile .outOfFuel (Turn.below oldMatrix.length) (Turn.raise e.x wScaler)
    (fun x => collectWhile .outOfFuel (Turn.below first.length) (Turn.raise (e.y x.count) hScaler)
      (fun y => elemAt₂ oldMatrix ⌊x.value⌋.toNat ⌊y.value⌋.toNat) fuel ⟨0, 0⟩)
    fuel ⟨0, 0⟩

/-- The column of the template that column `k` of the result is of. -/
def sourceColumn (e : Errors) (W w k : ℕ) : ℕ :=
  ⌊roundedCounter (W / w * (1 + e.wScaler)) e.x k⌋.toNat

/-- The row of the template that row `k` of column `i` of the result is of. -/
def sourceRow (e : Errors) (H h i k : ℕ) : ℕ :=
  ⌊roundedCounter (H / h * (1 + e.hScaler)) (e.y i) k⌋.toNat

/-! ### Columns of different lengths -/

/-- The `w` columns with `f i j` at `(i, j)`, the `i`-th of `h i` elements. -/
def ragged (w : ℕ) (h : ℕ → ℕ) (f : ℕ → ℕ → ℤ) : Matrix :=
  (List.range w).map fun i => (List.range (h i)).map (f i)

variable {F : Type} {fp : Ops F} {W H w h : ℕ} {m : Matrix}

theorem ragged_length (n : ℕ) (k : ℕ → ℕ) (f : ℕ → ℕ → ℤ) : (ragged n k f).length = n := by
  simp [ragged]

theorem ragged_column {n : ℕ} {k : ℕ → ℕ} (f : ℕ → ℕ → ℤ) {i : ℕ} (hi : i < n) :
    (ragged n k f).getD i [] = (List.range (k i)).map (f i) := by
  rw [List.getD_eq_getElem _ _ (by rwa [ragged_length])]
  simp [ragged]

theorem ragged_height {n : ℕ} {k : ℕ → ℕ} (f : ℕ → ℕ → ℤ) {i : ℕ} (hi : i < n) :
    ((ragged n k f).getD i []).length = k i := by
  rw [ragged_column f hi, List.length_map, List.length_range]

theorem ragged_entry {n : ℕ} {k : ℕ → ℕ} (f : ℕ → ℕ → ℤ) {i j : ℕ} (hi : i < n) (hj : j < k i) :
    entry (ragged n k f) i j = f i j := by
  have hj' : j < ((List.range (k i)).map (f i)).length := by simpa using hj
  rw [entry, ragged_column f hi, List.getD_eq_getElem _ _ hj']
  simp

/-! ### The loops -/

/-- A loop from 0 below `N` in rounded steps, from its turns. -/
theorem collect_turns {α : Type} {body : Turn → Except Fault α} {d : ℕ → ℚ} {scaler : ℚ}
    {N n fuel : ℕ} {g : ℕ → α} (hfuel : n < fuel)
    (hturn : ∀ k < n, roundedCounter scaler d k < N ∧
      body ⟨k, roundedCounter scaler d k⟩ = .ok (g k))
    (hend : (N : ℚ) ≤ roundedCounter scaler d n) :
    collectWhile .outOfFuel (Turn.below N) (Turn.raise d scaler) body fuel ⟨0, 0⟩ =
      .ok ((List.range n).map g) := by
  apply collectWhile_trajectory (fun k => (⟨k, roundedCounter scaler d k⟩ : Turn)) hfuel
  · intro k
    rfl
  · intro k hk
    exact ⟨decide_eq_true (hturn k hk).1, (hturn k hk).2⟩
  · exact decide_eq_false (not_lt.mpr hend)

/-- **The scaled matrix, from the turns of the loops.** -/
theorem scaleMatrixRounded_of_turns (e : Errors) (hm : IsMatrix W H m) {fuel nw : ℕ} {nh : ℕ → ℕ}
    (hnw : nw < fuel) (hnh : ∀ i, nh i < fuel)
    (hx : ∀ k < nw, roundedCounter (W / w * (1 + e.wScaler)) e.x k < W ∧ sourceColumn e W w k < W)
    (hxend : (W : ℚ) ≤ roundedCounter (W / w * (1 + e.wScaler)) e.x nw)
    (hy : ∀ i, ∀ k < nh i, roundedCounter (H / h * (1 + e.hScaler)) (e.y i) k < H ∧
      sourceRow e H h i k < H)
    (hyend : ∀ i, (H : ℚ) ≤ roundedCounter (H / h * (1 + e.hScaler)) (e.y i) (nh i)) :
    scaleMatrixRounded e fuel w h m = .ok (ragged nw nh fun i j =>
      entry m (sourceColumn e W w i) (sourceRow e H h i j)) := by
  have hlen := hm.length
  unfold scaleMatrixRounded
  rw [elemAt_row (by rw [hlen]; exact hm.width_pos), ok_bind]
  dsimp only
  rw [hlen, hm.height, Int.cast_natCast, Int.cast_natCast]
  refine collect_turns hnw (fun i hi => ⟨(hx i hi).1, ?_⟩) hxend
  refine collect_turns (hnh i) (fun j hj => ⟨(hy i j hj).1, ?_⟩) (hyend i)
  exact elemAt₂_of_lt hm.rect (by rw [hlen]; exact (hx i hi).2) (hy i j hj).2

/-! ### Comparing a letter with the result -/

/-- **A matrix that reaches as far as the letter can be compared with it.** -/
theorem compareMatrices_ok (fp : Ops F) {letter result : Matrix} (hletter : IsMatrix w h letter)
    (hw : w ≤ result.length) (hh : ∀ i < w, h ≤ (result.getD i []).length) :
    ∃ difference, compareMatrices fp letter result = .ok difference := by
  have hlen := hletter.length
  have hpos : 0 < letter.length := by rw [hlen]; exact hletter.width_pos
  -- no turn of the loops fails
  have hloop : Ends (fun _ => False) (fun _ => True)
      (forUpTo w (fun x => forUpTo h (comparePixel letter result x)) 0) := by
    refine Ends.forUpTo₂ (fun _ _ => True) trivial fun x hx y hy sum _ => ?_
    unfold comparePixel
    rw [elemAt₂_of_lt hletter.rect (by rwa [hlen]) hy, ok_bind,
      elemAt₂_of_row (by omega) (Nat.lt_of_lt_of_le hy (hh x hx)), ok_bind]
    split
    · trivial
    · trivial
  unfold compareMatrices
  simp only [elemAt_row hpos, ok_bind, hletter.height, hlen]
  cases hsum : forUpTo w (fun x => forUpTo h (comparePixel letter result x)) 0 with
  | error e =>
    rw [hsum] at hloop
    exact hloop.elim
  | ok sum => exact ⟨_, rfl⟩

/-! ### Up to sizes of 65536 -/

theorem Errors.follows_x (e : Errors) (hW : W ≤ 65536) (hw : 0 < w) (hw' : w ≤ 65536) :
    Follows W w (roundedCounter (W / w * (1 + e.wScaler)) e.x) :=
  roundedCounter_follows hW hw hw' e.wScaler_le e.x_le

theorem Errors.follows_y (e : Errors) (hH : H ≤ 65536) (hh : 0 < h) (hh' : h ≤ 65536) (i : ℕ) :
    Follows H h (roundedCounter (H / h * (1 + e.hScaler)) (e.y i)) :=
  roundedCounter_follows hH hh hh' e.hScaler_le (e.y_le i)

/-- **Rescaling tolerates rounding errors.** -/
theorem rescaling_rounded (e : Errors) (hm : IsMatrix W H m) (hW : W ≤ 65536) (hH : H ≤ 65536)
    (hw : 1 ≤ w) (hw' : w ≤ 65536) (hh : 1 ≤ h) (hh' : h ≤ 65536) :
    ∃ result, (∀ fuel, w + 1 < fuel → h + 1 < fuel →
        scaleMatrixRounded e fuel w h m = .ok result) ∧
      (result.length = w ∨ result.length = w + 1) ∧
      (∀ column ∈ result, column.length = h ∨ column.length = h + 1) ∧
      (∀ {F : Type} (fp : Ops F) (letter : Matrix), IsMatrix w h letter →
        ∃ difference, compareMatrices fp letter result = .ok difference) ∧
      (∀ i < result.length, sourceColumn e W w i < W ∧
        ∀ j < (result.getD i []).length, sourceRow e H h i j < H ∧
          entry result i j = entry m (sourceColumn e W w i) (sourceRow e H h i j)) ∧
      (∀ k < w, sourceColumn e W w k = k * W / w ∨
        (0 < k ∧ w ∣ k * W ∧ sourceColumn e W w k + 1 = k * W / w)) ∧
      ∀ i < result.length, ∀ k < h, sourceRow e H h i k = k * H / h ∨
        (0 < k ∧ h ∣ k * H ∧ sourceRow e H h i k + 1 = k * H / h) := by
  have hx := e.follows_x hW hw hw'
  have hy := e.follows_y hH hh hh'
  obtain ⟨nw, hnw, hxlt, hxend⟩ := hx.turns hm.width_pos hw
  have hturns := fun i => (hy i).turns hm.height_pos hh
  choose nh hnh hylt hyend using hturns
  have hcolumn : ∀ i < nw, sourceColumn e W w i < W := fun i hi => hx.index_lt (hxlt i hi)
  have hrow : ∀ i, ∀ j < nh i, sourceRow e H h i j < H := fun i j hj => (hy i).index_lt (hylt i j hj)
  set result := ragged nw nh fun i j => entry m (sourceColumn e W w i) (sourceRow e H h i j)
    with hresult
  have hlen : result.length = nw := ragged_length _ _ _
  have hheight : ∀ i < nw, (result.getD i []).length = nh i := fun i hi => ragged_height _ hi
  refine ⟨result, fun fuel hfw hfh => ?_, by rw [hlen]; exact hnw, fun column hc => ?_,
    fun fp letter hletter => ?_, fun i hi => ?_, fun k hk => hx.index hw (by omega),
    fun i _ k hk => (hy i).index hh (by omega)⟩
  · refine scaleMatrixRounded_of_turns e hm (by omega) (fun i => ?_)
      (fun k hk => ⟨hxlt k hk, hcolumn k hk⟩) hxend (fun i k hk => ⟨hylt i k hk, hrow i k hk⟩) hyend
    have := hnh i
    omega
  · obtain ⟨i, hi, rfl⟩ := List.mem_map.mp hc
    rw [List.length_map, List.length_range]
    exact hnh i
  · apply compareMatrices_ok fp hletter
    · omega
    · intro i hi
      rw [hheight i (by omega)]
      have := hnh i
      omega
  · rw [hlen] at hi
    refine ⟨hcolumn i hi, fun j hj => ?_⟩
    rw [hheight i hi] at hj
    exact ⟨hrow i j hj, ragged_entry _ hi hj⟩

/-- Every operation rounds up by the most it can. -/
def Errors.upwards : Errors where
  wScaler := unitRoundoff
  hScaler := unitRoundoff
  x _ := unitRoundoff
  y _ _ := unitRoundoff
  wScaler_le := (abs_of_pos unitRoundoff_pos).le
  hScaler_le := (abs_of_pos unitRoundoff_pos).le
  x_le _ := (abs_of_pos unitRoundoff_pos).le
  y_le _ _ := (abs_of_pos unitRoundoff_pos).le

theorem rescaling_rounded_thirds : ∃ result,
    (∀ fuel, 3 + 1 < fuel → 1 + 1 < fuel →
      scaleMatrixRounded Errors.upwards fuel (3 : ℕ) (1 : ℕ) [[1, 2], [3, 4]] = .ok result) ∧
    (result.length = 3 ∨ result.length = 3 + 1) ∧
    (∀ column ∈ result, column.length = 1 ∨ column.length = 1 + 1) ∧
    (∀ {F : Type} (fp : Ops F) (letter : Matrix), IsMatrix 3 1 letter →
      ∃ difference, compareMatrices fp letter result = .ok difference) ∧
    (∀ i < result.length, sourceColumn Errors.upwards 2 3 i < 2 ∧
      ∀ j < (result.getD i []).length, sourceRow Errors.upwards 2 1 i j < 2 ∧
        entry result i j = entry [[1, 2], [3, 4]] (sourceColumn Errors.upwards 2 3 i)
          (sourceRow Errors.upwards 2 1 i j)) ∧
    (∀ k < 3, sourceColumn Errors.upwards 2 3 k = k * 2 / 3 ∨
      (0 < k ∧ 3 ∣ k * 2 ∧ sourceColumn Errors.upwards 2 3 k + 1 = k * 2 / 3)) ∧
    ∀ i < result.length, ∀ k < 1, sourceRow Errors.upwards 2 1 i k = k * 2 / 1 ∨
      (0 < k ∧ 1 ∣ k * 2 ∧ sourceRow Errors.upwards 2 1 i k + 1 = k * 2 / 1) :=
  rescaling_rounded Errors.upwards ⟨by decide, rfl, by decide, by decide⟩ (by decide) (by decide)
    (by decide) (by decide) (by decide) (by decide)

/-! ### Standard models -/

/-- A turn of a loop in a standard model, from the value of its variable. -/
theorem model_turn (model : StandardModel fp) {c : F} {q : ℚ} {N : ℕ} (hN : N ≤ 65536)
    (hc : model.value c = .rat q) (hq : 0 ≤ q) (hlt : q < N) :
    fp.lt c (fp.ofInt N) = true ∧ fp.toIndex c = ⌊q⌋.toNat := by
  have hNq : (N : ℚ) ≤ 65536 := by exact_mod_cast hN
  refine ⟨?_, model.toIndex c q hc hq (by linarith)⟩
  rw [model.lt_natCast hc (by omega)]
  exact decide_eq_true hlt

/-- **In a standard model scaling is scaling with some rounding errors.** -/
theorem scaleMatrixTo_rounded (model : StandardModel fp) (hm : IsMatrix W H m) (hW : W ≤ 65536)
    (hH : H ≤ 65536) (hw : 1 ≤ w) (hw' : w ≤ 65536) (hh : 1 ≤ h) (hh' : h ≤ 65536) :
    ∃ e : Errors, ∀ fuel, w + 1 < fuel → h + 1 < fuel →
      scaleMatrixTo fp fuel w h m = scaleMatrixRounded e fuel w h m := by
  obtain ⟨d0, d, hd0, hd, hx⟩ := model.ratioCounter_value (n := w + 1) hm.width_pos
    (by omega) hw (by omega) (by omega)
  obtain ⟨d0', d', hd0', hd', hy⟩ := model.ratioCounter_value (n := h + 1) hm.height_pos
    (by omega) hh (by omega) (by omega)
  let e : Errors := ⟨d0, d0', d, fun _ => d', hd0, hd0', hd, fun _ => hd'⟩
  have hfx := e.follows_x hW hw hw'
  have hfy := e.follows_y hH hh hh' 0
  obtain ⟨nw, hnw, hxlt, hxend⟩ := hfx.turns hm.width_pos hw
  obtain ⟨nh, hnh, hylt, hyend⟩ := hfy.turns hm.height_pos hh
  have hturn : ∀ k < nw, fp.lt (ratioCounter fp W w k) (fp.ofInt W) = true ∧
      fp.toIndex (ratioCounter fp W w k) = sourceColumn e W w k := fun k hk =>
    model_turn model hW (hx k (by omega)) (hfx.nonneg k) (hxlt k hk)
  have hturn' : ∀ k < nh, fp.lt (ratioCounter fp H h k) (fp.ofInt H) = true ∧
      fp.toIndex (ratioCounter fp H h k) = sourceRow e H h 0 k := fun k hk =>
    model_turn model hH (hy k (by omega)) (hfy.nonneg k) (hylt k hk)
  have hcolumn : ∀ k < nw, sourceColumn e W w k < W := fun k hk => hfx.index_lt (hxlt k hk)
  have hrow : ∀ k < nh, sourceRow e H h 0 k < H := fun k hk => hfy.index_lt (hylt k hk)
  refine ⟨e, fun fuel hfw hfh => ?_⟩
  -- the errors in `y` are the same in every column
  rw [scaleMatrixTo_of_turns hm (show nw < fuel by omega) (show nh < fuel by omega)
      (fun k hk => ⟨(hturn k hk).1, by rw [(hturn k hk).2]; exact hcolumn k hk⟩) ?_
      (fun k hk => ⟨(hturn' k hk).1, by rw [(hturn' k hk).2]; exact hrow k hk⟩) ?_,
    scaleMatrixRounded_of_turns e hm (show nw < fuel by omega)
      (fun _ => show nh < fuel by omega) (fun k hk => ⟨hxlt k hk, hcolumn k hk⟩) hxend
      (fun _ k hk => ⟨hylt k hk, hrow k hk⟩) fun _ => hyend]
  · refine congrArg Except.ok (table_congr fun i hi j hj => ?_)
    rw [(hturn i hi).2, (hturn' j hj).2]
    rfl
  · rw [model.lt_natCast (hx nw (by omega)) (by omega)]
    exact decide_eq_false (not_lt.mpr hxend)
  · rw [model.lt_natCast (hy nh (by omega)) (by omega)]
    exact decide_eq_false (not_lt.mpr hyend)

end Ocr
end IcnDemo
