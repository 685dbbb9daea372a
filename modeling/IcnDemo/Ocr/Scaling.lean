/-
# Scaling a template

The loops of `scaleMatrixTo` count in `double`s. In any standard model they end
and stay inside the template (`scaleMatrixTo_model`); in exact arithmetic the
scaled matrix is the nearest-neighbour one, `resample` (`scaleMatrixTo_exact`).
-/
import IcnDemo.Ocr.Processing

namespace IcnDemo
namespace Ocr

open Lib.Loop Lib.Grid Lib.Double

/-- A matrix of `W` by `H` pixels scaled to `w` by `h`: at `(x, y)` the pixel at
`(x W / w, y H / h)`. -/
def resample (w h : ℕ) (m : Matrix) : Matrix :=
  table w h fun x y => entry m (x * m.length / w) (y * (m.getD 0 []).length / h)

theorem resample_rect (w h : ℕ) (m : Matrix) : Rect h (resample w h m) := rect_table _ _ _

theorem resample_length (w h : ℕ) (m : Matrix) : (resample w h m).length = w := length_table _ _ _

/-- The dimensions of a template. -/
structure IsTemplate (W H : ℕ) (m : Matrix) : Prop where
  rect : Rect H m
  length : m.length = W
  width_pos : 0 < W
  height_pos : 0 < H
  width_lt : W < 2 ^ 31
  height_lt : H < 2 ^ 31

/-- A matrix of any `W` columns of `H` pixels, neither 0. -/
structure IsMatrix (W H : ℕ) (m : Matrix) : Prop where
  rect : Rect H m
  length : m.length = W
  width_pos : 0 < W
  height_pos : 0 < H

theorem IsTemplate.isMatrix {W H : ℕ} {m : Matrix} (hm : IsTemplate W H m) : IsMatrix W H m :=
  ⟨hm.rect, hm.length, hm.width_pos, hm.height_pos⟩

theorem IsMatrix.height {W H : ℕ} {m : Matrix} (hm : IsMatrix W H m) :
    (m.getD 0 []).length = H :=
  hm.rect.length_getD (by rw [hm.length]; exact hm.width_pos)

theorem IsTemplate.height {W H : ℕ} {m : Matrix} (hm : IsTemplate W H m) :
    (m.getD 0 []).length = H := hm.isMatrix.height

variable {F : Type} {fp : Ops F} {fuel W H w h : ℕ} {m : Matrix}

/-- **The scaled matrix, from the turns of the two loops.** -/
theorem scaleMatrixTo_of_turns (hm : IsMatrix W H m) {nw nh : ℕ} (hnw : nw < fuel)
    (hnh : nh < fuel)
    (hx : ∀ k < nw, fp.lt (ratioCounter fp W w k) (fp.ofInt W) = true ∧
      fp.toIndex (ratioCounter fp W w k) < W)
    (hxend : fp.lt (ratioCounter fp W w nw) (fp.ofInt W) = false)
    (hy : ∀ k < nh, fp.lt (ratioCounter fp H h k) (fp.ofInt H) = true ∧
      fp.toIndex (ratioCounter fp H h k) < H)
    (hyend : fp.lt (ratioCounter fp H h nh) (fp.ofInt H) = false) :
    scaleMatrixTo fp fuel w h m = .ok (table nw nh fun i j =>
      entry m (fp.toIndex (ratioCounter fp W w i)) (fp.toIndex (ratioCounter fp H h j))) := by
  have hlen := hm.length
  unfold scaleMatrixTo
  rw [elemAt_row (by rw [hlen]; exact hm.width_pos), ok_bind]
  dsimp only
  rw [hlen, hm.height]
  refine collectWhile_trajectory (ratioCounter fp W w) hnw (fun k => rfl) (fun i hi => ?_) hxend
  refine ⟨(hx i hi).1, ?_⟩
  refine collectWhile_trajectory (ratioCounter fp H h) hnh (fun k => rfl) (fun j hj => ?_) hyend
  exact ⟨(hy j hj).1, elemAt₂_of_lt hm.rect (by rw [hlen]; exact (hx i hi).2) (hy j hj).2⟩

/-- **In a standard model scaling ends**, with pixels of the template, and up to
some millions of columns and rows with at least as many as asked for. -/
theorem scaleMatrixTo_model (model : StandardModel fp) (hm : IsTemplate W H m) (hw : w < 2 ^ 31)
    (hh : h < 2 ^ 31) (hfuel : 2 ^ 32 < fuel) :
    ∃ (w' h' : ℕ) (ix iy : ℕ → ℕ), scaleMatrixTo fp fuel w h m =
        .ok (table w' h' fun i j => entry m (ix i) (iy j)) ∧
      (∀ i < w', ix i < W) ∧ (∀ j < h', iy j < H) ∧
      (w ≤ 2 ^ 25 → w ≤ w') ∧ (h ≤ 2 ^ 25 → h ≤ h') := by
  obtain ⟨nw, hnw, hgew, hx, hxend⟩ := model.ratio_turns hm.width_pos hm.width_lt hw
  obtain ⟨nh, hnh, hgeh, hy, hyend⟩ := model.ratio_turns hm.height_pos hm.height_lt hh
  exact ⟨nw, nh, _, _,
    scaleMatrixTo_of_turns hm.isMatrix (by omega) (by omega) hx hxend hy hyend,
    fun i hi => (hx i hi).2, fun j hj => (hy j hj).2, hgew, hgeh⟩

/-- The turns of a loop in exact arithmetic. -/
theorem exact_turns (hW : 0 < W) (hw : 0 < w) :
    (∀ k < w, exact.lt (ratioCounter exact W w k) (exact.ofInt W) = true ∧
      exact.toIndex (ratioCounter exact W w k) < W) ∧
    exact.lt (ratioCounter exact W w w) (exact.ofInt W) = false := by
  refine ⟨fun k hk => ⟨?_, ?_⟩, ?_⟩
  · rw [exact_ratioCounter_lt W hw hW]; exact decide_eq_true hk
  · rw [exact_ratioCounter_index W hw, Nat.div_lt_iff_lt_mul hw, Nat.mul_comm W]
    exact Nat.mul_lt_mul_of_pos_right hk hW
  · rw [exact_ratioCounter_lt W hw hW]; simp

/-- **In exact arithmetic scaling is nearest-neighbour.** -/
theorem scaleMatrixTo_exact (hm : IsMatrix W H m) (hw : 0 < w) (hh : 0 < h) (hfw : w < fuel)
    (hfh : h < fuel) : scaleMatrixTo exact fuel w h m = .ok (resample w h m) := by
  obtain ⟨hx, hxend⟩ := exact_turns hm.width_pos hw
  obtain ⟨hy, hyend⟩ := exact_turns hm.height_pos hh
  rw [scaleMatrixTo_of_turns hm hfw hfh hx hxend hy hyend, resample, hm.length, hm.height]
  simp only [exact_ratioCounter_index W hw, exact_ratioCounter_index H hh]

/-- Scaled up by whole factors the pixel at `(x, y)` is that at `(x / p, y / q)`. -/
theorem resample_mul (hm : IsMatrix W H m) (p q : ℕ) :
    resample (W * p) (H * q) m = table (W * p) (H * q) fun x y => entry m (x / p) (y / q) := by
  unfold resample
  rw [hm.length, hm.height]
  apply table_congr
  intro x _ y _
  rw [Nat.mul_comm W p, Nat.mul_div_mul_right _ _ hm.width_pos, Nat.mul_comm H q,
    Nat.mul_div_mul_right _ _ hm.height_pos]

/-- Scaled to its own size a matrix is itself. -/
theorem resample_self (hm : IsMatrix W H m) : resample W H m = m := by
  have h := resample_mul hm 1 1
  simp only [Nat.mul_one, Nat.div_one] at h
  rw [h, ← hm.length, ← hm.rect.eq_table]

theorem resample_isMatrix (hw : 0 < w) (hh : 0 < h) : IsMatrix w h (resample w h m) :=
  ⟨resample_rect w h m, resample_length w h m, hw, hh⟩

/-- The pixels of a scaled matrix are pixels of the matrix. -/
theorem index_lt {k n N : ℕ} (hk : k < n) (hN : 0 < N) : k * N / n < N := by
  rw [Nat.div_lt_iff_lt_mul (by omega), Nat.mul_comm N]
  exact Nat.mul_lt_mul_of_pos_right hk hN

/-- Scaled up by whole factors, and back, a matrix is itself. -/
theorem resample_resample (hm : IsMatrix W H m) {p q : ℕ} (hp : 0 < p) (hq : 0 < q) :
    resample W H (resample (W * p) (H * q) m) = m := by
  have hscaled := resample_isMatrix (m := m) (Nat.mul_pos hm.width_pos hp)
    (Nat.mul_pos hm.height_pos hq)
  have htable := hm.rect.eq_table
  rw [hm.length] at htable
  have hback : resample W H (resample (W * p) (H * q) m) = table W H (entry m) := by
    unfold resample at hscaled ⊢
    rw [hscaled.length, hscaled.height]
    apply table_congr
    intro x hx y hy
    rw [Nat.mul_left_comm, Nat.mul_div_cancel_left _ hm.width_pos, Nat.mul_left_comm,
      Nat.mul_div_cancel_left _ hm.height_pos,
      entry_table _ (Nat.mul_lt_mul_of_pos_right hx hp) (Nat.mul_lt_mul_of_pos_right hy hq),
      hm.length, hm.height]
    congr 1
    · rw [Nat.mul_assoc, Nat.mul_comm p, ← Nat.mul_assoc, Nat.mul_div_mul_right _ _ hp,
        Nat.mul_div_cancel _ hm.width_pos]
    · rw [Nat.mul_assoc, Nat.mul_comm q, ← Nat.mul_assoc, Nat.mul_div_mul_right _ _ hq,
        Nat.mul_div_cancel _ hm.height_pos]
  rw [hback, ← htable]

/-- **Rescaling is nearest-neighbour resampling**, for matrices and sizes without a
bound: both loops end and stay inside the matrix, and the result has the size asked
for and at `(i, j)` the pixel at `(i W / w, j H / h)`. So to its own size a matrix
stays as it is, by whole factors its pixels are repeated, and back from there it is
itself. -/
theorem rescaling_exact (hm : IsMatrix W H m) (hw : 0 < w) (hh : 0 < h) :
    ∃ result, (∀ fuel, w < fuel → h < fuel → scaleMatrixTo exact fuel w h m = .ok result) ∧
      result.length = w ∧ Rect h result ∧
      (∀ i < w, ∀ j < h, i * W / w < W ∧ j * H / h < H ∧
        entry result i j = entry m (i * W / w) (j * H / h)) ∧
      (w = W → h = H → result = m) ∧
      ∀ p q, 0 < p → 0 < q → w = W * p → h = H * q →
        (∀ i < w, ∀ j < h, entry result i j = entry m (i / p) (j / q)) ∧
        ∀ fuel, W < fuel → H < fuel → scaleMatrixTo exact fuel W H result = .ok m := by
  refine ⟨resample w h m, fun fuel hfw hfh => scaleMatrixTo_exact hm hw hh hfw hfh,
    resample_length w h m, resample_rect w h m, fun i hi j hj => ?_, fun hW hH => ?_,
    fun p q hp hq hW hH => ?_⟩
  · refine ⟨index_lt hi hm.width_pos, index_lt hj hm.height_pos, ?_⟩
    unfold resample
    rw [entry_table _ hi hj, hm.length, hm.height]
  · rw [hW, hH]
    exact resample_self hm
  · subst hW hH
    refine ⟨fun i hi j hj => ?_, fun fuel hfW hfH => ?_⟩
    · rw [resample_mul hm, entry_table _ hi hj]
    · rw [scaleMatrixTo_exact (resample_isMatrix hw hh) hm.width_pos hm.height_pos hfW hfH,
        resample_resample hm hp hq]

theorem rescaling_exact_thirds : ∃ result,
    (∀ fuel, 3 < fuel → 1 < fuel →
      scaleMatrixTo exact fuel (3 : ℕ) (1 : ℕ) [[1, 2], [3, 4]] = .ok result) ∧
    result.length = 3 ∧ Rect 1 result ∧
    (∀ i < 3, ∀ j < 1, i * 2 / 3 < 2 ∧ j * 2 / 1 < 2 ∧
      entry result i j = entry [[1, 2], [3, 4]] (i * 2 / 3) (j * 2 / 1)) ∧
    (3 = 2 → 1 = 2 → result = [[1, 2], [3, 4]]) ∧
    ∀ p q, 0 < p → 0 < q → 3 = 2 * p → 1 = 2 * q →
      (∀ i < 3, ∀ j < 1, entry result i j = entry [[1, 2], [3, 4]] (i / p) (j / q)) ∧
      ∀ fuel, 2 < fuel → 2 < fuel →
        scaleMatrixTo exact fuel (2 : ℕ) (2 : ℕ) result = .ok [[1, 2], [3, 4]] :=
  rescaling_exact ⟨by decide, rfl, by decide, by decide⟩ (by decide) (by decide)

end Ocr
end IcnDemo
