/-
# Byte strings as big-endian numbers

`beNat` reads a byte string as a number, most significant byte first, and
`beBytes w` writes a number in `w` bytes; on strings of one length they are
inverse to one another (`beNat_beBytes`, `beBytes_beNat`). `memcmp` compares two
strings up to the end of the shorter; on strings of one length it compares the
numbers (`memcmp_eq_compare`). `addOne` adds one, with the carry out.
-/
import Mathlib.Data.List.Induction
import Mathlib.Order.Compare
import Mathlib.Tactic.Common
import Mathlib.Tactic.Ring

namespace Lib
namespace BigEndian

/-- The number a byte string stands for. -/
def beNat (bs : List UInt8) : ℕ := bs.foldl (fun n b => 256 * n + b.toNat) 0

/-- The last `w` bytes of a number. -/
def beBytes : ℕ → ℕ → List UInt8
  | 0, _ => []
  | w + 1, n => beBytes w (n / 256) ++ [UInt8.ofNat n]

@[simp] theorem beNat_nil : beNat [] = 0 := rfl

@[simp] theorem beNat_singleton (b : UInt8) : beNat [b] = b.toNat := by simp [beNat]

@[simp] theorem beNat_concat (bs : List UInt8) (b : UInt8) :
    beNat (bs ++ [b]) = 256 * beNat bs + b.toNat := by
  simp [beNat]

@[simp] theorem beBytes_length : ∀ w n : ℕ, (beBytes w n).length = w
  | 0, _ => rfl
  | w + 1, n => by simp [beBytes, beBytes_length w]

theorem beNat_append (as bs : List UInt8) :
    beNat (as ++ bs) = beNat as * 256 ^ bs.length + beNat bs := by
  induction bs using List.reverseRecOn with
  | nil => simp
  | append_singleton bs b ih =>
    rw [← List.append_assoc, beNat_concat, ih, beNat_concat, List.length_append,
      List.length_singleton, pow_succ]
    ring

theorem beNat_cons (b : UInt8) (bs : List UInt8) :
    beNat (b :: bs) = b.toNat * 256 ^ bs.length + beNat bs := by
  rw [← List.singleton_append, beNat_append, beNat_singleton]

theorem beNat_lt (bs : List UInt8) : beNat bs < 256 ^ bs.length := by
  induction bs using List.reverseRecOn with
  | nil => simp
  | append_singleton bs b ih =>
    have hb := b.toNat_lt
    rw [beNat_concat, List.length_append, List.length_singleton, pow_succ]
    omega

theorem beNat_beBytes : ∀ {w n : ℕ}, n < 256 ^ w → beNat (beBytes w n) = n
  | 0, n, h => by
    have hn : n = 0 := by simpa using h
    simp [beBytes, hn]
  | w + 1, n, h => by
    have hdiv : n / 256 < 256 ^ w := by
      rw [pow_succ] at h
      omega
    rw [beBytes, beNat_concat, beNat_beBytes hdiv, UInt8.toNat_ofNat']
    exact Nat.div_add_mod n 256

/-- The bytes that do not fit are left out. -/
theorem beBytes_mod : ∀ w n : ℕ, beBytes w (n % 256 ^ w) = beBytes w n
  | 0, _ => rfl
  | w + 1, n => by
    have hdiv : n % 256 ^ (w + 1) / 256 = n / 256 % 256 ^ w := by
      rw [pow_succ, Nat.mul_comm, Nat.mod_mul_right_div_self]
    have hmod : UInt8.ofNat (n % 256 ^ (w + 1)) = UInt8.ofNat n := by
      apply UInt8.toNat_inj.mp
      rw [UInt8.toNat_ofNat', UInt8.toNat_ofNat', pow_succ, Nat.mul_comm]
      exact Nat.mod_mul_right_mod n 256 (256 ^ w)
    rw [beBytes, beBytes, hdiv, hmod, beBytes_mod w]

theorem beBytes_beNat (bs : List UInt8) : beBytes bs.length (beNat bs) = bs := by
  induction bs using List.reverseRecOn with
  | nil => rfl
  | append_singleton bs b ih =>
    have hb := b.toNat_lt
    have hdiv : (256 * beNat bs + b.toNat) / 256 = beNat bs := by omega
    have hmod : UInt8.ofNat (256 * beNat bs + b.toNat) = b := by
      apply UInt8.toNat_inj.mp
      rw [UInt8.toNat_ofNat']
      omega
    rw [List.length_append, List.length_singleton, beNat_concat, beBytes, hdiv, ih, hmod]

/-- A byte string of one length is determined by its number. -/
theorem beNat_inj {as bs : List UInt8} (hlen : as.length = bs.length)
    (h : beNat as = beNat bs) : as = bs := by
  rw [← beBytes_beNat as, ← beBytes_beNat bs, hlen, h]

/-! ### Comparison -/

/-- The first bytes that differ decide; a prefix is equal. -/
def memcmp : List UInt8 → List UInt8 → Ordering
  | a :: as, b :: bs => (compare a.toNat b.toNat).then (memcmp as bs)
  | _, _ => .eq

theorem memcmp_append : ∀ {as bs : List UInt8}, as.length = bs.length →
    ∀ xs ys : List UInt8, memcmp (as ++ xs) (bs ++ ys) = (memcmp as bs).then (memcmp xs ys)
  | [], [], _, _, _ => rfl
  | a :: as, b :: bs, h, xs, ys => by
    simp only [List.cons_append, memcmp]
    rw [memcmp_append (by simpa using h)]
    cases compare a.toNat b.toNat <;> rfl

/-- Numbers whose leading parts and rests compare: the leading parts decide. -/
theorem compare_mul_add {a b w x y : ℕ} (hx : x < w) (hy : y < w) :
    compare (a * w + x) (b * w + y) = (compare a b).then (compare x y) := by
  rcases lt_trichotomy a b with h | rfl | h
  · have hle : (a + 1) * w ≤ b * w := Nat.mul_le_mul_right w h
    rw [compare_lt_iff_lt.mpr h]
    rw [Nat.succ_mul] at hle
    exact compare_lt_iff_lt.mpr (by omega)
  · rw [compare_eq_iff_eq.mpr rfl]
    rcases lt_trichotomy x y with h | rfl | h
    · rw [compare_lt_iff_lt.mpr h]
      exact compare_lt_iff_lt.mpr (by omega)
    · simp
    · rw [compare_gt_iff_gt.mpr h]
      exact compare_gt_iff_gt.mpr (by omega)
  · have hle : (b + 1) * w ≤ a * w := Nat.mul_le_mul_right w h
    rw [compare_gt_iff_gt.mpr h]
    rw [Nat.succ_mul] at hle
    exact compare_gt_iff_gt.mpr (by omega)

theorem memcmp_eq_compare : ∀ {as bs : List UInt8}, as.length = bs.length →
    memcmp as bs = compare (beNat as) (beNat bs)
  | [], [], _ => by simp [memcmp]
  | a :: as, b :: bs, h => by
    have hlen : as.length = bs.length := by simpa using h
    have hx := beNat_lt as
    have hy := beNat_lt bs
    rw [memcmp, memcmp_eq_compare hlen, beNat_cons, beNat_cons, ← hlen]
    rw [← hlen] at hy
    rw [compare_mul_add hx hy]

/-! ### Adding one -/

/-- One added to the number whose bytes, least significant first, are these:
the bytes and the carry out. -/
def addOne : List UInt8 → List UInt8 × Bool
  | [] => ([], true)
  | b :: bs =>
    if b + 1 = 0 then
      let r := addOne bs
      ((b + 1) :: r.1, r.2)
    else ((b + 1) :: bs, false)

theorem addOne_length : ∀ bs : List UInt8, (addOne bs).1.length = bs.length
  | [] => rfl
  | b :: bs => by
    unfold addOne
    split
    · simp [addOne_length bs]
    · simp

theorem toNat_add_one (b : UInt8) :
    (b + 1 = 0 ∧ b.toNat = 255) ∨ (b + 1 ≠ 0 ∧ (b + 1).toNat = b.toNat + 1) := by
  have hb := b.toNat_lt
  have hsum : (b + 1).toNat = (b.toNat + 1) % 256 := by simp [UInt8.toNat_add]
  by_cases h : b.toNat = 255
  · left
    refine ⟨?_, h⟩
    apply UInt8.toNat_inj.mp
    rw [hsum, h]
    rfl
  · right
    have hval : (b + 1).toNat = b.toNat + 1 := by omega
    refine ⟨?_, hval⟩
    intro h0
    rw [h0] at hval
    exact absurd hval (by simp)

/-- The carry goes out of a string of 255s only, and then the rest is zero. -/
theorem addOne_spec : ∀ bs : List UInt8,
    ((addOne bs).2 = true ∧ beNat bs.reverse + 1 = 256 ^ bs.length ∧
      beNat (addOne bs).1.reverse = 0) ∨
    ((addOne bs).2 = false ∧ beNat (addOne bs).1.reverse = beNat bs.reverse + 1)
  | [] => by simp [addOne]
  | b :: bs => by
    unfold addOne
    rcases toNat_add_one b with ⟨h0, h255⟩ | ⟨h0, hval⟩
    · rw [if_pos h0]
      simp only [List.reverse_cons, beNat_concat, List.length_cons, h0, h255, pow_succ]
      rcases addOne_spec bs with ⟨hc, hn, hz⟩ | ⟨hc, hn⟩
      · left
        refine ⟨hc, by omega, ?_⟩
        rw [hz]
        rfl
      · right
        refine ⟨hc, ?_⟩
        rw [hn]
        simp
        omega
    · rw [if_neg h0]
      right
      refine ⟨rfl, ?_⟩
      simp only [List.reverse_cons, beNat_concat, hval]
      omega

end BigEndian
end Lib
