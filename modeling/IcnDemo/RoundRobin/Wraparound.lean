/-
# The rotation when the counter wraps around

`iter` is an `int`. Once it is negative its remainder is, too, and the loop
that moves `it` takes no turn, so the first nexthop is selected for the next
`2 ^ 31` new Interests (`hopIndex_of_wrapped`). The rotation stops there, one
Interest later if the number of nexthops divides `2 ^ 31` (`rotation_iff`).
-/
import IcnDemo.RoundRobin.Fairness

namespace IcnDemo
namespace RoundRobin

open Lib.Loop Lib.Rotation

variable {Face : Type}

/-! ### What is selected -/

/-- While `iter` is negative the first nexthop is selected. -/
theorem hopIndex_of_wrapped {k : ℕ} (h1 : 2 ^ 31 ≤ k) (h2 : k < 2 ^ 32) (n : ℕ) :
    hopIndex k n = 0 := by
  obtain ⟨q, hq⟩ := toInt_eq k
  have hbounds := toInt_bounds k
  have hneg : 0 ≤ -toInt k := by omega
  have hrem := Int.tmod_nonneg (toInt n) hneg
  rw [Int.neg_tmod] at hrem
  unfold hopIndex
  omega

/-- Up to the wrap, `n` nexthops come round; if `n` divides `2 ^ 31`, at the wrap, too. -/
theorem hopIndex_eq_mod {k n : ℕ} (hn : n ≤ 2 ^ 31) (hk : k < 2 ^ 31 ∨ n ∣ 2 ^ 31 ∧ k = 2 ^ 31) :
    hopIndex k n = k % n := by
  rcases hk with hk | ⟨hdvd, rfl⟩
  · rw [hopIndex_of_lt hk, period_eq hn]
  · rw [hopIndex_of_wrapped (Nat.le_refl _) (by omega), Nat.mod_eq_zero_of_dvd hdvd]

/-! ### Which runs end -/

/-- The remainders of the first `N` new Interests are defined. -/
theorem divides_below_iff {n N : ℕ} : (∀ k < N, Divides k n) ↔
    N = 0 ∨ ¬ 2 ^ 32 ∣ n ∧ (N ≤ 2 ^ 31 ∨ n % 2 ^ 32 ≠ 2 ^ 32 - 1) := by
  simp only [divides_iff]
  constructor
  · intro h
    rcases Nat.eq_zero_or_pos N with h0 | h0
    · exact Or.inl h0
    · refine Or.inr ⟨(h 0 h0).1, ?_⟩
      by_cases hN : N ≤ 2 ^ 31
      · exact Or.inl hN
      · exact Or.inr fun hn => (h (2 ^ 31) (by omega)).2 ⟨by decide, hn⟩
  · intro h k hk
    obtain ⟨hdiv, hcase⟩ := h.resolve_left (by omega)
    refine ⟨hdiv, fun ⟨hk', hn⟩ => ?_⟩
    rcases hcase with hN | hN
    · omega
    · exact hN hn

/-! ### The rotation -/

/-- Two Interests less than `n` apart that select the same nexthop, once the counter has
wrapped around. -/
theorem exists_repeat {n N : ℕ} (hn : 2 ≤ n) (hN : 2 ^ 31 < N)
    (h0 : toInt n ≠ 0) (hlast : ¬ (n ∣ 2 ^ 31 ∧ N = 2 ^ 31 + 1)) :
    ∃ i j, i < j ∧ j < i + n ∧ j < N ∧ hopIndex i n = hopIndex j n := by
  rcases Nat.lt_or_ge (2 ^ 31) n with hlong | hshort
  · -- the modulus is below the number of nexthops
    have hpos : 0 < period n := Int.natAbs_pos.mpr h0
    have hle : period n ≤ 2 ^ 31 := by
      have := toInt_bounds n
      unfold period
      omega
    refine ⟨0, period n, hpos, by omega, by omega, ?_⟩
    rw [hopIndex_of_lt (by omega), Nat.zero_mod]
    rcases Nat.lt_or_eq_of_le hle with hlt | heq
    · rw [hopIndex_of_lt hlt, Nat.mod_self]
    · rw [hopIndex_of_wrapped (by omega) (by omega)]
  · by_cases hdvd : n ∣ 2 ^ 31
    · -- the first nexthop at the wrap and after it
      have hfar : N ≠ 2 ^ 31 + 1 := fun heq => hlast ⟨hdvd, heq⟩
      refine ⟨2 ^ 31, 2 ^ 31 + 1, by omega, by omega, by omega, ?_⟩
      rw [hopIndex_of_wrapped (by omega) (by omega), hopIndex_of_wrapped (by omega) (by omega)]
    · -- the first nexthop at the last multiple of `n` and at the wrap
      have hpos : 0 < 2 ^ 31 % n := Nat.pos_of_ne_zero fun hz => hdvd (Nat.dvd_of_mod_eq_zero hz)
      have hlt : 2 ^ 31 % n < n := Nat.mod_lt _ (by omega)
      have hle : 2 ^ 31 % n ≤ 2 ^ 31 := Nat.mod_le _ _
      refine ⟨2 ^ 31 - 2 ^ 31 % n, 2 ^ 31, by omega, by omega, hN, ?_⟩
      rw [hopIndex_of_lt (by omega), period_eq hshort, hopIndex_of_wrapped (by omega) (by omega)]
      exact Nat.sub_mod_eq_zero_of_mod_eq (by rw [Nat.mod_mod])

/-- Where the first `N` selections, the remainders of which are defined, come round. -/
theorem comes_round_iff {n N : ℕ} (hn : 1 ≤ n) (hdiv : ∀ k < N, Divides k n) :
    (n ≤ N → Spread n ((List.range N).map (hopIndex · n))) ↔
      N ≤ 2 ^ 31 ∨ n = 1 ∨ (n ∣ 2 ^ 31 ∧ N = 2 ^ 31 + 1) ∨ N < n := by
  rw [spread_map_range]
  constructor
  · intro h
    by_contra hcon
    simp only [not_or, not_le, not_lt] at hcon
    obtain ⟨hN, hone, hlast, hnN⟩ := hcon
    obtain ⟨i, j, hij, hjn, hj, heq⟩ := exists_repeat (by omega) hN (hdiv 0 (by omega)).1 hlast
    exact h hnN i j hij hjn hj heq
  · intro h _ i j hij hjn hj
    have hmod : n ≤ 2 ^ 31 → (j < 2 ^ 31 ∨ n ∣ 2 ^ 31 ∧ j = 2 ^ 31) →
        hopIndex i n ≠ hopIndex j n := by
      intro hshort hj'
      rw [hopIndex_eq_mod hshort (Or.inl (by omega)), hopIndex_eq_mod hshort hj']
      exact mod_ne_mod hij hjn
    rcases h with hN | rfl | ⟨hdvd, hN⟩ | hN
    · exact hmod (by omega) (Or.inl (by omega))
    · omega
    · refine hmod (Nat.le_of_dvd (by decide) hdvd) ?_
      by_cases hjlt : j < 2 ^ 31
      · exact Or.inl hjlt
      · exact Or.inr ⟨hdvd, by omega⟩
    · omega

/-- In a run that ends, `n` consecutive new Interests select `n` different nexthops where
the selections come round. -/
theorem windows_of_run {hops : List Face} (hn : 1 ≤ hops.length) {as : List (Arrival Face)}
    (hfix : ∀ a ∈ as, a.nexthops = hops) {calls : List (Call Face)} (hok : serve 0 as = .ok calls) :
    (selections calls).length = newCount as ∧
    ((∀ j, j + hops.length ≤ newCount as →
        (((selections calls).drop j).take hops.length).Nodup) ↔
      newCount as ≤ 2 ^ 31 ∨ hops.length = 1 ∨
        (hops.length ∣ 2 ^ 31 ∧ newCount as = 2 ^ 31 + 1) ∨ newCount as < hops.length) := by
  have hsel := selections_serve (k := 0) hfix hok
  rw [← List.range_eq_range'] at hsel
  have hlen : (selections calls).length = newCount as := by
    rw [hsel, List.length_map, List.length_range]
  have hwin := windows_nodup_iff (n := hops.length) (l := selections calls)
  rw [hlen, hsel, comes_round_iff hn ((serve_fixed_ok_iff hfix).mp ⟨calls, hok⟩)] at hwin
  rw [hsel]
  exact ⟨hsel ▸ hlen, hwin⟩

/-- A number of nexthops that rotates past the wrap is small. -/
theorem mod_ne_of_rotates {n : ℕ} (h : n = 1 ∨ n ∣ 2 ^ 31) : n % 2 ^ 32 ≠ 2 ^ 32 - 1 := by
  have hle : n ≤ 2 ^ 31 := by
    rcases h with h | h
    · omega
    · exact Nat.le_of_dvd (by decide) h
  omega

/-- **The rotation goes on up to the wrap.** On one entry of `n` nexthops, `n`
consecutive new Interests select `n` different ones all through a run of `N` new
Interests exactly when `N` is at most `2 ^ 31`, or there is one nexthop, or `n`
divides `2 ^ 31` and `N` is one more, or there are no `n` of them. -/
theorem rotation_iff (hops : List Face) (hn : 1 ≤ hops.length) (as : List (Arrival Face))
    (hfix : ∀ a ∈ as, a.nexthops = hops) :
    (∃ calls, serve 0 as = .ok calls ∧ (selections calls).length = newCount as ∧
      ∀ j, j + hops.length ≤ newCount as →
        (((selections calls).drop j).take hops.length).Nodup) ↔
    newCount as = 0 ∨ ¬ 2 ^ 32 ∣ hops.length ∧
      (newCount as ≤ 2 ^ 31 ∨ hops.length = 1 ∨
        (hops.length ∣ 2 ^ 31 ∧ newCount as = 2 ^ 31 + 1) ∨
        (newCount as < hops.length ∧ hops.length % 2 ^ 32 ≠ 2 ^ 32 - 1)) := by
  set n := hops.length
  set N := newCount as
  have hends : (∃ calls, serve 0 as = .ok calls) ↔
      N = 0 ∨ ¬ 2 ^ 32 ∣ n ∧ (N ≤ 2 ^ 31 ∨ n % 2 ^ 32 ≠ 2 ^ 32 - 1) := by
    rw [serve_fixed_ok_iff hfix, divides_below_iff]
  constructor
  · intro ⟨calls, hok, _, hwin⟩
    have hcase := (windows_of_run hn hfix hok).2.mp hwin
    rcases hends.mp ⟨calls, hok⟩ with h0 | ⟨hdiv, hcast⟩
    · exact Or.inl h0
    · refine Or.inr ⟨hdiv, ?_⟩
      rcases hcase with h | h | h | h
      · exact Or.inl h
      · exact Or.inr (Or.inl h)
      · exact Or.inr (Or.inr (Or.inl h))
      · rcases hcast with hN | hlast
        · exact Or.inl hN
        · exact Or.inr (Or.inr (Or.inr ⟨h, hlast⟩))
  · intro h
    obtain ⟨calls, hok⟩ : ∃ calls, serve 0 as = .ok calls := by
      rw [hends]
      rcases h with h0 | ⟨hdiv, h | h | h | h⟩
      · exact Or.inl h0
      · exact Or.inr ⟨hdiv, Or.inl h⟩
      · exact Or.inr ⟨hdiv, Or.inr (mod_ne_of_rotates (Or.inl h))⟩
      · exact Or.inr ⟨hdiv, Or.inr (mod_ne_of_rotates (Or.inr h.1))⟩
      · exact Or.inr ⟨hdiv, Or.inr h.2⟩
    obtain ⟨hlen, hiff⟩ := windows_of_run hn hfix hok
    refine ⟨calls, hok, hlen, hiff.mpr ?_⟩
    rcases h with h0 | ⟨-, h | h | h | h⟩
    · exact Or.inl (by omega)
    · exact Or.inl h
    · exact Or.inr (Or.inl h)
    · exact Or.inr (Or.inr (Or.inl h))
    · exact Or.inr (Or.inr (Or.inr h.1))

/-- `N` new Interests for one entry, every nexthop of which may be used. -/
def steady (hops : List ℕ) (N : ℕ) : List (Arrival ℕ) := List.replicate N (Arrival.fresh hops)

theorem newCount_steady (hops : List ℕ) (N : ℕ) : newCount (steady hops N) = N := by
  unfold newCount steady
  rw [List.countP_replicate]
  rfl

theorem steady_fixed {hops : List ℕ} {N : ℕ} : ∀ a ∈ steady hops N, a.nexthops = hops := by
  intro a ha
  rw [List.eq_of_mem_replicate ha]
  rfl

/-- Three Interests for two nexthops. -/
theorem rotation_iff_two : ∃ calls, serve 0 (steady [10, 20] 3) = .ok calls ∧
    ∀ j, j + 2 ≤ 3 → (((selections calls).drop j).take 2).Nodup := by
  have hcount := newCount_steady [10, 20] 3
  obtain ⟨calls, hok, -, hwin⟩ := (rotation_iff [10, 20] (by decide) (steady [10, 20] 3)
    steady_fixed).mpr (by rw [hcount]; decide)
  rw [hcount] at hwin
  exact ⟨calls, hok, hwin⟩

/-- Past the wrap two consecutive Interests go to the same one of two nexthops. -/
theorem stuck_at_wrap : ∃ calls, serve 0 (steady [10, 20] (2 ^ 31 + 2)) = .ok calls ∧
    ((selections calls).drop (2 ^ 31)).take 2 = [0, 0] := by
  have hcount := newCount_steady [10, 20] (2 ^ 31 + 2)
  obtain ⟨calls, hok⟩ := (serve_fixed_ok_iff steady_fixed).mpr
    (divides_below_iff.mpr (Or.inr ⟨by decide, Or.inr (by decide)⟩) :
      ∀ k < newCount (steady [10, 20] (2 ^ 31 + 2)), Divides k [10, 20].length)
  refine ⟨calls, hok, ?_⟩
  have htwo : List.range' (0 + 2 ^ 31) (2 ^ 31 + 2 - 2 ^ 31) = [2 ^ 31, 2 ^ 31 + 1] := by
    rw [Nat.add_sub_cancel_left, Nat.zero_add]
    rfl
  rw [selections_serve (k := 0) steady_fixed hok, hcount, ← List.map_drop, List.drop_range',
    Nat.mul_one, htwo]
  simp only [List.map_cons, List.map_nil]
  rw [hopIndex_of_wrapped (by omega) (by omega), hopIndex_of_wrapped (by omega) (by omega)]
  rfl

end RoundRobin
end IcnDemo
