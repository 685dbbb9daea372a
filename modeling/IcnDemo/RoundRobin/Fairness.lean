/-
# Fairness of the round-robin strategy

On one destination (`single_destination`): the `k`-th new Interest selects the
nexthop at `k mod n`, is sent there or rejected, and every window of new
Interests is balanced, whatever is suppressed or rejected in between. The
number of nexthops is cast to an `int`, so this needs a list an `int` can count
or a run shorter than what the cast leaves of its length.

Over several destinations the instance has one counter for all of them, so
fairness for each depends on the schedule (`fair_iff_spaced`): it holds exactly
when two new Interests for a destination of `n` nexthops that are less than
`n` apart among its own never have a multiple of `n` Interests from one to the
other in the common order.
-/
import IcnDemo.RoundRobin.Counter
import IcnDemo.Lib.Rotation
import Mathlib.Data.List.Basic

namespace IcnDemo
namespace RoundRobin

open Lib.Loop Lib.Rotation

variable {Face : Type}

/-- The indices selected in a run, in order. -/
def selections (calls : List (Call Face)) : List ℕ := calls.filterMap (·.reply.selected)

/-! ### One destination -/

/-- **On one destination the `k`-th new Interest selects `hopIndex k n`.** -/
theorem selections_serve {hops : List Face} {as : List (Arrival Face)} {k : ℕ}
    {calls : List (Call Face)} (hfix : ∀ a ∈ as, a.nexthops = hops)
    (h : serve (toInt k) as = .ok calls) :
    selections calls = (List.range' k (newCount as)).map (hopIndex · hops.length) := by
  induction as generalizing k calls with
  | nil =>
    cases h
    rfl
  | cons b as ih =>
    obtain ⟨c, rest, rfl, hcall, hrest⟩ := serve_cons h
    have hsel := ih (fun a ha => hfix a (List.mem_cons_of_mem _ ha)) hrest
    rw [newCount_cons]
    unfold selections at hsel ⊢
    cases hp : b.hasPendingOutRecords with
    | true => simpa [hcall.quiet hp, Arrival.isNew, hp] using hsel
    | false =>
      obtain ⟨f, -, hreply⟩ := hcall.selects hp
      rw [hfix b List.mem_cons_self] at hreply
      simpa [hreply, replyAt, Arrival.isNew, hp, List.range'_succ] using hsel

/-- A list an `int` can count, or a run short for the cast, makes the code's
modulus as good as `n`. -/
theorem mod_period_eq {n N k : ℕ} (h : n ≤ 2 ^ 31 ∨ N ≤ period n) (hk : k < N) :
    k % period n = k % n := by
  rcases h with h | h
  · rw [period_eq h]
  · have := period_le n
    rw [Nat.mod_eq_of_lt (by omega), Nat.mod_eq_of_lt (by omega)]

theorem toInt_ne_zero_of_period {n : ℕ} (h : 0 < period n) : toInt n ≠ 0 :=
  Int.natAbs_pos.mp h

theorem newCount_take_le (as : List (Arrival Face)) (i : ℕ) : newCount (as.take i) ≤ newCount as :=
  (List.take_sublist i as).countP_le

/-- Before a new Interest there are fewer of them than in the whole run. -/
theorem newCount_take_lt {as : List (Arrival Face)} {i : ℕ} {a : Arrival Face}
    (ha : as[i]? = some a) (hnew : a.isNew = true) : newCount (as.take i) < newCount as := by
  obtain ⟨hi, rfl⟩ := List.getElem?_eq_some_iff.mp ha
  have hsplit : newCount as = newCount (as.take i) + newCount (as.drop i) := by
    rw [newCount, newCount, newCount, ← List.countP_append, List.take_append_drop]
  rw [List.drop_eq_getElem_cons hi, newCount_cons, if_pos hnew] at hsplit
  omega

/-- Before the new Interests of a run there are 0, 1, 2, ... others. -/
theorem exists_newCount_take {as : List (Arrival Face)} {k : ℕ} (hk : k < newCount as) :
    ∃ i a, as[i]? = some a ∧ a.isNew = true ∧ newCount (as.take i) = k := by
  induction as generalizing k with
  | nil => exact absurd hk (Nat.not_lt_zero k)
  | cons b as ih =>
    rw [newCount_cons] at hk
    by_cases hb : b.isNew = true
    · cases k with
      | zero => exact ⟨0, b, rfl, hb, rfl⟩
      | succ k =>
        rw [if_pos hb] at hk
        obtain ⟨i, a, ha, hnew, hcount⟩ := ih (k := k) (by omega)
        refine ⟨i + 1, a, ha, hnew, ?_⟩
        rw [List.take_succ_cons, newCount_cons, if_pos hb, hcount]
    · rw [if_neg hb] at hk
      obtain ⟨i, a, ha, hnew, hcount⟩ := ih (k := k) (by omega)
      refine ⟨i + 1, a, ha, hnew, ?_⟩
      rw [List.take_succ_cons, newCount_cons, if_neg hb, hcount, Nat.add_zero]

/-- On one destination a run ends exactly when the remainders of all its new Interests
are defined. -/
theorem serve_fixed_ok_iff {hops : List Face} {as : List (Arrival Face)}
    (hfix : ∀ a ∈ as, a.nexthops = hops) :
    (∃ calls, serve 0 as = .ok calls) ↔ ∀ k < newCount as, Divides k hops.length := by
  have hrun := serve_ok_iff as 0
  simp only [Nat.zero_add] at hrun
  constructor
  · intro hok k hk
    obtain ⟨i, a, ha, hnew, rfl⟩ := exists_newCount_take hk
    rw [← hfix a (List.mem_of_getElem? ha)]
    exact hrun.mp hok i a ha hnew
  · intro h
    refine hrun.mpr fun i a ha hnew => ?_
    rw [hfix a (List.mem_of_getElem? ha)]
    exact h _ (newCount_take_lt ha hnew)

/-- **Round robin on one destination.** -/
theorem single_destination (hops : List Face) (hn : 1 ≤ hops.length) (as : List (Arrival Face))
    (hfix : ∀ a ∈ as, a.nexthops = hops) (hnew : newCount as < 2 ^ 31)
    (hcast : hops.length ≤ 2 ^ 31 ∨ newCount as ≤ period hops.length) :
    ∃ calls, serve 0 as = .ok calls ∧ calls.length = as.length ∧
      (∀ i a, as[i]? = some a → ∃ c, calls[i]? = some c ∧
        c.before = (newCount (as.take i) : ℤ) ∧
        (a.hasPendingOutRecords = true →
          c.after = c.before ∧ c.reply.selected = none ∧ c.reply.actions = []) ∧
        (a.hasPendingOutRecords = false →
          c.after = c.before + 1 ∧
          c.reply.selected = some (newCount (as.take i) % hops.length) ∧
          ∃ f, hops[newCount (as.take i) % hops.length]? = some f ∧
            c.reply.actions =
              [if a.eligible f then .sendInterest f else .rejectPendingInterest])) ∧
      (selections calls).length = newCount as ∧
      Balanced (Finset.range hops.length) (selections calls) := by
  have hdiv : ∀ k < newCount as, Divides k hops.length := by
    intro k hk
    have hnow : toInt k = k := toInt_natCast (by omega)
    refine ⟨toInt_ne_zero_of_period ?_, fun hbad => by omega⟩
    rcases hcast with h | h
    · rw [period_eq h]; exact hn
    · omega
  have hindex : ∀ k < newCount as, hopIndex k hops.length = k % hops.length := by
    intro k hk
    rw [hopIndex_of_lt (by omega), mod_period_eq hcast hk]
  obtain ⟨calls, hok⟩ := (serve_fixed_ok_iff hfix).mpr hdiv
  have hsel : selections calls = (List.range (newCount as)).map (· % hops.length) := by
    rw [selections_serve (k := 0) hfix hok, ← List.range_eq_range']
    exact List.map_congr_left fun k hk => hindex k (List.mem_range.mp hk)
  have hbal : Balanced (Finset.range hops.length)
      ((List.range (newCount as)).map (· % hops.length)) := by
    apply Spread.balanced (mod_mem_range hn)
    rw [Finset.card_range]
    exact spread_mod _ _
  refine ⟨calls, hok, serve_length (k := 0) hok, fun i a ha => ?_,
    by rw [hsel, List.length_map, List.length_range], hsel ▸ hbal⟩
  obtain ⟨c, hc, hcall⟩ := serve_call (k := 0) hok i a ha
  rw [Nat.zero_add] at hcall
  have hbefore : c.before = newCount (as.take i) := by
    rw [hcall.before]
    exact toInt_natCast (lt_of_le_of_lt (newCount_take_le as i) hnew)
  have hafter := hcall.after
  refine ⟨c, hc, hbefore, fun hp => ?_, fun hp => ?_⟩
  · have hold : a.isNew = false := by rw [Arrival.isNew, hp]; rfl
    rw [hold, if_neg Bool.false_ne_true, Nat.add_zero, ← hcall.before] at hafter
    rw [hcall.quiet hp]
    exact ⟨hafter, rfl, rfl⟩
  · have hnew' : a.isNew = true := by rw [Arrival.isNew, hp]; rfl
    have hlt := newCount_take_lt ha hnew'
    obtain ⟨f, hf, hreply⟩ := hcall.selects hp
    rw [hfix a (List.mem_of_getElem? ha), hindex _ hlt] at hf hreply
    rw [hnew', if_pos rfl, toInt_natCast (by omega)] at hafter
    rw [hreply, hbefore]
    exact ⟨hafter, rfl, f, hf, rfl⟩

/-- A new Interest for which every nexthop is eligible. -/
def Arrival.fresh (hops : List Face) : Arrival Face where
  hasPendingOutRecords := false
  nexthops := hops
  wouldViolateScope _ := false
  canForwardToLegacy _ := true

/-- Three nexthops, the second Interest suppressed. -/
theorem single_destination_three : ∃ calls, serve 0 [Arrival.fresh [10, 20, 30],
      { Arrival.fresh [10, 20, 30] with hasPendingOutRecords := true },
      Arrival.fresh [10, 20, 30]] = .ok calls ∧
    Balanced (Finset.range 3) (selections calls) := by
  obtain ⟨calls, hrun, -, -, -, hbal⟩ := single_destination [10, 20, 30] (by decide)
    [Arrival.fresh [10, 20, 30],
      { Arrival.fresh [10, 20, 30] with hasPendingOutRecords := true },
      Arrival.fresh [10, 20, 30]] (by simp [Arrival.fresh]) (by decide) (Or.inl (by decide))
  exact ⟨calls, hrun, hbal⟩

/-- `2 ^ 32` nexthops cast to 0, and the first new Interest selects nothing. -/
theorem single_destination_overlong : ¬ ∃ calls,
    serve 0 [Arrival.fresh (List.replicate (2 ^ 32) ())] = .ok calls ∧
      selections calls = [0 % 2 ^ 32] := by
  rintro ⟨calls, hrun, -⟩
  apply serve_ok_nonzero hrun _ List.mem_cons_self rfl
  unfold Arrival.fresh
  rw [List.length_replicate]
  exact (toInt_eq_zero_iff _).mpr dvd_rfl

/-! ### Several destinations -/

variable {Entry : Type} [DecidableEq Entry]

/-- The calls of a run in which all Interests are new and every nexthop is
eligible, addressed in the order of `schedule`. -/
def serveSchedule (nexthops : Entry → List Face) (schedule : List Entry) :
    Except Fault (List (Call Face)) :=
  serve 0 (schedule.map fun e => Arrival.fresh (nexthops e))

/-- What the calls of a run selected for the Interests of one entry. -/
def selectionsOf (e : Entry) (schedule : List Entry) (calls : List (Call Face)) : List ℕ :=
  selections (((schedule.zip calls).filter fun p => p.1 = e).map Prod.snd)

/-- The run ends and is fair to each entry by itself. -/
def Fair (nexthops : Entry → List Face) (schedule : List Entry) : Prop :=
  ∃ calls, serveSchedule nexthops schedule = .ok calls ∧
    ∀ e, Balanced (Finset.range (nexthops e).length) (selectionsOf e schedule calls)

/-- The positions of the Interests of one entry in the schedule. -/
def positions (e : Entry) (schedule : List Entry) : List ℕ := schedule.findIdxs (· = e)

/-- No addressed list has a length that casts to 0, and Interests of one entry
that are less than its number of nexthops apart among its own are never a
multiple of that number (as cast) apart in the schedule. -/
def Spaced (nexthops : Entry → List Face) (schedule : List Entry) : Prop :=
  (∀ e ∈ schedule, toInt (nexthops e).length ≠ 0) ∧
  ∀ e i j p q, i < j → j < i + (nexthops e).length →
    (positions e schedule)[i]? = some p → (positions e schedule)[j]? = some q →
    ¬ toInt (nexthops e).length ∣ (q : ℤ) - p

omit [DecidableEq Entry] in
theorem newCount_map_fresh (nexthops : Entry → List Face) (schedule : List Entry) :
    newCount (schedule.map fun e => Arrival.fresh (nexthops e)) = schedule.length := by
  unfold newCount
  rw [List.countP_map, List.countP_eq_length.mpr]
  intro e _
  rfl

/-- The selections for one entry are the residues of its positions. -/
theorem selectionsOf_expected (nexthops : Entry → List Face) (e : Entry) :
    ∀ (schedule : List Entry) (k : ℕ), (∀ e ∈ schedule, toInt (nexthops e).length ≠ 0) →
      selectionsOf e schedule (expected k (schedule.map fun e => Arrival.fresh (nexthops e))) =
        (schedule.findIdxs (· = e) k).map (· % period (nexthops e).length)
  | [], _, _ => rfl
  | e' :: schedule, k, h0 => by
    have ih := selectionsOf_expected nexthops e schedule (k + 1) fun c hc =>
      h0 c (List.mem_cons_of_mem _ hc)
    have hlt := mod_period_lt (h0 e' List.mem_cons_self) k
    unfold selectionsOf selections at *
    by_cases he : e' = e
    · subst he
      simp [expected, Arrival.fresh, hlt, replyAt, List.findIdxs_cons]
      simpa [Arrival.fresh] using ih
    · simp [expected, Arrival.fresh, hlt, he, List.findIdxs_cons]
      simpa [Arrival.fresh] using ih

theorem spread_positions (e : Entry) (schedule : List Entry) (n m : ℕ) :
    Spread n ((positions e schedule).map (· % m)) ↔
      ∀ i j p q, i < j → j < i + n → (positions e schedule)[i]? = some p →
        (positions e schedule)[j]? = some q → ¬ (m : ℤ) ∣ (q : ℤ) - p := by
  constructor
  · intro h i j p q hij hjn hp hq hdvd
    have hj : j < (positions e schedule).length := (List.getElem?_eq_some_iff.mp hq).1
    apply h i j hij hjn (by rwa [List.length_map])
    rw [List.getElem?_map, List.getElem?_map, hp, hq]
    exact congrArg some ((Nat.modEq_iff_dvd (a := p) (b := q)).mpr hdvd)
  · intro h i j hij hjn hj heq
    rw [List.length_map] at hj
    have hi : i < (positions e schedule).length := by omega
    refine h i j _ _ hij hjn (List.getElem?_eq_getElem hi) (List.getElem?_eq_getElem hj) ?_
    rw [List.getElem?_map, List.getElem?_map, List.getElem?_eq_getElem hi,
      List.getElem?_eq_getElem hj] at heq
    exact (Nat.modEq_iff_dvd (n := m)).mp (Option.some.inj heq)

/-- **Fairness for each destination is a property of the schedule.** -/
theorem fair_iff_spaced (nexthops : Entry → List Face) (schedule : List Entry)
    (hlen : schedule.length < 2 ^ 31) : Fair nexthops schedule ↔ Spaced nexthops schedule := by
  have hrun : (∀ e ∈ schedule, toInt (nexthops e).length ≠ 0) →
      serveSchedule nexthops schedule =
        .ok (expected 0 (schedule.map fun e => Arrival.fresh (nexthops e))) := by
    intro h0
    refine serve_eq_expected _ 0 (by rw [newCount_map_fresh]; omega) fun a ha _ => ?_
    obtain ⟨e, he, rfl⟩ := List.mem_map.mp ha
    exact h0 e he
  have hbal : (∀ e ∈ schedule, toInt (nexthops e).length ≠ 0) → ∀ e,
      (Balanced (Finset.range (nexthops e).length) (selectionsOf e schedule
          (expected 0 (schedule.map fun e => Arrival.fresh (nexthops e)))) ↔
        ∀ i j p q, i < j → j < i + (nexthops e).length →
          (positions e schedule)[i]? = some p → (positions e schedule)[j]? = some q →
          ¬ toInt (nexthops e).length ∣ (q : ℤ) - p) := by
    intro h0 e
    have hmem : ∀ x ∈ (positions e schedule).map (· % period (nexthops e).length),
        x ∈ Finset.range (nexthops e).length := by
      intro x hx
      obtain ⟨p, hp, rfl⟩ := List.mem_map.mp hx
      obtain ⟨hlt, he⟩ := List.mem_findIdxs_iff_exists_getElem_pos.mp hp
      have he' : schedule[p] = e := by simpa using he
      exact Finset.mem_range.mpr (mod_period_lt (he' ▸ h0 _ (List.getElem_mem hlt)) p)
    rw [selectionsOf_expected nexthops e schedule 0 h0]
    change Lib.Rotation.Balanced _ ((positions e schedule).map _) ↔ _
    rw [balanced_iff_spread hmem, Finset.card_range, spread_positions]
    simp only [period, Int.natAbs_dvd]
  constructor
  · rintro ⟨calls, hcalls, hfair⟩
    have h0 : ∀ e ∈ schedule, toInt (nexthops e).length ≠ 0 := fun e he =>
      serve_ok_nonzero hcalls (Arrival.fresh (nexthops e)) (List.mem_map.mpr ⟨e, he, rfl⟩) rfl
    rw [hrun h0, Except.ok.injEq] at hcalls
    subst hcalls
    exact ⟨h0, fun e => (hbal h0 e).mp (hfair e)⟩
  · rintro ⟨h0, hspace⟩
    exact ⟨_, hrun h0, fun e => (hbal h0 e).mpr (hspace e)⟩

/-- Two destinations of two nexthops, the turns exchanged: both are served fairly. -/
theorem fair_iff_spaced_exchanged : Fair (fun _ : Bool => [10, 20]) [true, false, false, true] ∧
    Spaced (fun _ : Bool => [10, 20]) [true, false, false, true] := by
  have hspaced : Spaced (fun _ : Bool => [10, 20]) [true, false, false, true] := by
    refine ⟨by decide, fun e i j p q hij hj hp hq => ?_⟩
    have hj' : j < i + 2 := hj
    -- the positions of one are 0 and 3, of the other 1 and 2
    have htwo : ∀ e, (positions e [true, false, false, true]).length = 2 := by decide
    obtain ⟨hlt, -⟩ := List.getElem?_eq_some_iff.mp hq
    rw [htwo] at hlt
    obtain rfl : i = 0 := by omega
    obtain rfl : j = 1 := by omega
    cases e with
    | false =>
      obtain rfl : 1 = p := Option.some.inj hp
      obtain rfl : 2 = q := Option.some.inj hq
      decide
    | true =>
      obtain rfl : 0 = p := Option.some.inj hp
      obtain rfl : 3 = q := Option.some.inj hq
      decide
  exact ⟨(fair_iff_spaced _ _ (by decide)).mpr hspaced, hspaced⟩

/-- Two destinations of two nexthops, served in turn: each always gets the
same nexthop. -/
theorem unfair_alternation :
    ¬ Fair (fun _ : Bool => [10, 20]) [true, false, true, false] := by
  rintro ⟨calls, hcalls, hfair⟩
  have hrun : serveSchedule (fun _ : Bool => [10, 20]) [true, false, true, false] =
      .ok [⟨0, 1, ⟨some 0, [.sendInterest 10]⟩⟩, ⟨1, 2, ⟨some 1, [.sendInterest 20]⟩⟩,
        ⟨2, 3, ⟨some 0, [.sendInterest 10]⟩⟩, ⟨3, 4, ⟨some 1, [.sendInterest 20]⟩⟩] := by
    decide
  rw [hrun, Except.ok.injEq] at hcalls
  subst hcalls
  have := hfair true 0 2 (by decide) 0 (by decide)
  revert this
  decide

end RoundRobin
end IcnDemo
