/-
# The round-robin strategy, one Interest at a time

`RoundRobinStrategyBase::afterReceiveInterest` as the code runs it, with what
NFD tells it during the call as the call's argument (`Arrival`): the pending
out-records of the PIT entry, the nexthops of the FIB entry, and the outcomes
of `wouldViolateScope` and `canForwardToLegacy` on each face.

A run of fewer than `2 ^ 31` new Interests does what `expected` says
(`serve_eq_expected`): a new Interest that finds `iter` at `k` selects the
nexthop at `k % period n`, `period n` the absolute value of the `int` that the
number `n` of nexthops casts to, and moves `iter` to `k + 1`; an Interest with
pending out-records does nothing.
-/
import IcnDemo.Cxx

namespace IcnDemo
namespace RoundRobin

open Lib.Loop

variable {Face : Type}

/-- An Interest, as one call of `afterReceiveInterest` sees it. -/
structure Arrival (Face : Type) where
  /-- `hasPendingOutRecords(*pitEntry)` -/
  hasPendingOutRecords : Bool
  /-- `lookupFib(*pitEntry).getNextHops()` -/
  nexthops : List Face
  /-- `wouldViolateScope(inFace, interest, outFace)` -/
  wouldViolateScope : Face → Bool
  /-- `canForwardToLegacy(*pitEntry, outFace)` -/
  canForwardToLegacy : Face → Bool

/-- What the strategy asks the forwarder to do. -/
inductive Action (Face : Type)
  | sendInterest (outFace : Face)
  | rejectPendingInterest
deriving DecidableEq, Repr

/-- One call: the index of `it` when it is dereferenced, if it is, and the
actions in order. -/
structure Reply (Face : Type) where
  selected : Option ℕ
  actions : List (Action Face)
deriving DecidableEq, Repr

/-- `++it`. -/
def advance (nexthops : List Face) (it : ℕ) : Except Fault ℕ :=
  if it < nexthops.length then .ok (it + 1) else .error .undefined

/-- `RoundRobinStrategyBase::afterReceiveInterest`, with the member `iter`. -/
def afterReceiveInterest (iter : ℤ) (a : Arrival Face) : Except Fault (ℤ × Reply Face) :=
  if a.hasPendingOutRecords then
    .ok (iter, ⟨none, []⟩)
  else do
    let hopNo := toInt a.nexthops.length
    let begin_ := 0
    let (it, iter) ←
      if begin_ ≤ a.nexthops.length then do
        let bound ← intMod iter hopNo
        let it ← forUpTo bound.toNat (fun _ it => advance a.nexthops it) begin_
        .ok (it, toInt (iter + 1))
      else
        .ok (begin_, iter)
    let outFace ← rawGet a.nexthops it
    if !a.wouldViolateScope outFace && a.canForwardToLegacy outFace then
      .ok (iter, ⟨some it, [.sendInterest outFace]⟩)
    else
      .ok (iter, ⟨some it, [.rejectPendingInterest]⟩)

/-- A call in a run: `iter` before and after it, and what it did. -/
structure Call (Face : Type) where
  before : ℤ
  after : ℤ
  reply : Reply Face
deriving DecidableEq, Repr

/-- A run of the strategy: its calls, in order. -/
def serve (iter : ℤ) : List (Arrival Face) → Except Fault (List (Call Face))
  | [] => .ok []
  | a :: as => do
    let r ← afterReceiveInterest iter a
    let calls ← serve r.1 as
    .ok (⟨iter, r.1, r.2⟩ :: calls)

/-- A new Interest: the strategy has not forwarded it yet. -/
def Arrival.isNew (a : Arrival Face) : Bool := !a.hasPendingOutRecords

/-- The face may be used for this Interest. -/
def Arrival.eligible (a : Arrival Face) (f : Face) : Bool :=
  !a.wouldViolateScope f && a.canForwardToLegacy f

/-! ### One call -/

/-- The modulus the code uses for `n` nexthops. -/
def period (n : ℕ) : ℕ := (toInt n).natAbs

theorem period_le (n : ℕ) : period n ≤ n := by
  obtain ⟨q, hq⟩ := toInt_eq n
  have := toInt_bounds n
  unfold period
  omega

/-- Up to `2 ^ 31` nexthops the modulus is their number. -/
theorem period_eq {n : ℕ} (h : n ≤ 2 ^ 31) : period n = n := by
  obtain ⟨q, hq⟩ := toInt_eq n
  have := toInt_bounds n
  unfold period
  omega

theorem mod_period_lt {n : ℕ} (h : toInt n ≠ 0) (k : ℕ) : k % period n < n :=
  lt_of_lt_of_le (Nat.mod_lt k (Int.natAbs_pos.mpr h)) (period_le n)

theorem advance_loop (nexthops : List Face) {i : ℕ} (h : i ≤ nexthops.length) :
    forUpTo i (fun _ it => advance nexthops it) 0 = .ok i :=
  forUpTo_trajectory (fun k => k) fun k hk => by
    unfold advance
    rw [if_pos (by omega)]

/-- What a call that selects the nexthop at `i` does. -/
def replyAt (a : Arrival Face) (i : ℕ) (f : Face) : Reply Face :=
  ⟨some i, [if a.eligible f then .sendInterest f else .rejectPendingInterest]⟩

theorem afterReceiveInterest_pending (iter : ℤ) {a : Arrival Face}
    (h : a.hasPendingOutRecords = true) :
    afterReceiveInterest iter a = .ok (iter, ⟨none, []⟩) := by
  unfold afterReceiveInterest
  rw [if_pos h]

/-- After `k` new Interests the remainder by the number `n` of nexthops is defined. -/
def Divides (k n : ℕ) : Prop := toInt n ≠ 0 ∧ ¬ (toInt k = -2 ^ 31 ∧ toInt n = -1)

/-- Where `it` ends after `k` new Interests, with `n` nexthops. A negative `iter`
has a negative remainder, and `it` stays at the first. -/
def hopIndex (k n : ℕ) : ℕ := ((toInt k).tmod (toInt n)).toNat

theorem hopIndex_lt {n : ℕ} (h : toInt n ≠ 0) (k : ℕ) : hopIndex k n < n := by
  have habs := Int.natAbs_tmod (toInt k) (toInt n)
  have hlt := Nat.mod_lt (toInt k).natAbs (Int.natAbs_pos.mpr h)
  have hle := period_le n
  unfold hopIndex
  unfold period at hle
  omega

/-- Until it wraps around, the counter is the number of new Interests. -/
theorem hopIndex_of_lt {k : ℕ} (hk : k < 2 ^ 31) (n : ℕ) : hopIndex k n = k % period n := by
  have hnonneg := Int.tmod_nonneg (toInt n) (Int.natCast_nonneg k)
  have habs := Int.natAbs_tmod (k : ℤ) (toInt n)
  rw [Int.natAbs_natCast] at habs
  unfold hopIndex period
  rw [toInt_natCast hk]
  omega

/-- **What a new Interest does** after `k` others. -/
theorem afterReceiveInterest_at {k : ℕ} {a : Arrival Face} (h : a.hasPendingOutRecords = false)
    (hd : Divides k a.nexthops.length) {f : Face}
    (hf : a.nexthops[hopIndex k a.nexthops.length]? = some f) :
    afterReceiveInterest (toInt k) a =
      .ok (toInt (k + 1 : ℕ), replyAt a (hopIndex k a.nexthops.length) f) := by
  obtain ⟨hlt, rfl⟩ := List.getElem?_eq_some_iff.mp hf
  unfold afterReceiveInterest replyAt Arrival.eligible
  rw [h, if_neg Bool.false_ne_true]
  dsimp only
  have hindex : ((toInt k).tmod (toInt a.nexthops.length)).toNat =
      hopIndex k a.nexthops.length := rfl
  rw [if_pos (Nat.zero_le _), intMod_of_defined hd.1 hd.2, ok_bind, hindex,
    advance_loop a.nexthops hlt.le, ok_bind, ok_bind]
  dsimp only
  rw [rawGet_of_lt hlt, ok_bind, toInt_succ]
  split <;> rfl

/-- Where the remainder is not defined, neither is the call. -/
theorem afterReceiveInterest_undivided {k : ℕ} {a : Arrival Face}
    (h : a.hasPendingOutRecords = false) (hd : ¬ Divides k a.nexthops.length) :
    afterReceiveInterest (toInt k) a = .error .undefined := by
  have hbad : toInt a.nexthops.length = 0 ∨
      (toInt k = -2 ^ 31 ∧ toInt a.nexthops.length = -1) := by
    by_cases h0 : toInt a.nexthops.length = 0
    · exact Or.inl h0
    · refine Or.inr ?_
      by_contra hover
      exact hd ⟨h0, hover⟩
  unfold afterReceiveInterest intMod
  rw [h, if_neg Bool.false_ne_true]
  dsimp only
  rw [if_pos (Nat.zero_le _), if_pos hbad]
  rfl

/-- A new Interest that finds `iter` at `k` selects the nexthop at
`k % period n`. -/
theorem afterReceiveInterest_new {k : ℕ} {a : Arrival Face} (h : a.hasPendingOutRecords = false)
    (hk : k + 1 < 2 ^ 31) (h0 : toInt a.nexthops.length ≠ 0) {f : Face}
    (hf : a.nexthops[k % period a.nexthops.length]? = some f) :
    afterReceiveInterest (k : ℤ) a =
      .ok ((k + 1 : ℕ), replyAt a (k % period a.nexthops.length) f) := by
  have hnow : toInt k = k := toInt_natCast (by omega)
  have hdiv : Divides k a.nexthops.length := ⟨h0, fun hbad => by omega⟩
  have hindex := hopIndex_of_lt (show k < 2 ^ 31 by omega) a.nexthops.length
  have hcall := afterReceiveInterest_at h hdiv (by rw [hindex]; exact hf)
  rwa [hindex, hnow, toInt_natCast hk] at hcall

/-- With a number of nexthops that casts to 0, a new Interest divides by zero. -/
theorem afterReceiveInterest_zero (iter : ℤ) {a : Arrival Face} (h : a.hasPendingOutRecords = false)
    (h0 : toInt a.nexthops.length = 0) : afterReceiveInterest iter a = .error .undefined := by
  simp [afterReceiveInterest, h, h0, intMod]

/-! ### A run -/

/-- The calls of a run that starts with `iter` at `k`. -/
def expected : ℕ → List (Arrival Face) → List (Call Face)
  | _, [] => []
  | k, a :: as =>
    if a.hasPendingOutRecords then
      ⟨k, k, ⟨none, []⟩⟩ :: expected k as
    else
      match a.nexthops[k % period a.nexthops.length]? with
      | some f => ⟨k, (k + 1 : ℕ), replyAt a (k % period a.nexthops.length) f⟩ :: expected (k + 1) as
      | none => []

/-- The number of new Interests. -/
def newCount (as : List (Arrival Face)) : ℕ := as.countP Arrival.isNew

theorem newCount_cons (a : Arrival Face) (as : List (Arrival Face)) :
    newCount (a :: as) = newCount as + if a.isNew then 1 else 0 := by
  simp [newCount, List.countP_cons]

/-- **What a run does.** -/
theorem serve_eq_expected : ∀ (as : List (Arrival Face)) (k : ℕ), k + newCount as < 2 ^ 31 →
    (∀ a ∈ as, a.isNew = true → toInt a.nexthops.length ≠ 0) →
    serve (k : ℤ) as = .ok (expected k as)
  | [], _, _, _ => rfl
  | a :: as, k, hk, h0 => by
    have hrest : ∀ b ∈ as, b.isNew = true → toInt b.nexthops.length ≠ 0 := fun b hb =>
      h0 b (List.mem_cons_of_mem _ hb)
    rw [newCount_cons] at hk
    cases hp : a.hasPendingOutRecords with
    | true =>
      rw [serve, afterReceiveInterest_pending _ hp, ok_bind,
        serve_eq_expected as k (by omega) hrest, ok_bind, expected, if_pos hp]
    | false =>
      have hnew : a.isNew = true := by rw [Arrival.isNew, hp]; rfl
      have hzero := h0 a List.mem_cons_self hnew
      rw [if_pos hnew] at hk
      have hf := List.getElem?_eq_getElem (mod_period_lt hzero k)
      rw [serve, afterReceiveInterest_new hp (by omega) hzero hf, ok_bind,
        serve_eq_expected as (k + 1) (by omega) hrest, ok_bind, expected, hf]
      simp only [hp, Bool.false_eq_true, ↓reduceIte]

/-- A run that ends has divided by no zero. -/
theorem serve_ok_nonzero : ∀ {as : List (Arrival Face)} {iter : ℤ} {calls : List (Call Face)},
    serve iter as = .ok calls → ∀ a ∈ as, a.isNew = true → toInt a.nexthops.length ≠ 0
  | [], _, _, _, a, ha, _ => by cases ha
  | _ :: as, iter, calls, h, a, ha, hnew => by
    unfold serve at h
    obtain ⟨r, hb, h⟩ := bind_eq_ok h
    obtain ⟨calls', hcalls, -⟩ := bind_eq_ok h
    rcases List.mem_cons.mp ha with rfl | ha
    · intro hzero
      have hp : a.hasPendingOutRecords = false := by simpa [Arrival.isNew] using hnew
      rw [afterReceiveInterest_zero iter hp hzero] at hb
      cases hb
    · exact serve_ok_nonzero hcalls a ha hnew

end RoundRobin
end IcnDemo
