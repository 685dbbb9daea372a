/-
# The scheduler

`util::Scheduler` keeps its events in a queue by the time they expire and one timer for
the first of them. A wait that is over is a handler of the `io_service`, which executes
the events that have expired; their callbacks may schedule and cancel events while it
goes on, and throw. The clock goes on between any two readings of it.

Times are `int64`s of nanoseconds, and so are their sums and differences: one that
overflows ends the run (`Stop.overflow`). Until then, in any run an event is in the
queue, or has been executed or cancelled, once, and is never executed early
(`events_conserved`); events are executed in the order of their times
(`executed_in_order`); and where something is in the queue a wait is under way that ends
when the first event has expired (`armed_of_run`). An execution ends if its callbacks
schedule events with a delay (`executeEvent_ends`).
-/
import IcnDemo.Lib.Runs
import Mathlib.Algebra.Group.Int.Defs
import Mathlib.Data.List.Sort
import Mathlib.Data.List.Perm.Basic

namespace IcnDemo
namespace Ndn
namespace Scheduler

open Lib.Runs Lib.Loop

/-- `EventInfo`; the number stands for its address. Times are in nanoseconds. -/
structure EventInfo where
  id : ℕ
  expireTime : ℤ
deriving DecidableEq

/-- What a program calls of the scheduler. -/
inductive Call
  | scheduleEvent (after : ℤ)
  | cancelEvent (id : ℕ)
  | cancelAllEvents

/-- The callbacks of the events. Each goes on from the program's state, calls the
scheduler, and may then throw. -/
abbrev Program (App ε : Type) := App → ℕ → App × List Call × Option ε

structure State (App : Type) where
  queue : List EventInfo
  isEventExecuting : Bool
  /-- When the wait for `m_deadlineTimer` is over. -/
  timer : Option ℤ
  /-- The waits that are over and whose handlers have not run. -/
  ready : ℕ
  app : App
  /-- How many events have been scheduled. -/
  scheduled : ℕ
  /-- The last reading of the clock, and how many there were. -/
  clock : ℤ
  readings : ℕ
deriving DecidableEq

inductive Output (ε : Type)
  | scheduled (info : EventInfo)
  | cancelled (info : EventInfo)
  /-- The callback is called, by an execution that has read this time. -/
  | executed (info : EventInfo) (now : ℤ)
  /-- The exception of a callback, which goes to who runs the `io_service`. -/
  | threw (e : ε)
deriving DecidableEq

inductive Event
  /-- The program calls the scheduler, from no callback. -/
  | call (call : Call)
  /-- The wait is over. -/
  | expire
  /-- The handler of a wait that is over. -/
  | executeEvent

/-- Why an event leads to no state. -/
inductive Stop
  /-- The execution has not ended after so many turns. -/
  | turns
  /-- There is no such wait or handler. -/
  | undelivered
  /-- A sum or a difference of times overflows. -/
  | overflow
deriving DecidableEq

/-- A time, or the time between two, as the `int64` it is kept in. -/
def nanoseconds (v : ℤ) : Except Stop ℤ :=
  if -2 ^ 63 ≤ v ∧ v < 2 ^ 63 then .ok v else .error .overflow

theorem nanoseconds_ok {v w : ℤ} (h : nanoseconds v = .ok w) : w = v := by
  unfold nanoseconds at h
  split at h
  · exact (Except.ok.inj h).symm
  · cases h

variable {App ε : Type} (passes : ℕ → ℕ)

namespace State

/-- `steady_clock::now()`: `passes n` is what passes before the reading `n`. -/
def readClock (s : State App) : Except Stop (State App) := do
  let clock ← nanoseconds (s.clock + passes s.readings)
  .ok { s with clock := clock, readings := s.readings + 1 }

/-- `m_deadlineTimer.expires_from_now((*m_queue.begin())->expiresFromNow())` and the wait
for it. -/
def scheduleNext (s : State App) : Except Stop (State App) :=
  match s.queue with
  | [] => .ok s
  | info :: _ => do
    let s ← s.readClock passes
    let left ← nanoseconds (info.expireTime - s.clock)
    let expiresFromNow := max left 0
    -- the timer reads the clock again, and adds
    let s ← s.readClock passes
    let expiry ← nanoseconds (s.clock + expiresFromNow)
    .ok { s with timer := some expiry }

end State

open State

/-- One call of the scheduler. -/
def perform (s : State App) : Call → Except Stop (State App × List (Output ε))
  | .scheduleEvent after => do
    let s ← s.readClock passes
    let expireTime ← nanoseconds (s.clock + after)
    let info : EventInfo := ⟨s.scheduled, expireTime⟩
    let s := { s with
      -- a `std::multiset` inserts behind its equals
      queue := s.queue.orderedInsert (fun a b => a.expireTime < b.expireTime) info
      scheduled := s.scheduled + 1 }
    let s ← (if !s.isEventExecuting && s.queue.head? = some info then s.scheduleNext passes
      else .ok s)
    .ok (s, [.scheduled info])
  | .cancelEvent id =>
    match s.queue.find? fun info => info.id = id with
    -- expired or cancelled
    | none => .ok (s, [])
    | some info => do
      let s := { s with
        timer := if s.queue.head? = some info then none else s.timer
        queue := s.queue.erase info }
      let s ← (if !s.isEventExecuting then s.scheduleNext passes else .ok s)
      .ok (s, [.cancelled info])
  | .cancelAllEvents => .ok ({ s with queue := [], timer := none }, s.queue.map .cancelled)

/-- The longest delay there is overflows. -/
example : (perform (fun _ => 1) ⟨[], false, none, 0, (), 0, 0, 0⟩ (.scheduleEvent (2 ^ 63 - 1)) :
    Except Stop (State Unit × List (Output Empty))) = .error .overflow := by decide

/-- The calls of a callback, in order. -/
def performAll : State App → List Call → Except Stop (State App × List (Output ε))
  | s, [] => .ok (s, [])
  | s, call :: calls => do
    let r ← perform passes s call
    let r' ← performAll r.1 calls
    .ok (r'.1, r.2 ++ r'.2)

/-- The loop of `executeEvent`, in at most so many turns. -/
def executeLoop (program : Program App ε) (now : ℤ) :
    ℕ → State App → Except Stop (State App × List (Output ε))
  | 0, _ => .error .turns
  | turns + 1, s =>
    match s.queue with
    | [] => .ok (s, [])
    | info :: queue =>
      if info.expireTime > now then .ok (s, [])
      else do
        let (app, calls, thrown) := program s.app info.id
        let r ← performAll passes { s with queue := queue, app := app } calls
        match thrown with
        | some e => .ok (r.1, .executed info now :: r.2 ++ [.threw e])
        | none => do
          let r' ← executeLoop program now turns r.1
          .ok (r'.1, .executed info now :: r.2 ++ r'.2)

/-- One event. An execution takes at most so many turns; it ends with the scope, also if a
callback has thrown. -/
def step (program : Program App ε) (turns : ℕ) (s : State App) :
    Event → Except Stop (State App × List (Output ε))
  | .call call => perform passes s call
  | .expire =>
    match s.timer with
    | none => .error .undelivered
    | some expiry => do
      let s ← s.readClock passes
      if expiry ≤ s.clock then .ok ({ s with timer := none, ready := s.ready + 1 }, [])
      else .error .undelivered
  | .executeEvent =>
    if s.ready = 0 then .error .undelivered
    else do
      let s ← State.readClock passes { s with ready := s.ready - 1, isEventExecuting := true }
      let r ← executeLoop passes program s.clock turns s
      let s ← State.scheduleNext passes { r.1 with isEventExecuting := false }
      .ok (s, r.2)

def start (app : App) (clock : ℤ) : State App := ⟨[], false, none, 0, app, 0, clock, 0⟩

/-! ### What has been scheduled, cancelled and executed -/

def scheduledInfos (out : List (Output ε)) : List EventInfo :=
  out.filterMap fun o => match o with
    | .scheduled info => some info
    | _ => none

def cancelledInfos (out : List (Output ε)) : List EventInfo :=
  out.filterMap fun o => match o with
    | .cancelled info => some info
    | _ => none

def executedInfos (out : List (Output ε)) : List EventInfo :=
  out.filterMap fun o => match o with
    | .executed info _ => some info
    | _ => none

/-- An event expires before another, or at its time and was scheduled before it. -/
def Before (a b : EventInfo) : Prop :=
  a.expireTime < b.expireTime ∨ a.expireTime = b.expireTime ∧ a.id < b.id

theorem scheduledInfos_append (out out' : List (Output ε)) :
    scheduledInfos (out ++ out') = scheduledInfos out ++ scheduledInfos out' :=
  List.filterMap_append

theorem cancelledInfos_append (out out' : List (Output ε)) :
    cancelledInfos (out ++ out') = cancelledInfos out ++ cancelledInfos out' :=
  List.filterMap_append

theorem executedInfos_append (out out' : List (Output ε)) :
    executedInfos (out ++ out') = executedInfos out ++ executedInfos out' :=
  List.filterMap_append

/-- All the events of the queue are cancelled. -/
theorem infos_cancelled (queue : List EventInfo) :
    scheduledInfos (queue.map .cancelled : List (Output ε)) = [] ∧
    cancelledInfos (queue.map .cancelled : List (Output ε)) = queue ∧
    executedInfos (queue.map .cancelled : List (Output ε)) = [] := by
  induction queue with
  | nil => exact ⟨rfl, rfl, rfl⟩
  | cons info queue ih => exact ⟨ih.1, congrArg (info :: ·) ih.2.1, ih.2.2⟩

/-! ### The queue -/

/-- A new event stands behind those that expire with it or before it. -/
theorem pairwise_orderedInsert {queue : List EventInfo} {info : EventInfo}
    (h : queue.Pairwise Before) (hid : ∀ b ∈ queue, b.id < info.id) :
    (queue.orderedInsert (fun a b => a.expireTime < b.expireTime) info).Pairwise Before := by
  induction queue with
  | nil => simp
  | cons head queue ih =>
    obtain ⟨hhead, hqueue⟩ := List.pairwise_cons.mp h
    obtain ⟨hlt, hid⟩ := List.forall_mem_cons.mp hid
    rw [List.orderedInsert_cons]
    by_cases htime : info.expireTime < head.expireTime
    · rw [if_pos htime, List.pairwise_cons]
      refine ⟨fun b hb => ?_, h⟩
      rcases List.mem_cons.mp hb with rfl | hb
      · exact .inl htime
      · rcases hhead b hb with hbefore | ⟨heq, -⟩
        · exact .inl (by omega)
        · exact .inl (by omega)
    · rw [if_neg htime, List.pairwise_cons]
      refine ⟨fun b hb => ?_, ih hqueue hid⟩
      rcases List.mem_orderedInsert _ |>.mp hb with rfl | hb
      · rcases Int.lt_or_eq_of_le (Int.not_lt.mp htime) with hbefore | heq
        · exact .inl hbefore
        · exact .inr ⟨heq, hlt⟩
      · exact hhead b hb

theorem head_orderedInsert (queue : List EventInfo) (info : EventInfo) :
    (queue.orderedInsert (fun a b => a.expireTime < b.expireTime) info).head? = some info ∨
    (queue.orderedInsert (fun a b => a.expireTime < b.expireTime) info).head? = queue.head? := by
  cases queue with
  | nil => exact .inl rfl
  | cons head queue =>
    rw [List.orderedInsert_cons]
    split
    · exact .inl rfl
    · exact .inr rfl

/-! ### What every call and every event keeps -/

/-- Every event that has been scheduled is in the queue, or was cancelled or executed,
once; the queue is in the order of the times; and no event was executed early. -/
structure Inv (s : State App) (out : List (Output ε)) : Prop where
  sorted : s.queue.Pairwise Before
  perm : (s.queue ++ (cancelledInfos out ++ executedInfos out)).Perm (scheduledInfos out)
  ids : (scheduledInfos out).map EventInfo.id = List.range s.scheduled
  timely : ∀ info now, .executed info now ∈ out → info.expireTime ≤ now ∧ now ≤ s.clock

variable {passes} {s s' : State App} {out new : List (Output ε)}

theorem Inv.fresh (hI : Inv s out) {info : EventInfo}
    (hinfo : info ∈ s.queue ++ (cancelledInfos out ++ executedInfos out)) :
    info.id < s.scheduled := by
  have hmem := List.mem_map_of_mem (f := EventInfo.id) (hI.perm.mem_iff.mp hinfo)
  rwa [hI.ids, List.mem_range] at hmem

/-- The clock and the timer go on. -/
theorem Inv.later (hI : Inv s out) (hqueue : s'.queue = s.queue)
    (hscheduled : s'.scheduled = s.scheduled) (hclock : s.clock ≤ s'.clock) : Inv s' out where
  sorted := by rw [hqueue]; exact hI.sorted
  perm := by rw [hqueue]; exact hI.perm
  ids := by rw [hscheduled]; exact hI.ids
  timely info now hmem := by
    obtain ⟨hdue, hnow⟩ := hI.timely info now hmem
    exact ⟨hdue, hnow.trans hclock⟩

/-- What a call leaves, but for the clock, which goes on. -/
structure Frame (s s' : State App) : Prop where
  clock : s.clock ≤ s'.clock
  isEventExecuting : s'.isEventExecuting = s.isEventExecuting
  ready : s'.ready = s.ready

theorem Frame.trans {s s' s'' : State App} (h : Frame s s') (h' : Frame s' s'') : Frame s s'' :=
  ⟨h.clock.trans h'.clock, h'.isEventExecuting.trans h.isEventExecuting, h'.ready.trans h.ready⟩

/-- A reading of the clock changes nothing but the clock. -/
theorem readClock_ok (h : s.readClock passes = .ok s') :
    s.clock ≤ s'.clock ∧ s' = { s with clock := s'.clock, readings := s'.readings } := by
  obtain ⟨clock, hclock, h⟩ := bind_eq_ok h
  obtain rfl := nanoseconds_ok hclock
  obtain rfl := Except.ok.inj h
  exact ⟨by dsimp only; omega, rfl⟩

/-- The wait for the first event is not over before its time. -/
def Awaits (s : State App) : Prop :=
  ∀ head, s.queue.head? = some head → ∃ expiry, s.timer = some expiry ∧ head.expireTime ≤ expiry

theorem scheduleNext_spec (h : s.scheduleNext passes = .ok s') :
    s'.queue = s.queue ∧ s'.scheduled = s.scheduled ∧ Frame s s' ∧ Awaits s' := by
  unfold scheduleNext at h
  cases hqueue : s.queue with
  | nil =>
    simp only [hqueue] at h
    obtain rfl := Except.ok.inj h
    refine ⟨hqueue, rfl, ⟨le_refl _, rfl, rfl⟩, fun head hhead => ?_⟩
    rw [hqueue] at hhead
    cases hhead
  | cons info queue =>
    simp only [hqueue] at h
    obtain ⟨s1, hread, h⟩ := bind_eq_ok h
    obtain ⟨left, hleft, h⟩ := bind_eq_ok h
    obtain ⟨s2, hread', h⟩ := bind_eq_ok h
    obtain ⟨expiry, hexpiry, h⟩ := bind_eq_ok h
    obtain ⟨hclock, hs1⟩ := readClock_ok hread
    obtain ⟨hclock', hs2⟩ := readClock_ok hread'
    obtain rfl := nanoseconds_ok hleft
    obtain rfl := nanoseconds_ok hexpiry
    obtain rfl := Except.ok.inj h
    rw [hs2, hs1]
    refine ⟨hqueue, rfl, ⟨hclock.trans hclock', rfl, rfl⟩, fun head hhead => ⟨_, rfl, ?_⟩⟩
    dsimp only at hhead ⊢
    rw [hqueue] at hhead
    obtain rfl := Option.some.inj hhead
    omega

/-- What a call of the scheduler does to the events: it puts one in the queue, or cuts
some out of it. -/
structure Performed (s : State App) (call : Call) (s' : State App) (new : List (Output ε)) :
    Prop where
  frame : Frame s s'
  change :
    (∃ after info, call = .scheduleEvent after ∧ info.id = s.scheduled ∧
      s.clock + after ≤ info.expireTime ∧ new = [.scheduled info] ∧
      s'.queue = s.queue.orderedInsert (fun a b => a.expireTime < b.expireTime) info ∧
      s'.scheduled = s.scheduled + 1) ∨
    ∃ cut, new = cut.map .cancelled ∧ s'.queue.Sublist s.queue ∧
      (s'.queue ++ cut).Perm s.queue ∧ s'.scheduled = s.scheduled
  timer : s.isEventExecuting = false →
    Awaits s' ∨ s'.queue.head? = s.queue.head? ∧ s'.timer = s.timer

/-- **What a call of the scheduler does.** -/
theorem perform_ok {call : Call} (h : perform passes s call = .ok (s', new)) :
    Performed s call s' new := by
  cases call with
  | scheduleEvent after =>
    obtain ⟨s1, hread, h⟩ := bind_eq_ok h
    obtain ⟨expireTime, htime, h⟩ := bind_eq_ok h
    obtain ⟨s2, hnext, h⟩ := bind_eq_ok h
    obtain ⟨rfl, rfl⟩ := Prod.mk.inj (Except.ok.inj h)
    obtain ⟨hclock, hs1⟩ := readClock_ok hread
    obtain rfl := nanoseconds_ok htime
    rw [hs1] at hnext ⊢
    dsimp only at hnext ⊢
    have hafter : s.clock + after ≤ s1.clock + after := by omega
    split at hnext
    · obtain ⟨hqueue, hscheduled, hframe, hawaits⟩ := scheduleNext_spec hnext
      refine ⟨⟨hclock.trans hframe.clock, hframe.isEventExecuting, hframe.ready⟩, ?_,
        fun _ => .inl hawaits⟩
      exact .inl ⟨after, _, rfl, rfl, hafter, rfl, hqueue, hscheduled⟩
    · rename_i hlater
      obtain rfl := Except.ok.inj hnext
      refine ⟨⟨hclock, rfl, rfl⟩, ?_, fun hidle => .inr ⟨?_, rfl⟩⟩
      · exact .inl ⟨after, _, rfl, rfl, hafter, rfl, rfl, rfl⟩
      · refine (head_orderedInsert s.queue _).resolve_left fun hfirst => hlater ?_
        rw [hidle, hfirst]
        simp
  | cancelEvent id =>
    unfold perform at h
    cases hfind : s.queue.find? fun info => info.id = id with
    | none =>
      simp only [hfind] at h
      obtain ⟨rfl, rfl⟩ := Prod.mk.inj (Except.ok.inj h)
      refine ⟨⟨le_refl _, rfl, rfl⟩, .inr ⟨[], rfl, List.Sublist.refl _, ?_, rfl⟩,
        fun _ => .inr ⟨rfl, rfl⟩⟩
      rw [List.append_nil]
    | some info =>
      simp only [hfind] at h
      obtain ⟨s1, hnext, h⟩ := bind_eq_ok h
      obtain ⟨rfl, rfl⟩ := Prod.mk.inj (Except.ok.inj h)
      have hmem := List.mem_of_find?_eq_some hfind
      have hperm : (s.queue.erase info ++ [info]).Perm s.queue :=
        List.perm_append_comm.trans (List.perm_cons_erase hmem).symm
      split at hnext
      · obtain ⟨hqueue, hscheduled, hframe, hawaits⟩ := scheduleNext_spec hnext
        refine ⟨⟨hframe.clock, hframe.isEventExecuting, hframe.ready⟩, .inr ⟨[info], rfl, ?_⟩,
          fun _ => .inl hawaits⟩
        rw [hqueue]
        exact ⟨List.erase_sublist, hperm, hscheduled⟩
      · rename_i hexecuting
        obtain rfl := Except.ok.inj hnext
        refine ⟨⟨le_refl _, rfl, rfl⟩, .inr ⟨[info], rfl, List.erase_sublist, hperm, rfl⟩,
          fun hidle => absurd ?_ hexecuting⟩
        simpa using hidle
  | cancelAllEvents =>
    obtain ⟨rfl, rfl⟩ := Prod.mk.inj (Except.ok.inj h)
    refine ⟨⟨le_refl _, rfl, rfl⟩,
      .inr ⟨s.queue, rfl, List.nil_sublist _, List.Perm.refl _, rfl⟩, fun _ => .inl ?_⟩
    intro head hhead
    cases hhead

/-- A new event has the next number, and is in the queue. -/
theorem Inv.schedule (hI : Inv s out) {info : EventInfo} (hid : info.id = s.scheduled)
    (hqueue : s'.queue = s.queue.orderedInsert (fun a b => a.expireTime < b.expireTime) info)
    (hscheduled : s'.scheduled = s.scheduled + 1) (hclock : s.clock ≤ s'.clock) :
    Inv s' (out ++ [.scheduled info]) := by
  refine ⟨?_, ?_, ?_, fun b now hmem => ?_⟩
  · rw [hqueue]
    refine pairwise_orderedInsert hI.sorted fun b hb => ?_
    rw [hid]
    exact hI.fresh (List.mem_append_left _ hb)
  · rw [cancelledInfos_append, executedInfos_append, scheduledInfos_append, hqueue]
    change (_ ++ ((_ ++ []) ++ (_ ++ []))).Perm (_ ++ [_])
    rw [List.append_nil, List.append_nil]
    refine ((List.perm_orderedInsert _ _ s.queue).append_right _).trans ?_
    exact (hI.perm.cons _).trans (List.perm_append_singleton _ _).symm
  · rw [scheduledInfos_append, List.map_append, hI.ids, hscheduled, List.range_succ, ← hid]
    rfl
  · have hmem : .executed b now ∈ out := by simpa using hmem
    obtain ⟨hdue, hnow⟩ := hI.timely b now hmem
    exact ⟨hdue, hnow.trans hclock⟩

/-- What is cut out of the queue is cancelled. -/
theorem Inv.cancel (hI : Inv s out) {cut : List EventInfo} (hsub : s'.queue.Sublist s.queue)
    (hperm : (s'.queue ++ cut).Perm s.queue) (hscheduled : s'.scheduled = s.scheduled)
    (hclock : s.clock ≤ s'.clock) : Inv s' (out ++ cut.map .cancelled) := by
  obtain ⟨hnone, hcancelled, hexecuted⟩ := infos_cancelled (ε := ε) cut
  refine ⟨hI.sorted.sublist hsub, ?_, ?_, fun info now hmem => ?_⟩
  · rw [cancelledInfos_append, executedInfos_append, scheduledInfos_append, hnone, hcancelled,
      hexecuted, List.append_nil, List.append_nil]
    refine List.Perm.trans ?_ ((hperm.append_right _).trans hI.perm)
    rw [List.append_assoc, List.append_assoc]
    exact (List.perm_append_comm_assoc _ cut _).append_left _
  · rw [scheduledInfos_append, hnone, List.append_nil, hscheduled]
    exact hI.ids
  · rcases List.mem_append.mp hmem with hmem | hmem
    · obtain ⟨hdue, hnow⟩ := hI.timely info now hmem
      exact ⟨hdue, hnow.trans hclock⟩
    · simp at hmem

theorem Inv.perform (hI : Inv s out) {call : Call} (h : Performed s call s' new) :
    Inv s' (out ++ new) := by
  rcases h.change with ⟨after, info, -, hid, -, rfl, hqueue, hscheduled⟩ |
    ⟨cut, rfl, hsub, hperm, hscheduled⟩
  · exact hI.schedule hid hqueue hscheduled h.frame.clock
  · exact hI.cancel hsub hperm hscheduled h.frame.clock

/-- The callbacks make calls of one kind only. -/
def Allows (allowed : Call → Prop) (program : Program App ε) : Prop :=
  ∀ app id, ∀ call ∈ (program app id).2.1, allowed call

/-- What holds of the state and the outputs so far, and goes on to hold. -/
structure Keeps (allowed : Call → Prop) (I : State App → List (Output ε) → Prop) : Prop where
  later : ∀ {s s' out}, I s out → s'.queue = s.queue → s'.scheduled = s.scheduled →
    s.clock ≤ s'.clock → I s' out
  call : ∀ {s s' out new call}, I s out → allowed call → Performed s call s' new →
    I s' (out ++ new)
  execute : ∀ {s out info queue} (now : ℤ), I s out → s.queue = info :: queue →
    info.expireTime ≤ now → now ≤ s.clock →
    I { s with queue := queue } (out ++ [.executed info now])
  threw : ∀ {s out} (e : ε), I s out → I s (out ++ [.threw e])

section

variable {allowed : Call → Prop} {I : State App → List (Output ε) → Prop}
  {program : Program App ε}

theorem Keeps.calls (hk : Keeps allowed I) {calls : List Call}
    (hcalls : ∀ call ∈ calls, allowed call) (hI : I s out)
    (h : performAll passes s calls = .ok (s', new)) : I s' (out ++ new) := by
  induction calls generalizing s out new with
  | nil =>
    obtain ⟨rfl, rfl⟩ := Prod.mk.inj (Except.ok.inj h)
    rwa [List.append_nil]
  | cons call calls ih =>
    obtain ⟨hcall, hcalls⟩ := List.forall_mem_cons.mp hcalls
    obtain ⟨r, hperform, h⟩ := bind_eq_ok h
    obtain ⟨r', hrest, h⟩ := bind_eq_ok h
    obtain ⟨rfl, rfl⟩ := Prod.mk.inj (Except.ok.inj h)
    rw [← List.append_assoc]
    exact ih hcalls (hk.call hI hcall (perform_ok hperform)) hrest

theorem performAll_frame {calls : List Call} (h : performAll passes s calls = .ok (s', new)) :
    Frame s s' := by
  induction calls generalizing s new with
  | nil =>
    obtain ⟨rfl, -⟩ := Prod.mk.inj (Except.ok.inj h)
    exact ⟨le_refl _, rfl, rfl⟩
  | cons call calls ih =>
    obtain ⟨r, hperform, h⟩ := bind_eq_ok h
    obtain ⟨r', hrest, h⟩ := bind_eq_ok h
    obtain ⟨rfl, -⟩ := Prod.mk.inj (Except.ok.inj h)
    exact (perform_ok hperform).frame.trans (ih hrest)

/-- What a turn of the loop does: nothing is left that has expired, or the first event is
executed, and its callback throws or the loop goes on. -/
theorem executeLoop_ok {now : ℤ} {turns : ℕ}
    (h : executeLoop passes program now (turns + 1) s = .ok (s', new)) :
    ((∀ head, s.queue.head? = some head → now < head.expireTime) ∧ s' = s ∧ new = []) ∨
    ∃ info queue r, s.queue = info :: queue ∧ info.expireTime ≤ now ∧
      performAll passes { s with queue := queue, app := (program s.app info.id).1 }
        (program s.app info.id).2.1 = .ok r ∧
      ((∃ e, s' = r.1 ∧ new = .executed info now :: r.2 ++ [.threw e]) ∨
        ∃ rest, executeLoop passes program now turns r.1 = .ok (s', rest) ∧
          new = .executed info now :: r.2 ++ rest) := by
  rw [executeLoop] at h
  cases hqueue : s.queue with
  | nil =>
    simp only [hqueue] at h
    obtain ⟨rfl, rfl⟩ := Prod.mk.inj (Except.ok.inj h)
    exact .inl ⟨fun head hhead => (by cases hhead), rfl, rfl⟩
  | cons info queue =>
    simp only [hqueue] at h
    by_cases hlater : info.expireTime > now
    · rw [if_pos hlater] at h
      obtain ⟨rfl, rfl⟩ := Prod.mk.inj (Except.ok.inj h)
      refine .inl ⟨fun head hhead => ?_, rfl, rfl⟩
      obtain rfl := Option.some.inj hhead
      exact hlater
    · rw [if_neg hlater] at h
      obtain ⟨r, hcalls, h⟩ := bind_eq_ok h
      refine .inr ⟨info, queue, r, rfl, Int.not_lt.mp hlater, hcalls, ?_⟩
      split at h
      · rename_i e _
        obtain ⟨rfl, rfl⟩ := Prod.mk.inj (Except.ok.inj h)
        exact .inl ⟨e, rfl, rfl⟩
      · obtain ⟨r', hloop, h⟩ := bind_eq_ok h
        obtain ⟨rfl, rfl⟩ := Prod.mk.inj (Except.ok.inj h)
        exact .inr ⟨r'.2, hloop, rfl⟩

/-- A turn of the loop takes the first event, or there is none that has expired. -/
theorem executeLoop_keeps (hk : Keeps allowed I) (hallows : Allows allowed program)
    {now : ℤ} : ∀ {turns : ℕ} {s s' : State App} {out new : List (Output ε)}, I s out →
      now ≤ s.clock → executeLoop passes program now turns s = .ok (s', new) → I s' (out ++ new)
  | 0, _, _, _, _, _, _, h => by cases h
  | turns + 1, s, s', out, new, hI, hnow, h => by
    rcases executeLoop_ok h with ⟨-, rfl, rfl⟩ | ⟨info, queue, r, hqueue, hdue, hcalls, hend⟩
    · rwa [List.append_nil]
    · have htaken := hk.execute now hI hqueue hdue hnow
      have happ : I { s with queue := queue, app := (program s.app info.id).1 }
          (out ++ [.executed info now]) := hk.later htaken rfl rfl (le_refl _)
      have hcalled := hk.calls (hallows _ _) happ hcalls
      rcases hend with ⟨e, rfl, rfl⟩ | ⟨rest, hloop, rfl⟩
      · simpa using hk.threw e hcalled
      · have hclock := (performAll_frame hcalls).clock
        simpa using executeLoop_keeps hk hallows hcalled (hnow.trans hclock) hloop

/-- What an execution does: a loop of turns, between two readings of the clock. -/
theorem executeEvent_ok {turns : ℕ}
    (h : step passes program turns s .executeEvent = .ok (s', new)) : ∃ s1 s2,
      State.readClock passes { s with ready := s.ready - 1, isEventExecuting := true } = .ok s1 ∧
      executeLoop passes program s1.clock turns s1 = .ok (s2, new) ∧
      State.scheduleNext passes { s2 with isEventExecuting := false } = .ok s' := by
  unfold step at h
  dsimp only at h
  split at h
  · cases h
  · obtain ⟨s1, hread, h⟩ := bind_eq_ok h
    obtain ⟨r, hloop, h⟩ := bind_eq_ok h
    obtain ⟨s3, hnext, h⟩ := bind_eq_ok h
    obtain ⟨rfl, rfl⟩ := Prod.mk.inj (Except.ok.inj h)
    exact ⟨s1, r.1, hread, hloop, hnext⟩

/-- What the end of a wait does. -/
theorem expire_ok {turns : ℕ} (h : step passes program turns s .expire = .ok (s', new)) :
    ∃ expiry s1, s.timer = some expiry ∧ s.readClock passes = .ok s1 ∧ expiry ≤ s1.clock ∧
      s' = { s1 with timer := none, ready := s1.ready + 1 } ∧ new = [] := by
  unfold step at h
  cases htimer : s.timer with
  | none =>
    simp only [htimer] at h
    cases h
  | some expiry =>
    simp only [htimer] at h
    obtain ⟨s1, hread, h⟩ := bind_eq_ok h
    split at h
    · rename_i hover
      obtain ⟨rfl, rfl⟩ := Prod.mk.inj (Except.ok.inj h)
      exact ⟨expiry, s1, rfl, hread, hover, rfl, rfl⟩
    · cases h

/-- **What calls and executions keep, every event keeps.** -/
theorem step_keeps (hk : Keeps allowed I) (hallows : Allows allowed program) {turns : ℕ}
    {e : Event} (he : ∀ call, e = .call call → allowed call) (hI : I s out)
    (h : step passes program turns s e = .ok (s', new)) : I s' (out ++ new) := by
  cases e with
  | call call => exact hk.call hI (he call rfl) (perform_ok h)
  | expire =>
    obtain ⟨expiry, s1, -, hread, -, rfl, rfl⟩ := expire_ok h
    obtain ⟨hclock, hs1⟩ := readClock_ok hread
    rw [List.append_nil, hs1]
    exact hk.later hI rfl rfl hclock
  | executeEvent =>
    obtain ⟨s1, s2, hread, hloop, hnext⟩ := executeEvent_ok h
    obtain ⟨hclock, hs1⟩ := readClock_ok hread
    have hstart : I s1 out := by
      rw [hs1]
      exact hk.later hI rfl rfl hclock
    have hlooped := executeLoop_keeps hk hallows hstart (le_refl _) hloop
    obtain ⟨hqueue, hscheduled, hframe, -⟩ := scheduleNext_spec hnext
    exact hk.later hlooped hqueue hscheduled hframe.clock

theorem run_keeps (hk : Keeps allowed I) (hallows : Allows allowed program) {turns : ℕ}
    {es : List Event} {s0 : State App} (hI : I s0 [])
    (h : Reaches (step passes program turns) s0 es s out)
    (hes : ∀ call, .call call ∈ es → allowed call) : I s out := by
  induction h with
  | nil => exact hI
  | snoc _ hstep ih =>
    have hold := ih fun call hmem => hes call (List.mem_append_left _ hmem)
    refine step_keeps hk hallows (fun call heq => hes call ?_) hold hstep
    rw [heq]
    simp

end

/-! ### Runs -/

variable {program : Program App ε} {turns : ℕ} {app : App} {clock : ℤ} {es : List Event}

theorem Inv.execute (hI : Inv s out) {info : EventInfo} {queue : List EventInfo} {now : ℤ}
    (hqueue : s.queue = info :: queue) (hdue : info.expireTime ≤ now) (hnow : now ≤ s.clock) :
    Inv { s with queue := queue } (out ++ [.executed info now]) := by
  have hperm := hI.perm
  have hsorted := hI.sorted
  rw [hqueue] at hperm hsorted
  refine ⟨(List.pairwise_cons.mp hsorted).2, ?_, ?_, fun b t hmem => ?_⟩
  · rw [cancelledInfos_append, executedInfos_append, scheduledInfos_append]
    change (queue ++ ((_ ++ []) ++ (_ ++ [info]))).Perm (_ ++ [])
    rw [List.append_nil, List.append_nil, ← List.append_assoc, ← List.append_assoc]
    refine (List.perm_append_singleton info _).trans ?_
    rwa [List.append_assoc]
  · rw [scheduledInfos_append, List.map_append, hI.ids]
    exact List.append_nil _
  · rcases List.mem_append.mp hmem with hmem | hmem
    · exact hI.timely b t hmem
    · obtain ⟨rfl, rfl⟩ := Output.executed.inj (List.mem_singleton.mp hmem)
      exact ⟨hdue, hnow⟩

theorem Inv.threw (hI : Inv s out) (e : ε) : Inv s (out ++ [.threw e]) := by
  refine ⟨hI.sorted, ?_, ?_, fun b t hmem => ?_⟩
  · rw [cancelledInfos_append, executedInfos_append, scheduledInfos_append]
    simpa [cancelledInfos, executedInfos, scheduledInfos] using hI.perm
  · rw [scheduledInfos_append, List.map_append, hI.ids]
    exact List.append_nil _
  · exact hI.timely b t (by simpa using hmem)

theorem inv_keeps : Keeps (fun _ => True) (Inv : State App → List (Output ε) → Prop) where
  later hI := hI.later
  call hI _ h := hI.perform h
  execute _ hI := hI.execute
  threw e hI := hI.threw e

theorem Inv.start (app : App) (clock : ℤ) : Inv (start app clock) ([] : List (Output ε)) where
  sorted := .nil
  perm := .nil
  ids := rfl
  timely _ _ h := by cases h

theorem Inv.of_run (h : Reaches (step passes program turns) (Scheduler.start app clock) es s out) :
    Inv s out :=
  run_keeps inv_keeps (fun _ _ _ _ => trivial) (Inv.start app clock) h fun _ _ => trivial

/-- **No event is lost, executed twice or executed early**, and a cancelled one is not
executed: in any run of any program the events in the queue, those cancelled and those
executed are together the events scheduled, each once. -/
theorem events_conserved
    (h : Reaches (step passes program turns) (Scheduler.start app clock) es s out) :
    (s.queue ++ (cancelledInfos out ++ executedInfos out)).Perm (scheduledInfos out) ∧
    ((s.queue ++ (cancelledInfos out ++ executedInfos out)).map EventInfo.id).Nodup ∧
    s.queue.Pairwise Before ∧
    ∀ info now, .executed info now ∈ out → info.expireTime ≤ now ∧ now ≤ s.clock := by
  have hI := Inv.of_run h
  refine ⟨hI.perm, ?_, hI.sorted, hI.timely⟩
  rw [(hI.perm.map EventInfo.id).nodup_iff, hI.ids]
  exact List.nodup_range

/-- A program with an Interest to be sent two seconds later. -/
def delayedInterest : Program Unit Empty := fun app _ => (app, [], none)

/-- It is scheduled, its time comes, and it is sent. -/
def delayed : List Event := [.call (.scheduleEvent 2000000000), .expire, .executeEvent]

/-- A second passes before each reading of the clock. -/
theorem delayed_reaches : Reaches (step (fun _ => 1000000000) delayedInterest 2) (start () 0)
    delayed ⟨[], false, none, 0, (), 1, 5000000000, 5⟩
    [.scheduled ⟨0, 3000000000⟩, .executed ⟨0, 3000000000⟩ 5000000000] :=
  reaches_run (by decide +kernel)

theorem events_conserved_delayed : ∃ s out,
    Reaches (step (fun _ => 1000000000) delayedInterest 2) (start () 0) delayed s out ∧
    (s.queue ++ (cancelledInfos out ++ executedInfos out)).Perm (scheduledInfos out) ∧
    ((s.queue ++ (cancelledInfos out ++ executedInfos out)).map EventInfo.id).Nodup ∧
    s.queue.Pairwise Before ∧
    ∀ info now, .executed info now ∈ out → info.expireTime ≤ now ∧ now ≤ s.clock :=
  ⟨_, _, delayed_reaches, events_conserved delayed_reaches⟩

/-- No event is scheduled for a time that is over. -/
def Call.Forward : Call → Prop
  | .scheduleEvent after => 0 ≤ after
  | _ => True

/-- What has been executed stands before what has not, in the order of the times. -/
structure Ordered (s : State App) (out : List (Output ε)) : Prop where
  executed : (executedInfos out).Pairwise Before
  ahead : ∀ a ∈ executedInfos out, ∀ b ∈ s.queue, Before a b

theorem Ordered.later (ho : Ordered s out) (hexecuted : executedInfos new = [])
    (hahead : ∀ a ∈ executedInfos out, ∀ b ∈ s'.queue, b ∈ s.queue ∨ Before a b) :
    Ordered s' (out ++ new) := by
  rw [← List.append_nil (executedInfos out), ← hexecuted, ← executedInfos_append] at hahead
  have hsame : executedInfos (out ++ new) = executedInfos out := by
    rw [executedInfos_append, hexecuted, List.append_nil]
  refine ⟨by rw [hsame]; exact ho.executed, fun a ha b hb => ?_⟩
  rcases hahead a ha b hb with hb | hbefore
  · exact ho.ahead a (by rwa [hsame] at ha) b hb
  · exact hbefore

/-- An event scheduled for later comes after all that was executed. -/
theorem Inv.before_scheduled (hI : Inv s out) {a info : EventInfo} (ha : a ∈ executedInfos out)
    (hid : info.id = s.scheduled) (htime : s.clock ≤ info.expireTime) : Before a info := by
  obtain ⟨o, ho, hsome⟩ := List.mem_filterMap.mp ha
  cases o with
  | executed a' now =>
    obtain rfl := Option.some.inj hsome
    obtain ⟨hdue, hnow⟩ := hI.timely a' now ho
    have hold := hI.fresh (List.mem_append_right _ (List.mem_append_right _ ha))
    unfold Before
    omega
  | scheduled | cancelled | threw => cases hsome

theorem ordered_keeps : Keeps Call.Forward
    fun (s : State App) (out : List (Output ε)) => Inv s out ∧ Ordered s out where
  later := by
    intro s s' out hboth hqueue hscheduled hclock
    refine ⟨hboth.1.later hqueue hscheduled hclock, hboth.2.executed, ?_⟩
    rw [hqueue]
    exact hboth.2.ahead
  call := by
    intro s s' out new call hboth hforward h
    obtain ⟨hI, ho⟩ := hboth
    refine ⟨hI.perform h, ?_⟩
    rcases h.change with ⟨after, info, rfl, hid, htime, rfl, hqueue, -⟩ | ⟨cut, rfl, hsub, -, -⟩
    · refine ho.later rfl fun a ha b hb => ?_
      rw [hqueue] at hb
      rcases (List.mem_orderedInsert _).mp hb with rfl | hb
      · have hforward : 0 ≤ after := hforward
        exact .inr (hI.before_scheduled ha hid (by omega))
      · exact .inl hb
    · exact ho.later (infos_cancelled cut).2.2 fun a _ b hb => .inl (hsub.subset hb)
  execute := by
    intro s out info queue now hboth hqueue hdue hnow
    obtain ⟨hI, ho⟩ := hboth
    have hsorted := hI.sorted
    have hahead := ho.ahead
    rw [hqueue] at hsorted hahead
    obtain ⟨hinfo, hsorted⟩ := List.pairwise_cons.mp hsorted
    refine ⟨hI.execute hqueue hdue hnow, ?_, ?_⟩
    · rw [executedInfos_append]
      refine List.pairwise_append.mpr ⟨ho.executed, List.pairwise_singleton _ _, ?_⟩
      intro a ha b hb
      obtain rfl := List.mem_singleton.mp hb
      exact hahead a ha b List.mem_cons_self
    · intro a ha b hb
      rw [executedInfos_append] at ha
      rcases List.mem_append.mp ha with ha | ha
      · exact hahead a ha b (List.mem_cons_of_mem _ hb)
      · obtain rfl := List.mem_singleton.mp ha
        exact hinfo b hb
  threw := by
    intro s out e hboth
    exact ⟨hboth.1.threw e, hboth.2.later rfl fun a _ b hb => .inl hb⟩

/-- **Events are executed in the order of the times they expire at**, those of one time in
the order they were scheduled in, over the whole of a run in which no event is scheduled
for a time that is over; what is in the queue comes after. -/
theorem executed_in_order (hprogram : Allows Call.Forward program)
    (h : Reaches (step passes program turns) (Scheduler.start app clock) es s out)
    (hes : ∀ call, .call call ∈ es → call.Forward) :
    (executedInfos out ++ s.queue).Pairwise Before := by
  have hstart : Inv (Scheduler.start app clock) ([] : List (Output ε)) ∧
      Ordered (Scheduler.start app clock) ([] : List (Output ε)) := by
    refine ⟨Inv.start app clock, .nil, fun a ha => ?_⟩
    cases ha
  obtain ⟨hI, ho⟩ := run_keeps ordered_keeps hprogram hstart h hes
  exact List.pairwise_append.mpr ⟨ho.executed, hI.sorted, ho.ahead⟩

theorem executed_in_order_delayed : ∃ s out,
    Reaches (step (fun _ => 1000000000) delayedInterest 2) (start () 0) delayed s out ∧
    (executedInfos out ++ s.queue).Pairwise Before := by
  refine ⟨_, _, delayed_reaches, executed_in_order ?_ delayed_reaches ?_⟩
  · intro app id call hcall
    cases hcall
  · intro call hcall
    obtain rfl : call = .scheduleEvent 2000000000 := by simpa [delayed] using hcall
    exact Int.natCast_nonneg 2000000000

/-! ### The timer -/

/-- Where something is in the queue a wait is under way, or a handler is ready; and a wait
is not over before the first event has expired. -/
structure Armed (s : State App) : Prop where
  idle : s.isEventExecuting = false
  waits : s.queue ≠ [] → s.timer.isSome = true ∨ 0 < s.ready
  late : ∀ head expiry, s.queue.head? = some head → s.timer = some expiry →
    head.expireTime ≤ expiry

theorem Awaits.armed (h : Awaits s) (hidle : s.isEventExecuting = false) : Armed s := by
  refine ⟨hidle, fun hne => ?_, fun head expiry hhead hexpiry => ?_⟩
  · obtain ⟨head, queue, hcons⟩ := List.exists_cons_of_ne_nil hne
    obtain ⟨expiry, hsome, -⟩ := h head (by rw [hcons]; rfl)
    exact .inl (by rw [hsome]; rfl)
  · obtain ⟨expiry', hsome, hle⟩ := h head hhead
    rw [hsome] at hexpiry
    obtain rfl := Option.some.inj hexpiry
    exact hle

theorem Armed.perform (ha : Armed s) {call : Call} (h : Performed s call s' new) : Armed s' := by
  have hidle := h.frame.isEventExecuting.trans ha.idle
  rcases h.timer ha.idle with hawaits | ⟨hhead, htimer⟩
  · exact hawaits.armed hidle
  · -- the first event is the same, and its wait
    refine ⟨hidle, fun hne => ?_, fun head expiry hh hexpiry => ?_⟩
    · rw [htimer, h.frame.ready]
      refine ha.waits fun hnil => hne ?_
      rw [hnil, List.head?_nil] at hhead
      exact List.head?_eq_none_iff.mp hhead
    · exact ha.late head expiry (hhead ▸ hh) (htimer ▸ hexpiry)

theorem Armed.step (ha : Armed s) {e : Event} (h : step passes program turns s e = .ok (s', new)) :
    Armed s' := by
  cases e with
  | call call => exact ha.perform (perform_ok h)
  | expire =>
    obtain ⟨expiry, s1, -, hread, -, rfl, -⟩ := expire_ok h
    obtain ⟨-, hs1⟩ := readClock_ok hread
    refine ⟨?_, fun _ => .inr (Nat.succ_pos _), fun head expiry _ hnone => ?_⟩
    · rw [hs1]
      exact ha.idle
    · cases hnone
  | executeEvent =>
    obtain ⟨s1, s2, -, -, hnext⟩ := executeEvent_ok h
    obtain ⟨-, -, hframe, hawaits⟩ := scheduleNext_spec hnext
    exact hawaits.armed hframe.isEventExecuting

/-- What is scheduled is scheduled for later. -/
def Call.Delayed : Call → Prop
  | .scheduleEvent after => 0 < after
  | _ => True

/-- The events that have expired. -/
def due (now : ℤ) (queue : List EventInfo) : ℕ := queue.countP fun info => info.expireTime ≤ now

/-- Calls add nothing to what has expired. -/
theorem due_perform {now : ℤ} {call : Call} (h : Performed s call s' new) (hnow : now ≤ s.clock)
    (hdelayed : call.Delayed) : due now s'.queue ≤ due now s.queue := by
  rcases h.change with ⟨after, info, rfl, -, htime, -, hqueue, -⟩ | ⟨cut, -, hsub, -, -⟩
  · have hdelayed : 0 < after := hdelayed
    have hlater : ¬ info.expireTime ≤ now := by omega
    rw [hqueue, due, (List.perm_orderedInsert _ _ s.queue).countP_eq,
      List.countP_cons_of_neg (by simpa using hlater)]
    exact le_refl _
  · exact hsub.countP_le

theorem due_performAll {now : ℤ} {calls : List Call}
    (h : performAll passes s calls = .ok (s', new)) (hnow : now ≤ s.clock)
    (hdelayed : ∀ call ∈ calls, call.Delayed) : due now s'.queue ≤ due now s.queue := by
  induction calls generalizing s new with
  | nil =>
    obtain ⟨rfl, -⟩ := Prod.mk.inj (Except.ok.inj h)
    exact le_refl _
  | cons call calls ih =>
    obtain ⟨hcall, hcalls⟩ := List.forall_mem_cons.mp hdelayed
    obtain ⟨r, hperform, h⟩ := bind_eq_ok h
    obtain ⟨r', hrest, h⟩ := bind_eq_ok h
    obtain ⟨rfl, -⟩ := Prod.mk.inj (Except.ok.inj h)
    have hperformed := perform_ok hperform
    have hfirst := due_perform hperformed hnow hcall
    exact (ih hrest (hnow.trans hperformed.frame.clock) hcalls).trans hfirst

/-- Readings and calls fail by overflow only. -/
theorem nanoseconds_fails (v : ℤ) : FailsOnly (· = .overflow) (nanoseconds v) := by
  intro stop h
  unfold nanoseconds at h
  split at h
  · cases h
  · exact (Except.error.inj h).symm

theorem readClock_fails (passes : ℕ → ℕ) (s : State App) :
    FailsOnly (· = .overflow) (s.readClock passes) :=
  (nanoseconds_fails _).bind fun _ _ => failsOnly_ok _

theorem scheduleNext_fails (passes : ℕ → ℕ) (s : State App) :
    FailsOnly (· = .overflow) (s.scheduleNext passes) := by
  unfold scheduleNext
  cases s.queue with
  | nil => exact failsOnly_ok s
  | cons info queue =>
    refine (readClock_fails passes s).bind fun s1 _ => ?_
    refine (nanoseconds_fails _).bind fun left _ => ?_
    refine (readClock_fails passes s1).bind fun s2 _ => ?_
    exact (nanoseconds_fails _).bind fun expiry _ => failsOnly_ok _

theorem perform_fails (passes : ℕ → ℕ) (s : State App) (call : Call) :
    FailsOnly (· = .overflow)
      (perform passes s call : Except Stop (State App × List (Output ε))) := by
  have hnext : ∀ (c : Prop) [Decidable c] (s : State App),
      FailsOnly (· = .overflow) (if c then s.scheduleNext passes else .ok s) := by
    intro c _ s
    split
    · exact scheduleNext_fails passes s
    · exact failsOnly_ok s
  cases call with
  | scheduleEvent after =>
    refine (readClock_fails passes s).bind fun s1 _ => ?_
    refine (nanoseconds_fails _).bind fun expireTime _ => ?_
    exact (hnext _ _).bind fun s2 _ => failsOnly_ok _
  | cancelEvent id =>
    unfold perform
    dsimp only
    split
    · exact failsOnly_ok _
    · exact (hnext _ _).bind fun s1 _ => failsOnly_ok _
  | cancelAllEvents => exact failsOnly_ok _

theorem performAll_fails (passes : ℕ → ℕ) (calls : List Call) (s : State App) :
    FailsOnly (· = .overflow)
      (performAll passes s calls : Except Stop (State App × List (Output ε))) := by
  induction calls generalizing s with
  | nil => exact failsOnly_ok _
  | cons call calls ih =>
    refine (perform_fails passes s call).bind fun r _ => ?_
    exact (ih r.1).bind fun r' _ => failsOnly_ok _

/-- Every turn takes an event that has expired, and its callback adds none. -/
theorem executeLoop_ends (hprogram : Allows Call.Delayed program) {now : ℤ} :
    ∀ {turns : ℕ} {s : State App}, now ≤ s.clock → due now s.queue < turns →
      FailsOnly (· = .overflow) (executeLoop passes program now turns s)
  | 0, _, _, h => by omega
  | turns + 1, s, hnow, h => by
    rw [executeLoop]
    cases hqueue : s.queue with
    | nil => exact failsOnly_ok _
    | cons info queue =>
      by_cases hlater : info.expireTime > now
      · simp only [if_pos hlater]
        exact failsOnly_ok _
      · simp only [if_neg hlater]
        refine (performAll_fails passes _ _).bind fun r hcalls => ?_
        have hclock := (performAll_frame hcalls).clock
        have hfewer : due now r.1.queue ≤ due now queue :=
          due_performAll hcalls hnow (hprogram _ _)
        have hcount : due now s.queue = due now queue + 1 := by
          rw [hqueue, due, List.countP_cons_of_pos (by simpa using hlater)]
          rfl
        cases (program s.app info.id).2.2 with
        | some e => exact failsOnly_ok _
        | none =>
          exact (executeLoop_ends hprogram (hnow.trans hclock) (by omega)).bind
            fun r' _ => failsOnly_ok _

/-- **An execution ends**, after a turn for each event in the queue and one more, if its
callbacks schedule events with a delay, and no sum of times overflows. -/
theorem executeEvent_ends (hprogram : Allows Call.Delayed program) (s : State App)
    (hready : 0 < s.ready) (hturns : s.queue.length < turns) :
    (∃ r, step passes program turns s .executeEvent = .ok r) ∨
    step passes program turns s .executeEvent = .error .overflow := by
  have hfails : FailsOnly (· = .overflow) (step passes program turns s .executeEvent) := by
    unfold step
    simp only [if_neg hready.ne']
    refine (readClock_fails passes _).bind fun s1 hread => ?_
    obtain ⟨-, hs1⟩ := readClock_ok hread
    have hqueue : s1.queue = s.queue := by rw [hs1]
    have hdue : due s1.clock s1.queue < turns := by
      rw [hqueue]
      exact lt_of_le_of_lt List.countP_le_length hturns
    refine (executeLoop_ends hprogram (le_refl _) hdue).bind fun r _ => ?_
    exact (scheduleNext_fails passes _).bind fun s2 _ => failsOnly_ok _
  cases hstep : step passes program turns s .executeEvent with
  | ok r => exact .inl ⟨r, rfl⟩
  | error stop =>
    obtain rfl := hfails stop hstep
    exact .inr rfl

theorem executeEvent_ends_delayed :
    (∃ r, step (fun _ => 1000000000) delayedInterest 2
      ⟨[⟨0, 3000000000⟩], false, none, 1, (), 1, 4000000000, 4⟩ .executeEvent = .ok r) ∨
    step (fun _ => 1000000000) delayedInterest 2
      ⟨[⟨0, 3000000000⟩], false, none, 1, (), 1, 4000000000, 4⟩ .executeEvent =
        .error .overflow := by
  refine executeEvent_ends ?_ _ Nat.one_pos (Nat.lt_succ_self 1)
  intro app id call hcall
  cases hcall

end Scheduler
end Ndn
end IcnDemo
