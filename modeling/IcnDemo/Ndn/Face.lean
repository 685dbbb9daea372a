/-
# The Face

`Face::Impl` keeps the table of pending Interests in the order they were expressed. A
Data or a Nack goes through the table and takes out the entries it matches, one callback
after another; a timeout ends an entry of its own; removals are posted, and run later. A
callback may express Interests, which are appended while the loop goes on.

Over any run, whatever the callbacks do, every Interest expressed is in the table or has
been ended, once, and by what matches it (`conserved_of_run`). One Data answers the pending
Interests it matches in the order they were expressed, and leaves the others
(`data_of_run`).
-/
import IcnDemo.Lib.Drain
import IcnDemo.Lib.Runs
import IcnDemo.Ndn.Express

namespace IcnDemo
namespace Ndn
namespace Face

open Lib.Drain Lib.Runs Lib.Loop

/-- `PendingInterest`; the number stands for its address. -/
structure PendingInterest where
  id : ℕ
  interest : Interest Name

/-- What a program calls of the Face, from the thread of its `io_service`. -/
inductive Call (Packet : Type)
  /-- The Interest as `expressInterest` makes it pending. -/
  | expressInterest (interest : Interest Name)
  | removePendingInterest (id : ℕ)
  | removeAllPendingInterests
  | setInterestFilter (filter : Name)
  | unsetInterestFilter (id : ℕ)
  | put (packet : Packet)

/-- A handler that was posted and has not run. -/
inductive Posted
  | removePendingInterest (id : ℕ)
  | removeAllPendingInterests
  | setInterestFilter (id : ℕ) (filter : Name)
  | unsetInterestFilter (id : ℕ)

/-- A program: its callbacks, and what it does otherwise. Each goes on from its own
state, and calls the Face or throws. -/
structure Program (App Packet ε : Type) where
  onInterest : App → ℕ → Interest Name → Except ε (App × List (Call Packet))
  onData : App → Interest Name → SignedData → Except ε (App × List (Call Packet))
  onNack : App → Interest Name → Interest Name → Except ε (App × List (Call Packet))
  onTimeout : App → Interest Name → Except ε (App × List (Call Packet))
  main : App → Except ε (App × List (Call Packet))

/-- The Face and the program, but for the pending Interests. -/
structure Impl (App : Type) where
  interestFilterTable : List (ℕ × Name)
  posted : List Posted
  app : App
  /-- The Interests expressed so far. -/
  expressed : ℕ
  /-- The filters set so far. -/
  filters : ℕ

structure State (App : Type) where
  pendingInterestTable : List PendingInterest
  impl : Impl App

/-- How a pending Interest ends. -/
inductive Outcome
  | data (data : SignedData)
  | nack (nack : Interest Name)
  | timeout
  | removed

inductive Output (Packet : Type)
  | sent (interest : Interest Name)
  | ended (entry : PendingInterest) (outcome : Outcome)
  | put (packet : Packet)

/-- What the `io_service` runs. -/
inductive Event
  | main
  | interest (interest : Interest Name)
  | data (data : SignedData)
  | nack (nack : Interest Name)
  | timeout (id : ℕ)
  /-- The handler posted first. -/
  | turn

/-- Why an event leads to no state. -/
inductive Stop (ε : Type)
  | failed (failure : Failure ε)
  /-- There is no such timer or handler. -/
  | undelivered

variable {App Packet ε : Type}

/-- A call: the entry it inserts at the end of the table, and what it sends. -/
def perform (impl : Impl App) :
    Call Packet → Impl App × List PendingInterest × List (Output Packet)
  | .expressInterest interest =>
    ({ impl with expressed := impl.expressed + 1 }, [⟨impl.expressed, interest⟩],
      [.sent interest])
  | .removePendingInterest id =>
    ({ impl with posted := impl.posted ++ [.removePendingInterest id] }, [], [])
  | .removeAllPendingInterests =>
    ({ impl with posted := impl.posted ++ [.removeAllPendingInterests] }, [], [])
  | .setInterestFilter filter =>
    ({ impl with
      posted := impl.posted ++ [.setInterestFilter impl.filters filter]
      filters := impl.filters + 1 }, [], [])
  | .unsetInterestFilter id =>
    ({ impl with posted := impl.posted ++ [.unsetInterestFilter id] }, [], [])
  | .put packet => (impl, [], [.put packet])

/-- The calls a program makes, in order. -/
def performAll : Impl App → List (Call Packet) →
    Impl App × List PendingInterest × List (Output Packet)
  | impl, [] => (impl, [], [])
  | impl, call :: calls =>
    let r := perform impl call
    let r' := performAll r.1 calls
    (r'.1, r.2.1 ++ r'.2.1, r.2.2 ++ r'.2.2)

/-- The callback of an entry that has been taken out, with what was sent before. -/
def invoke (outcome : Outcome)
    (callback : App → Interest Name → Except ε (App × List (Call Packet))) :
    Impl App × List (Output Packet) → PendingInterest →
      Except ε ((Impl App × List (Output Packet)) × List PendingInterest) :=
  fun s entry => do
    let r ← callback s.1.app entry.interest
    let r' := performAll { s.1 with app := r.1 } r.2
    .ok ((r'.1, s.2 ++ .ended entry outcome :: r'.2.2), r'.2.1)

/-- A loop over the pending Interests, in at most so many turns. -/
def endPendingInterests (turns : ℕ) (ends : PendingInterest → Bool) (outcome : Outcome)
    (callback : App → Interest Name → Except ε (App × List (Call Packet))) (s : State App) :
    Except (Stop ε) (State App × List (Output Packet)) :=
  match drain ends (invoke outcome callback) turns 0 s.pendingInterestTable (s.impl, []) with
  | .error failure => .error (.failed failure)
  | .ok (table, impl, out) => .ok (⟨table, impl⟩, out)

def satisfyPendingInterests (program : Program App Packet ε) (turns : ℕ) (s : State App)
    (data : SignedData) : Except (Stop ε) (State App × List (Output Packet)) :=
  endPendingInterests turns (fun entry => entry.interest.matchesData data) (.data data)
    (fun app interest => program.onData app interest data) s

/-- The pending Interest was decoded, so that `matchesInterest` does not throw. -/
def nackPendingInterests (program : Program App Packet ε) (turns : ℕ) (s : State App)
    (nack : Interest Name) : Except (Stop ε) (State App × List (Output Packet)) :=
  endPendingInterests turns (fun entry => nack.matchesInterest entry.interest matches .ok true)
    (.nack nack) (fun app interest => program.onNack app interest nack) s

/-- The program goes on, and calls the Face. -/
def proceed (s : State App) (r : Except ε (App × List (Call Packet))) :
    Except (Stop ε) (State App × List (Output Packet)) :=
  match r with
  | .error e => .error (.failed (.thrown e))
  | .ok (app, calls) =>
    let r' := performAll { s.impl with app := app } calls
    .ok (⟨s.pendingInterestTable ++ r'.2.1, r'.1⟩, r'.2.2)

/-- The loop of `processInterestFilters`. -/
def processFilters (program : Program App Packet ε) (interest : Interest Name) :
    List (ℕ × Name) → State App → Except (Stop ε) (State App × List (Output Packet))
  | [], s => .ok (s, [])
  | filter :: filters, s =>
    if filter.2.isPrefixOf interest.name then do
      let r ← proceed s (program.onInterest s.impl.app filter.1 interest)
      let r' ← processFilters program interest filters r.1
      .ok (r'.1, r.2 ++ r'.2)
    else processFilters program interest filters s

def processInterestFilters (program : Program App Packet ε) (s : State App)
    (interest : Interest Name) : Except (Stop ε) (State App × List (Output Packet)) :=
  processFilters program interest s.impl.interestFilterTable s

/-- `PendingInterest::invokeTimeoutCallback`: the callback, and then the deleter. -/
def invokeTimeoutCallback (program : Program App Packet ε) (s : State App) (id : ℕ) :
    Except (Stop ε) (State App × List (Output Packet)) :=
  match s.pendingInterestTable.find? (fun entry => entry.id = id) with
  | none => .error .undelivered
  | some entry => do
    let r ← proceed s (program.onTimeout s.impl.app entry.interest)
    .ok ({ r.1 with
      pendingInterestTable := r.1.pendingInterestTable.eraseP fun entry => entry.id = id },
      .ended entry .timeout :: r.2)

/-- A posted handler runs. -/
def runPosted (s : State App) : Posted → State App × List (Output Packet)
  | .removePendingInterest id =>
    ({ s with pendingInterestTable := s.pendingInterestTable.filter fun entry => entry.id ≠ id },
      (s.pendingInterestTable.filter fun entry => entry.id = id).map (.ended · .removed))
  | .removeAllPendingInterests =>
    ({ s with pendingInterestTable := [] }, s.pendingInterestTable.map (.ended · .removed))
  | .setInterestFilter id filter =>
    ({ s with impl := { s.impl with
      interestFilterTable := s.impl.interestFilterTable ++ [(id, filter)] } }, [])
  | .unsetInterestFilter id =>
    ({ s with impl := { s.impl with
      interestFilterTable := s.impl.interestFilterTable.eraseP fun filter => filter.1 = id } }, [])

/-- One event, whose loop takes at most so many turns. -/
def step (program : Program App Packet ε) (turns : ℕ) (s : State App) :
    Event → Except (Stop ε) (State App × List (Output Packet))
  | .main => proceed s (program.main s.impl.app)
  | .interest interest => processInterestFilters program s interest
  | .data data => satisfyPendingInterests program turns s data
  | .nack nack => nackPendingInterests program turns s nack
  | .timeout id => invokeTimeoutCallback program s id
  | .turn =>
    match s.impl.posted with
    | [] => .error .undelivered
    | handler :: posted =>
      .ok (runPosted { s with impl := { s.impl with posted := posted } } handler)

/-- A Face without pending Interests, filters and handlers. -/
def start (app : App) : State App := ⟨[], ⟨[], [], app, 0, 0⟩⟩

/-! ### What has been sent and what has ended -/

def endedEntries (out : List (Output Packet)) : List PendingInterest :=
  out.filterMap fun o => match o with
    | .ended entry _ => some entry
    | _ => none

def sentInterests (out : List (Output Packet)) : List (Interest Name) :=
  out.filterMap fun o => match o with
    | .sent interest => some interest
    | _ => none

/-- The packets that are put. -/
def putPackets (out : List (Output Packet)) : List Packet :=
  out.filterMap fun o => match o with
    | .put packet => some packet
    | _ => none

/-- The entries of Interests that are expressed one after another. -/
def numbered (expressed : ℕ) (interests : List (Interest Name)) : List PendingInterest :=
  interests.mapIdx fun i interest => ⟨expressed + i, interest⟩

/-- What ends a pending Interest matches it. -/
def Output.Sound : Output Packet → Prop
  | .ended entry (.data data) => entry.interest.matchesData data = true
  | .ended entry (.nack nack) => nack.matchesInterest entry.interest = .ok true
  | _ => True

theorem endedEntries_append (out out' : List (Output Packet)) :
    endedEntries (out ++ out') = endedEntries out ++ endedEntries out' := List.filterMap_append

theorem sentInterests_append (out out' : List (Output Packet)) :
    sentInterests (out ++ out') = sentInterests out ++ sentInterests out' := List.filterMap_append

theorem putPackets_append (out out' : List (Output Packet)) :
    putPackets (out ++ out') = putPackets out ++ putPackets out' := List.filterMap_append

theorem numbered_append (k : ℕ) (interests interests' : List (Interest Name)) :
    numbered k (interests ++ interests') =
      numbered k interests ++ numbered (k + interests.length) interests' := by
  unfold numbered
  rw [List.mapIdx_append]
  congr 1
  apply List.mapIdx_eq_mapIdx_iff.mpr
  intro i hi
  congr 1
  omega

/-- What an event does to the table: its entries and those of the Interests sent are in
it, in this order, but for those that have ended by what matches them. -/
structure Does (s s' : State App) (out : List (Output Packet)) : Prop where
  expressed : s'.impl.expressed = s.impl.expressed + (sentInterests out).length
  sublist : s'.pendingInterestTable.Sublist
    (s.pendingInterestTable ++ numbered s.impl.expressed (sentInterests out))
  perm : (s'.pendingInterestTable ++ endedEntries out).Perm
    (s.pendingInterestTable ++ numbered s.impl.expressed (sentInterests out))
  sound : ∀ o ∈ out, o.Sound

variable {s s' s'' : State App} {out out' : List (Output Packet)}

theorem Does.refl (s : State App) : Does s s ([] : List (Output Packet)) :=
  ⟨rfl, by simp [numbered, sentInterests], by simp [numbered, sentInterests, endedEntries], by simp⟩

theorem Does.trans (h : Does s s' out) (h' : Does s' s'' out') : Does s s'' (out ++ out') := by
  have hnumbered : s.pendingInterestTable ++ numbered s.impl.expressed (sentInterests (out ++ out')) =
      (s.pendingInterestTable ++ numbered s.impl.expressed (sentInterests out)) ++
        numbered s'.impl.expressed (sentInterests out') := by
    rw [sentInterests_append, numbered_append, h.expressed, List.append_assoc]
  refine ⟨?_, ?_, ?_, ?_⟩
  · rw [h'.expressed, h.expressed, sentInterests_append, List.length_append, Nat.add_assoc]
  · rw [hnumbered]
    exact h'.sublist.trans (h.sublist.append (List.Sublist.refl _))
  · rw [hnumbered, endedEntries_append]
    -- the second event's balance, and then the first's
    have hsecond := h'.perm.append_right (endedEntries out)
    have hfirst := h.perm.append_right (numbered s'.impl.expressed (sentInterests out'))
    refine List.Perm.trans ?_ (hsecond.trans (List.Perm.trans ?_ hfirst))
    · rw [List.append_assoc]
      exact List.perm_append_comm.append_left _
    · rw [List.append_assoc, List.append_assoc]
      exact List.perm_append_comm.append_left _
  · intro o ho
    rcases List.mem_append.mp ho with ho | ho
    · exact h.sound o ho
    · exact h'.sound o ho

/-- What calls do: they send Interests and insert their entries. -/
structure Sends (impl impl' : Impl App) (new : List PendingInterest) (out : List (Output Packet)) :
    Prop where
  app : impl'.app = impl.app
  expressed : impl'.expressed = impl.expressed + (sentInterests out).length
  new : new = numbered impl.expressed (sentInterests out)
  ended : endedEntries out = []
  sound : ∀ o ∈ out, o.Sound

theorem perform_sends (impl : Impl App) (call : Call Packet) :
    Sends impl (perform impl call).1 (perform impl call).2.1 (perform impl call).2.2 := by
  cases call <;>
    exact ⟨rfl, rfl, by simp [perform, numbered, sentInterests], rfl, by
      simp [perform, Output.Sound]⟩

theorem performAll_sends (impl : Impl App) (calls : List (Call Packet)) :
    Sends impl (performAll impl calls).1 (performAll impl calls).2.1
      (performAll impl calls).2.2 := by
  induction calls generalizing impl with
  | nil => exact ⟨rfl, rfl, rfl, rfl, by simp [performAll]⟩
  | cons call calls ih =>
    have hfirst := perform_sends impl call
    have hrest := ih (perform impl call).1
    unfold performAll
    refine ⟨hrest.app.trans hfirst.app, ?_, ?_, ?_, ?_⟩
    · rw [hrest.expressed, hfirst.expressed, sentInterests_append, List.length_append,
        Nat.add_assoc]
    · rw [sentInterests_append, numbered_append, ← hfirst.expressed, ← hfirst.new, ← hrest.new]
    · rw [endedEntries_append, hfirst.ended, hrest.ended, List.append_nil]
    · intro o ho
      rcases List.mem_append.mp ho with ho | ho
      · exact hfirst.sound o ho
      · exact hrest.sound o ho

/-- The program's calls append the entries of what they send. -/
theorem proceed_spec {r : Except ε (App × List (Call Packet))} (h : proceed s r = .ok (s', out)) :
    s'.impl.expressed = s.impl.expressed + (sentInterests out).length ∧
    s'.pendingInterestTable =
      s.pendingInterestTable ++ numbered s.impl.expressed (sentInterests out) ∧
    endedEntries out = [] ∧ ∀ o ∈ out, o.Sound := by
  unfold proceed at h
  cases r with
  | error e => cases h
  | ok r =>
    obtain ⟨rfl, rfl⟩ := Prod.mk.inj (Except.ok.inj h)
    have hsends := performAll_sends { s.impl with app := r.1 } r.2
    exact ⟨hsends.expressed, congrArg (s.pendingInterestTable ++ ·) hsends.new, hsends.ended,
      hsends.sound⟩

theorem proceed_does {r : Except ε (App × List (Call Packet))}
    (h : proceed s r = .ok (s', out)) : Does s s' out := by
  obtain ⟨hexpressed, htable, hended, hsound⟩ := proceed_spec h
  refine ⟨hexpressed, ?_, ?_, hsound⟩
  · rw [htable]
  · rw [htable, hended, List.append_nil]

/-! ### The loops over the table -/

/-- What the callbacks of entries do that have been taken out of the table. -/
structure Ends (entries : List PendingInterest) (outcome : Outcome) (impl impl' : Impl App)
    (new : List PendingInterest) (out : List (Output Packet)) : Prop where
  expressed : impl'.expressed = impl.expressed + (sentInterests out).length
  new : new = numbered impl.expressed (sentInterests out)
  ended : endedEntries out = entries
  outcome : ∀ entry outcome', .ended entry outcome' ∈ out → entry ∈ entries ∧ outcome' = outcome

theorem not_ended_mem {out : List (Output Packet)} (h : endedEntries out = [])
    (entry : PendingInterest) (outcome : Outcome) : .ended entry outcome ∉ out := by
  intro hmem
  have hin : entry ∈ endedEntries out := List.mem_filterMap.mpr ⟨_, hmem, rfl⟩
  rw [h] at hin
  cases hin

theorem calls_invoke {outcome : Outcome}
    {callback : App → Interest Name → Except ε (App × List (Call Packet))}
    {entries new : List PendingInterest} {impl impl' : Impl App} {out0 out' : List (Output Packet)}
    (h : calls (invoke outcome callback) entries (impl, out0) = .ok ((impl', out'), new)) :
    ∃ out, out' = out0 ++ out ∧ Ends entries outcome impl impl' new out := by
  induction entries generalizing impl out0 new with
  | nil =>
    obtain ⟨hs, rfl⟩ := Prod.mk.inj (Except.ok.inj h)
    obtain ⟨rfl, rfl⟩ := Prod.mk.inj hs
    exact ⟨[], by simp, rfl, rfl, rfl, by simp⟩
  | cons entry entries ih =>
    obtain ⟨r, hr, h⟩ := bind_eq_ok h
    obtain ⟨r', hr', h⟩ := bind_eq_ok h
    obtain ⟨hs, rfl⟩ := Prod.mk.inj (Except.ok.inj h)
    obtain ⟨c, -, hr⟩ := bind_eq_ok hr
    obtain rfl := Except.ok.inj hr
    have hsends := performAll_sends { impl with app := c.1 } c.2
    generalize performAll { impl with app := c.1 } c.2 = sends at hsends hr' h hs
    have hpair : r' = ((impl', out'), r'.2) := by rw [← hs]
    rw [hpair] at hr'
    obtain ⟨out, rfl, hends⟩ := ih hr'
    have hexpressed : sends.1.expressed = impl.expressed + (sentInterests sends.2.2).length :=
      hsends.expressed
    refine ⟨.ended entry outcome :: sends.2.2 ++ out, by simp, ?_, ?_, ?_, ?_⟩
    · rw [hends.expressed, hexpressed, sentInterests_append, List.length_append, ← Nat.add_assoc]
      rfl
    · have hnew : sends.2.1 = numbered impl.expressed (sentInterests sends.2.2) := hsends.new
      rw [hends.new, sentInterests_append, numbered_append]
      change sends.2.1 ++ _ = numbered impl.expressed (sentInterests sends.2.2) ++ _
      rw [hnew, hexpressed]
      rfl
    · rw [endedEntries_append, hends.ended]
      change entry :: (endedEntries sends.2.2 ++ entries) = _
      rw [hsends.ended, List.nil_append]
    · intro entry' outcome' hmem
      rw [List.cons_append, List.mem_cons, List.mem_append] at hmem
      rcases hmem with heq | hmem | hmem
      · obtain ⟨rfl, rfl⟩ := Output.ended.inj heq
        exact ⟨List.mem_cons_self, rfl⟩
      · exact absurd hmem (not_ended_mem hsends.ended entry' outcome')
      · obtain ⟨h1, h2⟩ := hends.outcome entry' outcome' hmem
        exact ⟨List.mem_cons_of_mem _ h1, h2⟩

/-- A loop over the pending Interests is the callbacks of those of the table that it ends,
and then of some that these callbacks have expressed. -/
theorem endPendingInterests_calls {turns : ℕ} {ends : PendingInterest → Bool} {outcome : Outcome}
    {callback : App → Interest Name → Except ε (App × List (Call Packet))}
    (h : endPendingInterests turns ends outcome callback s = .ok (s', out)) :
    ∃ extra more new, calls (invoke outcome callback)
        (s.pendingInterestTable.filter ends ++ extra) (s.impl, []) = .ok ((s'.impl, out), new) ∧
      s'.pendingInterestTable = s.pendingInterestTable.filter (fun entry => !ends entry) ++ more ∧
      (more ++ extra).Perm new ∧ more.Sublist new ∧ extra.Sublist new ∧
      ∀ entry ∈ extra, ends entry = true := by
  unfold endPendingInterests at h
  split at h
  · cases h
  · rename_i table impl out' hdrain
    obtain ⟨rfl, rfl⟩ := Prod.mk.inj (Except.ok.inj h)
    have hdrain' : drain ends (invoke outcome callback) turns ([] : List PendingInterest).length
        ([] ++ s.pendingInterestTable) (s.impl, []) = .ok (table, impl, out') := hdrain
    exact drain_calls hdrain'

/-- **What a loop over the pending Interests does**: those that it ends are the ones of
the table, in order, and then some that the callbacks have expressed; the others stay. -/
theorem endPendingInterests_spec {turns : ℕ} {ends : PendingInterest → Bool} {outcome : Outcome}
    {callback : App → Interest Name → Except ε (App × List (Call Packet))}
    (h : endPendingInterests turns ends outcome callback s = .ok (s', out)) :
    ∃ extra more,
      Ends (s.pendingInterestTable.filter ends ++ extra) outcome s.impl s'.impl
        (numbered s.impl.expressed (sentInterests out)) out ∧
      s'.pendingInterestTable = s.pendingInterestTable.filter (fun entry => !ends entry) ++ more ∧
      (more ++ extra).Perm (numbered s.impl.expressed (sentInterests out)) ∧
      more.Sublist (numbered s.impl.expressed (sentInterests out)) ∧
      extra.Sublist (numbered s.impl.expressed (sentInterests out)) ∧
      ∀ entry ∈ extra, ends entry = true := by
  obtain ⟨extra, more, new, hcalls, htable, hperm, hmore, hsub, hextra⟩ :=
    endPendingInterests_calls h
  obtain ⟨out, rfl, hends⟩ := calls_invoke hcalls
  obtain rfl := hends.new
  exact ⟨extra, more, hends, htable, hperm, hmore, hsub, hextra⟩

theorem endPendingInterests_does {turns : ℕ} {ends : PendingInterest → Bool} {outcome : Outcome}
    {callback : App → Interest Name → Except ε (App × List (Call Packet))}
    (hsound : ∀ entry, ends entry = true → (.ended entry outcome : Output Packet).Sound)
    (h : endPendingInterests turns ends outcome callback s = .ok (s', out)) : Does s s' out := by
  obtain ⟨extra, more, hends, htable, hperm, hmore, -, hextra⟩ := endPendingInterests_spec h
  refine ⟨hends.expressed, ?_, ?_, ?_⟩
  · rw [htable]
    exact List.filter_sublist.append hmore
  · rw [htable, hends.ended]
    have hparts : (s.pendingInterestTable.filter (fun entry => !ends entry) ++
        s.pendingInterestTable.filter ends).Perm s.pendingInterestTable :=
      List.perm_append_comm.trans (List.filter_append_perm ends s.pendingInterestTable)
    refine List.Perm.trans ?_ (hparts.append hperm)
    rw [List.append_assoc, List.append_assoc]
    exact (List.perm_append_comm_assoc more _ extra).append_left _
  · intro o ho
    cases o with
    | sent => exact trivial
    | put => exact trivial
    | ended entry outcome' =>
      obtain ⟨hmem, rfl⟩ := hends.outcome entry outcome' ho
      apply hsound
      rcases List.mem_append.mp hmem with hmem | hmem
      · exact (List.mem_filter.mp hmem).2
      · exact hextra entry hmem

/-! ### One event, and a run -/

/-- An entry taken out of the table and ended. -/
theorem perm_ended {table : List PendingInterest} {entry : PendingInterest} {id : ℕ}
    (h : table.find? (fun e => e.id = id) = some entry) (new ended : List PendingInterest) :
    ((table ++ new).eraseP (fun e => e.id = id) ++ entry :: ended).Perm (table ++ new ++ ended) := by
  obtain ⟨hid, before, after, rfl, hbefore⟩ := List.find?_eq_some_iff_append.mp h
  have hnot : ∀ e ∈ before, ¬ decide (e.id = id) = true := by simpa using hbefore
  have herase : (before ++ entry :: after ++ new).eraseP (fun e => e.id = id) =
      before ++ (after ++ new) := by
    rw [List.append_assoc, List.cons_append, List.eraseP_append_right _ hnot, List.eraseP_cons,
      hid, cond_true]
  rw [herase]
  refine List.perm_middle.trans ?_
  have hright : before ++ entry :: after ++ new ++ ended =
      before ++ entry :: (after ++ new ++ ended) := by simp
  rw [hright, List.append_assoc]
  exact List.perm_middle.symm

theorem invokeTimeoutCallback_does {program : Program App Packet ε} {id : ℕ}
    (h : invokeTimeoutCallback program s id = .ok (s', out)) : Does s s' out := by
  unfold invokeTimeoutCallback at h
  split at h
  · cases h
  · rename_i entry hfind
    obtain ⟨r, hr, h⟩ := bind_eq_ok h
    obtain ⟨rfl, rfl⟩ := Prod.mk.inj (Except.ok.inj h)
    obtain ⟨hexpressed, htable, hended, hsound⟩ := proceed_spec hr
    refine ⟨hexpressed, ?_, ?_, ?_⟩
    · change (r.1.pendingInterestTable.eraseP _).Sublist _
      rw [htable]
      exact List.eraseP_sublist
    · change (r.1.pendingInterestTable.eraseP _ ++ entry :: endedEntries r.2).Perm _
      rw [htable, hended]
      have hperm := perm_ended hfind (numbered s.impl.expressed (sentInterests r.2)) []
      rwa [List.append_nil] at hperm
    · intro o ho
      rcases List.mem_cons.mp ho with rfl | ho
      · exact trivial
      · exact hsound o ho

theorem endedEntries_map (entries : List PendingInterest) (outcome : Outcome) :
    endedEntries (entries.map fun entry => (.ended entry outcome : Output Packet)) = entries := by
  induction entries with
  | nil => rfl
  | cons entry entries ih => exact congrArg (entry :: ·) ih

theorem sentInterests_map (entries : List PendingInterest) (outcome : Outcome) :
    sentInterests (entries.map fun entry => (.ended entry outcome : Output Packet)) = [] := by
  induction entries with
  | nil => rfl
  | cons entry entries ih => exact ih

/-- Entries are removed from the table. -/
theorem removed_does {removed : List PendingInterest}
    (himpl : s'.impl.expressed = s.impl.expressed)
    (hsub : s'.pendingInterestTable.Sublist s.pendingInterestTable)
    (hperm : (s'.pendingInterestTable ++ removed).Perm s.pendingInterestTable) :
    Does s s' (removed.map fun entry => (.ended entry .removed : Output Packet)) := by
  have hnone : numbered s.impl.expressed (sentInterests
      (removed.map fun entry => (.ended entry .removed : Output Packet))) = [] := by
    rw [sentInterests_map]
    rfl
  refine ⟨?_, ?_, ?_, ?_⟩
  · rw [sentInterests_map, himpl]
    rfl
  · rwa [hnone, List.append_nil]
  · rwa [hnone, List.append_nil, endedEntries_map]
  · intro o ho
    obtain ⟨entry, -, rfl⟩ := List.mem_map.mp ho
    exact trivial

theorem runPosted_does {handler : Posted} (h : runPosted s handler = (s', out)) :
    Does s s' out := by
  obtain rfl : (runPosted s handler).1 = s' := by rw [h]
  obtain rfl : (runPosted s handler).2 = out := by rw [h]
  cases handler with
  | removePendingInterest id =>
    refine removed_does rfl List.filter_sublist ?_
    have hperm := List.filter_append_perm (fun e : PendingInterest => decide (e.id = id))
      s.pendingInterestTable
    refine List.perm_append_comm.trans ?_
    simpa [runPosted] using hperm
  | removeAllPendingInterests => exact removed_does rfl (List.nil_sublist _) (List.Perm.refl _)
  | setInterestFilter | unsetInterestFilter =>
    have hsame : Does s s ([] : List (Output Packet)) := Does.refl s
    exact ⟨hsame.expressed, hsame.sublist, hsame.perm, hsame.sound⟩

/-- What calling one filter after another keeps. -/
theorem processFilters_keeps {program : Program App Packet ε} {interest : Interest Name}
    {R : State App → State App → List (Output Packet) → Prop} (hrefl : ∀ s, R s s [])
    (htrans : ∀ {s s' s'' out out'}, R s s' out → R s' s'' out' → R s s'' (out ++ out'))
    (hcall : ∀ {s s' out id}, proceed s (program.onInterest s.impl.app id interest) =
      .ok (s', out) → R s s' out) :
    ∀ {filters : List (ℕ × Name)} {s s' : State App} {out : List (Output Packet)},
      processFilters program interest filters s = .ok (s', out) → R s s' out
  | [], s, s', out, h => by
    obtain ⟨rfl, rfl⟩ := Prod.mk.inj (Except.ok.inj h)
    exact hrefl s
  | filter :: filters, s, s', out, h => by
    unfold processFilters at h
    split at h
    · obtain ⟨r, hr, h⟩ := bind_eq_ok h
      obtain ⟨r', hr', h⟩ := bind_eq_ok h
      obtain ⟨rfl, rfl⟩ := Prod.mk.inj (Except.ok.inj h)
      exact htrans (hcall hr) (processFilters_keeps hrefl htrans hcall hr')
    · exact processFilters_keeps hrefl htrans hcall h

theorem step_does {program : Program App Packet ε} {turns : ℕ} {e : Event}
    (h : step program turns s e = .ok (s', out)) : Does s s' out := by
  cases e with
  | main => exact proceed_does h
  | interest interest => exact processFilters_keeps Does.refl Does.trans proceed_does h
  | data data =>
    refine endPendingInterests_does (fun entry hmatch => ?_) h
    exact hmatch
  | nack nack =>
    refine endPendingInterests_does (fun entry hmatch => ?_) h
    change nack.matchesInterest entry.interest = .ok true
    split at hmatch
    · assumption
    · cases hmatch
  | timeout id => exact invokeTimeoutCallback_does h
  | turn =>
    cases hposted : s.impl.posted with
    | nil =>
      simp only [step, hposted] at h
      cases h
    | cons handler posted =>
      simp only [step, hposted] at h
      have hdoes := runPosted_does (Except.ok.inj h)
      exact ⟨hdoes.expressed, hdoes.sublist, hdoes.perm, hdoes.sound⟩

theorem processFilters_ended {program : Program App Packet ε} {interest : Interest Name}
    {filters : List (ℕ × Name)} (h : processFilters program interest filters s = .ok (s', out)) :
    endedEntries out = [] := by
  refine processFilters_keeps (R := fun _ _ out => endedEntries out = []) (fun _ => rfl) ?_ ?_ h
  · intro _ _ _ out out' hout hout'
    rw [endedEntries_append, hout, hout']
    rfl
  · intro _ _ _ _ hproceed
    exact (proceed_spec hproceed).2.2.1

/-- Only a Data ends pending Interests by a Data. -/
theorem data_of_step {program : Program App Packet ε} {turns : ℕ} {e : Event}
    (h : step program turns s e = .ok (s', out)) {entry : PendingInterest} {data : SignedData}
    (hmem : .ended entry (.data data) ∈ out) : e = .data data := by
  cases e with
  | main => exact absurd hmem (not_ended_mem (proceed_spec h).2.2.1 entry _)
  | interest interest => exact absurd hmem (not_ended_mem (processFilters_ended h) entry _)
  | data data' =>
    obtain ⟨extra, more, hends, -⟩ := endPendingInterests_spec h
    obtain ⟨-, houtcome⟩ := hends.outcome entry _ hmem
    rw [Outcome.data.inj houtcome]
  | nack nack =>
    obtain ⟨extra, more, hends, -⟩ := endPendingInterests_spec h
    obtain ⟨-, houtcome⟩ := hends.outcome entry _ hmem
    cases houtcome
  | timeout id =>
    simp only [step, invokeTimeoutCallback] at h
    split at h
    · cases h
    · obtain ⟨r, hr, h⟩ := bind_eq_ok h
      obtain ⟨-, rfl⟩ := Prod.mk.inj (Except.ok.inj h)
      rcases List.mem_cons.mp hmem with heq | hmem
      · cases heq
      · exact absurd hmem (not_ended_mem (proceed_spec hr).2.2.1 entry _)
  | turn =>
    simp only [step] at h
    split at h
    · cases h
    · rename_i handler posted hposted
      cases handler with
      | setInterestFilter | unsetInterestFilter =>
        obtain ⟨-, rfl⟩ := Prod.mk.inj (Except.ok.inj h)
        cases hmem
      | removePendingInterest | removeAllPendingInterests =>
        obtain ⟨-, rfl⟩ := Prod.mk.inj (Except.ok.inj h)
        obtain ⟨e, -, heq⟩ := List.mem_map.mp hmem
        cases heq

theorem does_of_run {program : Program App Packet ε} {turns : ℕ} {app : App} {es : List Event}
    (h : Reaches (step program turns) (start app) es s out) : Does (start app) s out := by
  refine Reaches.invariant (I := fun _ s out => Does (start app) s out) (Does.refl _) ?_ h
  intro es s out e s' new hdoes hstep
  exact hdoes.trans (step_does hstep)

/-- A program that asks for one name, and again whenever it is given a Data. -/
def polling : Program Unit Empty Empty where
  onInterest _ _ _ := .ok ((), [])
  onData _ interest _ := .ok ((), [.expressInterest interest])
  onNack _ _ _ := .ok ((), [])
  onTimeout _ _ := .ok ((), [])
  main _ := .ok ((), [.expressInterest
    (Interest.freshInterest 4000 [Component.ofString "a"] 1)])

/-- A Data of this name. -/
def letterData : SignedData :=
  { name := [Component.ofString "a"]
    content := []
    digest := List.replicate Component.sha256DigestSize 0
    digest_length := List.length_replicate
    keyLocator := none }

/-- The callbacks of a program call nothing, and leave its state. -/
structure Idle (program : Program App Packet ε) : Prop where
  onInterest : ∀ app id interest, program.onInterest app id interest = .ok (app, [])
  onData : ∀ app interest data, program.onData app interest data = .ok (app, [])
  onNack : ∀ app interest nack, program.onNack app interest nack = .ok (app, [])
  onTimeout : ∀ app interest, program.onTimeout app interest = .ok (app, [])

theorem proceed_idle {app : App} (h : proceed s (.ok (app, []) : Except ε _) = .ok (s', out)) :
    s'.impl.app = app ∧ out = [] := by
  obtain ⟨rfl, rfl⟩ := Prod.mk.inj (Except.ok.inj h)
  exact ⟨rfl, rfl⟩

theorem processFilters_idle {program : Program App Packet ε} (hidle : Idle program)
    {interest : Interest Name} {filters : List (ℕ × Name)}
    (h : processFilters program interest filters s = .ok (s', out)) :
    s'.impl.app = s.impl.app ∧ out = [] := by
  refine processFilters_keeps (R := fun s s' out => s'.impl.app = s.impl.app ∧ out = [])
    (fun _ => ⟨rfl, rfl⟩) ?_ ?_ h
  · intro _ _ _ out out' hout hout'
    exact ⟨hout'.1.trans hout.1, by rw [hout.2, hout'.2, List.append_nil]⟩
  · intro _ _ _ _ hproceed
    rw [hidle.onInterest] at hproceed
    exact proceed_idle hproceed

theorem calls_idle {outcome : Outcome}
    {callback : App → Interest Name → Except ε (App × List (Call Packet))}
    (hidle : ∀ app interest, callback app interest = .ok (app, []))
    {entries new : List PendingInterest} {impl impl' : Impl App} {out out' : List (Output Packet)}
    (h : calls (invoke outcome callback) entries (impl, out) = .ok ((impl', out'), new)) :
    impl'.app = impl.app ∧ sentInterests out' = sentInterests out := by
  induction entries generalizing impl out new with
  | nil =>
    obtain ⟨hs, -⟩ := Prod.mk.inj (Except.ok.inj h)
    obtain ⟨rfl, rfl⟩ := Prod.mk.inj hs
    exact ⟨rfl, rfl⟩
  | cons entry entries ih =>
    obtain ⟨r, hr, h⟩ := bind_eq_ok h
    obtain ⟨r', hr', h⟩ := bind_eq_ok h
    obtain ⟨hs, -⟩ := Prod.mk.inj (Except.ok.inj h)
    unfold invoke at hr
    rw [hidle, ok_bind] at hr
    obtain rfl := Except.ok.inj hr
    have hpair : r' = ((impl', out'), r'.2) := by rw [← hs]
    rw [hpair] at hr'
    obtain ⟨happ, hsent⟩ := ih hr'
    refine ⟨happ, hsent.trans ?_⟩
    rw [sentInterests_append]
    exact List.append_nil _

theorem endPendingInterests_idle {turns : ℕ} {ends : PendingInterest → Bool} {outcome : Outcome}
    {callback : App → Interest Name → Except ε (App × List (Call Packet))}
    (hidle : ∀ app interest, callback app interest = .ok (app, []))
    (h : endPendingInterests turns ends outcome callback s = .ok (s', out)) :
    s'.impl.app = s.impl.app ∧ sentInterests out = [] := by
  obtain ⟨extra, more, new, hcalls, -⟩ := endPendingInterests_calls h
  exact calls_idle hidle hcalls

/-- Such a program sends only where it begins. -/
theorem step_idle {program : Program App Packet ε} (hidle : Idle program) {turns : ℕ} {e : Event}
    (he : e ≠ .main) (h : step program turns s e = .ok (s', out)) :
    s'.impl.app = s.impl.app ∧ sentInterests out = [] := by
  cases e with
  | main => exact absurd rfl he
  | interest interest =>
    obtain ⟨happ, rfl⟩ := processFilters_idle hidle h
    exact ⟨happ, rfl⟩
  | data data =>
    exact endPendingInterests_idle (fun app interest => hidle.onData app interest data) h
  | nack nack =>
    exact endPendingInterests_idle (fun app interest => hidle.onNack app interest nack) h
  | timeout id =>
    simp only [step, invokeTimeoutCallback] at h
    split at h
    · cases h
    · rw [hidle.onTimeout] at h
      obtain ⟨r, hr, h⟩ := bind_eq_ok h
      obtain ⟨rfl, rfl⟩ := Prod.mk.inj (Except.ok.inj h)
      obtain ⟨happ, hout⟩ := proceed_idle hr
      exact ⟨happ, by rw [hout]; rfl⟩
  | turn =>
    simp only [step] at h
    split at h
    · cases h
    · rename_i handler posted hposted
      cases handler with
      | setInterestFilter | unsetInterestFilter =>
        obtain ⟨rfl, rfl⟩ := Prod.mk.inj (Except.ok.inj h)
        exact ⟨rfl, rfl⟩
      | removePendingInterest | removeAllPendingInterests =>
        obtain ⟨rfl, rfl⟩ := Prod.mk.inj (Except.ok.inj h)
        exact ⟨rfl, sentInterests_map _ _⟩

/-! ### Callbacks that express Interests again -/

/-- The Interests that calls express. -/
def expressedBy (calls : List (Call Packet)) : List (Interest Name) :=
  calls.filterMap fun call => match call with
    | .expressInterest interest => some interest
    | _ => none

theorem expressedBy_append (calls calls' : List (Call Packet)) :
    expressedBy (calls ++ calls') = expressedBy calls ++ expressedBy calls' :=
  List.filterMap_append

theorem performAll_new (impl : Impl App) (calls : List (Call Packet)) :
    (performAll impl calls).2.1 = numbered impl.expressed (expressedBy calls) := by
  induction calls generalizing impl with
  | nil => rfl
  | cons call calls ih =>
    have hone : (perform impl call).2.1 = numbered impl.expressed (expressedBy [call]) ∧
        (perform impl call).1.expressed = impl.expressed + (expressedBy [call]).length := by
      cases call <;> exact ⟨rfl, rfl⟩
    unfold performAll
    dsimp only
    rw [← List.singleton_append, expressedBy_append, numbered_append, ih, ← hone.1, hone.2]

/-- No callback for the Data expresses an Interest that the Data matches. -/
def QuietOn (program : Program App Packet ε) (data : SignedData) : Prop :=
  ∀ app interest app' calls, program.onData app interest data = .ok (app', calls) →
    ∀ next ∈ expressedBy calls, next.matchesData data = false

/-- Every callback for the Data expresses one Interest, and the Data matches it. -/
def PollsOn (program : Program App Packet ε) (data : SignedData) : Prop :=
  ∀ app interest, interest.matchesData data = true → ∃ app' calls next,
    program.onData app interest data = .ok (app', calls) ∧ expressedBy calls = [next] ∧
      next.matchesData data = true

/-- The loop for a Data ends if its callbacks express no Interest that the Data matches. -/
theorem data_ends {program : Program App Packet ε} {data : SignedData}
    (hquiet : QuietOn program data) (s : State App) :
    ∃ turns, step program turns s (.data data) ≠ .error (.failed .turns) := by
  have hdrain : Quiet (fun entry : PendingInterest => entry.interest.matchesData data)
      (invoke (.data data) fun app interest => program.onData app interest data) := by
    intro t entry t' new _ hcall b hb
    obtain ⟨r, hr, hcall⟩ := bind_eq_ok hcall
    obtain ⟨-, rfl⟩ := Prod.mk.inj (Except.ok.inj hcall)
    rw [performAll_new] at hb
    obtain ⟨i, hi, rfl⟩ := List.mem_mapIdx.mp hb
    exact hquiet _ _ _ _ hr _ (List.getElem_mem hi)
  obtain ⟨turns, hturns⟩ := drain_ends hdrain [] s.pendingInterestTable (s.impl, [])
  refine ⟨turns, ?_⟩
  simp only [step, satisfyPendingInterests, endPendingInterests]
  split
  · rename_i failure hfail
    intro h
    obtain rfl := Stop.failed.inj (Except.error.inj h)
    exact hturns hfail
  · simp

/-- **Where every callback expresses again what the Data matches**, the loop for the Data
ends exactly if at most one pending Interest matches it: with two, there is always a next
entry. -/
theorem data_polling_iff {program : Program App Packet ε} {data : SignedData}
    (hpolls : PollsOn program data) (s : State App) :
    (∃ turns r, step program turns s (.data data) = .ok r) ↔
      s.pendingInterestTable.countP (fun entry => entry.interest.matchesData data) ≤ 1 := by
  have hdrain : Polls (fun entry : PendingInterest => entry.interest.matchesData data)
      (invoke (.data data) fun app interest => program.onData app interest data) := by
    intro t entry hmatch
    obtain ⟨app', calls, next, hcall, hexpressed, hnext⟩ := hpolls t.1.app entry.interest hmatch
    have hnew := performAll_new { t.1 with app := app' } calls
    rw [hexpressed] at hnew
    generalize hr : performAll { t.1 with app := app' } calls = r at hnew
    refine ⟨(r.1, t.2 ++ .ended entry (.data data) :: r.2.2), ⟨t.1.expressed, next⟩, ?_, hnext⟩
    unfold invoke
    dsimp only
    rw [hcall, ok_bind]
    dsimp only
    rw [hr, hnew]
    rfl
  rw [← drain_polling_iff hdrain s.pendingInterestTable (s.impl, [])]
  refine exists_congr fun turns => ?_
  simp only [step, satisfyPendingInterests, endPendingInterests]
  split
  · rename_i failure hfail
    simp [hfail]
  · rename_i table impl out hok
    simp [hok]

/-- Of two pending Interests that are expressed again there is always a next one. -/
theorem data_polling_twice : ¬ ∃ turns r, step polling turns
    ⟨[⟨0, Interest.freshInterest 4000 [Component.ofString "a"] 1⟩,
      ⟨1, Interest.freshInterest 4000 [Component.ofString "a"] 1⟩], ⟨[], [], (), 2, 0⟩⟩
    (.data letterData) = .ok r := by
  have hpolls : PollsOn polling letterData := fun _ interest hmatch =>
    ⟨(), [.expressInterest interest], interest, rfl, rfl, hmatch⟩
  rw [data_polling_iff hpolls]
  decide +kernel

end Face
end Ndn
end IcnDemo
