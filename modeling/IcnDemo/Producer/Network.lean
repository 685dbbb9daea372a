/-
# The image producer over the Face

The handlers of `producer_sergi.cpp` as a program of the Face: `onInterest` expresses
the Interest for the image, `onData` puts what it makes of the image. The machine of
`Producer.step` answers one fetch at a time; the Face receives packets, and one Data ends
every pending Interest it matches. What the producer does over the Face is a run of that
machine (`simulated_of_run`), so that every packet it puts answers the first Interest for
its image among those the filter has let through (`packets_of_run`).
-/
import IcnDemo.Ndn.Face
import IcnDemo.Producer.Crashes

namespace IcnDemo
namespace Producer
namespace Network

open Ndn Lib.Drain Lib.Runs Lib.Loop

/-- What the producer holds: its table, the image files, and how many nonces it has
drawn. -/
structure Memory where
  pendingInterest : PendingTable
  files : List (Bytes × Bytes)
  drawn : ℕ

/-- The producer's own part of a state. -/
def Memory.state (m : Memory) : State := ⟨m.pendingInterest, m.files, []⟩

/-- `imgInterest`: its lifetime is `20_s`. -/
def imgInterest (name : Name) (nonce : UInt32) : Interest Name :=
  Interest.freshInterest 20000 name nonce

variable (lib : TextLib) (runTess : Option Bytes → Bytes) (wireSize : Packet → ℕ)
  (random : ℕ → UInt32)

/-- `Face::put` of a signed packet; `wireSize` is the size of its wire. -/
def put (packet : Packet) : Except Stop (Face.Call Packet) :=
  if wireSize packet > maxNdnPacketSize then .error (.thrown "Data size exceeds maximum limit")
  else .ok (.put packet)

/-- The producer; `random` are the words its nonces are drawn from. -/
def program : Face.Program Memory Packet Stop where
  onInterest m _ interest := do
    let s ← onInterest lib m.state interest.name
    let calls ← s.outstanding.mapM fun name =>
      match (imgInterest name (random m.drawn)).express with
      | .error what => .error (.thrown what)
      | .ok pending => .ok (.expressInterest pending)
    .ok (⟨s.pendingInterest, s.files, m.drawn + 1⟩, calls)
  onData m _ data := do
    let r ← onData runTess m.state data.toData
    let calls ← r.2.mapM (put wireSize)
    .ok (⟨r.1.pendingInterest, r.1.files, m.drawn⟩, calls)
  onNack m _ _ := .ok (m, [])
  onTimeout m _ := .ok (m, [])
  main m := .ok (m, [])

/-- After the filter has been registered. -/
def start : Face.State Memory :=
  ⟨[], ⟨[(0, execOcrPrefix)], [], ⟨[], [], 0⟩, 0, 1⟩⟩

/-- The names of the Interests that arrive and that the filter lets through. -/
def accepted (es : List Face.Event) : List Name :=
  es.filterMap fun e => match e with
    | .interest interest =>
      if doesMatch execOcrPrefix interest.name then some interest.name else none
    | _ => none

/-- The image that a request asks for. -/
def fetchName (request : Name) : Option Name := do
  let a ← request[2]?
  let b ← request[3]?
  some [pic, a, b]

/-- What the Face over the producer and the machine have in common. -/
structure Simulates (s : Face.State Memory) (t : State) : Prop where
  pendingInterest : t.pendingInterest = s.impl.app.pendingInterest
  files : t.files = s.impl.app.files
  /-- The fetches outstanding are the pending Interests. -/
  outstanding : t.outstanding.Perm (s.pendingInterestTable.map fun entry => entry.interest.name)
  /-- Names decide what satisfies a pending Interest. -/
  plain : ∀ entry ∈ s.pendingInterestTable, ∀ data,
    entry.interest.matchesData data = matchesData entry.interest.name data.toData
  filters : s.impl.interestFilterTable = [(0, execOcrPrefix)]
  posted : s.impl.posted = []

/-! ### The handlers and the machine -/

variable {lib runTess wireSize random}

theorem mapM_put {packets : List Packet} {calls : List (Face.Call Packet)}
    (h : packets.mapM (put wireSize) = .ok calls) : calls = packets.map .put := by
  induction packets generalizing calls with
  | nil => exact (Except.ok.inj h).symm
  | cons packet packets ih =>
    rw [List.mapM_cons] at h
    obtain ⟨call, hcall, h⟩ := bind_eq_ok h
    obtain ⟨rest, hrest, h⟩ := bind_eq_ok h
    obtain rfl := Except.ok.inj h
    unfold put at hcall
    split at hcall
    · cases hcall
    · rw [← Except.ok.inj hcall, ih hrest]
      rfl

theorem onData_outstanding (s : State) (outstanding : List Name) (data : Data) :
    onData runTess { s with outstanding := outstanding } data =
      (onData runTess s data).map fun r => ({ r.1 with outstanding := outstanding }, r.2) := by
  unfold onData
  cases get data.name 2 with
  | error e => rfl
  | ok c =>
    rw [ok_bind, ok_bind]
    cases s.pendingInterest.lookup c.toUri <;> rfl

/-- A callback of the producer for a pending Interest is a step of the machine that ends
the fetch of its name; it expresses nothing. -/
structure EndsFetch (lib : TextLib) (runTess : Option Bytes → Bytes)
    (accepts : Interest Name → Prop)
    (callback : Memory → Interest Name → Except Stop (Memory × List (Face.Call Packet)))
    (ev : Name → Event) : Prop where
  step : ∀ {m m' : Memory} {interest calls} {t : State}, callback m interest = .ok (m', calls) →
    accepts interest → t.pendingInterest = m.pendingInterest → t.files = m.files →
    interest.name ∈ t.outstanding →
    ∃ ps : List Put, Producer.step lib runTess t (ev interest.name) =
      .ok (⟨m'.pendingInterest, m'.files, t.outstanding.erase interest.name⟩, ps) ∧
      calls = (ps.map (·.packet)).map .put
  puts : ∀ {m m' : Memory} {interest calls}, callback m interest = .ok (m', calls) →
    ∃ packets : List Packet, calls = packets.map .put

theorem onData_endsFetch (data : SignedData) : EndsFetch lib runTess
    (fun interest => matchesData interest.name data.toData = true)
    (fun m interest => (program lib runTess wireSize random).onData m interest data)
    (fun name => .data name data.toData) where
  step := by
    intro m m' interest calls t h haccepts htable hfiles hmem
    obtain ⟨r, hr, h⟩ := bind_eq_ok h
    obtain ⟨calls', hcalls, h⟩ := bind_eq_ok h
    obtain ⟨rfl, rfl⟩ := Prod.mk.inj (Except.ok.inj h)
    obtain rfl := mapM_put hcalls
    have ht : t = { m.state with outstanding := t.outstanding } := by
      obtain ⟨table, files, outstanding⟩ := t
      subst htable hfiles
      rfl
    have hdata : onData runTess t data.toData =
        .ok ({ r.1 with outstanding := t.outstanding }, r.2) := by
      rw [ht, onData_outstanding, hr]
      rfl
    refine ⟨r.2.map (⟨interest.name, data.toData, ·⟩), ?_, ?_⟩
    · rw [Producer.step, if_pos ⟨hmem, haccepts⟩, hdata]
      rfl
    · simp [List.map_map, Function.comp_def]
  puts := by
    intro m m' interest calls h
    obtain ⟨r, -, h⟩ := bind_eq_ok h
    obtain ⟨calls', hcalls, h⟩ := bind_eq_ok h
    obtain ⟨-, rfl⟩ := Prod.mk.inj (Except.ok.inj h)
    exact ⟨r.2, mapM_put hcalls⟩

/-- `onNack` and `onTimeout` do nothing. -/
theorem silent_endsFetch {ev : Name → Event} (hev : ev = .nack ∨ ev = .timeout) :
    EndsFetch lib runTess (fun _ => True) (fun m _ => .ok (m, [])) ev where
  step := by
    intro m m' interest calls t h _ htable hfiles hmem
    obtain ⟨rfl, rfl⟩ := Prod.mk.inj (Except.ok.inj h)
    refine ⟨[], ?_, rfl⟩
    rcases hev with rfl | rfl
    all_goals rw [Producer.step, if_pos hmem, ← htable, ← hfiles]
  puts := by
    intro m m' interest calls h
    obtain ⟨-, rfl⟩ := Prod.mk.inj (Except.ok.inj h)
    exact ⟨[], rfl⟩

/-! ### The pending Interests that one packet ends -/

theorem performAll_puts (impl : Face.Impl Memory) (packets : List Packet) :
    Face.performAll impl (packets.map .put) = (impl, [], packets.map .put) := by
  induction packets with
  | nil => rfl
  | cons packet packets ih =>
    rw [List.map_cons, Face.performAll, Face.perform, ih]
    rfl

theorem putPackets_puts (packets : List Packet) : Face.putPackets (packets.map .put) = packets := by
  induction packets with
  | nil => rfl
  | cons packet packets ih => exact congrArg (packet :: ·) ih

theorem sentInterests_puts (packets : List Packet) :
    Face.sentInterests (packets.map .put : List (Face.Output Packet)) = [] := by
  induction packets with
  | nil => rfl
  | cons packet packets ih => exact ih

/-- **The callbacks of pending Interests are steps of the machine**, one for each. -/
theorem calls_simulated {accepts : Interest Name → Prop}
    {callback : Memory → Interest Name → Except Stop (Memory × List (Face.Call Packet))}
    {ev : Name → Event} (hends : EndsFetch lib runTess accepts callback ev)
    {outcome : Face.Outcome} {entries kept new : List Face.PendingInterest}
    {impl impl' : Face.Impl Memory} {out out' : List (Face.Output Packet)} {t : State}
    (h : calls (Face.invoke outcome callback) entries (impl, out) = .ok ((impl', out'), new))
    (haccepts : ∀ entry ∈ entries, accepts entry.interest)
    (htable : t.pendingInterest = impl.app.pendingInterest) (hfiles : t.files = impl.app.files)
    (hperm : t.outstanding.Perm ((entries ++ kept).map fun entry => entry.interest.name)) :
    ∃ (names : List Name) (t' : State) (ps : List Put),
      run (step lib runTess) t (names.map ev) = .ok (t', ps) ∧
      t'.pendingInterest = impl'.app.pendingInterest ∧ t'.files = impl'.app.files ∧
      t'.outstanding.Perm (kept.map fun entry => entry.interest.name) ∧
      impl'.interestFilterTable = impl.interestFilterTable ∧ impl'.posted = impl.posted ∧
      Face.putPackets out' = Face.putPackets out ++ ps.map (·.packet) ∧
      Face.sentInterests out' = Face.sentInterests out := by
  induction entries generalizing impl out t new with
  | nil =>
    obtain ⟨hs, rfl⟩ := Prod.mk.inj (Except.ok.inj h)
    obtain ⟨rfl, rfl⟩ := Prod.mk.inj hs
    exact ⟨[], t, [], rfl, htable, hfiles, hperm, rfl, rfl, by simp, rfl⟩
  | cons entry entries ih =>
    obtain ⟨hentry, haccepts⟩ := List.forall_mem_cons.mp haccepts
    obtain ⟨r, hr, h⟩ := bind_eq_ok h
    obtain ⟨r', hr', h⟩ := bind_eq_ok h
    obtain ⟨hs, rfl⟩ := Prod.mk.inj (Except.ok.inj h)
    obtain ⟨c, hc, hr⟩ := bind_eq_ok hr
    obtain rfl := Except.ok.inj hr
    have hmem : entry.interest.name ∈ t.outstanding := by
      rw [hperm.mem_iff]
      simp
    obtain ⟨ps, hstep, hcalls⟩ := hends.step hc hentry htable hfiles hmem
    rw [hcalls, performAll_puts] at hr'
    -- the fetch that the machine ends is the entry's, or another of its name
    have hrest : (t.outstanding.erase entry.interest.name).Perm
        ((entries ++ kept).map fun entry => entry.interest.name) := by
      have herase := hperm.erase entry.interest.name
      rwa [List.cons_append, List.map_cons, List.erase_cons_head] at herase
    have hpair : r' = ((impl', out'), r'.2) := by rw [← hs]
    rw [hpair] at hr'
    obtain ⟨names, t', ps', hrun, htable', hfiles', hperm', hfilters, hposted, hout, hsent⟩ :=
      ih (t := ⟨c.1.pendingInterest, c.1.files, t.outstanding.erase entry.interest.name⟩) hr'
        haccepts rfl rfl hrest
    refine ⟨entry.interest.name :: names, t', ps ++ ps', ?_, htable', hfiles', hperm', hfilters,
      hposted, ?_, ?_⟩
    · rw [List.map_cons, run, hstep, ok_bind, hrun]
      rfl
    · rw [hout, Face.putPackets_append, List.map_append]
      change Face.putPackets out ++ Face.putPackets ((ps.map (·.packet)).map .put) ++ _ = _
      rw [putPackets_puts, List.append_assoc]
    · rw [hsent, Face.sentInterests_append]
      change _ ++ Face.sentInterests ((ps.map (·.packet)).map .put) = _
      rw [sentInterests_puts, List.append_nil]

/-- What one event of the Face is to the machine. -/
structure Answers (lib : TextLib) (runTess : Option Bytes → Bytes) (e : Face.Event)
    (s' : Face.State Memory) (out : List (Face.Output Packet)) (t : State) (es : List Event)
    (t' : State) (ps : List Put) : Prop where
  run : run (step lib runTess) t es = .ok (t', ps)
  simulates : Simulates s' t'
  requests : requests es = accepted [e]
  data : ∀ fetch d, Event.data fetch d ∈ es → ∃ data, e = .data data ∧ d = data.toData
  put : Face.putPackets out = ps.map (·.packet)
  sent : (Face.sentInterests out).map (fun interest => interest.name) =
    (accepted [e]).filterMap fetchName

theorem requests_ended {ev : Name → Event} (hev : ∀ name, requests [ev name] = [])
    (names : List Name) : requests (names.map ev) = [] := by
  induction names with
  | nil => rfl
  | cons name names ih =>
    rw [List.map_cons, ← List.singleton_append, requests_append, hev, ih]
    rfl

/-- A loop over the pending Interests. -/
theorem endPendingInterests_simulated {accepts : Interest Name → Prop}
    {callback : Memory → Interest Name → Except Stop (Memory × List (Face.Call Packet))}
    {ev : Name → Event} (hends : EndsFetch lib runTess accepts callback ev)
    {turns : ℕ} {ends : Face.PendingInterest → Bool} {outcome : Face.Outcome}
    {s s' : Face.State Memory} {out : List (Face.Output Packet)} {t : State}
    (hsim : Simulates s t)
    (haccepts : ∀ entry ∈ s.pendingInterestTable, ends entry = true → accepts entry.interest)
    (h : Face.endPendingInterests turns ends outcome callback s = .ok (s', out)) :
    ∃ (names : List Name) (t' : State) (ps : List Put),
      run (step lib runTess) t (names.map ev) = .ok (t', ps) ∧ Simulates s' t' ∧
      Face.putPackets out = ps.map (·.packet) ∧ Face.sentInterests out = [] := by
  have hnothing : ∀ (st st' : Face.Impl Memory × List (Face.Output Packet)) entry new,
      Face.invoke outcome callback st entry = .ok (st', new) → new = [] := by
    intro st st' entry new hcall
    obtain ⟨r, hr, hcall⟩ := bind_eq_ok hcall
    obtain ⟨-, rfl⟩ := Prod.mk.inj (Except.ok.inj hcall)
    obtain ⟨packets, hputs⟩ := hends.puts hr
    rw [hputs, performAll_puts]
  have hquiet : Quiet ends (Face.invoke outcome callback) := by
    intro st entry st' new _ hcall b hb
    rw [hnothing st st' entry new hcall] at hb
    cases hb
  unfold Face.endPendingInterests at h
  split at h
  · cases h
  · rename_i table impl out' hdrain
    obtain ⟨rfl, rfl⟩ := Prod.mk.inj (Except.ok.inj h)
    obtain ⟨new, hcalls, rfl⟩ := drain_quiet hquiet hdrain
    obtain rfl : new = [] := calls_nothing hnothing hcalls
    have hparts : t.outstanding.Perm ((s.pendingInterestTable.filter ends ++
        s.pendingInterestTable.filter fun entry => !ends entry).map
          fun entry => entry.interest.name) :=
      hsim.outstanding.trans ((List.filter_append_perm ends s.pendingInterestTable).map _).symm
    have hentries : ∀ entry ∈ s.pendingInterestTable.filter ends, accepts entry.interest := by
      intro entry hmem
      obtain ⟨hin, hend⟩ := List.mem_filter.mp hmem
      exact haccepts entry hin hend
    obtain ⟨names, t', ps, hrun, htable, hfiles, hperm, hfilters, hposted, hput, hsent⟩ :=
      calls_simulated hends hcalls hentries hsim.pendingInterest hsim.files hparts
    refine ⟨names, t', ps, hrun, ?_, hput, hsent⟩
    refine ⟨htable, hfiles, ?_, ?_, hfilters.trans hsim.filters, hposted.trans hsim.posted⟩
    · rwa [List.append_nil]
    · intro entry hmem
      rw [List.append_nil] at hmem
      exact hsim.plain entry (List.mem_of_mem_filter hmem)

/-! ### A run of the Face over the producer -/

theorem onInterest_calls {m m' : Memory} {id : ℕ} {interest : Interest Name}
    {calls : List (Face.Call Packet)}
    (h : (program lib runTess wireSize random).onInterest m id interest = .ok (m', calls)) :
    ∃ a b pending, interest.name[2]? = some a ∧ interest.name[3]? = some b ∧
      imgName lib a b = .ok [pic, a, b] ∧ calls = [.expressInterest pending] ∧
      pending.name = [pic, a, b] ∧
      (∀ data, pending.matchesData data = matchesData pending.name data.toData) ∧
      m' = ⟨m.pendingInterest.insert b.toUri interest.name, m.files, m.drawn + 1⟩ := by
  obtain ⟨s, hs, h⟩ := bind_eq_ok h
  obtain ⟨a, ha, hs⟩ := bind_eq_ok hs
  obtain ⟨b, hb, hs⟩ := bind_eq_ok hs
  cases himg : imgName lib a b with
  | error what => simp [himg] at hs
  | ok img =>
    simp only [himg, Except.ok.injEq] at hs
    obtain rfl := imgName_ok lib himg
    obtain ⟨hva, hvb⟩ := (imgName_ok_iff lib).mp ⟨_, himg⟩
    obtain ⟨calls', hcalls, h⟩ := bind_eq_ok h
    obtain ⟨rfl, rfl⟩ := Prod.mk.inj (Except.ok.inj h)
    subst hs
    cases hexp : (imgInterest [pic, a, b] (random m.drawn)).express with
    | error what => simp [Memory.state, hexp] at hcalls
    | ok pending =>
      have hvalid : ∀ c ∈ [pic, a, b], c.Valid := by
        intro c hc
        simp only [List.mem_cons, List.not_mem_nil, or_false] at hc
        rcases hc with rfl | rfl | rfl
        · decide
        · exact hva
        · exact hvb
      obtain ⟨hname, hplain⟩ := Interest.express_freshInterest (by omega) hexp hvalid
      refine ⟨a, b, pending, get_ok ha, get_ok hb, himg, ?_, hname, hplain, rfl⟩
      simpa [Memory.state, hexp, eq_comm] using hcalls

theorem step_request {s : State} {name : Name} {a b : Component}
    (hfilter : doesMatch execOcrPrefix name = true) (ha : name[2]? = some a)
    (hb : name[3]? = some b) (himg : imgName lib a b = .ok [pic, a, b]) :
    step lib runTess s (.interest name) = .ok ({ s with
      outstanding := s.outstanding ++ [[pic, a, b]]
      pendingInterest := s.pendingInterest.insert b.toUri name }, []) := by
  rw [step, if_pos hfilter, onInterest, get_of_some ha, ok_bind, get_of_some hb, ok_bind, himg]
  rfl

variable {s s' : Face.State Memory} {t : State} {out : List (Face.Output Packet)} {turns : ℕ}

/-- An Interest that arrives. -/
theorem interest_simulated {interest : Interest Name} (hsim : Simulates s t)
    (h : Face.processInterestFilters (program lib runTess wireSize random) s interest = .ok (s', out)) :
    ∃ es t' ps, Answers lib runTess (.interest interest) s' out t es t' ps := by
  unfold Face.processInterestFilters at h
  rw [hsim.filters, Face.processFilters, Face.processFilters] at h
  by_cases hfilter : doesMatch execOcrPrefix interest.name = true
  · have haccepted : accepted [.interest interest] = [interest.name] := by
      simp [accepted, hfilter]
    have hprefix : execOcrPrefix.isPrefixOf interest.name = true := hfilter
    rw [if_pos hprefix] at h
    obtain ⟨r, hr, h⟩ := bind_eq_ok h
    obtain ⟨rfl, rfl⟩ := Prod.mk.inj (Except.ok.inj h)
    unfold Face.proceed at hr
    split at hr
    · cases hr
    · rename_i m calls hcall
      obtain rfl := Except.ok.inj hr
      obtain ⟨a, b, pending, ha, hb, himg, rfl, hname, hplain, rfl⟩ := onInterest_calls hcall
      refine ⟨[.interest interest.name], { t with
        outstanding := t.outstanding ++ [[pic, a, b]]
        pendingInterest := t.pendingInterest.insert b.toUri interest.name }, [],
        ?_, ?_, ?_, ?_, ?_, ?_⟩
      · rw [run, step_request hfilter ha hb himg]
        rfl
      · refine ⟨?_, hsim.files, ?_, ?_, hsim.filters, hsim.posted⟩
        · exact congrArg (PendingTable.insert · b.toUri interest.name) hsim.pendingInterest
        · simpa [Face.performAll, Face.perform, hname] using
            hsim.outstanding.append_right [[pic, a, b]]
        · intro entry hmem
          rcases List.mem_append.mp hmem with hmem | hmem
          · exact hsim.plain entry hmem
          · obtain rfl := List.mem_singleton.mp hmem
            exact hplain
      · exact haccepted.symm
      · intro fetch d hd
        simp at hd
      · rfl
      · simp [haccepted, fetchName, ha, hb, Face.performAll, Face.perform, Face.sentInterests,
          hname]
  · have haccepted : accepted [.interest interest] = [] := by simp [accepted, hfilter]
    have hprefix : ¬ execOcrPrefix.isPrefixOf interest.name = true := hfilter
    rw [if_neg hprefix] at h
    obtain ⟨rfl, rfl⟩ := Prod.mk.inj (Except.ok.inj h)
    refine ⟨[], t, [], rfl, hsim, haccepted.symm, ?_, rfl, ?_⟩
    · intro fetch d hd
      cases hd
    · rw [haccepted]
      rfl

/-- A pending Interest that runs out of time. -/
theorem timeout_simulated {id : ℕ} (hsim : Simulates s t)
    (h : Face.invokeTimeoutCallback (program lib runTess wireSize random) s id = .ok (s', out)) :
    ∃ es t' ps, Answers lib runTess (.timeout id) s' out t es t' ps := by
  unfold Face.invokeTimeoutCallback at h
  split at h
  · cases h
  · rename_i entry hfind
    obtain ⟨r, hr, h⟩ := bind_eq_ok h
    obtain ⟨rfl, rfl⟩ := Prod.mk.inj (Except.ok.inj h)
    obtain rfl := Except.ok.inj hr
    have hmem : entry.interest.name ∈ t.outstanding := by
      rw [hsim.outstanding.mem_iff]
      exact List.mem_map_of_mem (List.mem_of_find?_eq_some hfind)
    refine ⟨[.timeout entry.interest.name],
      { t with outstanding := t.outstanding.erase entry.interest.name }, [],
      ?_, ?_, rfl, ?_, rfl, rfl⟩
    · rw [run, step, if_pos hmem]
      rfl
    · refine ⟨hsim.pendingInterest, hsim.files, ?_, ?_, hsim.filters, hsim.posted⟩
      · have hended := (Face.perm_ended hfind [] []).map fun entry => entry.interest.name
        rw [List.map_append, List.append_nil, List.append_nil, List.map_cons, List.map_nil] at hended
        have hcons := hsim.outstanding.trans (hended.symm.trans List.perm_append_comm)
        have herase := hcons.erase entry.interest.name
        rw [List.singleton_append, List.erase_cons_head] at herase
        simpa [Face.performAll] using herase
      · intro e he
        apply hsim.plain e
        simpa [Face.performAll] using List.mem_of_mem_eraseP he
    · intro fetch d hd
      simp at hd

/-- **Every event of the Face is events of the machine.** -/
theorem step_simulated {e : Face.Event} (hsim : Simulates s t)
    (h : Face.step (program lib runTess wireSize random) turns s e = .ok (s', out)) :
    ∃ es t' ps, Answers lib runTess e s' out t es t' ps := by
  cases e with
  | main =>
    obtain ⟨rfl, rfl⟩ := Prod.mk.inj (Except.ok.inj h)
    refine ⟨[], t, [], rfl, ?_, rfl, ?_, rfl, rfl⟩
    · simpa [Face.performAll] using hsim
    · intro fetch d hd
      cases hd
  | interest interest => exact interest_simulated hsim h
  | data data =>
    obtain ⟨names, t', ps, hrun, hsim', hput, hsent⟩ := endPendingInterests_simulated
      (onData_endsFetch data) hsim (fun entry hmem hmatch => by
        rw [← hsim.plain entry hmem]
        exact hmatch) h
    refine ⟨names.map fun name => .data name data.toData, t', ps, hrun, hsim', ?_, ?_, hput, ?_⟩
    · exact requests_ended (fun _ => rfl) names
    · intro fetch d hd
      obtain ⟨name, -, hd⟩ := List.mem_map.mp hd
      obtain ⟨rfl, rfl⟩ := Event.data.inj hd
      exact ⟨data, rfl, rfl⟩
    · rw [hsent]
      rfl
  | nack nack =>
    obtain ⟨names, t', ps, hrun, hsim', hput, hsent⟩ := endPendingInterests_simulated
      (silent_endsFetch (Or.inl rfl)) hsim (fun _ _ _ => trivial) h
    refine ⟨names.map .nack, t', ps, hrun, hsim', ?_, ?_, hput, ?_⟩
    · exact requests_ended (fun _ => rfl) names
    · intro fetch d hd
      simp at hd
    · rw [hsent]
      rfl
  | timeout id => exact timeout_simulated hsim h
  | turn =>
    simp only [Face.step, hsim.posted] at h
    cases h

/-- What a run of the Face over the producer is to the machine. -/
structure Simulated (lib : TextLib) (runTess : Option Bytes → Bytes) (fes : List Face.Event)
    (s : Face.State Memory) (out : List (Face.Output Packet)) (es : List Event) (t : State)
    (ps : List Put) : Prop where
  run : Run lib runTess es t ps
  simulates : Simulates s t
  requests : requests es = accepted fes
  data : ∀ fetch d, Event.data fetch d ∈ es → ∃ data, Face.Event.data data ∈ fes ∧ d = data.toData
  put : Face.putPackets out = ps.map (·.packet)
  sent : (Face.sentInterests out).map (fun interest => interest.name) =
    (accepted fes).filterMap fetchName

/-- **A run of the Face over the producer is a run of the machine.** -/
theorem simulated_of_run {fes : List Face.Event}
    (h : Reaches (Face.step (program lib runTess wireSize random) turns) start fes s out) :
    ∃ es t ps, Simulated lib runTess fes s out es t ps := by
  refine Reaches.invariant (I := fun fes s out => ∃ es t ps,
    Simulated lib runTess fes s out es t ps) ?_ ?_ h
  · refine ⟨[], State.start, [], .nil, ⟨rfl, rfl, .refl _, ?_, rfl, rfl⟩, rfl, ?_, rfl, rfl⟩
    · intro entry hmem
      cases hmem
    · intro fetch d hd
      cases hd
  · intro fes s out e s' new hsim hstep
    obtain ⟨es, t, ps, hsim⟩ := hsim
    obtain ⟨es', t', ps', hans⟩ := step_simulated hsim.simulates hstep
    have haccepted : accepted (fes ++ [e]) = accepted fes ++ accepted [e] := List.filterMap_append
    refine ⟨es ++ es', t', ps ++ ps', hsim.run.append_run hans.run, hans.simulates, ?_, ?_, ?_, ?_⟩
    · rw [requests_append, hsim.requests, hans.requests, haccepted]
    · intro fetch d hd
      rcases List.mem_append.mp hd with hd | hd
      · obtain ⟨data, hmem, rfl⟩ := hsim.data fetch d hd
        exact ⟨data, List.mem_append_left _ hmem, rfl⟩
      · obtain ⟨data, rfl, rfl⟩ := hans.data fetch d hd
        exact ⟨data, by simp, rfl⟩
    · rw [Face.putPackets_append, hsim.put, hans.put, List.map_append]
    · rw [Face.sentInterests_append, List.map_append, hsim.sent, hans.sent, haccepted,
        List.filterMap_append]

/-- What the machine receives for a fetch satisfies it, and has a component 2. -/
theorem delivered_of_run {es : List Event} {t : State} {ps : List Put}
    (h : Run lib runTess es t ps) {fetch : Name} {d : Data} (hd : Event.data fetch d ∈ es) :
    matchesData fetch d = true ∧ ∃ c, d.name[2]? = some c := by
  induction h with
  | nil => cases hd
  | snoc _ hstep ih =>
    rcases List.mem_append.mp hd with hd | hd
    · exact ih hd
    · obtain rfl := List.mem_singleton.mp hd
      obtain ⟨-, hmatch, c, hc, -, -⟩ := step_data hstep
      exact ⟨hmatch, c, hc⟩

/-- **What the producer does over the Face.** Each Interest that the filter lets through
leads to one Interest for its image. Every packet put is the text of an image that has
arrived, under the name of the first of those Interests whose component 3 is the image's
component 2. -/
theorem packets_of_run {fes : List Face.Event}
    (h : Reaches (Face.step (program lib runTess wireSize random) turns) start fes s out) :
    (Face.sentInterests out).map (fun interest => interest.name) =
      (accepted fes).filterMap fetchName ∧
    ∀ packet ∈ Face.putPackets out, ∃ b data, Face.Event.data data ∈ fes ∧ data.name[2]? = some b ∧
      (accepted fes).find? (fun name => name[3]? = some b) = some packet.name ∧
      packet.content = runTess (some data.content) := by
  obtain ⟨es, t, ps, hsim⟩ := simulated_of_run h
  refine ⟨hsim.sent, fun packet hpacket => ?_⟩
  rw [hsim.put] at hpacket
  obtain ⟨p, hp, rfl⟩ := List.mem_map.mp hpacket
  obtain ⟨a, b, hfetch, hmem, hfirst, hcontent⟩ := (Inv.of_run hsim.run).puts p hp
  obtain ⟨data, hdata, hd⟩ := hsim.data _ _ hmem
  obtain ⟨hmatch, c, hc⟩ := delivered_of_run hsim.run hmem
  rw [hfetch] at hmatch
  obtain rfl := component_of_matches hmatch hc
  rw [firstRequest, hsim.requests] at hfirst
  rw [hd] at hc hcontent
  exact ⟨c, data, hdata, hc, hfirst, hcontent⟩

/-- The image of the phone at `10.0.0.<n>`, of one byte. -/
def phonePicture (n : String) (pixel : UInt8) : SignedData :=
  { name := [pic, Component.ofString ("10.0.0." ++ n), Component.ofString "pic.jpg"]
    content := [pixel]
    digest := List.replicate Component.sha256DigestSize pixel
    digest_length := List.length_replicate
    keyLocator := none }

/-- A phone asks twice for one image, and it arrives. -/
def askedTwice : List Face.Event :=
  [.interest (imgInterest (phoneRequest "1") 1), .interest (imgInterest (phoneRequest "1") 2),
    .data (phonePicture "1" 7)]

/-- The producer with an `echo` for `run_tess`, whose packets have 200 octets around the
text. -/
def echoProgram : Face.Program Memory Packet Stop :=
  program TextLib.reference echo (fun packet => packet.content.length + 200) fun _ => 0

/-- The packet is put once for each of the two. -/
theorem packets_of_run_phone : ∃ s out,
    Reaches (Face.step echoProgram 10) start askedTwice s out ∧
      Face.putPackets out = [⟨phoneRequest "1", [7]⟩, ⟨phoneRequest "1", [7]⟩] ∧
      (Face.sentInterests out).map (fun interest => interest.name) =
        (accepted askedTwice).filterMap fetchName ∧
      ∀ packet ∈ Face.putPackets out, ∃ b data, Face.Event.data data ∈ askedTwice ∧
        data.name[2]? = some b ∧
        (accepted askedTwice).find? (fun name => name[3]? = some b) = some packet.name ∧
        packet.content = echo (some data.content) := by
  obtain ⟨⟨s, out⟩, hrun, hp⟩ := exists_ok_of_any
    (x := run (Face.step echoProgram 10) start askedTwice)
    (p := fun r => Face.putPackets r.2 = [⟨phoneRequest "1", [7]⟩, ⟨phoneRequest "1", [7]⟩])
    (by decide +kernel)
  exact ⟨s, out, reaches_run hrun, of_decide_eq_true hp, packets_of_run (reaches_run hrun)⟩

end Network
end Producer
end IcnDemo
