/-
# Which request an image answers

In every run `pendingInterest` is the table of first requests: under the URI of
`b` stands the first request of the run whose component 3 is `b` (`Inv`). So an
image always finds a request with its own last component
(`image_finds_request`); and it finds the request it was fetched for exactly
when the first request for that component came with the same address
(`owned_iff_firstAsked`).
-/
import IcnDemo.Producer.Sergi

namespace IcnDemo
namespace Producer

open Ndn Lib.Loop Lib.Runs

/-- The names of the Interests received, in order. -/
def requests (es : List Event) : List Name :=
  es.filterMap fun e => match e with
    | .interest name => some name
    | _ => none

/-- The first request whose component 3 is `b`. -/
def firstRequest (es : List Event) (b : Component) : Option Name :=
  (requests es).find? fun name => name[3]? = some b

/-- The packet goes to who asked for the image it is made of: the fetch was
under the components 2 and 3 of the packet's name. -/
def Owned (runTess : Option Bytes → Bytes) (p : Put) : Prop :=
  ∃ a b, p.packet.name[2]? = some a ∧ p.packet.name[3]? = some b ∧ p.fetch = [pic, a, b] ∧
    p.packet.content = runTess (some p.data.content)

/-- Every image that arrives was first asked for with the address it was
fetched from. -/
def FirstAsked (es : List Event) : Prop :=
  ∀ a b d, Event.data [pic, a, b] d ∈ es →
    ∃ name, firstRequest es b = some name ∧ name[2]? = some a

/-! ### First requests -/

theorem requests_append (es es' : List Event) :
    requests (es ++ es') = requests es ++ requests es' := List.filterMap_append

theorem firstRequest_append (es es' : List Event) (b : Component) :
    firstRequest (es ++ es') b = (firstRequest es b).or (firstRequest es' b) := by
  rw [firstRequest, requests_append, List.find?_append]
  rfl

theorem firstRequest_append_of_some {es : List Event} {b : Component} {name : Name}
    (h : firstRequest es b = some name) (es' : List Event) :
    firstRequest (es ++ es') b = some name := by
  rw [firstRequest_append, h]; rfl

theorem firstRequest_interest (name : Name) (b : Component) :
    firstRequest [.interest name] b = if name[3]? = some b then some name else none := by
  simp only [firstRequest, requests, List.filterMap_cons, List.filterMap_nil, List.find?_cons,
    List.find?_nil]
  split <;> simp_all

theorem component_of_firstRequest {es : List Event} {b : Component} {name : Name}
    (h : firstRequest es b = some name) : name[3]? = some b := by
  simpa using List.find?_some h

theorem mem_of_firstRequest {es : List Event} {b : Component} {name : Name}
    (h : firstRequest es b = some name) : name ∈ requests es :=
  List.mem_of_find?_eq_some h

theorem firstRequest_of_mem {es : List Event} {b : Component} {name : Name}
    (hmem : name ∈ requests es) (hb : name[3]? = some b) :
    ∃ name', firstRequest es b = some name' := by
  rw [← Option.isSome_iff_exists, firstRequest, List.find?_isSome]
  exact ⟨name, hmem, by simpa using hb⟩

/-! ### The invariant -/

variable {lib : TextLib} {runTess : Option Bytes → Bytes}

/-- What holds in every state a run reaches. -/
structure Inv (runTess : Option Bytes → Bytes) (es : List Event) (s : State)
    (out : List Put) : Prop where
  /-- The table is that of the first requests. -/
  lookup : ∀ b : Component, s.pendingInterest.lookup b.toUri = firstRequest es b
  keys : ∀ e ∈ s.pendingInterest, ∃ b, e.2[3]? = some b ∧ e.1 = b.toUri ∧ e.2 ∈ requests es
  fetches : ∀ f ∈ s.outstanding, ∃ a b name, f = [pic, a, b] ∧ name ∈ requests es ∧
    name[2]? = some a ∧ name[3]? = some b
  puts : ∀ p ∈ out, ∃ a b, p.fetch = [pic, a, b] ∧ Event.data p.fetch p.data ∈ es ∧
    firstRequest es b = some p.packet.name ∧ p.packet.content = runTess (some p.data.content)
  answered : ∀ f d, Event.data f d ∈ es → ∃ p ∈ out, p.fetch = f ∧ p.data = d

theorem Inv.start : Inv runTess [] State.start [] where
  lookup _ := rfl
  keys _ h := by cases h
  fetches _ h := by cases h
  puts _ h := by cases h
  answered _ _ h := by cases h

/-- A put stays justified as the run goes on. -/
theorem puts_mono {es : List Event} {out : List Put}
    (h : ∀ p ∈ out, ∃ a b, p.fetch = [pic, a, b] ∧ Event.data p.fetch p.data ∈ es ∧
      firstRequest es b = some p.packet.name ∧ p.packet.content = runTess (some p.data.content))
    (es' : List Event) :
    ∀ p ∈ out, ∃ a b, p.fetch = [pic, a, b] ∧ Event.data p.fetch p.data ∈ es ++ es' ∧
      firstRequest (es ++ es') b = some p.packet.name ∧
      p.packet.content = runTess (some p.data.content) := by
  intro p hp
  obtain ⟨a, b, hf, hmem, hreq, hres⟩ := h p hp
  exact ⟨a, b, hf, List.mem_append_left _ hmem, firstRequest_append_of_some hreq es', hres⟩

/-- An event that is no request and only ends fetches keeps the table's part of
the invariant. -/
theorem Inv.quiet {es : List Event} {s s' : State} {out : List Put} {e : Event}
    (hI : Inv runTess es s out) (hreq : requests [e] = [])
    (htab : s'.pendingInterest = s.pendingInterest)
    (hsub : ∀ f ∈ s'.outstanding, f ∈ s.outstanding) {new : List Put}
    (hputs : ∀ p ∈ new, ∃ a b, p.fetch = [pic, a, b] ∧ e = .data p.fetch p.data ∧
      firstRequest es b = some p.packet.name ∧ p.packet.content = runTess (some p.data.content))
    (hans : ∀ f d, e = .data f d → ∃ p ∈ new, p.fetch = f ∧ p.data = d) :
    Inv runTess (es ++ [e]) s' (out ++ new) := by
  have hsame : requests (es ++ [e]) = requests es := by
    rw [requests_append, hreq, List.append_nil]
  have hfirst : ∀ b, firstRequest (es ++ [e]) b = firstRequest es b := fun b => by
    rw [firstRequest, firstRequest, hsame]
  refine ⟨fun b => by rw [htab, hfirst, hI.lookup b], ?_, ?_, ?_, ?_⟩
  · rw [htab, hsame]; exact hI.keys
  · intro f hf
    rw [hsame]
    exact hI.fetches f (hsub f hf)
  · intro p hp
    rcases List.mem_append.mp hp with hp | hp
    · exact puts_mono hI.puts [e] p hp
    · obtain ⟨a, b, hf, he, hreq, hres⟩ := hputs p hp
      exact ⟨a, b, hf, by rw [he]; simp, by rw [hfirst]; exact hreq, hres⟩
  · intro f d hd
    rcases List.mem_append.mp hd with hd | hd
    · obtain ⟨p, hp, h⟩ := hI.answered f d hd
      exact ⟨p, List.mem_append_left _ hp, h⟩
    · obtain ⟨p, hp, h⟩ := hans f d (List.mem_singleton.mp hd).symm
      exact ⟨p, List.mem_append_right _ hp, h⟩

theorem Inv.interest {es : List Event} {s s' : State} {out new : List Put} {name : Name}
    (hI : Inv runTess es s out) (h : step lib runTess s (.interest name) = .ok (s', new)) :
    Inv runTess (es ++ [.interest name]) s' (out ++ new) := by
  obtain ⟨a, b, ha, hb, rfl, rfl⟩ := step_interest h
  have hnew : name ∈ requests (es ++ [.interest name]) := by
    rw [requests_append]; simp [requests]
  have hold : ∀ n ∈ requests es, n ∈ requests (es ++ [.interest name]) := fun n hn => by
    rw [requests_append]; exact List.mem_append_left _ hn
  refine ⟨fun c => ?_, ?_, ?_, ?_, ?_⟩
  · rw [lookup_insert, hI.lookup c, firstRequest_append, firstRequest_interest, hb]
    congr 1
    by_cases hcb : c = b
    · simp [hcb]
    · have hne : c.toUri ≠ b.toUri := fun heq => hcb (Component.toUri_injective heq)
      rw [if_neg hne, if_neg fun heq => hcb (Option.some.inj heq).symm]
  · intro e he
    rcases mem_insert he with he | rfl
    · obtain ⟨c, h3, hk, hr⟩ := hI.keys e he
      exact ⟨c, h3, hk, hold _ hr⟩
    · exact ⟨b, hb, rfl, hnew⟩
  · intro f hf
    rcases List.mem_append.mp hf with hf | hf
    · obtain ⟨a', b', n, hf, hn, h2, h3⟩ := hI.fetches f hf
      exact ⟨a', b', n, hf, hold _ hn, h2, h3⟩
    · exact ⟨a, b, name, List.mem_singleton.mp hf, hnew, ha, hb⟩
  · rw [List.append_nil]; exact puts_mono hI.puts _
  · intro f d hd
    rw [List.append_nil]
    apply hI.answered f d
    simpa using hd

theorem Inv.data {es : List Event} {s s' : State} {out new : List Put} {fetch : Name} {d : Data}
    (hI : Inv runTess es s out) (h : step lib runTess s (.data fetch d) = .ok (s', new)) :
    Inv runTess (es ++ [.data fetch d]) s' (out ++ new) := by
  obtain ⟨hout, hmatch, c, hc, rfl, rfl⟩ := step_data h
  obtain ⟨a, b, n, rfl, hn, -, hb⟩ := hI.fetches fetch hout
  obtain rfl := component_of_matches hmatch hc
  obtain ⟨name, hname⟩ := firstRequest_of_mem hn hb
  have hput : (s.pendingInterest.lookup c.toUri).toList.map
      (fun dataName => (⟨[pic, a, c], d, ⟨dataName, runTess (some d.content)⟩⟩ : Put)) =
      [⟨[pic, a, c], d, ⟨name, runTess (some d.content)⟩⟩] := by
    rw [hI.lookup c, hname]; rfl
  rw [hput]
  refine hI.quiet ?_ ?_ ?_ ?_ ?_
  · rfl
  · rfl
  · exact fun f hf => List.mem_of_mem_erase hf
  · intro p hp
    obtain rfl := List.mem_singleton.mp hp
    exact ⟨a, c, rfl, rfl, hname, rfl⟩
  · rintro f d' heq
    cases heq
    exact ⟨_, List.mem_singleton_self _, rfl, rfl⟩

theorem Inv.ended {es : List Event} {s s' : State} {out new : List Put} {fetch : Name} {e : Event}
    (he : e = .nack fetch ∨ e = .timeout fetch) (hI : Inv runTess es s out)
    (h : step lib runTess s e = .ok (s', new)) : Inv runTess (es ++ [e]) s' (out ++ new) := by
  obtain ⟨rfl, rfl⟩ := step_ended he h
  refine hI.quiet ?_ ?_ ?_ ?_ ?_
  · rcases he with rfl | rfl <;> rfl
  · rfl
  · exact fun f hf => List.mem_of_mem_erase hf
  · intro p hp; cases hp
  · intro f d heq
    rcases he with rfl | rfl <;> cases heq

/-- **The table of every run is that of its first requests.** -/
theorem Inv.of_run {es : List Event} {s : State} {out : List Put} (h : Run lib runTess es s out) :
    Inv runTess es s out := by
  refine h.invariant Inv.start fun es s out e s' new hI hs => ?_
  cases e with
  | interest name => exact hI.interest hs
  | data fetch d => exact hI.data hs
  | nack fetch => exact hI.ended (Or.inl rfl) hs
  | timeout fetch => exact hI.ended (Or.inr rfl) hs

/-! ### Images and requests -/

/-- **Every fetched image finds a request.** The fetch for a request of valid
components is named `/pic/a/b`; the table's keys are the URIs of component 3 of
requests received; every outstanding fetch has its key; so a Data of three
components that satisfies one finds a request received earlier, with the same
last component. -/
theorem image_finds_request (lib : TextLib) (runTess : Option Bytes → Bytes) {es : List Event}
    {s : State} {out : List Put} (h : Run lib runTess es s out) :
    (∀ (name : Name) (a b : Component), doesMatch execOcrPrefix name = true →
      name[2]? = some a → name[3]? = some b → a.Valid → b.Valid →
      imgName lib a b = .ok [pic, a, b] ∧
      ∃ s', step lib runTess s (.interest name) = .ok (s', []) ∧
        s'.outstanding = s.outstanding ++ [[pic, a, b]]) ∧
    (∀ key name, (key, name) ∈ s.pendingInterest →
      ∃ b, name[3]? = some b ∧ key = b.toUri ∧ name ∈ requests es) ∧
    (∀ f ∈ s.outstanding, ∃ b, f[2]? = some b ∧
      (s.pendingInterest.lookup b.toUri).isSome = true) ∧
    (∀ f ∈ s.outstanding, ∀ d : Data, (f <+: d.name ∨ f = d.fullName) → 3 ≤ d.name.length →
      ∃ b name s', d.name[2]? = some b ∧ s.pendingInterest.lookup b.toUri = some name ∧
        onData runTess s d = .ok (s', [⟨name, runTess (some d.content)⟩]) ∧
        name ∈ requests es ∧ name[3]? = some b) := by
  have hI := Inv.of_run h
  refine ⟨fun name a b hfil ha hb hva hvb => ?_, fun key name hmem => hI.keys _ hmem,
    fun f hf => ?_, fun f hf d hsat hlen => ?_⟩
  · have himg := imgName_eq lib hva hvb
    refine ⟨himg, { s with
      outstanding := s.outstanding ++ [[pic, a, b]]
      pendingInterest := s.pendingInterest.insert b.toUri name }, ?_, rfl⟩
    rw [step, if_pos hfil, onInterest, get_of_some ha, ok_bind, get_of_some hb, ok_bind, himg]
    rfl
  · obtain ⟨a, b, n, rfl, hn, -, hb⟩ := hI.fetches f hf
    obtain ⟨name, hname⟩ := firstRequest_of_mem hn hb
    exact ⟨b, rfl, by rw [hI.lookup b, hname]; rfl⟩
  · obtain ⟨a, b, n, rfl, hn, -, hb⟩ := hI.fetches f hf
    obtain ⟨name, hname⟩ := firstRequest_of_mem hn hb
    have hc := List.getElem?_eq_getElem (show 2 < d.name.length by omega)
    rw [component_of_matches ((matchesData_iff _ _).mpr hsat) hc] at hc
    have hl : s.pendingInterest.lookup b.toUri = some name := by rw [hI.lookup b, hname]
    refine ⟨b, name, { s with files := (imageFile b, d.content) :: s.files }, hc, hl, ?_,
      mem_of_firstRequest hname, component_of_firstRequest hname⟩
    rw [onData_eq hc, hl]
    rfl

/-- A request of the phone at `10.0.0.<n>`, for an image every phone names alike. -/
def phoneRequest (n : String) : Name :=
  execOcrPrefix ++ [Component.ofString ("10.0.0." ++ n), Component.ofString "pic.jpg"]

/-- The image of that phone, of one byte. -/
def phoneImage (n : String) (pixel : UInt8) : Event :=
  .data [pic, Component.ofString ("10.0.0." ++ n), Component.ofString "pic.jpg"]
    { name := [pic, Component.ofString ("10.0.0." ++ n), Component.ofString "pic.jpg"]
      content := [pixel]
      digest := List.replicate 32 pixel
      digest_length := List.length_replicate }

/-- A recogniser that gives the bytes of the file back. -/
def echo (file : Option Bytes) : Bytes := file.getD []

/-- What the events lead to, and the packets they have the producer put. -/
def packets (es : List Event) : Except Stop (List Packet) :=
  (run (step TextLib.reference echo) State.start es).map fun r => r.2.map (·.packet)

theorem run_of_packets {es : List Event} {ps : List Packet} (h : packets es = .ok ps) :
    ∃ s out, Run TextLib.reference echo es s out ∧ out.map (·.packet) = ps := by
  unfold packets at h
  cases hrun : run (step TextLib.reference echo) State.start es with
  | error e => rw [hrun] at h; cases h
  | ok r =>
    rw [hrun] at h
    exact ⟨r.1, r.2, reaches_run hrun, Except.ok.inj h⟩

/-- A phone whose image has arrived is in the table under the image's name. -/
theorem image_finds_request_phone : ∃ s out,
    Run TextLib.reference echo [.interest (phoneRequest "1"), phoneImage "1" 1] s out ∧
    ∀ key name, (key, name) ∈ s.pendingInterest → ∃ b, name[3]? = some b ∧ key = b.toUri ∧
      name ∈ requests [.interest (phoneRequest "1"), phoneImage "1" 1] := by
  obtain ⟨s, out, hrun, -⟩ :=
    run_of_packets (show packets [.interest (phoneRequest "1"), phoneImage "1" 1] =
      .ok [⟨phoneRequest "1", [1]⟩] by decide +kernel)
  exact ⟨s, out, hrun, (image_finds_request TextLib.reference echo hrun).2.1⟩

/-- **Whose image it is depends on who asked first.** -/
theorem owned_iff_firstAsked {es : List Event} {s : State} {out : List Put}
    (h : Run lib runTess es s out) : (∀ p ∈ out, Owned runTess p) ↔ FirstAsked es := by
  have hI := Inv.of_run h
  constructor
  · intro howned a b d hd
    obtain ⟨p, hp, hf, hd⟩ := hI.answered _ _ hd
    obtain ⟨a', b', h2, -, hf', -⟩ := howned p hp
    obtain ⟨a'', b'', hf'', -, hreq, -⟩ := hI.puts p hp
    rw [hf] at hf' hf''
    obtain ⟨rfl, rfl⟩ : a = a' ∧ b = b' := by simpa using hf'
    obtain ⟨rfl, rfl⟩ : a = a'' ∧ b = b'' := by simpa using hf''
    exact ⟨_, hreq, h2⟩
  · intro hfirst p hp
    obtain ⟨a, b, hf, hmem, hreq, hres⟩ := hI.puts p hp
    rw [hf] at hmem
    obtain ⟨name, hname, h2⟩ := hfirst a b _ hmem
    rw [hreq, Option.some.injEq] at hname
    subst hname
    exact ⟨a, b, h2, component_of_firstRequest hreq, hf, hres⟩

/-- A phone alone gets the text of its own image. -/
theorem owned_iff_firstAsked_phone : ∃ s out,
    Run TextLib.reference echo [.interest (phoneRequest "1"), phoneImage "1" 1] s out ∧
    out.map (·.packet) = [⟨phoneRequest "1", [1]⟩] ∧
    ((∀ p ∈ out, Owned echo p) ↔
      FirstAsked [.interest (phoneRequest "1"), phoneImage "1" 1]) := by
  obtain ⟨s, out, hrun, hps⟩ := run_of_packets
    (show packets [.interest (phoneRequest "1"), phoneImage "1" 1] =
    .ok [⟨phoneRequest "1", [1]⟩] by decide +kernel)
  exact ⟨s, out, hrun, hps, owned_iff_firstAsked hrun⟩

/-- Two phones ask; the image of the second arrives first, then that of the
first. -/
def crossedRun : List Event :=
  [.interest (phoneRequest "1"), .interest (phoneRequest "2"), phoneImage "2" 2, phoneImage "1" 1]

/-- The first phone is sent the text of the second phone's image. -/
theorem crossed_images : ∃ s out, Run TextLib.reference echo crossedRun s out ∧
    ∃ p ∈ out, ¬ ∃ a b d, p.packet.name[2]? = some a ∧ p.packet.name[3]? = some b ∧
      Event.data [pic, a, b] d ∈ crossedRun ∧ p.packet.content = echo (some d.content) := by
  obtain ⟨s, out, hrun, hps⟩ := run_of_packets (show packets crossedRun =
    .ok [⟨phoneRequest "1", [2]⟩, ⟨phoneRequest "1", [1]⟩] by decide +kernel)
  obtain ⟨p, hp, hpacket⟩ : ∃ p ∈ out, p.packet = ⟨phoneRequest "1", [2]⟩ := by
    rw [← List.mem_map, hps]
    exact List.mem_cons_self
  refine ⟨s, out, hrun, p, hp, ?_⟩
  rw [hpacket]
  rintro ⟨a, b, d, ha, hb, hd, hcontent⟩
  obtain rfl : Component.ofString ("10.0.0." ++ "1") = a := Option.some.inj ha
  simp only [crossedRun, phoneImage, List.mem_cons, reduceCtorEq, Event.data.injEq, List.cons.injEq,
    false_or, List.not_mem_nil, or_false] at hd
  rcases hd with ⟨⟨-, hne, -⟩, -⟩ | ⟨-, rfl⟩
  · exact absurd hne (by decide +kernel)
  · exact absurd hcontent (by decide)

end Producer
end IcnDemo
