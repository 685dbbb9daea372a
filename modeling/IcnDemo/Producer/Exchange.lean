/-
# A consumer and `producer.cpp` over a network

`producer.cpp` answers every Interest below `/exec/testApp`: it runs the recogniser on the
file that the name stands for and puts a signed Data under that name, `testApp` and the
time. `consumer.cpp` expresses one such Interest. Between them is a network that keeps what
has been sent, and delivers it late, again and again, in any order, or never.

Whatever program expresses Interests there, and in every run, a result it is given is the
text of the path of an Interest that it has sent, and of its own path exactly if the name of
the result is two components longer than the Interest's (`results_of_run`): the answer for
another name, a longer or a shorter one, may satisfy an Interest as well, and its own answer
need not (`answer_satisfies_iff`). `consumer.cpp` is given its own result, once at most
(`consumer_results`).
-/
import IcnDemo.Ndn.DataPacket
import IcnDemo.Ndn.Face
import IcnDemo.Producer.Paths

namespace IcnDemo
namespace Producer
namespace Exchange

open Ndn Lib.Codec Lib.Runs Lib.Loop

/-! ### Data packets as the Face matches them -/

/-- A component, as the type of its block says. -/
def component (b : Block) : Option Component :=
  if b.type = ComponentType.nameComponent.code then some ⟨.nameComponent, b.value⟩
  else if b.type = ComponentType.implicitSha256DigestComponent.code then
    some ⟨.implicitSha256DigestComponent, b.value⟩
  else none

/-- What `Interest::matchesData` asks of a decoded packet. -/
def signedData (sha256 : Bytes → Bytes) (d : DataPacket) : Option SignedData := do
  let wire ← d.wire
  let name ← d.name.mapM component
  if h : (sha256 wire.wire).length = Component.sha256DigestSize then
    some {
      name := name
      content := d.getContent.value
      digest := sha256 wire.wire
      digest_length := h
      keyLocator := d.signature.info.keyLocator.map fun locator =>
        (SignatureInfo.locatorBlock locator).wire }
  else none

/-- The Data that `Face::onReceiveElement` makes of a wire. -/
def received (sha256 : Bytes → Bytes) (wire : Block) : Option SignedData :=
  match DataPacket.ofBlock wire with
  | .error _ => none
  | .ok d => signedData sha256 d

/-! ### `producer.cpp` -/

/-- What the answers depend on: `run_tess` of a path, the key of the default identity and
its SignatureInfo, and the clock, at the answers one after another. -/
structure Node where
  runTess : Bytes → Bytes
  pureSign : Bytes → Block
  info : SignatureInfo
  now : ℕ → ℕ

variable (node : Node)

/-- The name of the answer: `append("testApp")` and `appendVersion()`. -/
def answerName (time : ℕ) (interest : Name) : Name :=
  interest ++ [Component.ofString "testApp", Component.fromVersion time]

/-- The Data before it is signed. -/
def unsigned (time : ℕ) (interest : Name) : Except Error DataPacket := do
  let d ← (DataPacket.ofName []).set
    (.setName ((answerName time interest).map Component.toBlock))
  let d ← d.set (.setFreshnessPeriod 10000)
  let co := node.runTess (imagePath interest)
  d.set (.setContent ⟨Interest.tlvContent, element Interest.tlvContent co, co⟩)

/-- `onInterest`: the wire of the Data that `Face::put` sends. -/
def onInterest (time : ℕ) (interest : Name) : Except Error Block := do
  let data ← unsigned node time interest
  let r ← data.sign node.pureSign ⟨node.info, none⟩
  (if r.1.wire.length > maxNdnPacketSize then .error "Data size exceeds maximum limit"
    else .ok r.1)

/-- The program; it keeps how many Interests it has answered. -/
def producer : Face.Program ℕ Block Error where
  onInterest answered _ interest := do
    let wire ← onInterest node (node.now answered) interest.name
    .ok (answered + 1, [.put wire])
  onData answered _ _ := .ok (answered, [])
  onNack answered _ _ := .ok (answered, [])
  onTimeout answered _ := .ok (answered, [])
  main answered := .ok (answered, [])

/-- The Face of the producer after its prefix has been registered. -/
def registered : Face.State ℕ := ⟨[], ⟨[(0, testAppPrefix)], [], 0, 0, 1⟩⟩

/-! ### The network -/

variable {App Packet ε : Type}

structure State (App : Type) where
  consumer : Face.State App
  producer : Face.State ℕ
  /-- The Interests that the consumer has sent. -/
  interests : List (Interest Name)
  /-- The packets that the producer has put. -/
  packets : List Block

inductive Event
  /-- What happens at the consumer, but for a Data. -/
  | consumer (e : Face.Event)
  /-- An Interest that has been sent arrives. -/
  | interest (i : ℕ)
  /-- A packet that has been put arrives. -/
  | packet (i : ℕ)

inductive Stop (ε : Type)
  | consumer (stop : Face.Stop ε)
  | producer (stop : Face.Stop Error)
  | undelivered

/-- An event of the consumer's Face. -/
def stepConsumer (program : Face.Program App Packet ε) (turns : ℕ) (s : State App)
    (e : Face.Event) : Except (Stop ε) (State App × List (Face.Output Packet)) :=
  match Face.step program turns s.consumer e with
  | .error stop => .error (.consumer stop)
  | .ok (consumer, out) =>
    .ok ({ s with consumer := consumer, interests := s.interests ++ Face.sentInterests out }, out)

/-- One event, and what comes out at the consumer. -/
def step (sha256 : Bytes → Bytes) (program : Face.Program App Packet ε) (turns : ℕ)
    (s : State App) : Event → Except (Stop ε) (State App × List (Face.Output Packet))
  | .consumer (.data _) => .error .undelivered
  | .consumer e => stepConsumer program turns s e
  | .interest i =>
    match s.interests[i]? with
    | none => .error .undelivered
    | some interest =>
      match Face.step (producer node) turns s.producer (.interest interest) with
      | .error stop => .error (.producer stop)
      | .ok (producer, out) =>
        .ok ({ s with producer := producer, packets := s.packets ++ Face.putPackets out }, [])
  | .packet i =>
    match s.packets[i]?.bind (received sha256) with
    | none => .error .undelivered
    | some data => stepConsumer program turns s (.data data)

def start (app : App) : State App := ⟨Face.start app, registered, [], []⟩

/-! ### An answer and what is read of it -/

theorem component_toBlock (c : Component) : component c.toBlock = some c := by
  obtain ⟨type, value⟩ := c
  cases type <;> rfl

theorem mapM_component (name : Name) :
    ((name.map Component.toBlock).map DataPacket.canonical).mapM component = some name := by
  induction name with
  | nil => rfl
  | cons c name ih =>
    have hc : component (DataPacket.canonical c.toBlock) = some c := component_toBlock c
    rw [List.map_cons, List.map_cons, List.mapM_cons, hc, ih]
    rfl

variable {node} {sha256 : Bytes → Bytes}

/-- What an answer is read as. -/
structure Answer (node : Node) (time : ℕ) (interest : Name) (data : SignedData) : Prop where
  name : data.name = answerName time interest
  content : data.content = node.runTess (imagePath interest)
  keyLocator : data.keyLocator =
    node.info.keyLocator.map fun locator => (SignatureInfo.locatorBlock locator).wire

theorem unsigned_encodable {time : ℕ} {interest : Name} {d : DataPacket}
    (hsize : (node.runTess (imagePath interest)).length < 2 ^ 64)
    (h : unsigned node time interest = .ok d) : d.Encodable ∧
      d.name = (answerName time interest).map Component.toBlock ∧
      d.getContent.value = node.runTess (imagePath interest) := by
  obtain rfl := Except.ok.inj h
  refine ⟨⟨?_, ?_, ⟨rfl, Block.reads_element (by decide) hsize⟩, ?_, ?_⟩, rfl, rfl⟩
  · intro c hc
    obtain ⟨c', -, rfl⟩ := List.mem_map.mp hc
    exact c'.type.code_le
  · refine { MetaInfo.default_encodable with freshnessPeriod := ?_ }
    change (10000 : ℤ) < 2 ^ 63
    omega
  · intro v hv
    cases hv
  · intro hsigned
    cases hsigned

/-- **An answer is read back** under the name of the request, with its text. -/
theorem ofBlock_onInterest (hinfo : node.info.Readable) (hsign : DataPacket.Signs node.pureSign)
    {time : ℕ} {interest : Name} {wire : Block} (h : onInterest node time interest = .ok wire) :
    ∃ d, DataPacket.ofBlock wire = .ok d ∧ d.wire = some wire ∧
      d.name.mapM component = some (answerName time interest) ∧
      d.getContent.value = node.runTess (imagePath interest) ∧
      d.signature.info.keyLocator = node.info.keyLocator := by
  obtain ⟨data, hdata, h⟩ := bind_eq_ok h
  obtain ⟨⟨w, d'⟩, hsigned, h⟩ := bind_eq_ok h
  dsimp only at h
  split at h
  · cases h
  · obtain rfl := Except.ok.inj h
    obtain ⟨hsize, rfl⟩ := DataPacket.packet_of_sign hsigned
    have hcontent : (node.runTess (imagePath interest)).length < 2 ^ 64 := by
      obtain rfl := Except.ok.inj hdata
      simp only [DataPacket.value, DataPacket.portion, DataPacket.signedElements,
        DataPacket.signed, DataPacket.getContent, List.flatMap_cons, List.length_append] at hsize
      simp [element_length] at hsize
      omega
    obtain ⟨hencodable, hname, hvalue⟩ := unsigned_encodable hcontent hdata
    refine ⟨_, DataPacket.ofBlock_packet
      (DataPacket.signed_encodable hencodable hinfo hsign) hinfo hsize, rfl, ?_, hvalue, rfl⟩
    change (data.name.map DataPacket.canonical).mapM component = _
    rw [hname, mapM_component]

theorem answer_of_received (hinfo : node.info.Readable)
    (hsign : DataPacket.Signs node.pureSign) {time : ℕ} {interest : Name} {wire : Block}
    (h : onInterest node time interest = .ok wire) {data : SignedData}
    (hdata : received sha256 wire = some data) : Answer node time interest data := by
  obtain ⟨d, hread, hwire, hname, hcontent, hlocator⟩ := ofBlock_onInterest hinfo hsign h
  unfold received signedData at hdata
  rw [hread] at hdata
  simp only [hwire, hname, Option.bind_eq_bind, Option.bind_some] at hdata
  split at hdata
  · obtain rfl := Option.some.inj hdata
    exact ⟨rfl, hcontent, by rw [hlocator]⟩
  · cases hdata

theorem Answer.fullName {time : ℕ} {interest : Name} {data : SignedData}
    (h : Answer node time interest data) : data.fullName = interest ++
      [Component.ofString "testApp", Component.fromVersion time,
        ⟨.implicitSha256DigestComponent, data.digest⟩] := by
  unfold Data.fullName
  rw [h.name, answerName, List.append_assoc]
  rfl

/-- **Which Interests the answers satisfy**: those that allow three components more, do not
exclude `testApp` after their name, and ask for no publisher but that of the node. -/
theorem answer_satisfies_iff (hinfo : node.info.Readable) (hsign : DataPacket.Signs node.pureSign)
    {time : ℕ} {interest : Interest Name} {wire : Block} {data : SignedData}
    (h : onInterest node time interest.name = .ok wire)
    (hdata : received sha256 wire = some data) :
    interest.matchesData data = true ↔
      interest.selectors.minSuffixComponents ≤ 3 ∧
      (0 ≤ interest.selectors.maxSuffixComponents → 3 ≤ interest.selectors.maxSuffixComponents) ∧
      Exclude.isExcluded interest.selectors.exclude (Component.ofString "testApp") = false ∧
      ∀ locator, interest.selectors.publisherPublicKeyLocator = some locator →
        node.info.keyLocator.map (fun l => (SignatureInfo.locatorBlock l).wire) =
          some locator.wire := by
  have hanswer := answer_of_received hinfo hsign h hdata
  have hnext : ∀ c, data.fullName[interest.name.length]? = some c ↔
      Component.ofString "testApp" = c := by
    intro c
    rw [hanswer.fullName, List.getElem?_append_right (Nat.le_refl _), Nat.sub_self]
    simp
  have hlength : (data.fullName.length : ℤ) - interest.name.length = 3 := by
    simp [hanswer.fullName]
  have hlocator : interest.locatorMatches data = true ↔
      ∀ locator, interest.selectors.publisherPublicKeyLocator = some locator →
        data.keyLocator = some locator.wire := by
    unfold Interest.locatorMatches
    cases interest.selectors.publisherPublicKeyLocator with
    | none => simp
    | some locator => cases data.keyLocator <;> simp [eq_comm]
  rw [Interest.matchesData_iff, Interest.selects_iff, hlocator, hlength, ← hanswer.keyLocator]
  have hpre : interest.name <+: data.fullName := by
    rw [hanswer.fullName]
    exact List.prefix_append _ _
  simp only [hpre, true_and, hnext, forall_eq', and_assoc]

/-- What is received is among what is put and read. -/
theorem exists_received (sha256 : Bytes → Bytes) {x : Except Error Block} {p : SignedData → Bool}
    (h : (x.toOption.bind (received sha256)).any p = true) :
    ∃ wire data, x = .ok wire ∧ received sha256 wire = some data ∧ p data = true := by
  cases x with
  | error e => cases h
  | ok wire =>
    change (received sha256 wire).any p = true at h
    cases hdata : received sha256 wire with
    | none =>
      rw [hdata] at h
      cases h
    | some data =>
      rw [hdata] at h
      exact ⟨wire, data, rfl, hdata, h⟩

/-- A node that answers the path itself, and counts milliseconds by its answers. -/
def echoNode : Node := ⟨id, DataPacket.lengthSign, DataPacket.digestSignature.info, id⟩

/-- Stands for SHA-256. -/
def lengthDigest (bytes : Bytes) : Bytes :=
  List.replicate Component.sha256DigestSize (UInt8.ofNat bytes.length)

/-- An Interest that allows two components more than its name has. -/
def narrowInterest : Interest Name :=
  { Interest.freshInterest 2000 testAppPrefix 1 with
    selectors := { Selectors.default with maxSuffixComponents := 2 } }

/-- Its answer does not satisfy it. -/
theorem answer_satisfies_narrow : ∃ wire data,
    onInterest echoNode 5 narrowInterest.name = .ok wire ∧
      received lengthDigest wire = some data ∧ narrowInterest.matchesData data = false := by
  obtain ⟨wire, data, hwire, hdata, -⟩ := exists_received lengthDigest
    (x := onInterest echoNode 5 narrowInterest.name) (p := fun _ => true) (by decide +kernel)
  have hiff := answer_satisfies_iff DataPacket.digestSignature_readable
    DataPacket.signs_lengthSign hwire hdata
  refine ⟨wire, data, hwire, hdata, Bool.eq_false_iff.mpr fun h => ?_⟩
  have hmax := (hiff.mp h).2.1
  exact absurd (hmax (by decide)) (by decide)

/-! ### What is in the network -/

/-- A packet of the producer answers an Interest that has been sent. -/
def Answers (node : Node) (interests : List (Interest Name)) (wire : Block) : Prop :=
  ∃ interest ∈ interests, testAppPrefix <+: interest.name ∧
    ∃ time, onInterest node time interest.name = .ok wire

theorem Answers.mono {interests : List (Interest Name)} {wire : Block}
    (h : Answers node interests wire) (more : List (Interest Name)) :
    Answers node (interests ++ more) wire := by
  obtain ⟨interest, hmem, hanswer⟩ := h
  exact ⟨interest, List.mem_append_left _ hmem, hanswer⟩

/-- What the producer does with an Interest. -/
theorem producer_step {turns : ℕ} {t t' : Face.State ℕ} {interest : Interest Name}
    {out : List (Face.Output Block)} (ht : t.impl.interestFilterTable = [(0, testAppPrefix)])
    (h : Face.step (producer node) turns t (.interest interest) = .ok (t', out)) :
    t'.impl.interestFilterTable = [(0, testAppPrefix)] ∧
      ∀ wire ∈ Face.putPackets out, Answers node [interest] wire := by
  simp only [Face.step, Face.processInterestFilters, ht, Face.processFilters] at h
  split at h
  · rename_i hpre
    obtain ⟨r, hr, h⟩ := bind_eq_ok h
    obtain ⟨rfl, rfl⟩ := Prod.mk.inj (Except.ok.inj h)
    unfold Face.proceed at hr
    split at hr
    · cases hr
    · rename_i app calls hcall
      obtain ⟨wire, hwire, hcall⟩ := bind_eq_ok hcall
      obtain ⟨rfl, rfl⟩ := Prod.mk.inj (Except.ok.inj hcall)
      obtain rfl := Except.ok.inj hr
      refine ⟨ht, ?_⟩
      intro w hw
      have hputs : w ∈ [wire] := hw
      obtain rfl := List.mem_singleton.mp hputs
      exact ⟨interest, List.mem_singleton_self _, List.isPrefixOf_iff_prefix.mp hpre, _, hwire⟩
  · obtain ⟨rfl, rfl⟩ := Prod.mk.inj (Except.ok.inj h)
    exact ⟨ht, fun w hw => by cases hw⟩

/-- What holds of the network, and of what has come out at the consumer. -/
structure Inv (node : Node) (sha256 : Bytes → Bytes) (program : Face.Program App Packet ε)
    (turns : ℕ) (app : App) (s : State App) (out : List (Face.Output Packet)) : Prop where
  /-- The consumer's part is a run of its Face. -/
  consumer : ∃ es, Reaches (Face.step program turns) (Face.start app) es s.consumer out
  filters : s.producer.impl.interestFilterTable = [(0, testAppPrefix)]
  interests : s.interests = Face.sentInterests out
  packets : ∀ wire ∈ s.packets, Answers node s.interests wire
  results : ∀ entry data, .ended entry (.data data) ∈ out →
    ∃ wire ∈ s.packets, received sha256 wire = some data

variable {program : Face.Program App Packet ε} {turns : ℕ} {app : App} {s s' : State App}
  {out new : List (Face.Output Packet)}

/-- An event of the consumer's Face, if a Data that it is given is in the network. -/
theorem Inv.stepConsumer (hI : Inv node sha256 program turns app s out) {e : Face.Event}
    (hdata : ∀ data, e = .data data → ∃ wire ∈ s.packets, received sha256 wire = some data)
    (h : stepConsumer program turns s e = .ok (s', new)) :
    Inv node sha256 program turns app s' (out ++ new) := by
  unfold Exchange.stepConsumer at h
  split at h
  · cases h
  · rename_i consumer new' hstep
    obtain ⟨rfl, rfl⟩ := Prod.mk.inj (Except.ok.inj h)
    obtain ⟨es, hrun⟩ := hI.consumer
    refine ⟨⟨_, hrun.snoc hstep⟩, hI.filters, ?_, fun wire hw => (hI.packets wire hw).mono _, ?_⟩
    · rw [Face.sentInterests_append, hI.interests]
    · intro entry data hmem
      rcases List.mem_append.mp hmem with hmem | hmem
      · exact hI.results entry data hmem
      · exact hdata data (Face.data_of_step hstep hmem)

theorem Inv.step (hI : Inv node sha256 program turns app s out) {e : Event}
    (h : step node sha256 program turns s e = .ok (s', new)) :
    Inv node sha256 program turns app s' (out ++ new) := by
  cases e with
  | consumer e =>
    cases e with
    | data data => cases h
    | main | interest | nack | timeout | turn =>
      exact hI.stepConsumer (fun data heq => by cases heq) h
  | interest i =>
    unfold Exchange.step at h
    dsimp only at h
    split at h
    · cases h
    · rename_i interest hget
      split at h
      · cases h
      · rename_i producer puts hstep
        obtain ⟨rfl, rfl⟩ := Prod.mk.inj (Except.ok.inj h)
        obtain ⟨hfilters, hputs⟩ := producer_step hI.filters hstep
        rw [List.append_nil]
        refine ⟨hI.consumer, hfilters, hI.interests, ?_, ?_⟩
        · intro wire hw
          rcases List.mem_append.mp hw with hw | hw
          · exact hI.packets wire hw
          · obtain ⟨interest', hmem, hanswer⟩ := hputs wire hw
            obtain rfl := List.mem_singleton.mp hmem
            exact ⟨interest', List.mem_of_getElem? hget, hanswer⟩
        · intro entry data hmem
          obtain ⟨wire, hw, hreceived⟩ := hI.results entry data hmem
          exact ⟨wire, List.mem_append_left _ hw, hreceived⟩
  | packet i =>
    unfold Exchange.step at h
    dsimp only at h
    split at h
    · cases h
    · rename_i data hget
      obtain ⟨wire, hwire, hreceived⟩ := Option.bind_eq_some_iff.mp hget
      refine hI.stepConsumer ?_ h
      intro data' heq
      obtain rfl := Face.Event.data.inj heq
      exact ⟨wire, List.mem_of_getElem? hwire, hreceived⟩

theorem Inv.of_run {es : List Event}
    (h : Reaches (Exchange.step node sha256 program turns) (start app) es s out) :
    Inv node sha256 program turns app s out := by
  refine h.invariant (I := fun _ s out => Inv node sha256 program turns app s out) ?_ ?_
  · exact ⟨⟨[], .nil⟩, rfl, rfl, by simp [start], by simp⟩
  · intro es s out e s' new hI hstep
    exact hI.step hstep

/-- What the consumer is given answers an Interest that has been sent. -/
theorem Inv.answered (hI : Inv node sha256 program turns app s out) (hinfo : node.info.Readable)
    (hsign : DataPacket.Signs node.pureSign) {wire : Block} (hw : wire ∈ s.packets)
    {data : SignedData} (hdata : received sha256 wire = some data) :
    ∃ request ∈ Face.sentInterests out, testAppPrefix <+: request.name ∧
      ∃ time, Answer node time request.name data := by
  obtain ⟨request, hrequest, hpre, time, hanswer⟩ := hI.packets wire hw
  rw [hI.interests] at hrequest
  exact ⟨request, hrequest, hpre, time, answer_of_received hinfo hsign hanswer hdata⟩

/-- **What a consumer is given.** In every run, whatever is lost, late or repeated, a Data
that ends an Interest matches it and is the answer to an Interest that has been sent: its
name is that of the request, `testApp` and a time, its content is the text of the request's
path. The request has the name of the Interest that is ended exactly if this name is two
components shorter than the Data's. -/
theorem results_of_run (hinfo : node.info.Readable) (hsign : DataPacket.Signs node.pureSign)
    {es : List Event}
    (h : Reaches (Exchange.step node sha256 program turns) (start app) es s out) :
    ∀ entry data, .ended entry (.data data) ∈ out → entry.interest.matchesData data = true ∧
      ∃ request ∈ Face.sentInterests out, testAppPrefix <+: request.name ∧
        (∃ time, Answer node time request.name data) ∧
        (request.name = entry.interest.name ↔
          data.name.length = entry.interest.name.length + 2) := by
  have hI := Inv.of_run h
  intro entry data hmem
  obtain ⟨fes, hface⟩ := hI.consumer
  have hmatch : entry.interest.matchesData data = true := (Face.does_of_run hface).sound _ hmem
  obtain ⟨wire, hw, hreceived⟩ := hI.results entry data hmem
  obtain ⟨request, hrequest, hpre, time, hanswer⟩ := hI.answered hinfo hsign hw hreceived
  refine ⟨hmatch, request, hrequest, hpre, ⟨time, hanswer⟩, ?_⟩
  have hlength : data.name.length = request.name.length + 2 := by
    simp [hanswer.name, answerName]
  rw [hlength, Nat.add_right_cancel_iff]
  refine ⟨fun heq => by rw [heq], fun hlen => ?_⟩
  -- both names start the full name of the Data
  obtain ⟨hselects, -⟩ := (Interest.matchesData_iff data).mp hmatch
  have hentry := hselects.isPrefix
  rw [hanswer.fullName] at hentry
  exact (List.prefix_of_prefix_length_le (List.prefix_append _ _) hentry hlen.le).eq_of_length hlen

/-- A consumer that asks for a name and for the beginning of it. -/
def asksTwice : Face.Program Unit Block Error where
  onInterest _ _ _ := .ok ((), [])
  onData _ _ _ := .ok ((), [])
  onNack _ _ _ := .ok ((), [])
  onTimeout _ _ := .ok ((), [])
  main _ := .ok ((), [testAppPrefix, testAppPrefix ++ [Component.ofString "a"]].map fun name =>
    .expressInterest (Interest.freshInterest 2000 name 1))

/-- The results: the name that was asked for, and the text. -/
def texts (out : List (Face.Output Packet)) : List (Name × Bytes) :=
  out.filterMap fun o => match o with
    | .ended entry (.data data) => some (entry.interest.name, data.content)
    | _ => none

/-- The answer for the longer name is the result for both. -/
theorem results_of_run_twice : ∃ s out,
    Reaches (Exchange.step echoNode lengthDigest asksTwice 10) (start ())
      [.consumer .main, .interest 1, .packet 0] s out ∧
    texts out = [(testAppPrefix, ascii "../data//a"),
      (testAppPrefix ++ [Component.ofString "a"], ascii "../data//a")] ∧
    ∀ entry data, .ended entry (.data data) ∈ out → entry.interest.matchesData data = true ∧
      ∃ request ∈ Face.sentInterests out, testAppPrefix <+: request.name ∧
        (∃ time, Answer echoNode time request.name data) ∧
        (request.name = entry.interest.name ↔
          data.name.length = entry.interest.name.length + 2) := by
  obtain ⟨⟨s, out⟩, hrun, hp⟩ := exists_ok_of_any
    (x := run (Exchange.step echoNode lengthDigest asksTwice 10) (start ())
      [.consumer .main, .interest 1, .packet 0])
    (p := fun r => texts r.2 = [(testAppPrefix, ascii "../data//a"),
      (testAppPrefix ++ [Component.ofString "a"], ascii "../data//a")]) (by decide +kernel)
  exact ⟨s, out, reaches_run hrun, of_decide_eq_true hp,
    results_of_run DataPacket.digestSignature_readable DataPacket.signs_lengthSign
      (reaches_run hrun)⟩

/-! ### `consumer.cpp` -/

/-- `/exec/testApp/input_2.png` -/
def consumerName : Name := testAppPrefix ++ [Component.ofString "input_2.png"]

/-- The consumer: it expresses one Interest, whose lifetime is `2_s`; the state tells whether
it has. -/
def consumer (nonce : UInt32) : Face.Program Bool Block Error where
  onInterest ran _ _ := .ok (ran, [])
  onData ran _ _ := .ok (ran, [])
  onNack ran _ _ := .ok (ran, [])
  onTimeout ran _ := .ok (ran, [])
  main ran :=
    if ran then .ok (ran, [])
    else
      match (Interest.freshInterest 2000 consumerName nonce).express with
      | .error e => .error e
      | .ok interest => .ok (true, [.expressInterest interest])

theorem consumer_idle (nonce : UInt32) : Face.Idle (consumer nonce) where
  onInterest _ _ _ := rfl
  onData _ _ _ := rfl
  onNack _ _ _ := rfl
  onTimeout _ _ := rfl

theorem consumerName_valid : ∀ c ∈ consumerName, c.Valid := by decide

/-- What the consumer has sent. -/
structure SendsOnce (nonce : UInt32) (ran : Bool) (sent : List (Interest Name)) : Prop where
  length : sent.length ≤ 1
  ran : ran = false → sent = []
  interest : ∀ interest ∈ sent,
    (Interest.freshInterest 2000 consumerName nonce).express = .ok interest

theorem sendsOnce_of_run {nonce : UInt32} {es : List Face.Event} {s : Face.State Bool}
    {out : List (Face.Output Block)}
    (h : Reaches (Face.step (consumer nonce) turns) (Face.start false) es s out) :
    SendsOnce nonce s.impl.app (Face.sentInterests out) := by
  refine h.invariant (I := fun _ s out =>
    SendsOnce nonce s.impl.app (Face.sentInterests out)) ?_ ?_
  · exact ⟨Nat.zero_le _, fun _ => rfl, by simp [Face.sentInterests]⟩
  · intro es s out e s' new hI hstep
    rw [Face.sentInterests_append]
    by_cases he : e = .main
    · subst he
      cases hran : s.impl.app with
      | true =>
        have hproceed : Face.proceed s (.ok (true, []) : Except Error _) = .ok (s', new) := by
          simpa [Face.step, consumer, hran] using hstep
        obtain ⟨happ, rfl⟩ := Face.proceed_idle hproceed
        rw [happ, ← hran]
        simpa [Face.sentInterests] using hI
      | false =>
        simp only [Face.step, consumer, hran, Bool.false_eq_true, ↓reduceIte] at hstep
        cases hexpress : (Interest.freshInterest 2000 consumerName nonce).express with
        | error e => simp [hexpress, Face.proceed] at hstep
        | ok interest =>
          rw [hexpress] at hstep
          obtain ⟨rfl, rfl⟩ := Prod.mk.inj (Except.ok.inj hstep)
          rw [hI.ran hran]
          have hlength : [interest].length ≤ 1 := Nat.le_refl 1
          refine ⟨hlength, ?_, ?_⟩
          · intro hfalse
            cases hfalse
          · intro interest' hmem
            obtain rfl := List.mem_singleton.mp hmem
            exact hexpress
    · obtain ⟨happ, hsent⟩ := Face.step_idle (consumer_idle nonce) he hstep
      rw [happ, hsent, List.append_nil]
      exact hI

theorem interest_mem_of_numbered {k : ℕ} {interests : List (Interest Name)}
    {entry : Face.PendingInterest} (h : entry ∈ Face.numbered k interests) :
    entry.interest ∈ interests := by
  obtain ⟨i, hi, rfl⟩ := List.mem_mapIdx.mp h
  exact List.getElem_mem hi

/-- **What `consumer.cpp` is given**: one result at most, and if it is a Data, the text of
its path. An answer that arrives leaves nothing pending. -/
theorem consumer_results (hinfo : node.info.Readable) (hsign : DataPacket.Signs node.pureSign)
    {nonce : UInt32} {s : State Bool} {es : List Event} {out : List (Face.Output Block)}
    (h : Reaches (Exchange.step node sha256 (consumer nonce) turns) (start false) es s out) :
    (Face.endedEntries out).length ≤ 1 ∧
    (∀ entry data, .ended entry (.data data) ∈ out → ∃ time,
      data.name = answerName time consumerName ∧
      data.content = node.runTess (ascii "../data//input_2.png")) ∧
    ∀ i s' new, Exchange.step node sha256 (consumer nonce) turns s (.packet i) = .ok (s', new) →
      s'.consumer.pendingInterestTable = [] := by
  have hI := Inv.of_run h
  obtain ⟨fes, hface⟩ := hI.consumer
  have hdoes := Face.does_of_run hface
  have hsends := sendsOnce_of_run hface
  have hname : ∀ interest ∈ Face.sentInterests out, interest.name = consumerName ∧
      ∀ data, interest.matchesData data = matchesData consumerName data.toData := by
    intro interest hmem
    obtain ⟨heq, hmatch⟩ :=
      Interest.express_freshInterest (by omega) (hsends.interest interest hmem) consumerName_valid
    rw [heq] at hmatch
    exact ⟨heq, hmatch⟩
  have hpath : imagePath consumerName = ascii "../data//input_2.png" := by decide
  refine ⟨?_, ?_, ?_⟩
  · have hlength := hdoes.perm.length_eq
    have hone := hsends.length
    simp only [List.length_append, Face.start, Face.numbered, List.length_mapIdx,
      List.length_nil] at hlength
    omega
  · intro entry data hmem
    obtain ⟨wire, hw, hreceived⟩ := hI.results entry data hmem
    obtain ⟨request, hrequest, -, time, hanswer⟩ := hI.answered hinfo hsign hw hreceived
    have hrequestName := (hname request hrequest).1
    exact ⟨time, by rw [hanswer.name, hrequestName], by rw [hanswer.content, hrequestName, hpath]⟩
  · intro i s' new hstep
    simp only [Exchange.step] at hstep
    split at hstep
    · cases hstep
    · rename_i data hget
      obtain ⟨wire, hw, hreceived⟩ := Option.bind_eq_some_iff.mp hget
      obtain ⟨request, hrequest, -, time, hanswer⟩ :=
        hI.answered hinfo hsign (List.mem_of_getElem? hw) hreceived
      unfold stepConsumer at hstep
      split at hstep
      · cases hstep
      · rename_i consumer' out' hdata
        obtain ⟨rfl, rfl⟩ := Prod.mk.inj (Except.ok.inj hstep)
        obtain ⟨-, hsent⟩ := Face.step_idle (consumer_idle nonce) Face.Event.noConfusion hdata
        obtain ⟨extra, more, -, htable, -, hmore, -⟩ := Face.endPendingInterests_spec hdata
        rw [hsent] at hmore
        have hmatches : ∀ entry ∈ s.consumer.pendingInterestTable,
            entry.interest.matchesData data = true := by
          intro entry hentry
          have hmem : entry ∈ Face.numbered 0 (Face.sentInterests out) :=
            hdoes.sublist.subset hentry
          rw [(hname _ (interest_mem_of_numbered hmem)).2, matchesData_iff, hanswer.name,
            (hname request hrequest).1]
          exact .inl (List.prefix_append _ _)
        rw [htable, List.eq_nil_of_sublist_nil hmore, List.append_nil]
        simpa using hmatches

/-- The Interest arrives twice, and both answers do. -/
theorem consumer_results_repeated : ∃ s out,
    Reaches (Exchange.step echoNode lengthDigest (consumer 7) 10) (start false)
      [.consumer .main, .interest 0, .interest 0, .packet 1, .packet 0] s out ∧
    texts out = [(consumerName, ascii "../data//input_2.png")] ∧
    (Face.endedEntries out).length ≤ 1 := by
  obtain ⟨⟨s, out⟩, hrun, hp⟩ := exists_ok_of_any
    (x := run (Exchange.step echoNode lengthDigest (consumer 7) 10) (start false)
      [.consumer .main, .interest 0, .interest 0, .packet 1, .packet 0])
    (p := fun r => texts r.2 = [(consumerName, ascii "../data//input_2.png")])
    (by decide +kernel)
  exact ⟨s, out, reaches_run hrun, of_decide_eq_true hp,
    (consumer_results DataPacket.digestSignature_readable DataPacket.signs_lengthSign
      (reaches_run hrun)).1⟩

end Exchange
end Producer
end IcnDemo
