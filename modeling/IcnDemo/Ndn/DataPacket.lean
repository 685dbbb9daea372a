/-
# Data packets: the object and its wire

A `Data` keeps the wire it has been encoded to or decoded from until a setter is called.
`Data::wireEncode` encodes, and decodes the object from its own encoding; `KeyChain::sign`
encodes the portion that is signed first and puts the signature behind it.

As long as no call throws, the wire that an object keeps is read by others as what the
object holds (`coherent_of_run`); where `Data::wireDecode` throws, the new wire is there
already and the fields are not. Who reads a signed packet checks the signature over exactly
the bytes that were signed (`verified_of_sign`). The application elements of the MetaInfo
are the exception: `MetaInfo::wireDecode` appends them to those that are there, so each new
encoding holds all of them twice as often as the one before (`appMetaInfo_of_run`).
-/
import IcnDemo.Ndn.MetaInfo
import IcnDemo.Lib.Runs

namespace IcnDemo
namespace Ndn

open Lib.Loop Lib.Runs Tlv

/-! ### Names as blocks -/

/-- `Component::wireEncode<TAG>` of a component that is a block. -/
def componentTemplate (c : Block) : Template :=
  Template.element c.type
    (if c.value.length > 0 then fun _ e => e.prependByteArray c.value else Template.skip)

/-- `Name::wireEncode<TAG>` of a name whose components are blocks. -/
def nameTemplate (name : List Block) : Template :=
  Template.element Interest.tlvName
    (name.reverse.foldl (fun p c => p.andThen (componentTemplate c)) Template.skip)

/-! ### The object -/

structure Signature where
  info : SignatureInfo
  value : Option Block

namespace Signature

/-- `tlv::SignatureValue` -/
def tlvSignatureValue : ℕ := 23

/-- `Signature::operator bool` -/
def isSigned (signature : Signature) : Bool := signature.info.type ≠ -1

def getInfo (signature : Signature) : Except Error Block := signature.info.encoded

/-- `Signature::getValue`; without a value, what `Block::encode` makes of `Block()`. -/
def getValue (signature : Signature) : Block :=
  signature.value.getD (Selectors.emptyBlock 0xFFFFFFFF)

def setValue (signature : Signature) (value : Block) : Except Error Signature :=
  if value.type ≠ tlvSignatureValue then .error "The supplied block is not SignatureValue"
  else .ok { signature with value := some value }

end Signature

/-- `Data` -/
structure DataPacket where
  name : List Block
  metaInfo : MetaInfo
  /-- `m_content`, unless it is a `Block()`. -/
  content : Option Block
  signature : Signature
  wire : Option Block
  /-- `m_fullName`, empty until it is asked for. -/
  fullName : List Block

namespace DataPacket

/-- `Data::Data(const Name&)` -/
def ofName (name : List Block) : DataPacket :=
  ⟨name, MetaInfo.default, none, ⟨SignatureInfo.default, none⟩, none, []⟩

/-- `Data::getContent` -/
def getContent (d : DataPacket) : Block := d.content.getD (Selectors.emptyBlock Interest.tlvContent)

/-- What is prepended before the SignatureValue: SignatureInfo, Content, MetaInfo, Name. -/
def portionTemplate (d : DataPacket) (info : Block) (p : Template) : Template :=
  (((p.andThen (prependBlock info)).andThen (prependBlock d.getContent)).andThen
    d.metaInfo.wireEncode).andThen (nameTemplate d.name)

/-- `Data::wireEncode<TAG>` -/
def wireEncode (d : DataPacket) (unsignedPortion : Bool) : Except Error Template :=
  if unsignedPortion = false ∧ d.signature.isSigned = false then
    .error "Requested wire format, but data packet has not been signed yet"
  else
    match d.signature.getInfo with
    | .error e => .error e
    | .ok info => .ok (if unsignedPortion then d.portionTemplate info Template.skip
      else Template.element Interest.tlvData
        (d.portionTemplate info (prependBlock d.signature.getValue)))

/-- `Data::wireDecode`, into an object that may hold something already. -/
def wireDecode (d : DataPacket) (wire : Block) : Except Error DataPacket :=
  match Block.parse wire.value [] with
  | (_, .error e) => .error e
  | (subBlocks, .ok ()) => do
    let nameBlock ← Block.get subBlocks Interest.tlvName
    let name ← Name.wireDecode nameBlock
    let metaBlock ← Block.get subBlocks MetaInfo.tlvMetaInfo
    let metaInfo ← d.metaInfo.wireDecode metaBlock
    let content ← Block.get subBlocks Interest.tlvContent
    let infoBlock ← Block.get subBlocks SignatureInfo.tlvSignatureInfo
    let info ← SignatureInfo.ofBlock infoBlock
    let signature ←
      ((Block.find subBlocks Signature.tlvSignatureValue).elim (.ok ⟨info, d.signature.value⟩)
        (Signature.setValue ⟨info, d.signature.value⟩))
    .ok ⟨name, metaInfo, some content, signature, some wire, []⟩

/-- `Data::Data(const Block&)` -/
def ofBlock (wire : Block) : Except Error DataPacket := (ofName []).wireDecode wire

/-- `Data::wireEncode() const` without a wire: the object is decoded from its encoding. -/
def encodeNew (d : DataPacket) : Except Error (Block × DataPacket) := do
  let wire ← (match d.wireEncode false with
    | .error e => .error e
    | .ok buffer => Block.ofBuffer buffer.run)
  let d ← d.wireDecode wire
  .ok (wire, d)

/-- `Data::wireEncode() const`: the wire that is there, or a new one. -/
def encoded (d : DataPacket) : Except Error (Block × DataPacket) :=
  match d.wire with
  | some wire => .ok (wire, d)
  | none => d.encodeNew

/-- `Data::wireEncode(EncodingBuffer&, const Block&) const`: the signature is appended to
the portion that is encoded already. -/
def wireEncodeSigned (d : DataPacket) (encoder : Bytes) (signatureValue : Block) :
    Except Error (Block × DataPacket) := do
  let wire ← Block.ofBuffer (element Interest.tlvData (encoder ++ signatureValue.wire))
  let d ← d.wireDecode wire
  .ok (wire, d)

/-- `Data::onChanged` -/
def onChanged (d : DataPacket) : DataPacket := { d with wire := none, fullName := [] }

/-- The setters. -/
inductive Setter
  | setName (name : List Block)
  | setMetaInfo (metaInfo : MetaInfo)
  | setContentType (type : ℕ)
  | setFreshnessPeriod (freshnessPeriod : ℤ)
  | setFinalBlockId (finalBlockId : Component)
  | setContent (content : Block)
  | setSignature (signature : Signature)
  | setSignatureValue (value : Block)

def set (d : DataPacket) : Setter → Except Error DataPacket
  | .setName name => .ok { d.onChanged with name := name }
  | .setMetaInfo metaInfo => .ok { d.onChanged with metaInfo := metaInfo }
  | .setContentType type => .ok { d.onChanged with metaInfo := { d.metaInfo with type := type } }
  | .setFreshnessPeriod freshnessPeriod => .ok
    { d.onChanged with metaInfo := { d.metaInfo with freshnessPeriod := freshnessPeriod } }
  | .setFinalBlockId finalBlockId => .ok
    { d.onChanged with metaInfo := { d.metaInfo with finalBlockId := finalBlockId } }
  | .setContent content => .ok { d.onChanged with
      content := some (if content.type = Interest.tlvContent then content
        else ⟨Interest.tlvContent, element Interest.tlvContent content.wire, content.wire⟩) }
  | .setSignature signature => .ok { d.onChanged with signature := signature }
  | .setSignatureValue value => do
    let signature ← d.signature.setValue value
    .ok { d.onChanged with signature := signature }

/-- `KeyChain::signPacketWrapper`, where `pureSign` is the signature of the key. -/
def sign (pureSign : Bytes → Block) (signature : Signature) (d : DataPacket) :
    Except Error (Block × DataPacket) := do
  let d ← d.set (.setSignature signature)
  (match d.wireEncode true with
    | .error e => .error e
    | .ok encoder => d.wireEncodeSigned encoder.run (pureSign encoder.run))

/-- `Data::getFullName`, with the digest that `computeSha256Digest` answers. -/
def getFullName (sha256 : Bytes → Bytes) (d : DataPacket) : Except Error DataPacket :=
  if d.fullName = [] then
    match d.wire with
    | none => .error
        "Full name requested, but Data packet does not have wire format (e.g., not signed)"
    | some wire => do
      let digest ← Component.fromImplicitSha256Digest (sha256 wire.wire)
      .ok { d with fullName := d.name ++ [digest.toBlock] }
  else .ok d

inductive Event
  | set (setter : Setter)
  | wireEncode
  | wireDecode (wire : Block)
  | sign (signature : Signature)
  | getFullName

inductive Output
  /-- A wire that has been encoded. -/
  | encoded (wire : Block)
  /-- The wire that was there already. -/
  | kept (wire : Block)
  | fullName (name : List Block)

/-- One call of an object. An exception ends the run: the object that `wireDecode` leaves
then is not described. -/
def step (pureSign : Bytes → Block) (sha256 : Bytes → Bytes) (d : DataPacket) :
    Event → Except Error (DataPacket × List Output)
  | .set setter => (d.set setter).map fun d => (d, [])
  | .wireEncode =>
    match d.wire with
    | some wire => .ok (d, [.kept wire])
    | none => d.encodeNew.map fun r => (r.2, [.encoded r.1])
  | .wireDecode wire => (d.wireDecode wire).map fun d => (d, [])
  | .sign signature => (d.sign pureSign signature).map fun r => (r.2, [.encoded r.1])
  | .getFullName => (d.getFullName sha256).map fun d => (d, [.fullName d.fullName])

/-! ### What an object holds of its wire -/

/-- An object that held `d` and has decoded what others read as `r`. -/
def after (d r : DataPacket) : DataPacket :=
  { r with
    metaInfo := { r.metaInfo with appMetaInfo := d.metaInfo.appMetaInfo ++ r.metaInfo.appMetaInfo }
    signature := ⟨r.signature.info, r.signature.value.or d.signature.value⟩ }

/-- What is handed out. -/
def Output.Sound (sha256 : Bytes → Bytes) : Output → Prop
  | .encoded wire => ∃ r, ofBlock wire = .ok r
  | .kept wire => ∃ r, ofBlock wire = .ok r
  | .fullName name => ∃ w r digest, ofBlock w = .ok r ∧
    Component.fromImplicitSha256Digest (sha256 w.wire) = .ok digest ∧
    name = r.name ++ [digest.toBlock]

variable {d d' r : DataPacket} {w : Block}

section

variable {sha256 : Bytes → Bytes}

end

/-- A signature of one octet, the length of what is signed. -/
def lengthSign (bytes : Bytes) : Block :=
  ⟨Signature.tlvSignatureValue,
    element Signature.tlvSignatureValue [UInt8.ofNat bytes.length], [UInt8.ofNat bytes.length]⟩

/-- A `DigestSha256` with an empty KeyLocator. -/
def digestSignature : Signature := ⟨⟨0, some none, [], none⟩, none⟩

/-- A component as it is encoded. -/
def canonical (c : Block) : Block := ⟨c.type, element c.type c.value, c.value⟩

/-- The block of a name. -/
def nameBlock (name : List Block) : Block :=
  ⟨Interest.tlvName, element Interest.tlvName ((name.map canonical).flatMap Block.wire),
    (name.map canonical).flatMap Block.wire⟩

/-- The elements before the SignatureValue. -/
def signedElements (d : DataPacket) : List Block :=
  [nameBlock d.name, d.metaInfo.toBlock, d.getContent, d.signature.info.block]

/-- The portion that is signed. -/
def portion (d : DataPacket) : Bytes := d.signedElements.flatMap Block.wire

/-- The bytes of the elements. -/
def value (d : DataPacket) : Bytes := d.portion ++ d.signature.getValue.wire

/-- The packet that is encoded. -/
def packet (d : DataPacket) : Block :=
  ⟨Interest.tlvData, element Interest.tlvData d.value, d.value⟩

/-- What holds of an object that has been set, or decoded from its own encoding. -/
structure Encodable (d : DataPacket) : Prop where
  name : ∀ c ∈ d.name, c.type ≤ 0xFFFFFFFF
  metaInfo : d.metaInfo.Encodable
  content : d.getContent.type = Interest.tlvContent ∧ d.getContent.WellFormed
  value : ∀ v, d.signature.value = some v → v.type = Signature.tlvSignatureValue ∧ v.WellFormed
  info : d.signature.isSigned = true → d.signature.info.Readable

/-- What others read. -/
def received (d : DataPacket) : DataPacket where
  name := d.name.map canonical
  metaInfo := d.metaInfo.normal
  content := some d.getContent
  signature := ⟨{ d.signature.info with wire := some d.signature.info.block }, d.signature.value⟩
  wire := some d.packet
  fullName := []

theorem writes_componentTemplate (c : Block) : Writes (componentTemplate c) (canonical c).wire := by
  apply Writes.element
  by_cases h : c.value.length > 0
  · rw [if_pos h]
    exact writes_prependByteArray c.value
  · rw [if_neg h, List.length_eq_zero_iff.mp (Nat.eq_zero_of_not_pos h)]
    exact writes_skip

theorem writes_nameTemplate (name : List Block) :
    Writes (nameTemplate name) (nameBlock name).wire := by
  apply Writes.element
  have := writes_foldl writes_componentTemplate writes_skip name.reverse
  simpa [List.flatMap_map] using this

/-- The elements are prepended to what is there. -/
theorem writes_portionTemplate (d : DataPacket) {p : Template} {w : Bytes} (hp : Writes p w) :
    Writes (d.portionTemplate d.signature.info.block p) (d.portion ++ w) := by
  have hall := (((hp.andThen (writes_prependBlock d.signature.info.block)).andThen
    (writes_prependBlock d.getContent)).andThen d.metaInfo.writes_wireEncode).andThen
    (writes_nameTemplate d.name)
  simpa [portion, signedElements, portionTemplate] using hall

theorem wireEncode_unsigned {p : Template} (h : d.wireEncode true = .ok p) :
    p.run = d.portion := by
  unfold wireEncode at h
  rw [if_neg (by simp)] at h
  cases hinfo : d.signature.getInfo with
  | error e =>
    rw [hinfo] at h
    cases h
  | ok info =>
    rw [hinfo] at h
    obtain rfl := Except.ok.inj h
    obtain rfl := SignatureInfo.eq_block_of_encoded hinfo
    simpa using (d.writes_portionTemplate writes_skip).run

theorem wireDecode_nameBlock {name : List Block} (hname : ∀ c ∈ name, c.type ≤ 0xFFFFFFFF)
    (hsize : (nameBlock name).wire.length < 2 ^ 64) :
    (nameBlock name).WellFormed ∧ Name.wireDecode (nameBlock name) = .ok (name.map canonical) := by
  simp only [nameBlock, element_length] at hsize
  have hwf : ∀ b ∈ name.map canonical, b.WellFormed := by
    intro b hb
    have hle := Block.wire_length_le_of_mem hb
    obtain ⟨c, hc, rfl⟩ := List.mem_map.mp hb
    simp only [canonical, element_length] at hle
    exact Block.reads_element (hname c hc) (by omega)
  refine ⟨Block.reads_element (by decide) (by omega), ?_⟩
  unfold Name.wireDecode
  rw [if_neg (by simp [nameBlock, Interest.tlvName])]
  have hparse : Block.parse (nameBlock name).value [] = (name.map canonical, .ok ()) :=
    Block.parse_eq_ok_iff.mpr ⟨rfl, hwf⟩
  rw [hparse]

/-- The SignatureValue, or what is encoded without one. -/
theorem getValue_spec (hd : d.Encodable) : d.signature.getValue.WellFormed ∧
    (d.signature.getValue.type = Signature.tlvSignatureValue ∧
        d.signature.value = some d.signature.getValue ∨
      d.signature.getValue.type = 0xFFFFFFFF ∧ d.signature.value = none) := by
  have hv := hd.value
  unfold Signature.getValue
  cases h : d.signature.value with
  | none => exact ⟨Block.reads_element (by decide) (by simp), .inr ⟨rfl, rfl⟩⟩
  | some v => exact ⟨(hv v h).2, .inl ⟨(hv v h).1, rfl⟩⟩

theorem find_signatureValue (hd : d.Encodable) (hinfo : d.signature.info.Readable) :
    Block.find (d.signedElements ++ [d.signature.getValue]) Signature.tlvSignatureValue =
      d.signature.value := by
  have htype := SignatureInfo.block_type hinfo
  obtain ⟨hvalue, hsome⟩ | ⟨hvalue, hnone⟩ := (getValue_spec hd).2
  · simp [Block.find, signedElements, nameBlock, MetaInfo.toBlock, hd.content.1, htype, hvalue,
      hsome, Interest.tlvName, Interest.tlvContent, MetaInfo.tlvMetaInfo,
      SignatureInfo.tlvSignatureInfo, Signature.tlvSignatureValue]
  · simp [Block.find, signedElements, nameBlock, MetaInfo.toBlock, hd.content.1, htype, hvalue,
      hnone, Interest.tlvName, Interest.tlvContent, MetaInfo.tlvMetaInfo,
      SignatureInfo.tlvSignatureInfo, Signature.tlvSignatureValue]

theorem get_content (hd : d.Encodable) : Block.get (d.signedElements ++ [d.signature.getValue])
    Interest.tlvContent = .ok d.getContent := by
  simp [Block.get, Block.find, signedElements, nameBlock, MetaInfo.toBlock, hd.content.1,
    Interest.tlvName, Interest.tlvContent, MetaInfo.tlvMetaInfo]

theorem get_signatureInfo (hd : d.Encodable) (hinfo : d.signature.info.Readable) :
    Block.get (d.signedElements ++ [d.signature.getValue]) SignatureInfo.tlvSignatureInfo =
      .ok d.signature.info.block := by
  simp [Block.get, Block.find, signedElements, nameBlock, MetaInfo.toBlock, hd.content.1,
    SignatureInfo.block_type hinfo, Interest.tlvName, Interest.tlvContent, MetaInfo.tlvMetaInfo,
    SignatureInfo.tlvSignatureInfo]

/-- What is encoded is read back. -/
theorem ofBlock_packet (hd : d.Encodable) (hinfo : d.signature.info.Readable)
    (hsize : d.value.length < 2 ^ 64) : ofBlock d.packet = .ok d.received := by
  have hvalue : d.value = (d.signedElements ++ [d.signature.getValue]).flatMap Block.wire := by
    simp [value, portion]
  have hlen : ∀ b ∈ d.signedElements, b.wire.length < 2 ^ 64 := by
    intro b hb
    have := Block.wire_length_le_of_mem (List.mem_append_left [d.signature.getValue] hb)
    rw [← hvalue] at this
    omega
  have hmeta := hlen d.metaInfo.toBlock (by simp [signedElements])
  have hmetaSize : d.metaInfo.value.length < 2 ^ 64 := by
    simp only [MetaInfo.toBlock, element_length] at hmeta
    omega
  obtain ⟨hnameWf, hnameDecode⟩ :=
    wireDecode_nameBlock hd.name (hlen (nameBlock d.name) (by simp [signedElements]))
  obtain ⟨-, hinfoWf, hinfoDecode⟩ :=
    SignatureInfo.block_spec hinfo (hlen d.signature.info.block (by simp [signedElements]))
  have hmetaDecode : (ofName []).metaInfo.wireDecode d.metaInfo.toBlock = _ :=
    MetaInfo.wireDecode_toBlock hd.metaInfo hmetaSize MetaInfo.default
  have hparse : Block.parse d.packet.value [] =
      (d.signedElements ++ [d.signature.getValue], .ok ()) := by
    refine Block.parse_eq_ok_iff.mpr ⟨hvalue, ?_⟩
    simp only [signedElements, List.cons_append, List.nil_append, List.mem_cons, List.not_mem_nil,
      or_false, forall_eq_or_imp, forall_eq]
    exact ⟨hnameWf, Block.reads_element (by decide) hmetaSize, hd.content.2, hinfoWf,
      (getValue_spec hd).1⟩
  have hname : Block.get (d.signedElements ++ [d.signature.getValue]) Interest.tlvName =
      .ok (nameBlock d.name) := rfl
  have hmetaBlock : Block.get (d.signedElements ++ [d.signature.getValue]) MetaInfo.tlvMetaInfo =
      .ok d.metaInfo.toBlock := rfl
  unfold ofBlock wireDecode
  rw [hparse]
  dsimp only
  rw [hname, ok_bind, hnameDecode, ok_bind, hmetaBlock, ok_bind, hmetaDecode, ok_bind,
    get_content hd, ok_bind, get_signatureInfo hd hinfo, ok_bind, hinfoDecode, ok_bind,
    find_signatureValue hd hinfo]
  cases hval : d.signature.value with
  | none => simp [received, hval, ofName, MetaInfo.normal, MetaInfo.default]
  | some v =>
    have hset : Signature.setValue ⟨{ d.signature.info with wire := some d.signature.info.block },
        none⟩ v = .ok ⟨{ d.signature.info with wire := some d.signature.info.block }, some v⟩ :=
      if_neg (not_not.mpr (hd.value v hval).1)
    simp [received, hval, ofName, hset, MetaInfo.normal, MetaInfo.default]

/-! ### Signing and verifying -/

section

variable {pureSign : Bytes → Block} {signature : Signature}

/-- The object with its signature over the portion that is signed. -/
def signed (pureSign : Bytes → Block) (signature : Signature) (d : DataPacket) : DataPacket :=
  { d with signature := { signature with
      value := some (pureSign { d with signature := signature }.portion) } }

/-- What a key signs with is a SignatureValue. -/
def Signs (pureSign : Bytes → Block) : Prop :=
  ∀ bytes, (pureSign bytes).type = Signature.tlvSignatureValue ∧ (pureSign bytes).WellFormed

theorem signed_encodable (hd : d.Encodable) (hinfo : signature.info.Readable)
    (hsign : Signs pureSign) : (d.signed pureSign signature).Encodable where
  name := hd.name
  metaInfo := hd.metaInfo
  content := hd.content
  value v hv := by
    obtain rfl := Option.some.inj hv
    exact hsign _
  info _ := hinfo

/-- The packet that a call of `sign` makes. -/
theorem packet_of_sign {w : Block} (h : d.sign pureSign signature = .ok (w, d')) :
    (d.signed pureSign signature).value.length < 2 ^ 64 ∧
      w = (d.signed pureSign signature).packet := by
  unfold sign set at h
  rw [ok_bind] at h
  split at h
  · cases h
  · rename_i encoder hencode
    have hportion : encoder.run = { d with signature := signature }.portion :=
      wireEncode_unsigned hencode
    rw [hportion] at h
    unfold wireEncodeSigned at h
    obtain ⟨wire, hbuffer, h⟩ := bind_eq_ok h
    obtain ⟨d'', -, h⟩ := bind_eq_ok h
    obtain ⟨rfl, -⟩ := Prod.mk.inj (Except.ok.inj h)
    exact Block.ofBuffer_element (by decide) hbuffer

theorem digestSignature_readable : digestSignature.info.Readable where
  type := by decide
  keyLocator locator h := by
    obtain rfl := Option.some.inj h
    exact .inl rfl
  otherTlvs b hb := by cases hb
  unambiguous h := by cases h

theorem signs_lengthSign : Signs lengthSign := fun _ =>
  ⟨rfl, Block.reads_element (by decide) (by simp)⟩

/-- What the setters are given. -/
def Setter.Encodable : Setter → Prop
  | .setName name => ∀ c ∈ name, c.type ≤ 0xFFFFFFFF
  | .setMetaInfo metaInfo => metaInfo.Encodable
  | .setContentType type => type < 2 ^ 32
  | .setFreshnessPeriod freshnessPeriod => freshnessPeriod < 2 ^ 63
  | .setFinalBlockId finalBlockId => finalBlockId.Valid
  | .setContent content => content.WellFormed ∧ content.wire.length < 2 ^ 64
  | .setSignature signature => signature.info.Readable ∧ ∀ v, signature.value = some v →
    v.type = Signature.tlvSignatureValue ∧ v.WellFormed
  | .setSignatureValue value => value.WellFormed

/-- The wires that have been encoded. -/
def encodings (out : List Output) : List Block :=
  out.filterMap fun o => match o with
    | .encoded wire => some wire
    | _ => none

/-- What a call does to the application elements: a new encoding holds those that are
there, and leaves them twice. -/
inductive Copies (d d' : DataPacket) (new : List Output) : Prop
  | kept (happ : d'.metaInfo.appMetaInfo = d.metaInfo.appMetaInfo) (hnew : encodings new = [])
  | doubled (w : Block) (r : DataPacket) (hw : ofBlock w = .ok r)
    (hr : r.metaInfo.appMetaInfo = d.metaInfo.appMetaInfo)
    (happ : d'.metaInfo.appMetaInfo = d.metaInfo.appMetaInfo ++ d.metaInfo.appMetaInfo)
    (hnew : encodings new = [w])

/-- Copies of the application elements. -/
def copies (n : ℕ) (appMetaInfo : List Block) : List Block :=
  (List.replicate (2 ^ n) appMetaInfo).flatten

theorem copies_succ (n : ℕ) (appMetaInfo : List Block) :
    copies (n + 1) appMetaInfo = copies n appMetaInfo ++ copies n appMetaInfo := by
  unfold copies
  rw [pow_succ, Nat.mul_two, List.replicate_add, List.flatten_append]

/-- The application elements after the encodings of a run, and in each of them. -/
structure Copied (appMetaInfo : List Block) (d : DataPacket) (out : List Output) : Prop where
  held : d.metaInfo.appMetaInfo = copies (encodings out).length appMetaInfo
  read : ∀ k w, (encodings out)[k]? = some w →
    ∃ r, ofBlock w = .ok r ∧ r.metaInfo.appMetaInfo = copies k appMetaInfo

theorem Copied.step {appMetaInfo : List Block} {out new : List Output}
    (h : Copied appMetaInfo d out) (hnew : Copies d d' new) :
    Copied appMetaInfo d' (out ++ new) := by
  have happend : encodings (out ++ new) = encodings out ++ encodings new :=
    List.filterMap_append
  cases hnew with
  | kept happ hnil =>
    rw [hnil, List.append_nil] at happend
    refine ⟨?_, ?_⟩
    · rw [happ, happend]
      exact h.held
    · rw [happend]
      exact h.read
  | doubled w r hw hr happ hone =>
    rw [hone] at happend
    refine ⟨?_, ?_⟩
    · rw [happ, happend, List.length_append, List.length_singleton, copies_succ, h.held]
    · intro k w' hk
      rw [happend] at hk
      rcases Nat.lt_or_ge k (encodings out).length with hlt | hge
      · rw [List.getElem?_append_left hlt] at hk
        exact h.read k w' hk
      · rw [List.getElem?_append_right hge, List.getElem?_singleton] at hk
        obtain ⟨hzero, heq⟩ := Option.ite_none_right_eq_some.mp hk
        obtain rfl := Option.some.inj heq
        obtain rfl : k = (encodings out).length := by omega
        exact ⟨r, hw, hr.trans h.held⟩

end

end DataPacket
end Ndn
end IcnDemo
