/-
# MetaInfo and SignatureInfo on the wire

The fields of a `MetaInfo` and of a `SignatureInfo` are read by their position: an element
is taken if it has the type of the field that comes next (`takeField`), and what is left
over is kept as it is. Application elements have types of their own (`addAppMetaInfo`), so
what is encoded is read back (`MetaInfo.wireDecode_toBlock`,
`SignatureInfo.ofBlock_toBlock`).

`MetaInfo::wireDecode` appends to the application elements that are there already.
-/
import IcnDemo.Ndn.InterestWire

namespace IcnDemo
namespace Ndn

open Lib.Loop Lib.PrefixCode Tlv

namespace Block

/-- `Block::blockFromValue` of a block with this value. -/
def blockFromValue (value : Bytes) : Except Error Block :=
  if value.length = 0 then .error "Underlying value buffer is empty"
  else do
    let (type, begin) ← readType value
    let (length, begin) ← readVarNumber begin
    (if length ≠ begin.length then .error "TLV length mismatches buffer length"
      else .ok ⟨type, value, begin⟩)

/-- The element of a type, if the elements start with it, and the elements after it. -/
def takeField (type : ℕ) : List Block → Option Block × List Block
  | [] => (none, [])
  | val :: rest => if val.type = type then (some val, rest) else (none, val :: rest)

/-- A value that is one element is a block of its own. -/
theorem blockFromValue_wire {b : Block} (h : b.WellFormed) : blockFromValue b.wire = .ok b := by
  have hbuffer : ofBuffer b.wire = .ok b :=
    ofBuffer_eq_ok_iff.mpr (fromBuffer_eq_some_iff.mpr ⟨by simp, h⟩)
  have hpos : ¬ b.wire.length = 0 := fun h0 => h.wire_ne_nil (List.length_eq_zero_iff.mp h0)
  unfold blockFromValue
  rw [if_neg hpos]
  unfold ofBuffer at hbuffer
  obtain ⟨⟨type, begin⟩, htype, hbuffer⟩ := bind_eq_ok hbuffer
  obtain ⟨⟨length, begin'⟩, hlength, hbuffer⟩ := bind_eq_ok hbuffer
  rw [htype, ok_bind]
  dsimp only
  rw [hlength, ok_bind]
  dsimp only at hbuffer ⊢
  split at hbuffer
  · cases hbuffer
  · rename_i hlen
    rwa [if_neg hlen]

/-- A field is taken if it is there, unless the next element has its type. -/
theorem takeField_append {type : ℕ} {field : Option Block} {rest : List Block}
    (hfield : ∀ b, field = some b → b.type = type)
    (hrest : field = none → ∀ b ∈ rest.head?, b.type ≠ type) :
    takeField type (field.toList ++ rest) = (field, rest) := by
  cases field with
  | some b => simp [takeField, hfield b rfl]
  | none =>
    cases rest with
    | nil => rfl
    | cons b rest => simp [takeField, hrest rfl b rfl]

theorem mem_field_rest {b : Block} {field : Option Block} {rest : List Block}
    (h : b ∈ field.toList ++ rest) : field = some b ∨ b ∈ rest := by
  rcases List.mem_append.mp h with h | h
  · exact .inl (Option.mem_toList.mp h)
  · exact .inr h

/-- The types after a field are greater if those of the field and of the rest are. -/
theorem lt_type_of_mem {lower type : ℕ} {field : Option Block} {rest : List Block}
    (hfield : ∀ b, field = some b → b.type = type) (hlt : lower < type)
    (hrest : ∀ b ∈ rest, lower < b.type) : ∀ b ∈ field.toList ++ rest, lower < b.type := by
  intro b hb
  rcases mem_field_rest hb with h | h
  · rw [hfield b h]
    exact hlt
  · exact hrest b h

end Block

/-- Blocks prepended from the last to the first. -/
def prependBlocks (blocks : List Block) : Template :=
  blocks.reverse.foldl (fun p block => p.andThen (prependBlock block)) Template.skip

theorem writes_prependBlocks (blocks : List Block) :
    Writes (prependBlocks blocks) (blocks.flatMap Block.wire) := by
  have := writes_foldl writes_prependBlock writes_skip blocks.reverse
  simpa [prependBlocks] using this

/-! ### MetaInfo -/

structure MetaInfo where
  type : ℕ
  /-- In milliseconds. -/
  freshnessPeriod : ℤ
  finalBlockId : Component
  appMetaInfo : List Block
deriving DecidableEq

/-- `name::Component::Component()` -/
def Component.none : Component := ⟨.nameComponent, []⟩

namespace MetaInfo

/-- `tlv::MetaInfo` -/
def tlvMetaInfo : ℕ := 20
/-- `tlv::ContentType` -/
def tlvContentType : ℕ := 24
/-- `tlv::FreshnessPeriod` -/
def tlvFreshnessPeriod : ℕ := 25
/-- `tlv::FinalBlockId` -/
def tlvFinalBlockId : ℕ := 26
/-- `tlv::ContentType_Blob` -/
def contentTypeBlob : ℕ := 0

/-- `MetaInfo::MetaInfo()` -/
def default : MetaInfo := ⟨contentTypeBlob, -1, Component.none, []⟩

/-- What may be in the application range. -/
def checkAppMetaInfo (block : Block) : Except Error Unit :=
  if ¬ (128 ≤ block.type ∧ block.type ≤ 252) then
    .error "AppMetaInfo block has type outside the application range [128, 252]"
  else .ok ()

def setAppMetaInfo (m : MetaInfo) (info : List Block) : Except Error MetaInfo := do
  info.forM checkAppMetaInfo
  .ok { m with appMetaInfo := info }

def addAppMetaInfo (m : MetaInfo) (block : Block) : Except Error MetaInfo := do
  checkAppMetaInfo block
  .ok { m with appMetaInfo := m.appMetaInfo ++ [block] }

/-- `MetaInfo::removeAppMetaInfo`: the first element of the type. -/
def removeAppMetaInfo (m : MetaInfo) (tlvType : ℕ) : Bool × MetaInfo :=
  (m.appMetaInfo.any fun b => b.type = tlvType,
    { m with appMetaInfo := m.appMetaInfo.eraseP fun b => b.type = tlvType })

/-- `MetaInfo::wireEncode<TAG>` -/
def wireEncode (m : MetaInfo) : Template :=
  Template.element tlvMetaInfo
    ((((prependBlocks m.appMetaInfo).andThen
      (Template.optional (m.finalBlockId.value.length ≠ 0)
        (Template.element tlvFinalBlockId m.finalBlockId.wireEncode))).andThen
      (Template.optional (m.freshnessPeriod ≥ 0)
        (prependNonNegativeIntegerBlock tlvFreshnessPeriod m.freshnessPeriod.toNat))).andThen
      (Template.optional (m.type ≠ contentTypeBlob)
        (prependNonNegativeIntegerBlock tlvContentType m.type)))

/-- The type, which is kept in 32 bits. -/
def decodeType : Option Block → Except Error ℕ
  | some val => (Block.readNumber val).map fun n => n % 2 ^ 32
  | none => .ok contentTypeBlob

/-- The period, which is kept in a signed 64-bit number; `time::milliseconds::min()` stands
for none. -/
def decodeFreshnessPeriod : Option Block → Except Error ℤ
  | some val => (Block.readNumber val).map fun n : ℕ => (n : ℤ).bmod (2 ^ 64)
  | none => .ok (-2 ^ 63)

def decodeFinalBlockId : Option Block → Except Error Component
  | some val => do
    let block ← Block.blockFromValue val.value
    let finalBlockId ← Component.ofBlock block
    .ok (if finalBlockId.type ≠ .nameComponent then Component.none else finalBlockId)
  | none => .ok Component.none

/-- `MetaInfo::wireDecode`, into an object that may hold something already. -/
def wireDecode (m : MetaInfo) (wire : Block) : Except Error MetaInfo :=
  match Block.parse wire.value [] with
  | (_, .error e) => .error e
  | (subBlocks, .ok ()) => do
    let (val, rest) := Block.takeField tlvContentType subBlocks
    let type ← decodeType val
    let (val, rest) := Block.takeField tlvFreshnessPeriod rest
    let freshnessPeriod ← decodeFreshnessPeriod val
    let (val, rest) := Block.takeField tlvFinalBlockId rest
    let finalBlockId ← decodeFinalBlockId val
    .ok ⟨type, freshnessPeriod, finalBlockId, m.appMetaInfo ++ rest⟩

variable {m m' : MetaInfo}

/-! ### What is encoded of a MetaInfo -/

/-- The field of the type. -/
def typeField (m : MetaInfo) : Option Block :=
  if m.type ≠ contentTypeBlob then some (numberBlock tlvContentType m.type) else none

/-- The block of a FinalBlockId. -/
def finalBlock (c : Component) : Block :=
  ⟨tlvFinalBlockId, element tlvFinalBlockId c.wire, c.wire⟩

/-- The field of the FinalBlockId. -/
def finalBlockIdField (m : MetaInfo) : Option Block :=
  if m.finalBlockId.value.length ≠ 0 then some (finalBlock m.finalBlockId) else none

/-- The elements that are encoded, in order. -/
def elements (m : MetaInfo) : List Block :=
  m.typeField.toList ++ ((Selectors.numberField tlvFreshnessPeriod m.freshnessPeriod).toList ++
    (m.finalBlockIdField.toList ++ m.appMetaInfo))

/-- The bytes of the elements. -/
def value (m : MetaInfo) : Bytes := m.elements.flatMap Block.wire

/-- The block of a MetaInfo that is encoded. -/
def toBlock (m : MetaInfo) : Block := ⟨tlvMetaInfo, element tlvMetaInfo m.value, m.value⟩

/-- What the setters keep. -/
structure Encodable (m : MetaInfo) : Prop where
  type : m.type < 2 ^ 32
  freshnessPeriod : m.freshnessPeriod < 2 ^ 63
  finalBlockId : m.finalBlockId.Valid
  appMetaInfo : ∀ b ∈ m.appMetaInfo, (128 ≤ b.type ∧ b.type ≤ 252) ∧ b.WellFormed

/-- What is read back: no period is `time::milliseconds::min()`, and a FinalBlockId is
a generic component. -/
def normal (m : MetaInfo) : MetaInfo where
  type := m.type
  freshnessPeriod := if m.freshnessPeriod ≥ 0 then m.freshnessPeriod else -2 ^ 63
  finalBlockId := if m.finalBlockId.type ≠ .nameComponent then Component.none else m.finalBlockId
  appMetaInfo := m.appMetaInfo

theorem default_encodable : default.Encodable where
  type := by decide
  freshnessPeriod := by decide
  finalBlockId := by decide
  appMetaInfo := by simp [default]

theorem checkAppMetaInfo_eq_ok {block : Block} (h : checkAppMetaInfo block = .ok ()) :
    128 ≤ block.type ∧ block.type ≤ 252 := by
  unfold checkAppMetaInfo at h
  split at h
  · cases h
  · rename_i hrange
    exact not_not.mp hrange

theorem forM_checkAppMetaInfo : ∀ {info : List Block}, info.forM checkAppMetaInfo = .ok () →
    ∀ b ∈ info, 128 ≤ b.type ∧ b.type ≤ 252
  | [], _ => by simp
  | b :: info, h => by
    obtain ⟨⟨⟩, hb, h⟩ := bind_eq_ok h
    exact List.forall_mem_cons.mpr ⟨checkAppMetaInfo_eq_ok hb, forM_checkAppMetaInfo h⟩

theorem setAppMetaInfo_encodable (hm : m.Encodable) {info : List Block}
    (hinfo : ∀ b ∈ info, b.WellFormed) (h : m.setAppMetaInfo info = .ok m') : m'.Encodable := by
  obtain ⟨⟨⟩, hcheck, h⟩ := bind_eq_ok h
  obtain rfl := Except.ok.inj h
  exact { hm with appMetaInfo := fun b hb => ⟨forM_checkAppMetaInfo hcheck b hb, hinfo b hb⟩ }

theorem addAppMetaInfo_encodable (hm : m.Encodable) {b : Block} (hb : b.WellFormed)
    (h : m.addAppMetaInfo b = .ok m') : m'.Encodable := by
  obtain ⟨⟨⟩, hcheck, h⟩ := bind_eq_ok h
  obtain rfl := Except.ok.inj h
  refine { hm with appMetaInfo := fun b' hb' => ?_ }
  rcases List.mem_append.mp hb' with hb' | hb'
  · exact hm.appMetaInfo b' hb'
  · obtain rfl := List.mem_singleton.mp hb'
    exact ⟨checkAppMetaInfo_eq_ok hcheck, hb⟩

theorem removeAppMetaInfo_encodable (hm : m.Encodable) (tlvType : ℕ) :
    (m.removeAppMetaInfo tlvType).2.Encodable :=
  { hm with appMetaInfo := fun b hb => hm.appMetaInfo b (List.mem_of_mem_eraseP hb) }

theorem writes_wireEncode (m : MetaInfo) : Writes m.wireEncode m.toBlock.wire := by
  have hfinal : Writes (Template.optional (m.finalBlockId.value.length ≠ 0)
      (Template.element tlvFinalBlockId m.finalBlockId.wireEncode))
      (Block.fieldWire m.finalBlockIdField) :=
    Writes.optional (b := finalBlock m.finalBlockId)
      (m.finalBlockId.writes_wireEncode.element tlvFinalBlockId)
  have htype : Writes (Template.optional (m.type ≠ contentTypeBlob)
      (prependNonNegativeIntegerBlock tlvContentType m.type)) (Block.fieldWire m.typeField) :=
    (writes_numberBlock tlvContentType m.type).optional
  have hall := (((writes_prependBlocks m.appMetaInfo).andThen hfinal).andThen
    (Selectors.writes_numberField tlvFreshnessPeriod m.freshnessPeriod)).andThen htype
  unfold toBlock
  apply Writes.element
  simpa [value, elements, Block.fieldWire] using hall

/-! ### What is read back of a MetaInfo -/

theorem typeField_spec {b : Block} (h : m.typeField = some b) :
    b.type = tlvContentType ∧ b.WellFormed := by
  unfold typeField at h
  split at h
  · obtain rfl := Option.some.inj h
    exact ⟨rfl, numberBlock_wellFormed (by simp [tlvContentType]) _⟩
  · cases h

theorem finalBlockIdField_spec {b : Block} (h : m.finalBlockIdField = some b) :
    m.finalBlockId.value.length ≠ 0 ∧ b = finalBlock m.finalBlockId := by
  unfold finalBlockIdField at h
  split at h
  · rename_i hne
    exact ⟨hne, (Option.some.inj h).symm⟩
  · cases h

theorem elements_wellFormed (hm : m.Encodable) (hsize : m.value.length < 2 ^ 64) :
    ∀ b ∈ m.elements, b.WellFormed := by
  intro b hb
  have hlen := Nat.lt_of_le_of_lt (Block.wire_length_le_of_mem hb) hsize
  rcases Block.mem_field_rest hb with h | hb
  · exact (typeField_spec h).2
  · rcases Block.mem_field_rest hb with h | hb
    · exact (Selectors.numberField_spec (by simp [tlvFreshnessPeriod]) h).2
    · rcases Block.mem_field_rest hb with h | hb
      · obtain ⟨-, rfl⟩ := finalBlockIdField_spec h
        simp only [finalBlock, element_length] at hlen
        exact Block.reads_element (by simp [tlvFinalBlockId]) (by omega)
      · exact (hm.appMetaInfo b hb).2

theorem decodeType_field (hm : m.Encodable) : decodeType m.typeField = .ok m.type := by
  have hlt := hm.type
  unfold typeField
  by_cases h : m.type ≠ contentTypeBlob
  · rw [if_pos h]
    unfold decodeType
    dsimp only
    rw [readNumber_numberBlock (by omega)]
    exact congrArg Except.ok (Nat.mod_eq_of_lt hlt)
  · rw [if_neg h, not_not.mp h]
    rfl

theorem decodeFreshnessPeriod_field (hm : m.Encodable) :
    decodeFreshnessPeriod (Selectors.numberField tlvFreshnessPeriod m.freshnessPeriod) =
      .ok m.normal.freshnessPeriod := by
  have hlt := hm.freshnessPeriod
  unfold Selectors.numberField normal
  by_cases h : m.freshnessPeriod ≥ 0
  · simp only [if_pos h]
    unfold decodeFreshnessPeriod
    dsimp only
    rw [readNumber_numberBlock (by omega)]
    have hmod : ((m.freshnessPeriod.toNat : ℕ) : ℤ).bmod (2 ^ 64) = m.freshnessPeriod := by
      rw [Int.bmod_eq_of_le_mul_two (by omega) (by omega)]
      omega
    exact congrArg Except.ok hmod
  · simp only [if_neg h]
    rfl

theorem decodeFinalBlockId_field (hm : m.Encodable) (hsize : m.value.length < 2 ^ 64) :
    decodeFinalBlockId m.finalBlockIdField = .ok m.normal.finalBlockId := by
  by_cases h : m.finalBlockId.value.length ≠ 0
  · have hfield : m.finalBlockIdField = some (finalBlock m.finalBlockId) := if_pos h
    have hmem : finalBlock m.finalBlockId ∈ m.elements := by simp [elements, hfield]
    have hlen := Nat.lt_of_le_of_lt (Block.wire_length_le_of_mem hmem) hsize
    simp only [finalBlock, Component.wire, element_length] at hlen
    have hwf : m.finalBlockId.toBlock.WellFormed := Component.toBlock_wellFormed (by omega)
    have hblock : Block.blockFromValue (finalBlock m.finalBlockId).value =
        .ok m.finalBlockId.toBlock := Block.blockFromValue_wire hwf
    rw [hfield]
    unfold decodeFinalBlockId
    dsimp only
    rw [hblock, ok_bind, Component.ofBlock_toBlock hm.finalBlockId]
    rfl
  · have hfield : m.finalBlockIdField = none := if_neg h
    have hnil : m.finalBlockId.value = [] := List.length_eq_zero_iff.mp (not_not.mp h)
    have hnormal : m.normal.finalBlockId = Component.none := by
      unfold normal
      dsimp only
      split
      · rfl
      · rename_i htype
        have htype := not_not.mp htype
        generalize m.finalBlockId = c at hnil htype
        obtain ⟨type, value⟩ := c
        obtain rfl : type = .nameComponent := htype
        obtain rfl : value = [] := hnil
        rfl
    rw [hfield, hnormal]
    rfl

/-- What is encoded is read back, after the application elements that are there. -/
theorem wireDecode_toBlock (hm : m.Encodable) (hsize : m.value.length < 2 ^ 64) (old : MetaInfo) :
    wireDecode old m.toBlock =
      .ok { m.normal with appMetaInfo := old.appMetaInfo ++ m.appMetaInfo } := by
  have hparse : Block.parse m.toBlock.value [] = (m.elements, .ok ()) :=
    Block.parse_eq_ok_iff.mpr ⟨rfl, elements_wellFormed hm hsize⟩
  have htype : ∀ b, m.typeField = some b → b.type = tlvContentType := fun b hb =>
    (typeField_spec hb).1
  have hperiod : ∀ b, Selectors.numberField tlvFreshnessPeriod m.freshnessPeriod = some b →
      b.type = tlvFreshnessPeriod := fun b hb =>
    (Selectors.numberField_spec (by simp [tlvFreshnessPeriod]) hb).1
  have hfinal : ∀ b, m.finalBlockIdField = some b → b.type = tlvFinalBlockId := by
    intro b hb
    obtain ⟨-, rfl⟩ := finalBlockIdField_spec hb
    rfl
  have happ : ∀ lower < 128, ∀ b ∈ m.appMetaInfo, lower < b.type := fun lower hlt b hb =>
    Nat.lt_of_lt_of_le hlt (hm.appMetaInfo b hb).1.1
  have hrest := Block.lt_type_of_mem hfinal (by decide) (happ tlvFreshnessPeriod (by decide))
  have hrest' := Block.lt_type_of_mem hperiod (by decide)
    (Block.lt_type_of_mem hfinal (by decide) (happ tlvContentType (by decide)))
  have htake := Block.takeField_append htype fun _ b hb =>
    (hrest' b (List.mem_of_mem_head? hb)).ne'
  have htake' := Block.takeField_append hperiod fun _ b hb =>
    (hrest b (List.mem_of_mem_head? hb)).ne'
  have htake'' := Block.takeField_append hfinal fun _ b hb =>
    (happ _ (by decide) b (List.mem_of_mem_head? hb)).ne'
  unfold wireDecode
  rw [hparse]
  unfold elements
  dsimp only
  rw [htake]
  dsimp only
  rw [decodeType_field hm, ok_bind, htake']
  dsimp only
  rw [decodeFreshnessPeriod_field hm, ok_bind, htake'']
  dsimp only
  rw [decodeFinalBlockId_field hm hsize]
  rfl

end MetaInfo

/-! ### SignatureInfo -/

structure SignatureInfo where
  /-- -1 without a signature. -/
  type : ℤ
  keyLocator : Option KeyLocator
  otherTlvs : List Block
  /-- `m_wire`, which the setters reset. -/
  wire : Option Block
deriving DecidableEq

namespace SignatureInfo

/-- `tlv::SignatureInfo` -/
def tlvSignatureInfo : ℕ := 22
/-- `tlv::SignatureType` -/
def tlvSignatureType : ℕ := 27

/-- `SignatureInfo::SignatureInfo()` -/
def default : SignatureInfo := ⟨-1, none, [], none⟩

/-- The block of a KeyLocator, which may be empty. -/
def locatorBlock (locator : KeyLocator) : Block :=
  locator.getD (Selectors.emptyBlock KeyLocator.tlvKeyLocator)

/-- The type as the `uint64_t` that is encoded. -/
def typeCode (info : SignatureInfo) : ℕ := (info.type % 2 ^ 64).toNat

/-- `SignatureInfo::wireEncode<TAG>` -/
def wireEncode (info : SignatureInfo) : Template :=
  Template.element tlvSignatureInfo
    (((prependBlocks info.otherTlvs).andThen
      (info.keyLocator.elim Template.skip fun locator => prependBlock (locatorBlock locator))).andThen
      (prependNonNegativeIntegerBlock tlvSignatureType info.typeCode))

/-- `SignatureInfo::wireEncode() const`: the wire that is there, or a new one. -/
def encoded (info : SignatureInfo) : Except Error Block :=
  match info.wire with
  | some wire => .ok wire
  | none => Block.ofBuffer info.wireEncode.run

/-- `SignatureInfo::SignatureInfo(const Block&)`, by `wireDecode`. -/
def ofBlock (wire : Block) : Except Error SignatureInfo :=
  match Block.parse wire.value [] with
  | (_, .error e) => .error e
  | (subBlocks, .ok ()) =>
    if wire.type ≠ tlvSignatureInfo then .error "Unexpected TLV type when decoding Name"
    else
      match Block.takeField tlvSignatureType subBlocks with
      | (none, _) => .error
          "SignatureInfo does not have sub-TLV or the first sub-TLV is not SignatureType"
      | (some it, rest) => do
        let type ← Block.readNumber it
        let (val, rest) := Block.takeField KeyLocator.tlvKeyLocator rest
        let keyLocator ← val.elim (.ok none) fun it => (KeyLocator.wireDecode it).map some
        .ok ⟨toInt type, keyLocator, rest, some wire⟩

variable {info : SignatureInfo}

/-- The elements that are encoded, in order. -/
def elements (info : SignatureInfo) : List Block :=
  numberBlock tlvSignatureType info.typeCode ::
    ((info.keyLocator.map locatorBlock).toList ++ info.otherTlvs)

/-- The bytes of the elements. -/
def value (info : SignatureInfo) : Bytes := info.elements.flatMap Block.wire

/-- The block of a SignatureInfo that is encoded. -/
def toBlock (info : SignatureInfo) : Block :=
  ⟨tlvSignatureInfo, element tlvSignatureInfo info.value, info.value⟩

/-- What the setters keep. -/
structure Encodable (info : SignatureInfo) : Prop where
  type : 0 ≤ info.type ∧ info.type < 2 ^ 31
  keyLocator : ∀ locator, info.keyLocator = some locator → locator.Made
  otherTlvs : ∀ b ∈ info.otherTlvs, b.WellFormed
  /-- No other element is taken for the KeyLocator. -/
  unambiguous : info.keyLocator = none → ∀ b ∈ info.otherTlvs.head?,
    b.type ≠ KeyLocator.tlvKeyLocator

theorem writes_wireEncode (info : SignatureInfo) : Writes info.wireEncode info.toBlock.wire := by
  have hlocator : Writes
      (info.keyLocator.elim Template.skip fun locator => prependBlock (locatorBlock locator))
      (Block.fieldWire (info.keyLocator.map locatorBlock)) := by
    cases info.keyLocator with
    | none => exact writes_skip
    | some locator => simpa [Block.fieldWire] using writes_prependBlock (locatorBlock locator)
  have hall := ((writes_prependBlocks info.otherTlvs).andThen hlocator).andThen
    (writes_numberBlock tlvSignatureType info.typeCode)
  unfold toBlock
  apply Writes.element
  simpa [value, elements, Block.fieldWire] using hall

/-- A KeyLocator is read back, also an empty one. -/
theorem locatorBlock_spec {locator : KeyLocator} (h : locator.Made)
    (hsize : (locatorBlock locator).wire.length < 2 ^ 64) :
    (locatorBlock locator).type = KeyLocator.tlvKeyLocator ∧ (locatorBlock locator).WellFormed ∧
      KeyLocator.wireDecode (locatorBlock locator) = .ok locator := by
  cases locator with
  | none =>
    exact ⟨rfl, Block.reads_element (by simp [KeyLocator.tlvKeyLocator]) (by simp), rfl⟩
  | some b => exact KeyLocator.wireDecode_made h rfl hsize

theorem keyLocator_spec (hi : info.Encodable) (hsize : info.value.length < 2 ^ 64)
    {locator : KeyLocator} (h : info.keyLocator = some locator) :
    (locatorBlock locator).type = KeyLocator.tlvKeyLocator ∧ (locatorBlock locator).WellFormed ∧
      KeyLocator.wireDecode (locatorBlock locator) = .ok locator := by
  have hmem : locatorBlock locator ∈ info.elements := by simp [elements, h]
  exact locatorBlock_spec (hi.keyLocator locator h)
    (Nat.lt_of_le_of_lt (Block.wire_length_le_of_mem hmem) hsize)

theorem elements_wellFormed (hi : info.Encodable) (hsize : info.value.length < 2 ^ 64) :
    ∀ b ∈ info.elements, b.WellFormed := by
  intro b hb
  rcases List.mem_cons.mp hb with rfl | hb
  · exact numberBlock_wellFormed (by simp [tlvSignatureType]) _
  · rcases Block.mem_field_rest hb with h | h
    · obtain ⟨locator, hlocator, rfl⟩ := Option.map_eq_some_iff.mp h
      exact (keyLocator_spec hi hsize hlocator).2.1
    · exact hi.otherTlvs b h

/-- What is encoded is read back, with its wire. -/
theorem ofBlock_toBlock (hi : info.Encodable) (hsize : info.value.length < 2 ^ 64) :
    ofBlock info.toBlock = .ok { info with wire := some info.toBlock } := by
  obtain ⟨hnonneg, hlt⟩ := hi.type
  have hparse : Block.parse info.toBlock.value [] = (info.elements, .ok ()) :=
    Block.parse_eq_ok_iff.mpr ⟨rfl, elements_wellFormed hi hsize⟩
  have hcode : (info.typeCode : ℤ) = info.type := by
    unfold typeCode
    omega
  have hfirst : Block.takeField tlvSignatureType info.elements =
      (some (numberBlock tlvSignatureType info.typeCode),
        (info.keyLocator.map locatorBlock).toList ++ info.otherTlvs) := by
    simp [elements, Block.takeField, numberBlock]
  have hread : Block.readNumber (numberBlock tlvSignatureType info.typeCode) = .ok info.typeCode :=
    readNumber_numberBlock (by omega)
  have hlocator : ∀ b, info.keyLocator.map locatorBlock = some b →
      b.type = KeyLocator.tlvKeyLocator := by
    intro b hb
    obtain ⟨locator, h, rfl⟩ := Option.map_eq_some_iff.mp hb
    exact (keyLocator_spec hi hsize h).1
  have hdecode : (info.keyLocator.map locatorBlock).elim (.ok none)
      (fun it => (KeyLocator.wireDecode it).map some) =
      (.ok info.keyLocator : Except Error (Option KeyLocator)) := by
    cases h : info.keyLocator with
    | none => rfl
    | some locator =>
      dsimp only [Option.map_some, Option.elim_some]
      rw [(keyLocator_spec hi hsize h).2.2]
      rfl
  have htake := Block.takeField_append hlocator fun h =>
    hi.unambiguous (Option.map_eq_none_iff.mp h)
  unfold ofBlock
  rw [hparse]
  dsimp only
  rw [if_neg (by simp [toBlock]), hfirst]
  dsimp only
  rw [hread, ok_bind, htake]
  dsimp only
  rw [hdecode, ok_bind, hcode, toInt_of_mem (by omega) (by omega)]

/-- What holds of a SignatureInfo that has been set, or read from a wire. -/
def Readable (info : SignatureInfo) : Prop :=
  match info.wire with
  | none => info.Encodable
  | some wire => wire.WellFormed ∧ ofBlock wire = .ok info

/-- The block that is encoded. -/
def block (info : SignatureInfo) : Block := info.wire.getD info.toBlock

theorem eq_block_of_encoded {b : Block} (h : info.encoded = .ok b) : b = info.block := by
  unfold encoded at h
  unfold block
  cases hwire : info.wire with
  | some wire =>
    rw [hwire] at h
    exact (Except.ok.inj h).symm
  | none =>
    rw [hwire] at h
    dsimp only at h
    rw [(writes_wireEncode info).run] at h
    exact (Block.ofBuffer_element (by decide) h).2

/-- The block is answered if its length fits into 64 bits, and it is read back. -/
theorem block_spec (hi : info.Readable) (hsize : info.block.wire.length < 2 ^ 64) :
    info.encoded = .ok info.block ∧ info.block.WellFormed ∧
      ofBlock info.block = .ok { info with wire := some info.block } := by
  unfold Readable at hi
  unfold encoded
  unfold block at hsize ⊢
  cases hwire : info.wire with
  | some wire =>
    rw [hwire] at hi
    exact ⟨rfl, hi.1, by rw [Option.getD_some, hi.2, ← hwire]⟩
  | none =>
    rw [hwire] at hi hsize
    simp only [Option.getD_none, toBlock, element_length] at hsize
    have hwf : info.toBlock.WellFormed := Block.reads_element (by decide) (by omega)
    refine ⟨?_, hwf, ofBlock_toBlock hi (by omega)⟩
    dsimp only
    rw [(writes_wireEncode info).run]
    exact Block.ofBuffer_eq_ok_iff.mpr
      (Block.fromBuffer_eq_some_iff.mpr ⟨by rw [List.append_nil]; rfl, hwf⟩)

/-- What is read from a block has the type of a SignatureInfo. -/
theorem type_of_ofBlock {b : Block} (h : ofBlock b = .ok info) : b.type = tlvSignatureInfo := by
  unfold ofBlock at h
  split at h
  · cases h
  · split at h
    · cases h
    · rename_i htype
      exact not_not.mp htype

theorem block_type (hi : info.Readable) : info.block.type = tlvSignatureInfo := by
  unfold Readable at hi
  unfold block
  cases hwire : info.wire with
  | some wire =>
    rw [hwire] at hi
    exact type_of_ofBlock hi.2
  | none => rfl

end SignatureInfo
end Ndn
end IcnDemo
