/-
# Selectors and Interests on the wire

A field of `Selectors` or of an Interest is encoded as an element of its own type, if
it is there, and found again by its type (`Block.find_fields`). So an Interest that is
encoded is read back: what it asks for is unchanged, numbers below zero become -1 and a
lifetime that is not given becomes the default one (`Interest.read_back`). Of its Exclude
filter this is said for components in the encoding of this library.

`Face::expressInterest` encodes an Interest, which decodes it from its own encoding.
-/
import IcnDemo.Ndn.Selectors
import IcnDemo.Ndn.Number
import IcnDemo.Cxx

namespace IcnDemo
namespace Ndn

open Lib.BigEndian Lib.OrderedMap Lib.Loop Lib.PrefixCode Tlv

/-! ### Elements found by type -/

namespace Block

/-- `Block::find` -/
def find (subBlocks : List Block) (type : ℕ) : Option Block :=
  subBlocks.find? fun subBlock => subBlock.type = type

/-- `Block::get` -/
def get (subBlocks : List Block) (type : ℕ) : Except Error Block :=
  match find subBlocks type with
  | some subBlock => .ok subBlock
  | none => .error
      ("(Block::get) Requested a non-existed type [" ++ toString type ++ "] from Block")

/-- `readNonNegativeInteger(const Block&)` -/
def readNumber (block : Block) : Except Error ℕ :=
  (readNonNegativeInteger block.value.length block.value).map Prod.fst

/-- The elements of the fields that are there. -/
def ofFields (fields : List (ℕ × Option Block)) : List Block :=
  fields.flatMap fun field => field.2.toList

/-- Fields have types of their own. -/
structure Fields (fields : List (ℕ × Option Block)) : Prop where
  nodup : (fields.map Prod.fst).Nodup
  type : ∀ field ∈ fields, ∀ b, field.2 = some b → b.type = field.1

theorem find_eq_none {fields : List (ℕ × Option Block)} (h : Fields fields) {type : ℕ}
    (hno : type ∉ fields.map Prod.fst) : find (ofFields fields) type = none := by
  unfold find ofFields
  simp only [List.find?_eq_none, List.mem_flatMap, Option.mem_toList, decide_eq_true_eq]
  rintro b ⟨field, hf, hb⟩ rfl
  apply hno
  rw [h.type field hf b hb]
  exact List.mem_map_of_mem hf

/-- A field is found by its type. -/
theorem find_fields {fields : List (ℕ × Option Block)} (h : Fields fields)
    {field : ℕ × Option Block} (hf : field ∈ fields) :
    find (ofFields fields) field.1 = field.2 := by
  induction fields with
  | nil => cases hf
  | cons f fields ih =>
    obtain ⟨hnodup, htype⟩ := h
    obtain ⟨hnot, hnodup⟩ := List.nodup_cons.mp hnodup
    obtain ⟨hfirst, htype⟩ := List.forall_mem_cons.mp htype
    have hrest : Fields fields := ⟨hnodup, htype⟩
    have hsplit : ofFields (f :: fields) = f.2.toList ++ ofFields fields := rfl
    unfold find at ih ⊢
    rw [hsplit, List.find?_append]
    rcases List.mem_cons.mp hf with rfl | hf
    · have hnone : (ofFields fields).find? (fun b => b.type = field.1) = none :=
        find_eq_none hrest hnot
      rw [hnone]
      cases hb : field.2 with
      | none => rfl
      | some b => simp [hfirst b hb]
    · have hne : f.1 ≠ field.1 := fun heq => hnot (heq ▸ List.mem_map_of_mem hf)
      rw [ih hrest hf]
      cases hb : f.2 with
      | none => rfl
      | some b => simp [hfirst b hb, hne]

/-- The wires of the fields that are there. -/
def fieldWire (field : Option Block) : Bytes := field.toList.flatMap wire

theorem flatMap_ofFields (fields : List (ℕ × Option Block)) :
    (ofFields fields).flatMap wire = fields.flatMap fun field => fieldWire field.2 := by
  unfold ofFields fieldWire
  rw [List.flatMap_assoc]

/-- The wire of a field is part of the value. -/
theorem wire_length_le {fields : List (ℕ × Option Block)} {type : ℕ} {b : Block}
    (h : (type, some b) ∈ fields) : b.wire.length ≤ ((ofFields fields).flatMap wire).length := by
  have hb : b ∈ ofFields fields := List.mem_flatMap.mpr ⟨(type, some b), h, by simp⟩
  exact wire_length_le_of_mem hb

/-- The elements of fields are well formed if the fields are. -/
theorem ofFields_wellFormed {fields : List (ℕ × Option Block)}
    (h : ∀ type b, (type, some b) ∈ fields → b.WellFormed) :
    ∀ b ∈ ofFields fields, b.WellFormed := by
  intro b hb
  obtain ⟨⟨type, field⟩, hf, hb⟩ := List.mem_flatMap.mp hb
  obtain rfl := Option.mem_toList.mp hb
  exact h type b hf

end Block

/-! ### Encoding -/

/-- A field that is encoded if it is there. -/
def Template.optional (p : Prop) [Decidable p] (t : Template) : Template :=
  if p then t else Template.skip

/-- `encoder.prependBlock` of a block with a wire. -/
def prependBlock (b : Block) : Template := fun _ e => e.prependByteArray b.wire

/-- The element of a number. -/
def numberBlock (type n : ℕ) : Block :=
  ⟨type, element type (encodeNonNegativeInteger n), encodeNonNegativeInteger n⟩

namespace KeyLocator

/-- `tlv::KeyLocator` -/
def tlvKeyLocator : ℕ := 28

/-- After `setName`. -/
def ofName (name : Name) : KeyLocator :=
  some ⟨tlvKeyLocator, element tlvKeyLocator name.wire, name.wire⟩

/-- After `setKeyDigest`. -/
def ofKeyDigest (keyDigest : Block) : KeyLocator :=
  some ⟨tlvKeyLocator, element tlvKeyLocator keyDigest.wire, keyDigest.wire⟩

/-- `KeyLocator::wireEncode<TAG>` of a locator that is not empty. -/
def wireEncode (locator : KeyLocator) : Template :=
  locator.elim Template.skip prependBlock

/-- `KeyLocator::wireDecode` -/
def wireDecode (wire : Block) : Except Error KeyLocator :=
  if wire.type ≠ tlvKeyLocator then .error "Unexpected TLV type during KeyLocator decoding"
  else
    match Block.parse wire.value [] with
    | (_, .error e) => .error e
    | ([], .ok ()) => .ok none
    | (first :: _, .ok ()) =>
      if first.type = 7 then (Name.wireDecode first).map fun _ => some wire else .ok (some wire)

end KeyLocator

namespace Selectors

/-- `tlv::Selectors` -/
def tlvSelectors : ℕ := 9
/-- `tlv::MinSuffixComponents` -/
def tlvMinSuffixComponents : ℕ := 13
/-- `tlv::MaxSuffixComponents` -/
def tlvMaxSuffixComponents : ℕ := 14
/-- `tlv::ChildSelector` -/
def tlvChildSelector : ℕ := 17
/-- `tlv::MustBeFresh` -/
def tlvMustBeFresh : ℕ := 18

/-- `Selectors::wireEncode<TAG>` -/
def wireEncode (s : Selectors) : Except Error Template := do
  let exclude ← (if Exclude.empty s.exclude then .ok Template.skip
    else Exclude.wireEncode s.exclude)
  .ok (Template.element tlvSelectors
    ((((((Template.optional s.mustBeFresh (Exclude.prependEmptyBlock tlvMustBeFresh)).andThen
      (Template.optional (s.childSelector ≥ 0)
        (prependNonNegativeIntegerBlock tlvChildSelector s.childSelector.toNat))).andThen
      exclude).andThen
      s.publisherPublicKeyLocator.wireEncode).andThen
      (Template.optional (s.maxSuffixComponents ≥ 0)
        (prependNonNegativeIntegerBlock tlvMaxSuffixComponents s.maxSuffixComponents.toNat))).andThen
      (Template.optional (s.minSuffixComponents ≥ 0)
        (prependNonNegativeIntegerBlock tlvMinSuffixComponents s.minSuffixComponents.toNat))))

/-- A number that may be absent; it is kept in an `int`. -/
def decodeNumber (subBlocks : List Block) (type : ℕ) : Except Error ℤ :=
  match Block.find subBlocks type with
  | none => .ok (-1)
  | some val => (Block.readNumber val).map fun n => toInt n

/-- `Selectors::wireDecode` -/
def wireDecode (wire : Block) : Except Error Selectors :=
  if wire.type ≠ tlvSelectors then .error "Unexpected TLV type when decoding Selectors"
  else
    match Block.parse wire.value [] with
    | (_, .error e) => .error e
    | (subBlocks, .ok ()) => do
      let minSuffixComponents ← decodeNumber subBlocks tlvMinSuffixComponents
      let maxSuffixComponents ← decodeNumber subBlocks tlvMaxSuffixComponents
      let publisherPublicKeyLocator ←
        ((Block.find subBlocks KeyLocator.tlvKeyLocator).elim (.ok none) KeyLocator.wireDecode)
      let exclude ←
        ((Block.find subBlocks Exclude.tlvExclude).elim (.ok DescMap.empty) Exclude.wireDecode)
      let childSelector ← decodeNumber subBlocks tlvChildSelector
      .ok ⟨minSuffixComponents, maxSuffixComponents, publisherPublicKeyLocator, exclude,
        childSelector, (Block.find subBlocks tlvMustBeFresh).isSome, some wire⟩

end Selectors

namespace Interest

/-- `tlv::Interest` -/
def tlvInterest : ℕ := 5
/-- `tlv::Data` -/
def tlvData : ℕ := 6
/-- `tlv::Name` -/
def tlvName : ℕ := 7
/-- `tlv::Nonce` -/
def tlvNonce : ℕ := 10
/-- `tlv::InterestLifetime` -/
def tlvInterestLifetime : ℕ := 12
/-- `tlv::Content` -/
def tlvContent : ℕ := 21
/-- `tlv::SelectedDelegation` -/
def tlvSelectedDelegation : ℕ := 32

/-- `DEFAULT_INTEREST_LIFETIME` -/
def defaultInterestLifetime : ℤ := 4000

/-- What is prepended of a Link. -/
def linkTemplate (interest : Interest Name) : Except Error Template :=
  match interest.link with
  | some link => .ok ((interest.selectedDelegationIndex.elim Template.skip
      (prependNonNegativeIntegerBlock tlvSelectedDelegation)).andThen (prependBlock link))
  | none =>
    if interest.selectedDelegationIndex.isSome then .error "!hasSelectedDelegation()"
    else .ok Template.skip

/-- `Interest::wireEncode<TAG>`; the nonce is the one `getNonce` has set. -/
def wireEncode (interest : Interest Name) : Except Error Template := do
  let link ← interest.linkTemplate
  let selectors ←
    (if ¬ interest.selectors.empty then interest.selectors.wireEncode else .ok Template.skip)
  .ok (Template.element tlvInterest
    ((((link.andThen
      (Template.optional (interest.interestLifetime ≥ 0 ∧
          interest.interestLifetime ≠ defaultInterestLifetime)
        (prependNonNegativeIntegerBlock tlvInterestLifetime interest.interestLifetime.toNat))).andThen
      (prependBlock interest.nonce)).andThen
      selectors).andThen
      interest.name.wireEncode))

/-- `Link::countDelegationsFromWire` -/
def countDelegationsFromWire (block : Block) : Except Error ℕ :=
  match Block.parse block.value [] with
  | (_, .error e) => .error e
  | (subBlocks, .ok ()) => do
    let contentBlock ← Block.get subBlocks tlvContent
    (Block.parse contentBlock.value []).2.map fun _ => (Block.parse contentBlock.value []).1.length

/-- The lifetime, which is kept in a signed 64-bit number. -/
def decodeLifetime (subBlocks : List Block) : Except Error ℤ :=
  match Block.find subBlocks tlvInterestLifetime with
  | some val => (Block.readNumber val).map fun n => (n : ℤ).bmod (2 ^ 64)
  | none => .ok defaultInterestLifetime

/-- The delegation that is selected, among those of the Link. -/
def decodeSelectedDelegation (subBlocks : List Block) (link : Option Block) :
    Except Error (Option ℕ) :=
  match Block.find subBlocks tlvSelectedDelegation with
  | none => .ok none
  | some val =>
    match link with
    | none => .error "Interest contains SelectedDelegation, but no LINK object"
    | some link => do
      let selectedDelegation ← Block.readNumber val
      let count ← countDelegationsFromWire link
      (if selectedDelegation < count then .ok (some selectedDelegation)
        else .error "Invalid selected delegation index when decoding Interest")

/-- `Interest::wireDecode` -/
def wireDecode (wire : Block) : Except Error (Interest (List Block)) :=
  match Block.parse wire.value [] with
  | (_, .error e) => .error e
  | (subBlocks, .ok ()) =>
    if wire.type ≠ tlvInterest then .error "Unexpected TLV number when decoding Interest"
    else do
      let nameBlock ← Block.get subBlocks tlvName
      let name ← Name.wireDecode nameBlock
      let selectors ←
        ((Block.find subBlocks Selectors.tlvSelectors).elim (.ok Selectors.default)
          Selectors.wireDecode)
      let nonce ← Block.get subBlocks tlvNonce
      let interestLifetime ← decodeLifetime subBlocks
      let link := Block.find subBlocks tlvData
      let selectedDelegationIndex ← decodeSelectedDelegation subBlocks link
      .ok ⟨name, selectors, nonce, interestLifetime, link, selectedDelegationIndex⟩

end Interest

/-! ### What is encoded -/

theorem Writes.optional {p : Prop} [Decidable p] {t : Template} {b : Block} (ht : Writes t b.wire) :
    Writes (Template.optional p t) (Block.fieldWire (if p then some b else none)) := by
  unfold Template.optional Block.fieldWire
  by_cases h : p
  · simpa [h] using ht
  · simpa [h] using writes_skip

theorem writes_prependBlock (b : Block) : Writes (prependBlock b) b.wire :=
  writes_prependByteArray b.wire

theorem writes_numberBlock (type n : ℕ) :
    Writes (prependNonNegativeIntegerBlock type n) (numberBlock type n).wire :=
  (writes_prependNonNegativeInteger n).element type

theorem numberBlock_wellFormed {type : ℕ} (ht : type ≤ 0xFFFFFFFF) (n : ℕ) :
    (numberBlock type n).WellFormed := by
  apply Block.reads_element ht
  rw [encodeNonNegativeInteger_length]
  unfold estimateNonNegativeInteger
  split_ifs <;> omega

theorem readNumber_numberBlock {type n : ℕ} (h : n < 2 ^ 64) :
    Block.readNumber (numberBlock type n) = .ok n := by
  have hread := readNonNegativeInteger_encode h
  unfold Block.readNumber numberBlock
  rw [hread]
  rfl

namespace KeyLocator

/-- The locators that `setName` and `setKeyDigest` make. -/
def Made (locator : KeyLocator) : Prop :=
  locator = none ∨ (∃ name, locator = ofName name) ∨
    ∃ keyDigest, locator = ofKeyDigest keyDigest ∧ keyDigest.type = 29 ∧ keyDigest.WellFormed

theorem writes_wireEncode (locator : KeyLocator) :
    Writes locator.wireEncode (Block.fieldWire locator) := by
  cases locator with
  | none => exact writes_skip
  | some b => simpa [wireEncode, Block.fieldWire] using writes_prependBlock b

/-- A locator that holds one element is read back. -/
theorem wireDecode_element {b : Block} (hb : b.WellFormed)
    (hname : b.type = 7 → ∃ bs, Name.wireDecode b = .ok bs) :
    wireDecode ⟨tlvKeyLocator, element tlvKeyLocator b.wire, b.wire⟩ =
      .ok (some ⟨tlvKeyLocator, element tlvKeyLocator b.wire, b.wire⟩) := by
  have hparse : Block.parse b.wire [] = ([b], .ok ()) :=
    Block.parse_eq_ok_iff.mpr ⟨by simp, by simpa using hb⟩
  unfold wireDecode
  rw [if_neg (by simp)]
  dsimp only
  rw [hparse]
  dsimp only
  by_cases h : b.type = 7
  · obtain ⟨bs, hbs⟩ := hname h
    rw [if_pos h, hbs]
    rfl
  · rw [if_neg h]

theorem wireDecode_made {locator : KeyLocator} (h : locator.Made) {b : Block}
    (hb : locator = some b) (hsize : b.wire.length < 2 ^ 64) :
    b.type = tlvKeyLocator ∧ b.WellFormed ∧ wireDecode b = .ok locator := by
  rcases h with rfl | ⟨name, rfl⟩ | ⟨keyDigest, rfl, htype, hwf⟩
  · cases hb
  · obtain rfl := Option.some.inj hb
    simp only [element_length] at hsize
    have hname : (name.flatMap Component.wire).length < 2 ^ 64 := by
      have : (element 7 (name.flatMap Component.wire)).length < 2 ^ 64 := by
        have : name.wire.length < 2 ^ 64 := by omega
        exact this
      rw [element_length] at this
      omega
    refine ⟨rfl, Block.reads_element (by simp [tlvKeyLocator]) (by omega), ?_⟩
    exact wireDecode_element (Name.toBlock_wellFormed hname)
      fun _ => ⟨_, Name.wireDecode_toBlock hname⟩
  · obtain rfl := Option.some.inj hb
    simp only [element_length] at hsize
    refine ⟨rfl, Block.reads_element (by simp [tlvKeyLocator]) (by omega), ?_⟩
    exact wireDecode_element hwf fun h => by
      rw [htype] at h
      cases h

end KeyLocator

namespace Selectors

variable {s : Selectors}

/-- The field of a number. -/
def numberField (type : ℕ) (i : ℤ) : Option Block :=
  if i ≥ 0 then some (numberBlock type i.toNat) else none

/-- The block of an Exclude filter that is encoded. -/
def excludeField (m : Exclude.ExcludeMap) : Option Block :=
  if ¬ Exclude.empty m then some (Exclude.toBlock m) else none

/-- The block without content. -/
def emptyBlock (type : ℕ) : Block := ⟨type, element type [], []⟩

/-- The fields that are encoded, in order. -/
def fields (s : Selectors) : List (ℕ × Option Block) :=
  [(tlvMinSuffixComponents, numberField tlvMinSuffixComponents s.minSuffixComponents),
    (tlvMaxSuffixComponents, numberField tlvMaxSuffixComponents s.maxSuffixComponents),
    (KeyLocator.tlvKeyLocator, s.publisherPublicKeyLocator),
    (Exclude.tlvExclude, excludeField s.exclude),
    (tlvChildSelector, numberField tlvChildSelector s.childSelector),
    (tlvMustBeFresh, if s.mustBeFresh then some (emptyBlock tlvMustBeFresh) else none)]

/-- The bytes of the fields. -/
def value (s : Selectors) : Bytes := (Block.ofFields s.fields).flatMap Block.wire

/-- The block of selectors that are encoded. -/
def toBlock (s : Selectors) : Block := ⟨tlvSelectors, element tlvSelectors s.value, s.value⟩

/-- What holds of selectors that have been set, and not read from a wire. -/
structure Encodable (s : Selectors) : Prop where
  minSuffixComponents : s.minSuffixComponents < 2 ^ 31
  maxSuffixComponents : s.maxSuffixComponents < 2 ^ 31
  childSelector : s.childSelector < 2 ^ 31
  locator : s.publisherPublicKeyLocator.Made
  exclude : Exclude.Encodable s.exclude.entries

theorem writes_numberField (type : ℕ) (i : ℤ) :
    Writes (Template.optional (i ≥ 0) (prependNonNegativeIntegerBlock type i.toNat))
      (Block.fieldWire (numberField type i)) :=
  (writes_numberBlock type i.toNat).optional

theorem writes_wireEncode (s : Selectors) :
    ∃ p, s.wireEncode = .ok p ∧ Writes p s.toBlock.wire := by
  have hexclude : ∃ p, (if Exclude.empty s.exclude then .ok Template.skip
      else Exclude.wireEncode s.exclude) = .ok p ∧
      Writes p (Block.fieldWire (excludeField s.exclude)) := by
    unfold excludeField Block.fieldWire
    by_cases h : Exclude.empty s.exclude = true
    · exact ⟨Template.skip, by simp [h], by simpa [h] using writes_skip⟩
    · have hok : ∃ p, Exclude.wireEncode s.exclude = .ok p := by
        refine ⟨_, if_neg fun hnil => h ?_⟩
        simp [Exclude.empty, hnil]
      obtain ⟨p, hp⟩ := hok
      exact ⟨p, by simp [h, hp], by simpa [h, Exclude.toBlock] using Exclude.writes_wireEncode hp⟩
  obtain ⟨exclude, hok, hwrites⟩ := hexclude
  have hfresh : Writes (Template.optional s.mustBeFresh (Exclude.prependEmptyBlock tlvMustBeFresh))
      (Block.fieldWire (if s.mustBeFresh then some (emptyBlock tlvMustBeFresh) else none)) :=
    Writes.optional (b := emptyBlock tlvMustBeFresh) (writes_skip.element tlvMustBeFresh)
  unfold wireEncode
  rw [hok]
  refine ⟨_, rfl, ?_⟩
  have hvalue : s.value = s.fields.flatMap fun field => Block.fieldWire field.2 :=
    Block.flatMap_ofFields s.fields
  unfold toBlock
  rw [hvalue]
  apply Writes.element
  have hall := ((((hfresh.andThen (writes_numberField tlvChildSelector s.childSelector)).andThen
    hwrites).andThen (KeyLocator.writes_wireEncode s.publisherPublicKeyLocator)).andThen
    (writes_numberField tlvMaxSuffixComponents s.maxSuffixComponents)).andThen
    (writes_numberField tlvMinSuffixComponents s.minSuffixComponents)
  simpa [fields] using hall

/-- Numbers below zero are read back as -1. -/
def normalNumber (i : ℤ) : ℤ := if i ≥ 0 then i else -1

/-- What is read back, with the wire it is read from. -/
def normal (s : Selectors) (wire : Block) : Selectors where
  minSuffixComponents := normalNumber s.minSuffixComponents
  maxSuffixComponents := normalNumber s.maxSuffixComponents
  publisherPublicKeyLocator := s.publisherPublicKeyLocator
  exclude := s.exclude
  childSelector := normalNumber s.childSelector
  mustBeFresh := s.mustBeFresh
  wire := some wire

theorem numberField_eq_some_iff {type : ℕ} {i : ℤ} {b : Block} :
    numberField type i = some b ↔ i ≥ 0 ∧ b = numberBlock type i.toNat := by
  unfold numberField
  by_cases h : i ≥ 0
  · simp [h, eq_comm]
  · simp [h]

theorem excludeField_eq_some_iff {m : Exclude.ExcludeMap} {b : Block} :
    excludeField m = some b ↔ m.entries ≠ [] ∧ b = Exclude.toBlock m := by
  unfold excludeField Exclude.empty
  by_cases h : m.entries = []
  · simp [h]
  · have hnot : ¬ m.entries.isEmpty = true := by simpa using h
    rw [if_pos hnot, Option.some.injEq]
    exact ⟨fun heq => ⟨h, heq.symm⟩, fun heq => heq.2.symm⟩

theorem numberField_spec {type : ℕ} {i : ℤ} {b : Block} (ht : type ≤ 0xFFFFFFFF)
    (h : numberField type i = some b) : b.type = type ∧ b.WellFormed := by
  obtain ⟨-, rfl⟩ := numberField_eq_some_iff.mp h
  exact ⟨rfl, numberBlock_wellFormed ht _⟩

theorem field_spec (hs : s.Encodable) (hsize : s.value.length < 2 ^ 64) {type : ℕ} {b : Block}
    (hf : (type, some b) ∈ s.fields) : b.type = type ∧ b.WellFormed := by
  have hsize : b.wire.length < 2 ^ 64 := Nat.lt_of_le_of_lt (Block.wire_length_le hf) hsize
  simp only [fields, List.mem_cons, Prod.mk.injEq, List.not_mem_nil, or_false] at hf
  rcases hf with ⟨rfl, h⟩ | ⟨rfl, h⟩ | ⟨rfl, h⟩ | ⟨rfl, h⟩ | ⟨rfl, h⟩ | ⟨rfl, h⟩
  · exact numberField_spec (by simp [tlvMinSuffixComponents]) h.symm
  · exact numberField_spec (by simp [tlvMaxSuffixComponents]) h.symm
  · obtain ⟨ht, hwf, -⟩ := KeyLocator.wireDecode_made hs.locator h.symm hsize
    exact ⟨ht, hwf⟩
  · obtain ⟨-, rfl⟩ := excludeField_eq_some_iff.mp h.symm
    refine ⟨rfl, Exclude.toBlock_wellFormed ?_⟩
    simp only [Exclude.toBlock, Exclude.wire, element_length] at hsize
    omega
  · exact numberField_spec (by simp [tlvChildSelector]) h.symm
  · by_cases hfresh : s.mustBeFresh = true
    · rw [if_pos hfresh] at h
      obtain rfl := Option.some.inj h
      exact ⟨rfl, Block.reads_element (by simp [tlvMustBeFresh]) (by simp)⟩
    · rw [if_neg hfresh] at h
      cases h

theorem fields_types (hs : s.Encodable) (hsize : s.value.length < 2 ^ 64) :
    Block.Fields s.fields := by
  refine ⟨by simp [fields, tlvMinSuffixComponents, tlvMaxSuffixComponents, tlvChildSelector,
    tlvMustBeFresh, KeyLocator.tlvKeyLocator, Exclude.tlvExclude], ?_⟩
  rintro ⟨type, field⟩ hf b rfl
  exact (field_spec hs hsize hf).1

/-- A number that is encoded is read back as the `int` it was. -/
theorem decodeNumber_field {subBlocks : List Block} {type : ℕ} {i : ℤ} (hi : i < 2 ^ 31)
    (h : Block.find subBlocks type = numberField type i) :
    decodeNumber subBlocks type = .ok (normalNumber i) := by
  unfold decodeNumber normalNumber
  rw [h]
  unfold numberField
  by_cases hpos : i ≥ 0
  · simp only [if_pos hpos]
    rw [readNumber_numberBlock (by omega)]
    have hint : toInt (i.toNat : ℤ) = i := by
      rw [toInt_natCast (by omega)]
      omega
    exact congrArg Except.ok hint
  · simp only [if_neg hpos]

theorem toBlock_wellFormed (hsize : s.value.length < 2 ^ 64) : s.toBlock.WellFormed :=
  Block.reads_element (by simp [tlvSelectors]) hsize

theorem find_field (hs : s.Encodable) (hsize : s.value.length < 2 ^ 64) {type : ℕ}
    {field : Option Block} (h : (type, field) ∈ s.fields) :
    Block.find (Block.ofFields s.fields) type = field :=
  Block.find_fields (fields_types hs hsize) h

theorem decode_locator (hs : s.Encodable) (hsize : s.value.length < 2 ^ 64) :
    (Block.find (Block.ofFields s.fields) KeyLocator.tlvKeyLocator).elim (.ok none)
      KeyLocator.wireDecode = .ok s.publisherPublicKeyLocator := by
  have hmem : (KeyLocator.tlvKeyLocator, s.publisherPublicKeyLocator) ∈ s.fields := by
    simp [fields]
  rw [find_field hs hsize hmem]
  have hmade := hs.locator
  generalize s.publisherPublicKeyLocator = locator at hmem hmade ⊢
  cases locator with
  | none => rfl
  | some b =>
    have hsize := Nat.lt_of_le_of_lt (Block.wire_length_le hmem) hsize
    exact (KeyLocator.wireDecode_made hmade rfl hsize).2.2

theorem decode_exclude (hs : s.Encodable) (hsize : s.value.length < 2 ^ 64) :
    (Block.find (Block.ofFields s.fields) Exclude.tlvExclude).elim (.ok DescMap.empty)
      Exclude.wireDecode = .ok s.exclude := by
  have hmem : (Exclude.tlvExclude, excludeField s.exclude) ∈ s.fields := by simp [fields]
  rw [find_field hs hsize hmem]
  by_cases hne : s.exclude.entries = []
  · have hnone : excludeField s.exclude = none := by simp [excludeField, Exclude.empty, hne]
    have hempty : s.exclude = DescMap.empty := Exclude.eq_empty_of_entries hne
    rw [hnone, hempty]
    rfl
  · have hsome := excludeField_eq_some_iff.mpr ⟨hne, rfl⟩
    rw [hsome] at hmem ⊢
    have hsize := Nat.lt_of_le_of_lt (Block.wire_length_le hmem) hsize
    simp only [Exclude.toBlock, Exclude.wire, element_length] at hsize
    exact Exclude.wireDecode_toBlock hne hs.exclude (by omega)

/-- Selectors that are encoded are read back, but for the numbers below zero. -/
theorem wireDecode_toBlock (hs : s.Encodable) (hsize : s.value.length < 2 ^ 64) :
    wireDecode s.toBlock = .ok (s.normal s.toBlock) := by
  have hmin : decodeNumber (Block.ofFields s.fields) tlvMinSuffixComponents = _ :=
    decodeNumber_field hs.minSuffixComponents (find_field hs hsize List.mem_cons_self)
  have hmax : decodeNumber (Block.ofFields s.fields) tlvMaxSuffixComponents = _ :=
    decodeNumber_field hs.maxSuffixComponents (find_field hs hsize (by simp [fields]))
  have hchild : decodeNumber (Block.ofFields s.fields) tlvChildSelector = _ :=
    decodeNumber_field hs.childSelector (find_field hs hsize (by simp [fields]))
  have hfresh : (Block.find (Block.ofFields s.fields) tlvMustBeFresh).isSome = s.mustBeFresh := by
    have hmem : (tlvMustBeFresh,
        if s.mustBeFresh then some (emptyBlock tlvMustBeFresh) else none) ∈ s.fields := by
      simp [fields]
    rw [find_field hs hsize hmem]
    cases s.mustBeFresh <;> rfl
  have hparse : Block.parse s.value [] = (Block.ofFields s.fields, .ok ()) :=
    Block.parse_eq_ok_iff.mpr
      ⟨rfl, Block.ofFields_wellFormed fun _ _ hf => (field_spec hs hsize hf).2⟩
  unfold wireDecode
  rw [if_neg (by simp [toBlock])]
  have hvalue : s.toBlock.value = s.value := rfl
  rw [hvalue, hparse]
  dsimp only
  rw [hmin, ok_bind, hmax, ok_bind, decode_locator hs hsize, ok_bind, decode_exclude hs hsize,
    ok_bind, hchild,
    ok_bind, hfresh]
  rfl

end Selectors

namespace Interest

variable {interest : Interest Name}

/-- The field of the lifetime. -/
def lifetimeField (interestLifetime : ℤ) : Option Block :=
  if interestLifetime ≥ 0 ∧ interestLifetime ≠ defaultInterestLifetime then
    some (numberBlock tlvInterestLifetime interestLifetime.toNat)
  else none

/-- The fields that are encoded, in order. -/
def fields (interest : Interest Name) : List (ℕ × Option Block) :=
  [(tlvName, some interest.name.toBlock),
    (Selectors.tlvSelectors,
      if ¬ interest.selectors.empty then some interest.selectors.toBlock else none),
    (tlvNonce, some interest.nonce),
    (tlvInterestLifetime, lifetimeField interest.interestLifetime),
    (tlvData, interest.link),
    (tlvSelectedDelegation,
      interest.selectedDelegationIndex.map (numberBlock tlvSelectedDelegation))]

/-- The bytes of the fields. -/
def value (interest : Interest Name) : Bytes := (Block.ofFields interest.fields).flatMap Block.wire

/-- The block of an Interest that is encoded. -/
def toBlock (interest : Interest Name) : Block :=
  ⟨tlvInterest, element tlvInterest interest.value, interest.value⟩

/-- What holds of an Interest that has been set, and not read from a wire. -/
structure Encodable (interest : Interest Name) : Prop where
  selectors : interest.selectors.Encodable
  nonce : interest.nonce.type = tlvNonce ∧ interest.nonce.WellFormed
  interestLifetime : interest.interestLifetime < 2 ^ 63
  link : ∀ link, interest.link = some link → link.type = tlvData ∧ link.WellFormed
  /-- `setSelectedDelegation` takes one of the Link's. -/
  selectedDelegation : ∀ index, interest.selectedDelegationIndex = some index → index < 2 ^ 64 ∧
    ∃ link count, interest.link = some link ∧ countDelegationsFromWire link = .ok count ∧
      index < count

theorem writes_linkTemplate (hi : interest.Encodable) :
    ∃ p, interest.linkTemplate = .ok p ∧ Writes p (Block.fieldWire interest.link ++
      Block.fieldWire (interest.selectedDelegationIndex.map (numberBlock tlvSelectedDelegation))) := by
  unfold linkTemplate
  have hselected := hi.selectedDelegation
  cases hlink : interest.link with
  | none =>
    cases hindex : interest.selectedDelegationIndex with
    | none => exact ⟨Template.skip, rfl, writes_skip⟩
    | some index =>
      obtain ⟨-, link, -, hsome, -⟩ := hselected index hindex
      rw [hlink] at hsome
      cases hsome
  | some link =>
    refine ⟨_, rfl, ?_⟩
    refine Writes.andThen ?_ (by simpa [Block.fieldWire] using writes_prependBlock link)
    cases interest.selectedDelegationIndex with
    | none => exact writes_skip
    | some index =>
      simpa [Block.fieldWire] using writes_numberBlock tlvSelectedDelegation index

theorem writes_wireEncode (hi : interest.Encodable) :
    ∃ p, interest.wireEncode = .ok p ∧ Writes p interest.toBlock.wire := by
  have hselectors : ∃ p, (if ¬ interest.selectors.empty then interest.selectors.wireEncode
      else .ok Template.skip) = .ok p ∧ Writes p (Block.fieldWire
        (if ¬ interest.selectors.empty then some interest.selectors.toBlock else none)) := by
    obtain ⟨p, hp, hwrites⟩ := Selectors.writes_wireEncode interest.selectors
    by_cases h : interest.selectors.empty = true
    · exact ⟨Template.skip, by simp [h], by simpa [h, Block.fieldWire] using writes_skip⟩
    · exact ⟨p, by simp [h, hp], by simpa [h, Block.fieldWire] using hwrites⟩
  obtain ⟨link, hlink, hwlink⟩ := writes_linkTemplate hi
  obtain ⟨selectors, hsel, hwsel⟩ := hselectors
  unfold wireEncode
  rw [hlink, hsel]
  refine ⟨_, rfl, ?_⟩
  have hvalue : interest.value = interest.fields.flatMap fun field => Block.fieldWire field.2 :=
    Block.flatMap_ofFields interest.fields
  unfold toBlock
  rw [hvalue]
  apply Writes.element
  have hlifetime : Writes (Template.optional (interest.interestLifetime ≥ 0 ∧
        interest.interestLifetime ≠ defaultInterestLifetime)
      (prependNonNegativeIntegerBlock tlvInterestLifetime interest.interestLifetime.toNat))
      (Block.fieldWire (lifetimeField interest.interestLifetime)) :=
    (writes_numberBlock tlvInterestLifetime interest.interestLifetime.toNat).optional
  have hall := (((hwlink.andThen hlifetime).andThen (writes_prependBlock interest.nonce)).andThen
    hwsel).andThen (Name.writes_wireEncode interest.name)
  simpa [fields, Block.fieldWire, Name.toBlock] using hall

/-- A lifetime that is not given is read back as the default one. -/
def normalLifetime (interestLifetime : ℤ) : ℤ :=
  if interestLifetime ≥ 0 then interestLifetime else defaultInterestLifetime

/-- The selectors that are read back. -/
def normalSelectors (s : Selectors) : Selectors :=
  if ¬ s.empty then s.normal s.toBlock else Selectors.default

/-- What is read back, the name as the blocks of its components. -/
def normal (interest : Interest Name) : Interest (List Block) where
  name := interest.name.map Component.toBlock
  selectors := normalSelectors interest.selectors
  nonce := interest.nonce
  interestLifetime := normalLifetime interest.interestLifetime
  link := interest.link
  selectedDelegationIndex := interest.selectedDelegationIndex

theorem name_size (hsize : interest.value.length < 2 ^ 64) :
    (interest.name.flatMap Component.wire).length < 2 ^ 64 := by
  have hmem : (tlvName, some interest.name.toBlock) ∈ interest.fields := by simp [fields]
  have hle := Nat.lt_of_le_of_lt (Block.wire_length_le hmem) hsize
  simp only [Name.toBlock, Name.wire, element_length] at hle
  omega

theorem selectors_size (hsize : interest.value.length < 2 ^ 64)
    (h : ¬ interest.selectors.empty = true) : interest.selectors.value.length < 2 ^ 64 := by
  have hmem : (Selectors.tlvSelectors, some interest.selectors.toBlock) ∈ interest.fields := by
    simp [fields, h]
  have hle := Nat.lt_of_le_of_lt (Block.wire_length_le hmem) hsize
  simp only [Selectors.toBlock, element_length] at hle
  omega

theorem field_spec (hi : interest.Encodable) (hsize : interest.value.length < 2 ^ 64) {type : ℕ}
    {b : Block} (hf : (type, some b) ∈ interest.fields) : b.type = type ∧ b.WellFormed := by
  simp only [fields, List.mem_cons, Prod.mk.injEq, List.not_mem_nil, or_false] at hf
  rcases hf with ⟨rfl, h⟩ | ⟨rfl, h⟩ | ⟨rfl, h⟩ | ⟨rfl, h⟩ | ⟨rfl, h⟩ | ⟨rfl, h⟩
  · obtain rfl := Option.some.inj h
    exact ⟨rfl, Name.toBlock_wellFormed (name_size hsize)⟩
  · by_cases hempty : interest.selectors.empty = true
    · rw [if_neg (not_not.mpr hempty)] at h
      cases h
    · rw [if_pos hempty] at h
      obtain rfl := Option.some.inj h
      exact ⟨rfl, Selectors.toBlock_wellFormed (selectors_size hsize hempty)⟩
  · obtain rfl := Option.some.inj h
    exact hi.nonce
  · unfold lifetimeField at h
    split at h
    · obtain rfl := Option.some.inj h
      exact ⟨rfl, numberBlock_wellFormed (by simp [tlvInterestLifetime]) _⟩
    · cases h
  · exact hi.link b h.symm
  · obtain ⟨index, -, rfl⟩ := Option.map_eq_some_iff.mp h.symm
    exact ⟨rfl, numberBlock_wellFormed (by simp [tlvSelectedDelegation]) _⟩

theorem find_field (hi : interest.Encodable) (hsize : interest.value.length < 2 ^ 64) {type : ℕ}
    {field : Option Block} (h : (type, field) ∈ interest.fields) :
    Block.find (Block.ofFields interest.fields) type = field := by
  refine Block.find_fields ⟨?_, ?_⟩ h
  · simp [fields, tlvName, Selectors.tlvSelectors, tlvNonce, tlvInterestLifetime, tlvData,
      tlvSelectedDelegation]
  · rintro ⟨type, field⟩ hf b rfl
    exact (field_spec hi hsize hf).1

theorem decode_lifetime (hi : interest.Encodable) (hsize : interest.value.length < 2 ^ 64) :
    decodeLifetime (Block.ofFields interest.fields) =
      .ok (normalLifetime interest.interestLifetime) := by
  have hlt := hi.interestLifetime
  unfold decodeLifetime
  rw [find_field hi hsize (by simp [fields] : (_, lifetimeField interest.interestLifetime) ∈ _)]
  unfold lifetimeField normalLifetime
  generalize interest.interestLifetime = l at hlt
  by_cases hpos : l ≥ 0
  · rw [if_pos hpos]
    by_cases hdefault : l = defaultInterestLifetime
    · simp [hdefault]
    · rw [if_pos ⟨hpos, hdefault⟩]
      dsimp only
      rw [readNumber_numberBlock (by omega)]
      have hmod : ((l.toNat : ℕ) : ℤ).bmod (2 ^ 64) = l := by
        rw [Int.bmod_eq_of_le_mul_two (by omega) (by omega)]
        omega
      exact congrArg Except.ok hmod
  · rw [if_neg (fun h => hpos h.1), if_neg hpos]

theorem decode_selectedDelegation (hi : interest.Encodable)
    (hsize : interest.value.length < 2 ^ 64) :
    decodeSelectedDelegation (Block.ofFields interest.fields) interest.link =
      .ok interest.selectedDelegationIndex := by
  have hmem : (tlvSelectedDelegation, interest.selectedDelegationIndex.map
      (numberBlock tlvSelectedDelegation)) ∈ interest.fields := by simp [fields]
  unfold decodeSelectedDelegation
  rw [find_field hi hsize hmem]
  cases hindex : interest.selectedDelegationIndex with
  | none => rfl
  | some index =>
    obtain ⟨hlt, link, count, hlink, hcount, hless⟩ := hi.selectedDelegation index hindex
    rw [hlink]
    simp [readNumber_numberBlock hlt, hcount, hless]

theorem decode_selectors (hi : interest.Encodable) (hsize : interest.value.length < 2 ^ 64) :
    (Block.find (Block.ofFields interest.fields) Selectors.tlvSelectors).elim
      (.ok Selectors.default) Selectors.wireDecode = .ok (normalSelectors interest.selectors) := by
  have hmem : (Selectors.tlvSelectors, if ¬ interest.selectors.empty then
      some interest.selectors.toBlock else none) ∈ interest.fields := by simp [fields]
  rw [find_field hi hsize hmem]
  unfold normalSelectors
  by_cases hempty : interest.selectors.empty = true
  · rw [if_neg (not_not.mpr hempty), if_neg (not_not.mpr hempty)]
    rfl
  · rw [if_pos hempty, if_pos hempty]
    exact Selectors.wireDecode_toBlock hi.selectors (selectors_size hsize hempty)

theorem wireDecode_toBlock (hi : interest.Encodable) (hsize : interest.value.length < 2 ^ 64) :
    wireDecode interest.toBlock = .ok interest.normal := by
  have hparse : Block.parse interest.toBlock.value [] =
      (Block.ofFields interest.fields, .ok ()) :=
    Block.parse_eq_ok_iff.mpr
      ⟨rfl, Block.ofFields_wellFormed fun _ _ hf => (field_spec hi hsize hf).2⟩
  have hget : ∀ {type : ℕ} {b : Block}, (type, some b) ∈ interest.fields →
      Block.get (Block.ofFields interest.fields) type = .ok b := by
    intro type b hf
    unfold Block.get
    rw [find_field hi hsize hf]
  have hlink : Block.find (Block.ofFields interest.fields) tlvData = interest.link :=
    find_field hi hsize (by simp [fields])
  unfold wireDecode
  rw [hparse]
  dsimp only
  rw [if_neg (by simp [toBlock]), hget (b := interest.name.toBlock) (by simp [fields]), ok_bind,
    Name.wireDecode_toBlock (name_size hsize), ok_bind, decode_selectors hi hsize, ok_bind,
    hget (b := interest.nonce) (by simp [fields]), ok_bind, decode_lifetime hi hsize, ok_bind, hlink,
    decode_selectedDelegation hi hsize]
  rfl

/-- `Interest::setNonce` -/
def nonceBlock (nonce : UInt32) : Block :=
  let bytes := (beBytes 4 nonce.toNat).reverse
  ⟨tlvNonce, element tlvNonce bytes, bytes⟩

/-- An Interest with `setInterestLifetime` and `setMustBeFresh(true)`. -/
def freshInterest (lifetime : ℤ) (name : Name) (nonce : UInt32) : Interest Name :=
  ⟨name, { Selectors.default with mustBeFresh := true }, nonceBlock nonce, lifetime, none, none⟩

theorem freshInterest_encodable {lifetime : ℤ} (hlifetime : lifetime < 2 ^ 63) (name : Name)
    (nonce : UInt32) : (freshInterest lifetime name nonce).Encodable where
  selectors := by
    have hnone : (-1 : ℤ) < 2 ^ 31 := by omega
    refine ⟨hnone, hnone, hnone, .inl rfl, ?_⟩
    intro e he
    cases he
  nonce := by
    refine ⟨rfl, Block.reads_element (by simp [tlvNonce]) ?_⟩
    rw [List.length_reverse, beBytes_length]
    omega
  interestLifetime := hlifetime
  link := by
    intro link h
    cases h
  selectedDelegation := by
    intro index h
    cases h

end Interest
end Ndn
end IcnDemo
