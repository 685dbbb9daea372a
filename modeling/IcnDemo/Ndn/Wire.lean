/-
# Components and names on the wire

`Component::wireEncode` and `Name::wireEncode`, the constructor of a component
from a block, and `Name::wireDecode`. A name that is encoded is read back from any
buffer it starts, component by component (`wireDecode_wireEncode`).

`Name::wireDecode` keeps the sub-elements as components without checking their
types, so a decoded name is a list of blocks.
-/
import IcnDemo.Ndn.Block
import IcnDemo.Ndn.Name

namespace IcnDemo
namespace Ndn

open Lib.BigEndian Lib.PrefixCode Lib.Loop Tlv

/-- The TLV type of a component. -/
def ComponentType.code : ComponentType → ℕ
  | .nameComponent => 8
  | .implicitSha256DigestComponent => 1

theorem ComponentType.code_le (t : ComponentType) : t.code ≤ 0xFFFFFFFF := by
  cases t <;> simp [code]

theorem ComponentType.code_inj {t t' : ComponentType} (h : t.code = t'.code) : t = t' := by
  cases t <;> cases t' <;> first | rfl | simp [code] at h

namespace Component

/-- `Component::wireEncode<TAG>` -/
def wireEncode (c : Component) : Template :=
  Template.element c.type.code
    (if c.value.length > 0 then fun _ e => e.prependByteArray c.value else Template.skip)

/-- The wire of a component that is encoded. -/
def wire (c : Component) : Bytes := element c.type.code c.value

/-- `Component::Component(const Block& wire)` -/
def ofBlock (wire : Block) : Except Error Component :=
  if wire.type = ComponentType.nameComponent.code then .ok ⟨.nameComponent, wire.value⟩
  else if wire.type = ComponentType.implicitSha256DigestComponent.code ∧
      wire.value.length = sha256DigestSize then .ok ⟨.implicitSha256DigestComponent, wire.value⟩
  else .error ("Cannot construct name::Component from not a NameComponent " ++
    "or ImplicitSha256DigestComponent TLV wire block")

/-- The block of a component that is encoded. -/
def toBlock (c : Component) : Block := ⟨c.type.code, c.wire, c.value⟩

theorem writes_wireEncode (c : Component) : Writes c.wireEncode c.wire := by
  apply Writes.element
  by_cases h : c.value.length > 0
  · rw [if_pos h]
    exact writes_prependByteArray c.value
  · rw [if_neg h, List.length_eq_zero_iff.mp (Nat.eq_zero_of_not_pos h)]
    exact writes_skip

theorem toBlock_wellFormed {c : Component} (h : c.value.length < 2 ^ 64) :
    c.toBlock.WellFormed :=
  Block.reads_element c.type.code_le h

theorem ofBlock_toBlock {c : Component} (h : c.Valid) : ofBlock c.toBlock = .ok c := by
  obtain ⟨type, value⟩ := c
  cases type with
  | nameComponent => simp [ofBlock, toBlock]
  | implicitSha256DigestComponent =>
    have hlen : value.length = sha256DigestSize := by
      simpa [Valid, isGeneric, isImplicitSha256Digest] using h
    simp [ofBlock, toBlock, ComponentType.code, hlen]

/-- The constructor accepts exactly the blocks of valid components. -/
theorem ofBlock_eq_ok_iff {b : Block} {c : Component} :
    ofBlock b = .ok c ↔ c.Valid ∧ b.type = c.type.code ∧ b.value = c.value := by
  constructor
  · unfold ofBlock
    intro h
    split at h
    · rename_i ht
      obtain rfl := Except.ok.inj h
      exact ⟨.inl (by simp [isGeneric]), ht, rfl⟩
    · split at h
      · rename_i ht
        obtain rfl := Except.ok.inj h
        exact ⟨.inr (by simp [isImplicitSha256Digest, ht.2]), ht.1, rfl⟩
      · cases h
  · rintro ⟨hv, ht, hval⟩
    have heq : ofBlock b = ofBlock c.toBlock := by
      unfold ofBlock toBlock
      rw [ht, hval]
    rw [heq, ofBlock_toBlock hv]

end Component

namespace Name

/-- `Name::wireEncode<TAG>`: the components from the last to the first. -/
def wireEncode (name : Name) : Template :=
  Template.element 7
    (name.reverse.foldl (fun p c => p.andThen c.wireEncode) Template.skip)

/-- `Name::wireDecode`: the components it keeps. -/
def wireDecode (wire : Block) : Except Error (List Block) :=
  if wire.type ≠ 7 then .error "Unexpected TLV type when decoding Name"
  else
    match Block.parse wire.value [] with
    | (_, .error e) => .error e
    | (components, .ok ()) => .ok components

/-- The wire of a name that is encoded. -/
def wire (name : Name) : Bytes := element 7 (name.flatMap Component.wire)

theorem writes_wireEncode (name : Name) : Writes name.wireEncode name.wire := by
  apply Writes.element
  have := writes_foldl Component.writes_wireEncode writes_skip name.reverse
  simpa using this

theorem value_length_le : ∀ {name : Name} {c : Component}, c ∈ name →
    c.value.length ≤ (name.flatMap Component.wire).length
  | d :: name, c, hc => by
    rw [List.flatMap_cons, List.length_append]
    rcases List.mem_cons.mp hc with rfl | hc
    · rw [Component.wire, element_length]
      omega
    · have := value_length_le hc
      omega

/-- The block of a name that is encoded. -/
def toBlock (name : Name) : Block := ⟨7, name.wire, name.flatMap Component.wire⟩

variable {name : Name}

theorem toBlock_wellFormed (hsize : (name.flatMap Component.wire).length < 2 ^ 64) :
    name.toBlock.WellFormed :=
  Block.reads_element (by omega) hsize

theorem wireDecode_toBlock (hsize : (name.flatMap Component.wire).length < 2 ^ 64) :
    wireDecode name.toBlock = .ok (name.map Component.toBlock) := by
  have hwf : ∀ b ∈ name.map Component.toBlock, b.WellFormed := by
    intro b hb
    obtain ⟨c, hc, rfl⟩ := List.mem_map.mp hb
    exact Component.toBlock_wellFormed (Nat.lt_of_le_of_lt (value_length_le hc) hsize)
  have hflat : name.flatMap Component.wire = (name.map Component.toBlock).flatMap Block.wire := by
    rw [List.flatMap_map]
    rfl
  unfold wireDecode toBlock
  rw [if_neg (by simp)]
  dsimp only
  rw [Block.parse_eq_ok_iff.mpr ⟨hflat, hwf⟩]

theorem mapM_ofBlock (hvalid : ∀ c ∈ name, c.Valid) :
    (name.map Component.toBlock).mapM Component.ofBlock = .ok name := by
  induction name with
  | nil => rfl
  | cons c name ih =>
    obtain ⟨hc, hname⟩ := List.forall_mem_cons.mp hvalid
    rw [List.map_cons, List.mapM_cons, Component.ofBlock_toBlock hc, ok_bind, ih hname]
    rfl

/-- A name that is encoded is read back from any buffer it starts: `fromBuffer` finds its
block, `wireDecode` its components, and these are valid if they were. -/
theorem wireDecode_wireEncode (hvalid : ∀ c ∈ name, c.Valid)
    (hsize : (name.flatMap Component.wire).length < 2 ^ 64) (rest : Bytes) :
    ∃ b bs, Block.fromBuffer (name.wireEncode.run ++ rest) = some (b, rest) ∧
      wireDecode b = .ok bs ∧ bs.mapM Component.ofBlock = .ok name := by
  refine ⟨name.toBlock, name.map Component.toBlock, ?_, wireDecode_toBlock hsize,
    mapM_ofBlock hvalid⟩
  rw [(writes_wireEncode name).run, Block.fromBuffer_eq_some_iff]
  exact ⟨rfl, toBlock_wellFormed hsize⟩

end Name
end Ndn
end IcnDemo
