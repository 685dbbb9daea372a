/-
# Selectors and what satisfies an Interest

`Interest::matchesName` tests the full name of a Data, with the digest;
`Interest::matchesData` avoids it, since the digest is a hash of the packet, and
asks for it only where an Interest or an Exclude filter names a digest. Both say
the same (`matchesData_eq_matchesName`): the name is selected (`Selects`). The
components of an Exclude filter are in the encoding of this library.
-/
import IcnDemo.Ndn.ExcludeWire

namespace IcnDemo
namespace Ndn

open Lib.OrderedMap

/-- What `empty()` and `wireEncode()` tell of a `KeyLocator`: its block, unless it is
empty. -/
abbrev KeyLocator := Option Block

/-- `Selectors`: a number below zero is an absent one. -/
structure Selectors where
  minSuffixComponents : ℤ
  maxSuffixComponents : ℤ
  publisherPublicKeyLocator : KeyLocator
  exclude : Exclude.ExcludeMap
  childSelector : ℤ
  mustBeFresh : Bool
  /-- `m_wire`, which the setters reset. -/
  wire : Option Block

/-- `Selectors::Selectors()` -/
def Selectors.default : Selectors := ⟨-1, -1, none, DescMap.empty, -1, false, none⟩

/-- `Exclude::empty` -/
def Exclude.empty (entries : ExcludeMap) : Bool := entries.entries.isEmpty

theorem Exclude.eq_empty_of_entries {m : ExcludeMap} (h : m.entries = []) :
    m = DescMap.empty := by
  apply DescMap.ext_mem
  intro e
  rw [DescMap.mem_def, h]
  simp [DescMap.not_mem_empty]

def Selectors.empty (s : Selectors) : Bool :=
  s.minSuffixComponents < 0 && s.maxSuffixComponents < 0 && s.publisherPublicKeyLocator.isNone &&
    Exclude.empty s.exclude && s.childSelector < 0 && !s.mustBeFresh

/-- `Interest`. A decoded name is a list of blocks: `N` is how the name is given. -/
structure Interest (N : Type) where
  name : N
  selectors : Selectors
  nonce : Block
  /-- In milliseconds. -/
  interestLifetime : ℤ
  link : Option Block
  selectedDelegationIndex : Option ℕ

/-- A Data with the wire of the KeyLocator in its SignatureInfo, if there is one. -/
structure SignedData extends Data where
  keyLocator : Option Bytes

namespace Interest

variable (interest : Interest Name)

/-- `getExclude().isExcluded(name[i])` -/
def excludedAt (name : Name) (i : ℕ) : Bool :=
  name[i]?.any (Exclude.isExcluded interest.selectors.exclude)

def matchesName (name : Name) : Bool :=
  let s := interest.selectors
  if name.length < interest.name.length then false
  else if ¬ interest.name.isPrefixOf name then false
  else if s.minSuffixComponents ≥ 0 ∧
      ¬ (name.length - interest.name.length ≥ s.minSuffixComponents.toNat) then false
  else if s.maxSuffixComponents ≥ 0 ∧
      ¬ (name.length - interest.name.length ≤ s.maxSuffixComponents.toNat) then false
  else if ¬ Exclude.empty s.exclude ∧ name.length > interest.name.length ∧
      excludedAt interest name interest.name.length then false
  else true

/-- The check of PublisherPublicKeyLocator. -/
def locatorMatches (data : SignedData) : Bool :=
  match interest.selectors.publisherPublicKeyLocator with
  | none => true
  | some locator =>
    match data.keyLocator with
    | none => false
    | some wire => locator.wire = wire

/-- `Interest::matchesData` -/
def matchesData (data : SignedData) : Bool :=
  let s := interest.selectors
  let interestNameLength := interest.name.length
  let dataName := data.name
  let fullNameLength := dataName.length + 1
  let minSuffixComponents :=
    if s.minSuffixComponents ≥ 0 then s.minSuffixComponents.toNat else 0
  if ¬ (interestNameLength + minSuffixComponents ≤ fullNameLength) then false
  else if s.maxSuffixComponents ≥ 0 ∧
      ¬ (interestNameLength + s.maxSuffixComponents.toNat ≥ fullNameLength) then false
  else if interestNameLength = fullNameLength ∧
      ¬ (interest.name.getLast?.any Component.isImplicitSha256Digest ∧
        interest.name = data.fullName) then false
  else if interestNameLength ≠ fullNameLength ∧ ¬ interest.name.isPrefixOf dataName then false
  else if ¬ Exclude.empty s.exclude ∧ fullNameLength > interestNameLength ∧
      (if interestNameLength = fullNameLength - 1 then
        excludedAt interest data.fullName interestNameLength
      else excludedAt interest dataName interestNameLength) then false
  else locatorMatches interest data

/-! ### What is selected -/

/-- What an Interest asks of a full name. -/
@[mk_iff]
structure Selects (name : Name) : Prop where
  isPrefix : interest.name <+: name
  min : interest.selectors.minSuffixComponents ≤ name.length - interest.name.length
  max : 0 ≤ interest.selectors.maxSuffixComponents →
    (name.length : ℤ) - interest.name.length ≤ interest.selectors.maxSuffixComponents
  exclude : ∀ c, name[interest.name.length]? = some c →
    Exclude.isExcluded interest.selectors.exclude c = false

variable {interest}

theorem isExcluded_of_empty {m : Exclude.ExcludeMap} (h : Exclude.empty m = true) (c : Component) :
    Exclude.isExcluded m c = false := by
  rw [Exclude.eq_empty_of_entries (List.isEmpty_iff.mp h), Exclude.not_isExcluded_empty]

theorem excludedAt_eq_false_iff {name : Name} {i : ℕ} :
    excludedAt interest name i = false ↔
      ∀ c, name[i]? = some c → Exclude.isExcluded interest.selectors.exclude c = false := by
  unfold excludedAt
  cases name[i]? <;> simp

/-- An empty filter excludes nothing, and nothing follows the whole name. -/
theorem exclude_check_iff {name : Name} :
    ¬ (¬ Exclude.empty interest.selectors.exclude ∧ name.length > interest.name.length ∧
      excludedAt interest name interest.name.length) ↔
    ∀ c, name[interest.name.length]? = some c →
      Exclude.isExcluded interest.selectors.exclude c = false := by
  by_cases hempty : Exclude.empty interest.selectors.exclude = true
  · simp [hempty, isExcluded_of_empty hempty]
  · by_cases hlen : name.length > interest.name.length
    · rw [← excludedAt_eq_false_iff]
      simp [hempty, hlen]
    · simp [hlen]

theorem check_iff {p : Prop} [Decidable p] {b : Bool} :
    (if p then false else b) = true ↔ ¬ p ∧ b = true := by
  by_cases h : p <;> simp [h]

/-- **`matchesName` tests what is selected.** -/
theorem matchesName_iff (name : Name) : matchesName interest name = true ↔ Selects interest name := by
  unfold matchesName
  dsimp only
  rw [check_iff, check_iff, check_iff, check_iff, check_iff, exclude_check_iff, selects_iff,
    List.isPrefixOf_iff_prefix, not_not]
  refine ⟨fun ⟨_, hpre, hmin, hmax, hexcl, _⟩ => ?_, fun ⟨hpre, hmin, hmax, hexcl⟩ => ?_⟩
  · have hlen := hpre.length_le
    exact ⟨hpre, by omega, by omega, hexcl⟩
  · have hlen := hpre.length_le
    exact ⟨by omega, hpre, by omega, by omega, hexcl, rfl⟩

theorem length_fullName (data : Data) : data.fullName.length = data.name.length + 1 := by
  simp [Data.fullName]

theorem getElem?_fullName {data : Data} {i : ℕ} (h : i < data.name.length) :
    data.fullName[i]? = data.name[i]? := by
  unfold Data.fullName
  exact List.getElem?_append_left h

theorem prefix_fullName_iff {name : Name} {data : Data} :
    name <+: data.fullName ↔ name = data.fullName ∨ name <+: data.name := by
  unfold Data.fullName
  exact List.prefix_concat_iff

/-- The last component of a full name is its digest. -/
theorem isImplicitSha256Digest_fullName (data : Data) :
    data.fullName.getLast?.any Component.isImplicitSha256Digest = true := by
  simp [Data.fullName, Component.isImplicitSha256Digest, data.digest_length]

/-- The two checks of the prefix, one for an Interest as long as the full name. -/
theorem prefix_check_iff (data : SignedData) :
    (¬ (interest.name.length = data.name.length + 1 ∧
        ¬ (interest.name.getLast?.any Component.isImplicitSha256Digest ∧
          interest.name = data.fullName)) ∧
      ¬ (interest.name.length ≠ data.name.length + 1 ∧ ¬ interest.name.isPrefixOf data.name)) ↔
    interest.name <+: data.fullName := by
  have hfull := length_fullName data.toData
  rw [prefix_fullName_iff, List.isPrefixOf_iff_prefix]
  by_cases hlen : interest.name.length = data.name.length + 1
  · have hnot : ¬ interest.name <+: data.name := fun h => by
      have := h.length_le
      omega
    by_cases heq : interest.name = data.fullName
    · simp [heq, hfull, isImplicitSha256Digest_fullName]
    · simp [hlen, heq, hnot]
  · have hne : interest.name ≠ data.fullName := fun h => hlen (by rw [h, hfull])
    simp [hlen, hne]

/-- The digest is looked at only where it is the component after the Interest's name. -/
theorem exclude_check_data_iff (data : SignedData) :
    ¬ (¬ Exclude.empty interest.selectors.exclude ∧
      data.name.length + 1 > interest.name.length ∧
      (if interest.name.length = data.name.length + 1 - 1 then
        excludedAt interest data.fullName interest.name.length
      else excludedAt interest data.name interest.name.length)) ↔
    ∀ c, data.fullName[interest.name.length]? = some c →
      Exclude.isExcluded interest.selectors.exclude c = false := by
  rw [← exclude_check_iff, length_fullName]
  by_cases hlen : data.name.length + 1 > interest.name.length
  · by_cases hlast : interest.name.length = data.name.length + 1 - 1
    · rw [if_pos hlast]
    · have hsame : excludedAt interest data.name interest.name.length =
          excludedAt interest data.fullName interest.name.length := by
        unfold excludedAt
        rw [getElem?_fullName (by omega)]
      rw [if_neg hlast, hsame]
  · simp [hlen]

theorem matchesData_iff (data : SignedData) : matchesData interest data = true ↔
    Selects interest data.fullName ∧ locatorMatches interest data = true := by
  have hfull := length_fullName data.toData
  unfold matchesData
  dsimp only
  rw [check_iff, check_iff, check_iff, check_iff, check_iff, exclude_check_data_iff, selects_iff,
    hfull, not_not]
  refine ⟨fun ⟨hmin, hmax, heq, hne, hexcl, hloc⟩ => ?_, fun ⟨⟨hpre, hmin, hmax, hexcl⟩, hloc⟩ => ?_⟩
  · have hpre := (prefix_check_iff data).mp ⟨heq, hne⟩
    split at hmin
    · exact ⟨⟨hpre, by omega, by omega, hexcl⟩, hloc⟩
    · exact ⟨⟨hpre, by omega, by omega, hexcl⟩, hloc⟩
  · obtain ⟨heq, hne⟩ := (prefix_check_iff data).mpr hpre
    have hlen := hpre.length_le
    refine ⟨?_, by omega, heq, hne, hexcl, hloc⟩
    split <;> omega

/-- **The test of a Data agrees with the test of its full name**, which it does not
compute but for an Interest that reaches its digest. -/
theorem matchesData_eq_matchesName (interest : Interest Name) (data : SignedData) :
    matchesData interest data =
      (matchesName interest data.fullName && locatorMatches interest data) := by
  rw [Bool.eq_iff_iff, Bool.and_eq_true, matchesData_iff, matchesName_iff]

/-- Without selectors the names decide. -/
theorem matchesData_default {interest : Interest Name} (h : interest.selectors.empty = true)
    (data : SignedData) :
    matchesData interest data = Ndn.matchesData interest.name data.toData := by
  simp only [Selectors.empty, Bool.and_eq_true, decide_eq_true_eq, Option.isNone_iff_eq_none,
    Bool.not_eq_true'] at h
  obtain ⟨⟨⟨⟨⟨hmin, hmax⟩, hloc⟩, hexcl⟩, -⟩, -⟩ := h
  have hlocator : locatorMatches interest data = true := by
    unfold locatorMatches
    rw [hloc]
  rw [Bool.eq_iff_iff, matchesData_iff, Ndn.matchesData_iff, selects_iff, and_iff_left hlocator]
  rw [or_comm, ← prefix_fullName_iff]
  refine ⟨fun h => h.1, fun hpre => ?_⟩
  have hlen := hpre.length_le
  exact ⟨hpre, by omega, by omega, fun c _ => isExcluded_of_empty hexcl c⟩

end Interest
end Ndn
end IcnDemo
