/-
# Components that carry numbers

`fromNumber` and `fromNumberWithMarker` with their readers and tests, over the
markers of versions, segments, segment offsets and sequence numbers. A marked
number is read back with its marker and with no other
(`toNumberWithMarker_fromNumberWithMarker`). Nothing but the length and the first
octet tells a marked number from a plain one: the numbers from 256 to 65535 pass for
marked ones (`toNumberWithMarker_fromNumber`).
-/
import IcnDemo.Ndn.Wire

namespace IcnDemo
namespace Ndn

open Lib.BigEndian Lib.Loop Tlv

/-- `prependNonNegativeIntegerBlock<TAG>` -/
def prependNonNegativeIntegerBlock (type value : ℕ) : Template :=
  Template.element type fun _ e => e.prependNonNegativeInteger value

namespace Component

def segmentMarker : UInt8 := 0x00
def segmentOffsetMarker : UInt8 := 0xFB
def versionMarker : UInt8 := 0xFD
def sequenceNumberMarker : UInt8 := 0xFE

def isNumber (c : Component) : Bool :=
  c.value.length = 1 ∨ c.value.length = 2 ∨ c.value.length = 4 ∨ c.value.length = 8

def isNumberWithMarker (marker : UInt8) (c : Component) : Bool :=
  c.value.head? = some marker ∧
    (c.value.length = 2 ∨ c.value.length = 3 ∨ c.value.length = 5 ∨ c.value.length = 9)

def toNumber (c : Component) : Except Error ℕ :=
  if c.isNumber then (readNonNegativeInteger c.value.length c.value).map Prod.fst
  else .error "Name component does not have nonNegativeInteger value"

def toNumberWithMarker (marker : UInt8) (c : Component) : Except Error ℕ :=
  if c.isNumberWithMarker marker then
    (readNonNegativeInteger (c.value.length - 1) (c.value.drop 1)).map Prod.fst
  else .error ("Name component does not have the requested marker " ++
    "or the value is not a nonNegativeInteger")

def fromNumber (number : ℕ) : Component := ⟨.nameComponent, encodeNonNegativeInteger number⟩

def fromNumberWithMarker (marker : UInt8) (number : ℕ) : Component :=
  ⟨.nameComponent, marker :: encodeNonNegativeInteger number⟩

def toVersion : Component → Except Error ℕ := toNumberWithMarker versionMarker
def toSegment : Component → Except Error ℕ := toNumberWithMarker segmentMarker
def toSegmentOffset : Component → Except Error ℕ := toNumberWithMarker segmentOffsetMarker
def toSequenceNumber : Component → Except Error ℕ := toNumberWithMarker sequenceNumberMarker
def fromVersion : ℕ → Component := fromNumberWithMarker versionMarker
def fromSegment : ℕ → Component := fromNumberWithMarker segmentMarker
def fromSegmentOffset : ℕ → Component := fromNumberWithMarker segmentOffsetMarker
def fromSequenceNumber : ℕ → Component := fromNumberWithMarker sequenceNumberMarker

/-- The block `fromNumber` makes is the component's. -/
theorem prependNonNegativeIntegerBlock_run (number : ℕ) :
    (prependNonNegativeIntegerBlock ComponentType.nameComponent.code number).run =
      (fromNumber number).wire :=
  ((writes_prependNonNegativeInteger number).element _).run

/-- The lengths of a nonnegative integer. -/
def IsWidth (w : ℕ) : Prop := w = 1 ∨ w = 2 ∨ w = 4 ∨ w = 8

theorem isNumber_iff {c : Component} : c.isNumber = true ↔ IsWidth c.value.length := by
  simp [isNumber, IsWidth]

theorem isNumberWithMarker_iff {marker : UInt8} {c : Component} :
    c.isNumberWithMarker marker = true ↔ ∃ bs, c.value = marker :: bs ∧ IsWidth bs.length := by
  obtain ⟨type, value⟩ := c
  cases value with
  | nil => simp [isNumberWithMarker]
  | cons b bs =>
    simp only [isNumberWithMarker, IsWidth, List.head?_cons, Option.some.injEq, List.length_cons,
      decide_eq_true_eq, List.cons.injEq]
    constructor
    · rintro ⟨rfl, hw⟩
      exact ⟨bs, ⟨rfl, rfl⟩, by omega⟩
    · rintro ⟨bs', ⟨rfl, rfl⟩, hw⟩
      exact ⟨rfl, by omega⟩

theorem readNonNegativeInteger_length {bs : Bytes} (h : IsWidth bs.length) :
    readNonNegativeInteger bs.length bs = .ok (beNat bs, []) := by
  have := readNonNegativeInteger_beBytes h (beNat_lt bs)
  rwa [beBytes_beNat] at this

/-- The components that are numbers. -/
theorem toNumber_eq_ok_iff {c : Component} {n : ℕ} :
    c.toNumber = .ok n ↔ IsWidth c.value.length ∧ n = beNat c.value := by
  unfold toNumber
  by_cases h : IsWidth c.value.length
  · rw [if_pos (isNumber_iff.mpr h), readNonNegativeInteger_length h]
    simp [Except.map, h, eq_comm]
  · rw [if_neg fun h' => h (isNumber_iff.mp h')]
    simp [h]

/-- The components that are numbers with this marker. -/
theorem toNumberWithMarker_eq_ok_iff {marker : UInt8} {c : Component} {n : ℕ} :
    c.toNumberWithMarker marker = .ok n ↔
      ∃ bs, c.value = marker :: bs ∧ IsWidth bs.length ∧ n = beNat bs := by
  unfold toNumberWithMarker
  by_cases h : c.isNumberWithMarker marker = true
  · obtain ⟨bs, hbs, hw⟩ := isNumberWithMarker_iff.mp h
    rw [if_pos h, hbs, List.length_cons, Nat.add_sub_cancel, List.drop_one, List.tail_cons,
      readNonNegativeInteger_length hw]
    simp [Except.map, hw, eq_comm]
  · rw [if_neg h]
    constructor
    · intro h'; cases h'
    · rintro ⟨bs, hbs, hw, -⟩
      exact absurd (isNumberWithMarker_iff.mpr ⟨bs, hbs, hw⟩) h

theorem isWidth_encode {n : ℕ} (h : n < 2 ^ 64) : IsWidth (encodeNonNegativeInteger n).length := by
  rw [encodeNonNegativeInteger_length]
  exact (estimateNonNegativeInteger_spec h).1

theorem beNat_encode {n : ℕ} (h : n < 2 ^ 64) : beNat (encodeNonNegativeInteger n) = n := by
  rw [encodeNonNegativeInteger_eq, beNat_beBytes (estimateNonNegativeInteger_spec h).2]

theorem toNumber_fromNumber {n : ℕ} (h : n < 2 ^ 64) : (fromNumber n).toNumber = .ok n :=
  toNumber_eq_ok_iff.mpr ⟨isWidth_encode h, (beNat_encode h).symm⟩

/-- A marked number is read with its marker, and with no other. -/
theorem toNumberWithMarker_fromNumberWithMarker {n : ℕ} (h : n < 2 ^ 64)
    (marker marker' : UInt8) :
    (fromNumberWithMarker marker n).toNumberWithMarker marker' =
      if marker' = marker then .ok n
      else .error ("Name component does not have the requested marker " ++
        "or the value is not a nonNegativeInteger") := by
  by_cases hm : marker' = marker
  · subst hm
    rw [if_pos rfl]
    exact toNumberWithMarker_eq_ok_iff.mpr ⟨_, rfl, isWidth_encode h, (beNat_encode h).symm⟩
  · rw [if_neg hm]
    unfold toNumberWithMarker
    rw [if_neg]
    simp [isNumberWithMarker, fromNumberWithMarker, Ne.symm hm]

/-- The plain numbers that pass for marked ones, and the number they are then read as. -/
theorem toNumberWithMarker_fromNumber {n : ℕ} (h : n < 2 ^ 64) (marker : UInt8) (k : ℕ) :
    (fromNumber n).toNumberWithMarker marker = .ok k ↔
      256 ≤ n ∧ n < 65536 ∧ n / 256 = marker.toNat ∧ k = n % 256 := by
  rw [toNumberWithMarker_eq_ok_iff]
  have hnat := beNat_encode h
  have hlen := encodeNonNegativeInteger_length n
  constructor
  · rintro ⟨bs, hbs, hw, rfl⟩
    have hvalue : encodeNonNegativeInteger n = marker :: bs := hbs
    rw [hvalue, beNat_cons] at hnat
    rw [hvalue, List.length_cons] at hlen
    have hwidth := (estimateNonNegativeInteger_spec h).1
    have hone : bs.length = 1 := by
      unfold IsWidth at hw
      omega
    have htwo : estimateNonNegativeInteger n = 2 := by omega
    have hlow := beNat_lt bs
    rw [hone] at hnat hlow
    have hbig : ¬ n ≤ 0xFF := by
      intro hle
      rw [estimateNonNegativeInteger, if_pos hle] at htwo
      omega
    have hm := marker.toNat_lt
    omega
  · rintro ⟨hge, hlt, hdiv, rfl⟩
    refine ⟨[UInt8.ofNat (n % 256)], ?_, .inl rfl, ?_⟩
    · have hm : UInt8.ofNat (n / 256) = marker := by rw [hdiv, UInt8.ofNat_toNat]
      have hmod : UInt8.ofNat (n % 256) = UInt8.ofNat n := by
        apply UInt8.toNat_inj.mp
        simp [UInt8.toNat_ofNat']
      simp only [fromNumber, encodeNonNegativeInteger]
      rw [if_neg (by omega), if_pos (by omega), hmod, ← hm]
      rfl
    · rw [beNat_singleton, UInt8.toNat_ofNat']
      omega

end Component
end Ndn
end IcnDemo
