/-
# Successors in the canonical order

`Component::getSuccessor` adds one to the octets as a number, and an octet where
that carries out. No valid component lies between a component and its successor
(`Component.getSuccessor_spec`); the digest of 32 octets 255 has none
(`Component.getSuccessor_eq_error_iff`). So the names from a name up to its
successor are the names it is a prefix of (`Name.isPrefix_iff_getSuccessor`), which
the successor of the empty name does not do (`Name.lt_getSuccessor_nil_iff`).

Numbers with one marker are ordered as the numbers are
(`Component.fromNumberWithMarker_lt_iff`).
-/
import IcnDemo.Ndn.Order

namespace IcnDemo
namespace Ndn

open Lib.BigEndian Lib.LexOrder Lib.Loop Tlv

namespace Component

/-- The octets after the loop of `getSuccessor` from the last octet, and one more
where it overflows. -/
def successorValue (value : Bytes) : Bytes :=
  let r := addOne value.reverse
  if r.2 then r.1.reverse ++ [0] else r.1.reverse

/-- `Component::getSuccessor` -/
def getSuccessor (c : Component) : Except Error Component :=
  let value := successorValue c.value
  ofBlock ⟨c.type.code, element c.type.code value, value⟩

theorem successorValue_spec (value : Bytes) :
    ((successorValue value).length = value.length ∧
      beNat (successorValue value) = beNat value + 1) ∨
    ((successorValue value).length = value.length + 1 ∧ beNat (successorValue value) = 0 ∧
      beNat value + 1 = 256 ^ value.length) := by
  have hlen := addOne_length value.reverse
  rw [List.length_reverse] at hlen
  have h := addOne_spec value.reverse
  rw [List.reverse_reverse, List.length_reverse] at h
  unfold successorValue
  rcases h with ⟨hc, hfull, hzero⟩ | ⟨hc, hnat⟩
  · right
    simp [hc, hlen, hzero, hfull]
  · left
    simp [hc, hlen, hnat]

theorem digest_length {c : Component} (hv : c.Valid)
    (ht : c.type = .implicitSha256DigestComponent) : c.value.length = 32 := by
  obtain ⟨type, value⟩ := c
  obtain rfl : type = .implicitSha256DigestComponent := ht
  simpa [Valid, isGeneric, isImplicitSha256Digest, sha256DigestSize] using hv

theorem valid_of_digest {value : Bytes} (h : value.length = 32) :
    Valid ⟨.implicitSha256DigestComponent, value⟩ := by
  simp [Valid, isGeneric, isImplicitSha256Digest, sha256DigestSize, h]

theorem valid_of_generic (value : Bytes) : Valid ⟨.nameComponent, value⟩ := by
  simp [Valid, isGeneric]

/-- What the successor is, where there is one. -/
theorem getSuccessor_eq_ok_iff {c s : Component} : c.getSuccessor = .ok s ↔
    s.Valid ∧ s.type = c.type ∧ s.value = successorValue c.value := by
  unfold getSuccessor
  rw [ofBlock_eq_ok_iff]
  constructor
  · rintro ⟨hv, ht, hval⟩
    exact ⟨hv, (ComponentType.code_inj ht).symm, hval.symm⟩
  · rintro ⟨hv, ht, hval⟩
    exact ⟨hv, congrArg ComponentType.code ht.symm, hval.symm⟩

/-- **The successor is the next component**: it comes after the component, and no valid
component lies between. -/
theorem getSuccessor_spec {c s : Component} (h : c.getSuccessor = .ok s) :
    s.Valid ∧ c < s ∧ ∀ d : Component, d.Valid → c < d → s ≤ d := by
  obtain ⟨hs, ht, hval⟩ := getSuccessor_eq_ok_iff.mp h
  have hspec := successorValue_spec c.value
  rw [← hval] at hspec
  refine ⟨hs, ?_, ?_⟩
  · rw [lt_iff]
    right
    refine ⟨ht.symm, ?_⟩
    omega
  · intro d hd hlt
    rw [← not_lt, lt_iff]
    rintro (hcode | ⟨htype, hless⟩)
    · rw [ht] at hcode
      rcases lt_iff.mp hlt with h' | ⟨h', -⟩
      · omega
      · rw [h'] at hcode
        exact lt_irrefl _ hcode
    · rcases lt_iff.mp hlt with h' | ⟨-, hmore⟩
      · rw [htype, ht] at h'
        exact lt_irrefl _ h'
      · have hd' := beNat_lt d.value
        rcases hspec with ⟨hlen, hnat⟩ | ⟨hlen, hnat, hfull⟩
        · omega
        · have hdlen : d.value.length = c.value.length := by omega
          rw [hdlen] at hd'
          omega

/-- The only valid component without a successor is the greatest digest. -/
theorem getSuccessor_eq_error_iff {c : Component} (hc : c.Valid) :
    (∃ e, c.getSuccessor = .error e) ↔
      c.type = .implicitSha256DigestComponent ∧ beNat c.value + 1 = 256 ^ 32 := by
  have hspec := successorValue_spec c.value
  cases ht : c.type with
  | nameComponent =>
    have hok : c.getSuccessor = .ok ⟨c.type, successorValue c.value⟩ := by
      rw [getSuccessor_eq_ok_iff, ht]
      exact ⟨valid_of_generic _, rfl, rfl⟩
    simp [hok]
  | implicitSha256DigestComponent =>
    have hlen := digest_length hc ht
    rcases hspec with ⟨hl, hn⟩ | ⟨hl, hn, hfull⟩
    · have hok : c.getSuccessor = .ok ⟨c.type, successorValue c.value⟩ := by
        rw [getSuccessor_eq_ok_iff, ht]
        exact ⟨valid_of_digest (by omega), rfl, rfl⟩
      have hlt := beNat_lt (successorValue c.value)
      rw [hl, hlen] at hlt
      simp only [hok]
      constructor
      · rintro ⟨e, he⟩; cases he
      · rintro ⟨-, h⟩
        omega
    · rw [hlen] at hfull
      refine ⟨fun _ => ⟨rfl, hfull⟩, fun _ => ?_⟩
      cases hs : c.getSuccessor with
      | error e => exact ⟨e, rfl⟩
      | ok s =>
        obtain ⟨hv, hst, hsv⟩ := getSuccessor_eq_ok_iff.mp hs
        have := digest_length hv (hst.trans ht)
        rw [hsv] at this
        omega

/-! ### Numbers -/

theorem estimateNonNegativeInteger_mono {a b : ℕ} (h : a ≤ b) :
    estimateNonNegativeInteger a ≤ estimateNonNegativeInteger b := by
  unfold estimateNonNegativeInteger
  split_ifs <;> omega

theorem fromNumberWithMarker_lt (marker : UInt8) {a b : ℕ} (hb : b < 2 ^ 64) (h : a < b) :
    fromNumberWithMarker marker a < fromNumberWithMarker marker b := by
  have hmono := estimateNonNegativeInteger_mono (Nat.le_of_lt h)
  rw [lt_iff]
  right
  refine ⟨rfl, ?_⟩
  simp only [fromNumberWithMarker, List.length_cons, encodeNonNegativeInteger_length, beNat_cons,
    beNat_encode hb, beNat_encode (Nat.lt_trans h hb)]
  rcases Nat.lt_or_eq_of_le hmono with hlt | heq
  · left
    omega
  · right
    rw [heq]
    omega

/-- Components with one marker are in the order of their numbers. -/
theorem fromNumberWithMarker_lt_iff (marker : UInt8) {a b : ℕ} (ha : a < 2 ^ 64)
    (hb : b < 2 ^ 64) :
    fromNumberWithMarker marker a < fromNumberWithMarker marker b ↔ a < b := by
  refine ⟨fun h => ?_, fromNumberWithMarker_lt marker hb⟩
  by_contra hge
  rcases Nat.lt_or_eq_of_le (Nat.le_of_not_lt hge) with hlt | rfl
  · exact lt_asymm h (fromNumberWithMarker_lt marker ha hlt)
  · exact lt_irrefl _ h

end Component

namespace Name

/-- `Name::getSuccessor` -/
def getSuccessor (name : Name) : Except Error Name :=
  match name.getLast? with
  | none => .ok [⟨.nameComponent, [0]⟩]
  | some last => do
    let s ← last.getSuccessor
    .ok (name.dropLast ++ [s])

/-- The names from a name up to its successor, in the canonical order, are the names it is
a prefix of. -/
theorem isPrefix_iff_getSuccessor {name s : Name} (hne : name ≠ [])
    (hs : name.getSuccessor = .ok s) {z : Name} (hz : ∀ c ∈ z, c.Valid) :
    name <+: z ↔ name ≤ z ∧ z < s := by
  unfold getSuccessor at hs
  rw [List.getLast?_eq_some_getLast hne] at hs
  obtain ⟨t, ht, hs⟩ := bind_eq_ok hs
  obtain rfl := Except.ok.inj hs
  obtain ⟨-, hlt, hcov⟩ := Component.getSuccessor_spec ht
  have h := append_singleton_isPrefix_iff hlt (p := name.dropLast) fun b hb => hcov b (hz b hb)
  rwa [List.dropLast_append_getLast hne] at h

/-- A name below `/a`. -/
theorem isPrefix_iff_getSuccessor_below :
    [⟨.nameComponent, [0x61]⟩] ≤ ([⟨.nameComponent, [0x61]⟩, ⟨.nameComponent, []⟩] : Name) ∧
      ([⟨.nameComponent, [0x61]⟩, ⟨.nameComponent, []⟩] : Name) < [⟨.nameComponent, [0x62]⟩] :=
  (isPrefix_iff_getSuccessor (List.cons_ne_nil _ _) rfl (by decide)).mp ⟨[_], rfl⟩

/-- Before the successor of the empty name come the names that are empty or start with
a digest or the empty component. -/
theorem lt_getSuccessor_nil_iff {z : Name} (hz : ∀ c ∈ z, c.Valid) :
    (∃ s, getSuccessor [] = .ok s ∧ z < s) ↔
      ∀ c, z.head? = some c → c.type = .implicitSha256DigestComponent ∨ c.value = [] := by
  simp only [getSuccessor, List.getLast?_nil, Except.ok.injEq, exists_eq_left']
  cases z with
  | nil => simp
  | cons c z =>
    simp only [List.head?_cons, Option.some.injEq, forall_eq']
    rw [List.cons_lt_cons_iff, Component.lt_iff]
    obtain ⟨type, value⟩ := c
    cases type with
    | implicitSha256DigestComponent => simp [ComponentType.code]
    | nameComponent =>
      cases value with
      | nil => simp
      | cons b value => simp [ComponentType.code]

end Name

end Ndn
end IcnDemo
