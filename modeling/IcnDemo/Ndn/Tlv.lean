/-
# TLV numbers

The variable-length numbers of `tlv.hpp` that carry types and lengths, and the
nonnegative integers. A buffer position is what is left of the buffer. The
readers that throw accept what the readers that answer `false` accept
(`readVarNumber_eq_ok_iff`), and the readers of a stream what the readers of a
buffer do (`readVarNumberStream_eq`).

A number has several codes: the longer ones are accepted too, and the written
one is the shortest (`reads_readVarNumber_iff`).
-/
import IcnDemo.Lib.BigEndian
import IcnDemo.Lib.PrefixCode
import IcnDemo.Ndn.Component

namespace IcnDemo
namespace Ndn
namespace Tlv

open Lib.BigEndian Lib.PrefixCode Lib.Loop

/-! ### Variable-length numbers -/

/-- `be16toh`, `be32toh` and `be64toh` of the next octets. -/
def readOctets (w : ℕ) (begin : Bytes) : Option (ℕ × Bytes) :=
  if begin.length < w then none else some (beNat (begin.take w), begin.drop w)

/-- `readVarNumber`, the one that answers `false`. -/
def readVarNumber? : Bytes → Option (ℕ × Bytes)
  | [] => none
  | firstOctet :: begin =>
    if firstOctet < 253 then some (firstOctet.toNat, begin)
    else if firstOctet = 253 then readOctets 2 begin
    else if firstOctet = 254 then readOctets 4 begin
    else readOctets 8 begin

/-- `readType`, the one that answers `false`. -/
def readType? (begin : Bytes) : Option (ℕ × Bytes) :=
  (readVarNumber? begin).bind fun r => if r.1 > 0xFFFFFFFF then none else some r

/-- `readVarNumber`, the one that throws. -/
def readVarNumber (begin : Bytes) : Except Error (ℕ × Bytes) :=
  if begin = [] then .error "Empty buffer during TLV processing"
  else
    match readVarNumber? begin with
    | none => .error "Insufficient data during TLV processing"
    | some r => .ok r

/-- `readType`, the one that throws. -/
def readType (begin : Bytes) : Except Error (ℕ × Bytes) := do
  let r ← readVarNumber begin
  if r.1 > 0xFFFFFFFF then .error "TLV type code exceeds allowed maximum" else .ok r

/-- The loop of the stream's readers: `value = (value << 8) | *begin`. -/
def streamOctets : ℕ → UInt64 → Bytes → Option (UInt64 × Bytes)
  | 0, value, begin => some (value, begin)
  | _ + 1, _, [] => none
  | count + 1, value, octet :: begin =>
    streamOctets count (value <<< 8 ||| octet.toUInt64) begin

/-- `readVarNumber<std::istream_iterator<uint8_t>>` -/
def readVarNumberStream : Bytes → Option (UInt64 × Bytes)
  | [] => none
  | firstOctet :: begin =>
    if firstOctet < 253 then some (firstOctet.toUInt64, begin)
    else if firstOctet = 253 then streamOctets 2 0 begin
    else if firstOctet = 254 then streamOctets 4 0 begin
    else streamOctets 8 0 begin

/-- `sizeOfVarNumber`, and what the estimator counts for a number. -/
def sizeOfVarNumber (varNumber : ℕ) : ℕ :=
  if varNumber < 253 then 1
  else if varNumber ≤ 0xFFFF then 3
  else if varNumber ≤ 0xFFFFFFFF then 5
  else 9

/-- `writeVarNumber`, and the octets the encoder prepends. -/
def writeVarNumber (varNumber : ℕ) : Bytes :=
  if varNumber < 253 then [UInt8.ofNat varNumber]
  else if varNumber ≤ 0xFFFF then 253 :: beBytes 2 varNumber
  else if varNumber ≤ 0xFFFFFFFF then 254 :: beBytes 4 varNumber
  else 255 :: beBytes 8 varNumber

theorem writeVarNumber_length (n : ℕ) : (writeVarNumber n).length = sizeOfVarNumber n := by
  unfold writeVarNumber sizeOfVarNumber
  split
  · rfl
  · split
    · simp
    · split <;> simp

/-! ### Nonnegative integers -/

/-- `readNonNegativeInteger` -/
def readNonNegativeInteger (size : ℕ) (begin : Bytes) : Except Error (ℕ × Bytes) :=
  if size = 1 ∨ size = 2 ∨ size = 4 ∨ size = 8 then
    match readOctets size begin with
    | none => .error "Insufficient data during TLV processing"
    | some r => .ok r
  else .error "Invalid length for nonNegativeInteger (only 1, 2, 4, and 8 are allowed)"

/-- What the estimator counts for a nonnegative integer. -/
def estimateNonNegativeInteger (varNumber : ℕ) : ℕ :=
  if varNumber ≤ 0xFF then 1
  else if varNumber ≤ 0xFFFF then 2
  else if varNumber ≤ 0xFFFFFFFF then 4
  else 8

/-- `Encoder::prependNonNegativeInteger` -/
def encodeNonNegativeInteger (varNumber : ℕ) : Bytes :=
  if varNumber ≤ 0xFF then [UInt8.ofNat varNumber]
  else if varNumber ≤ 0xFFFF then beBytes 2 varNumber
  else if varNumber ≤ 0xFFFFFFFF then beBytes 4 varNumber
  else beBytes 8 varNumber

/-- `writeNonNegativeInteger` of the streams: another bound for one octet. -/
def writeNonNegativeInteger (varNumber : ℕ) : Bytes :=
  if varNumber < 253 then [UInt8.ofNat varNumber]
  else if varNumber ≤ 0xFFFF then beBytes 2 varNumber
  else if varNumber ≤ 0xFFFFFFFF then beBytes 4 varNumber
  else beBytes 8 varNumber

theorem readNonNegativeInteger_beBytes {w n : ℕ} (hw : w = 1 ∨ w = 2 ∨ w = 4 ∨ w = 8)
    (h : n < 256 ^ w) : readNonNegativeInteger w (beBytes w n) = .ok (n, []) := by
  unfold readNonNegativeInteger readOctets
  rw [if_pos hw, if_neg (by simp), List.take_of_length_le (by simp),
    List.drop_of_length_le (by simp), beNat_beBytes h]

theorem encodeNonNegativeInteger_eq (n : ℕ) :
    encodeNonNegativeInteger n = beBytes (estimateNonNegativeInteger n) n := by
  unfold encodeNonNegativeInteger estimateNonNegativeInteger
  by_cases h1 : n ≤ 0xFF
  · rw [if_pos h1, if_pos h1]
    rfl
  · by_cases h2 : n ≤ 0xFFFF
    · rw [if_neg h1, if_neg h1, if_pos h2, if_pos h2]
    · by_cases h3 : n ≤ 0xFFFFFFFF
      · rw [if_neg h1, if_neg h1, if_neg h2, if_neg h2, if_pos h3, if_pos h3]
      · rw [if_neg h1, if_neg h1, if_neg h2, if_neg h2, if_neg h3, if_neg h3]

theorem estimateNonNegativeInteger_spec {n : ℕ} (h : n < 2 ^ 64) :
    (estimateNonNegativeInteger n = 1 ∨ estimateNonNegativeInteger n = 2 ∨
      estimateNonNegativeInteger n = 4 ∨ estimateNonNegativeInteger n = 8) ∧
    n < 256 ^ estimateNonNegativeInteger n := by
  unfold estimateNonNegativeInteger
  by_cases h1 : n ≤ 0xFF
  · rw [if_pos h1]
    omega
  · by_cases h2 : n ≤ 0xFFFF
    · rw [if_neg h1, if_pos h2]
      omega
    · by_cases h3 : n ≤ 0xFFFFFFFF
      · rw [if_neg h1, if_neg h2, if_pos h3]
        omega
      · rw [if_neg h1, if_neg h2, if_neg h3]
        omega

@[simp] theorem encodeNonNegativeInteger_length (n : ℕ) :
    (encodeNonNegativeInteger n).length = estimateNonNegativeInteger n := by
  rw [encodeNonNegativeInteger_eq, beBytes_length]

/-- What the encoder writes for a number is read back at its length. -/
theorem readNonNegativeInteger_encode {n : ℕ} (h : n < 2 ^ 64) :
    readNonNegativeInteger (encodeNonNegativeInteger n).length (encodeNonNegativeInteger n) =
      .ok (n, []) := by
  obtain ⟨hw, hn⟩ := estimateNonNegativeInteger_spec h
  rw [encodeNonNegativeInteger_length, encodeNonNegativeInteger_eq]
  exact readNonNegativeInteger_beBytes hw hn

/-- So is what the streams write, where 253 to 255 take two octets. -/
theorem readNonNegativeInteger_write {n : ℕ} (h : n < 2 ^ 64) :
    readNonNegativeInteger (writeNonNegativeInteger n).length (writeNonNegativeInteger n) =
      .ok (n, []) := by
  have hone : n < 256 → [UInt8.ofNat n] = beBytes 1 n := fun _ => rfl
  unfold writeNonNegativeInteger
  split_ifs with h1 h2 h3
  · rw [hone (by omega), beBytes_length]
    exact readNonNegativeInteger_beBytes (by omega) (by omega)
  all_goals
    rw [beBytes_length]
    exact readNonNegativeInteger_beBytes (by omega) (by omega)

/-! ### What is read -/

theorem framed_readOctets (w : ℕ) : Framed (readOctets w) := by
  have heq : readOctets w = andThen (takeN w) fun bs => ofOption (some (beNat bs)) := by
    funext begin
    unfold readOctets andThen takeN ofOption
    split <;> rfl
  rw [heq]
  exact framed_andThen (framed_takeN w) fun bs => framed_ofOption _

theorem reads_readOctets {w : ℕ} {bs : Bytes} {n : ℕ} :
    Reads (readOctets w) bs n ↔ n < 256 ^ w ∧ bs = beBytes w n := by
  unfold Reads readOctets
  constructor
  · intro h
    split at h
    · cases h
    · rename_i hlen
      obtain ⟨rfl, hdrop⟩ := Prod.mk.inj (Option.some.inj h)
      have hlen' : bs.length = w := by
        have := List.drop_eq_nil_iff.mp hdrop
        omega
      subst hlen'
      rw [List.take_length]
      exact ⟨beNat_lt bs, (beBytes_beNat bs).symm⟩
  · rintro ⟨hn, rfl⟩
    rw [if_neg (by simp), List.take_of_length_le (by simp), List.drop_of_length_le (by simp),
      beNat_beBytes hn]

theorem framed_readVarNumber : Framed readVarNumber? := by
  apply framed_of_head
  · rfl
  · intro firstOctet
    unfold readVarNumber?
    by_cases h1 : firstOctet < 253
    · simp only [if_pos h1]
      exact framed_ofOption (some firstOctet.toNat)
    · by_cases h2 : firstOctet = 253
      · simp only [if_neg h1, if_pos h2]
        exact framed_readOctets 2
      · by_cases h3 : firstOctet = 254
        · simp only [if_neg h1, if_neg h2, if_pos h3]
          exact framed_readOctets 4
        · simp only [if_neg h1, if_neg h2, if_neg h3]
          exact framed_readOctets 8

/-- The codes of a number. -/
theorem reads_readVarNumber_iff {w : Bytes} {n : ℕ} :
    Reads readVarNumber? w n ↔ (n < 253 ∧ w = [UInt8.ofNat n]) ∨
      (n < 256 ^ 2 ∧ w = 253 :: beBytes 2 n) ∨ (n < 256 ^ 4 ∧ w = 254 :: beBytes 4 n) ∨
      (n < 256 ^ 8 ∧ w = 255 :: beBytes 8 n) := by
  cases w with
  | nil => simp [Reads, readVarNumber?]
  | cons firstOctet w =>
    have h253 : (253 : UInt8).toNat = 253 := rfl
    have hlt := firstOctet.toNat_lt
    unfold Reads readVarNumber?
    by_cases h1 : firstOctet < 253
    · have hval : firstOctet.toNat < 253 := UInt8.lt_iff_toNat_lt.mp h1
      have hne : firstOctet ≠ 253 ∧ firstOctet ≠ 254 ∧ firstOctet ≠ 255 := by
        refine ⟨?_, ?_, ?_⟩ <;> rintro rfl <;> exact absurd hval (by decide)
      simp only [if_pos h1, Option.some.injEq, Prod.mk.injEq, List.cons.injEq, hne.1, hne.2.1,
        hne.2.2, false_and, and_false, or_false]
      constructor
      · rintro ⟨rfl, rfl⟩
        simp [hval]
      · rintro ⟨hn, rfl, rfl⟩
        refine ⟨?_, rfl⟩
        rw [UInt8.toNat_ofNat']
        omega
    · have hge : 253 ≤ firstOctet.toNat := by
        rw [UInt8.lt_iff_toNat_lt] at h1
        omega
      have hsmall : ¬ (n < 253 ∧ firstOctet :: w = [UInt8.ofNat n]) := by
        rintro ⟨hn, heq⟩
        obtain ⟨rfl, -⟩ := List.cons.inj heq
        rw [UInt8.toNat_ofNat'] at hge
        omega
      have hcases : firstOctet = 253 ∨ firstOctet = 254 ∨ firstOctet = 255 := by
        have : firstOctet.toNat = 253 ∨ firstOctet.toNat = 254 ∨ firstOctet.toNat = 255 := by omega
        rcases this with h | h | h
        · exact .inl (UInt8.toNat_inj.mp h)
        · exact .inr (.inl (UInt8.toNat_inj.mp h))
        · exact .inr (.inr (UInt8.toNat_inj.mp h))
      simp only [hsmall, false_or]
      rcases hcases with rfl | rfl | rfl
      · simpa [Reads] using reads_readOctets (w := 2) (n := n)
      · simpa [Reads] using reads_readOctets (w := 4) (n := n)
      · simpa [Reads] using reads_readOctets (w := 8) (n := n)

theorem reads_writeVarNumber {n : ℕ} (h : n < 2 ^ 64) :
    Reads readVarNumber? (writeVarNumber n) n := by
  rw [reads_readVarNumber_iff]
  unfold writeVarNumber
  by_cases h1 : n < 253
  · rw [if_pos h1]
    exact .inl ⟨h1, rfl⟩
  · by_cases h2 : n ≤ 0xFFFF
    · rw [if_neg h1, if_pos h2]
      exact .inr (.inl ⟨by omega, rfl⟩)
    · by_cases h3 : n ≤ 0xFFFFFFFF
      · rw [if_neg h1, if_neg h2, if_pos h3]
        exact .inr (.inr (.inl ⟨by omega, rfl⟩))
      · rw [if_neg h1, if_neg h2, if_neg h3]
        exact .inr (.inr (.inr ⟨by omega, rfl⟩))

/-- What is written is the shortest of the codes. -/
theorem sizeOfVarNumber_le {w : Bytes} {n : ℕ} (h : Reads readVarNumber? w n) :
    sizeOfVarNumber n ≤ w.length ∧ (w.length = sizeOfVarNumber n → w = writeVarNumber n) := by
  unfold sizeOfVarNumber writeVarNumber
  rcases reads_readVarNumber_iff.mp h with ⟨hn, rfl⟩ | ⟨hn, rfl⟩ | ⟨hn, rfl⟩ | ⟨hn, rfl⟩
  · rw [if_pos hn, if_pos hn]
    exact ⟨le_refl _, fun _ => rfl⟩
  · by_cases h1 : n < 253
    · rw [if_pos h1, if_pos h1]
      simp
    · rw [if_neg h1, if_neg h1, if_pos (by omega), if_pos (by omega)]
      simp
  · by_cases h1 : n < 253
    · rw [if_pos h1, if_pos h1]
      simp
    · by_cases h2 : n ≤ 0xFFFF
      · rw [if_neg h1, if_neg h1, if_pos h2, if_pos h2]
        simp
      · rw [if_neg h1, if_neg h1, if_neg h2, if_neg h2, if_pos (by omega), if_pos (by omega)]
        simp
  · by_cases h1 : n < 253
    · rw [if_pos h1, if_pos h1]
      simp
    · by_cases h2 : n ≤ 0xFFFF
      · rw [if_neg h1, if_neg h1, if_pos h2, if_pos h2]
        simp
      · by_cases h3 : n ≤ 0xFFFFFFFF
        · rw [if_neg h1, if_neg h1, if_neg h2, if_neg h2, if_pos h3, if_pos h3]
          simp
        · rw [if_neg h1, if_neg h1, if_neg h2, if_neg h2, if_neg h3, if_neg h3]
          simp

/-- The codes of a number on the wire: every code is read back whatever follows, none
is shorter than the written one, and only that one is as short. -/
theorem varNumber_codes {n : ℕ} (hn : n < 2 ^ 64) :
    (∀ rest, readVarNumber? (writeVarNumber n ++ rest) = some (n, rest)) ∧
    (writeVarNumber n).length = sizeOfVarNumber n ∧
    ∀ bs rest, readVarNumber? bs = some (n, rest) →
      rest.length + sizeOfVarNumber n ≤ bs.length ∧
      (bs.length = rest.length + sizeOfVarNumber n → bs = writeVarNumber n ++ rest) := by
  refine ⟨framed_readVarNumber.append (reads_writeVarNumber hn), writeVarNumber_length n, ?_⟩
  intro bs rest h
  obtain ⟨w, rfl, hw⟩ := (framed_readVarNumber _ _ _).mp h
  obtain ⟨hle, heq⟩ := sizeOfVarNumber_le hw
  rw [List.length_append]
  refine ⟨by omega, fun hlen => ?_⟩
  rw [heq (by omega)]

/-- The least number with a code of three octets. -/
theorem varNumber_codes_three : (writeVarNumber 253).length = 3 ∧
    ∀ rest, readVarNumber? (writeVarNumber 253 ++ rest) = some (253, rest) :=
  have hcodes := varNumber_codes (n := 253) (by omega)
  ⟨hcodes.2.1, hcodes.1⟩

/-! ### The readers that throw -/

theorem readVarNumber_eq_ok_iff {begin : Bytes} {r : ℕ × Bytes} :
    readVarNumber begin = .ok r ↔ readVarNumber? begin = some r := by
  unfold readVarNumber
  by_cases h : begin = []
  · subst h
    simp [readVarNumber?]
  · rw [if_neg h]
    cases readVarNumber? begin <;> simp

theorem readType_eq_ok_iff {begin : Bytes} {r : ℕ × Bytes} :
    readType begin = .ok r ↔ readType? begin = some r := by
  unfold readType readType?
  constructor
  · intro h
    obtain ⟨r', hr, h⟩ := bind_eq_ok h
    rw [readVarNumber_eq_ok_iff.mp hr, Option.bind_some]
    split at h
    · cases h
    · rename_i hle
      rw [if_neg hle, Except.ok.inj h]
  · intro h
    obtain ⟨r', hr, h⟩ := Option.bind_eq_some_iff.mp h
    rw [readVarNumber_eq_ok_iff.mpr hr, ok_bind]
    split at h
    · cases h
    · rename_i hle
      rw [if_neg hle, Option.some.inj h]

theorem framed_readType : Framed readType? := by
  have heq : readType? = andThen readVarNumber? fun n =>
      ofOption (if n > 0xFFFFFFFF then none else some n) := by
    funext begin
    unfold readType? andThen ofOption
    congr 1
    funext r
    dsimp only
    split <;> rfl
  rw [heq]
  exact framed_andThen framed_readVarNumber fun n => framed_ofOption _

theorem reads_readType_iff {w : Bytes} {n : ℕ} :
    Reads readType? w n ↔ Reads readVarNumber? w n ∧ n ≤ 0xFFFFFFFF := by
  unfold Reads readType?
  constructor
  · intro h
    obtain ⟨r, hr, h⟩ := Option.bind_eq_some_iff.mp h
    split at h
    · cases h
    · rename_i hle
      obtain rfl := Option.some.inj h
      exact ⟨hr, Nat.le_of_not_lt hle⟩
  · rintro ⟨h, hle⟩
    rw [h, Option.bind_some, if_neg (by simpa using hle)]

/-! ### The readers of a stream -/

theorem toNat_shiftLeft_or {value : UInt64} {octet : UInt8} (h : value.toNat * 256 < 2 ^ 64) :
    (value <<< 8 ||| octet.toUInt64).toNat = value.toNat * 256 + octet.toNat := by
  have ho := octet.toNat_lt
  have hshift : value.toNat <<< 8 % 2 ^ 64 = 2 ^ 8 * value.toNat := by
    rw [Nat.shiftLeft_eq]
    omega
  rw [UInt64.toNat_or, UInt64.toNat_shiftLeft, UInt8.toNat_toUInt64]
  rw [show (8 : UInt64).toNat % 64 = 8 from rfl, hshift, ← Nat.two_pow_add_eq_or_of_lt ho]
  omega

theorem readOctets_cons (count : ℕ) (octet : UInt8) (begin : Bytes) :
    readOctets (count + 1) (octet :: begin) =
      (readOctets count begin).map fun r => (octet.toNat * 256 ^ count + r.1, r.2) := by
  unfold readOctets
  by_cases h : begin.length < count
  · rw [if_pos (by simpa using h), if_pos h]
    rfl
  · rw [if_neg (by simpa using h), if_neg h, List.take_succ_cons, beNat_cons, List.length_take,
      Nat.min_eq_left (by omega)]
    rfl

theorem streamOctets_eq : ∀ (count : ℕ) (value : UInt64) (begin : Bytes),
    (value.toNat + 1) * 256 ^ count ≤ 2 ^ 64 →
    (streamOctets count value begin).map (fun r => (r.1.toNat, r.2)) =
      (readOctets count begin).map fun r => (value.toNat * 256 ^ count + r.1, r.2)
  | 0, value, begin, _ => by simp [streamOctets, readOctets]
  | count + 1, value, [], _ => by simp [streamOctets, readOctets]
  | count + 1, value, octet :: begin, h => by
    have ho := octet.toNat_lt
    have hpos : 0 < 256 ^ count := Nat.pow_pos (by omega)
    have hfits : value.toNat * 256 < 2 ^ 64 := by
      calc value.toNat * 256 < (value.toNat + 1) * 256 := by omega
        _ ≤ (value.toNat + 1) * 256 ^ (count + 1) := by
          apply Nat.mul_le_mul_left
          rw [pow_succ]
          omega
        _ ≤ 2 ^ 64 := h
    have hnext : (value.toNat * 256 + octet.toNat + 1) * 256 ^ count ≤ 2 ^ 64 := by
      calc (value.toNat * 256 + octet.toNat + 1) * 256 ^ count
          ≤ ((value.toNat + 1) * 256) * 256 ^ count := Nat.mul_le_mul_right _ (by omega)
        _ = (value.toNat + 1) * 256 ^ (count + 1) := by ring
        _ ≤ 2 ^ 64 := h
    rw [← toNat_shiftLeft_or hfits] at hnext
    rw [streamOctets, streamOctets_eq count _ begin hnext, toNat_shiftLeft_or hfits,
      readOctets_cons, Option.map_map]
    congr 1
    funext r
    simp only [Function.comp, Prod.mk.injEq, and_true]
    ring

/-- Bytes from a stream are read as the same bytes in a buffer. -/
theorem readVarNumberStream_eq (begin : Bytes) :
    (readVarNumberStream begin).map (fun r => (r.1.toNat, r.2)) = readVarNumber? begin := by
  have hloop : ∀ count ≤ 8, ∀ rest : Bytes,
      (streamOctets count 0 rest).map (fun r => (r.1.toNat, r.2)) = readOctets count rest := by
    intro count hcount rest
    have hle : 256 ^ count ≤ 256 ^ 8 := Nat.pow_le_pow_right (by omega) hcount
    rw [streamOctets_eq count 0 rest (by simpa using hle)]
    simp
  cases begin with
  | nil => rfl
  | cons firstOctet rest =>
    dsimp only [readVarNumberStream, readVarNumber?]
    by_cases h1 : firstOctet < 253
    · simp [if_pos h1]
    · by_cases h2 : firstOctet = 253
      · rw [if_neg h1, if_neg h1, if_pos h2, if_pos h2, hloop 2 (by omega)]
      · by_cases h3 : firstOctet = 254
        · rw [if_neg h1, if_neg h1, if_neg h2, if_neg h2, if_pos h3, if_pos h3,
            hloop 4 (by omega)]
        · rw [if_neg h1, if_neg h1, if_neg h2, if_neg h2, if_neg h3, if_neg h3,
            hloop 8 (by omega)]

end Tlv
end Ndn
end IcnDemo
