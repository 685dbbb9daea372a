/-
# Name components and their URIs

`name::Component` of ndn-cxx with `toUri` and `fromEscapedString`, and the
string helpers they use. Boost's `trim` and Crypto++'s `HexDecoder` are not in
the repository: `TextLib` takes them as functions with the documented facts the
code relies on.

The URI of a component determines it (`toUri_injective`), holds only characters
that are safe in a path and in a URI (`plain_of_mem_toUri`), and is read back as the
component whenever it is read back at all (`fromEscapedString_toUri_ok`), which
it is for a generic component and for a digest of 32 bytes
(`fromEscapedString_toUri`).
-/
import IcnDemo.Lib.Codec
import IcnDemo.Lib.Loop
import Mathlib.Data.Int.Notation
import Mathlib.Order.Basic

namespace IcnDemo
namespace Ndn

open Lib.Codec Lib.Loop

/-- A `std::string` or a buffer. -/
abbrev Bytes := List UInt8

/-- The text of an exception. -/
abbrev Error := String

/-- An ASCII text. -/
def ascii (s : String) : Bytes := s.toList.map fun c => UInt8.ofNat c.toNat

/-- `std::isspace` in the classic locale. -/
def isSpace (b : UInt8) : Bool := b = 0x20 || (0x09 ≤ b && b ≤ 0x0d)

/-- What ndn-cxx takes from Boost and Crypto++. -/
structure TextLib where
  /-- `boost::algorithm::trim` -/
  trim : Bytes → Bytes
  /-- `CryptoPP::HexDecoder` -/
  hexDecode : Bytes → Bytes
  /-- A text that neither starts nor ends with a space has none to trim. -/
  trim_eq_self : ∀ s : Bytes, (∀ b, s.head? = some b → isSpace b = false) →
    (∀ b, s.getLast? = some b → isSpace b = false) → trim s = s
  /-- The decoder reads the digits of each byte. -/
  hexDecode_hexByte : ∀ bs : Bytes, hexDecode (bs.flatMap (hexByte false)) = bs

/-! ### String helpers -/

/-- `fromHexChar`: -1 for what is no digit. -/
def fromHexChar (c : UInt8) : ℤ :=
  if 0x30 ≤ c ∧ c ≤ 0x39 then (c.toNat : ℤ) - 0x30
  else if 0x41 ≤ c ∧ c ≤ 0x46 then (c.toNat : ℤ) - 0x41 + 0xA
  else if 0x61 ≤ c ∧ c ≤ 0x66 then (c.toNat : ℤ) - 0x61 + 0xA
  else -1

/-- `unescape`: `%XX` becomes its byte, all else is copied through. -/
def unescape : Bytes → Bytes
  | c :: h :: l :: rest =>
    if c = 0x25 then
      let hi := fromHexChar h
      let lo := fromHexChar l
      if hi < 0 ∨ lo < 0 then c :: h :: l :: unescape rest
      else UInt8.ofNat (hi.toNat <<< 4 ||| lo.toNat) :: unescape rest
    else c :: unescape (h :: l :: rest)
  | c :: rest => c :: unescape rest
  | [] => []

/-- `fromHex` -/
def fromHex (lib : TextLib) (hexString : Bytes) : Except Error Bytes :=
  if hexString.length % 2 ≠ 0 then
    .error "Invalid number of characters in the supplied hex string"
  else
    let buffer := lib.hexDecode hexString
    if buffer.length * 2 ≠ hexString.length then
      .error "The supplied hex string contains non-hex characters"
    else .ok buffer

/-! ### Components -/

inductive ComponentType
  | nameComponent
  | implicitSha256DigestComponent
deriving DecidableEq, Repr

structure Component where
  type : ComponentType
  value : Bytes
deriving DecidableEq, Repr

namespace Component

def sha256DigestSize : ℕ := 32

/-- `getSha256DigestUriPrefix()` -/
def sha256DigestUriPrefix : Bytes := ascii "sha256digest="

def isGeneric (c : Component) : Bool := c.type = .nameComponent

def isImplicitSha256Digest (c : Component) : Bool :=
  c.type = .implicitSha256DigestComponent ∧ c.value.length = sha256DigestSize

/-- What the constructor from a wire block accepts. -/
def Valid (c : Component) : Prop := c.isGeneric = true ∨ c.isImplicitSha256Digest = true

instance (c : Component) : Decidable c.Valid := inferInstanceAs (Decidable (_ ∨ _))

/-- A generic component with the bytes of a text. -/
def ofString (s : String) : Component := ⟨.nameComponent, ascii s⟩

/-- The bytes `toUri` does not escape: 0-9, A-Z, a-z, (+), (-), (.), (_). -/
def isUnescaped (x : UInt8) : Bool :=
  (0x30 ≤ x && x ≤ 0x39) || (0x41 ≤ x && x ≤ 0x5a) || (0x61 ≤ x && x ≤ 0x7a) ||
    x = 0x2b || x = 0x2d || x = 0x2e || x = 0x5f

/-- `result << static_cast<uint32_t>(x)` in upper case hexadecimal, without
leading zeros. -/
def hexNumber (x : UInt8) : Bytes :=
  if x < 16 then [hexDigit true x.toNat] else hexByte true x

/-- One byte of a component in its URI. -/
def escapeByte (x : UInt8) : Bytes :=
  if isUnescaped x then [x]
  else 0x25 :: ((if x < 16 then [0x30] else []) ++ hexNumber x)

/-- The value holds no byte other than a dot. -/
def gotNoNonDot (value : Bytes) : Bool := value.all (· = 0x2e)

def toUri (c : Component) : Bytes :=
  match c.type with
  | .implicitSha256DigestComponent => sha256DigestUriPrefix ++ c.value.flatMap (hexByte false)
  | .nameComponent =>
    if gotNoNonDot c.value then ascii "..." ++ c.value.map fun _ => 0x2e
    else c.value.flatMap escapeByte

def fromImplicitSha256Digest (digest : Bytes) : Except Error Component :=
  if digest.length ≠ sha256DigestSize then
    .error "Cannot create ImplicitSha256DigestComponent (input digest must be 32 octets)"
  else .ok ⟨.implicitSha256DigestComponent, digest⟩

/-- `Component::fromEscapedString`, from the substring between the offsets. -/
def fromEscapedString (lib : TextLib) (escapedString : Bytes) : Except Error Component :=
  let trimmedString := lib.trim escapedString
  if sha256DigestUriPrefix.isPrefixOf trimmedString then
    if trimmedString.length ≠ sha256DigestUriPrefix.length + sha256DigestSize * 2 then
      .error "Cannot convert to ImplicitSha256DigestComponent(expected sha256 in hex encoding)"
    else
      match fromHex lib (trimmedString.drop sha256DigestUriPrefix.length) with
      | .ok digest => fromImplicitSha256Digest digest
      | .error _ =>
        .error "Cannot convert to a ImplicitSha256DigestComponent (invalid hex encoding)"
  else
    let value := unescape trimmedString
    if gotNoNonDot value then
      if value.length ≤ 2 then .error "Illegal URI (name component cannot be . or ..)"
      else .ok ⟨.nameComponent, value.drop 3⟩
    else .ok ⟨.nameComponent, value⟩

/-! ### The characters of a URI -/

/-- A character that can stand in a component's URI. -/
def plain (b : UInt8) : Bool := isUnescaped b || b = 0x25 || b = 0x3d

theorem escapeByte_eq (x : UInt8) :
    escapeByte x = if isUnescaped x then [x] else 0x25 :: hexByte true x := by
  unfold escapeByte hexNumber
  by_cases h : x < 16
  · have hlt : x.toNat < 16 := UInt8.lt_iff_toNat_lt.mp h
    simp only [h, ↓reduceIte, hexByte, Nat.div_eq_of_lt hlt, Nat.mod_eq_of_lt hlt]
    rfl
  · simp [h]

theorem plain_hexDigit : ∀ (upper : Bool), ∀ n < 16, plain (hexDigit upper n) = true := by
  decide

theorem plain_of_mem_escapeByte {x b : UInt8} (h : b ∈ escapeByte x) : plain b = true ∧ b ≠ 0x3d := by
  have hdigit : ∀ n < 16, plain (hexDigit true n) = true ∧ hexDigit true n ≠ 0x3d := by decide
  rw [escapeByte_eq] at h
  split at h
  · rename_i hx
    obtain rfl : b = x := by simpa using h
    refine ⟨by simp [plain, hx], ?_⟩
    rintro rfl
    exact absurd hx (by decide)
  · rcases List.mem_cons.mp h with rfl | h
    · decide
    · exact forall_mem_hexByte (fun b => plain b = true ∧ b ≠ 0x3d) hdigit x b h

theorem plain_of_mem_prefix : ∀ b ∈ sha256DigestUriPrefix, plain b = true :=
  List.all_eq_true.mp (by decide)

theorem plain_of_mem_toUri {c : Component} {b : UInt8} (h : b ∈ c.toUri) : plain b = true := by
  unfold toUri at h
  split at h
  · rcases List.mem_append.mp h with h | h
    · exact plain_of_mem_prefix b h
    · obtain ⟨x, -, hx⟩ := List.mem_flatMap.mp h
      exact forall_mem_hexByte (plain · = true) (plain_hexDigit false) x b hx
  · split at h
    · rcases List.mem_append.mp h with h | h
      · have hdots : ∀ b ∈ ascii "...", plain b = true := List.all_eq_true.mp (by decide)
        exact hdots b h
      · obtain ⟨-, -, rfl⟩ := List.mem_map.mp h
        decide
    · obtain ⟨x, -, hx⟩ := List.mem_flatMap.mp h
      exact (plain_of_mem_escapeByte hx).1

/-- Only the URI of a digest holds a `=`. -/
theorem mem_toUri_eq_iff (c : Component) :
    (0x3d : UInt8) ∈ c.toUri ↔ c.type = .implicitSha256DigestComponent := by
  unfold toUri
  cases hc : c.type with
  | implicitSha256DigestComponent =>
    simp only [List.mem_append, iff_true]
    left; decide
  | nameComponent =>
    simp only [reduceCtorEq, iff_false]
    split
    · intro h
      rcases List.mem_append.mp h with h | h
      · revert h; decide
      · obtain ⟨-, -, h⟩ := List.mem_map.mp h
        exact absurd h (by decide)
    · intro h
      obtain ⟨x, -, hx⟩ := List.mem_flatMap.mp h
      exact (plain_of_mem_escapeByte hx).2 rfl

theorem not_space_of_plain {b : UInt8} (h : plain b = true) : isSpace b = false := by
  by_contra hs
  simp only [isSpace, Bool.not_eq_false, Bool.or_eq_true, Bool.and_eq_true, decide_eq_true_eq,
    UInt8.le_iff_toNat_le] at hs
  simp only [plain, isUnescaped, Bool.or_eq_true, Bool.and_eq_true, decide_eq_true_eq,
    UInt8.le_iff_toNat_le, ← UInt8.toNat_inj] at h hs
  simp at h hs
  omega

/-! ### Reading a URI back -/

theorem shift_or_eq : ∀ a < 16, ∀ b < 16, a <<< 4 ||| b = 16 * a + b := by decide

theorem fromHexChar_hexDigit : ∀ (upper : Bool), ∀ n < 16, fromHexChar (hexDigit upper n) = n := by
  decide

/-- The byte that the two digits of `b` spell. -/
theorem byte_of_digits (upper : Bool) (b : UInt8) :
    0 ≤ fromHexChar (hexDigit upper (b.toNat / 16)) ∧
    0 ≤ fromHexChar (hexDigit upper (b.toNat % 16)) ∧
    UInt8.ofNat ((fromHexChar (hexDigit upper (b.toNat / 16))).toNat <<< 4 |||
      (fromHexChar (hexDigit upper (b.toNat % 16))).toNat) = b := by
  have hhi := div_sixteen_lt b
  have hlo : b.toNat % 16 < 16 := Nat.mod_lt _ (by decide)
  rw [fromHexChar_hexDigit upper _ hhi, fromHexChar_hexDigit upper _ hlo, Int.toNat_natCast,
    Int.toNat_natCast, shift_or_eq _ hhi _ hlo, ofNat_div_mod]
  exact ⟨Int.natCast_nonneg _, Int.natCast_nonneg _, rfl⟩

theorem unescape_cons {c : UInt8} (h : c ≠ 0x25) (rest : Bytes) :
    unescape (c :: rest) = c :: unescape rest := by
  match rest with
  | [] => rfl
  | [_] => rfl
  | _ :: _ :: _ => rw [unescape, if_neg h]

theorem unescape_eq_self : ∀ {s : Bytes}, (0x25 : UInt8) ∉ s → unescape s = s
  | [], _ => rfl
  | c :: s, h => by
    rw [List.mem_cons, not_or] at h
    rw [unescape_cons (Ne.symm h.1), unescape_eq_self h.2]

theorem unescape_escapeByte (x : UInt8) (rest : Bytes) :
    unescape (escapeByte x ++ rest) = x :: unescape rest := by
  rw [escapeByte_eq]
  split
  · rename_i hx
    refine unescape_cons ?_ rest
    rintro rfl
    exact absurd hx (by decide)
  · obtain ⟨hhi, hlo, hbyte⟩ := byte_of_digits true x
    simp only [hexByte, List.cons_append, List.nil_append]
    rw [unescape, if_pos rfl]
    simp only [hbyte]
    rw [if_neg (by omega)]

theorem unescape_flatMap (value : Bytes) : unescape (value.flatMap escapeByte) = value :=
  decode_flatMap rfl value fun b _ rest => unescape_escapeByte b rest

theorem eq_replicate_of_gotNoNonDot {value : Bytes} (h : gotNoNonDot value = true) :
    value = List.replicate value.length 0x2e := by
  apply List.eq_replicate_of_mem
  intro b hb
  simpa using List.all_eq_true.mp h b hb

/-- The value of a generic component, from its URI. -/
def valueOfUri (uri : Bytes) : Bytes :=
  if gotNoNonDot (unescape uri) then (unescape uri).drop 3 else unescape uri

theorem unescape_toUri_dots {value : Bytes} (h : gotNoNonDot value = true) :
    unescape (toUri ⟨.nameComponent, value⟩) = List.replicate (value.length + 3) 0x2e := by
  have huri : toUri ⟨.nameComponent, value⟩ = List.replicate (value.length + 3) 0x2e := by
    simp only [toUri, h, ↓reduceIte, List.map_const']
    rw [show ascii "..." = List.replicate 3 0x2e by decide, ← List.replicate_add, Nat.add_comm]
  rw [huri]
  apply unescape_eq_self
  intro hmem
  exact absurd (List.eq_of_mem_replicate hmem) (by decide)

theorem unescape_toUri_escaped {value : Bytes} (h : gotNoNonDot value = false) :
    unescape (toUri ⟨.nameComponent, value⟩) = value := by
  simp only [toUri, h, Bool.false_eq_true, ↓reduceIte]
  exact unescape_flatMap value

theorem gotNoNonDot_replicate (n : ℕ) : gotNoNonDot (List.replicate n 0x2e) = true := by
  simp [gotNoNonDot]

theorem valueOfUri_toUri (value : Bytes) : valueOfUri (toUri ⟨.nameComponent, value⟩) = value := by
  unfold valueOfUri
  cases h : gotNoNonDot value with
  | true =>
    rw [unescape_toUri_dots h, if_pos (gotNoNonDot_replicate _), List.drop_replicate]
    exact (eq_replicate_of_gotNoNonDot h).symm
  | false => rw [unescape_toUri_escaped h, h, if_neg (by decide)]

/-- The bytes that the digits of a text spell, two by two. -/
def hexPairs : Bytes → Bytes
  | h :: l :: rest =>
    UInt8.ofNat ((fromHexChar h).toNat <<< 4 ||| (fromHexChar l).toNat) :: hexPairs rest
  | _ => []

theorem hexPairs_hexByte (bs : Bytes) : hexPairs (bs.flatMap (hexByte false)) = bs := by
  refine decode_flatMap rfl bs fun b _ rest => ?_
  simp only [hexByte, List.cons_append, List.nil_append, hexPairs, (byte_of_digits false b).2.2]

/-- **The URI of a component determines it.** -/
theorem toUri_injective {c c' : Component} (h : c.toUri = c'.toUri) : c = c' := by
  have htype : c.type = .implicitSha256DigestComponent ↔
      c'.type = .implicitSha256DigestComponent := by
    rw [← mem_toUri_eq_iff, ← mem_toUri_eq_iff, h]
  obtain ⟨t, v⟩ := c
  obtain ⟨t', v'⟩ := c'
  cases t <;> cases t' <;> simp at htype
  · -- two generic components
    have := congrArg valueOfUri h
    rw [valueOfUri_toUri, valueOfUri_toUri] at this
    rw [this]
  · -- two digests
    have hv := List.append_cancel_left h
    have := congrArg hexPairs hv
    rw [hexPairs_hexByte, hexPairs_hexByte] at this
    exact congrArg _ this

theorem toUri_ne_nil (c : Component) : c.toUri ≠ [] := by
  intro h
  obtain ⟨t, v⟩ := c
  cases t with
  | implicitSha256DigestComponent =>
    exact absurd (congrArg List.length h) (by simp [toUri, sha256DigestUriPrefix, ascii])
  | nameComponent =>
    have hv := valueOfUri_toUri v
    rw [h] at hv
    obtain rfl : v = [] := hv.symm
    exact absurd h (by decide)

theorem trim_toUri (lib : TextLib) (c : Component) : lib.trim c.toUri = c.toUri :=
  lib.trim_eq_self _
    (fun _ hb => not_space_of_plain (plain_of_mem_toUri (List.mem_of_head? hb)))
    (fun _ hb => not_space_of_plain (plain_of_mem_toUri (List.mem_of_getLast? hb)))

theorem fromHex_hexByte (lib : TextLib) (bs : Bytes) :
    fromHex lib (bs.flatMap (hexByte false)) = .ok bs := by
  have hlen : (bs.flatMap (hexByte false)).length = 2 * bs.length := by
    simp [List.length_flatMap, hexByte, Nat.mul_comm]
  unfold fromHex
  rw [lib.hexDecode_hexByte, hlen, if_neg (by omega), if_neg (by omega)]

/-- A generic component is read back from its URI. -/
theorem fromEscapedString_toUri_generic (lib : TextLib) (value : Bytes) :
    fromEscapedString lib (toUri ⟨.nameComponent, value⟩) = .ok ⟨.nameComponent, value⟩ := by
  have hprefix : sha256DigestUriPrefix.isPrefixOf (toUri ⟨.nameComponent, value⟩) ≠ true := by
    intro h
    have hmem := (List.isPrefixOf_iff_prefix.mp h).subset (show (0x3d : UInt8) ∈ _ by decide)
    rw [mem_toUri_eq_iff] at hmem
    cases hmem
  simp only [fromEscapedString, trim_toUri]
  rw [if_neg hprefix]
  cases h : gotNoNonDot value with
  | true =>
    rw [unescape_toUri_dots h, if_pos (gotNoNonDot_replicate _),
      if_neg (by rw [List.length_replicate]; omega), List.drop_replicate, Nat.add_sub_cancel,
      ← eq_replicate_of_gotNoNonDot h]
  | false => rw [unescape_toUri_escaped h, h, if_neg (by decide)]

/-- A digest is read back from its URI if it has 32 bytes, else refused. -/
theorem fromEscapedString_toUri_digest (lib : TextLib) (value : Bytes) :
    fromEscapedString lib (toUri ⟨.implicitSha256DigestComponent, value⟩) =
      if value.length = sha256DigestSize then .ok ⟨.implicitSha256DigestComponent, value⟩
      else .error "Cannot convert to ImplicitSha256DigestComponent(expected sha256 in hex encoding)" := by
  have huri : toUri ⟨.implicitSha256DigestComponent, value⟩ =
      sha256DigestUriPrefix ++ value.flatMap (hexByte false) := rfl
  have hlen : (sha256DigestUriPrefix ++ value.flatMap (hexByte false)).length =
      sha256DigestUriPrefix.length + 2 * value.length := by
    simp [List.length_flatMap, hexByte, Nat.mul_comm]
  simp only [fromEscapedString, trim_toUri]
  rw [huri, if_pos (List.isPrefixOf_iff_prefix.mpr (List.prefix_append _ _)), hlen,
    List.drop_left, fromHex_hexByte]
  by_cases hv : value.length = sha256DigestSize
  · rw [if_neg (by omega), if_pos hv]
    simp only [fromImplicitSha256Digest, hv, ne_eq, not_true_eq_false, ↓reduceIte]
  · rw [if_pos (by omega), if_neg hv]

/-- **A component is read back from its URI.** -/
theorem fromEscapedString_toUri (lib : TextLib) {c : Component} (h : c.Valid) :
    fromEscapedString lib c.toUri = .ok c := by
  obtain ⟨t, v⟩ := c
  cases t with
  | nameComponent => exact fromEscapedString_toUri_generic lib v
  | implicitSha256DigestComponent =>
    rw [fromEscapedString_toUri_digest, if_pos]
    simpa [Valid, isGeneric, isImplicitSha256Digest] using h

/-- What is read back from a URI is the component it is of. -/
theorem fromEscapedString_toUri_ok (lib : TextLib) {c c' : Component}
    (h : fromEscapedString lib c.toUri = .ok c') : c' = c := by
  obtain ⟨t, v⟩ := c
  cases t with
  | nameComponent =>
    rw [fromEscapedString_toUri_generic, Except.ok.injEq] at h
    exact h.symm
  | implicitSha256DigestComponent =>
    rw [fromEscapedString_toUri_digest] at h
    split at h
    · rw [Except.ok.injEq] at h; exact h.symm
    · cases h

/-- **Only valid components are.** -/
theorem valid_of_fromEscapedString_toUri (lib : TextLib) {c c' : Component}
    (h : fromEscapedString lib c.toUri = .ok c') : c.Valid := by
  obtain ⟨t, v⟩ := c
  cases t with
  | nameComponent => exact Or.inl rfl
  | implicitSha256DigestComponent =>
    rw [fromEscapedString_toUri_digest] at h
    split at h
    · rename_i hv
      exact Or.inr (by simpa [isImplicitSha256Digest] using hv)
    · cases h

end Component

/-! ### A text library -/

/-- Trims both ends and reads digits two by two. -/
def TextLib.reference : TextLib where
  trim s := ((s.dropWhile isSpace).reverse.dropWhile isSpace).reverse
  hexDecode := Component.hexPairs
  trim_eq_self s hhead hlast := by
    have hdrop : ∀ s : Bytes, (∀ b, s.head? = some b → isSpace b = false) →
        s.dropWhile isSpace = s := by
      intro s h
      cases s with
      | nil => rfl
      | cons b s => rw [List.dropWhile_cons_of_neg (by rw [h b rfl]; decide)]
    rw [hdrop s hhead, hdrop s.reverse fun b hb => hlast b (by rwa [List.head?_reverse] at hb),
      List.reverse_reverse]
  hexDecode_hexByte := Component.hexPairs_hexByte

end Ndn
end IcnDemo
