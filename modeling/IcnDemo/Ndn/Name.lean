/-
# Names, their URIs and what satisfies an Interest

`Name(std::string)` with its trimming, scheme and authority, `Name::toUri`,
`Name::isPrefixOf`, and `Interest::matchesData` for an Interest without
selectors. A name of valid components that is put together from their URIs is
parsed as these components (`ofUri_join_valid`), and an Interest is matched exactly
by a Data whose name it is a prefix of or whose full name it is
(`matchesData_iff`).
-/
import IcnDemo.Ndn.Component

namespace IcnDemo
namespace Ndn

open Lib.Codec Lib.Loop

abbrev Name := List Component

namespace Name

/-- `Name::toUri` -/
def toUri (name : Name) : Bytes :=
  if name.isEmpty then [0x2f] else name.flatMap fun c => 0x2f :: c.toUri

/-- Omit the leading protocol, such as `ndn:`, when its colon comes before any
slash. -/
def omitProtocol (lib : TextLib) (uri : Bytes) : Bytes :=
  match uri.idxOf? 0x3a with
  | none => uri
  | some iColon =>
    match uri.idxOf? 0x2f with
    | none => lib.trim (uri.drop (iColon + 1))
    | some iFirstSlash =>
      if iColon < iFirstSlash then lib.trim (uri.drop (iColon + 1)) else uri

/-- Trim the leading slash and possibly the authority; `none` when there was
only an authority. -/
def trimAuthority (lib : TextLib) (uri : Bytes) : Option Bytes :=
  match uri with
  | [] => some []
  | c :: rest =>
    if c ≠ 0x2f then some uri
    else if rest.head? = some 0x2f then
      match (rest.drop 1).idxOf? 0x2f with
      | none => none
      | some i => some (lib.trim ((rest.drop 1).drop (i + 1)))
    else some (lib.trim rest)

/-- Unescape the components of what is left of the URI from `iComponentStart`.
Each turn moves past at least one byte, so `uri.length` turns are enough. -/
def components (lib : TextLib) : ℕ → Bytes → Except Error Name
  | 0, _ => .ok []
  | turns + 1, uri =>
    if uri.isEmpty then .ok []
    else do
      let escaped := uri.takeWhile (· ≠ 0x2f)
      let c ← Component.fromEscapedString lib escaped
      let rest ← components lib turns (uri.drop (escaped.length + 1))
      .ok (c :: rest)

/-- `Name::Name(std::string uri)` -/
def ofUri (lib : TextLib) (uri : Bytes) : Except Error Name :=
  let uri := lib.trim uri
  if uri.isEmpty then .ok []
  else
    match trimAuthority lib (omitProtocol lib uri) with
    | none => .ok []
    | some uri => components lib uri.length uri

/-! ### Parsing -/

theorem components_succ (lib : TextLib) (turns : ℕ) {escaped rest : Bytes} (hne : escaped ≠ [])
    (hslash : (0x2f : UInt8) ∉ escaped) (hrest : rest = [] ∨ ∃ tail, rest = 0x2f :: tail) :
    components lib (turns + 1) (escaped ++ rest) = (do
      let c ← Component.fromEscapedString lib escaped
      let name ← components lib turns rest.tail
      .ok (c :: name)) := by
  have htake := takeWhile_field hslash hrest
  have hdrop : (escaped ++ rest).drop (escaped.length + 1) = rest.tail := by
    rw [List.drop_append, List.drop_of_length_le (Nat.le_succ _), List.nil_append,
      Nat.add_sub_cancel_left, List.drop_one]
  have hempty : (escaped ++ rest).isEmpty = false := by
    cases escaped with
    | nil => exact absurd rfl hne
    | cons _ _ => rfl
  simp only [components, hempty, Bool.false_eq_true, ↓reduceIte, htake, hdrop]

theorem trimAuthority_slash (lib : TextLib) {rest : Bytes} (h : rest.head? ≠ some 0x2f) :
    trimAuthority lib (0x2f :: rest) = some (lib.trim rest) := by
  simp [trimAuthority, h]

theorem not_slash_mem_toUri (c : Component) : (0x2f : UInt8) ∉ c.toUri := fun h =>
  absurd (Component.plain_of_mem_toUri h) (by decide)

theorem not_nul_mem_toUri (c : Component) : (0x00 : UInt8) ∉ c.toUri := fun h =>
  absurd (Component.plain_of_mem_toUri h) (by decide)

/-- What follows a component in a joined URI. -/
theorem flatMap_shape (name : Name) : (name.flatMap fun c => 0x2f :: c.toUri) = [] ∨
    ∃ tail, (name.flatMap fun c => 0x2f :: c.toUri) = 0x2f :: tail := by
  cases name with
  | nil => exact Or.inl rfl
  | cons c name => exact Or.inr ⟨_, rfl⟩

/-- The component loop reads a joined URI as `mapM` reads its components. -/
theorem components_join (lib : TextLib) : ∀ (name : Name) (turns : ℕ),
    (name.flatMap fun c => 0x2f :: c.toUri).tail.length ≤ turns →
    components lib turns (name.flatMap fun c => 0x2f :: c.toUri).tail =
      name.mapM fun c => Component.fromEscapedString lib c.toUri
  | [], 0, _ => rfl
  | [], _ + 1, _ => rfl
  | c :: name, 0, h => by
    have := List.length_pos_of_ne_nil (Component.toUri_ne_nil c)
    simp at h
    exact absurd h.1 (Component.toUri_ne_nil c)
  | c :: name, turns + 1, h => by
    have hlen : (name.flatMap fun c => 0x2f :: c.toUri).tail.length ≤ turns := by
      have := List.length_pos_of_ne_nil (Component.toUri_ne_nil c)
      simp only [List.flatMap_cons, List.cons_append, List.tail_cons, List.length_append] at h
      rw [List.length_tail]
      omega
    simp only [List.flatMap_cons, List.cons_append, List.tail_cons]
    rw [components_succ lib turns (Component.toUri_ne_nil c) (not_slash_mem_toUri c)
      (flatMap_shape name), components_join lib name turns hlen, List.mapM_cons]
    rfl

/-- The bytes of a name's URI are slashes and the characters of a component's. -/
theorem mem_flatMap_toUri {name : Name} {b : UInt8}
    (h : b ∈ name.flatMap fun c => 0x2f :: c.toUri) : b = 0x2f ∨ Component.plain b = true := by
  obtain ⟨c, -, hb⟩ := List.mem_flatMap.mp h
  rcases List.mem_cons.mp hb with rfl | hb
  · exact Or.inl rfl
  · exact Or.inr (Component.plain_of_mem_toUri hb)

theorem not_space_of_mem {name : Name} {b : UInt8}
    (h : b ∈ name.flatMap fun c => 0x2f :: c.toUri) : isSpace b = false := by
  rcases mem_flatMap_toUri h with rfl | h
  · decide
  · exact Component.not_space_of_plain h

/-- **A joined URI is parsed component by component.** -/
theorem ofUri_join (lib : TextLib) (c : Component) (name : Name) :
    ofUri lib ((c :: name).flatMap fun c => 0x2f :: c.toUri) =
      (c :: name).mapM fun c => Component.fromEscapedString lib c.toUri := by
  set uri := (c :: name).flatMap fun c => 0x2f :: c.toUri with huri
  have hcons : uri = 0x2f :: (c.toUri ++ name.flatMap fun c => 0x2f :: c.toUri) := rfl
  have htrim : lib.trim uri = uri :=
    lib.trim_eq_self _ (fun _ hb => not_space_of_mem (List.mem_of_head? hb))
      (fun _ hb => not_space_of_mem (List.mem_of_getLast? hb))
  have hcolon : uri.idxOf? 0x3a = none := by
    rw [List.idxOf?_eq_none_iff]
    intro h
    rcases mem_flatMap_toUri h with h | h <;> exact absurd h (by decide)
  obtain ⟨b, rest, hb⟩ := List.exists_cons_of_ne_nil (Component.toUri_ne_nil c)
  have hnot : b ≠ 0x2f := by
    rintro rfl
    exact not_slash_mem_toUri c (by rw [hb]; exact List.mem_cons_self)
  have htail : lib.trim uri.tail = uri.tail := by
    refine lib.trim_eq_self _ (fun d hd => ?_) (fun d hd => ?_)
    · exact not_space_of_mem (List.mem_of_mem_tail (List.mem_of_head? hd))
    · exact not_space_of_mem (List.mem_of_mem_tail (List.mem_of_getLast? hd))
  have hauth : trimAuthority lib uri = some uri.tail := by
    rw [← htail, hcons]
    apply trimAuthority_slash lib
    rw [hb]
    simpa using hnot
  have hempty : uri.isEmpty = false := by rw [hcons]; rfl
  unfold ofUri omitProtocol
  simp only [htrim, hempty, Bool.false_eq_true, ↓reduceIte, hcolon, hauth]
  exact components_join lib (c :: name) _ (Nat.le_of_eq (by rw [huri]))

/-- **Valid components are read back from their joined URI.** -/
theorem ofUri_join_valid (lib : TextLib) (c : Component) (name : Name)
    (h : ∀ d ∈ c :: name, d.Valid) :
    ofUri lib ((c :: name).flatMap fun c => 0x2f :: c.toUri) = .ok (c :: name) := by
  rw [ofUri_join, mapM_ok fun d hd => Component.fromEscapedString_toUri lib (h d hd), List.map_id']

/-- What is read back is the components, valid or not. -/
theorem ofUri_join_ok (lib : TextLib) (c : Component) (name : Name) {name' : Name}
    (h : ofUri lib ((c :: name).flatMap fun c => 0x2f :: c.toUri) = .ok name') :
    name' = c :: name := by
  rw [ofUri_join] at h
  generalize c :: name = l at h
  induction l generalizing name' with
  | nil => cases h; rfl
  | cons d l ih =>
    rw [List.mapM_cons] at h
    obtain ⟨d', hd, h⟩ := bind_eq_ok h
    obtain ⟨l', hl, h⟩ := bind_eq_ok h
    rw [pure_eq_ok, Except.ok.injEq] at h
    rw [← h, Component.fromEscapedString_toUri_ok lib hd, ih hl]

/-- **The URI of a name determines it.** -/
theorem join_injective {name name' : Name}
    (h : (name.flatMap fun c => (0x2f : UInt8) :: c.toUri) =
      name'.flatMap fun c => 0x2f :: c.toUri) : name = name' := by
  have hmap : ∀ n : Name, (n.flatMap fun c => (0x2f : UInt8) :: c.toUri) =
      (n.map Component.toUri).flatMap fun f => 0x2f :: f := fun n => by rw [List.flatMap_map]
  have hno : ∀ n : Name, ∀ f ∈ n.map Component.toUri, (0x2f : UInt8) ∉ f := by
    intro n f hf
    obtain ⟨c, -, rfl⟩ := List.mem_map.mp hf
    exact not_slash_mem_toUri c
  rw [hmap, hmap] at h
  exact (List.map_injective_iff.mpr fun _ _ => Component.toUri_injective)
    (fields_injective (hno name) (hno name') h)

end Name

/-! ### Interests and Data -/

structure Data where
  name : Name
  content : Bytes
  /-- The SHA-256 of the packet. -/
  digest : Bytes
  digest_length : digest.length = Component.sha256DigestSize

/-- `Data::getFullName` -/
def Data.fullName (data : Data) : Name :=
  data.name ++ [⟨.implicitSha256DigestComponent, data.digest⟩]

/-- `Interest::matchesData`, for an Interest without selectors. -/
def matchesData (interest : Name) (data : Data) : Bool :=
  if interest.length > data.name.length + 1 then false
  else if interest.length = data.name.length + 1 then
    match interest.getLast? with
    | some last => last.isImplicitSha256Digest && interest == data.fullName
    | none => false
  else interest.isPrefixOf data.name

/-- **What satisfies an Interest**: a Data it names a prefix of, or in full. -/
theorem matchesData_iff (interest : Name) (data : Data) :
    matchesData interest data = true ↔
      interest <+: data.name ∨ interest = data.fullName := by
  have hfull : data.fullName.length = data.name.length + 1 := by simp [Data.fullName]
  unfold matchesData
  by_cases hgt : interest.length > data.name.length + 1
  · rw [if_pos hgt]
    constructor
    · intro h; cases h
    · rintro (h | rfl)
      · have := h.length_le; omega
      · omega
  rw [if_neg hgt]
  by_cases heq : interest.length = data.name.length + 1
  · rw [if_pos heq]
    constructor
    · intro h
      right
      split at h
      · rw [Bool.and_eq_true, beq_iff_eq] at h; exact h.2
      · cases h
    · rintro (h | rfl)
      · have := h.length_le; omega
      · have hlast : data.fullName.getLast? =
            some ⟨.implicitSha256DigestComponent, data.digest⟩ := by simp [Data.fullName]
        simp [hlast, Component.isImplicitSha256Digest, data.digest_length]
  · rw [if_neg heq, List.isPrefixOf_iff_prefix]
    constructor
    · exact Or.inl
    · rintro (h | rfl)
      · exact h
      · exact absurd hfull heq

end Ndn
end IcnDemo
