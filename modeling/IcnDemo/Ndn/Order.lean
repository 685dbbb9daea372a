/-
# The canonical order

`Component::compare`, with its shortcut for components that have wires, and
`Name::compare`. The canonical order of components is that of their keys: the
type, the length, and the octets as a number. Both paths of `Component::compare`
compare in it where the wires are what this library encodes
(`Stored.compare_compares`). A wire with longer codes of its type and length is
accepted too and is then ordered by these codes: equal components compare as
equal exactly if their wires are (`Stored.compare_eq_iff`).

`Name::compare` of two ranges of components compares these ranges as the names
they are, for starts within the names (`compareNames_compares`).
-/
import IcnDemo.Cxx
import IcnDemo.Lib.LexOrder
import IcnDemo.Ndn.Number

namespace IcnDemo
namespace Ndn

open Lib.BigEndian Lib.PrefixCode Lib.LexOrder Lib.Loop Tlv

/-! ### Components -/

/-- A component as a name holds it: with its wire, if it has one. -/
structure Stored where
  component : Component
  wire : Option Bytes
deriving DecidableEq, Repr

/-- The sign of an `int`. -/
def sign (i : ℤ) : Ordering := compare i 0

namespace Component

/-- The key of the canonical order. -/
def key (c : Component) : ℕ ×ₗ ℕ ×ₗ ℕ :=
  toLex (c.type.code, toLex (c.value.length, beNat c.value))

/-- `Component::compare` of types, sizes and octets. -/
def compareValue (c other : Component) : Ordering :=
  let cmpType := toInt (c.type.code - other.type.code)
  if cmpType ≠ 0 then sign cmpType
  else
    let cmpSize := toInt (c.value.length - other.value.length)
    if cmpSize ≠ 0 then sign cmpSize
    else if c.value = [] then .eq
    else memcmp c.value other.value

/-- `Component::equals` -/
def equals (c other : Component) : Bool :=
  c.type = other.type ∧ c.value.length = other.value.length ∧ c.value = other.value

end Component

namespace Stored

/-- `Component::compare` -/
def compare (this other : Stored) : Ordering :=
  match this.wire, other.wire with
  | some wire, some otherWire => memcmp wire otherWire
  | _, _ => this.component.compareValue other.component

/-- The wire, if there is one, is what `wireEncode` makes. -/
def Encoded (s : Stored) : Prop := ∀ w, s.wire = some w → w = s.component.wire

/-- The wire, if there is one, is an element with the type and the value. -/
def Decoded (s : Stored) : Prop :=
  ∀ w, s.wire = some w → Block.WellFormed ⟨s.component.type.code, w, s.component.value⟩

end Stored

theorem Component.key_injective {c d : Component} (h : c.key = d.key) : c = d := by
  obtain ⟨type, value⟩ := c
  obtain ⟨type', value'⟩ := d
  have hpair : (type.code, toLex (value.length, beNat value)) =
      (type'.code, toLex (value'.length, beNat value')) := h
  obtain ⟨htype, hrest⟩ := Prod.mk.inj hpair
  have hpair' : (value.length, beNat value) = (value'.length, beNat value') := hrest
  obtain ⟨hlen, hnat⟩ := Prod.mk.inj hpair'
  rw [ComponentType.code_inj htype, beNat_inj hlen hnat]

/-- The canonical order of components. -/
instance : LinearOrder Component where
  le c d := c.key ≤ d.key
  lt c d := c.key < d.key
  le_refl c := le_refl c.key
  le_trans _ _ _ h h' := le_trans h h'
  lt_iff_le_not_ge _ _ := lt_iff_le_not_ge
  le_antisymm _ _ h h' := Component.key_injective (le_antisymm h h')
  le_total c d := le_total c.key d.key
  toDecidableLE c d := inferInstanceAs (Decidable (c.key ≤ d.key))
  toDecidableLT c d := inferInstanceAs (Decidable (c.key < d.key))
  toDecidableEq := inferInstance

theorem Component.lt_iff {c d : Component} : c < d ↔ c.type.code < d.type.code ∨
    (c.type = d.type ∧ (c.value.length < d.value.length ∨
      (c.value.length = d.value.length ∧ beNat c.value < beNat d.value))) := by
  change c.key < d.key ↔ _
  unfold key
  rw [Prod.Lex.toLex_lt_toLex, Prod.Lex.toLex_lt_toLex]
  constructor
  · rintro (h | ⟨h, h'⟩)
    · exact .inl h
    · exact .inr ⟨ComponentType.code_inj h, h'⟩
  · rintro (h | ⟨h, h'⟩)
    · exact .inl h
    · exact .inr ⟨congrArg ComponentType.code h, h'⟩

theorem sign_toInt_sub {m n : ℕ} (hm : m < 2 ^ 31) (hn : n < 2 ^ 31) :
    toInt ((m : ℤ) - n) = (m : ℤ) - n ∧ sign ((m : ℤ) - n) = Ord.compare m n := by
  refine ⟨toInt_of_mem (by omega) (by omega), ?_⟩
  unfold sign
  rcases lt_trichotomy m n with h | rfl | h
  · rw [compare_lt_iff_lt.mpr h]
    exact compare_lt_iff_lt.mpr (by omega)
  · simp
  · rw [compare_gt_iff_gt.mpr h]
    exact compare_gt_iff_gt.mpr (by omega)

theorem compares_compare (m n : ℕ) : (compare m n).Compares m n := by
  rcases lt_trichotomy m n with h | rfl | h
  · rw [compare_lt_iff_lt.mpr h]
    exact h
  · rw [compare_eq_iff_eq.mpr rfl]
    rfl
  · rw [compare_gt_iff_gt.mpr h]
    exact h

theorem compare_key (c d : Component) : ((compare c.type.code d.type.code).then
    ((compare c.value.length d.value.length).then (memcmp c.value d.value))).Compares c d := by
  have hkey : ((compare c.type.code d.type.code).then
      ((compare c.value.length d.value.length).then (memcmp c.value d.value))).Compares
        c.key d.key := by
    refine compares_toLex (compares_compare _ _) fun _ => ?_
    refine compares_toLex (compares_compare _ _) fun hlen => ?_
    rw [memcmp_eq_compare (compare_eq_iff_eq.mp hlen)]
    exact compares_compare _ _
  generalize (compare c.type.code d.type.code).then
    ((compare c.value.length d.value.length).then (memcmp c.value d.value)) = o at hkey ⊢
  cases o with
  | lt => exact hkey
  | eq => exact Component.key_injective hkey
  | gt => exact hkey

/-- Types, sizes and octets are compared in the canonical order. -/
theorem Component.compareValue_compares {c d : Component} (hc : c.value.length < 2 ^ 31)
    (hd : d.value.length < 2 ^ 31) : (c.compareValue d).Compares c d := by
  have hcode : ∀ t : ComponentType, t.code < 2 ^ 31 := by
    intro t
    cases t <;> simp [ComponentType.code]
  obtain ⟨htype, hsignT⟩ := sign_toInt_sub (hcode c.type) (hcode d.type)
  obtain ⟨hsize, hsignS⟩ := sign_toInt_sub hc hd
  have h := compare_key c d
  have heq : c.compareValue d = (compare c.type.code d.type.code).then
      ((compare c.value.length d.value.length).then (memcmp c.value d.value)) := by
    unfold compareValue
    simp only [htype, hsize, hsignT, hsignS]
    by_cases h1 : c.type.code = d.type.code
    · rw [if_neg (by omega), compare_eq_iff_eq.mpr h1, Ordering.eq_then]
      by_cases h2 : c.value.length = d.value.length
      · rw [if_neg (by omega), compare_eq_iff_eq.mpr h2, Ordering.eq_then]
        by_cases h3 : c.value = []
        · rw [if_pos h3, h3]
          rfl
        · rw [if_neg h3]
      · rw [if_pos (by omega)]
        have hne : compare c.value.length d.value.length ≠ .eq := fun h => h2 (compare_eq_iff_eq.mp h)
        cases hcmp : compare c.value.length d.value.length with
        | eq => exact absurd hcmp hne
        | lt => rfl
        | gt => rfl
    · rw [if_pos (by omega)]
      have hne : compare c.type.code d.type.code ≠ .eq := fun h => h1 (compare_eq_iff_eq.mp h)
      cases hcmp : compare c.type.code d.type.code with
      | eq => exact absurd hcmp hne
      | lt => rfl
      | gt => rfl
  rwa [heq]

/-! ### Wires -/

/-- The first octet of a number and its other octets. -/
theorem writeVarNumber_eq {n : ℕ} (hn : n < 2 ^ 64) :
    ∃ head w, writeVarNumber n = UInt8.ofNat head :: beBytes w n ∧
      ((head = n ∧ w = 0 ∧ n < 253) ∨ (head = 253 ∧ w = 2 ∧ 253 ≤ n ∧ n < 256 ^ 2) ∨
        (head = 254 ∧ w = 4 ∧ 256 ^ 2 ≤ n ∧ n < 256 ^ 4) ∨
        (head = 255 ∧ w = 8 ∧ 256 ^ 4 ≤ n ∧ n < 256 ^ 8)) := by
  unfold writeVarNumber
  by_cases h1 : n < 253
  · rw [if_pos h1]
    exact ⟨n, 0, rfl, .inl ⟨rfl, rfl, h1⟩⟩
  · by_cases h2 : n ≤ 0xFFFF
    · rw [if_neg h1, if_pos h2]
      exact ⟨253, 2, rfl, .inr (.inl ⟨rfl, rfl, by omega, by omega⟩)⟩
    · by_cases h3 : n ≤ 0xFFFFFFFF
      · rw [if_neg h1, if_neg h2, if_pos h3]
        exact ⟨254, 4, rfl, .inr (.inr (.inl ⟨rfl, rfl, by omega, by omega⟩))⟩
      · rw [if_neg h1, if_neg h2, if_neg h3]
        exact ⟨255, 8, rfl, .inr (.inr (.inr ⟨rfl, rfl, by omega, by omega⟩))⟩

theorem memcmp_cons_ofNat {a b : ℕ} (ha : a < 256) (hb : b < 256) (xs ys : Bytes) :
    memcmp (UInt8.ofNat a :: xs) (UInt8.ofNat b :: ys) = (compare a b).then (memcmp xs ys) := by
  rw [memcmp, UInt8.toNat_ofNat_of_lt' ha, UInt8.toNat_ofNat_of_lt' hb]

/-- The written codes of numbers are ordered as the numbers are. -/
theorem memcmp_writeVarNumber {a b : ℕ} (ha : a < 2 ^ 64) (hb : b < 2 ^ 64) (xs ys : Bytes) :
    memcmp (writeVarNumber a ++ xs) (writeVarNumber b ++ ys) =
      (compare a b).then (memcmp xs ys) := by
  obtain ⟨p, w, hwa, hca⟩ := writeVarNumber_eq ha
  obtain ⟨q, v, hwb, hcb⟩ := writeVarNumber_eq hb
  have hp : p < 256 := by omega
  have hq : q < 256 := by omega
  rw [hwa, hwb, List.cons_append, List.cons_append, memcmp_cons_ofNat hp hq]
  rcases lt_trichotomy p q with h | rfl | h
  · have hab : a < b := by omega
    rw [compare_lt_iff_lt.mpr h, compare_lt_iff_lt.mpr hab]
    rfl
  · have hwv : w = v := by omega
    subst hwv
    rw [compare_eq_iff_eq.mpr rfl, Ordering.eq_then, memcmp_append (by simp),
      memcmp_eq_compare (by simp)]
    by_cases hw : w = 0
    · have hab : a = b := by omega
      rw [hab, compare_eq_iff_eq.mpr rfl, compare_eq_iff_eq.mpr rfl]
    · have hfits : a < 256 ^ w ∧ b < 256 ^ w := by
        rcases hca with h | ⟨-, rfl, -, h⟩ | ⟨-, rfl, -, h⟩ | ⟨-, rfl, -, h⟩
        · exact absurd h.2.1 hw
        · exact ⟨h, by omega⟩
        · exact ⟨h, by omega⟩
        · exact ⟨h, by omega⟩
      rw [beNat_beBytes hfits.1, beNat_beBytes hfits.2]
  · have hab : b < a := by omega
    rw [compare_gt_iff_gt.mpr h, compare_gt_iff_gt.mpr hab]
    rfl

theorem memcmp_wire {c d : Component} (hc : c.value.length < 2 ^ 64)
    (hd : d.value.length < 2 ^ 64) : memcmp c.wire d.wire =
      (compare c.type.code d.type.code).then
        ((compare c.value.length d.value.length).then (memcmp c.value d.value)) := by
  have hcode : ∀ t : ComponentType, t.code < 2 ^ 64 := by
    intro t
    cases t <;> simp [ComponentType.code]
  unfold Component.wire element
  rw [List.append_assoc, List.append_assoc, memcmp_writeVarNumber (hcode _) (hcode _),
    memcmp_writeVarNumber hc hd]

/-- **Both paths of `Component::compare` compare in the canonical order**, where the
wires are encoded by `wireEncode`. -/
theorem Stored.compare_compares {s t : Stored} (hs : s.Encoded) (ht : t.Encoded)
    (hsize : s.component.value.length < 2 ^ 31) (htsize : t.component.value.length < 2 ^ 31) :
    (s.compare t).Compares s.component t.component := by
  obtain ⟨c, w⟩ := s
  obtain ⟨d, v⟩ := t
  cases w with
  | none => exact Component.compareValue_compares hsize htsize
  | some w =>
    cases v with
    | none => exact Component.compareValue_compares hsize htsize
    | some v =>
      obtain rfl : w = c.wire := hs w rfl
      obtain rfl : v = d.wire := ht v rfl
      have h := compare_key c d
      have hc : c.value.length < 2 ^ 64 := Nat.lt_trans hsize (by omega)
      have hd : d.value.length < 2 ^ 64 := Nat.lt_trans htsize (by omega)
      rw [← memcmp_wire hc hd] at h
      exact h

/-- Strings that agree up to the end of the shorter are a string and its start. -/
theorem memcmp_eq_eq_iff : ∀ {as bs : Bytes}, memcmp as bs = .eq ↔ as <+: bs ∨ bs <+: as
  | [], bs => by simp [memcmp]
  | _ :: _, [] => by simp [memcmp]
  | a :: as, b :: bs => by
    rw [memcmp, Ordering.then_eq_eq, compare_eq_iff_eq, memcmp_eq_eq_iff, List.cons_prefix_cons,
      List.cons_prefix_cons]
    constructor
    · rintro ⟨h, h'⟩
      have hab := UInt8.toNat_inj.mp h
      exact h'.imp (fun h' => ⟨hab, h'⟩) fun h' => ⟨hab.symm, h'⟩
    · rintro (⟨rfl, h⟩ | ⟨rfl, h⟩)
      · exact ⟨rfl, .inl h⟩
      · exact ⟨rfl, .inr h⟩

theorem Component.equals_iff {c d : Component} : c.equals d = true ↔ c = d := by
  obtain ⟨type, value⟩ := c
  obtain ⟨type', value'⟩ := d
  simp only [equals, decide_eq_true_eq, Component.mk.injEq]
  constructor
  · rintro ⟨rfl, -, rfl⟩
    exact ⟨rfl, rfl⟩
  · rintro ⟨rfl, rfl⟩
    exact ⟨rfl, rfl, rfl⟩

/-- Components that came with wires compare as equal exactly if the wires are the same;
then they are equal, but equal components can have different wires. -/
theorem Stored.compare_eq_iff {c d : Component} {w v : Bytes}
    (hc : Stored.Decoded ⟨c, some w⟩) (hd : Stored.Decoded ⟨d, some v⟩) :
    Stored.compare ⟨c, some w⟩ ⟨d, some v⟩ = .eq ↔ c.equals d = true ∧ w = v := by
  have hw : Reads Block.fromBuffer w ⟨c.type.code, w, c.value⟩ :=
    Block.reads_fromBuffer.mpr ⟨rfl, hc w rfl⟩
  have hv : Reads Block.fromBuffer v ⟨d.type.code, v, d.value⟩ :=
    Block.reads_fromBuffer.mpr ⟨rfl, hd v rfl⟩
  rw [Component.equals_iff]
  change memcmp w v = .eq ↔ _
  rw [memcmp_eq_eq_iff]
  constructor
  · intro h
    have hsame : w = v ∧ (⟨c.type.code, w, c.value⟩ : Block) = ⟨d.type.code, v, d.value⟩ := by
      rcases h with ⟨rest, h⟩ | ⟨rest, h⟩
      · have happ : w ++ rest = v ++ [] := by simpa using h
        obtain ⟨h1, h2, -⟩ := Block.framed_fromBuffer.unique hw hv happ
        exact ⟨h1, h2⟩
      · have happ : v ++ rest = w ++ [] := by simpa using h
        obtain ⟨h1, h2, -⟩ := Block.framed_fromBuffer.unique hv hw happ
        exact ⟨h1.symm, h2.symm⟩
    obtain ⟨htype, -, hvalue⟩ := Block.mk.inj hsame.2
    obtain ⟨type, value⟩ := c
    obtain ⟨type', value'⟩ := d
    have ht : type = type' := ComponentType.code_inj htype
    have hval : value = value' := hvalue
    exact ⟨by rw [ht, hval], hsame.1⟩
  · rintro ⟨-, rfl⟩
    exact .inl (List.prefix_refl w)

/-! ### Names -/

/-- `Name::at`, for an index that is not negative. -/
def nameAt (name : List Stored) (i : ℕ) : Except Error Stored :=
  match name[i]? with
  | some c => .ok c
  | none => .error "Requested component does not exist (out of bounds)"

/-- `size() - pos` on `size_t`s. -/
def sizeSub (size pos : ℕ) : ℕ := (size + 2 ^ 64 - pos) % 2 ^ 64

/-- The loop of `Name::compare` over the common count: what the first components that
differ compare as. -/
def compareLoop (this other : List Stored) (pos1 pos2 : ℕ) : ℕ → ℕ → Except Error Ordering
  | _, 0 => .ok .eq
  | i, left + 1 => do
    let a ← nameAt this (pos1 + i)
    let b ← nameAt other (pos2 + i)
    let comp := a.compare b
    if comp ≠ .eq then .ok comp else compareLoop this other pos1 pos2 (i + 1) left

/-- `Name::compare(pos1, count1, other, pos2, count2)` -/
def compareNames (this : List Stored) (pos1 count1 : ℕ) (other : List Stored)
    (pos2 count2 : ℕ) : Except Error Ordering := do
  let count1 := min count1 (sizeSub this.length pos1)
  let count2 := min count2 (sizeSub other.length pos2)
  let comp ← compareLoop this other pos1 pos2 0 (min count1 count2)
  .ok (if comp ≠ .eq then comp else sign (toInt (count1 - count2)))

/-- `npos` -/
def npos : ℕ := 2 ^ 64 - 1

/-- `Name::compare(other)` -/
def compareName (this other : List Stored) : Except Error Ordering :=
  compareNames this 0 npos other 0 npos

/-- The components of a name. Names are in the lexicographic order of these, a prefix
before the name. -/
def components (name : List Stored) : Name := name.map Stored.component

theorem sizeSub_of_le {size pos : ℕ} (h : pos ≤ size) (hsize : size < 2 ^ 64) :
    sizeSub size pos = size - pos := by
  unfold sizeSub
  omega

theorem lt_append_cons {α : Type} [LinearOrder α] (as : List α) (b : α) (rest : List α) :
    as < as ++ b :: rest := by
  have h : as ++ [] < as ++ b :: rest := List.append_left_lt (List.nil_lt_cons b rest)
  rwa [List.append_nil] at h

/-- Of two names that agree up to the end of the shorter, the shorter comes first. -/
theorem sign_sub_compares (as bs : Name) (has : as.length < 2 ^ 31)
    (hbs : bs.length < 2 ^ 31) (h : as <+: bs ∨ bs <+: as) :
    (sign (toInt (as.length - bs.length))).Compares as bs := by
  obtain ⟨hint, hsign⟩ := sign_toInt_sub has hbs
  rw [hint, hsign]
  rcases h with ⟨rest, rfl⟩ | ⟨rest, rfl⟩
  · cases rest with
    | nil => simp [Ordering.Compares]
    | cons b rest =>
      rw [compare_lt_iff_lt.mpr (by simp)]
      exact lt_append_cons as b rest
  · cases rest with
    | nil => simp [Ordering.Compares]
    | cons b rest =>
      rw [compare_gt_iff_gt.mpr (by simp)]
      exact lt_append_cons bs b rest

theorem nameAt_of_drop {name : List Stored} {i : ℕ} {c : Stored} {rest : List Stored}
    (h : name.drop i = c :: rest) : nameAt name i = .ok c ∧ name.drop (i + 1) = rest := by
  have hget : name[i]? = some c := by
    have := congrArg List.head? h
    rwa [List.head?_drop, List.head?_cons] at this
  refine ⟨by rw [nameAt, hget], ?_⟩
  rw [← List.tail_drop, h, List.tail_cons]

/-- What holds of the components of a name for it to be in the canonical order. -/
def Ordered (name : List Stored) : Prop :=
  ∀ c ∈ name, c.Encoded ∧ c.component.value.length < 2 ^ 31

/-- The loop finds the first components that differ, which order any ranges that go on
beyond them. -/
theorem compareLoop_spec {this other : List Stored} (pos1 pos2 : ℕ) (hthis : Ordered this)
    (hother : Ordered other) : ∀ (left i : ℕ), left ≤ (this.drop (pos1 + i)).length →
    left ≤ (other.drop (pos2 + i)).length →
    ∃ o, compareLoop this other pos1 pos2 i left = .ok o ∧
      (o ≠ .eq → ∀ n m, left ≤ n → left ≤ m →
        o.Compares (components ((this.drop (pos1 + i)).take n))
          (components ((other.drop (pos2 + i)).take m))) ∧
      (o = .eq → components ((this.drop (pos1 + i)).take left) =
        components ((other.drop (pos2 + i)).take left))
  | 0, i, _, _ => ⟨.eq, rfl, fun h => absurd rfl h, fun _ => by simp [components]⟩
  | left + 1, i, h1, h2 => by
    obtain ⟨a, as, has⟩ : ∃ a as, this.drop (pos1 + i) = a :: as := by
      cases h : this.drop (pos1 + i) with
      | nil => rw [h] at h1; simp at h1
      | cons a as => exact ⟨a, as, rfl⟩
    obtain ⟨b, bs, hbs⟩ : ∃ b bs, other.drop (pos2 + i) = b :: bs := by
      cases h : other.drop (pos2 + i) with
      | nil => rw [h] at h2; simp at h2
      | cons b bs => exact ⟨b, bs, rfl⟩
    obtain ⟨hat, hdrop⟩ := nameAt_of_drop has
    obtain ⟨hat', hdrop'⟩ := nameAt_of_drop hbs
    have ha := hthis a (List.mem_of_mem_drop (has ▸ List.mem_cons_self))
    have hb := hother b (List.mem_of_mem_drop (hbs ▸ List.mem_cons_self))
    have hcmp := Stored.compare_compares ha.1 hb.1 ha.2 hb.2
    unfold compareLoop
    rw [hat, ok_bind, hat', ok_bind]
    simp only [has, hbs] at h1 h2 ⊢
    rw [List.length_cons] at h1 h2
    by_cases hne : a.compare b ≠ .eq
    · rw [if_pos hne]
      refine ⟨_, rfl, fun _ n m hn hm => ?_, fun h => absurd h hne⟩
      obtain ⟨n, rfl⟩ : ∃ k, n = k + 1 := ⟨n - 1, by omega⟩
      obtain ⟨m, rfl⟩ : ∃ k, m = k + 1 := ⟨m - 1, by omega⟩
      have hall : ((a.compare b).then .eq).Compares (a.component :: components (as.take n))
          (b.component :: components (bs.take m)) := compares_cons hcmp fun h => absurd h hne
      rw [show (a.compare b).then .eq = a.compare b by cases a.compare b <;> rfl] at hall
      simpa [components] using hall
    · have heq : a.compare b = .eq := not_not.mp hne
      rw [if_neg hne]
      rw [Nat.add_assoc] at hdrop hdrop'
      obtain ⟨o, ho, hlt, hkeys⟩ := compareLoop_spec pos1 pos2 hthis hother left
        (i + 1) (by rw [hdrop]; omega) (by rw [hdrop']; omega)
      rw [hdrop, hdrop'] at hlt hkeys
      rw [heq] at hcmp
      have hkey : a.component = b.component := hcmp
      refine ⟨o, ho, fun hne n m hn hm => ?_, fun h => ?_⟩
      · obtain ⟨n, rfl⟩ : ∃ k, n = k + 1 := ⟨n - 1, by omega⟩
        obtain ⟨m, rfl⟩ : ∃ k, m = k + 1 := ⟨m - 1, by omega⟩
        have hall := compares_cons (o := .eq) (a := a.component) (b := b.component) hkey
          fun _ => hlt hne n m (by omega) (by omega)
        simpa [components] using hall
      · simp only [components, List.take_succ_cons, List.map_cons, hkey]
        exact congrArg (b.component :: ·) (hkeys h)

/-- **`Name::compare` of ranges** compares the names in these ranges in the canonical
order, if the ranges start within the names. -/
theorem compareNames_compares {this other : List Stored} (hthis : Ordered this)
    (hother : Ordered other) (hsize : this.length < 2 ^ 31) (hosize : other.length < 2 ^ 31)
    {pos1 pos2 : ℕ} (hpos1 : pos1 ≤ this.length) (hpos2 : pos2 ≤ other.length)
    (count1 count2 : ℕ) :
    ∃ o, compareNames this pos1 count1 other pos2 count2 = .ok o ∧
      o.Compares (components ((this.drop pos1).take count1))
        (components ((other.drop pos2).take count2)) := by
  have hmin1 : sizeSub this.length pos1 = this.length - pos1 :=
    sizeSub_of_le hpos1 (Nat.lt_trans hsize (by omega))
  have hmin2 : sizeSub other.length pos2 = other.length - pos2 :=
    sizeSub_of_le hpos2 (Nat.lt_trans hosize (by omega))
  unfold compareNames
  dsimp only
  rw [hmin1, hmin2]
  have htake : ∀ (l : List Stored) (pos n : ℕ),
      (l.drop pos).take n = (l.drop pos).take (min n (l.length - pos)) := by
    intro l pos n
    rw [← List.length_drop, List.take_eq_take_iff]
    omega
  rw [htake this pos1 count1, htake other pos2 count2]
  have hc1 : min count1 (this.length - pos1) ≤ (this.drop pos1).length := by
    rw [List.length_drop]
    omega
  have hc2 : min count2 (other.length - pos2) ≤ (other.drop pos2).length := by
    rw [List.length_drop]
    omega
  generalize min count1 (this.length - pos1) = c1 at hc1 ⊢
  generalize min count2 (other.length - pos2) = c2 at hc2 ⊢
  obtain ⟨o, ho, hlt, hkeys⟩ := compareLoop_spec pos1 pos2 hthis hother
    (min c1 c2) 0 (by simp only [Nat.add_zero]; omega) (by simp only [Nat.add_zero]; omega)
  simp only [Nat.add_zero] at hlt hkeys
  rw [ho, ok_bind]
  refine ⟨_, rfl, ?_⟩
  by_cases hne : o ≠ .eq
  · rw [if_pos hne]
    exact hlt hne c1 c2 (Nat.min_le_left _ _) (Nat.min_le_right _ _)
  · have heq := hkeys (not_not.mp hne)
    rw [if_neg hne]
    have hlen1 : (components ((this.drop pos1).take c1)).length = c1 := by
      simp only [components, List.length_map, List.length_take]
      omega
    have hlen2 : (components ((other.drop pos2).take c2)).length = c2 := by
      simp only [components, List.length_map, List.length_take]
      omega
    have hprefix : ∀ (l : List Stored) {n m : ℕ}, n ≤ m →
        components (l.take n) <+: components (l.take m) :=
      fun l n m h => (List.take_prefix_take_left h).map _
    have h := sign_sub_compares (components ((this.drop pos1).take c1))
      (components ((other.drop pos2).take c2)) (by rw [List.length_drop] at hc1; omega)
      (by rw [List.length_drop] at hc2; omega) ?_
    · rwa [hlen1, hlen2] at h
    · rcases Nat.le_total c1 c2 with hle | hle
      · rw [Nat.min_eq_left hle] at heq
        left
        rw [heq]
        exact hprefix _ hle
      · rw [Nat.min_eq_right hle] at heq
        right
        rw [← heq]
        exact hprefix _ hle

/-- A component of one octet, with its wire. -/
def storedOctet (b : UInt8) : Stored := ⟨⟨.nameComponent, [b]⟩, some [8, 1, b]⟩

/-- Names of two components, from their start to their end. -/
theorem compareNames_compares_whole : ∃ o,
    compareName [storedOctet 1, storedOctet 2] [storedOctet 1, storedOctet 3] = .ok o ∧
      o.Compares (components [storedOctet 1, storedOctet 2])
        (components [storedOctet 1, storedOctet 3]) := by
  have hordered : ∀ a b : UInt8, Ordered [storedOctet a, storedOctet b] := by
    intro a b c hc
    simp only [List.mem_cons, List.not_mem_nil, or_false] at hc
    rcases hc with rfl | rfl <;>
      exact ⟨fun w h => (Option.some.inj h).symm, Nat.one_lt_two_pow (by omega)⟩
  exact compareNames_compares (hordered 1 2) (hordered 1 3) (by decide) (by decide)
    (Nat.zero_le _) (Nat.zero_le _) npos npos

end Ndn
end IcnDemo
