/-
# TLV elements: encoding, `Block::fromBuffer` and `Block::parse`

The `wireEncode` templates of ndn-cxx run twice, over an estimator that counts
and over an encoder that prepends; `Writes` says that both do the same. What
`Block::fromBuffer` accepts is an element with any codes of its type and length
(`fromBuffer_eq_some_iff`), and `Block::parse` accepts exactly the values that are
elements one after another (`parse_eq_ok_iff`). What `Block::encode` puts together
from elements is parsed into them again, byte for byte (`fromBuffer_encode`).

`parse` keeps what it has read in the block, and a second call finds it there: an
element that is cut off makes the first call throw and the second one return
(`parse_again`).
-/
import IcnDemo.Ndn.Tlv

namespace IcnDemo
namespace Ndn

open Lib.BigEndian Lib.PrefixCode Lib.Loop Tlv

/-! ### Encoding from the back -/

/-- `EncodingImpl<TAG>`: each call answers the number of bytes. -/
structure EncodingImpl (σ : Type) where
  prependByteArray : Bytes → σ → ℕ × σ
  prependVarNumber : ℕ → σ → ℕ × σ
  prependNonNegativeInteger : ℕ → σ → ℕ × σ

/-- `Encoder`: the bytes from `m_begin` to `m_end`. -/
def encoder : EncodingImpl Bytes where
  prependByteArray array buffer := (array.length, array ++ buffer)
  prependVarNumber n buffer := (sizeOfVarNumber n, writeVarNumber n ++ buffer)
  prependNonNegativeInteger n buffer :=
    (estimateNonNegativeInteger n, encodeNonNegativeInteger n ++ buffer)

/-- `Estimator` -/
def estimator : EncodingImpl Unit where
  prependByteArray array _ := (array.length, ())
  prependVarNumber n _ := (sizeOfVarNumber n, ())
  prependNonNegativeInteger n _ := (estimateNonNegativeInteger n, ())

/-- A template that prepends to an encoder of either tag. -/
abbrev Template := ∀ σ : Type, EncodingImpl σ → σ → ℕ × σ

/-- The encoder prepends `w`, and both tags answer its length. -/
structure Writes (p : Template) (w : Bytes) : Prop where
  encoder : ∀ buffer, p Bytes encoder buffer = (w.length, w ++ buffer)
  estimator : p Unit estimator () = (w.length, ())

/-- `totalLength += p(encoder); totalLength += q(encoder);` -/
def Template.andThen (p q : Template) : Template := fun σ e s =>
  let r := p σ e s
  let r' := q σ e r.2
  (r.1 + r'.1, r'.2)

/-- Nothing is prepended. -/
def Template.skip : Template := fun _ _ s => (0, s)

/-- The value, then `prependVarNumber(totalLength)` and `prependVarNumber(type)`. -/
def Template.element (type : ℕ) (value : Template) : Template := fun σ e s =>
  let totalLength := value σ e s
  let r := e.prependVarNumber totalLength.1 totalLength.2
  let r' := e.prependVarNumber type r.2
  (totalLength.1 + r.1 + r'.1, r'.2)

/-- An element with the shortest codes of its type and length. -/
def element (type : ℕ) (value : Bytes) : Bytes :=
  writeVarNumber type ++ writeVarNumber value.length ++ value

theorem writes_prependByteArray (array : Bytes) :
    Writes (fun _ e => e.prependByteArray array) array := ⟨fun _ => rfl, rfl⟩

theorem writes_prependNonNegativeInteger (n : ℕ) :
    Writes (fun _ e => e.prependNonNegativeInteger n) (encodeNonNegativeInteger n) where
  encoder _ := by rw [encodeNonNegativeInteger_length]; rfl
  estimator := by rw [encodeNonNegativeInteger_length]; rfl

theorem writes_skip : Writes Template.skip [] := ⟨fun _ => rfl, rfl⟩

theorem Writes.andThen {p q : Template} {u v : Bytes} (hp : Writes p u) (hq : Writes q v) :
    Writes (p.andThen q) (v ++ u) where
  encoder buffer := by
    simp only [Template.andThen, hp.encoder, hq.encoder, List.length_append, List.append_assoc]
    rw [Nat.add_comm]
  estimator := by
    simp only [Template.andThen, hp.estimator, hq.estimator, List.length_append]
    rw [Nat.add_comm]

/-- A loop that prepends an element at each turn. -/
theorem writes_foldl {α : Type} {template : α → Template} {wire : α → Bytes}
    (h : ∀ a, Writes (template a) (wire a)) {p : Template} {w : Bytes} (hp : Writes p w)
    (as : List α) : Writes (as.foldl (fun p a => p.andThen (template a)) p)
      (as.reverse.flatMap wire ++ w) := by
  induction as generalizing p w with
  | nil => simpa using hp
  | cons a as ih =>
    have := ih (hp.andThen (h a))
    simpa using this

theorem element_length (type : ℕ) (value : Bytes) : (element type value).length =
    value.length + sizeOfVarNumber value.length + sizeOfVarNumber type := by
  simp only [element, List.length_append, writeVarNumber_length]
  omega

theorem Writes.element {p : Template} {value : Bytes} (hp : Writes p value) (type : ℕ) :
    Writes (Template.element type p) (element type value) where
  encoder buffer := by
    simp only [Template.element, hp.encoder, element_length]
    simp [Ndn.encoder, Ndn.element]
  estimator := by
    simp only [Template.element, hp.estimator, element_length]
    rfl

/-- `wireEncode()`: reserve what the estimator says, encode, and take the block. -/
def Template.run (p : Template) : Bytes := (p Bytes encoder []).2

theorem Writes.run {p : Template} {w : Bytes} (hp : Writes p w) : p.run = w := by
  simp [Template.run, hp.encoder]

/-! ### Elements -/

/-- `MAX_NDN_PACKET_SIZE` -/
def maxNdnPacketSize : ℕ := 8800

/-- A `Block` with a wire. -/
structure Block where
  type : ℕ
  wire : Bytes
  value : Bytes
deriving DecidableEq, Repr

namespace Block

/-- `Block::fromBuffer`, and what is left of the buffer. -/
def fromBuffer (buffer : Bytes) : Option (Block × Bytes) :=
  match readType? buffer with
  | none => none
  | some (type, begin) =>
    match readVarNumber? begin with
    | none => none
    | some (length, begin) =>
      if length > begin.length then none
      else
        let rest := begin.drop length
        some (⟨type, buffer.take (buffer.length - rest.length), begin.take length⟩, rest)

/-- `Block::Block(const ConstBufferPtr& buffer, ...)`: a buffer that is one element. -/
def ofBuffer (buffer : Bytes) : Except Error Block := do
  let (type, begin) ← readType buffer
  let (length, begin) ← readVarNumber begin
  (if length ≠ begin.length then .error "TLV length doesn't match buffer length"
    else .ok ⟨type, buffer, begin⟩)

/-- `Block::Block(const uint8_t* buffer, size_t maxlength)`: the element a buffer starts
with. -/
def ofOctets (buffer : Bytes) : Except Error Block := do
  let (type, begin) ← readType buffer
  let (length, begin) ← readVarNumber begin
  (if length > begin.length then .error "Not enough data in the buffer to fully parse TLV"
    else
      let size := buffer.length - begin.length + length
      .ok ⟨type, buffer.take size, begin.take length⟩)

/-- The loop of `Block::parse`, with fuel for its turns: the elements so far, in
the block, and whether it throws. -/
def parseLoop : ℕ → Bytes → List Block → List Block × Except Error Unit
  | _, [], subBlocks => (subBlocks, .ok ())
  | 0, _ :: _, subBlocks => (subBlocks, .error "")
  | turns + 1, octet :: rest, subBlocks =>
    let elementBegin := octet :: rest
    match readType elementBegin with
    | .error e => (subBlocks, .error e)
    | .ok (type, begin) =>
      match readVarNumber begin with
      | .error e => (subBlocks, .error e)
      | .ok (length, begin) =>
        if length > begin.length then ([], .error "TLV length exceeds buffer length")
        else
          let elementEnd := begin.drop length
          let wire := elementBegin.take (elementBegin.length - elementEnd.length)
          parseLoop turns elementEnd (subBlocks ++ [⟨type, wire, begin.take length⟩])

/-- `Block::parse` of a block with this value that holds `subBlocks`. An element
has at least an octet, so the length of the value is enough fuel. -/
def parse (value : Bytes) (subBlocks : List Block) : List Block × Except Error Unit :=
  if subBlocks ≠ [] ∨ value.length = 0 then (subBlocks, .ok ())
  else parseLoop value.length value []

/-- The wire is some code of the type, some code of the length, and the value. -/
def WellFormed (b : Block) : Prop :=
  ∃ t l, Reads readVarNumber? t b.type ∧ b.type ≤ 0xFFFFFFFF ∧
    Reads readVarNumber? l b.value.length ∧ b.wire = t ++ l ++ b.value

/-- The decoder of an element's type and value. -/
def fields : Decoder UInt8 (ℕ × Bytes) :=
  andThen readType? fun type => andThen readVarNumber? fun length =>
    andThen (takeN length) fun value => ofOption (some (type, value))

theorem framed_fields : Framed fields :=
  framed_andThen framed_readType fun _ => framed_andThen framed_readVarNumber fun _ =>
    framed_andThen (framed_takeN _) fun _ => framed_ofOption _

theorem fromBuffer_eq (buffer : Bytes) : fromBuffer buffer =
    (withCode fields buffer).map fun r => (⟨r.1.1.1, r.1.2, r.1.1.2⟩, r.2) := by
  unfold fromBuffer withCode fields andThen
  rcases readType? buffer with _ | ⟨type, begin⟩
  · rfl
  · simp only [Option.bind_some]
    rcases readVarNumber? begin with _ | ⟨length, begin'⟩
    · rfl
    · simp only [Option.bind_some, takeN, ofOption]
      split <;> rfl

theorem reads_fields {w : Bytes} {b : Block} :
    Reads fields w (b.type, b.value) ↔ WellFormed ⟨b.type, w, b.value⟩ := by
  unfold fields WellFormed
  simp only [reads_andThen framed_readType, reads_andThen framed_readVarNumber,
    reads_andThen (framed_takeN _), reads_takeN, reads_ofOption, reads_readType_iff,
    Option.some.injEq]
  constructor
  · rintro ⟨t, v, type, rfl, ⟨ht, hle⟩, l, v', length, rfl, hl, value, v'', bs, rfl, ⟨rfl, rfl⟩,
      heq, rfl⟩
    obtain ⟨rfl, rfl⟩ := Prod.mk.inj heq
    exact ⟨t, l, ht, hle, hl, by simp⟩
  · rintro ⟨t, l, ht, hle, hl, rfl⟩
    exact ⟨t, l ++ b.value, b.type, by simp, ⟨ht, hle⟩, l, b.value, b.value.length, rfl, hl,
      b.value, [], b.value, by simp, ⟨rfl, rfl⟩, rfl, rfl⟩

/-- What `fromBuffer` accepts, and what it leaves. -/
theorem fromBuffer_eq_some_iff {buffer rest : Bytes} {b : Block} :
    fromBuffer buffer = some (b, rest) ↔ buffer = b.wire ++ rest ∧ b.WellFormed := by
  rw [fromBuffer_eq]
  constructor
  · intro h
    obtain ⟨⟨⟨⟨type, value⟩, w⟩, rest'⟩, hr, heq⟩ := Option.map_eq_some_iff.mp h
    obtain ⟨rfl, rfl⟩ := Prod.mk.inj heq
    obtain ⟨hsplit, hw⟩ := (withCode_eq_some_iff framed_fields).mp hr
    exact ⟨hsplit, (reads_fields (b := ⟨type, w, value⟩)).mp hw⟩
  · rintro ⟨hsplit, hw⟩
    have hr : withCode fields buffer = some (((b.type, b.value), b.wire), rest) :=
      (withCode_eq_some_iff framed_fields).mpr ⟨hsplit, reads_fields.mpr hw⟩
    rw [hr]
    rfl

theorem reads_fromBuffer {w : Bytes} {b : Block} :
    Reads fromBuffer w b ↔ w = b.wire ∧ b.WellFormed := by
  unfold Reads
  rw [fromBuffer_eq_some_iff, List.append_nil]

theorem framed_fromBuffer : Framed fromBuffer := by
  intro bs b rest
  rw [fromBuffer_eq_some_iff]
  simp [reads_fromBuffer]

theorem reads_ne_nil {w : Bytes} {n : ℕ} (h : Reads readVarNumber? w n) : w ≠ [] := by
  rintro rfl
  cases h

theorem WellFormed.wire_ne_nil {b : Block} (h : b.WellFormed) : b.wire ≠ [] := by
  obtain ⟨t, l, ht, -, -, hwire⟩ := h
  rw [hwire]
  simp [reads_ne_nil ht]

theorem forall₂_reads {ws : List Bytes} {bs : List Block} :
    List.Forall₂ (Reads fromBuffer) ws bs ↔ ws = bs.map wire ∧ ∀ b ∈ bs, b.WellFormed := by
  induction bs generalizing ws with
  | nil => simp
  | cons b bs ih =>
    rw [List.forall₂_cons_right_iff]
    constructor
    · rintro ⟨w, ws, hw, hall, rfl⟩
      obtain ⟨rfl, hb⟩ := reads_fromBuffer.mp hw
      obtain ⟨rfl, hbs⟩ := ih.mp hall
      exact ⟨rfl, List.forall_mem_cons.mpr ⟨hb, hbs⟩⟩
    · rintro ⟨rfl, hall⟩
      obtain ⟨hb, hbs⟩ := List.forall_mem_cons.mp hall
      exact ⟨b.wire, bs.map wire, reads_fromBuffer.mpr ⟨rfl, hb⟩, ih.mpr ⟨rfl, hbs⟩, rfl⟩

/-- What `fromBuffer` cuts off, call after call. -/
theorem cut_iff {buffer rest : Bytes} {bs : List Block} : Cut fromBuffer buffer bs rest ↔
    buffer = bs.flatMap wire ++ rest ∧ (∀ b ∈ bs, b.WellFormed) ∧ fromBuffer rest = none := by
  rw [List.flatMap_def]
  constructor
  · intro h
    obtain ⟨ws, hsplit, hall⟩ := h.codes framed_fromBuffer
    obtain ⟨rfl, hwf⟩ := forall₂_reads.mp hall
    exact ⟨hsplit, hwf, h.stuck⟩
  · rintro ⟨rfl, hwf, hstuck⟩
    exact cut_codes framed_fromBuffer (forall₂_reads.mpr ⟨rfl, hwf⟩) hstuck

/-! ### The constructors -/

theorem readType?_eq (begin : Bytes) : readType? begin = (readType begin).toOption := by
  cases h : readType begin with
  | ok r => exact readType_eq_ok_iff.mp h
  | error e =>
    cases hs : readType? begin with
    | none => rfl
    | some r =>
      rw [readType_eq_ok_iff.mpr hs] at h
      cases h

theorem readVarNumber?_eq (begin : Bytes) :
    readVarNumber? begin = (readVarNumber begin).toOption := by
  cases h : readVarNumber begin with
  | ok r => exact readVarNumber_eq_ok_iff.mp h
  | error e =>
    cases hs : readVarNumber? begin with
    | none => rfl
    | some r =>
      rw [readVarNumber_eq_ok_iff.mpr hs] at h
      cases h

/-- **The constructor of a Block over a buffer** accepts it exactly if it is one element. -/
theorem ofBuffer_eq_ok_iff {buffer : Bytes} {b : Block} :
    ofBuffer buffer = .ok b ↔ fromBuffer buffer = some (b, []) := by
  unfold ofBuffer fromBuffer
  rw [readType?_eq]
  cases readType buffer with
  | error e => simp [Except.toOption]
  | ok r =>
    obtain ⟨type, begin⟩ := r
    simp only [ok_bind, Except.toOption, readVarNumber?_eq]
    cases readVarNumber begin with
    | error e => simp
    | ok r =>
      obtain ⟨length, begin'⟩ := r
      simp only [ok_bind]
      by_cases hlen : length = begin'.length
      · simp [hlen]
      · by_cases hlong : length > begin'.length
        · simp [hlen, hlong]
        · have hrest : begin'.drop length ≠ [] := by
            rw [ne_eq, List.drop_eq_nil_iff]
            omega
          simp [hlen, hlong, hrest]

/-- The constructor over octets finds the element they start with. -/
theorem ofOctets_eq_ok_iff {buffer : Bytes} {b : Block} :
    ofOctets buffer = .ok b ↔ ∃ rest, fromBuffer buffer = some (b, rest) := by
  unfold ofOctets fromBuffer
  rw [readType?_eq]
  cases ht : readType buffer with
  | error e => simp [Except.toOption]
  | ok r =>
    obtain ⟨type, begin⟩ := r
    simp only [ok_bind, Except.toOption, readVarNumber?_eq]
    cases hl : readVarNumber begin with
    | error e => simp
    | ok r =>
      obtain ⟨length, begin'⟩ := r
      have hle : begin'.length ≤ buffer.length :=
        le_trans (framed_readVarNumber.length_le (readVarNumber_eq_ok_iff.mp hl))
          (framed_readType.length_le (readType_eq_ok_iff.mp ht))
      simp only [ok_bind]
      by_cases hlong : length > begin'.length
      · simp [hlong]
      · have hsize : buffer.length - begin'.length + length =
            buffer.length - (begin'.drop length).length := by
          rw [List.length_drop]
          omega
        simp [hlong, hsize]

/-! ### Parsing -/

theorem readVarNumber_ne_lengthError (begin : Bytes) :
    readVarNumber begin ≠ .error "TLV length exceeds buffer length" := by
  unfold readVarNumber
  split
  · simp
  · split <;> simp

theorem readType_ne_lengthError (begin : Bytes) :
    readType begin ≠ .error "TLV length exceeds buffer length" := by
  unfold readType
  cases h : readVarNumber begin with
  | error e =>
    rw [error_bind, ← h]
    exact readVarNumber_ne_lengthError begin
  | ok r =>
    rw [ok_bind]
    split <;> simp

/-- One turn of the loop: it goes on after an element, and throws where there is
none, with what it has read or without. -/
theorem parseLoop_succ (turns : ℕ) (octet : UInt8) (rest : Bytes) (subBlocks : List Block) :
    (∃ b begin, fromBuffer (octet :: rest) = some (b, begin) ∧
      parseLoop (turns + 1) (octet :: rest) subBlocks = parseLoop turns begin (subBlocks ++ [b])) ∨
    (fromBuffer (octet :: rest) = none ∧
      ((∃ e, e ≠ "TLV length exceeds buffer length" ∧
          parseLoop (turns + 1) (octet :: rest) subBlocks = (subBlocks, .error e)) ∨
        parseLoop (turns + 1) (octet :: rest) subBlocks =
          ([], .error "TLV length exceeds buffer length"))) := by
  rw [parseLoop]
  dsimp only
  cases ht : readType (octet :: rest) with
  | error e =>
    have ht' : readType? (octet :: rest) = none := by rw [readType?_eq, ht]; rfl
    right
    refine ⟨by simp only [fromBuffer, ht'], .inl ⟨e, ?_, rfl⟩⟩
    rintro rfl
    exact readType_ne_lengthError _ ht
  | ok r =>
    obtain ⟨type, begin⟩ := r
    have ht' := readType_eq_ok_iff.mp ht
    dsimp only
    cases hl : readVarNumber begin with
    | error e =>
      have hl' : readVarNumber? begin = none := by rw [readVarNumber?_eq, hl]; rfl
      right
      refine ⟨by simp only [fromBuffer, ht', hl'], .inl ⟨e, ?_, rfl⟩⟩
      rintro rfl
      exact readVarNumber_ne_lengthError _ hl
    | ok r =>
      obtain ⟨length, begin'⟩ := r
      have hl' := readVarNumber_eq_ok_iff.mp hl
      dsimp only
      by_cases hlong : length > begin'.length
      · right
        rw [if_pos hlong]
        exact ⟨by simp only [fromBuffer, ht', hl', if_pos hlong], .inr rfl⟩
      · left
        rw [if_neg hlong]
        exact ⟨_, _, by simp only [fromBuffer, ht', hl', if_neg hlong], rfl⟩

/-- How the loop ends: at the end of the value with all its elements, or at a rest
that does not start with an element. -/
theorem parseLoop_spec : ∀ {turns : ℕ} {bs : Bytes} (subBlocks : List Block), bs.length ≤ turns →
    ∃ new rest, bs = new.flatMap wire ++ rest ∧ (∀ b ∈ new, b.WellFormed) ∧
      ((rest = [] ∧ parseLoop turns bs subBlocks = (subBlocks ++ new, .ok ())) ∨
      (rest ≠ [] ∧ fromBuffer rest = none ∧
        ((∃ e, e ≠ "TLV length exceeds buffer length" ∧
            parseLoop turns bs subBlocks = (subBlocks ++ new, .error e)) ∨
          parseLoop turns bs subBlocks = ([], .error "TLV length exceeds buffer length"))))
  | turns, [], subBlocks, _ => by
    refine ⟨[], [], rfl, by simp, .inl ⟨rfl, ?_⟩⟩
    cases turns <;> simp [parseLoop]
  | 0, _ :: _, _, h => by simp at h
  | turns + 1, octet :: rest, subBlocks, h => by
    rcases parseLoop_succ turns octet rest subBlocks with ⟨b, begin, hb, hloop⟩ | ⟨hnone, hloop⟩
    · obtain ⟨hsplit, hwf⟩ := fromBuffer_eq_some_iff.mp hb
      have hlen : begin.length ≤ turns := by
        have hpos := List.length_pos_iff.mpr hwf.wire_ne_nil
        have := congrArg List.length hsplit
        rw [List.length_append] at this
        omega
      obtain ⟨new, rest', hrest, hall, hend⟩ := parseLoop_spec (subBlocks ++ [b]) hlen
      refine ⟨b :: new, rest', ?_, List.forall_mem_cons.mpr ⟨hwf, hall⟩, ?_⟩
      · rw [hsplit, hrest, List.flatMap_cons, List.append_assoc]
      · rw [hloop]
        simpa using hend
    · refine ⟨[], octet :: rest, rfl, by simp, .inr ⟨by simp, hnone, ?_⟩⟩
      simpa using hloop

theorem parse_nil (value : Bytes) : parse value [] = parseLoop value.length value [] := by
  unfold parse
  by_cases h : value.length = 0
  · rw [if_pos (.inr h), List.length_eq_zero_iff.mp h]
    rfl
  · rw [if_neg (by simpa using h)]

/-- A rest without an element at its start has none. -/
theorem WellFormed.not_stuck {b : Block} (h : b.WellFormed) (rest : Bytes) :
    ¬ (b.wire ++ rest = [] ∨ fromBuffer (b.wire ++ rest) = none) := by
  rw [framed_fromBuffer.append (reads_fromBuffer.mpr ⟨rfl, h⟩)]
  simp [h.wire_ne_nil]

/-- The first elements of a value are the same wherever the rest is no element. -/
theorem elements_unique : ∀ {bs bs' : List Block} {rest rest' : Bytes},
    (∀ b ∈ bs, b.WellFormed) → (∀ b ∈ bs', b.WellFormed) →
    (rest = [] ∨ fromBuffer rest = none) → (rest' = [] ∨ fromBuffer rest' = none) →
    bs.flatMap wire ++ rest = bs'.flatMap wire ++ rest' → bs = bs' ∧ rest = rest'
  | [], [], _, _, _, _, _, _, h => ⟨rfl, by simpa using h⟩
  | [], b :: bs, rest, rest', _, hall', hr, _, h => by
    rw [List.flatMap_nil, List.nil_append, List.flatMap_cons, List.append_assoc] at h
    rw [h] at hr
    exact absurd hr ((List.forall_mem_cons.mp hall').1.not_stuck _)
  | b :: bs, [], rest, rest', hall, _, _, hr', h => by
    rw [List.flatMap_nil, List.nil_append, List.flatMap_cons, List.append_assoc] at h
    rw [← h] at hr'
    exact absurd hr' ((List.forall_mem_cons.mp hall).1.not_stuck _)
  | b :: bs, b' :: bs', rest, rest', hall, hall', hr, hr', h => by
    obtain ⟨hb, hbs⟩ := List.forall_mem_cons.mp hall
    obtain ⟨hb', hbs'⟩ := List.forall_mem_cons.mp hall'
    rw [List.flatMap_cons, List.flatMap_cons, List.append_assoc, List.append_assoc] at h
    obtain ⟨-, rfl, hrest⟩ := framed_fromBuffer.unique (reads_fromBuffer.mpr ⟨rfl, hb⟩)
      (reads_fromBuffer.mpr ⟨rfl, hb'⟩) h
    obtain ⟨rfl, rfl⟩ := elements_unique hbs hbs' hr hr' hrest
    exact ⟨rfl, rfl⟩

/-- `parse` accepts exactly the values that are elements one after another, and
finds these elements. -/
theorem parse_eq_ok_iff {value : Bytes} {bs : List Block} :
    parse value [] = (bs, .ok ()) ↔ value = bs.flatMap wire ∧ ∀ b ∈ bs, b.WellFormed := by
  rw [parse_nil]
  obtain ⟨new, rest, hsplit, hall, hend⟩ := parseLoop_spec [] (le_refl value.length)
  constructor
  · intro h
    rcases hend with ⟨rfl, hok⟩ | ⟨-, -, ⟨e, -, herr⟩ | herr⟩
    · rw [hok] at h
      obtain ⟨rfl, -⟩ := Prod.mk.inj h
      exact ⟨by simpa using hsplit, hall⟩
    · rw [herr] at h
      cases h
    · rw [herr] at h
      cases h
  · rintro ⟨rfl, hbs⟩
    have hstuck : rest = [] ∨ fromBuffer rest = none := by
      rcases hend with ⟨h, -⟩ | ⟨-, h, -⟩
      · exact .inl h
      · exact .inr h
    obtain ⟨rfl, rfl⟩ := elements_unique hbs hall (.inl rfl) hstuck
      (by rw [List.append_nil]; exact hsplit)
    rcases hend with ⟨-, hok⟩ | ⟨hne, -⟩
    · exact hok
    · exact absurd rfl hne

/-- After `parse` has thrown, the block holds the elements before the fault, unless the
fault is a length beyond the end of the value; when it holds any, parsing it again
returns, with these elements. -/
theorem parse_again {value : Bytes} {bs : List Block} {e : Error}
    (h : parse value [] = (bs, .error e)) :
    (e = "TLV length exceeds buffer length" → bs = []) ∧
    (e ≠ "TLV length exceeds buffer length" →
      ∃ rest, rest ≠ [] ∧ fromBuffer rest = none ∧ value = bs.flatMap wire ++ rest ∧
        ∀ b ∈ bs, b.WellFormed) ∧
    parse value bs = (bs, if bs = [] then .error e else .ok ()) := by
  have hagain : parse value bs = (bs, if bs = [] then .error e else .ok ()) := by
    by_cases hbs : bs = []
    · rw [if_pos hbs, hbs, h, hbs]
    · unfold parse
      rw [if_pos (.inl hbs), if_neg hbs]
  rw [parse_nil] at h
  obtain ⟨new, rest, hsplit, hall, hend⟩ := parseLoop_spec [] (le_refl value.length)
  rcases hend with ⟨-, hok⟩ | ⟨hne, hnone, ⟨e', he', herr⟩ | herr⟩
  · rw [hok] at h
    cases h
  · rw [herr] at h
    obtain ⟨rfl, he⟩ := Prod.mk.inj h
    obtain rfl := Except.error.inj he
    exact ⟨fun hlen => absurd hlen he', fun _ => ⟨rest, hne, hnone, hsplit, hall⟩, hagain⟩
  · rw [herr] at h
    obtain ⟨rfl, he⟩ := Prod.mk.inj h
    obtain rfl := Except.error.inj he
    exact ⟨fun _ => rfl, fun hlen => absurd rfl hlen, hagain⟩

theorem parse_again_cut : parse [8, 1, 0x61, 8] [] =
      ([⟨8, [8, 1, 0x61], [0x61]⟩], .error "Empty buffer during TLV processing") ∧
    parse [8, 1, 0x61, 8] [⟨8, [8, 1, 0x61], [0x61]⟩] =
      ([⟨8, [8, 1, 0x61], [0x61]⟩], .ok ()) :=
  have hcut : parse [8, 1, 0x61, 8] [] =
      ([⟨8, [8, 1, 0x61], [0x61]⟩], .error "Empty buffer during TLV processing") := rfl
  ⟨hcut, (parse_again hcut).2.2⟩

/-! ### Encoding -/

theorem reads_element {type : ℕ} {value : Bytes} (ht : type ≤ 0xFFFFFFFF)
    (hv : value.length < 2 ^ 64) : WellFormed ⟨type, element type value, value⟩ :=
  ⟨writeVarNumber type, writeVarNumber value.length, reads_writeVarNumber (by omega), ht,
    reads_writeVarNumber hv, rfl⟩

/-- A buffer that is an element with the shortest codes is accepted if its length fits into
64 bits: otherwise another length is written. -/
theorem ofBuffer_element {type : ℕ} {value : Bytes} {b : Block} (ht : type ≤ 0xFFFFFFFF)
    (h : ofBuffer (element type value) = .ok b) :
    value.length < 2 ^ 64 ∧ b = ⟨type, element type value, value⟩ := by
  obtain ⟨hwire, t, l, hreads, -, hl, heq⟩ :=
    fromBuffer_eq_some_iff.mp (ofBuffer_eq_ok_iff.mp h)
  rw [List.append_nil] at hwire
  have hlt : value.length < 2 ^ 64 := by
    by_contra hbig
    have hcode : Reads readVarNumber? (writeVarNumber value.length) (value.length % 2 ^ 64) := by
      rw [reads_readVarNumber_iff]
      unfold writeVarNumber
      rw [if_neg (by omega), if_neg (by omega), if_neg (by omega)]
      exact .inr (.inr (.inr ⟨by omega, by rw [← beBytes_mod 8]; norm_num⟩))
    rw [← hwire] at heq
    unfold element at heq
    rw [List.append_assoc, List.append_assoc] at heq
    obtain ⟨-, -, hrest⟩ := framed_readVarNumber.unique (reads_writeVarNumber (by omega)) hreads heq
    obtain ⟨-, hlen, hval⟩ := framed_readVarNumber.unique hcode hl hrest
    rw [← hval] at hlen
    omega
  have hb : fromBuffer (element type value) = some (⟨type, element type value, value⟩, []) :=
    fromBuffer_eq_some_iff.mpr ⟨by simp, reads_element ht hlt⟩
  rw [ofBuffer_eq_ok_iff.mp h] at hb
  exact ⟨hlt, (Prod.mk.inj (Option.some.inj hb)).1⟩

theorem wire_length_le_of_mem {b : Block} {bs : List Block} (h : b ∈ bs) :
    b.wire.length ≤ (bs.flatMap wire).length :=
  (List.sublist_flatten_of_mem (List.mem_map_of_mem h)).length_le

end Block
end Ndn
end IcnDemo
