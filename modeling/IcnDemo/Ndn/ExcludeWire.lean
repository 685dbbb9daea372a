/-
# Exclude filters on the wire

`Exclude::wireEncode` goes through the entries from the greatest and prepends
each, its `ANY` first; `Exclude::wireDecode` reads them from the least and keeps
the first entry of a component. A filter that is encoded is read back as it was
(`wireDecode_wireEncode`), so any filter that calls have made is
(`wireDecode_of_run`). This is for components in the encoding of this library: the
entries are sent in the order of `IcnDemo.Ndn.Exclude`, and what is read has the shortest
codes.
-/
import IcnDemo.Ndn.ExcludeRanges

namespace IcnDemo
namespace Ndn
namespace Exclude

open Lib.OrderedMap Lib.Loop Tlv

/-- `prependEmptyBlock<TAG>` -/
def prependEmptyBlock (type : ℕ) : Template := Template.element type Template.skip

/-- `tlv::Any` -/
def tlvAny : ℕ := 19

/-- `tlv::Exclude` -/
def tlvExclude : ℕ := 16

/-- What is prepended for an entry: `ANY`, then the component before it. -/
def entryTemplate (entry : ExcludeComponent × Bool) : Template :=
  (if entry.2 then prependEmptyBlock tlvAny else Template.skip).andThen
    ((component entry.1).elim Template.skip Component.wireEncode)

/-- `Exclude::wireEncode<TAG>` -/
def wireEncode (entries : ExcludeMap) : Except Error Template :=
  if entries.entries = [] then .error "cannot encode empty Exclude selector"
  else
    .ok (Template.element tlvExclude
      (entries.entries.foldl (fun p entry => p.andThen (entryTemplate entry)) Template.skip))

/-- The loop of `wireDecode`; `appendEntry` keeps the first entry of a component. -/
def decodeEntries : ExcludeMap → List Block → Except Error ExcludeMap
  | entries, [] => .ok entries
  | entries, [i] =>
    match Component.ofBlock i with
    | .error _ => .error "Incorrect format of Exclude filter"
    | .ok comp => .ok (entries.emplace comp false)
  | entries, i :: next :: rest =>
    match Component.ofBlock i with
    | .error _ => .error "Incorrect format of Exclude filter"
    | .ok comp =>
      if next.type = tlvAny then decodeEntries (entries.emplace comp true) rest
      else decodeEntries (entries.emplace comp false) (next :: rest)

/-- `Exclude::wireDecode` -/
def wireDecode (wire : Block) : Except Error ExcludeMap :=
  if wire.type ≠ tlvExclude then .error "Unexpected TLV type when decoding Exclude"
  else
    match Block.parse wire.value [] with
    | (_, .error e) => .error e
    | ([], .ok ()) => .error "Exclude element cannot be empty"
    | (i :: rest, .ok ()) =>
      if i.type = tlvAny then decodeEntries (DescMap.empty.emplace ⊥ true) rest
      else decodeEntries DescMap.empty (i :: rest)

/-! ### Encoding -/

/-- The wire of an entry. -/
def entryWire (entry : ExcludeComponent × Bool) : Bytes :=
  (component entry.1).elim [] Component.wire ++ if entry.2 then element tlvAny [] else []

/-- The blocks of an entry. -/
def entryBlocks (entry : ExcludeComponent × Bool) : List Block :=
  (component entry.1).elim [] (fun c => [c.toBlock]) ++
    if entry.2 then [⟨tlvAny, element tlvAny [], []⟩] else []

theorem writes_entryTemplate (entry : ExcludeComponent × Bool) :
    Writes (entryTemplate entry) (entryWire entry) := by
  apply Writes.andThen
  · cases entry.2 with
    | false => exact writes_skip
    | true => exact writes_skip.element tlvAny
  · cases component entry.1 with
    | none => exact writes_skip
    | some c => exact c.writes_wireEncode

theorem entryWire_eq (entry : ExcludeComponent × Bool) :
    entryWire entry = (entryBlocks entry).flatMap Block.wire := by
  unfold entryWire entryBlocks
  cases component entry.1 <;> cases entry.2 <;> simp [Component.toBlock]

/-- What `wireEncode` makes of entries. -/
def wire (entries : ExcludeMap) : Bytes :=
  element tlvExclude (entries.entries.reverse.flatMap entryWire)

theorem writes_wireEncode {m : ExcludeMap} {p : Template} (h : wireEncode m = .ok p) :
    Writes p (wire m) := by
  unfold wireEncode at h
  split at h
  · cases h
  · obtain rfl := Except.ok.inj h
    apply Writes.element
    have := writes_foldl writes_entryTemplate writes_skip m.entries
    simpa using this

/-! ### Decoding -/

/-- The components are valid, and negative infinity stands for the start of a range only. -/
def Encodable (l : List (ExcludeComponent × Bool)) : Prop :=
  ∀ e ∈ l, (∀ c, component e.1 = some c → c.Valid) ∧ (e.1 = ⊥ → e.2 = true)

theorem toBlock_type_ne_any (c : Component) : c.toBlock.type ≠ tlvAny := by
  unfold Component.toBlock
  cases c.type <;> simp [ComponentType.code, tlvAny]

/-- Decoding goes on after an entry as after its `emplace`. -/
theorem decodeEntries_entry {m : ExcludeMap} {c : Component} (hc : c.Valid) (any : Bool)
    {rest : List (ExcludeComponent × Bool)} (hrest : ∀ e ∈ rest, e.1 ≠ ⊥) :
    decodeEntries m (entryBlocks (↑c, any) ++ rest.flatMap entryBlocks) =
      decodeEntries (m.emplace c any) (rest.flatMap entryBlocks) := by
  have hblocks : entryBlocks (↑c, any) =
      c.toBlock :: if any then [⟨tlvAny, element tlvAny [], []⟩] else [] := rfl
  rw [hblocks]
  cases any with
  | true =>
    simp only [↓reduceIte, List.cons_append, List.nil_append]
    rw [decodeEntries, Component.ofBlock_toBlock hc]
    simp
  | false =>
    simp only [Bool.false_eq_true, ↓reduceIte, List.cons_append, List.nil_append]
    cases rest with
    | nil => simp [decodeEntries, Component.ofBlock_toBlock hc]
    | cons e rest =>
      obtain ⟨k, any'⟩ := e
      have hk : k ≠ ⊥ := hrest (k, any') List.mem_cons_self
      obtain ⟨d, rfl⟩ := WithBot.ne_bot_iff_exists.mp hk
      have hnext : ((↑d, any') :: rest : List (ExcludeComponent × Bool)).flatMap entryBlocks =
          d.toBlock :: ((if any' then [⟨tlvAny, element tlvAny [], []⟩] else []) ++
            rest.flatMap entryBlocks) := rfl
      rw [hnext, decodeEntries, Component.ofBlock_toBlock hc]
      dsimp only
      rw [if_neg (toBlock_type_ne_any d)]

theorem decodeEntries_entries : ∀ {l : List (ExcludeComponent × Bool)} {m : ExcludeMap},
    Encodable l → (∀ e ∈ l, e.1 ≠ ⊥) → decodeEntries m (l.flatMap entryBlocks) =
      .ok (l.foldl (fun m e => m.emplace e.1 e.2) m)
  | [], m, _, _ => by simp [decodeEntries]
  | (k, any) :: l, m, henc, hbot => by
    obtain ⟨hk, hl⟩ := List.forall_mem_cons.mp hbot
    obtain ⟨c, rfl⟩ := WithBot.ne_bot_iff_exists.mp hk
    obtain ⟨⟨hc, -⟩, henc'⟩ := List.forall_mem_cons.mp henc
    rw [List.flatMap_cons, decodeEntries_entry (hc c rfl) any hl, List.foldl_cons]
    exact decodeEntries_entries henc' hl

/-- Entries with different keys are all kept. -/
theorem mem_foldl_emplace : ∀ {l : List (ExcludeComponent × Bool)} {m : ExcludeMap},
    Ascending l → (∀ e ∈ l, ∀ e' ∈ m, e'.1 < e.1) → ∀ e : ExcludeComponent × Bool,
      e ∈ l.foldl (fun m e => m.emplace e.1 e.2) m ↔ e ∈ m ∨ e ∈ l
  | [], m, _, _, e => by simp
  | a :: l, m, hasc, hm, e => by
    obtain ⟨ha, hl⟩ := List.pairwise_cons.mp hasc
    have hmem : ∀ x : ExcludeComponent × Bool, x ∈ m.emplace a.1 a.2 ↔ x ∈ m ∨ x = a := by
      intro x
      rw [DescMap.mem_emplace]
      refine or_congr_right (and_iff_left ?_)
      exact fun e' he' => ne_of_lt (hm a List.mem_cons_self e' he')
    have hnext : ∀ e ∈ l, ∀ e' ∈ m.emplace a.1 a.2, e'.1 < e.1 := by
      intro x hx e' he'
      rcases (hmem e').mp he' with h | rfl
      · exact hm x (List.mem_cons_of_mem _ hx) e' h
      · exact ha x hx
    rw [List.foldl_cons, mem_foldl_emplace hl hnext, hmem, List.mem_cons, or_assoc]

theorem foldl_emplace_reverse {m : ExcludeMap} :
    m.entries.reverse.foldl (fun m e => m.emplace e.1 e.2) DescMap.empty = m := by
  apply DescMap.ext_mem
  intro e
  rw [mem_foldl_emplace (ascending_reverse m) fun _ _ e' he' => absurd he' (DescMap.not_mem_empty e'),
    or_iff_right (DescMap.not_mem_empty e), List.mem_reverse, DescMap.mem_def]

theorem entryBlocks_wellFormed {l : List (ExcludeComponent × Bool)}
    (hsize : (l.flatMap entryWire).length < 2 ^ 64) : ∀ b ∈ l.flatMap entryBlocks, b.WellFormed := by
  intro b hb
  obtain ⟨⟨k, any⟩, he, hb⟩ := List.mem_flatMap.mp hb
  have hle : (entryWire (k, any)).length < 2 ^ 64 := by
    refine Nat.lt_of_le_of_lt ?_ hsize
    exact (List.sublist_flatten_of_mem (List.mem_map_of_mem he)).length_le
  unfold entryBlocks at hb
  rcases List.mem_append.mp hb with hb | hb
  · cases hc : component k with
    | none => simp [hc] at hb
    | some c =>
      obtain rfl : b = c.toBlock := by simpa [hc] using hb
      apply Component.toBlock_wellFormed
      simp only [entryWire, hc, Option.elim_some, List.length_append, Component.wire,
        element_length] at hle
      omega
  · cases any with
    | false => simp at hb
    | true =>
      obtain rfl : b = ⟨tlvAny, element tlvAny [], []⟩ := by simpa using hb
      exact Block.reads_element (by simp [tlvAny]) (by simp)

/-- The block of a filter that is encoded. -/
def toBlock (m : ExcludeMap) : Block :=
  ⟨tlvExclude, wire m, m.entries.reverse.flatMap entryWire⟩

theorem toBlock_wellFormed {m : ExcludeMap}
    (hsize : (m.entries.reverse.flatMap entryWire).length < 2 ^ 64) : (toBlock m).WellFormed :=
  Block.reads_element (by simp [tlvExclude]) hsize

theorem wireDecode_toBlock {m : ExcludeMap} (hne : m.entries ≠ []) (henc : Encodable m.entries)
    (hsize : (m.entries.reverse.flatMap entryWire).length < 2 ^ 64) :
    wireDecode (toBlock m) = .ok m := by
  have hasc := ascending_reverse m
  have hwf := entryBlocks_wellFormed hsize
  have henc' : Encodable m.entries.reverse := fun e he => henc e (List.mem_reverse.mp he)
  have hfold := foldl_emplace_reverse (m := m)
  have hflat : m.entries.reverse.flatMap entryWire =
      (m.entries.reverse.flatMap entryBlocks).flatMap Block.wire := by
    rw [List.flatMap_assoc]
    exact List.flatMap_congr fun e _ => entryWire_eq e
  unfold wireDecode toBlock
  rw [if_neg (by simp)]
  dsimp only
  rw [Block.parse_eq_ok_iff.mpr ⟨hflat, hwf⟩]
  have hrev : m.entries.reverse ≠ [] := by simpa using hne
  generalize m.entries.reverse = l at hasc henc' hfold hrev ⊢
  cases l with
  | nil => exact absurd rfl hrev
  | cons e l =>
    obtain ⟨k, any⟩ := e
    obtain ⟨hk, -⟩ := List.pairwise_cons.mp hasc
    obtain ⟨⟨-, hbot⟩, hencl⟩ := List.forall_mem_cons.mp henc'
    have hl : ∀ e ∈ l, e.1 ≠ ⊥ := fun e he hb => not_lt_bot (hb ▸ hk e he)
    by_cases hkb : k = ⊥
    · subst hkb
      obtain rfl : any = true := hbot rfl
      have hblocks : ((⊥, true) :: l : List (ExcludeComponent × Bool)).flatMap entryBlocks =
          ⟨tlvAny, element tlvAny [], []⟩ :: l.flatMap entryBlocks := rfl
      rw [hblocks]
      dsimp only
      rw [if_pos rfl, decodeEntries_entries hencl hl]
      exact congrArg Except.ok hfold
    · obtain ⟨c, rfl⟩ := WithBot.ne_bot_iff_exists.mp hkb
      have hblocks : ((↑c, any) :: l : List (ExcludeComponent × Bool)).flatMap entryBlocks =
          c.toBlock :: ((if any then [⟨tlvAny, element tlvAny [], []⟩] else []) ++
            l.flatMap entryBlocks) := rfl
      have hdecode := decodeEntries_entries (m := DescMap.empty) henc'
        (List.forall_mem_cons.mpr ⟨hkb, hl⟩)
      rw [hblocks] at hdecode ⊢
      dsimp only
      rw [if_neg (toBlock_type_ne_any c), hdecode, hfold]

/-- A filter that is encoded is read back, from any buffer it starts, as it was. -/
theorem wireDecode_wireEncode {m : ExcludeMap} (hne : m.entries ≠ []) (henc : Encodable m.entries)
    (hsize : (m.entries.reverse.flatMap entryWire).length < 2 ^ 64) (rest : Bytes) :
    ∃ p b, wireEncode m = .ok p ∧ Block.fromBuffer (p.run ++ rest) = some (b, rest) ∧
      wireDecode b = .ok m := by
  have hok : wireEncode m = .ok _ := if_neg hne
  refine ⟨_, toBlock m, hok, ?_, wireDecode_toBlock hne henc hsize⟩
  rw [(writes_wireEncode hok).run, Block.fromBuffer_eq_some_iff]
  exact ⟨rfl, toBlock_wellFormed hsize⟩

/-! ### Filters made by calls -/

/-- The components of a call are valid. -/
def Call.Valid : Call → Prop
  | .excludeOne comp => comp.Valid
  | .excludeRange fromComp toComp => fromComp.Valid ∧ toComp.Valid
  | .excludeBefore toComp => toComp.Valid
  | .excludeAfter fromComp => fromComp.Valid

/-- The components of the entries are valid. -/
def EntriesValid (m : ExcludeMap) : Prop := ∀ e ∈ m, ∀ c, component e.1 = some c → c.Valid

theorem component_coe (c : Component) : component (c : ExcludeComponent) = some c := rfl

theorem entriesValid_rangeFrom {m : ExcludeMap} {fromComp : ExcludeComponent}
    (h : EntriesValid m) (hfrom : ∀ c, component fromComp = some c → c.Valid) :
    EntriesValid (rangeFrom m fromComp).1 := by
  obtain ⟨hnf, -, hbelow, habove, hlow, hstart⟩ := rangeFrom_spec m fromComp
  intro e he
  rcases lt_trichotomy e.1 (rangeFrom m fromComp).2 with hlt | heq | hgt
  · exact h e ((hlow e hlt).mp he)
  · rcases hstart with ⟨-, hm⟩ | ⟨hnf', -⟩
    · exact h e (hm ▸ he)
    · rw [heq, hnf']
      exact hfrom
  · refine h e ((habove e ?_).mp he)
    by_contra hle
    exact absurd (hbelow e he (not_lt.mp hle)) (not_le.mpr hgt)

theorem entriesValid_apply {m m' : ExcludeMap} {call : Call} (h : EntriesValid m)
    (hcall : call.Valid) (hok : call.apply m = .ok m') : EntriesValid m' := by
  have hcoe : ∀ {c : Component}, c.Valid → ∀ d, component (c : ExcludeComponent) = some d →
      d.Valid := by
    intro c hc d hd
    rw [component_coe] at hd
    exact Option.some.inj hd ▸ hc
  have hrange : ∀ (fromComp : ExcludeComponent) {toComp : Component},
      (∀ c, component fromComp = some c → c.Valid) → toComp.Valid →
      excludeRangeFrom m fromComp toComp = .ok m' → EntriesValid m' := by
    intro fromComp toComp hf ht hok
    obtain ⟨-, hmem⟩ := ranged_of_excludeRangeFrom hok
    intro e he
    rcases (hmem e).mp he with ⟨h', -⟩ | ⟨rfl, -⟩
    · exact entriesValid_rangeFrom h hf e h'
    · exact hcoe ht
  cases call with
  | excludeOne comp =>
    obtain rfl := Except.ok.inj hok
    unfold excludeOne
    split
    · exact h
    · intro e he
      rcases DescMap.mem_emplace.mp he with h' | ⟨rfl, -⟩
      · exact h e h'
      · exact hcoe hcall
  | excludeAfter fromComp =>
    obtain rfl := Except.ok.inj hok
    intro e he
    unfold excludeAfter at he
    exact entriesValid_rangeFrom h (hcoe hcall) e (DescMap.mem_eraseIf.mp he).1
  | excludeRange fromComp toComp => exact hrange fromComp (hcoe hcall.1) hcall.2 hok
  | excludeBefore toComp =>
    refine hrange ⊥ ?_ hcall hok
    intro c hc
    cases hc

theorem entriesValid_run {calls : List Call} {m : ExcludeMap} (h : run DescMap.empty calls = .ok m)
    (hvalid : ∀ call ∈ calls, call.Valid) : EntriesValid m := by
  induction calls using List.reverseRecOn generalizing m with
  | nil =>
    obtain rfl := Except.ok.inj h
    exact fun e he => absurd he (DescMap.not_mem_empty e)
  | append_singleton calls call ih =>
    obtain ⟨m'', hm'', hcall⟩ := run_concat h
    exact entriesValid_apply (ih hm'' fun c hc => hvalid c (List.mem_append_left _ hc))
      (hvalid call (by simp)) hcall

/-- Any filter that calls have made, and that is not empty, is read back from the wire as
it was. -/
theorem wireDecode_of_run {calls : List Call} {m : ExcludeMap}
    (h : run DescMap.empty calls = .ok m) (hvalid : ∀ call ∈ calls, call.Valid)
    (hne : m.entries ≠ []) (hsize : (m.entries.reverse.flatMap entryWire).length < 2 ^ 64)
    (rest : Bytes) :
    ∃ p b, wireEncode m = .ok p ∧ Block.fromBuffer (p.run ++ rest) = some (b, rest) ∧
      wireDecode b = .ok m :=
  wireDecode_wireEncode hne
    (fun e he => ⟨entriesValid_run h hvalid e he, botIsAny_run h e he⟩) hsize rest

theorem wireDecode_of_run_two : ∃ m p b,
    run DescMap.empty [.excludeBefore (octet 3), .excludeOne (octet 5)] = .ok m ∧
      wireEncode m = .ok p ∧ Block.fromBuffer (p.run ++ [0]) = some (b, [0]) ∧
      wireDecode b = .ok m := by
  obtain ⟨m, hm, hp⟩ := exists_ok_of_any
    (x := run DescMap.empty [.excludeBefore (octet 3), .excludeOne (octet 5)])
    (p := fun m => m.entries ≠ [] ∧ (m.entries.reverse.flatMap entryWire).length < 2 ^ 64)
    (by decide +kernel)
  obtain ⟨hne, hsize⟩ := of_decide_eq_true hp
  have hvalid : ∀ call ∈ [Call.excludeBefore (octet 3), .excludeOne (octet 5)], call.Valid := by
    intro call hmem
    simp only [List.mem_cons, List.not_mem_nil, or_false] at hmem
    rcases hmem with rfl | rfl
    · exact (by decide : (octet 3).Valid)
    · exact (by decide : (octet 5).Valid)
  obtain ⟨p, b, hp, hread, hdecode⟩ := wireDecode_of_run hm hvalid hne hsize [0]
  exact ⟨m, p, b, hm, hp, hread, hdecode⟩

end Exclude
end Ndn
end IcnDemo
