/-
# Exclude filters

`Exclude` holds a map from components, and minus infinity, to whether all
components up to the next one are excluded too. The keys are ordered by
`Component::compare`, which is the canonical order for components in the encoding of
this library (`Stored.compare_compares`): with the shortest codes of type and length,
and fewer than 2^31 octets. The map is modelled for these. A component that was
received in longer codes, such as 08 FD 00 01 41, is ordered by its wire in the source,
and the results here do not speak of it.

`excludeOne`, `excludeAfter` and `excludeRange` add a component, a ray and a range to
what is excluded (`isExcluded_excludeOne`, `isExcluded_excludeAfter`,
`isExcluded_excludeRange`), except that a range inside one that is excluded already
cuts off what follows it there. So no calls exclude more than they were asked to
(`excluded_of_run`), and exactly that if no range starts and ends inside another
(`isExcluded_run_iff`).
-/
import IcnDemo.Lib.OrderedMap
import IcnDemo.Ndn.Order
import Mathlib.Order.WithBot

namespace IcnDemo
namespace Ndn
namespace Exclude

open Lib.OrderedMap Lib.Loop

/-- A component or negative infinity. -/
abbrev ExcludeComponent := WithBot Component

/-- The entries: whether all up to the next entry is excluded too (`ANY`). The keys are in
the canonical order, which is that of the source for the shortest wires. -/
abbrev ExcludeMap := DescMap ExcludeComponent Bool

/-- A text of bytes. -/
def text (bytes : Bytes) : String := String.ofList (bytes.map fun b => Char.ofNat b.toNat)

def isExcluded (entries : ExcludeMap) (comp : Component) : Bool :=
  match entries.lowerBound comp with
  | none => false
  | some lb => lb.2 || lb.1 = (comp : ExcludeComponent)

def excludeOne (entries : ExcludeMap) (comp : Component) : ExcludeMap :=
  if isExcluded entries comp then entries else entries.emplace comp false

/-- The start of a range: the entries with it, and where `newFrom` is. If there is an
entry at `fromComp`, `emplace` keeps it and its flag is set. -/
def rangeFrom (entries : ExcludeMap) (fromComp : ExcludeComponent) :
    ExcludeMap × ExcludeComponent :=
  match entries.lowerBound fromComp with
  | some (newFrom, true) => (entries, newFrom)
  | _ => ((entries.emplace fromComp true).assign fromComp true, fromComp)

/-- `m_entries.erase(newTo, newFrom)` -/
def eraseRange (entries : ExcludeMap) (newTo newFrom : ExcludeComponent) : ExcludeMap :=
  entries.eraseIf fun k => newFrom < k ∧ k ≤ newTo

/-- `excludeRange(const ExcludeComponent& from, const name::Component& to)` -/
def excludeRangeFrom (entries : ExcludeMap) (fromComp : ExcludeComponent) (toComp : Component) :
    Except Error ExcludeMap :=
  if (toComp : ExcludeComponent) ≤ fromComp then
    .error ("Invalid exclude range [" ++ text (fromComp.recBotCoe [] Component.toUri) ++ ", " ++
      text toComp.toUri ++ "] (for single name exclude use Exclude::excludeOne)")
  else
    let r := rangeFrom entries fromComp
    match r.1.lowerBound toComp with
    | none => .error "newTo != m_entries.end()"
    | some (newTo, any) =>
      if newTo = r.2 ∨ any = false then
        let entries := r.1.emplace toComp false
        match entries.next toComp with
        | none => .ok entries
        | some (newTo, _) => .ok (eraseRange entries newTo r.2)
      else .ok (eraseRange r.1 newTo r.2)

def excludeRange (entries : ExcludeMap) (fromComp toComp : Component) : Except Error ExcludeMap :=
  excludeRangeFrom entries fromComp toComp

def excludeBefore (entries : ExcludeMap) (toComp : Component) : Except Error ExcludeMap :=
  excludeRangeFrom entries ⊥ toComp

def excludeAfter (entries : ExcludeMap) (fromComp : Component) : ExcludeMap :=
  let r := rangeFrom entries fromComp
  r.1.eraseIf fun k => r.2 < k

/-! ### What is excluded -/

/-- The point is an entry, or follows one with `ANY`. -/
def Covers (entries : ExcludeMap) (c : ExcludeComponent) : Prop :=
  ∃ e, entries.lowerBound c = some e ∧ (e.2 = true ∨ e.1 = c)

theorem isExcluded_iff {entries : ExcludeMap} {comp : Component} :
    isExcluded entries comp = true ↔ Covers entries comp := by
  unfold isExcluded Covers
  cases entries.lowerBound comp <;> simp

theorem covers_congr {m m' : ExcludeMap} {c : ExcludeComponent}
    (h : ∀ e : ExcludeComponent × Bool, e.1 ≤ c → (e ∈ m ↔ e ∈ m')) :
    Covers m c ↔ Covers m' c := by
  unfold Covers
  rw [DescMap.lowerBound_congr h]

/-- Where no entry lies above `p` and up to `c`, a range that holds `p` goes on to `c`. -/
theorem covers_of_gap {m : ExcludeMap} {p c : ExcludeComponent} (hpc : p < c)
    (hgap : ∀ e ∈ m, e.1 ≤ c → e.1 ≤ p) : Covers m c ↔ ∃ k, m.lowerBound p = some (k, true) := by
  unfold Covers
  rw [DescMap.lowerBound_of_gap (le_of_lt hpc) hgap]
  constructor
  · rintro ⟨⟨k, any⟩, hlb, hany | heq⟩
    · obtain rfl : any = true := hany
      exact ⟨k, hlb⟩
    · obtain rfl : k = c := heq
      exact absurd (DescMap.lowerBound_eq_some_iff.mp hlb).2.1 (not_le.mpr hpc)
  · rintro ⟨k, hlb⟩
    exact ⟨(k, true), hlb, .inl rfl⟩

theorem covers_excludeOne {m : ExcludeMap} {comp : Component} {c : ExcludeComponent} :
    Covers (excludeOne m comp) c ↔ Covers m c ∨ c = comp := by
  unfold excludeOne
  by_cases h : isExcluded m comp = true
  · rw [if_pos h]
    constructor
    · exact .inl
    · rintro (hc | rfl)
      · exact hc
      · exact isExcluded_iff.mp h
  · rw [if_neg h]
    have hno : ¬ Covers m comp := fun hc => h (isExcluded_iff.mpr hc)
    have hfresh : ∀ e ∈ m, e.1 ≠ (comp : ExcludeComponent) := by
      intro e he hk
      apply hno
      exact ⟨e, DescMap.lowerBound_eq_some_iff.mpr ⟨he, le_of_eq hk, fun _ _ h => hk ▸ h⟩, .inr hk⟩
    have hmem : ∀ e : ExcludeComponent × Bool,
        e ∈ m.emplace comp false ↔ e ∈ m ∨ e = (↑comp, false) := by
      intro e
      rw [DescMap.mem_emplace]
      exact or_congr_right (and_iff_left hfresh)
    rcases lt_trichotomy c (comp : ExcludeComponent) with hlt | rfl | hgt
    · rw [or_iff_left (ne_of_lt hlt)]
      apply covers_congr
      intro e he
      rw [hmem, or_iff_left]
      rintro rfl
      exact absurd hlt (not_lt.mpr he)
    · refine iff_of_true ?_ (.inr rfl)
      exact ⟨(↑comp, false), DescMap.lowerBound_eq_some_iff.mpr
        ⟨(hmem _).mpr (.inr rfl), le_refl _, fun _ _ h => h⟩, .inr rfl⟩
    · rw [or_iff_left (ne_of_gt hgt)]
      have habove : ∀ e : ExcludeComponent × Bool, (comp : ExcludeComponent) < e.1 →
          (e ∈ m.emplace comp false ↔ e ∈ m) := by
        intro e hlt
        rw [hmem, or_iff_left]
        rintro rfl
        exact lt_irrefl _ hlt
      by_cases hbetween : ∃ e ∈ m, (comp : ExcludeComponent) < e.1 ∧ e.1 ≤ c
      · obtain ⟨e, he, hce, hec⟩ := hbetween
        obtain ⟨e', -, hold, hnew⟩ := DescMap.lowerBound_above he hce hec habove
        unfold Covers
        rw [hold, hnew]
      · have hgap : ∀ e ∈ m, e.1 ≤ c → e.1 ≤ (comp : ExcludeComponent) :=
          fun e he hle => not_lt.mp fun hlt => hbetween ⟨e, he, hlt, hle⟩
        have hgap' : ∀ e ∈ m.emplace comp false, e.1 ≤ c → e.1 ≤ (comp : ExcludeComponent) := by
          intro e he hle
          by_contra hlt
          exact hlt (hgap e ((habove e (not_le.mp hlt)).mp he) hle)
        have hnew : (m.emplace comp false).lowerBound comp = some (↑comp, false) :=
          DescMap.lowerBound_eq_some_iff.mpr ⟨(hmem _).mpr (.inr rfl), le_refl _, fun _ _ h => h⟩
        rw [covers_of_gap hgt hgap, covers_of_gap hgt hgap', hnew]
        refine iff_of_false (by simp) ?_
        rintro ⟨k, hk⟩
        exact hno ⟨_, hk, .inl rfl⟩

/-- What the start of a range leaves of the entries: it is in a range that is there, or an
entry of its own. -/
structure Started (m : ExcludeMap) (start : ExcludeComponent)
    (r : ExcludeMap × ExcludeComponent) : Prop where
  mem : (r.2, true) ∈ r.1
  le : r.2 ≤ start
  below : ∀ e ∈ r.1, e.1 ≤ start → e.1 ≤ r.2
  above : ∀ e : ExcludeComponent × Bool, start < e.1 → (e ∈ r.1 ↔ e ∈ m)
  low : ∀ e : ExcludeComponent × Bool, e.1 < r.2 → (e ∈ r.1 ↔ e ∈ m)
  start : (m.lowerBound start = some (r.2, true) ∧ r.1 = m) ∨
    (r.2 = start ∧ ∀ k, m.lowerBound start ≠ some (k, true))

theorem rangeFrom_spec (m : ExcludeMap) (start : ExcludeComponent) :
    Started m start (rangeFrom m start) := by
  have hnew : (∀ k, m.lowerBound start ≠ some (k, true)) →
      rangeFrom m start = ((m.emplace start true).assign start true, start) := by
    intro h
    unfold rangeFrom
    split
    · rename_i k hk
      exact absurd hk (h k)
    · rfl
  by_cases h : ∃ k, m.lowerBound start = some (k, true)
  · obtain ⟨k, hk⟩ := h
    obtain ⟨hmem, hle, hmax⟩ := DescMap.lowerBound_eq_some_iff.mp hk
    have heq : rangeFrom m start = (m, k) := by
      unfold rangeFrom
      rw [hk]
    rw [heq]
    exact ⟨hmem, hle, hmax, fun _ _ => Iff.rfl, fun _ _ => Iff.rfl, .inl ⟨hk, rfl⟩⟩
  · have h' : ∀ k, m.lowerBound start ≠ some (k, true) := fun k hk => h ⟨k, hk⟩
    rw [hnew h']
    have hmem : ∀ e : ExcludeComponent × Bool,
        e ∈ (m.emplace start true).assign start true ↔
          (e ∈ m ∧ e.1 ≠ start) ∨ e = (start, true) := by
      intro e
      rw [DescMap.mem_assign]
      simp only [DescMap.mem_emplace]
      constructor
      · rintro (⟨he | ⟨rfl, -⟩, hne⟩ | ⟨rfl, -⟩)
        · exact .inl ⟨he, hne⟩
        · exact absurd rfl hne
        · exact .inr rfl
      · rintro (⟨he, hne⟩ | rfl)
        · exact .inl ⟨.inl he, hne⟩
        · right
          refine ⟨rfl, ?_⟩
          by_cases hex : ∃ e' ∈ m, e'.1 = start
          · obtain ⟨e', he', hk⟩ := hex
            exact ⟨e', .inl he', hk⟩
          · exact ⟨(start, true), .inr ⟨rfl, fun e' he' hk => hex ⟨e', he', hk⟩⟩, rfl⟩
    refine ⟨(hmem _).mpr (.inr rfl), le_refl _, fun e _ hle => hle, ?_, ?_, .inr ⟨rfl, h'⟩⟩
    · intro e hlt
      rw [hmem]
      constructor
      · rintro (⟨he, -⟩ | rfl)
        · exact he
        · exact absurd hlt (lt_irrefl _)
      · exact fun he => .inl ⟨he, ne_of_gt hlt⟩
    · intro e hlt
      rw [hmem]
      constructor
      · rintro (⟨he, -⟩ | rfl)
        · exact he
        · exact absurd hlt (lt_irrefl _)
      · exact fun he => .inl ⟨he, ne_of_lt hlt⟩

/-- The end of the range lies in another range, which the new one then runs into. -/
def Swallowed (r : ExcludeMap × ExcludeComponent) (toComp : Component) : Prop :=
  ∃ newTo, newTo ≠ r.2 ∧ r.1.lowerBound toComp = some (newTo, true)

/-- What the entries are once a range is added: those outside it, and its end. -/
def Ranged (m : ExcludeMap) (fromComp : ExcludeComponent) (toComp : Component) (m' : ExcludeMap) :
    Prop :=
  ∀ e : ExcludeComponent × Bool, e ∈ m' ↔
    (e ∈ (rangeFrom m fromComp).1 ∧
      (e.1 ≤ (rangeFrom m fromComp).2 ∨ (toComp : ExcludeComponent) < e.1)) ∨
    (e = (↑toComp, false) ∧ ¬ Swallowed (rangeFrom m fromComp) toComp)

/-- `emplace` at the end of a range puts in an entry, or keeps one whose flag is not set. -/
theorem mem_emplace_end {m : ExcludeMap} {toComp newTo : ExcludeComponent} {any : Bool}
    (hlb : m.lowerBound toComp = some (newTo, any)) (hcut : newTo ≠ toComp ∨ any = false)
    (e : ExcludeComponent × Bool) :
    e ∈ m.emplace toComp false ↔ e ∈ m ∨ e = (toComp, false) := by
  obtain ⟨hmem, hto, hmax⟩ := DescMap.lowerBound_eq_some_iff.mp hlb
  rw [DescMap.mem_emplace]
  constructor
  · rintro (he | ⟨rfl, -⟩)
    · exact .inl he
    · exact .inr rfl
  · rintro (he | rfl)
    · exact .inl he
    · by_cases hex : ∃ e' ∈ m, e'.1 = toComp
      · obtain ⟨e', he', hk⟩ := hex
        left
        have hkey : newTo = toComp := le_antisymm hto (hk ▸ hmax e' he' (le_of_eq hk))
        have hany : any = false := hcut.resolve_left (not_not.mpr hkey)
        rw [← hkey, ← hany]
        exact hmem
      · exact .inr ⟨rfl, fun e' he' hk => hex ⟨e', he', hk⟩⟩

/-- What `eraseRange` leaves where the end is an entry: it erases from the entry before. -/
theorem mem_eraseRange_next {m1 m2 : ExcludeMap} {newFrom toComp : ExcludeComponent}
    (hnf : (newFrom, true) ∈ m1) (hlt : newFrom < toComp)
    (hm2 : ∀ e : ExcludeComponent × Bool, e ∈ m2 ↔ e ∈ m1 ∨ e = (toComp, false)) :
    ∃ newTo, m2.next toComp = some newTo ∧ ∀ e : ExcludeComponent × Bool,
      e ∈ eraseRange m2 newTo.1 newFrom ↔
        (e ∈ m1 ∧ (e.1 ≤ newFrom ∨ toComp < e.1)) ∨ e = (toComp, false) := by
  cases hnext : m2.next toComp with
  | none =>
    have := List.find?_eq_none.mp hnext (newFrom, true) ((hm2 _).mpr (.inl hnf))
    simp [hlt] at this
  | some newTo =>
    obtain ⟨-, hklt, hkmax⟩ := DescMap.next_eq_some_iff.mp hnext
    refine ⟨newTo, rfl, fun e => ?_⟩
    unfold eraseRange
    rw [DescMap.mem_eraseIf]
    simp only [decide_eq_false_iff_not, not_and, not_le]
    constructor
    · rintro ⟨he, hout⟩
      rcases (hm2 e).mp he with h | rfl
      · by_cases hlow : e.1 ≤ newFrom
        · exact .inl ⟨h, .inl hlow⟩
        · have hk := hout (not_le.mp hlow)
          rcases lt_trichotomy e.1 toComp with h' | h' | h'
          · exact absurd (hkmax e he h') (not_le.mpr hk)
          · exact .inr (DescMap.eq_of_key_eq he ((hm2 _).mpr (.inr rfl)) h')
          · exact .inl ⟨h, .inr h'⟩
      · exact .inr rfl
    · rintro (⟨h, hlow | hhigh⟩ | rfl)
      · exact ⟨(hm2 e).mpr (.inl h), fun h' => absurd hlow (not_le.mpr h')⟩
      · exact ⟨(hm2 e).mpr (.inl h), fun _ => lt_trans hklt hhigh⟩
      · exact ⟨(hm2 _).mpr (.inr rfl), fun _ => hklt⟩

/-- What it leaves where the end lies in another range: it erases from that range's entry. -/
theorem mem_eraseRange_swallowed {m : ExcludeMap} {newFrom toComp newTo : ExcludeComponent}
    {any : Bool} (hlb : m.lowerBound toComp = some (newTo, any)) (e : ExcludeComponent × Bool) :
    e ∈ eraseRange m newTo newFrom ↔ e ∈ m ∧ (e.1 ≤ newFrom ∨ toComp < e.1) := by
  obtain ⟨-, hto, hmax⟩ := DescMap.lowerBound_eq_some_iff.mp hlb
  unfold eraseRange
  rw [DescMap.mem_eraseIf]
  simp only [decide_eq_false_iff_not, not_and, not_le]
  refine and_congr_right fun he => ?_
  constructor
  · intro hout
    by_cases hlow : e.1 ≤ newFrom
    · exact .inl hlow
    · right
      by_contra hhigh
      exact absurd (hmax e he (not_lt.mp hhigh)) (not_le.mpr (hout (not_le.mp hlow)))
  · rintro (hlow | hhigh)
    · exact fun h' => absurd hlow (not_le.mpr h')
    · exact fun _ => lt_of_le_of_lt hto hhigh

theorem excludeRangeFrom_spec {m : ExcludeMap} {fromComp : ExcludeComponent} {toComp : Component}
    (h : fromComp < toComp) :
    ∃ m', excludeRangeFrom m fromComp toComp = .ok m' ∧ Ranged m fromComp toComp m' := by
  obtain ⟨hnf, hle, -⟩ := rangeFrom_spec m fromComp
  unfold excludeRangeFrom Ranged Swallowed
  rw [if_neg (not_le.mpr h)]
  dsimp only
  generalize rangeFrom m fromComp = r at hnf hle ⊢
  obtain ⟨m1, newFrom⟩ := r
  simp only at hnf hle ⊢
  have hlt : newFrom < (toComp : ExcludeComponent) := lt_of_le_of_lt hle h
  obtain ⟨⟨newTo, any⟩, hlb, -⟩ := DescMap.exists_lowerBound hnf (le_of_lt hlt)
  rw [hlb]
  dsimp only
  by_cases hcut : newTo = newFrom ∨ any = false
  · have hnot : ¬ ∃ k, k ≠ newFrom ∧ some (newTo, any) = some (k, true) := by
      rintro ⟨k, hk, heq⟩
      obtain ⟨rfl, rfl⟩ := Prod.mk.inj (Option.some.inj heq)
      rcases hcut with h | h
      · exact hk h
      · cases h
    have hend : newTo ≠ ↑toComp ∨ any = false := by
      rcases hcut with rfl | h
      · exact .inl (ne_of_lt hlt)
      · exact .inr h
    obtain ⟨e, hnext, hmem⟩ := mem_eraseRange_next hnf hlt (mem_emplace_end hlb hend)
    rw [if_pos hcut, hnext]
    refine ⟨_, rfl, fun e => ?_⟩
    rw [hmem, and_iff_left hnot]
  · obtain ⟨hne, hany⟩ := not_or.mp hcut
    obtain rfl : any = true := by simpa using hany
    have hsw : ∃ k, k ≠ newFrom ∧ some (newTo, true) = some (k, true) := ⟨newTo, hne, rfl⟩
    rw [if_neg hcut]
    refine ⟨_, rfl, fun e => ?_⟩
    rw [mem_eraseRange_swallowed hlb]
    exact (or_iff_left fun h' => h'.2 hsw).symm

theorem ranged_of_excludeRangeFrom {m m' : ExcludeMap} {fromComp : ExcludeComponent}
    {toComp : Component} (h : excludeRangeFrom m fromComp toComp = .ok m') :
    fromComp < toComp ∧ Ranged m fromComp toComp m' := by
  have hlt : fromComp < (toComp : ExcludeComponent) := by
    by_contra hnot
    have herr : excludeRangeFrom m fromComp toComp = _ := if_pos (not_lt.mp hnot)
    rw [herr] at h
    cases h
  obtain ⟨m'', hm'', hmem⟩ := excludeRangeFrom_spec (m := m) hlt
  obtain rfl := Except.ok.inj (hm''.symm.trans h)
  exact ⟨hlt, hmem⟩

/-- One range with `ANY` holds the start and the end of the new one, and goes on to `c`. -/
def CutOff (m : ExcludeMap) (fromComp toComp c : ExcludeComponent) : Prop :=
  toComp < c ∧ ∃ k, m.lowerBound fromComp = some (k, true) ∧ m.lowerBound toComp = some (k, true) ∧
    m.lowerBound c = some (k, true)

section Range

variable {m m' : ExcludeMap} {fromComp : ExcludeComponent} {toComp : Component}
  {c : ExcludeComponent}

/-- From the entry of the start to the start, all was covered before. -/
theorem Started.covers {r : ExcludeMap × ExcludeComponent} (hr : Started m fromComp r)
    (hc : r.2 ≤ c) (hcf : c < fromComp) : Covers m c := by
  rcases hr.start with ⟨hlb, -⟩ | ⟨heq, -⟩
  · obtain ⟨hmem, -, hmax⟩ := DescMap.lowerBound_eq_some_iff.mp hlb
    exact ⟨(r.2, true), DescMap.lowerBound_eq_some_iff.mpr
      ⟨hmem, hc, fun e he hec => hmax e he (le_trans hec (le_of_lt hcf))⟩, .inl rfl⟩
  · exact absurd hc (not_le.mpr (heq ▸ hcf))

/-- The end is swallowed by a range that starts in the new one. -/
theorem swallowed_iff (h : fromComp < toComp) : Swallowed (rangeFrom m fromComp) toComp ↔
    ∃ k, fromComp < k ∧ m.lowerBound toComp = some (k, true) := by
  have hr := rangeFrom_spec m fromComp
  have hto : (rangeFrom m fromComp).2 ≤ toComp := le_of_lt (lt_of_le_of_lt hr.le h)
  constructor
  · rintro ⟨k, hk, hlb⟩
    obtain ⟨hmem, hkt, hmax⟩ := DescMap.lowerBound_eq_some_iff.mp hlb
    have hfk : fromComp < k := by
      by_contra hkf
      exact hk (le_antisymm (hr.below _ hmem (not_lt.mp hkf)) (hmax _ hr.mem hto))
    have habove : ∀ e : ExcludeComponent × Bool, fromComp < e.1 →
        (e ∈ m ↔ e ∈ (rangeFrom m fromComp).1) := fun e he => (hr.above e he).symm
    obtain ⟨e, -, hnew, hold⟩ := DescMap.lowerBound_above hmem hfk hkt habove
    exact ⟨k, hfk, hold.trans (hnew.symm.trans hlb)⟩
  · rintro ⟨k, hfk, hlb⟩
    obtain ⟨hmem, hkt, -⟩ := DescMap.lowerBound_eq_some_iff.mp hlb
    obtain ⟨e, -, hold, hnew⟩ := DescMap.lowerBound_above hmem hfk hkt hr.above
    exact ⟨k, ne_of_gt (lt_of_le_of_lt hr.le hfk), hnew.trans (hold.symm.trans hlb)⟩

/-- Before the range the entries are those that were there. -/
theorem covers_before_range (h : fromComp < toComp) (hm' : Ranged m fromComp toComp m')
    (hc : c < (rangeFrom m fromComp).2) : Covers m' c ↔ Covers m c := by
  have hr := rangeFrom_spec m fromComp
  apply covers_congr
  intro e he
  have hlt : e.1 < (rangeFrom m fromComp).2 := lt_of_le_of_lt he hc
  rw [hm' e, hr.low e hlt]
  constructor
  · rintro (⟨he, -⟩ | ⟨rfl, -⟩)
    · exact he
    · exact absurd hlt (lt_asymm (lt_of_le_of_lt hr.le h))
  · exact fun he => .inl ⟨he, .inl (le_of_lt hlt)⟩

/-- In the range its first entry decides, and at its end the last. -/
theorem covers_in_range (hm' : Ranged m fromComp toComp m')
    (hc : (rangeFrom m fromComp).2 ≤ c) (hct : c ≤ toComp) : Covers m' c := by
  have hr := rangeFrom_spec m fromComp
  by_cases hlast : c = toComp ∧ (↑toComp, false) ∈ m'
  · obtain ⟨rfl, hmem⟩ := hlast
    exact ⟨_, DescMap.lowerBound_eq_some_iff.mpr ⟨hmem, le_refl _, fun _ _ h => h⟩, .inr rfl⟩
  · refine ⟨(_, true), DescMap.lowerBound_eq_some_iff.mpr ⟨?_, hc, ?_⟩, .inl rfl⟩
    · exact (hm' _).mpr (.inl ⟨hr.mem, .inl (le_refl _)⟩)
    · intro e he hec
      rcases (hm' e).mp he with ⟨-, hl | hh⟩ | ⟨rfl, -⟩
      · exact hl
      · exact absurd (lt_of_lt_of_le hh hec) (not_lt.mpr hct)
      · exact absurd ⟨le_antisymm hct hec, he⟩ hlast

/-- After the range the entries are those that were there. -/
theorem mem_after_range (h : fromComp < toComp) (hm' : Ranged m fromComp toComp m')
    {e : ExcludeComponent × Bool} (he : (toComp : ExcludeComponent) < e.1) : e ∈ m' ↔ e ∈ m := by
  rw [hm' e, (rangeFrom_spec m fromComp).above e (lt_trans h he)]
  constructor
  · rintro (⟨hmem, -⟩ | ⟨rfl, -⟩)
    · exact hmem
    · exact absurd he (lt_irrefl _)
  · exact fun hmem => .inl ⟨hmem, .inr he⟩

/-- The range goes on after its end only where that was swallowed. -/
theorem goes_on_iff (h : fromComp < toComp) (hm' : Ranged m fromComp toComp m') :
    (∃ k, m'.lowerBound toComp = some (k, true)) ↔ Swallowed (rangeFrom m fromComp) toComp := by
  have hr := rangeFrom_spec m fromComp
  by_cases hsw : Swallowed (rangeFrom m fromComp) toComp
  · refine iff_of_true
      ⟨(rangeFrom m fromComp).2, DescMap.lowerBound_eq_some_iff.mpr ⟨?_, ?_, ?_⟩⟩ hsw
    · exact (hm' _).mpr (.inl ⟨hr.mem, .inl (le_refl _)⟩)
    · exact le_of_lt (lt_of_le_of_lt hr.le h)
    · intro e he het
      rcases (hm' e).mp he with ⟨-, hl | hh⟩ | ⟨-, hno⟩
      · exact hl
      · exact absurd het (not_le.mpr hh)
      · exact absurd hsw hno
  · have hlast : m'.lowerBound toComp = some (↑toComp, false) :=
      DescMap.lowerBound_eq_some_iff.mpr ⟨(hm' _).mpr (.inr ⟨rfl, hsw⟩), le_refl _, fun _ _ h => h⟩
    rw [hlast]
    exact iff_of_false (by simp) hsw

/-- What goes on after the end and is not cut off starts in the range. -/
theorem swallowed_iff_not_cutOff (h : fromComp < toComp) (hct : (toComp : ExcludeComponent) < c)
    (hgap : ∀ e ∈ m, e.1 ≤ c → e.1 ≤ (toComp : ExcludeComponent)) :
    Swallowed (rangeFrom m fromComp) toComp ↔
      Covers m c ∧ ¬ CutOff m fromComp toComp c := by
  have hlbc := DescMap.lowerBound_of_gap (le_of_lt hct) hgap
  rw [swallowed_iff h, covers_of_gap hct hgap]
  constructor
  · rintro ⟨k, hfk, hlb⟩
    refine ⟨⟨k, hlb⟩, ?_⟩
    rintro ⟨-, k', hkf, hkt, -⟩
    rw [hlb] at hkt
    obtain ⟨rfl, -⟩ := Prod.mk.inj (Option.some.inj hkt)
    exact absurd (DescMap.lowerBound_eq_some_iff.mp hkf).2.1 (not_le.mpr hfk)
  · rintro ⟨⟨k, hlb⟩, hcut⟩
    refine ⟨k, ?_, hlb⟩
    by_contra hkf
    obtain ⟨hmem, -, hmax⟩ := DescMap.lowerBound_eq_some_iff.mp hlb
    have hlbf : m.lowerBound fromComp = some (k, true) := DescMap.lowerBound_eq_some_iff.mpr
      ⟨hmem, not_lt.mp hkf, fun e he hef => hmax e he (le_trans hef (le_of_lt h))⟩
    exact hcut ⟨hct, k, hlbf, hlb, hlbc.trans hlb⟩

/-- After the range what was covered is, unless it is cut off. -/
theorem covers_after_range (h : fromComp < toComp) (hm' : Ranged m fromComp toComp m')
    (hct : (toComp : ExcludeComponent) < c) :
    Covers m' c ↔ Covers m c ∧ ¬ CutOff m fromComp toComp c := by
  by_cases hbetween : ∃ e ∈ m, (toComp : ExcludeComponent) < e.1 ∧ e.1 ≤ c
  · -- another entry decides, as before
    obtain ⟨e, he, hte, hec⟩ := hbetween
    obtain ⟨e', hte', hold, hnew⟩ :=
      DescMap.lowerBound_above he hte hec fun e he => mem_after_range h hm' he
    have hcut : ¬ CutOff m fromComp toComp c := by
      rintro ⟨-, k, -, hkt, hkc⟩
      rw [hold] at hkc
      obtain rfl := Option.some.inj hkc
      exact absurd (DescMap.lowerBound_eq_some_iff.mp hkt).2.1 (not_le.mpr hte')
    rw [and_iff_left hcut]
    unfold Covers
    rw [hold, hnew]
  · have hgap : ∀ e ∈ m, e.1 ≤ c → e.1 ≤ (toComp : ExcludeComponent) :=
      fun e he hec => not_lt.mp fun hlt => hbetween ⟨e, he, hlt, hec⟩
    have hgap' : ∀ e ∈ m', e.1 ≤ c → e.1 ≤ (toComp : ExcludeComponent) := by
      intro e he hec
      by_contra hlt
      exact hlt (hgap e ((mem_after_range h hm' (not_le.mp hlt)).mp he) hec)
    rw [covers_of_gap hct hgap', goes_on_iff h hm', swallowed_iff_not_cutOff h hct hgap]

theorem covers_of_range (h : fromComp < toComp) (hm' : Ranged m fromComp toComp m')
    (c : ExcludeComponent) :
    Covers m' c ↔ (Covers m c ∨ (fromComp ≤ c ∧ c ≤ toComp)) ∧ ¬ CutOff m fromComp toComp c := by
  have hr := rangeFrom_spec m fromComp
  rcases lt_or_ge c (rangeFrom m fromComp).2 with hc | hc
  · have hno : ¬ (fromComp ≤ c ∧ c ≤ (toComp : ExcludeComponent)) :=
      fun h' => absurd (le_trans hr.le h'.1) (not_le.mpr hc)
    have hcut : ¬ CutOff m fromComp toComp c :=
      fun h' => absurd (lt_trans (lt_of_le_of_lt hr.le h) h'.1) (lt_asymm hc)
    rw [or_iff_left hno, and_iff_left hcut]
    exact covers_before_range h hm' hc
  rcases le_or_gt c (toComp : ExcludeComponent) with hct | hct
  · have hcut : ¬ CutOff m fromComp toComp c := fun h' => absurd h'.1 (not_lt.mpr hct)
    refine iff_of_true (covers_in_range hm' hc hct) ⟨?_, hcut⟩
    rcases le_or_gt fromComp c with hfc | hcf
    · exact .inr ⟨hfc, hct⟩
    · exact .inl (hr.covers hc hcf)
  · have hno : ¬ (fromComp ≤ c ∧ c ≤ (toComp : ExcludeComponent)) :=
      fun h' => absurd h'.2 (not_le.mpr hct)
    rw [or_iff_left hno]
    exact covers_after_range h hm' hct

end Range

theorem covers_excludeAfter {m : ExcludeMap} {fromComp : Component} {c : ExcludeComponent} :
    Covers (excludeAfter m fromComp) c ↔ Covers m c ∨ (fromComp : ExcludeComponent) ≤ c := by
  have hr := rangeFrom_spec m fromComp
  have hm' : ∀ e : ExcludeComponent × Bool, e ∈ excludeAfter m fromComp ↔
      e ∈ (rangeFrom m fromComp).1 ∧ e.1 ≤ (rangeFrom m fromComp).2 := by
    intro e
    unfold excludeAfter
    rw [DescMap.mem_eraseIf]
    simp
  rcases lt_or_ge c (rangeFrom m fromComp).2 with hc | hc
  · rw [or_iff_left (not_le.mpr (lt_of_lt_of_le hc hr.le))]
    apply covers_congr
    intro e he
    have hlt : e.1 < (rangeFrom m fromComp).2 := lt_of_le_of_lt he hc
    rw [hm', hr.low e hlt, and_iff_left (le_of_lt hlt)]
  · refine iff_of_true ?_ ?_
    · refine ⟨(_, true), DescMap.lowerBound_eq_some_iff.mpr ⟨?_, hc, ?_⟩, .inl rfl⟩
      · exact (hm' _).mpr ⟨hr.mem, le_refl _⟩
      · exact fun e he _ => ((hm' e).mp he).2
    · rcases le_or_gt (fromComp : ExcludeComponent) c with hfc | hcf
      · exact .inr hfc
      · exact .inl (hr.covers hc hcf)

/-! ### Calls -/

/-- The calls that add to what is excluded. -/
inductive Call
  | excludeOne (comp : Component)
  | excludeRange (fromComp toComp : Component)
  | excludeBefore (toComp : Component)
  | excludeAfter (fromComp : Component)

/-- What a call asks to exclude. -/
def Call.Asks : Call → Component → Prop
  | .excludeOne comp, c => c = comp
  | .excludeRange fromComp toComp, c => fromComp ≤ c ∧ c ≤ toComp
  | .excludeBefore toComp, c => c ≤ toComp
  | .excludeAfter fromComp, c => fromComp ≤ c

/-- The call is for a range with an end. -/
def Call.isRange : Call → Bool
  | .excludeRange _ _ | .excludeBefore _ => true
  | .excludeOne _ | .excludeAfter _ => false

def Call.apply (entries : ExcludeMap) : Call → Except Error ExcludeMap
  | .excludeOne comp => .ok (Exclude.excludeOne entries comp)
  | .excludeRange fromComp toComp => Exclude.excludeRange entries fromComp toComp
  | .excludeBefore toComp => Exclude.excludeBefore entries toComp
  | .excludeAfter fromComp => .ok (Exclude.excludeAfter entries fromComp)

/-- The calls in order. -/
def run (entries : ExcludeMap) (calls : List Call) : Except Error ExcludeMap :=
  calls.foldlM Call.apply entries

/-- **What a range excludes**: what was excluded and the range, except for what follows the
range where it starts and ends inside one that was there. -/
theorem isExcluded_excludeRange {m : ExcludeMap} {fromComp toComp : Component}
    (h : fromComp < toComp) : ∃ m', excludeRange m fromComp toComp = .ok m' ∧
    ∀ c : Component, isExcluded m' c = true ↔
      (isExcluded m c = true ∨ (fromComp ≤ c ∧ c ≤ toComp)) ∧
        ¬ CutOff m fromComp toComp c := by
  have h' : (fromComp : ExcludeComponent) < toComp := WithBot.coe_lt_coe.mpr h
  obtain ⟨m', hm', hmem⟩ := excludeRangeFrom_spec (m := m) h'
  refine ⟨m', hm', fun c => ?_⟩
  rw [isExcluded_iff, isExcluded_iff, covers_of_range h' hmem, WithBot.coe_le_coe,
    WithBot.coe_le_coe]

/-- A component of one octet. -/
def octet (b : UInt8) : Component := ⟨.nameComponent, [b]⟩

/-- A range inside another ends what was excluded after it. -/
theorem isExcluded_excludeRange_inside : ∃ m m',
    excludeRange DescMap.empty (octet 1) (octet 9) = .ok m ∧ isExcluded m (octet 7) = true ∧
      excludeRange m (octet 3) (octet 5) = .ok m' ∧ isExcluded m' (octet 7) = false := by
  obtain ⟨m, hm, hp⟩ := exists_ok_of_any
    (x := excludeRange DescMap.empty (octet 1) (octet 9))
    (p := fun m => isExcluded m (octet 7) = true ∧
      m.lowerBound (octet 3) = some (↑(octet 1), true) ∧
      m.lowerBound (octet 5) = some (↑(octet 1), true) ∧
      m.lowerBound (octet 7) = some (↑(octet 1), true)) (by decide +kernel)
  obtain ⟨hexcluded, hstart, hend, hafter⟩ := of_decide_eq_true hp
  have hlt : octet 3 < octet 5 := by decide
  obtain ⟨m', hm', hiff⟩ := isExcluded_excludeRange (m := m) hlt
  refine ⟨m, m', hm, hexcluded, hm', Bool.eq_false_iff.mpr fun h => ?_⟩
  exact ((hiff (octet 7)).mp h).2 ⟨by decide, _, hstart, hend, hafter⟩

/-- What a call does, said of the range's start and end in the map. -/
def Call.Cuts (m : ExcludeMap) : Call → Component → Prop
  | .excludeRange fromComp toComp, c => CutOff m fromComp toComp c
  | .excludeBefore toComp, c => CutOff m ⊥ toComp c
  | .excludeOne _, _ | .excludeAfter _, _ => False

theorem isExcluded_apply {m m' : ExcludeMap} {call : Call} (h : call.apply m = .ok m')
    (c : Component) :
    isExcluded m' c = true ↔ (isExcluded m c = true ∨ call.Asks c) ∧ ¬ call.Cuts m c := by
  rw [isExcluded_iff, isExcluded_iff]
  cases call with
  | excludeOne comp =>
    obtain rfl := Except.ok.inj h
    rw [covers_excludeOne, WithBot.coe_inj]
    simp [Call.Asks, Call.Cuts]
  | excludeAfter fromComp =>
    obtain rfl := Except.ok.inj h
    rw [covers_excludeAfter, WithBot.coe_le_coe]
    simp [Call.Asks, Call.Cuts]
  | excludeRange fromComp toComp =>
    obtain ⟨hlt, hmem⟩ := ranged_of_excludeRangeFrom h
    rw [covers_of_range hlt hmem, WithBot.coe_le_coe, WithBot.coe_le_coe]
    rfl
  | excludeBefore toComp =>
    have hbefore : excludeRangeFrom m ⊥ toComp = .ok m' := h
    obtain ⟨hlt, hmem⟩ := ranged_of_excludeRangeFrom hbefore
    rw [covers_of_range hlt hmem, WithBot.coe_le_coe]
    simp [Call.Asks, Call.Cuts]

theorem not_isExcluded_empty (c : Component) : isExcluded DescMap.empty c = false := by
  simp [isExcluded, DescMap.lowerBound, DescMap.empty]

theorem run_concat {m m' : ExcludeMap} {calls : List Call} {call : Call}
    (h : run m (calls ++ [call]) = .ok m') :
    ∃ m'', run m calls = .ok m'' ∧ call.apply m'' = .ok m' := by
  unfold run at h ⊢
  rw [List.foldlM_append] at h
  obtain ⟨m'', hm'', h⟩ := bind_eq_ok h
  rw [List.foldlM_cons] at h
  obtain ⟨r, hr, h⟩ := bind_eq_ok h
  obtain rfl := Except.ok.inj h
  exact ⟨m'', hm'', hr⟩

/-- Nothing is excluded that no call asked for. -/
theorem excluded_of_run {calls : List Call} {m : ExcludeMap}
    (h : run DescMap.empty calls = .ok m) {c : Component} (hc : isExcluded m c = true) :
    ∃ call ∈ calls, call.Asks c := by
  induction calls using List.reverseRecOn generalizing m with
  | nil =>
    obtain rfl := Except.ok.inj h
    rw [not_isExcluded_empty] at hc
    cases hc
  | append_singleton calls call ih =>
    obtain ⟨m'', hm'', hcall⟩ := run_concat h
    rcases ((isExcluded_apply hcall c).mp hc).1 with hold | hnew
    · obtain ⟨call', hmem, hasks⟩ := ih hm'' hold
      exact ⟨call', List.mem_append_left _ hmem, hasks⟩
    · exact ⟨call, by simp, hnew⟩

/-- A range that cuts off was excluded already, all of it. -/
theorem covers_of_cuts {m : ExcludeMap} {call : Call} {c : Component} (h : call.Cuts m c) :
    call.isRange = true ∧ ∀ d, call.Asks d → isExcluded m d = true := by
  have hall : ∀ {fromComp : ExcludeComponent} {toComp : Component},
      CutOff m fromComp toComp c → ∀ d : Component, fromComp ≤ d → d ≤ toComp →
        isExcluded m d = true := by
    rintro fromComp toComp ⟨-, k, hf, ht, -⟩ d hfd hdt
    obtain ⟨hmem, hkf, -⟩ := DescMap.lowerBound_eq_some_iff.mp hf
    obtain ⟨-, -, hmax⟩ := DescMap.lowerBound_eq_some_iff.mp ht
    rw [isExcluded_iff]
    refine ⟨(k, true), DescMap.lowerBound_eq_some_iff.mpr ⟨hmem, le_trans hkf hfd, ?_⟩, .inl rfl⟩
    exact fun e he hle => hmax e he (le_trans hle (WithBot.coe_le_coe.mpr hdt))
  cases call with
  | excludeOne comp => exact absurd h id
  | excludeAfter fromComp => exact absurd h id
  | excludeRange fromComp toComp =>
    exact ⟨rfl, fun d hd => hall h d (WithBot.coe_le_coe.mpr hd.1) hd.2⟩
  | excludeBefore toComp => exact ⟨rfl, fun d hd => hall h d bot_le hd⟩

/-- **What a filter excludes after any calls** is what they asked for, if no call is for a
range that the calls before it have asked for altogether. -/
theorem isExcluded_run_iff {calls : List Call} {m : ExcludeMap}
    (h : run DescMap.empty calls = .ok m)
    (hnew : ∀ pre call post, calls = pre ++ call :: post → call.isRange = true →
      ∃ d, call.Asks d ∧ ∀ call' ∈ pre, ¬ call'.Asks d) (c : Component) :
    isExcluded m c = true ↔ ∃ call ∈ calls, call.Asks c := by
  refine ⟨excluded_of_run h, ?_⟩
  induction calls using List.reverseRecOn generalizing m with
  | nil =>
    rintro ⟨call, hmem, -⟩
    cases hmem
  | append_singleton calls call ih =>
    obtain ⟨m'', hm'', hcall⟩ := run_concat h
    have hpre : ∀ pre call' post, calls = pre ++ call' :: post → call'.isRange = true →
        ∃ d, call'.Asks d ∧ ∀ call'' ∈ pre, ¬ call''.Asks d := by
      rintro pre call' post rfl
      exact hnew pre call' (post ++ [call]) (by simp)
    have hcuts : ¬ call.Cuts m'' c := by
      intro hcut
      obtain ⟨hrange, hall⟩ := covers_of_cuts hcut
      obtain ⟨d, hasks, hfresh⟩ := hnew calls call [] rfl hrange
      obtain ⟨call', hmem, hasks'⟩ := excluded_of_run hm'' (hall d hasks)
      exact hfresh call' hmem hasks'
    rintro ⟨call', hmem, hasks⟩
    rw [isExcluded_apply hcall]
    refine ⟨?_, hcuts⟩
    rcases List.mem_append.mp hmem with hmem | hmem
    · exact .inl (ih hm'' hpre ⟨call', hmem, hasks⟩)
    · rw [List.mem_singleton] at hmem
      exact .inr (hmem ▸ hasks)

/-- A range over what was excluded already, and more. -/
theorem isExcluded_run_iff_over : ∃ m,
    run DescMap.empty [.excludeOne (octet 2), .excludeRange (octet 1) (octet 3)] = .ok m ∧
      isExcluded m (octet 3) = true := by
  obtain ⟨m, hm, -⟩ := exists_ok_of_any
    (x := run DescMap.empty [.excludeOne (octet 2), .excludeRange (octet 1) (octet 3)])
    (p := fun _ => true) (by decide +kernel)
  have hask : (Call.excludeRange (octet 1) (octet 3)).Asks (octet 3) :=
    (by decide : octet 1 ≤ octet 3 ∧ octet 3 ≤ octet 3)
  refine ⟨m, hm, (isExcluded_run_iff hm ?_ (octet 3)).mpr ⟨_, by simp, hask⟩⟩
  intro pre call post hcalls hrange
  rcases pre with _ | ⟨first, _ | ⟨second, pre⟩⟩
  · obtain ⟨rfl, -⟩ := List.cons.inj hcalls
    cases hrange
  · simp only [List.cons_append, List.nil_append, List.cons.injEq] at hcalls
    obtain ⟨rfl, rfl, -⟩ := hcalls
    refine ⟨octet 3, hask, fun call hcall => ?_⟩
    obtain rfl := List.mem_singleton.mp hcall
    change ¬ octet 3 = octet 2
    decide
  · simp at hcalls

end Exclude
end Ndn
end IcnDemo
