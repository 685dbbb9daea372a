/-
# Enumerating an exclude filter

`Exclude::const_iterator` goes through the entries from the least and makes a range
of an entry with `ANY` and the next one. Where it gets to the end the ranges hold
what is excluded (`enumerate_contains_iff`). It asserts that no two entries with
`ANY` follow one another, and it gets to the end exactly if none do
(`exists_enumerate_iff`). A call keeps that, unless it starts a range at the end of
another (`separated_apply_iff`), and so does any run of such calls (`ranges_of_run`).
As in `IcnDemo.Ndn.Exclude`, the components are in the encoding of this library.
-/
import IcnDemo.Ndn.Exclude

namespace IcnDemo
namespace Ndn
namespace Exclude

open Lib.OrderedMap Lib.Loop

/-- `Exclude::Range`: `none` for an infinity. -/
structure Range where
  fromComp : Option Component
  toComp : Option Component
deriving DecidableEq, Repr

/-- The component is in the range, whose ends belong to it. -/
def Range.Contains (r : Range) (c : Component) : Prop :=
  (∀ f, r.fromComp = some f → f ≤ c) ∧ ∀ t, r.toComp = some t → c ≤ t

/-- The component of an entry, if it is not negative infinity. -/
def component (k : ExcludeComponent) : Option Component := k.recBotCoe none some

/-- The ranges from `begin()` to `end()`, over the entries with the least first; `none`
where an assertion fails. -/
def enumerate : List (ExcludeComponent × Bool) → Option (List Range)
  | [] => some []
  | [(k, true)] => some [⟨component k, none⟩]
  | (k, true) :: (k', any) :: rest =>
    if any then none else (enumerate rest).map (⟨component k, component k'⟩ :: ·)
  | (k, false) :: rest =>
    if k = ⊥ then none else (enumerate rest).map (⟨component k, component k⟩ :: ·)

/-- The ranges of a filter. -/
def ranges (entries : ExcludeMap) : Option (List Range) := enumerate entries.entries.reverse

/-! ### What the ranges hold -/

/-- `Covers`, of a list of entries. -/
def CoversList (l : List (ExcludeComponent × Bool)) (c : ExcludeComponent) : Prop :=
  ∃ e ∈ l, e.1 ≤ c ∧ (∀ e' ∈ l, e'.1 ≤ c → e'.1 ≤ e.1) ∧ (e.2 = true ∨ e.1 = c)

theorem coversList_reverse {m : ExcludeMap} {c : ExcludeComponent} :
    CoversList m.entries.reverse c ↔ Covers m c := by
  unfold CoversList Covers
  simp only [List.mem_reverse]
  constructor
  · rintro ⟨e, he, hle, hmax, hor⟩
    exact ⟨e, DescMap.lowerBound_eq_some_iff.mpr ⟨he, hle, hmax⟩, hor⟩
  · rintro ⟨e, he, hor⟩
    obtain ⟨hmem, hle, hmax⟩ := DescMap.lowerBound_eq_some_iff.mp he
    exact ⟨e, hmem, hle, hmax, hor⟩

/-- The entries in the order of the iterator. -/
def Ascending (l : List (ExcludeComponent × Bool)) : Prop := l.Pairwise fun a b => a.1 < b.1

theorem ascending_reverse (m : ExcludeMap) : Ascending m.entries.reverse :=
  List.pairwise_reverse.mpr m.sorted

/-- The last entry up to the point decides. -/
theorem coversList_cons {e : ExcludeComponent × Bool} {l : List (ExcludeComponent × Bool)}
    (h : Ascending (e :: l)) (c : ExcludeComponent) : CoversList (e :: l) c ↔
      CoversList l c ∨ ((∀ e' ∈ l, c < e'.1) ∧ e.1 ≤ c ∧ (e.2 = true ∨ e.1 = c)) := by
  obtain ⟨he, -⟩ := List.pairwise_cons.mp h
  unfold CoversList
  constructor
  · rintro ⟨a, ha, hac, hmax, hor⟩
    rcases List.mem_cons.mp ha with rfl | hal
    · right
      refine ⟨fun e' he' => ?_, hac, hor⟩
      by_contra hle
      exact absurd (hmax e' (List.mem_cons_of_mem _ he') (not_lt.mp hle)) (not_le.mpr (he e' he'))
    · exact .inl ⟨a, hal, hac, fun e' he' => hmax e' (List.mem_cons_of_mem _ he'), hor⟩
  · rintro (⟨a, hal, hac, hmax, hor⟩ | ⟨hall, hec, hor⟩)
    · refine ⟨a, List.mem_cons_of_mem _ hal, hac, ?_, hor⟩
      intro e' he' hle
      rcases List.mem_cons.mp he' with rfl | he'
      · exact le_of_lt (he a hal)
      · exact hmax e' he' hle
    · refine ⟨e, List.mem_cons_self, hec, ?_, hor⟩
      intro e' he' hle
      rcases List.mem_cons.mp he' with rfl | he'
      · exact le_refl _
      · exact absurd hle (not_le.mpr (hall e' he'))

theorem not_coversList_of_lt {l : List (ExcludeComponent × Bool)} {c : ExcludeComponent}
    (h : ∀ e ∈ l, c < e.1) : ¬ CoversList l c := by
  rintro ⟨e, he, hle, -⟩
  exact absurd hle (not_le.mpr (h e he))

theorem contains_iff {k k' : ExcludeComponent} {c : Component} :
    Range.Contains ⟨component k, component k'⟩ c ↔
      k ≤ c ∧ (k' = ⊥ ∨ (c : ExcludeComponent) ≤ k') := by
  unfold Range.Contains
  cases k using WithBot.recBotCoe with
  | bot =>
    cases k' using WithBot.recBotCoe with
    | bot => simp [component]
    | coe k' => simp [component, WithBot.coe_le_coe]
  | coe k =>
    cases k' using WithBot.recBotCoe with
    | bot => simp [component, WithBot.coe_le_coe]
    | coe k' => simp [component, WithBot.coe_le_coe]

/-- The ranges hold what is excluded. -/
theorem enumerate_coversList : ∀ {l : List (ExcludeComponent × Bool)} {rs : List Range},
    Ascending l → enumerate l = some rs → ∀ c : Component,
      CoversList l c ↔ ∃ r ∈ rs, r.Contains c
  | [], rs, _, h, c => by
    obtain rfl := Option.some.inj h
    simp [CoversList]
  | [(k, true)], rs, hasc, h, c => by
    obtain rfl := Option.some.inj h
    rw [coversList_cons hasc, or_iff_right (not_coversList_of_lt (by simp))]
    simp only [List.mem_singleton, exists_eq_left, Range.Contains]
    cases k using WithBot.recBotCoe with
    | bot => simp [component]
    | coe k => simp [component, WithBot.coe_le_coe]
  | (k, true) :: (k', any) :: rest, rs, hasc, h, c => by
    unfold enumerate at h
    split at h
    · cases h
    · rename_i hany
      obtain rfl : any = false := by simpa using hany
      obtain ⟨rs', hrs', rfl⟩ := Option.map_eq_some_iff.mp h
      obtain ⟨hk, hasc'⟩ := List.pairwise_cons.mp hasc
      obtain ⟨hk', hrest⟩ := List.pairwise_cons.mp hasc'
      have hkk' : k < k' := hk (k', false) List.mem_cons_self
      have hbot : k' ≠ ⊥ := fun hb => absurd (hb ▸ hkk') not_lt_bot
      rw [coversList_cons hasc, coversList_cons hasc', enumerate_coversList hrest hrs' c]
      simp only [List.mem_cons, exists_eq_or_imp, contains_iff, hbot, false_or, true_or, and_true,
        Bool.false_eq_true, forall_eq_or_imp]
      constructor
      · rintro ((hr | ⟨-, hle, heq⟩) | ⟨⟨hlt, -⟩, hle⟩)
        · exact .inr hr
        · exact .inl ⟨le_trans (le_of_lt hkk') hle, le_of_eq heq.symm⟩
        · exact .inl ⟨hle, le_of_lt hlt⟩
      · rintro (⟨hle, hle'⟩ | hr)
        · have hgt : ∀ e ∈ rest, (c : ExcludeComponent) < e.1 :=
            fun e he => lt_of_le_of_lt hle' (hk' e he)
          rcases lt_or_eq_of_le hle' with hlt | heq
          · exact .inr ⟨⟨hlt, hgt⟩, hle⟩
          · exact .inl (.inr ⟨hgt, le_of_eq heq.symm, heq.symm⟩)
        · exact .inl (.inl hr)
  | (k, false) :: rest, rs, hasc, h, c => by
    unfold enumerate at h
    split at h
    · cases h
    · rename_i hbot
      obtain ⟨rs', hrs', rfl⟩ := Option.map_eq_some_iff.mp h
      obtain ⟨hk, hrest⟩ := List.pairwise_cons.mp hasc
      rw [coversList_cons hasc, enumerate_coversList hrest hrs' c]
      simp only [List.mem_cons, exists_eq_or_imp, contains_iff, hbot, false_or, Bool.false_eq_true]
      constructor
      · rintro (hr | ⟨-, hle, heq⟩)
        · exact .inr hr
        · exact .inl ⟨hle, le_of_eq heq.symm⟩
      · rintro (⟨hle, hle'⟩ | hr)
        · have heq := le_antisymm hle hle'
          exact .inr ⟨fun e he => heq ▸ hk e he, hle, heq⟩
        · exact .inl hr

/-- The ranges of a filter hold exactly what it excludes. -/
theorem enumerate_contains_iff {m : ExcludeMap} {rs : List Range} (h : ranges m = some rs)
    (c : Component) : isExcluded m c = true ↔ ∃ r ∈ rs, r.Contains c := by
  rw [isExcluded_iff, ← coversList_reverse]
  exact enumerate_coversList (ascending_reverse m) h c

/-! ### When the iterator gets to the end -/

/-- No two entries with `ANY` follow one another. -/
def SeparatedList (l : List (ExcludeComponent × Bool)) : Prop :=
  ∀ a ∈ l, ∀ b ∈ l, a.2 = true → b.2 = true → a.1 < b.1 → ∃ e ∈ l, a.1 < e.1 ∧ e.1 < b.1

def Separated (m : ExcludeMap) : Prop := SeparatedList m.entries

/-- Negative infinity stands for the start of a range only. -/
def BotIsAny (m : ExcludeMap) : Prop := ∀ e ∈ m, e.1 = ⊥ → e.2 = true

/-- An entry that is not with `ANY` separates nothing from what follows it. -/
theorem separatedList_cons {e : ExcludeComponent × Bool} {l : List (ExcludeComponent × Bool)}
    (h : Ascending (e :: l)) (hany : e.2 = false) : SeparatedList (e :: l) ↔ SeparatedList l := by
  obtain ⟨he, -⟩ := List.pairwise_cons.mp h
  constructor
  · intro hsep a ha b hb ha2 hb2 hab
    obtain ⟨x, hx, hax, hxb⟩ := hsep a (List.mem_cons_of_mem _ ha) b (List.mem_cons_of_mem _ hb)
      ha2 hb2 hab
    rcases List.mem_cons.mp hx with rfl | hx
    · exact absurd (he a ha) (lt_asymm hax)
    · exact ⟨x, hx, hax, hxb⟩
  · intro hsep a ha b hb ha2 hb2 hab
    rcases List.mem_cons.mp ha with rfl | ha
    · rw [hany] at ha2
      cases ha2
    · rcases List.mem_cons.mp hb with rfl | hb
      · rw [hany] at hb2
        cases hb2
      · obtain ⟨x, hx, hlt⟩ := hsep a ha b hb ha2 hb2 hab
        exact ⟨x, List.mem_cons_of_mem _ hx, hlt⟩

theorem exists_enumerate_list_iff : ∀ {l : List (ExcludeComponent × Bool)}, Ascending l →
    (∀ e ∈ l, e.1 = ⊥ → e.2 = true) → ((∃ rs, enumerate l = some rs) ↔ SeparatedList l)
  | [], _, _ => by simp [enumerate, SeparatedList]
  | [(k, true)], _, _ => by simp [enumerate, SeparatedList]
  | (k, true) :: (k', true) :: rest, hasc, _ => by
    obtain ⟨hk, hasc'⟩ := List.pairwise_cons.mp hasc
    obtain ⟨hk', -⟩ := List.pairwise_cons.mp hasc'
    refine iff_of_false (by simp [enumerate]) ?_
    intro hsep
    obtain ⟨x, hx, hkx, hxk'⟩ := hsep (k, true) (by simp) (k', true) (by simp) rfl rfl
      (hk _ List.mem_cons_self)
    rcases List.mem_cons.mp hx with rfl | hx
    · exact lt_irrefl _ hkx
    · rcases List.mem_cons.mp hx with rfl | hx
      · exact lt_irrefl _ hxk'
      · exact lt_asymm hxk' (hk' x hx)
  | (k, true) :: (k', false) :: rest, hasc, hbot => by
    obtain ⟨hk, hasc'⟩ := List.pairwise_cons.mp hasc
    obtain ⟨hk', hrest⟩ := List.pairwise_cons.mp hasc'
    have ih := exists_enumerate_list_iff hrest fun e he =>
      hbot e (List.mem_cons_of_mem _ (List.mem_cons_of_mem _ he))
    have henum : (∃ rs, enumerate ((k, true) :: (k', false) :: rest) = some rs) ↔
        ∃ rs, enumerate rest = some rs := by
      simp [enumerate]
    rw [henum, ih]
    constructor
    · intro hsep a ha b hb ha2 hb2 hab
      rcases List.mem_cons.mp ha with rfl | ha
      · rcases List.mem_cons.mp hb with rfl | hb
        · exact absurd hab (lt_irrefl _)
        · rcases List.mem_cons.mp hb with rfl | hb
          · cases hb2
          · exact ⟨(k', false), by simp, hk _ List.mem_cons_self, hk' b hb⟩
      · rcases List.mem_cons.mp hb with rfl | hb
        · exact absurd (hk a ha) (lt_asymm hab)
        · obtain ⟨x, hx, hlt⟩ := (separatedList_cons hasc' rfl).mpr hsep a ha b hb ha2 hb2 hab
          exact ⟨x, List.mem_cons_of_mem _ hx, hlt⟩
    · intro hsep a ha b hb ha2 hb2 hab
      obtain ⟨x, hx, hax, hxb⟩ := hsep a (by simp [ha]) b (by simp [hb]) ha2 hb2 hab
      rcases List.mem_cons.mp hx with rfl | hx
      · exact absurd (lt_trans (hk _ List.mem_cons_self) (hk' a ha)) (lt_asymm hax)
      · rcases List.mem_cons.mp hx with rfl | hx
        · exact absurd (hk' a ha) (lt_asymm hax)
        · exact ⟨x, hx, hax, hxb⟩
  | (k, false) :: rest, hasc, hbot => by
    obtain ⟨-, hrest⟩ := List.pairwise_cons.mp hasc
    have hne : k ≠ ⊥ := by
      intro h
      have := hbot (k, false) List.mem_cons_self h
      cases this
    rw [separatedList_cons hasc rfl,
      ← exists_enumerate_list_iff hrest fun e he => hbot e (List.mem_cons_of_mem _ he)]
    simp [enumerate, hne]

/-- The iterator gets to the end, its assertions kept, exactly if no two entries with `ANY`
follow one another. -/
theorem exists_enumerate_iff {m : ExcludeMap} (hbot : BotIsAny m) :
    (∃ rs, ranges m = some rs) ↔ Separated m := by
  unfold ranges
  rw [exists_enumerate_list_iff (ascending_reverse m) fun e he => hbot e (List.mem_reverse.mp he)]
  unfold Separated SeparatedList
  simp only [List.mem_reverse]

/-! ### What the calls keep -/

/-- The start of the new range is the end of a range. -/
def TouchesEnd (m : ExcludeMap) (fromComp : ExcludeComponent) : Prop :=
  (fromComp, false) ∈ m ∧ ∃ p, m.next fromComp = some (p, true)

/-- Two neighbours with `ANY` end up next to one another at the start of the new range
exactly if it is the end of a range. -/
theorem separated_below {m m1 : ExcludeMap} {fromComp nf : ExcludeComponent} (hsep : Separated m)
    (hnf : (nf, true) ∈ m1) (hlow : ∀ e : ExcludeComponent × Bool, e.1 < nf → (e ∈ m1 ↔ e ∈ m))
    (hstart : (m.lowerBound fromComp = some (nf, true) ∧ m1 = m) ∨
      (nf = fromComp ∧ ∀ k, m.lowerBound fromComp ≠ some (k, true))) :
    (∀ a ∈ m1, ∀ b ∈ m1, a.2 = true → b.2 = true → a.1 < b.1 → b.1 ≤ nf →
      ∃ e ∈ m1, a.1 < e.1 ∧ e.1 < b.1) ↔ ¬ TouchesEnd m fromComp := by
  constructor
  · rintro hall ⟨hend, p, hp⟩
    obtain ⟨hpmem, hplt, hpmax⟩ := DescMap.next_eq_some_iff.mp hp
    have hlb : m.lowerBound fromComp = some (fromComp, false) :=
      DescMap.lowerBound_eq_some_iff.mpr ⟨hend, le_refl _, fun _ _ h => h⟩
    rcases hstart with ⟨hlb', -⟩ | ⟨rfl, -⟩
    · rw [hlb] at hlb'
      cases hlb'
    · obtain ⟨x, hx, hpx, hxn⟩ := hall (p, true) ((hlow _ hplt).mpr hpmem) (nf, true) hnf rfl rfl
        hplt (le_refl _)
      exact absurd (hpmax x ((hlow x hxn).mp hx) hxn) (not_le.mpr hpx)
  · intro htouch a ha b hb ha2 hb2 hab hbn
    have ham : a ∈ m := (hlow a (lt_of_lt_of_le hab hbn)).mp ha
    rcases lt_or_eq_of_le hbn with hlt | heq
    · obtain ⟨x, hx, hax, hxb⟩ := hsep a ham b ((hlow b hlt).mp hb) ha2 hb2 hab
      exact ⟨x, (hlow x (lt_trans hxb hlt)).mpr hx, hax, hxb⟩
    · rcases hstart with ⟨hlb, rfl⟩ | ⟨rfl, hnot⟩
      · exact hsep a ham b hb ha2 hb2 hab
      · rw [heq] at hab ⊢
        obtain ⟨⟨k, f⟩, hlb, hak⟩ := DescMap.exists_lowerBound ham (le_of_lt hab)
        obtain ⟨hkmem, hkle, -⟩ := DescMap.lowerBound_eq_some_iff.mp hlb
        obtain rfl : f = false := by
          by_contra hf
          exact hnot k (by rw [hlb]; simpa using hf)
        have hne : ∀ {y : ExcludeComponent}, (y, false) ∈ m → a.1 ≤ y → a.1 < y := by
          intro y hy hle
          refine lt_of_le_of_ne hle fun h => ?_
          rw [DescMap.eq_of_key_eq ham hy h] at ha2
          cases ha2
        rcases lt_or_eq_of_le hkle with hlt | hkeq
        · exact ⟨(k, false), (hlow _ hlt).mpr hkmem, hne hkmem hak, hlt⟩
        · have hkeq' : k = nf := hkeq
          subst hkeq'
          cases hp : m.next k with
          | none =>
            have := List.find?_eq_none.mp hp a ham
            simp [hab] at this
          | some p =>
            obtain ⟨p, g⟩ := p
            obtain ⟨hpmem, hplt, hpmax⟩ := DescMap.next_eq_some_iff.mp hp
            obtain rfl : g = false := by
              by_contra hg
              exact htouch ⟨hkmem, p, by rw [hp]; simpa using hg⟩
            exact ⟨(p, false), (hlow _ hplt).mpr hpmem, hne hpmem (hpmax a ham hab), hplt⟩

theorem separated_of_range {m m' : ExcludeMap} {fromComp : ExcludeComponent} {toComp : Component}
    (h : fromComp < toComp) (hsep : Separated m) (hm' : Ranged m fromComp toComp m') :
    Separated m' ↔ ¬ TouchesEnd m fromComp := by
  have hr := rangeFrom_spec m fromComp
  have hnft : (rangeFrom m fromComp).2 < (toComp : ExcludeComponent) := lt_of_le_of_lt hr.le h
  rw [← separated_below hsep hr.mem hr.low hr.start]
  have hmem : ∀ e : ExcludeComponent × Bool, e.1 ≤ (rangeFrom m fromComp).2 →
      (e ∈ m' ↔ e ∈ (rangeFrom m fromComp).1) := by
    intro e he
    rw [hm' e]
    constructor
    · rintro (⟨h', -⟩ | ⟨rfl, -⟩)
      · exact h'
      · exact absurd hnft (not_lt.mpr he)
    · exact fun h' => .inl ⟨h', .inl he⟩
  constructor
  · intro hsep' a ha b hb ha2 hb2 hab hbn
    have han : a.1 ≤ (rangeFrom m fromComp).2 := le_of_lt (lt_of_lt_of_le hab hbn)
    obtain ⟨x, hx, hax, hxb⟩ := hsep' a ((hmem a han).mpr ha) b ((hmem b hbn).mpr hb) ha2 hb2 hab
    exact ⟨x, (hmem x (le_of_lt (lt_of_lt_of_le hxb hbn))).mp hx, hax, hxb⟩
  · intro hall a ha b hb ha2 hb2 hab
    have hside : ∀ e ∈ m', e.2 = true → e ∈ (rangeFrom m fromComp).1 ∧
        (e.1 ≤ (rangeFrom m fromComp).2 ∨ (toComp : ExcludeComponent) < e.1) := by
      intro e he he2
      rcases (hm' e).mp he with h' | ⟨rfl, -⟩
      · exact h'
      · cases he2
    obtain ⟨ha1, ha'⟩ := hside a ha ha2
    obtain ⟨hb1, hb'⟩ := hside b hb hb2
    rcases hb' with hbn | htb
    · obtain ⟨x, hx, hax, hxb⟩ := hall a ha1 b hb1 ha2 hb2 hab hbn
      exact ⟨x, (hmem x (le_of_lt (lt_of_lt_of_le hxb hbn))).mpr hx, hax, hxb⟩
    have hbm : b ∈ m := (mem_after_range h hm' htb).mp hb
    rcases ha' with han | hta
    · by_cases hsw : Swallowed (rangeFrom m fromComp) toComp
      · -- the end of the range that has swallowed it lies in between
        obtain ⟨k, -, hlb⟩ := (swallowed_iff h).mp hsw
        obtain ⟨hkmem, hkle, hkmax⟩ := DescMap.lowerBound_eq_some_iff.mp hlb
        obtain ⟨x, hx, hkx, hxb⟩ := hsep (k, true) hkmem b hbm rfl hb2 (lt_of_le_of_lt hkle htb)
        have htx : (toComp : ExcludeComponent) < x.1 := by
          by_contra hle'
          exact absurd (hkmax x hx (not_lt.mp hle')) (not_le.mpr hkx)
        exact ⟨x, (mem_after_range h hm' htx).mpr hx, lt_of_le_of_lt han (lt_trans hnft htx), hxb⟩
      · exact ⟨(↑toComp, false), (hm' _).mpr (.inr ⟨rfl, hsw⟩), lt_of_le_of_lt han hnft, htb⟩
    · have ham : a ∈ m := (mem_after_range h hm' hta).mp ha
      obtain ⟨x, hx, hax, hxb⟩ := hsep a ham b hbm ha2 hb2 hab
      exact ⟨x, (mem_after_range h hm' (lt_trans hta hax)).mpr hx, hax, hxb⟩

theorem separated_excludeAfter {m : ExcludeMap} {fromComp : Component} (hsep : Separated m) :
    Separated (excludeAfter m fromComp) ↔ ¬ TouchesEnd m fromComp := by
  obtain ⟨hnf, -, -, -, hlow, hstart⟩ := rangeFrom_spec m fromComp
  rw [← separated_below hsep hnf hlow hstart]
  have hmem : ∀ e : ExcludeComponent × Bool, e ∈ (excludeAfter m fromComp).entries ↔
      e ∈ (rangeFrom m fromComp).1 ∧ e.1 ≤ (rangeFrom m fromComp).2 := by
    intro e
    change e ∈ excludeAfter m fromComp ↔ _
    unfold excludeAfter
    rw [DescMap.mem_eraseIf]
    simp
  unfold Separated SeparatedList
  simp only [hmem]
  constructor
  · intro hall a ha b hb ha2 hb2 hab hbn
    obtain ⟨x, ⟨hx, -⟩, hlt⟩ := hall a ⟨ha, le_of_lt (lt_of_lt_of_le hab hbn)⟩ b ⟨hb, hbn⟩ ha2 hb2 hab
    exact ⟨x, hx, hlt⟩
  · rintro hall a ⟨ha, -⟩ b ⟨hb, hbn⟩ ha2 hb2 hab
    obtain ⟨x, hx, hax, hxb⟩ := hall a ha b hb ha2 hb2 hab hbn
    exact ⟨x, ⟨hx, le_of_lt (lt_of_lt_of_le hxb hbn)⟩, hax, hxb⟩

theorem separated_excludeOne {m : ExcludeMap} {comp : Component} (hsep : Separated m) :
    Separated (excludeOne m comp) := by
  unfold excludeOne
  split
  · exact hsep
  · have hold : ∀ e ∈ m.emplace ↑comp false, e.2 = true → e ∈ m := by
      intro e he he2
      rcases DescMap.mem_emplace.mp he with h | ⟨rfl, -⟩
      · exact h
      · cases he2
    intro a ha b hb ha2 hb2 hab
    obtain ⟨x, hx, hlt⟩ := hsep a (hold a ha ha2) b (hold b hb hb2) ha2 hb2 hab
    exact ⟨x, DescMap.mem_emplace.mpr (.inl hx), hlt⟩

/-- The call starts a range at the end of another. -/
def Call.Touches (m : ExcludeMap) : Call → Prop
  | .excludeRange fromComp _ | .excludeAfter fromComp => TouchesEnd m fromComp
  | .excludeOne _ | .excludeBefore _ => False

/-- **What the iterator asserts is kept by every call but one that starts a range at the end
of another**, which breaks it. -/
theorem separated_apply_iff {m m' : ExcludeMap} {call : Call} (hbot : BotIsAny m)
    (hsep : Separated m) (h : call.apply m = .ok m') : Separated m' ↔ ¬ call.Touches m := by
  cases call with
  | excludeOne comp =>
    obtain rfl := Except.ok.inj h
    exact iff_of_true (separated_excludeOne hsep) id
  | excludeAfter fromComp =>
    obtain rfl := Except.ok.inj h
    exact separated_excludeAfter hsep
  | excludeRange fromComp toComp =>
    obtain ⟨hlt, hmem⟩ := ranged_of_excludeRangeFrom h
    exact separated_of_range hlt hsep hmem
  | excludeBefore toComp =>
    have hbefore : excludeRangeFrom m ⊥ toComp = .ok m' := h
    obtain ⟨hlt, hmem⟩ := ranged_of_excludeRangeFrom hbefore
    rw [separated_of_range hlt hsep hmem]
    refine iff_of_true ?_ id
    rintro ⟨hend, -⟩
    have := hbot _ hend rfl
    cases this

theorem botIsAny_rangeFrom {m : ExcludeMap} {fromComp : ExcludeComponent} (hbot : BotIsAny m) :
    BotIsAny (rangeFrom m fromComp).1 := by
  obtain ⟨hnf, hle, -, -, hlow, -⟩ := rangeFrom_spec m fromComp
  intro e he hb
  rcases lt_or_eq_of_le (bot_le (a := (rangeFrom m fromComp).2)) with hlt | heq
  · exact hbot e ((hlow e (hb ▸ hlt)).mp he) hb
  · rw [DescMap.eq_of_key_eq he hnf (hb.trans heq)]

theorem botIsAny_apply {m m' : ExcludeMap} {call : Call} (hbot : BotIsAny m)
    (h : call.apply m = .ok m') : BotIsAny m' := by
  have hrange : ∀ {fromComp : ExcludeComponent} {toComp : Component},
      excludeRangeFrom m fromComp toComp = .ok m' → BotIsAny m' := by
    intro fromComp toComp hok
    obtain ⟨-, hmem⟩ := ranged_of_excludeRangeFrom hok
    intro e he hb
    rcases (hmem e).mp he with ⟨h', -⟩ | ⟨rfl, -⟩
    · exact botIsAny_rangeFrom hbot e h' hb
    · exact absurd hb (WithBot.coe_ne_bot)
  cases call with
  | excludeOne comp =>
    obtain rfl := Except.ok.inj h
    unfold excludeOne
    split
    · exact hbot
    · intro e he hb
      rcases DescMap.mem_emplace.mp he with h' | ⟨rfl, -⟩
      · exact hbot e h' hb
      · exact absurd hb (WithBot.coe_ne_bot)
  | excludeAfter fromComp =>
    obtain rfl := Except.ok.inj h
    intro e he hb
    unfold excludeAfter at he
    exact botIsAny_rangeFrom hbot e (DescMap.mem_eraseIf.mp he).1 hb
  | excludeRange fromComp toComp => exact hrange h
  | excludeBefore toComp => exact hrange (show excludeRangeFrom m ⊥ toComp = .ok m' from h)

theorem botIsAny_run {calls : List Call} {m : ExcludeMap} (h : run DescMap.empty calls = .ok m) :
    BotIsAny m := by
  induction calls using List.reverseRecOn generalizing m with
  | nil =>
    obtain rfl := Except.ok.inj h
    exact fun e he => absurd he (DescMap.not_mem_empty e)
  | append_singleton calls call ih =>
    obtain ⟨m'', hm'', hcall⟩ := run_concat h
    exact botIsAny_apply (ih hm'') hcall

/-- After any calls, none of which starts a range at the end of another, the iterator
gets to the end, and its ranges hold exactly what is excluded. -/
theorem ranges_of_run {calls : List Call} {m : ExcludeMap} (h : run DescMap.empty calls = .ok m)
    (htouch : ∀ pre call post m', calls = pre ++ call :: post →
      run DescMap.empty pre = .ok m' → ¬ call.Touches m') :
    ∃ rs, ranges m = some rs ∧
      ∀ c, isExcluded m c = true ↔ ∃ r ∈ rs, r.Contains c := by
  have hsep : Separated m := by
    induction calls using List.reverseRecOn generalizing m with
    | nil =>
      obtain rfl := Except.ok.inj h
      intro a ha
      exact absurd ha (DescMap.not_mem_empty a)
    | append_singleton calls call ih =>
      obtain ⟨m'', hm'', hcall⟩ := run_concat h
      have hsep : Separated m'' := by
        refine ih hm'' ?_
        rintro pre call' post m' rfl
        exact htouch pre call' (post ++ [call]) m' (by simp)
      exact (separated_apply_iff (botIsAny_run hm'') hsep hcall).mpr
        (htouch calls call [] m'' rfl hm'')
  obtain ⟨rs, hrs⟩ := (exists_enumerate_iff (botIsAny_run h)).mpr hsep
  exact ⟨rs, hrs, enumerate_contains_iff hrs⟩

/-- The components up to one and another one. -/
theorem ranges_of_run_two : ∃ m rs,
    run DescMap.empty [.excludeBefore (octet 3), .excludeOne (octet 5)] = .ok m ∧
      ranges m = some rs ∧ (∃ r ∈ rs, r.Contains (octet 5)) ∧
      ∀ c, isExcluded m c = true ↔ ∃ r ∈ rs, r.Contains c := by
  obtain ⟨m, hm, hp⟩ := exists_ok_of_any
    (x := run DescMap.empty [.excludeBefore (octet 3), .excludeOne (octet 5)])
    (p := fun m => isExcluded m (octet 5)) (by decide +kernel)
  obtain ⟨rs, hrs, hiff⟩ := ranges_of_run hm (by
    rintro pre call post m' hcalls - htouches
    have hmem : call ∈ [Call.excludeBefore (octet 3), .excludeOne (octet 5)] := by
      rw [hcalls]
      simp
    simp only [List.mem_cons, List.not_mem_nil, or_false] at hmem
    rcases hmem with rfl | rfl <;> exact htouches)
  exact ⟨m, rs, hm, hrs, (hiff (octet 5)).mp hp, hiff⟩

end Exclude
end Ndn
end IcnDemo
