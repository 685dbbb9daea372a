/-
# The faces over a history of leases

dnsmasq reports leases as they come (`add`) and go (`del`), and the script runs
for each. Over any history an address has at most one face, with a route
through it (`Inv`), from its last event on until an event whose address covers
it (`served_concat`). So the faces follow the leases exactly when no lease ever
ends, and no event covers an address that came earlier (`follows_iff`).
-/
import IcnDemo.Dhcp.Script

namespace IcnDemo
namespace Dhcp

/-! ### Histories -/

inductive Action
  | add
  | del
deriving DecidableEq

/-- `$1` -/
def Action.word : Action → List Char
  | .add => "add".toList
  | .del => "del".toList

structure Event where
  action : Action
  address : Address
deriving DecidableEq

/-- The state after the events, from no faces, the first face to be `next`. -/
def after (nfdc : Nfdc) (next : ℕ) (es : List Event) : Nfd :=
  es.foldl (fun s e => dhcpNfdc nfdc e.action.word e.address s) (Nfd.empty next)

/-- What happened to `b` last. -/
def lastAction (es : List Event) (b : Address) : Option Action :=
  (es.reverse.find? fun e => e.address = b).map Event.action

/-- The address has a face and a route `/pic/b` through it. -/
def Served (b : Address) (s : Nfd) : Prop :=
  ∃ f ∈ s.faces, f.remote.address = b ∧ ⟨picName b, f.id⟩ ∈ s.routes

/-- The faces and routes are those of the leases there are after the events. -/
structure Follows (es : List Event) (s : Nfd) : Prop where
  served : ∀ b, Served b s ↔ lastAction es b = some .add
  one : ∀ b, (facesOf b s).length ≤ 1
  gone : ∀ b, lastAction es b = some .del → facesOf b s = [] ∧ routesUnder b s = []

theorem after_concat (nfdc : Nfdc) (next : ℕ) (es : List Event) (e : Event) :
    after nfdc next (es ++ [e]) =
      dhcpNfdc nfdc e.action.word e.address (after nfdc next es) := by
  unfold after
  rw [List.foldl_append]
  rfl

theorem lastAction_concat (es : List Event) (e : Event) (b : Address) :
    lastAction (es ++ [e]) b = if e.address = b then some e.action else lastAction es b := by
  unfold lastAction
  rw [List.reverse_append, List.reverse_singleton, List.singleton_append, List.find?_cons]
  by_cases h : e.address = b
  · simp [h]
  · simp [h]

theorem exists_of_lastAction {es : List Event} {b : Address} {act : Action}
    (h : lastAction es b = some act) : ∃ e ∈ es, e.address = b ∧ e.action = act := by
  unfold lastAction at h
  obtain ⟨e, he, hact⟩ := Option.map_eq_some_iff.mp h
  exact ⟨e, List.mem_reverse.mp (List.mem_of_find?_eq_some he), by simpa using List.find?_some he,
    hact⟩

theorem lastAction_isSome {es : List Event} {e : Event} (he : e ∈ es) :
    ∃ act, lastAction es e.address = some act := by
  unfold lastAction
  rw [← Option.isSome_iff_exists, Option.isSome_map, List.find?_isSome]
  exact ⟨e, List.mem_reverse.mpr he, decide_eq_true rfl⟩

/-! ### The invariant -/

variable {nfdc : Nfdc} {next : ℕ} {s : Nfd} {a b : Address}

/-- What holds after every history. -/
structure Inv (s : Nfd) : Prop where
  /-- Every face has its route. -/
  routed : ∀ f ∈ s.faces, ⟨picName f.remote.address, f.id⟩ ∈ s.routes
  one : ∀ b, (facesOf b s).length ≤ 1

theorem Inv.start : Inv (Nfd.empty next) where
  routed _ hf := by cases hf
  one _ := Nat.zero_le _

/-- The address of the event has the one face that was made. -/
theorem facesOf_self (action : List Char) :
    facesOf a (dhcpNfdc nfdc action a s) = [⟨s.next, ⟨a, nfdc.port⟩⟩] := by
  unfold facesOf
  rw [(dhcpNfdc_spec nfdc a s action).1, List.filter_append]
  have hnone : (s.faces.filter fun f => !a.covers f.remote.address).filter
      (fun f => f.remote.address = a) = [] := by
    rw [List.filter_eq_nil_iff]
    intro f hf hadr
    have hcov := (List.mem_filter.mp hf).2
    rw [of_decide_eq_true hadr, a.covers_self] at hcov
    cases hcov
  rw [hnone]
  simp

theorem Inv.step (hI : Inv s) (action : List Char) (a : Address) :
    Inv (dhcpNfdc nfdc action a s) := by
  obtain ⟨hfaces, hroutes, -⟩ := dhcpNfdc_spec nfdc a s action
  refine ⟨fun f hf => ?_, fun b => ?_⟩
  · rw [hfaces] at hf
    rw [hroutes]
    rcases List.mem_append.mp hf with hf | hf
    · -- the route of a face that stays is not through a face that goes
      obtain ⟨hf, hcov⟩ := List.mem_filter.mp hf
      refine List.mem_insert_of_mem (List.mem_filter.mpr ⟨hI.routed f hf, ?_⟩)
      rw [decide_eq_true_eq, mem_coveredIds a s hf]
      exact Or.inl (by simpa using hcov)
    · rw [List.mem_singleton.mp hf]
      exact List.mem_insert_self
  · by_cases hb : b = a
    · rw [hb, facesOf_self]
      exact Nat.le_refl 1
    · rw [facesOf_dhcpNfdc hb]
      exact le_trans (List.length_filter_le _ _) (hI.one b)

/-- **After every history an address has at most one face**, with its route. -/
theorem Inv.after (es : List Event) : Inv (after nfdc next es) := by
  induction es using List.reverseRecOn with
  | nil => exact Inv.start
  | append_singleton es e ih =>
    rw [after_concat]
    exact ih.step _ _

/-- An address that has a face is served. -/
theorem Inv.served_iff (hI : Inv s) : Served b s ↔ facesOf b s ≠ [] := by
  refine ⟨fun ⟨f, hf, hadr, _⟩ => ?_, fun hne => ?_⟩
  · exact List.ne_nil_of_mem (List.mem_filter.mpr ⟨hf, decide_eq_true hadr⟩)
  · obtain ⟨f, hf⟩ := List.exists_mem_of_ne_nil _ hne
    obtain ⟨hf, hadr⟩ := List.mem_filter.mp hf
    rw [decide_eq_true_eq] at hadr
    exact ⟨f, hf, hadr, hadr ▸ hI.routed f hf⟩

/-- **One more event**: its address is served, and the addresses it does not cover
stay so. -/
theorem served_concat (es : List Event) (e : Event) : Served b (after nfdc next (es ++ [e])) ↔
    e.address = b ∨ Served b (after nfdc next es) ∧ e.address.covers b = false := by
  rw [(Inv.after _).served_iff, (Inv.after es).served_iff, after_concat]
  by_cases hb : e.address = b
  · subst hb
    rw [facesOf_self]
    simp
  · rw [facesOf_dhcpNfdc (Ne.symm hb)]
    have hsame : ∀ f ∈ facesOf b (after nfdc next es), f.remote.address = b := fun f hf =>
      of_decide_eq_true (List.mem_filter.mp hf).2
    rw [← List.isEmpty_eq_false_iff, ← List.isEmpty_eq_false_iff]
    cases hcov : e.address.covers b with
    | false =>
      rw [List.filter_eq_self.mpr fun f hf => by rw [hsame f hf, hcov]; rfl]
      simp [hb]
    | true =>
      rw [List.filter_eq_nil_iff.mpr fun f hf => by rw [hsame f hf, hcov]; simp]
      simp [hb]

/-! ### Following the leases -/

/-- No lease ends, and no event covers another address that came earlier. -/
def NoneLost (es : List Event) : Prop :=
  (∀ e ∈ es, e.action = .add) ∧
    es.Pairwise fun e e' => e'.address.covers e.address = true → e.address = e'.address

theorem NoneLost.concat_iff {es : List Event} {e : Event} : NoneLost (es ++ [e]) ↔
    NoneLost es ∧ e.action = .add ∧
      ∀ x ∈ es, e.address.covers x.address = true → x.address = e.address := by
  unfold NoneLost
  rw [List.pairwise_append]
  simp only [List.mem_append, List.mem_singleton, List.pairwise_singleton, true_and]
  constructor
  · intro ⟨hadd, hpair, hlast⟩
    exact ⟨⟨fun x hx => hadd x (Or.inl hx), hpair⟩, hadd e (Or.inr rfl), fun x hx => hlast x hx e rfl⟩
  · intro ⟨⟨hadd, hpair⟩, he, hlast⟩
    refine ⟨fun x hx => ?_, hpair, fun x hx y hy => hy ▸ hlast x hx⟩
    rcases hx with hx | rfl
    · exact hadd x hx
    · exact he

theorem Follows.start : Follows [] (Nfd.empty next) where
  served b := by
    refine iff_of_false (fun ⟨f, hf, _⟩ => absurd hf List.not_mem_nil) fun h => ?_
    cases h
  one := Inv.start.one
  gone b h := by cases h

/-- One more event of which the state follows the leases still. -/
theorem Follows.concat_iff {es : List Event} {e : Event} (hadd : ∀ x ∈ es, x.action = .add)
    (hF : Follows es (after nfdc next es)) :
    Follows (es ++ [e]) (after nfdc next (es ++ [e])) ↔ e.action = .add ∧
      ∀ x ∈ es, e.address.covers x.address = true → x.address = e.address := by
  have hlast : ∀ x ∈ es, lastAction es x.address = some .add := fun x hx => by
    obtain ⟨act, hact⟩ := lastAction_isSome hx
    obtain ⟨y, hy, -, rfl⟩ := exists_of_lastAction hact
    rw [hact, hadd y hy]
  constructor
  · intro hF'
    refine ⟨?_, fun x hx hcov => ?_⟩
    · cases hact : e.action with
      | add => rfl
      | del =>
        have hgone := (hF'.gone e.address (by rw [lastAction_concat, if_pos rfl, hact])).1
        rw [after_concat, facesOf_self] at hgone
        cases hgone
    · by_contra hne
      have hne' : e.address ≠ x.address := Ne.symm hne
      have hserved := (hF'.served x.address).mpr (by
        rw [lastAction_concat, if_neg hne', hlast x hx])
      rcases (served_concat es e).mp hserved with heq | ⟨-, hnot⟩
      · exact hne' heq
      · rw [hcov] at hnot
        cases hnot
  · intro ⟨he, hcov⟩
    refine ⟨fun b => ?_, (Inv.after _).one, fun b hb => ?_⟩
    · rw [served_concat, lastAction_concat, he, hF.served b]
      by_cases heb : e.address = b
      · simp [heb]
      · rw [if_neg heb]
        refine ⟨fun h => (h.resolve_left heb).1, fun h => Or.inr ⟨h, ?_⟩⟩
        obtain ⟨x, hx, rfl, -⟩ := exists_of_lastAction h
        rw [Bool.eq_false_iff]
        intro hc
        exact heb (hcov x hx hc).symm
    · obtain ⟨x, hx, -, hdel⟩ := exists_of_lastAction hb
      have hx' : x.action = .add := by
        rcases List.mem_append.mp hx with hx | hx
        · exact hadd x hx
        · rw [List.mem_singleton.mp hx, he]
      rw [hx'] at hdel
      cases hdel

/-- **The faces follow the leases exactly when none is lost.** -/
theorem follows_iff (nfdc : Nfdc) (next : ℕ) (es : List Event) :
    (∀ pre, pre <+: es → Follows pre (after nfdc next pre)) ↔
      (∀ e ∈ es, e.action = .add) ∧
      es.Pairwise fun e e' => e'.address.covers e.address = true → e.address = e'.address := by
  show _ ↔ NoneLost es
  induction es using List.reverseRecOn with
  | nil =>
    refine ⟨fun _ => ⟨fun _ he => absurd he List.not_mem_nil, List.Pairwise.nil⟩,
      fun _ pre hpre => ?_⟩
    rw [List.prefix_nil.mp hpre]
    exact Follows.start
  | append_singleton es e ih =>
    rw [NoneLost.concat_iff, ← ih]
    constructor
    · intro h
      have hes : ∀ pre, pre <+: es → Follows pre (after nfdc next pre) := fun pre hpre =>
        h pre (hpre.trans (List.prefix_append es [e]))
      exact ⟨hes, (Follows.concat_iff (ih.mp hes).1 (hes es List.prefix_rfl)).mp
        (h _ List.prefix_rfl)⟩
    · intro ⟨hes, he⟩ pre hpre
      rcases List.prefix_concat_iff.mp hpre with rfl | hpre
      · exact (Follows.concat_iff (ih.mp hes).1 (hes es List.prefix_rfl)).mpr he
      · exact hes pre hpre

/-- A phone comes and goes, and its face stays. -/
theorem face_outlives_lease : ¬ Follows [⟨.add, phone 1⟩, ⟨.del, phone 1⟩]
    (after piNfdc 256 [⟨.add, phone 1⟩, ⟨.del, phone 1⟩]) := by
  intro h
  have hgone := (h.gone (phone 1) (by decide)).1
  exact absurd hgone (by decide +kernel)

end Dhcp
end IcnDemo
