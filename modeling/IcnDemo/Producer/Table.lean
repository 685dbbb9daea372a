/-
# The table of pending requests only grows

No handler removes an entry of `pendingInterest`. So the table has one entry for
every different component 3 asked for (`length_pendingInterest`), while the
fetches outstanding are those asked for and not ended (`length_outstanding`):
there are more entries than outstanding fetches exactly when more fetches have
ended than requests have repeated a component (`table_of_run`).
-/
import IcnDemo.Producer.Pending
import Mathlib.Data.List.Dedup

namespace IcnDemo
namespace Producer

open Ndn Lib.Loop Lib.Runs

/-- The components 3 of the Interests received, in order. -/
def asked (es : List Event) : List Component := (requests es).filterMap fun name => name[3]?

def endsFetch : Event → Bool
  | .interest _ => false
  | .data _ _ | .nack _ | .timeout _ => true

/-- The number of fetches that have ended. -/
def ended (es : List Event) : ℕ := es.countP endsFetch

/-- The number of Interests whose component 3 was asked for before. -/
def repeats (es : List Event) : ℕ := (asked es).length - (asked es).dedup.length

/-! ### One event -/

variable {lib : TextLib} {runTess : Option Bytes → Bytes} {es : List Event} {s s' : State}
  {out new : List Put} {e : Event}

theorem prefix_insert (t : PendingTable) (k : Bytes) (name : Name) : t <+: t.insert k name := by
  unfold PendingTable.insert
  split
  · exact List.prefix_rfl
  · exact List.prefix_append _ _

/-- The keys of the table stay different. -/
theorem nodup_insert {t : PendingTable} (h : (t.map Prod.fst).Nodup) (k : Bytes) (name : Name) :
    ((t.insert k name).map Prod.fst).Nodup := by
  unfold PendingTable.insert
  split
  · exact h
  · rename_i hnone
    rw [List.map_append]
    refine h.append (List.nodup_singleton _) fun k' hk' hk => ?_
    obtain ⟨p, hp, rfl⟩ := List.mem_map.mp hk'
    apply hnone
    rw [List.lookup_isSome_iff]
    exact ⟨p, hp, beq_iff_eq.mpr (List.mem_singleton.mp hk).symm⟩

/-- An event that ends a fetch leaves the table as it is. -/
theorem step_endsFetch (he : endsFetch e = true) (h : step lib runTess s e = .ok (s', new)) :
    s'.pendingInterest = s.pendingInterest ∧ s'.outstanding.length + 1 = s.outstanding.length := by
  have herase : ∀ fetch ∈ s.outstanding,
      (s.outstanding.erase fetch).length + 1 = s.outstanding.length := fun fetch hf => by
    have := List.length_pos_of_mem hf
    rw [List.length_erase_of_mem hf]
    omega
  cases e with
  | interest name => cases he
  | data fetch d =>
    obtain ⟨hf, -, c, -, rfl, -⟩ := step_data h
    exact ⟨rfl, herase fetch hf⟩
  | nack fetch =>
    have hf := step_ended_mem (Or.inl rfl) h
    obtain ⟨rfl, -⟩ := step_ended (Or.inl rfl) h
    exact ⟨rfl, herase fetch hf⟩
  | timeout fetch =>
    have hf := step_ended_mem (Or.inr rfl) h
    obtain ⟨rfl, -⟩ := step_ended (Or.inr rfl) h
    exact ⟨rfl, herase fetch hf⟩

/-- **No event removes or changes an entry.** -/
theorem step_prefix (h : step lib runTess s e = .ok (s', new)) :
    s.pendingInterest <+: s'.pendingInterest := by
  cases e with
  | interest name =>
    obtain ⟨a, b, -, -, -, rfl⟩ := step_interest h
    exact prefix_insert _ _ _
  | data | nack | timeout => exact ⟨[], by rw [List.append_nil, (step_endsFetch rfl h).1]⟩

/-! ### Over a run -/

/-- What the counts are in every state a run reaches. -/
structure Counts (es : List Event) (s : State) : Prop where
  nodup : (s.pendingInterest.map Prod.fst).Nodup
  /-- Every request has a component 3. -/
  components : (asked es).length = (requests es).length
  fetches : (requests es).length = s.outstanding.length + ended es

theorem asked_append (es es' : List Event) : asked (es ++ es') = asked es ++ asked es' := by
  unfold asked
  rw [requests_append, List.filterMap_append]

theorem ended_concat (es : List Event) (e : Event) :
    ended (es ++ [e]) = ended es + if endsFetch e then 1 else 0 := by
  unfold ended
  rw [List.countP_append, List.countP_singleton]

theorem Counts.step (hC : Counts es s) (h : step lib runTess s e = .ok (s', new)) :
    Counts (es ++ [e]) s' := by
  obtain ⟨hnodup, hasked, hfetches⟩ := hC
  cases he : endsFetch e with
  | false =>
    cases e with
    | interest name =>
      obtain ⟨a, b, -, hb, -, rfl⟩ := step_interest h
      have hone : asked [.interest name] = [b] := by
        unfold asked requests
        simp [hb]
      refine ⟨nodup_insert hnodup _ _, ?_, ?_⟩
      · rw [asked_append, requests_append, hone, List.length_append, List.length_append, hasked]
        rfl
      · rw [ended_concat, requests_append, List.length_append, List.length_append, hfetches]
        simp [endsFetch, requests]
        omega
    | data | nack | timeout => cases he
  | true =>
    have hnone : requests [e] = [] := by
      cases e with
      | interest name => cases he
      | data | nack | timeout => rfl
    have hsame : requests (es ++ [e]) = requests es := by
      rw [requests_append, hnone, List.append_nil]
    obtain ⟨htab, hout⟩ := step_endsFetch he h
    refine ⟨by rw [htab]; exact hnodup, ?_, ?_⟩
    · unfold asked at hasked ⊢
      rw [hsame]
      exact hasked
    · rw [hsame, hfetches, ended_concat, he, if_pos rfl]
      omega

theorem Counts.of_run (h : Run lib runTess es s out) : Counts es s := by
  have hstart : Counts [] State.start := ⟨List.nodup_nil, rfl, rfl⟩
  exact Reaches.invariant (I := fun es s _ => Counts es s) hstart
    (fun _ _ _ _ _ _ hC hs => Counts.step hC hs) h

/-- The keys of the table are the URIs of the components asked for. -/
theorem mem_keys_iff (h : Run lib runTess es s out) (k : Bytes) :
    k ∈ s.pendingInterest.map Prod.fst ↔ ∃ b ∈ asked es, b.toUri = k := by
  have hI := Inv.of_run h
  refine ⟨fun hk => ?_, fun ⟨b, hb, hk⟩ => ?_⟩
  · obtain ⟨p, hp, rfl⟩ := List.mem_map.mp hk
    obtain ⟨b, hb, hkey, hreq⟩ := hI.keys p hp
    exact ⟨b, List.mem_filterMap.mpr ⟨p.2, hreq, hb⟩, hkey.symm⟩
  · obtain ⟨name, hreq, hb⟩ := List.mem_filterMap.mp hb
    obtain ⟨first, hfirst⟩ := firstRequest_of_mem hreq hb
    have hsome : (s.pendingInterest.lookup k).isSome = true := by
      rw [← hk, hI.lookup b, hfirst]
      rfl
    obtain ⟨p, hp, hpk⟩ := List.lookup_isSome_iff.mp hsome
    exact List.mem_map.mpr ⟨p, hp, (beq_iff_eq.mp hpk).symm⟩

/-- **An entry for every different component asked for.** -/
theorem length_pendingInterest (h : Run lib runTess es s out) :
    s.pendingInterest.length = (asked es).dedup.length := by
  have hperm : (s.pendingInterest.map Prod.fst).Perm ((asked es).dedup.map Component.toUri) := by
    rw [List.perm_ext_iff_of_nodup (Counts.of_run h).nodup
      ((List.nodup_dedup _).map fun _ _ => Component.toUri_injective)]
    intro k
    rw [mem_keys_iff h, List.mem_map]
    simp only [List.mem_dedup]
  have := hperm.length_eq
  simpa using this

/-- **A fetch for every Interest received, outstanding or ended.** -/
theorem length_outstanding (h : Run lib runTess es s out) :
    (asked es).length = s.outstanding.length + ended es := by
  obtain ⟨-, hasked, hfetches⟩ := Counts.of_run h
  rw [hasked, hfetches]

/-- **The table holds one entry for every component 3 asked for**, the first
Interest with it, and no event removes or changes an entry. So it is never larger
than the number of fetches expressed, and larger than the number outstanding
exactly when more have ended than Interests have repeated a component; it is
empty only before the first Interest; and a Data is paired with the first
Interest for its component, whether its fetch has ended or not. -/
theorem table_of_run (h : Run lib runTess es s out) :
    s.pendingInterest.length = (asked es).dedup.length ∧
    (∀ b : Component, s.pendingInterest.lookup b.toUri = firstRequest es b) ∧
    (∀ e s' new, step lib runTess s e = .ok (s', new) →
      s.pendingInterest <+: s'.pendingInterest) ∧
    s.pendingInterest.length ≤ s.outstanding.length + ended es ∧
    (s.outstanding.length < s.pendingInterest.length ↔ repeats es < ended es) ∧
    (s.pendingInterest = [] ↔ requests es = []) ∧
    (∀ p ∈ out, ∃ a b, p.fetch = [pic, a, b] ∧ firstRequest es b = some p.packet.name) := by
  have hlen := length_pendingInterest h
  have hfetches := length_outstanding h
  have hle : (asked es).dedup.length ≤ (asked es).length := (List.dedup_sublist _).length_le
  refine ⟨hlen, (Inv.of_run h).lookup, fun e s' new hs => step_prefix hs, by omega, ?_, ?_, ?_⟩
  · unfold repeats
    omega
  · rw [← List.length_eq_zero_iff, hlen, List.length_eq_zero_iff, List.dedup_eq_nil,
      ← List.length_eq_zero_iff, (Counts.of_run h).components, List.length_eq_zero_iff]
  · intro p hp
    obtain ⟨a, b, hf, -, hreq, -⟩ := (Inv.of_run h).puts p hp
    exact ⟨a, b, hf, hreq⟩

/-- A phone's image comes, and then another phone asks for one of that name. -/
def lateRun : List Event :=
  [.interest (phoneRequest "1"), phoneImage "1" 1, .interest (phoneRequest "2"), phoneImage "2" 2]

/-- What is left of a run: the sizes of the table and of the outstanding fetches,
and the packets put. -/
def leftOver (es : List Event) : Except Stop (ℕ × ℕ × List Packet) :=
  (run (step TextLib.reference echo) State.start es).map fun r =>
    (r.1.pendingInterest.length, r.1.outstanding.length, r.2.map (·.packet))

theorem run_of_leftOver {n k : ℕ} {ps : List Packet} (h : leftOver es = .ok (n, k, ps)) :
    ∃ s out, Run TextLib.reference echo es s out ∧ s.pendingInterest.length = n ∧
      s.outstanding.length = k ∧ out.map (·.packet) = ps := by
  unfold leftOver at h
  cases hrun : run (step TextLib.reference echo) State.start es with
  | error e => rw [hrun] at h; cases h
  | ok r =>
    rw [hrun] at h
    obtain ⟨h1, h2⟩ := Prod.mk.inj (Except.ok.inj h)
    obtain ⟨h2, h3⟩ := Prod.mk.inj h2
    exact ⟨r.1, r.2, reaches_run hrun, h1, h2, h3⟩

/-- Two fetches, both ended, and a table of one entry. -/
theorem table_of_run_late : ∃ s out, Run TextLib.reference echo lateRun s out ∧
    (s.outstanding.length < s.pendingInterest.length ↔ repeats lateRun < ended lateRun) := by
  obtain ⟨s, out, hrun, -⟩ := run_of_leftOver (show leftOver lateRun =
    .ok (1, 0, [⟨phoneRequest "1", [1]⟩, ⟨phoneRequest "1", [2]⟩]) by decide +kernel)
  obtain ⟨-, -, -, -, hiff, -⟩ := table_of_run hrun
  exact ⟨s, out, hrun, hiff⟩

/-- Every fetch has ended, and the table is not empty; the second image was
paired with the first request, which had ended. -/
theorem ended_request_paired : ∃ s out, Run TextLib.reference echo lateRun s out ∧
    s.outstanding.length = 0 ∧ s.pendingInterest.length = 1 ∧
    out.map (·.packet) = [⟨phoneRequest "1", [1]⟩, ⟨phoneRequest "1", [2]⟩] := by
  obtain ⟨s, out, hrun, h1, h2, h3⟩ := run_of_leftOver (show leftOver lateRun =
    .ok (1, 0, [⟨phoneRequest "1", [1]⟩, ⟨phoneRequest "1", [2]⟩]) by decide +kernel)
  exact ⟨s, out, hrun, h2, h1, h3⟩

end Producer
end IcnDemo
