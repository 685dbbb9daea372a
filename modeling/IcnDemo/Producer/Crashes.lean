/-
# What crashes the image producer

`onInterest` and `onData` index the names they are given without a look at their
lengths, and the name of a fetch is rebuilt from URIs, which throws for a digest
that is not 32 bytes long. `Safe` says for which events neither throws, in every state
(`step_ok_iff`): in a run of delivered events nothing of this throws exactly when all
its events are safe (`run_ok_iff`). A Data packet that satisfies a fetch as a
prefix of its name is safe; one that satisfies it by its digest never is
(`data_safe_iff`).
-/
import IcnDemo.Producer.Pending

namespace IcnDemo
namespace Producer

open Ndn Lib.Loop Lib.Runs

/-- The Face delivers the event in this state. -/
def Delivers (s : State) : Event → Prop
  | .interest name => doesMatch execOcrPrefix name = true
  | .data fetch data => fetch ∈ s.outstanding ∧ matchesData fetch data = true
  | .nack fetch | .timeout fetch => fetch ∈ s.outstanding

instance (s : State) : DecidablePred (Delivers s)
  | .interest name => inferInstanceAs (Decidable (doesMatch execOcrPrefix name = true))
  | .data fetch data =>
    inferInstanceAs (Decidable (fetch ∈ s.outstanding ∧ matchesData fetch data = true))
  | .nack fetch | .timeout fetch => inferInstanceAs (Decidable (fetch ∈ s.outstanding))

/-- Each of the events is delivered in the state that those before it lead to; after
a crash it does not matter what comes. -/
def Delivered (lib : TextLib) (runTess : Option Bytes → Bytes) : State → List Event → Prop
  | _, [] => True
  | s, e :: es => Delivers s e ∧
    match step lib runTess s e with
    | .ok r => Delivered lib runTess r.1 es
    | .error _ => True

instance decidableDelivered (lib : TextLib) (runTess : Option Bytes → Bytes) :
    ∀ (s : State) (es : List Event), Decidable (Delivered lib runTess s es)
  | _, [] => inferInstanceAs (Decidable True)
  | s, e :: es =>
    have : Decidable (match step lib runTess s e with
        | .ok r => Delivered lib runTess r.1 es
        | .error _ => True) :=
      match step lib runTess s e with
      | .ok r => decidableDelivered lib runTess r.1 es
      | .error _ => inferInstanceAs (Decidable True)
    inferInstanceAs (Decidable (_ ∧ _))

/-- An Interest with a component 2 and a component 3, digests of 32 bytes if they are
digests; a Data packet with a component 2. -/
def Safe : Event → Prop
  | .interest name => ∃ a b, name[2]? = some a ∧ name[3]? = some b ∧ a.Valid ∧ b.Valid
  | .data _ data => 3 ≤ data.name.length
  | .nack _ | .timeout _ => True

variable {lib : TextLib} {runTess : Option Bytes → Bytes} {s : State} {name : Name} {data : Data}

/-! ### The handlers -/

/-- **The name of the fetch is rebuilt from valid components only.** -/
theorem imgName_ok_iff (lib : TextLib) {a b : Component} :
    (∃ img, imgName lib a b = .ok img) ↔ a.Valid ∧ b.Valid := by
  constructor
  · intro ⟨img, himg⟩
    unfold imgName at himg
    rw [imgUri_eq, Name.ofUri_join] at himg
    have hvalid : ∀ c ∈ [pic, a, b], c.Valid := by
      intro c hc
      obtain ⟨c', hc'⟩ := exists_ok_of_mapM himg hc
      exact Component.valid_of_fromEscapedString_toUri lib hc'
    exact ⟨hvalid a (by simp), hvalid b (by simp)⟩
  · intro ⟨ha, hb⟩
    exact ⟨_, imgName_eq lib ha hb⟩

theorem onInterest_ok_iff (lib : TextLib) (s : State) (name : Name) :
    (∃ s', onInterest lib s name = .ok s') ↔ Safe (.interest name) := by
  constructor
  · intro ⟨s', h⟩
    obtain ⟨a, ha, h⟩ := bind_eq_ok h
    obtain ⟨b, hb, h⟩ := bind_eq_ok h
    cases himg : imgName lib a b with
    | error what => simp [himg] at h
    | ok img =>
      obtain ⟨hva, hvb⟩ := (imgName_ok_iff lib).mp ⟨img, himg⟩
      exact ⟨a, b, get_ok ha, get_ok hb, hva, hvb⟩
  · intro ⟨a, b, ha, hb, hva, hvb⟩
    unfold onInterest
    rw [get_of_some ha, ok_bind, get_of_some hb, ok_bind, imgName_eq lib hva hvb]
    exact ⟨_, rfl⟩

theorem onData_ok_iff (runTess : Option Bytes → Bytes) (s : State) (fetch : Name) (data : Data) :
    (∃ r, onData runTess s data = .ok r) ↔ Safe (.data fetch data) := by
  constructor
  · intro ⟨r, h⟩
    obtain ⟨c, hc, -⟩ := bind_eq_ok h
    exact (List.getElem?_eq_some_iff.mp (get_ok hc)).1
  · intro hlen
    exact ⟨_, onData_eq (List.getElem?_eq_getElem (Nat.lt_of_succ_le hlen))⟩

/-- **A delivered event is handled exactly when it is safe.** -/
theorem step_ok_iff {e : Event} (h : Delivers s e) :
    (∃ r, step lib runTess s e = .ok r) ↔ Safe e := by
  cases e with
  | interest name =>
    have hmatch : doesMatch execOcrPrefix name = true := h
    rw [step, if_pos hmatch, exists_bind_ok]
    exact onInterest_ok_iff lib s name
  | data fetch data =>
    have hmatch : fetch ∈ s.outstanding ∧ matchesData fetch data = true := h
    rw [step, if_pos hmatch, exists_bind_ok]
    exact onData_ok_iff runTess s fetch data
  | nack fetch | timeout fetch =>
    have hmem : fetch ∈ s.outstanding := h
    simp only [step]
    rw [if_pos hmem]
    exact iff_of_true ⟨_, rfl⟩ trivial

/-- **A run of delivered events from any state.** -/
theorem run_ok_iff_of_state : ∀ {es : List Event} {s : State}, Delivered lib runTess s es →
    ((∃ r, run (step lib runTess) s es = .ok r) ↔ ∀ e ∈ es, Safe e)
  | [], s, _ => iff_of_true ⟨_, rfl⟩ (by simp)
  | e :: es, s, ⟨hdel, hrest⟩ => by
    have hstep : (∃ r, step lib runTess s e = .ok r) ↔ Safe e := step_ok_iff hdel
    rw [List.forall_mem_cons, ← hstep]
    cases hr : step lib runTess s e with
    | error what =>
      unfold run
      rw [hr]
      simp
    | ok r =>
      rw [hr] at hrest
      have ih := run_ok_iff_of_state hrest
      unfold run
      rw [hr, ok_bind, exists_bind_ok, ih]
      simp

/-- **No index and no name of a run throws exactly when every event of it is safe.** The
size of the packets is left to the Face. -/
theorem run_ok_iff (es : List Event) (h : Delivered lib runTess State.start es) :
    (∃ r, run (step lib runTess) State.start es = .ok r) ↔ ∀ e ∈ es, Safe e :=
  run_ok_iff_of_state h

/-- The request of a phone, and its image. -/
theorem run_ok_iff_phone : ∃ r, run (step TextLib.reference echo) State.start
    [.interest (phoneRequest "1"), phoneImage "1" 1] = .ok r := by
  refine (run_ok_iff _ (by decide +kernel)).mpr fun e he => ?_
  simp only [List.mem_cons, List.not_mem_nil, or_false] at he
  rcases he with rfl | rfl
  · exact ⟨_, _, rfl, rfl, by decide, by decide⟩
  · exact Nat.le_refl 3

/-! ### Crashes -/

/-- What satisfies the fetch `/pic/a/b` is safe, unless it does so by its digest. -/
theorem data_safe_iff {a b : Component} (h : matchesData [pic, a, b] data = true) :
    Safe (.data [pic, a, b] data) ↔ [pic, a, b] <+: data.name := by
  constructor
  · intro hlen
    refine ((matchesData_iff _ _).mp h).resolve_right fun hfull => ?_
    have hshort := congrArg List.length hfull
    simp only [Data.fullName, List.length_append, List.length_cons, List.length_nil] at hshort
    unfold Safe at hlen
    omega
  · intro hprefix
    exact hprefix.length_le

theorem run_of_packets_error {es : List Event} {what : Stop} (h : packets es = .error what) :
    run (step TextLib.reference echo) State.start es = .error what := by
  unfold packets at h
  cases hrun : run (step TextLib.reference echo) State.start es with
  | error e =>
    rw [hrun] at h
    exact congrArg Except.error (Except.error.inj h)
  | ok r => rw [hrun] at h; cases h

/-- A request for an image named by a digest of `n` bytes. -/
def digestRequest (n : ℕ) : Name :=
  execOcrPrefix ++ [Component.ofString "10.0.0.1",
    ⟨.implicitSha256DigestComponent, List.replicate n 0⟩]

/-- The packet of that digest, whose name is the fetch's without it. -/
def digestData : Event :=
  .data [pic, Component.ofString "10.0.0.1", ⟨.implicitSha256DigestComponent, List.replicate 32 0⟩]
    { name := [pic, Component.ofString "10.0.0.1"]
      content := []
      digest := List.replicate 32 0
      digest_length := List.length_replicate }

/-- A request too short, a digest too short, and an image named by its digest. -/
theorem producer_crashes :
    (Delivered TextLib.reference echo State.start [.interest execOcrPrefix] ∧
      run (step TextLib.reference echo) State.start [.interest execOcrPrefix] =
        .error .undefined) ∧
    (Delivered TextLib.reference echo State.start [.interest (digestRequest 1)] ∧
      run (step TextLib.reference echo) State.start [.interest (digestRequest 1)] =
        .error (.thrown
          "Cannot convert to ImplicitSha256DigestComponent(expected sha256 in hex encoding)")) ∧
    (Delivered TextLib.reference echo State.start [.interest (digestRequest 32), digestData] ∧
      run (step TextLib.reference echo) State.start [.interest (digestRequest 32), digestData] =
        .error .undefined) := by
  exact ⟨⟨by decide +kernel, run_of_packets_error (by decide +kernel)⟩,
    ⟨by decide +kernel, run_of_packets_error (by decide +kernel)⟩,
    by decide +kernel, run_of_packets_error (by decide +kernel)⟩

end Producer
end IcnDemo
