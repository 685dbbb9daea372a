/-
# Runs of an event-driven program

A program with a step function that may refuse an event (`Except`) and emits
outputs. `Reaches` relates a sequence of events to the state and the outputs it
leads to; what the start has and every step keeps holds of every reachable
state (`Reaches.invariant`).
-/
import IcnDemo.Lib.Loop

namespace Lib
namespace Runs

open Loop

variable {State Event Output Refusal : Type}

section

variable (step : State → Event → Except Refusal (State × List Output)) (start : State)

/-- The events `es`, taken in order from `start`, lead to the state and emit the
outputs. -/
inductive Reaches : List Event → State → List Output → Prop
  | nil : Reaches [] start []
  | snoc {es : List Event} {s s' : State} {out new : List Output} {e : Event} :
      Reaches es s out → step s e = .ok (s', new) → Reaches (es ++ [e]) s' (out ++ new)

end

variable {step : State → Event → Except Refusal (State × List Output)} {start : State}

/-- An invariant of the events so far, the state and the outputs. -/
theorem Reaches.invariant {I : List Event → State → List Output → Prop} (h0 : I [] start [])
    (hstep : ∀ es s out e s' new, I es s out → step s e = .ok (s', new) →
      I (es ++ [e]) s' (out ++ new))
    {es : List Event} {s : State} {out : List Output} (h : Reaches step start es s out) :
    I es s out := by
  induction h with
  | nil => exact h0
  | snoc _ hs ih => exact hstep _ _ _ _ _ _ ih hs

/-- The events taken in order from `s`: the state they lead to and the outputs. -/
def run (step : State → Event → Except Refusal (State × List Output)) :
    State → List Event → Except Refusal (State × List Output)
  | s, [] => .ok (s, [])
  | s, e :: es => do
    let r ← step s e
    let r' ← run step r.1 es
    .ok (r'.1, r.2 ++ r'.2)

/-- What `run` computes from a reachable state is reachable. -/
theorem Reaches.append_run {es es' : List Event} {s s' : State} {out out' : List Output}
    (h : Reaches step start es s out) (hrun : run step s es' = .ok (s', out')) :
    Reaches step start (es ++ es') s' (out ++ out') := by
  induction es' generalizing es s out s' out' with
  | nil =>
    obtain ⟨rfl, rfl⟩ := Prod.mk.inj (Except.ok.inj hrun)
    rw [List.append_nil, List.append_nil]
    exact h
  | cons e es' ih =>
    unfold run at hrun
    obtain ⟨r, hr, hrun⟩ := bind_eq_ok hrun
    obtain ⟨r', hr', hrun⟩ := bind_eq_ok hrun
    obtain ⟨rfl, rfl⟩ := Prod.mk.inj (Except.ok.inj hrun)
    have := ih (h.snoc hr) hr'
    rwa [List.append_assoc, List.append_assoc] at this

theorem reaches_run {es : List Event} {s : State} {out : List Output}
    (hrun : run step start es = .ok (s, out)) : Reaches step start es s out :=
  Reaches.nil.append_run hrun

end Runs
end Lib
