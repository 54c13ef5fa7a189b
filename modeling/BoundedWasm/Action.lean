import BoundedWasm.Fault

/-!
# BoundedWasm.Action — work on a state that may fail

An action takes a state to an answer or a fault, and in both cases to a next state: what was done
before a fault stays done. Reading bytes, building a module and running a machine are actions on
three kinds of state.
-/

namespace BoundedWasm

abbrev Action (σ α : Type) : Type := EStateM Fault σ α

namespace Action

variable {σ τ α : Type}

/-- The answer that was computed without touching the state. -/
def ofExcept (answer : Except Fault α) : Action σ α :=
  match answer with
  | .ok a => pure a
  | .error fault => throw fault

/-- Works on a part of the state. -/
def onPart (part : σ → τ) (update : σ → τ → σ) (action : Action τ α) : Action σ α := fun s =>
  match action (part s) with
  | .ok a t => .ok a (update s t)
  | .error fault t => .error fault (update s t)

/-- Does the same `count` times. -/
def times (action : Action σ Unit) : (count : Nat) → Action σ Unit
  | 0 => pure ()
  | count + 1 => do
    action
    times action count

/-- Gives the fault as an answer, so that work goes on from there. -/
def observe (action : Action σ α) : Action σ (Except Fault α) := fun s =>
  match action s with
  | .ok a s' => .ok (.ok a) s'
  | .error fault s' => .ok (.error fault) s'

/-- Undoes everything when the action fails. -/
def atomic (action : Action σ α) : Action σ α := fun s =>
  match action s with
  | .ok a s' => .ok a s'
  | .error fault _ => .error fault s

end Action

end BoundedWasm
