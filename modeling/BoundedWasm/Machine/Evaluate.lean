import BoundedWasm.Machine.Call
import BoundedWasm.Machine.Create

/-!
# BoundedWasm.Machine.Evaluate — one call on a machine of its own

The result of an exported function on given arguments, computed by a machine that is made for the
call.
-/

namespace BoundedWasm.Machine

/-- The value on top after an exported function was called on the arguments, if there is one. -/
def evaluate (m : Module) (name : String) (arguments : List Value) :
    Except Fault (Option Value) := do
  let size ← m.requiredMemory
  match create m {} (Array.replicate size 0) with
  | .error refusal => throw refusal.fault
  | .ok machine =>
    match (do arguments.forM push; callExport m name : Exec Unit) machine with
    | .ok _ machine => return machine.stack.last?
    | .error fault _ => throw fault

end BoundedWasm.Machine
