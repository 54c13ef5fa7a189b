import BoundedWasm.Machine.Basic

/-!
# BoundedWasm.Machine.Create — a machine from a module and a buffer

The buffer must hold the module's memory. It is filled with zeros and the data segments, and the
globals get their first values. When the machine is refused the buffer goes back to the host as it
then is.
-/

namespace BoundedWasm

/-- Why there is no machine, and the buffer as it was left. -/
structure Refusal where
  fault : Fault
  buffer : Array UInt8

namespace Machine

def create (m : Module) (host : Host) (buffer : Array UInt8) : Except Refusal Machine :=
  match m.requiredMemory with
  | .error fault => .error ⟨fault, buffer⟩
  | .ok size =>
    if h : size ≤ buffer.size then
      match (LinearMemory.zero ⟨buffer, size, h⟩).place m.data.toList with
      | (false, memory) => .error ⟨.segmentOutOfBounds, memory.buffer⟩
      | (true, memory) =>
        let globals := FixedVec.empty.putAll (m.globals.toList.map Global.init)
        let event := Event.machineCreated size globals.length
        .ok { memory, globals, host := { host with log := host.log.push event } }
    else .error ⟨.bufferTooSmall, buffer⟩

end Machine

end BoundedWasm
