import BoundedWasm.Bytes
import BoundedWasm.Module.IndexSpace

/-!
# BoundedWasm.LinearMemory — the memory of a machine

A linear memory is the first `size` bytes of a buffer that the host provides; the rest of the buffer
is never touched. An access is given by an address, a static offset and a width, and must lie inside
the memory as a whole. The first contents are zeros with the data segments of a module over them.
-/

namespace BoundedWasm

/-- Writes bytes one after the other from `start` on. -/
def writeBytes (buffer : Array UInt8) (start : Nat) : List UInt8 → Array UInt8
  | [] => buffer
  | b :: bytes => writeBytes (buffer.setIfInBounds start b) (start + 1) bytes

@[simp] theorem size_writeBytes (buffer : Array UInt8) (start : Nat) (bytes : List UInt8) :
    (writeBytes buffer start bytes).size = buffer.size := by
  induction bytes generalizing buffer start with
  | nil => rfl
  | cons b bytes ih => simp [writeBytes, ih]

structure LinearMemory where
  buffer : Array UInt8
  size : Nat
  size_le : size ≤ buffer.size

namespace LinearMemory

/-- The bytes from `address + offset` on, `width` of them, when they end inside a memory of `size`
bytes. The end is computed in 64 bits; beyond these the sum wraps around, as in a release build. A
debug build panics there, and gives no answer. -/
def effectiveRange (size : Nat) (address offset : UInt32) (width : UInt64) :
    Except Fault (Nat × Nat) :=
  let start := address.toUInt64 + offset.toUInt64
  let stop := start + width
  if size < stop.toNat then .error .accessOutOfBounds else .ok (start.toNat, stop.toNat)

/-- The contents of the memory. -/
def toList (m : LinearMemory) : List UInt8 := (m.buffer.extract 0 m.size).toList

/-- Writes bytes into the buffer; the caller sees to it that they lie inside the memory. -/
def write (m : LinearMemory) (start : Nat) (bytes : List UInt8) : LinearMemory :=
  ⟨writeBytes m.buffer start bytes, m.size, by simpa using m.size_le⟩

/-! ### Whole stretches, as a host sees them -/

def bytes? (m : LinearMemory) (start length : Nat) : Option (List UInt8) :=
  if start + length ≤ m.size then some (m.buffer.extract start (start + length)).toList else none

def overwrite? (m : LinearMemory) (start : Nat) (bytes : List UInt8) : Option LinearMemory :=
  if start + bytes.length ≤ m.size then some (m.write start bytes) else none

/-! ### Accesses of instructions -/

/-- The `width` bytes at an address. -/
def load (m : LinearMemory) (width : Nat) (address offset : UInt32) :
    Except Fault (List UInt8) := do
  let (start, stop) ← effectiveRange m.size address offset (UInt64.ofNat width)
  return (m.buffer.extract start stop).toList

/-- Puts bytes at an address. -/
def store (m : LinearMemory) (address offset : UInt32) (bytes : List UInt8) :
    Except Fault LinearMemory := do
  let (start, _) ← effectiveRange m.size address offset (UInt64.ofNat bytes.length)
  return m.write start bytes

/-! ### First contents -/

/-- Sets every byte of the memory to zero. -/
def zero (m : LinearMemory) : LinearMemory :=
  ⟨Array.replicate m.size 0 ++ m.buffer.extract m.size m.buffer.size, m.size, by simp⟩

/-- Writes data segments in their order, up to the first that does not fit; also says whether one
did not. -/
def place (m : LinearMemory) : List DataSegment → Bool × LinearMemory
  | [] => (true, m)
  | segment :: segments =>
    match m.store segment.offset 0 segment.bytes with
    | .error _ => (false, m)
    | .ok m => place m segments

end LinearMemory

/-- The bytes of memory that a machine for the module needs: its first memory at its least size. A
machine cannot use memory of someone else. -/
def Module.requiredMemory (m : Module) : Except Fault Nat :=
  if 0 < m.importedMemoryCount then .error .importedMemory
  else
    match m.memories.get? 0 with
    | some limits => .ok (limits.min.toNat * Limits.pageSize)
    | none => .ok 0

end BoundedWasm
