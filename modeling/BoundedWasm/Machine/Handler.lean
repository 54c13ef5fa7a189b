import BoundedWasm.Machine.Variables
import BoundedWasm.Numeric.Integer
import BoundedWasm.Numeric.Single

/-!
# BoundedWasm.Machine.Handler — what each operation does

`handler?` gives the work of an operation on a machine, for those operations that machines carry
out. Operands are popped last first, each at its type, so that a wrong operand stays on the stack.
-/

namespace BoundedWasm.Machine

/-! ### Operand patterns -/

def unary (eval : BitVec 32 → BitVec 32) : Exec Unit := do
  let a ← popI32
  pushI32 (eval a)

def binary (eval : BitVec 32 → BitVec 32 → Except Fault (BitVec 32)) : Exec Unit := do
  let b ← popI32
  let a ← popI32
  pushI32 (← Action.ofExcept (eval a b))

def compare (holds : BitVec 32 → BitVec 32 → Bool) : Exec Unit := do
  let b ← popI32
  let a ← popI32
  pushBool (holds a b)

def unaryF32 (eval : BitVec 32 → BitVec 32) : Exec Unit := do
  let a ← popF32
  pushF32 (eval a)

def binaryF32 (eval : BitVec 32 → BitVec 32 → BitVec 32) : Exec Unit := do
  let b ← popF32
  let a ← popF32
  pushF32 (eval a b)

def compareF32 (holds : BitVec 32 → BitVec 32 → Bool) : Exec Unit := do
  let b ← popF32
  let a ← popF32
  pushBool (holds a b)

/-- Pops a pattern and pushes an integer. -/
def fromF32 (eval : BitVec 32 → Except Fault (BitVec 32)) : Exec Unit := do
  let a ← popF32
  pushI32 (← Action.ofExcept (eval a))

/-- Pops an integer and pushes a pattern. -/
def toF32 (eval : BitVec 32 → BitVec 32) : Exec Unit := do
  let a ← popI32
  pushF32 (eval a)

/-! ### Memory -/

/-- The number in the `width` bytes at the popped address. -/
def loadNumber (i : Instruction) (width : Nat) : Exec Nat := do
  let offset ← Action.ofExcept i.memoryOffset
  let address ← popI32
  let bytes ← Action.ofExcept ((← get).memory.load width (UInt32.ofBitVec address) offset)
  return Bytes.ofLittleEndian bytes

/-- Puts the lowest `width` bytes of a number at the popped address. -/
def storeNumber (i : Instruction) (width n : Nat) : Exec Unit := do
  let offset ← Action.ofExcept i.memoryOffset
  let address ← popI32
  let memory ← Action.ofExcept <|
    (← get).memory.store (UInt32.ofBitVec address) offset (Bytes.toLittleEndian width n)
  modify fun s => { s with memory }

def loadNarrow (i : Instruction) (part : Narrow32) (sign : Sign) : Exec Unit := do
  let bytes := match part with
    | .bits8 => 1
    | .bits16 => 2
  let word := BitVec.ofNat (8 * bytes) (← loadNumber i bytes)
  pushI32 <| match sign with
    | .signed => word.signExtend 32
    | .unsigned => word.setWidth 32

def storeNarrow (i : Instruction) (part : Narrow32) : Exec Unit := do
  let value ← popI32
  match part with
  | .bits8 => storeNumber i 1 value.toNat
  | .bits16 => storeNumber i 2 value.toNat

/-- The size of the memory in whole pages. -/
def memorySize : Exec Unit := do
  pushI32 (BitVec.ofNat 32 ((← get).memory.size / Limits.pageSize))

/-- The memory never grows: any request is answered with minus one. -/
def memoryGrow : Exec Unit := do
  let _ ← popI32
  pushI32 (-1)

/-! ### Variables, constants and choice -/

/-- The constant among the immediates of an instruction. -/
def constant (i : Instruction) : Except Fault Value :=
  match i.first with
  | .i32 bits => .ok (.i32 bits)
  | .i64 bits => .ok (.i64 bits)
  | .f32 bits => .ok (.f32 bits)
  | .f64 bits => .ok (.f64 bits)
  | _ => .error .constantImmediateMissing

def localGet (i : Instruction) : Exec Unit := do
  let index ← Action.ofExcept i.index
  push (← Action.ofExcept ((← get).localValue index))

def localSet (i : Instruction) : Exec Value := do
  let value ← pop
  setLocal (← Action.ofExcept i.index) value
  return value

def globalGet (m : Module) (i : Instruction) : Exec Unit := do
  let index ← Action.ofExcept i.index
  push (← Action.ofExcept ((← get).globalValue m index))

def globalSet (m : Module) (i : Instruction) : Exec Unit := do
  let value ← pop
  setGlobal m (← Action.ofExcept i.index) value

/-- Of two values of one type, the lower if the condition on top is not zero. -/
def select : Exec Unit := do
  let condition ← popI32
  let second ← pop
  let first ← pop
  if first.type ≠ second.type then throw .selectMismatch
  push (if condition ≠ 0 then first else second)

/-! ### All operations -/

/-- What an operation does that does not leave the body. `enter` calls a function. -/
def work? (m : Module) (enter : UInt32 → Exec Unit) : Opcode → Option (Instruction → Exec Unit)
  | .unreachable => some fun _ => throw .unreachableExecuted
  | .nop | .block | .endBlock => some fun _ => pure ()
  | .call => some fun i => do enter (← Action.ofExcept i.index)
  | .drop => some fun _ => discard pop
  | .select => some fun _ => select
  | .localGet => some localGet
  | .localSet => some fun i => discard (localSet i)
  | .localTee => some fun i => do push (← localSet i)
  | .globalGet => some (globalGet m)
  | .globalSet => some (globalSet m)
  | .load .i32 => some fun i => do pushI32 (BitVec.ofNat 32 (← loadNumber i 4))
  | .load .f32 => some fun i => do pushF32 (BitVec.ofNat 32 (← loadNumber i 4))
  | .load32 part sign => some fun i => loadNarrow i part sign
  | .store .i32 => some fun i => do storeNumber i 4 (← popI32).toNat
  | .store .f32 => some fun i => do storeNumber i 4 (← popF32).toNat
  | .store32 part => some fun i => storeNarrow i part
  | .memorySize => some fun _ => memorySize
  | .memoryGrow => some fun _ => memoryGrow
  | .const _ => some fun i => do push (← Action.ofExcept (constant i))
  | .eqz .w32 => some fun _ => do pushBool ((← popI32) == 0)
  | .intCompare .w32 operator => some fun _ => compare operator.holds
  | .intUnary .w32 operator => some fun _ => unary operator.eval
  | .intBinary .w32 operator => some fun _ => binary operator.eval
  | .floatCompare .w32 operator => some fun _ => compareF32 operator.holds
  | .floatUnary .w32 operator => operator.eval?.map fun eval _ => unaryF32 eval
  | .floatBinary .w32 operator => operator.eval?.map fun eval _ => binaryF32 eval
  | .conversion (.truncate .w32 .w32 sign) => some fun _ => fromF32 (Single.truncate sign)
  | .conversion (.convert .w32 .w32 sign) => some fun _ => toF32 (Single.ofInteger sign)
  | .conversion (.floatToInt .w32) => some fun _ => fromF32 .ok
  | .conversion (.intToFloat .w32) => some fun _ => toF32 id
  | .truncateSaturating .w32 .w32 sign =>
    some fun _ => fromF32 fun a => .ok (Single.truncateSaturating sign a)
  | _ => none

/-- What an operation does, and whether the body goes on after it. -/
def handler? (m : Module) (enter : UInt32 → Exec Unit) (opcode : Opcode) :
    Option (Instruction → Exec Flow) :=
  match opcode with
  | .ret => some fun _ => return .leave
  | opcode =>
    (work? m enter opcode).map fun work i => do
      work i
      return .next

end BoundedWasm.Machine

namespace BoundedWasm.Opcode

/-- Whether machines carry out the operation. -/
def isSupported (opcode : Opcode) : Bool :=
  (Machine.handler? .empty (fun _ => pure ()) opcode).isSome

end BoundedWasm.Opcode
