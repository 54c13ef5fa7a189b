import BoundedWasm.Instruction
import BoundedWasm.FixedVec
import BoundedWasm.Limits
import BoundedWasm.Reader.Leb128
import BoundedWasm.Value

/-!
# BoundedWasm.Decode.Expression — instructions, bodies and constants

A body is a run of instructions up to the `end` that closes no block. `Body.expression` reads one
into a table of instructions, and when the end of a block is reached writes into its opening
instruction how many instructions lie between the two.
-/

namespace BoundedWasm

namespace Parser

/-- The operation whose code begins with `first`; an extended code goes on with a number. -/
def opcodeFrom? (first : UInt8) : Parser (Option Opcode) :=
  if first = Opcode.extendedPrefix then (fun n => Opcode.ofExtended? n.toNat) <$> uleb32
  else pure (Opcode.ofByte? first)

def opcode : Parser Opcode := do
  match ← opcodeFrom? (← byte) with
  | some found => return found
  | none => throw .unknownOpcode

/-- The byte of the block type without values. -/
def emptyBlock : UInt8 := 0x40

/-- A block type is one byte, or the index of a function type as a signed integer. -/
def blockType : Parser BlockType := do
  let next? := (← get).peek?
  if next? = some emptyBlock then
    skip 1
    return .empty
  match next?.bind ValueType.ofByte? with
  | some type =>
    skip 1
    return .value type
  | none =>
    let index ← sleb33
    if 0 ≤ index ∧ index < UInt32.size then return .typeIndex (UInt32.ofNat index.toNat)
    else throw .invalidBlockType

/-- The immediates of an operation. The labels of a branch table are read but not kept: only their
number and the default label are. -/
def immediates (opcode : Opcode) : Parser (Immediate × Immediate) :=
  match opcode.immediates with
  | .none => return (.none, .none)
  | .index => return (.u32 (← uleb32), .none)
  | .i32 => return (.i32 (← sleb32), .none)
  | .i64 => return (.i64 (← sleb64), .none)
  | .f32 => return (.f32 (← word32), .none)
  | .f64 => return (.f64 (← word64), .none)
  | .block => return (.block (← blockType), .u32 0)
  | .memArg => do
    let align ← uleb32
    let offset ← uleb32
    return (.u32 align, .u32 offset)
  | .callIndirect => do
    let typeIndex ← uleb32
    let tableIndex ← uleb32
    return (.u32 typeIndex, .u32 tableIndex)
  | .brTable => do
    let count ← uleb32
    Action.times (discard uleb32) count.toNat
    let default ← uleb32
    return (.u32 count, .u32 default)
  | .reserved => do
    if (← byte) ≠ 0 then throw .invalidReservedByte
    return (.none, .none)

def instruction : Parser Instruction := do
  let opcode ← opcode
  let (first, second) ← immediates opcode
  return ⟨opcode, first, second⟩

/-- The value after the code of a constant instruction. -/
def constantOf : Opcode → Parser Value
  | .const .i32 => Value.i32 <$> sleb32
  | .const .i64 => Value.i64 <$> sleb64
  | .const .f32 => Value.f32 <$> word32
  | .const .f64 => Value.f64 <$> word64
  | _ => throw .constantExpected

/-- A constant of the expected type, closed by `end`. -/
def constant (expected : ValueType) : Parser Value := do
  match Opcode.ofByte? (← byte) with
  | none => throw .constantExpected
  | some opcode =>
    let value ← constantOf opcode
    if Opcode.ofByte? (← byte) ≠ some .endBlock then throw .constantUnterminated
    if value.type ≠ expected then throw .constantTypeMismatch
    return value

end Parser

/-- A reader at the bytes of bodies, and the table that their instructions go to. -/
structure Body (cap : Nat) where
  reader : Reader
  pool : FixedVec Instruction cap

namespace Body

variable {cap : Nat}

def reading {α : Type} (p : Parser α) : Action (Body cap) α :=
  Action.onPart reader (fun b r => { b with reader := r }) p

/-- Adds an instruction to the table and gives its place. -/
def place (instruction : Instruction) : Action (Body cap) Nat := do
  let index := (← get).pool.length
  modify fun b => { b with pool := b.pool.put instruction }
  return index

/-- Writes into a block's opening how many instructions lie between it and its end. -/
def close (opening ending : Nat) : Action (Body cap) Unit :=
  modify fun b =>
    match b.pool.get? opening with
    | none => b
    | some instruction =>
      let inner := UInt32.ofNat (ending - opening - 1)
      { b with pool := b.pool.set opening { instruction with second := .u32 inner } }

/-- Reads instructions up to the `end` that closes none of the blocks in `opened`, which are given
by the places of their openings, the innermost first; the table has `room` free places. -/
def instructions : (room : Nat) → (opened : List Nat) → Action (Body cap) Unit
  | 0, _ => do
    let _ ← reading Parser.instruction
    throw .tableFull
  | room + 1, opened => do
    let next ← reading Parser.instruction
    let index ← place next
    if next.opcode.opensBlock then
      if opened.length < Limits.maxBlockDepth then instructions room (index :: opened)
      else throw .blocksTooDeep
    else if next.opcode = .endBlock then
      match opened with
      | [] => return
      | opening :: outer =>
        close opening index
        instructions room outer
    else instructions room opened

/-- One whole body: the place of its first instruction in the table, and their number. -/
def expression : Action (Body cap) (Nat × Nat) := do
  let start := (← get).pool.length
  instructions (← get).pool.free []
  return (start, (← get).pool.length - start)

end Body

end BoundedWasm
