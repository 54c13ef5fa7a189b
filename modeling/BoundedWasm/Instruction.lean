import BoundedWasm.Opcode

/-!
# BoundedWasm.Instruction — one decoded instruction

An operation code with at most two immediates: an index or a constant comes first, of a memory
access the alignment and then the offset, of a block its type and then the number of instructions up
to its end.
-/

namespace BoundedWasm

/-- The type of a block: nothing, one value, or a function type by its index. -/
inductive BlockType where
  | empty
  | value (type : ValueType)
  | typeIndex (index : UInt32)
  deriving DecidableEq, Inhabited

inductive Immediate where
  | none
  | u32 (n : UInt32)
  | i32 (bits : BitVec 32)
  | i64 (bits : BitVec 64)
  | f32 (bits : BitVec 32)
  | f64 (bits : BitVec 64)
  | block (type : BlockType)
  deriving DecidableEq, Inhabited

structure Instruction where
  opcode : Opcode
  first : Immediate
  second : Immediate
  deriving DecidableEq, Inhabited

namespace Instruction

/-- An instruction without immediates. -/
def simple (opcode : Opcode) : Instruction := ⟨opcode, .none, .none⟩

/-- The index that follows the code of a call or of a variable access. -/
def index (i : Instruction) : Except Fault UInt32 :=
  match i.first with
  | .u32 index => .ok index
  | _ => .error .malformedImmediate

/-- The static offset of a memory access. -/
def memoryOffset (i : Instruction) : Except Fault UInt32 :=
  match i.second with
  | .u32 offset => .ok offset
  | _ => .error .malformedImmediate

/-- The number of instructions between a block's opening and its end. -/
def blockLength (i : Instruction) : Except Fault UInt32 :=
  match i.first, i.second with
  | .block _, .u32 length => .ok length
  | _, _ => .error .malformedImmediate

end Instruction

end BoundedWasm
