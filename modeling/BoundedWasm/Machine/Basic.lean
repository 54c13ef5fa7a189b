import BoundedWasm.Action
import BoundedWasm.Cells
import BoundedWasm.Event
import BoundedWasm.LinearMemory

/-!
# BoundedWasm.Machine.Basic — the state of a machine and its operand stack

A machine keeps all its activations on one operand stack and one stack of locals. The frame of the
running activation says where its locals lie and how far down it may pop. The host beside it holds
the cells, the log and the reports of native functions.
-/

namespace BoundedWasm

open Limits

/-- Where the running activation has its locals and its operands. -/
structure Frame where
  localsBase : Nat := 0
  numLocals : Nat := 0
  stackBase : Nat := 0
  deriving DecidableEq, Inhabited

/-- The place of a local on the stack of locals, as a 64-bit number. -/
def Frame.localSlot? (frame : Frame) (index : UInt32) : Option Nat :=
  if index.toNat < frame.numLocals then some ((frame.localsBase + index.toNat) % UInt64.size)
  else none

/-- What lies outside a machine and is changed by its runs. -/
structure Host where
  cells : Cells := {}
  log : Array Event := #[]
  reports : Array Report := #[]

structure Machine where
  memory : LinearMemory
  globals : FixedVec Value maxGlobals
  stack : FixedVec Value maxOperandStack := .empty
  locals : FixedVec Value maxLocalsStack := .empty
  frame : Frame := {}
  /-- The number of open activations. -/
  depth : Nat := 0
  /-- A poisoned machine takes no calls any more. -/
  poisoned : Bool := false
  host : Host := {}

/-- Work of a machine. -/
abbrev Exec (α : Type) : Type := Action Machine α

/-- Whether a body goes on after an instruction or is left. -/
inductive Flow where
  | next
  | leave
  deriving DecidableEq

namespace Machine

/-- The machine in words. -/
def describe (s : Machine) : String :=
  "VirtualMachine \x7b memory_len: " ++ toString s.memory.size ++ ", stack_depth: "
    ++ toString s.stack.length ++ ", call_depth: " ++ toString s.depth ++ ", poisoned: "
    ++ toString s.poisoned ++ " \x7d"

def note (event : Event) : Exec Unit :=
  modify fun s => { s with host := { s.host with log := s.host.log.push event } }

/-! ### Operand stack -/

def push (value : Value) : Exec Unit := fun s =>
  if s.stack.length < maxOperandStack then .ok () { s with stack := s.stack.put value }
  else .error .stackOverflow s

def pushI32 (bits : BitVec 32) : Exec Unit := push (.i32 bits)

def pushF32 (bits : BitVec 32) : Exec Unit := push (.f32 bits)

def pushBool (b : Bool) : Exec Unit := pushI32 (if b then 1 else 0)

/-- The top value, if it belongs to the running activation. -/
def top : Exec Value := fun s =>
  if s.stack.length ≤ s.frame.stackBase then .error .stackUnderflow s
  else
    match s.stack.last? with
    | none => .error .stackUnderflow s
    | some value => .ok value s

def drop : Exec Unit := modify fun s => { s with stack := s.stack.pop }

def pop : Exec Value := do
  let value ← top
  drop
  return value

/-- Pops the top value at a type; a value of another type stays where it is. -/
def popAs {α : Type} (read : Value → Except Fault α) : Exec α := do
  let value ← top
  let found ← Action.ofExcept (read value)
  drop
  return found

def popI32 : Exec (BitVec 32) := popAs Value.asI32

/-- The bits of an integer, read as unsigned. -/
def popU32 : Exec UInt32 := UInt32.ofBitVec <$> popI32

def popI64 : Exec (BitVec 64) := popAs Value.asI64

def popF32 : Exec (BitVec 32) := popAs Value.asF32

def popF64 : Exec (BitVec 64) := popAs Value.asF64

/-! ### Poison -/

/-- Leaves the machine poisoned when the action fails. -/
def poisoning {α : Type} (action : Exec α) : Exec α := fun s =>
  match action s with
  | .ok a s' => .ok a s'
  | .error fault s' => .error fault { s' with poisoned := true }

end Machine

end BoundedWasm
