import BoundedWasm.Value

/-!
# BoundedWasm.Native — functions of the host

A native function is a program over the operations that the machine offers it: the operand stack,
the linear memory, cells of the host that live outside every machine, and a record of reports. The
type is the tree of everything such a program may do next, so that a statement about all native
functions is a statement about all trees.
-/

namespace BoundedWasm

/-- Cells of the host are known by number. -/
abbrev CellId := Nat

/-- What a native function notes down for its host. -/
inductive Report where
  | value (value : Value)
  | word (n : Int)
  | fault (fault : Fault)
  | bytes (bytes : List UInt8)
  | absent

/-- A program of the host: each operation is followed by what is done with its answer. -/
inductive Native where
  | finish (outcome : Except Fault Unit)
  | push (value : Value) (next : Except Fault Unit → Native)
  | pop (next : Except Fault Value → Native)
  | memorySize (next : Nat → Native)
  | readMemory (start length : Nat) (next : Option (List UInt8) → Native)
  | writeMemory (start : Nat) (bytes : List UInt8) (next : Bool → Native)
  | readCell (cell : CellId) (next : BitVec 32 → Native)
  | writeCell (cell : CellId) (bits : BitVec 32) (next : Native)
  | report (report : Report) (next : Native)

namespace Native

instance : Inhabited Native := ⟨finish (.ok ())⟩

/-- Ends with a fault. -/
def fail (fault : Fault) : Native := finish (.error fault)

/-- Pushes a value and goes on, or ends with the fault of the push. -/
def pushThen (value : Value) (next : Native) : Native :=
  push value fun
    | .ok _ => next
    | .error fault => fail fault

/-- Pushes `count` copies of a value, up to the first fault. -/
def pushMany (value : Value) : (count : Nat) → (next : Native) → Native
  | 0, next => next
  | count + 1, next => push value fun
    | .ok _ => pushMany value count next
    | .error fault => fail fault

/-- Pops a value and goes on with it, or ends with the fault of the pop. -/
def popThen (next : Value → Native) : Native :=
  pop fun
    | .ok value => next value
    | .error fault => fail fault

/-- Pops a value and reads it at a type; a value of another type is gone as well. -/
def popAs {α : Type} (read : Value → Except Fault α) (next : Except Fault α → Native) : Native :=
  pop fun answer => next (answer.bind read)

def popI32 (next : Except Fault (BitVec 32) → Native) : Native := popAs Value.asI32 next

/-- The bits of an integer, read as unsigned. -/
def popU32 (next : Except Fault UInt32 → Native) : Native :=
  popI32 fun answer => next (answer.map UInt32.ofBitVec)

def popF32 (next : Except Fault (BitVec 32) → Native) : Native := popAs Value.asF32 next

/-- Goes on with an answer, or ends with the fault that stands in its place. -/
def orFail {α : Type} (next : α → Native) : Except Fault α → Native
  | .ok answer => next answer
  | .error fault => fail fault

end Native

/-! ### Bindings -/

/-- A native function with the numbers of values it takes and leaves. -/
structure FunctionBinding where
  callback : Native
  inputs : Nat
  outputs : Nat

/-- What the host has put in an import's place. -/
inductive NativeBinding where
  | unbound
  | cell (id : CellId)
  | function (binding : FunctionBinding)

namespace NativeBinding

instance : Inhabited NativeBinding := ⟨unbound⟩

def isBound : NativeBinding → Bool
  | unbound => false
  | _ => true

/-- The binding in words; `contents` gives the bits that a cell holds. -/
def describe (contents : CellId → BitVec 32) : NativeBinding → String
  | unbound => "Unbound"
  | cell id => "Variable(" ++ toString (contents id).toNat ++ ")"
  | function binding =>
    "Function \x7b inputs: " ++ toString binding.inputs ++ ", outputs: "
      ++ toString binding.outputs ++ ", .. \x7d"

end NativeBinding

end BoundedWasm
