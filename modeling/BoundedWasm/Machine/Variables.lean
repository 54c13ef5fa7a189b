import BoundedWasm.Machine.Basic

/-!
# BoundedWasm.Machine.Variables — globals and locals

A defined global has a slot in the machine; an imported one is a cell of the host, read and written
through its 32 bits. A local is a slot on the stack of locals, inside the window of the running
activation. Both only take values of their own type.
-/

namespace BoundedWasm.Machine

variable (m : Module)

/-! ### Globals -/

/-- The value of a global. -/
def globalValue (s : Machine) (index : UInt32) : Except Fault Value :=
  match m.global? index with
  | none => .error .globalOutOfRange
  | some (.defined position) =>
    match s.globals.get? position with
    | some value => .ok value
    | none => .error .globalOutOfRange
  | some (.imported position type) =>
    match m.bindings.get? position with
    | some (.cell id) => Value.ofWord type.valueType (s.host.cells.read id)
    | _ => .error .variableUnbound

/-- What forbids writing a value to a global of the type. -/
def globalFault? (type : GlobalType) (value : Value) : Option Fault :=
  if !type.isMutable then some .globalImmutable
  else if value.type ≠ type.valueType then some .globalMismatch
  else none

def setGlobal (index : UInt32) (value : Value) : Exec Unit := do
  match m.global? index with
  | none => throw .globalOutOfRange
  | some (.defined position) =>
    match m.globals.get? position with
    | none => throw .globalOutOfRange
    | some entry =>
      match globalFault? entry.type value with
      | some fault => throw fault
      | none =>
        if position < (← get).globals.length then
          modify fun s => { s with globals := s.globals.set position value }
        else throw .globalOutOfRange
  | some (.imported position type) =>
    match globalFault? type value with
    | some fault => throw fault
    | none =>
      match m.bindings.get? position with
      | some (.cell id) =>
        let bits ← Action.ofExcept value.toWord
        modify fun s => { s with host := { s.host with cells := s.host.cells.write id bits } }
      | _ => throw .variableUnbound

/-! ### Locals -/

/-- The value of a local of the running activation. -/
def localValue (s : Machine) (index : UInt32) : Except Fault Value :=
  match (s.frame.localSlot? index).bind s.locals.get? with
  | some value => .ok value
  | none => .error .localOutOfRange

def setLocal (index : UInt32) (value : Value) : Exec Unit := fun s =>
  match s.frame.localSlot? index with
  | none => .error .localOutOfRange s
  | some slot =>
    match s.locals.get? slot with
    | none => .error .localOutOfRange s
    | some old =>
      if old.type = value.type then .ok () { s with locals := s.locals.set slot value }
      else .error .localMismatch s

end BoundedWasm.Machine
