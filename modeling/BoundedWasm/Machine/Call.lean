import BoundedWasm.Machine.Handler

/-!
# BoundedWasm.Machine.Call — functions calling functions

A native function runs in the frame of its caller and must leave the operand stack at the height
that its binding declares. A defined function gets a frame of its own: its arguments move from the
operands to the locals, its body runs, and its last operands become the caller's. Calls nest at
most `maxCallDepth` deep, and `invoke` is by recursion on the number of activations that may still
open.
-/

namespace BoundedWasm

open Limits

/-! ### Native functions -/

/-- Runs a program of the host on a machine. -/
def Native.run : Native → Exec Unit
  | finish outcome => Action.ofExcept outcome
  | push value next => do run (next (← Action.observe (Machine.push value)))
  | pop next => do run (next (← Action.observe Machine.pop))
  | memorySize next => do run (next (← get).memory.size)
  | readMemory start length next => do run (next ((← get).memory.bytes? start length))
  | writeMemory start bytes next => do
    match (← get).memory.overwrite? start bytes with
    | some memory =>
      modify fun s => { s with memory }
      run (next true)
    | none => run (next false)
  | readCell cell next => do run (next ((← get).host.cells.read cell))
  | writeCell cell bits next => do
    modify fun s => { s with host := { s.host with cells := s.host.cells.write cell bits } }
    run next
  | report entry next => do
    modify fun s => { s with host := { s.host with reports := s.host.reports.push entry } }
    run next

namespace Machine

variable (m : Module)

/-- The binding of an import; an import without a slot is unbound. -/
def bindingOf (position : Nat) : NativeBinding := (m.bindings.get? position).getD .unbound

/-- Calls what is bound to an import. -/
def callNative (position : Nat) : Exec Unit := do
  match bindingOf m position with
  | .function binding =>
    let before := (← get).stack.length
    if before < (← get).frame.stackBase + binding.inputs then throw .stackUnderflow
    note (.nativeEntered position)
    poisoning do
      binding.callback.run
      if (← get).stack.length ≠ before - binding.inputs + binding.outputs then throw .nativeHeight
  | _ =>
    match m.imports.get? position with
    | some entry => note (.unboundCalled entry.moduleName entry.field)
    | none => pure ()
    throw .functionUnbound

/-! ### Bodies -/

/-- Runs instructions up to the first that leaves the body. -/
def runBody (enter : UInt32 → Exec Unit) : List Instruction → Exec Unit
  | [] => return
  | i :: rest => do
    match handler? m enter i.opcode with
    | none =>
      note (.opcodeUnsupported i.opcode)
      throw .opcodeUnsupported
    | some work =>
      match ← work i with
      | .next => runBody enter rest
      | .leave => return

/-- Adds the locals of each group to the stack of locals. -/
def openLocals : List LocalGroup → Exec Unit
  | [] => return
  | group :: groups => do
    let locals := (← get).locals
    let length := locals.length + group.count.toNat
    let locals ← Action.ofExcept (locals.resize length (Value.zero group.valueType))
    modify fun s => { s with locals }
    openLocals groups

/-- Moves the arguments from the operand stack to the locals and opens the others; answers the frame
of the new activation. -/
def openFrame (code : Code) (type : FunctionType) : Exec Frame := do
  let s ← get
  let params := type.params.length
  if s.stack.length < s.frame.stackBase + params then throw .stackUnderflow
  let stackBase := s.stack.length - params
  let arguments := s.stack.slice stackBase s.stack.length
  if arguments.map Value.type ≠ type.params.toList then throw .argumentMismatch
  let localsBase := s.locals.length
  let numLocals := params + code.numLocals.toNat
  if s.locals.free < numLocals then throw .localsExhausted
  let locals ← Action.ofExcept (s.locals.extend arguments)
  set { s with locals, stack := s.stack.truncate stackBase }
  openLocals code.locals.toList
  return ⟨localsBase, numLocals, stackBase⟩

/-- Runs an action in a frame of its own, one activation deeper; afterwards frame, depth and locals
are as they were, whatever the action's end. -/
def withFrame (frame : Frame) (action : Exec Unit) : Exec Unit := fun s =>
  let close (s' : Machine) : Machine :=
    { s' with
      depth := s'.depth - 1
      frame := s.frame
      locals := s'.locals.truncate frame.localsBase }
  match action { s with frame, depth := s.depth + 1 } with
  | .ok _ s' => .ok () (close s')
  | .error fault s' => .error fault (close s')

/-- Leaves only the last `results` operands above `stackBase`. -/
def closeOperands (stackBase results : Nat) : Exec Unit := do
  if (← get).stack.length < stackBase + results then throw .stackUnderflow
  modify fun s => { s with stack := s.stack.keepEnds stackBase results }

/-- Calls a function of the module; `enter` calls further functions from its body. -/
def callDefined (enter : UInt32 → Exec Unit) (position : Nat) (typeIndex : UInt32) :
    Exec Unit := do
  match m.codes.get? position, m.types.get? typeIndex.toNat with
  | none, _ => throw .bodyMissing
  | some _, none => throw .functionTypeMissing
  | some code, some type =>
    let frame ← openFrame code type
    poisoning <| withFrame frame do
      note (.bodyEntered position (← get).depth)
      runBody m enter (← Action.ofExcept (m.body code))
    poisoning (closeOperands frame.stackBase type.results.length)

/-! ### Calls -/

/-- Calls a function by its index; `defined` calls the functions of the module. -/
def callBy (defined : (position : Nat) → (typeIndex : UInt32) → Exec Unit) (index : UInt32) :
    Exec Unit :=
  match m.function? index with
  | none => throw .functionOutOfRange
  | some (.imported position _) => callNative m position
  | some (.defined position typeIndex) => defined position typeIndex

/-- Calls a function when `room` more activations may open. -/
def invokeWithin : (room : Nat) → (index : UInt32) → Exec Unit
  | 0 => callBy m fun _ _ => throw .callDepthReached
  | room + 1 => callBy m fun position typeIndex =>
    callDefined m (fun index => invokeWithin room index) position typeIndex

/-- Calls a function from where the machine stands. -/
def invoke (index : UInt32) : Exec Unit := do
  invokeWithin m (maxCallDepth - (← get).depth) index

/-- Takes note of a fault that reaches the host, and poisons the machine if the fault is of such a
kind or the machine is poisoned already. -/
def settle (index : UInt32) (fault : Fault) : Exec Unit := do
  if fault.poisonsInstance || (← get).poisoned then
    note (.callTrapped index fault)
    modify fun s => { s with poisoned := true }

/-- A call from the host. -/
def call (index : UInt32) : Exec Unit := do
  if (← get).poisoned then throw .poisoned
  match ← Action.observe (invoke m index) with
  | .ok _ => return
  | .error fault =>
    settle index fault
    throw fault

/-- Calls an exported function by name. -/
def callExport (name : String) : Exec Unit :=
  match m.exportedFunction? name with
  | none => throw .exportMissing
  | some index => call m index

/-- Calls the start function, if the module has one. -/
def runStart : Exec Unit :=
  match m.start with
  | none => return
  | some index => call m index

end Machine

end BoundedWasm
