import BoundedWasm.Proofs.Machine.Invoke

/-!
# BoundedWasm.Proofs.Machine.Plain — an evaluator without shared stacks

The meaning of a module by plain recursion.  Every activation has a list of operands and a list of
locals of its own, so that nothing has to be restored when it ends, and no list is ever full.  A
call takes its arguments from the end of the caller's operands and appends its results there.  The
evaluation of a call need not end; its outcome is then `none`.
-/

namespace BoundedWasm

/-- What an activation works on: operands (the top one last) and locals are its own, the rest is
shared by all. -/
structure Plain where
  operands : List Value
  locals : List Value
  globals : List Value
  memory : LinearMemory
  cells : Cells
  reports : Array Report

namespace Plain

/-- Work of one activation. -/
abbrev Work (α : Type) : Type := Action Plain α

/-! ### Operands -/

def push (value : Value) : Work Unit :=
  modify fun r => { r with operands := r.operands ++ [value] }

def pop : Work Value := fun r =>
  match r.operands.getLast? with
  | none => .error .stackUnderflow r
  | some value => .ok value { r with operands := r.operands.dropLast }

/-- Takes the last operand if `read` accepts it. -/
def popAs {α : Type} (read : Value → Except Fault α) : Work α := fun r =>
  match r.operands.getLast? with
  | none => .error .stackUnderflow r
  | some value =>
    match read value with
    | .error fault => .error fault r
    | .ok a => .ok a { r with operands := r.operands.dropLast }

/-- One operand, and what is made of it. -/
def one {α : Type} (read : Value → Except Fault α) (eval : α → Except Fault Value) : Work Unit := do
  let a ← popAs read
  push (← Action.ofExcept (eval a))

/-- Two operands, the second on top, and what is made of them. -/
def two {α : Type} (read : Value → Except Fault α) (eval : α → α → Except Fault Value) :
    Work Unit := do
  let b ← popAs read
  let a ← popAs read
  push (← Action.ofExcept (eval a b))

def truth (b : Bool) : Value := .i32 (if b then 1 else 0)

def select : Work Unit := do
  let condition ← popAs Value.asI32
  let second ← pop
  let first ← pop
  if first.type ≠ second.type then throw .selectMismatch
  push (if condition ≠ 0 then first else second)

/-! ### Memory -/

/-- The number in the `width` bytes at the address on top. -/
def loadNumber (i : Instruction) (width : Nat) : Work Nat := do
  let offset ← Action.ofExcept i.memoryOffset
  let address ← popAs Value.asI32
  let bytes ← Action.ofExcept ((← get).memory.load width (UInt32.ofBitVec address) offset)
  return Bytes.ofLittleEndian bytes

def load (i : Instruction) (width : Nat) (value : Nat → Value) : Work Unit := do
  push (value (← loadNumber i width))

/-- Takes a value, and puts the lowest `width` bytes of its number at the address below it. -/
def store {α : Type} (i : Instruction) (width : Nat) (read : Value → Except Fault α)
    (number : α → Nat) : Work Unit := do
  let a ← popAs read
  let offset ← Action.ofExcept i.memoryOffset
  let address ← popAs Value.asI32
  let bytes := Bytes.toLittleEndian width (number a)
  let memory ← Action.ofExcept ((← get).memory.store (UInt32.ofBitVec address) offset bytes)
  modify fun r => { r with memory }

/-- A number of `8 * bytes` bits, extended to a value. -/
def extended (sign : Sign) (bytes n : Nat) : Value :=
  match sign with
  | .signed => .i32 ((BitVec.ofNat (8 * bytes) n).signExtend 32)
  | .unsigned => .i32 ((BitVec.ofNat (8 * bytes) n).setWidth 32)

/-! ### Variables -/

def getLocal (i : Instruction) : Work Unit := do
  let index ← Action.ofExcept i.index
  match (← get).locals[index.toNat]? with
  | none => throw .localOutOfRange
  | some value => push value

def writeLocal (index : UInt32) (value : Value) : Work Unit := fun r =>
  match r.locals[index.toNat]? with
  | none => .error .localOutOfRange r
  | some old =>
    if old.type = value.type then .ok () { r with locals := r.locals.set index.toNat value }
    else .error .localMismatch r

/-- Takes a value and makes it that of a local. -/
def setLocal (i : Instruction) : Work Value := do
  let value ← pop
  writeLocal (← Action.ofExcept i.index) value
  return value

/-- The value of a global: a slot of its own, or a cell of the host. -/
def globalValue (m : Module) (r : Plain) (index : UInt32) : Except Fault Value :=
  match m.global? index with
  | none => .error .globalOutOfRange
  | some (.defined position) =>
    match r.globals[position]? with
    | none => .error .globalOutOfRange
    | some value => .ok value
  | some (.imported position type) =>
    match m.bindings.get? position with
    | some (.cell id) => Value.ofWord type.valueType (r.cells.read id)
    | _ => .error .variableUnbound

def getGlobal (m : Module) (i : Instruction) : Work Unit := do
  let index ← Action.ofExcept i.index
  push (← Action.ofExcept ((← get).globalValue m index))

def writeGlobal (m : Module) (index : UInt32) (value : Value) : Work Unit := do
  match m.global? index with
  | none => throw .globalOutOfRange
  | some (.defined position) =>
    match m.globals.get? position with
    | none => throw .globalOutOfRange
    | some entry =>
      match Machine.globalFault? entry.type value with
      | some fault => throw fault
      | none =>
        if position < (← get).globals.length then
          modify fun r => { r with globals := r.globals.set position value }
        else throw .globalOutOfRange
  | some (.imported position type) =>
    match Machine.globalFault? type value with
    | some fault => throw fault
    | none =>
      match m.bindings.get? position with
      | some (.cell id) =>
        let bits ← Action.ofExcept value.toWord
        modify fun r => { r with cells := r.cells.write id bits }
      | _ => throw .variableUnbound

def setGlobal (m : Module) (i : Instruction) : Work Unit := do
  let value ← pop
  writeGlobal m (← Action.ofExcept i.index) value

/-! ### Operations of one activation -/

/-- What an operation does that neither calls a function nor leaves the body. -/
def work? (m : Module) : Opcode → Option (Instruction → Work Unit)
  | .unreachable => some fun _ => throw .unreachableExecuted
  | .nop | .block | .endBlock => some fun _ => pure ()
  | .drop => some fun _ => discard pop
  | .select => some fun _ => select
  | .localGet => some getLocal
  | .localSet => some fun i => discard (setLocal i)
  | .localTee => some fun i => do push (← setLocal i)
  | .globalGet => some (getGlobal m)
  | .globalSet => some (setGlobal m)
  | .load .i32 => some fun i => load i 4 fun n => .i32 (BitVec.ofNat 32 n)
  | .load .f32 => some fun i => load i 4 fun n => .f32 (BitVec.ofNat 32 n)
  | .load32 .bits8 sign => some fun i => load i 1 (extended sign 1)
  | .load32 .bits16 sign => some fun i => load i 2 (extended sign 2)
  | .store .i32 => some fun i => store i 4 Value.asI32 BitVec.toNat
  | .store .f32 => some fun i => store i 4 Value.asF32 BitVec.toNat
  | .store32 .bits8 => some fun i => store i 1 Value.asI32 BitVec.toNat
  | .store32 .bits16 => some fun i => store i 2 Value.asI32 BitVec.toNat
  | .memorySize => some fun _ => do
    push (.i32 (BitVec.ofNat 32 ((← get).memory.size / Limits.pageSize)))
  | .memoryGrow => some fun _ => one Value.asI32 fun _ => .ok (.i32 (-1))
  | .const _ => some fun i => do push (← Action.ofExcept (Machine.constant i))
  | .eqz .w32 => some fun _ => one Value.asI32 fun a => .ok (truth (a == 0))
  | .intCompare .w32 operator => some fun _ =>
    two Value.asI32 fun a b => .ok (truth (operator.holds a b))
  | .intUnary .w32 operator => some fun _ => one Value.asI32 fun a => .ok (.i32 (operator.eval a))
  | .intBinary .w32 operator => some fun _ => two Value.asI32 fun a b => .i32 <$> operator.eval a b
  | .floatCompare .w32 operator => some fun _ =>
    two Value.asF32 fun a b => .ok (truth (operator.holds a b))
  | .floatUnary .w32 operator => operator.eval?.map fun eval _ =>
    one Value.asF32 fun a => .ok (.f32 (eval a))
  | .floatBinary .w32 operator => operator.eval?.map fun eval _ =>
    two Value.asF32 fun a b => .ok (.f32 (eval a b))
  | .conversion (.truncate .w32 .w32 sign) => some fun _ =>
    one Value.asF32 fun a => .i32 <$> Single.truncate sign a
  | .conversion (.convert .w32 .w32 sign) => some fun _ =>
    one Value.asI32 fun a => .ok (.f32 (Single.ofInteger sign a))
  | .conversion (.floatToInt .w32) => some fun _ => one Value.asF32 fun a => .ok (.i32 a)
  | .conversion (.intToFloat .w32) => some fun _ => one Value.asI32 fun a => .ok (.f32 a)
  | .truncateSaturating .w32 .w32 sign => some fun _ =>
    one Value.asF32 fun a => .ok (.i32 (Single.truncateSaturating sign a))
  | _ => none

/-! ### Native functions -/

/-- A program of the host, which works on the operands of its caller. -/
def native : Native → Work Unit
  | .finish outcome => Action.ofExcept outcome
  | .push value next => do
    push value
    native (next (.ok ()))
  | .pop next => do native (next (← Action.observe pop))
  | .memorySize next => do native (next (← get).memory.size)
  | .readMemory start length next => do native (next ((← get).memory.bytes? start length))
  | .writeMemory start bytes next => do
    match (← get).memory.overwrite? start bytes with
    | some memory =>
      modify fun r => { r with memory }
      native (next true)
    | none => native (next false)
  | .readCell cell next => do native (next ((← get).cells.read cell))
  | .writeCell cell bits next => do
    modify fun r => { r with cells := r.cells.write cell bits }
    native next
  | .report entry next => do
    modify fun r => { r with reports := r.reports.push entry }
    native next

def callNative (m : Module) (position : Nat) (r : Plain) : Except Fault Plain :=
  match Machine.bindingOf m position with
  | .function binding =>
    if r.operands.length < binding.inputs then .error .stackUnderflow
    else
      match native binding.callback r with
      | .error fault _ => .error fault
      | .ok _ r' =>
        if r'.operands.length = r.operands.length - binding.inputs + binding.outputs then .ok r'
        else .error .nativeHeight
  | _ => .error .functionUnbound

/-! ### Functions -/

/-- The operands of an activation without the last `params`, which are the arguments of a call. -/
def others (params : Nat) (r : Plain) : List Value :=
  r.operands.take (r.operands.length - params)

/-- The arguments of a call with `params` parameters: the last operands, in their order. -/
def arguments (params : Nat) (r : Plain) : List Value :=
  r.operands.drop (r.operands.length - params)

/-- The activation that a call opens: no operands, and as locals the arguments and zeros. -/
def callee (code : Code) (type : FunctionType) (r : Plain) : Plain :=
  { r with
    operands := []
    locals := arguments type.params.length r ++ Machine.zeros code.locals.toList }

/-- The caller, when its callee has ended as `ended`: the callee's last operands are results. -/
def resumed (type : FunctionType) (r ended : Plain) : Except Fault Plain :=
  if ended.operands.length < type.results.length then .error .stackUnderflow
  else .ok { ended with
    operands := others type.params.length r
      ++ ended.operands.drop (ended.operands.length - type.results.length)
    locals := r.locals }

mutual

/-- Calls a function by its index. -/
def call (m : Module) (index : UInt32) (r : Plain) : Option (Except Fault Plain) :=
  match m.function? index with
  | none => some (.error .functionOutOfRange)
  | some (.imported position _) => some (callNative m position r)
  | some (.defined position typeIndex) =>
    match m.codes.get? position, m.types.get? typeIndex.toNat with
    | none, _ => some (.error .bodyMissing)
    | some _, none => some (.error .functionTypeMissing)
    | some code, some type =>
      if r.operands.length < type.params.length then some (.error .stackUnderflow)
      else if (arguments type.params.length r).map Value.type ≠ type.params.toList then
        some (.error .argumentMismatch)
      else
        match m.body code with
        | .error fault => some (.error fault)
        | .ok body => do
          match ← callee code type r |>.run m body with
          | .error fault => some (.error fault)
          | .ok ended => some (resumed type r ended)
partial_fixpoint

/-- Runs the instructions of a body in their order, up to a return. -/
def run (m : Module) (body : List Instruction) (r : Plain) : Option (Except Fault Plain) :=
  match body with
  | [] => some (.ok r)
  | i :: rest =>
    match i.opcode with
    | .ret => some (.ok r)
    | .call =>
      match i.index with
      | .error fault => some (.error fault)
      | .ok index => do
        match ← r |>.call m index with
        | .error fault => some (.error fault)
        | .ok r' => r' |>.run m rest
    | opcode =>
      match work? m opcode with
      | none => some (.error .opcodeUnsupported)
      | some work =>
        match work i r with
        | .error fault _ => some (.error fault)
        | .ok _ r' => r' |>.run m rest
partial_fixpoint

end

/-! ### Step by step -/

section

variable {m : Module} {index typeIndex : UInt32} {position : Nat}

theorem call_missing (h : m.function? index = none) (r : Plain) :
    call m index r = some (.error .functionOutOfRange) := by
  rw [call]
  simp only [h]

theorem call_native (h : m.function? index = some (.imported position typeIndex))
    (r : Plain) : call m index r = some (callNative m position r) := by
  rw [call]
  simp only [h]

theorem call_bodyMissing (h : m.function? index = some (.defined position typeIndex))
    (hcode : m.codes.get? position = none) (r : Plain) :
    call m index r = some (.error .bodyMissing) := by
  rw [call]
  simp only [h, hcode]

theorem call_typeMissing (h : m.function? index = some (.defined position typeIndex)) {code : Code}
    (hcode : m.codes.get? position = some code) (htype : m.types.get? typeIndex.toNat = none)
    (r : Plain) : call m index r = some (.error .functionTypeMissing) := by
  rw [call]
  simp only [h, hcode, htype]

theorem call_defined (h : m.function? index = some (.defined position typeIndex)) {code : Code}
    {type : FunctionType} (hcode : m.codes.get? position = some code)
    (htype : m.types.get? typeIndex.toNat = some type) (r : Plain) :
    call m index r =
      if r.operands.length < type.params.length then some (.error .stackUnderflow)
      else if (arguments type.params.length r).map Value.type ≠ type.params.toList then
        some (.error .argumentMismatch)
      else
        match m.body code with
        | .error fault => some (.error fault)
        | .ok body => (run m body (callee code type r)).map fun outcome =>
          outcome.bind (resumed type r) := by
  rw [call]
  simp only [h, hcode, htype]
  split
  · rfl
  split
  · rfl
  cases m.body code with
  | error fault => rfl
  | ok body =>
    cases hrun : run m body (callee code type r) with
    | none =>
      simp only [hrun]
      rfl
    | some outcome =>
      simp only [hrun]
      cases outcome <;> rfl

theorem run_nil (r : Plain) : run m [] r = some (.ok r) := by
  rw [run]

theorem run_ret {i : Instruction} (hopcode : i.opcode = .ret) (rest : List Instruction)
    (r : Plain) : run m (i :: rest) r = some (.ok r) := by
  rw [run]
  simp only [hopcode]

theorem run_call {i : Instruction} (hopcode : i.opcode = .call) (rest : List Instruction)
    (r : Plain) :
    run m (i :: rest) r = match i.index with
      | .error fault => some (.error fault)
      | .ok index => (call m index r).bind fun
        | .error fault => some (.error fault)
        | .ok r' => run m rest r' := by
  rw [run]
  simp only [hopcode]
  cases i.index with
  | error fault => rfl
  | ok index =>
    cases call m index r with
    | none => rfl
    | some outcome => cases outcome <;> rfl

theorem run_work {i : Instruction} (hret : i.opcode ≠ .ret) (hcall : i.opcode ≠ .call)
    (rest : List Instruction) (r : Plain) :
    run m (i :: rest) r = match work? m i.opcode with
      | none => some (.error .opcodeUnsupported)
      | some work =>
        match work i r with
        | .error fault _ => some (.error fault)
        | .ok _ r' => run m rest r' := by
  rw [run]
  split
  · exact absurd ‹_› hret
  · exact absurd ‹_› hcall
  · rfl

end

/-- What a call from the host finds: all operands of the machine, and no locals. -/
def ofMachine (s : Machine) : Plain where
  operands := s.stack.toList
  locals := []
  globals := s.globals.toList
  memory := s.memory
  cells := s.host.cells
  reports := s.host.reports

end Plain

end BoundedWasm
