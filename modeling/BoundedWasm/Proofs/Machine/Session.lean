import BoundedWasm.Machine.Create
import BoundedWasm.Proofs.Module.Prepared

/-!
# BoundedWasm.Proofs.Machine.Session — a host and its machine

A host makes a machine and then works on it (`Operation`): it moves operands, writes globals, memory
and cells, and calls functions.  Between any two of its operations the machine is `Idle`: no
activation is open, and there are no locals.
-/

namespace BoundedWasm

open BoundedWasm.Action Limits

/-- What a host does to a machine. -/
inductive Operation where
  | push (value : Value)
  | pop
  | popAs (type : ValueType)
  | setGlobal (index : UInt32) (value : Value)
  | writeMemory (start : Nat) (bytes : List UInt8)
  | writeCell (cell : CellId) (bits : BitVec 32)
  | call (index : UInt32)
  | callExport (name : String)
  | runStart

namespace Operation

variable (m : Module)

def run : Operation → Exec Unit
  | push value => Machine.push value
  | pop => discard Machine.pop
  | popAs .i32 => discard Machine.popI32
  | popAs .i64 => discard Machine.popI64
  | popAs .f32 => discard Machine.popF32
  | popAs .f64 => discard Machine.popF64
  | setGlobal index value => Machine.setGlobal m index value
  | writeMemory start bytes => modify fun s =>
    match s.memory.overwrite? start bytes with
    | some memory => { s with memory }
    | none => s
  | writeCell cell bits => modify fun s =>
    { s with host := { s.host with cells := s.host.cells.write cell bits } }
  | call index => Machine.call m index
  | callExport name => Machine.callExport m name
  | runStart => Machine.runStart m

/-- Whether an operation is there to call a function. -/
def isCall : Operation → Bool
  | call _ | callExport _ | runStart => true
  | _ => false

/-- The function that an operation calls, if there is one. -/
def target? : Operation → Option UInt32
  | call index => some index
  | callExport name => m.exportedFunction? name
  | runStart => m.start
  | _ => none

end Operation

namespace Machine

variable {m : Module} {s s' : Machine}

/-- The machine after operations of the host, whatever their answers. -/
def operate (m : Module) (operations : List Operation) (s : Machine) : Machine :=
  operations.foldl (fun s operation => (operation.run m).after s) s

/-- A machine for `m` between two operations of its host. -/
inductive Reachable (m : Module) : Machine → Prop
  | created {host : Host} {buffer : Array UInt8} {s : Machine}
    (h : create m host buffer = .ok s) : Reachable m s
  | operated {s : Machine} (operation : Operation) (hs : Reachable m s) :
    Reachable m ((operation.run m).after s)

/-- No activation is open. -/
structure Idle (s : Machine) : Prop where
  frame : s.frame = {}
  depth : s.depth = 0
  locals : s.locals.length = 0

theorem Idle.framed (h : s.Idle) : s.Framed := by
  refine ⟨?_, ?_⟩
  · rw [h.frame]
    exact Nat.zero_le _
  · rw [h.frame, h.locals]
    rfl

theorem Stays.idle (h : s.Stays s') (hs : s.Idle) : s'.Idle := by
  have hframe := h.frame.trans hs.frame
  have hlocals := h.framed.locals_length
  rw [hframe] at hlocals
  exact ⟨hframe, h.depth.trans hs.depth, hlocals.symm⟩

/-! ### Calls from the host -/

/-- The machine after a fault that reached the host. -/
def settled (index : UInt32) (fault : Fault) (s : Machine) : Machine :=
  if fault.poisonsInstance || s.poisoned then
    { s with
      host := { s.host with log := s.host.log.push (.callTrapped index fault) }
      poisoned := true }
  else s

theorem settle_run (index : UInt32) (fault : Fault) (s : Machine) :
    settle index fault s = .ok () (settled index fault s) := by
  show (if fault.poisonsInstance || s.poisoned then do
      note (.callTrapped index fault)
      modify fun s => { s with poisoned := true }
    else pure () : Exec Unit) s = _
  unfold settled
  split <;> rfl

theorem call_run (m : Module) (index : UInt32) (s : Machine) :
    call m index s =
      if s.poisoned then .error .poisoned s
      else match invoke m index s with
        | .ok _ s' => .ok () s'
        | .error fault s' => .error fault (settled index fault s') := by
  unfold call
  simp only [bind_run, get_run]
  split
  · rfl
  · cases hrun : invoke m index s with
    | ok _ s' =>
      have hobserve : observe (invoke m index) s = .ok (.ok ()) s' := by rw [observe, hrun]
      rw [bind_run, hobserve]
      rfl
    | error fault s' =>
      have hobserve : observe (invoke m index) s = .ok (.error fault) s' := by rw [observe, hrun]
      rw [bind_run, hobserve]
      show (settle index fault >>= fun _ => throw fault) s' = _
      rw [bind_run, settle_run]
      rfl

/-- A call from the host stays in the host's frame. -/
theorem keeps_call (hm : m.CountsLocals) (index : UInt32) : Keeps Fails Fails (call m index) := by
  intro s
  unfold Ends
  rw [call_run]
  by_cases hpoisoned : s.poisoned
  · rw [if_pos hpoisoned]
    exact fun hs => .refl hs
  · rw [if_neg hpoisoned]
    cases hrun : invoke m index s with
    | ok _ s' => exact fun hs => ((keeps_invoke hm index s).of_ok hrun hs).1
    | error fault s' =>
      intro hs
      have hstays := (keeps_invoke hm index s).of_error hrun hs
      show s.Stays (settled index fault s')
      unfold settled
      split
      · exact hstays.trans (.of_stacks hstays.framed rfl rfl rfl rfl)
      · exact hstays

/-! ### Between operations -/

theorem covers_fails (m : Module) : Covers m Fails Fails where
  refl := (covers_frames m).fails
  fails := (covers_frames m).fails
  trans h h' := fun hs => (h hs).trans (h' (h hs).framed)
  trans_fails h h' := fun hs => (h hs).trans (h' (h hs).framed)
  change h := fun hs => ((covers_frames m).change h hs).1

/-- What holds of elementary changes and of calls holds of every operation of the host. -/
theorem keeps_operation {R : Machine → Machine → Prop} (hR : Covers m R R)
    (hcall : ∀ index, Keeps R R (call m index)) (operation : Operation) :
    Keeps R R (operation.run m) := by
  cases operation with
  | push value => exact keeps_push hR value
  | pop => exact .discard hR.toChains (keeps_pop hR)
  | popAs type => cases type <;> exact .discard hR.toChains (keeps_popAs hR _)
  | setGlobal index value => exact keeps_setGlobal hR index value
  | writeMemory start bytes =>
    intro s
    show R s (match s.memory.overwrite? start bytes with
      | some memory => { s with memory }
      | none => s)
    split
    · exact hR.change (.overwrite ‹_›)
    · exact hR.refl s
  | writeCell cell bits => exact fun s => hR.change (.writeCell cell bits)
  | call index => exact hcall index
  | callExport name =>
    show Keeps R R (callExport m name)
    unfold callExport
    split
    · exact .throw hR.toChains _
    · exact hcall _
  | runStart =>
    show Keeps R R (runStart m)
    unfold runStart
    split
    · exact .pure hR.toChains _
    · exact hcall _

/-- How the creation of a machine ends. -/
inductive Creates (m : Module) (host : Host) (buffer : Array UInt8) :
    Except Refusal Machine → Prop
  | unmet {fault : Fault} (hsize : m.requiredMemory = .error fault) :
    Creates m host buffer (.error ⟨fault, buffer⟩)
  | small {size : Nat} (hsize : m.requiredMemory = .ok size) (hlt : buffer.size < size) :
    Creates m host buffer (.error ⟨.bufferTooSmall, buffer⟩)
  | misplaced {size : Nat} {memory : LinearMemory} (hsize : m.requiredMemory = .ok size)
    (hle : size ≤ buffer.size)
    (hplace : (LinearMemory.zero ⟨buffer, size, hle⟩).place m.data.toList = (false, memory)) :
    Creates m host buffer (.error ⟨.segmentOutOfBounds, memory.buffer⟩)
  | made {size : Nat} {memory : LinearMemory} {event : Event}
    (hsize : m.requiredMemory = .ok size) (hle : size ≤ buffer.size)
    (hplace : (LinearMemory.zero ⟨buffer, size, hle⟩).place m.data.toList = (true, memory)) :
    Creates m host buffer (.ok
      { memory
        globals := FixedVec.empty.putAll (m.globals.toList.map Global.init)
        host := { host with log := host.log.push event } })

theorem create_cases (m : Module) (host : Host) (buffer : Array UInt8) :
    Creates m host buffer (create m host buffer) := by
  unfold create
  split
  · exact .unmet ‹_›
  · rename_i size hsize
    split
    · split
      · exact .misplaced hsize ‹_› ‹_›
      · exact .made hsize ‹_› ‹_›
    · exact .small hsize (Nat.lt_of_not_le ‹_›)

theorem create_idle {host : Host} {buffer : Array UInt8} (h : create m host buffer = .ok s) :
    s.Idle := by
  have hcases := create_cases m host buffer
  rw [h] at hcases
  cases hcases
  exact ⟨rfl, rfl, rfl⟩

theorem Reachable.idle (hm : m.CountsLocals) (h : Reachable m s) : s.Idle := by
  induction h with
  | created h => exact create_idle h
  | operated operation _ ih =>
    have hkeeps := keeps_operation (covers_fails m) (keeps_call hm) operation
    exact (hkeeps.after _ ih.framed).idle ih

/-- A machine for the sample module, with five on its stack. -/
@[irreducible] def adderMachine : Machine :=
  match create .adder {} #[] with
  | .ok fresh => ((Operation.push (.i32 5)).run .adder).after fresh
  | .error refusal => { memory := ⟨refusal.buffer, 0, Nat.zero_le _⟩, globals := .empty }

theorem adderMachine_reachable : Reachable .adder adderMachine := by
  obtain ⟨fresh, hfresh⟩ : ∃ fresh, create .adder {} #[] = .ok fresh :=
    exists_ok_of_isOk (by decide +kernel)
  simp only [adderMachine, hfresh]
  exact .operated _ (.created hfresh)

/-- The second function of the sample module answers twelve. -/
theorem adderMachine_answers : ∃ s', invoke .adder 1 adderMachine = .ok () s' ∧
    s'.stack.toList = [.i32 12] := by
  have hanswers : Action.fault? (invoke .adder 1) adderMachine = none := by decide +kernel
  have hstack : (Action.after (invoke .adder 1) adderMachine).stack.toList = [.i32 12] := by
    decide +kernel
  obtain ⟨_, hrun⟩ := Action.run_of_fault?_none hanswers
  exact ⟨_, hrun, hstack⟩

end Machine

end BoundedWasm
