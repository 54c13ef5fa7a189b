import BoundedWasm.Proofs.Machine.Session
import Mathlib.Logic.Relation

/-!
# BoundedWasm.Proofs.Machine.Moment — the moments of a run

A call runs through moments: it is about to be made, a body is about to go on with an instruction, a
native function is about to go on with an operation, or one of these is over.  `Moment.Step` leads
from a moment to the next at the same nesting, and into the activation that a call opens, so that
the moments reached from a call (`Moment.Reaches`) are those of its whole run, at any depth.
-/

namespace BoundedWasm

open BoundedWasm.Action Limits

/-- What a machine is about to do. -/
inductive Stage where
  | calling (index : UInt32)
  | body (rest : List Instruction)
  | native (rest : Native)
  | over

/-- Inside a body or a native function. -/
def Stage.IsInside : Stage → Prop
  | .body _ | .native _ => True
  | .calling _ | .over => False

/-- A machine in a run, and the frames of the activations that wait for the running one; the frame
of the host is the last of them. -/
structure Moment where
  stage : Stage
  machine : Machine
  callers : List Frame

namespace Moment

open Machine

/-- From one moment of a run to another. -/
inductive Step (m : Module) : Moment → Moment → Prop
  | enterNative {index : UInt32} {position : Nat} {typeIndex : UInt32} {binding : FunctionBinding}
    {s : Machine} {callers : List Frame}
    (hindex : m.function? index = some (.imported position typeIndex))
    (hbinding : bindingOf m position = .function binding)
    (henough : s.frame.stackBase + binding.inputs ≤ s.stack.length) :
    Step m ⟨.calling index, s, callers⟩ ⟨.native binding.callback, called position s, callers⟩
  | enterBody {index : UInt32} {position : Nat} {typeIndex : UInt32} {code : Code}
    {type : FunctionType} {frame : Frame} {body : List Instruction} {s opened : Machine}
    {callers : List Frame} (hindex : m.function? index = some (.defined position typeIndex))
    (hdepth : s.depth < maxCallDepth)
    (hopen : Opened m position typeIndex s code type frame opened)
    (hbody : m.body code = .ok body) :
    Step m ⟨.calling index, s, callers⟩
      ⟨.body body, entered position frame opened, s.frame :: callers⟩
  | returned (index : UInt32) (s : Machine) (callers : List Frame) :
    Step m ⟨.calling index, s, callers⟩ ⟨.over, (invoke m index).after s, callers⟩
  | call {i : Instruction} {rest : List Instruction} {index : UInt32} {s : Machine}
    {callers : List Frame} (hopcode : i.opcode = .call) (hindex : i.index = .ok index) :
    Step m ⟨.body (i :: rest), s, callers⟩ ⟨.calling index, s, callers⟩
  | next {i : Instruction} {rest : List Instruction} {work : Instruction → Exec Flow}
    {s s' : Machine} {callers : List Frame}
    (hwork : handler? m (invoke m) i.opcode = some work) (hrun : work i s = .ok .next s') :
    Step m ⟨.body (i :: rest), s, callers⟩ ⟨.body rest, s', callers⟩
  | leave {i : Instruction} {rest : List Instruction} {work : Instruction → Exec Flow}
    {s s' : Machine} {callers : List Frame}
    (hwork : handler? m (invoke m) i.opcode = some work) (hrun : work i s = .ok .leave s') :
    Step m ⟨.body (i :: rest), s, callers⟩ ⟨.body [], s', callers⟩
  | failed {i : Instruction} {rest : List Instruction} {work : Instruction → Exec Flow}
    {fault : Fault} {s s' : Machine} {callers : List Frame}
    (hwork : handler? m (invoke m) i.opcode = some work) (hrun : work i s = .error fault s') :
    Step m ⟨.body (i :: rest), s, callers⟩ ⟨.over, s', callers⟩
  | unsupported {i : Instruction} {rest : List Instruction} {s : Machine} {callers : List Frame}
    (hwork : handler? m (invoke m) i.opcode = none) :
    Step m ⟨.body (i :: rest), s, callers⟩
      ⟨.over, (note (.opcodeUnsupported i.opcode)).after s, callers⟩
  | push {value : Value} {next : Except Fault Unit → Native} {answer : Except Fault Unit}
    {s s' : Machine} {callers : List Frame} (hrun : observe (push value) s = .ok answer s') :
    Step m ⟨.native (.push value next), s, callers⟩ ⟨.native (next answer), s', callers⟩
  | pop {next : Except Fault Value → Native} {answer : Except Fault Value}
    {s s' : Machine} {callers : List Frame} (hrun : observe pop s = .ok answer s') :
    Step m ⟨.native (.pop next), s, callers⟩ ⟨.native (next answer), s', callers⟩
  | memorySize {next : Nat → Native} (s : Machine) (callers : List Frame) :
    Step m ⟨.native (.memorySize next), s, callers⟩ ⟨.native (next s.memory.size), s, callers⟩
  | readMemory {start length : Nat} {next : Option (List UInt8) → Native} (s : Machine)
    (callers : List Frame) :
    Step m ⟨.native (.readMemory start length next), s, callers⟩
      ⟨.native (next (s.memory.bytes? start length)), s, callers⟩
  | writeMemory {start : Nat} {bytes : List UInt8} {next : Bool → Native} {memory : LinearMemory}
    {s : Machine} {callers : List Frame} (hwrite : s.memory.overwrite? start bytes = some memory) :
    Step m ⟨.native (.writeMemory start bytes next), s, callers⟩
      ⟨.native (next true), { s with memory }, callers⟩
  | writeMemoryOutside {start : Nat} {bytes : List UInt8} {next : Bool → Native} {s : Machine}
    {callers : List Frame} (hwrite : s.memory.overwrite? start bytes = none) :
    Step m ⟨.native (.writeMemory start bytes next), s, callers⟩ ⟨.native (next false), s, callers⟩
  | readCell {cell : CellId} {next : BitVec 32 → Native} (s : Machine) (callers : List Frame) :
    Step m ⟨.native (.readCell cell next), s, callers⟩
      ⟨.native (next (s.host.cells.read cell)), s, callers⟩
  | writeCell {cell : CellId} {bits : BitVec 32} {next : Native} (s : Machine)
    (callers : List Frame) :
    Step m ⟨.native (.writeCell cell bits next), s, callers⟩
      ⟨.native next, { s with host := { s.host with cells := s.host.cells.write cell bits } },
        callers⟩
  | report {entry : Report} {next : Native} (s : Machine) (callers : List Frame) :
    Step m ⟨.native (.report entry next), s, callers⟩
      ⟨.native next, { s with host := { s.host with reports := s.host.reports.push entry } },
        callers⟩
  | finished {outcome : Except Fault Unit} (s : Machine) (callers : List Frame) :
    Step m ⟨.native (.finish outcome), s, callers⟩ ⟨.over, s, callers⟩

/-- From a moment to a later one. -/
abbrev Reaches (m : Module) : Moment → Moment → Prop := Relation.ReflTransGen (Step m)

/-- A call from the host is about to be made. -/
def start (index : UInt32) (s : Machine) : Moment := ⟨.calling index, s, []⟩

/-- The moments of all runs on machines for `m`. -/
def Met (m : Module) (moment : Moment) : Prop :=
  ∃ index s, Reachable m s ∧ Reaches m (start index s) moment

/-- The run of a call from the host gets into a body or a native function. -/
def Entered (m : Module) (index : UInt32) (s : Machine) : Prop :=
  ∃ moment, Reaches m (start index s) moment ∧ moment.stage.IsInside

variable {m : Module}

/-- A body that ends is left at one of its moments. -/
theorem reaches_of_runBody {body : List Instruction} {s s' : Machine} {callers : List Frame}
    (h : runBody m (invoke m) body s = .ok () s') :
    Reaches m ⟨.body body, s, callers⟩ ⟨.body [], s', callers⟩ := by
  induction body generalizing s with
  | nil =>
    cases h
    exact .refl
  | cons i rest ih =>
    rw [runBody_cons] at h
    cases hwork : handler? m (invoke m) i.opcode with
    | none =>
      rw [hwork] at h
      cases h
    | some work =>
      simp only [hwork] at h
      cases hrun : work i s with
      | error fault s₁ =>
        rw [hrun] at h
        cases h
      | ok flow s₁ =>
        rw [hrun] at h
        cases flow with
        | next => exact .head (.next hwork hrun) (ih h)
        | leave =>
          cases h
          exact .single (.leave hwork hrun)

/-! ### Discipline -/

/-- The windows of the frames lie one below the other, from `height` down to the first local. -/
def BackToBack : List Frame → (height : Nat) → Prop
  | [], height => height = 0
  | frame :: callers, height =>
    frame.localsBase + frame.numLocals = height ∧ BackToBack callers frame.localsBase

/-- The running activation stays above its base and within its window, and every open activation is
counted. -/
structure Disciplined (moment : Moment) : Prop where
  stackBase_le : moment.machine.frame.stackBase ≤ moment.machine.stack.length
  height_le : moment.machine.stack.length ≤ maxOperandStack
  depth_eq : moment.machine.depth = moment.callers.length
  depth_le : moment.machine.depth ≤ maxCallDepth
  windows : BackToBack (moment.machine.frame :: moment.callers) moment.machine.locals.length

theorem Disciplined.framed {moment : Moment} (h : moment.Disciplined) : moment.machine.Framed :=
  ⟨h.stackBase_le, h.windows.1⟩

theorem Disciplined.stays {stage stage' : Stage} {s s' : Machine} {callers : List Frame}
    (h : Disciplined ⟨stage, s, callers⟩) (hstays : s.Stays s') :
    Disciplined ⟨stage', s', callers⟩ := by
  obtain ⟨hwindow, hcallers⟩ := h.windows
  refine ⟨hstays.framed.stackBase_le, s'.stack.length_le, hstays.depth.trans h.depth_eq, ?_,
    hstays.framed.locals_length, ?_⟩
  · rw [hstays.depth]
    exact h.depth_le
  · rw [hstays.frame]
    exact hcallers

theorem disciplined_start {s : Machine} (hs : s.Idle) (index : UInt32) :
    (start index s).Disciplined := by
  refine ⟨hs.framed.stackBase_le, s.stack.length_le, hs.depth, ?_, hs.framed.locals_length, ?_⟩
  · show s.depth ≤ _
    rw [hs.depth]
    exact Nat.zero_le _
  · show s.frame.localsBase = 0
    rw [hs.frame]

theorem disciplined_enterBody (hm : m.CountsLocals) {stage : Stage} {position : Nat}
    {typeIndex : UInt32} {code : Code} {type : FunctionType} {frame : Frame} {s opened : Machine}
    {callers : List Frame} {body : List Instruction} (h : Disciplined ⟨stage, s, callers⟩)
    (hdepth : s.depth < maxCallDepth)
    (hopen : Opened m position typeIndex s code type frame opened) :
    Disciplined ⟨.body body, entered position frame opened, s.frame :: callers⟩ := by
  obtain ⟨hcode, rfl, hopens⟩ := hopen.opens hm
  have hframed : (entered position (frameFor code type s) opened).Framed :=
    hopens.entered_framed hcode
  refine ⟨hframed.stackBase_le, FixedVec.length_le _, ?_, ?_, hframed.locals_length, h.windows⟩
  · show opened.depth + 1 = callers.length + 1
    rw [hopen.depth_eq]
    exact congrArg (· + 1) h.depth_eq
  · show opened.depth + 1 ≤ _
    rw [hopen.depth_eq]
    exact hdepth

theorem Step.disciplined (hm : m.CountsLocals) {moment moment' : Moment}
    (hstep : Step m moment moment') (h : moment.Disciplined) : moment'.Disciplined := by
  have hR := covers_fails m
  have hinvoke : ∀ index, Keeps Fails Fails (invoke m index) := fun index s =>
    (keeps_invoke hm index s).mono (fun _ _ hs hframed => (hs hframed).1) (fun _ _ hs => hs)
  have hwork : ∀ {opcode : Opcode} {work : Instruction → Exec Flow},
      handler? m (invoke m) opcode = some work → ∀ i, Keeps Fails Fails (work i) :=
    handler?_keeps hR hinvoke
  have hpush : ∀ value, Keeps Fails Fails (observe (Machine.push value)) :=
    fun value => keeps_observe (keeps_push hR value)
  have hpop : Keeps Fails Fails (observe Machine.pop) := keeps_observe (keeps_pop hR)
  cases hstep with
  | enterNative hindex hbinding henough => exact h.stays (hR.change (.note _) h.framed)
  | enterBody hindex hdepth hopen hbody => exact disciplined_enterBody hm h hdepth hopen
  | returned index s callers => exact h.stays ((hinvoke index).after s h.framed)
  | call hopcode hindex => exact h.stays (.refl h.framed)
  | next hhandler hrun => exact h.stays ((hwork hhandler _ _).of_ok hrun h.framed)
  | leave hhandler hrun => exact h.stays ((hwork hhandler _ _).of_ok hrun h.framed)
  | failed hhandler hrun => exact h.stays ((hwork hhandler _ _).of_error hrun h.framed)
  | unsupported hhandler => exact h.stays (hR.change (.note _) h.framed)
  | push hrun => exact h.stays ((hpush _ _).of_ok hrun h.framed)
  | pop hrun => exact h.stays ((hpop _).of_ok hrun h.framed)
  | memorySize s callers => exact h.stays (.refl h.framed)
  | readMemory s callers => exact h.stays (.refl h.framed)
  | writeMemory hwrite => exact h.stays (hR.change (.overwrite hwrite) h.framed)
  | writeMemoryOutside hwrite => exact h.stays (.refl h.framed)
  | readCell s callers => exact h.stays (.refl h.framed)
  | writeCell s callers => exact h.stays (hR.change (.writeCell _ _) h.framed)
  | report s callers => exact h.stays (hR.change (.report _) h.framed)
  | finished s callers => exact h.stays (.refl h.framed)

theorem Reaches.disciplined (hm : m.CountsLocals) {moment moment' : Moment}
    (hreaches : Reaches m moment moment') (h : moment.Disciplined) : moment'.Disciplined := by
  induction hreaches with
  | refl => exact h
  | tail _ hstep ih => exact hstep.disciplined hm ih

theorem Met.disciplined (hm : m.CountsLocals) {moment : Moment} (h : Met m moment) :
    moment.Disciplined := by
  obtain ⟨index, s, hs, hreaches⟩ := h
  exact Reaches.disciplined hm hreaches (disciplined_start (hs.idle hm) index)

end Moment

end BoundedWasm
