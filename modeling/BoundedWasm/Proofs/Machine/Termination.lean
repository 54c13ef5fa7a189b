import BoundedWasm.Proofs.Machine.Interpreter
import BoundedWasm.Proofs.Machine.Nesting
import BoundedWasm.Proofs.Machine.Refusal
import BoundedWasm.Proofs.Machine.Trace

/-!
# BoundedWasm.Proofs.Machine.Termination — every call finishes, and the depth limit is exact

The depth of a machine counts the activations that are open (`Nested.depth_eq`): a body is entered
one deeper, and everything else leaves the machine at its depth, also when it fails.  So calls nest
at most `maxCallDepth` deep, whatever the functions of a module call, and each step of a run that
stays out of native functions makes the budget smaller by which `interpret` recurs.  A defined
function is refused for its depth where `maxCallDepth` activations are open, and nowhere else: no
other check fails with this code.
-/

namespace BoundedWasm

open BoundedWasm.Action Limits Machine

/-! ### Refusals for the depth -/

namespace Machine

variable {m : Module} {s : Machine}

/-- The call fails with this code before it enters a body or a native function. -/
def RefusedWith (m : Module) (index : UInt32) (s : Machine) (code : UInt16) : Prop :=
  (∃ fault s', invoke m index s = .error fault s' ∧ fault.code = code) ∧
    ¬ Moment.Entered m index s

theorem openLocals_faults (groups : List LocalGroup) (s : Machine) :
    (openLocals groups).Ends s (fun _ _ => True) (fun fault _ => fault = .tableFull) := by
  induction groups generalizing s with
  | nil => trivial
  | cons group groups ih =>
    unfold Ends
    rw [openLocals_cons]
    cases hresize : s.locals.resize (s.locals.length + group.count.toNat)
        (Value.zero group.valueType) with
    | ok locals => exact ih _
    | error fault =>
      unfold FixedVec.resize at hresize
      split at hresize
      · cases hresize
        rfl
      · split at hresize <;> cases hresize

/-- Why a frame is not opened; the last of these comes up when a body declares more locals than it
counts. -/
theorem openFrame_faults (code : Code) (type : FunctionType) (s : Machine) :
    (openFrame code type).Ends s (fun _ _ => True) (fun fault _ =>
      fault ∈ [.stackUnderflow, .argumentMismatch, .localsExhausted, .tableFull]) := by
  refine ends_of (fun _ _ _ => trivial) (fun fault s' hrun => ?_)
  rw [openFrame_run] at hrun
  split at hrun
  · cases hrun
    decide
  split at hrun
  · cases hrun
    decide
  split at hrun
  · cases hrun
    decide
  split at hrun
  · cases hrun
  · rename_i hlocals
    cases hrun
    rw [(openLocals_faults _ _).of_error hlocals]
    decide

/-- The depth is the one reason for this code. -/
theorem refusedWith_iff {index : UInt32} {position : Nat} {typeIndex : UInt32}
    (hindex : m.function? index = some (.defined position typeIndex)) :
    RefusedWith m index s Fault.callDepthReached.code ↔ maxCallDepth ≤ s.depth := by
  constructor
  · rintro ⟨⟨fault, s', hrun, hcode⟩, hnot⟩
    refine Nat.le_of_not_lt fun hdepth => ?_
    have hinside {code : Code} {type : FunctionType} {frame : Frame} {opened : Machine}
        {body : List Instruction} (hopen : Opened m position typeIndex s code type frame opened)
        (hbody : m.body code = .ok body) : Moment.Entered m index s :=
      ⟨_, .single (.enterBody hindex hdepth hopen hbody), trivial⟩
    rw [invoke_defined hindex hdepth] at hrun
    cases callDefined_cases hrun with
    | bodyMissing => exact absurd hcode (by decide)
    | typeMissing => exact absurd hcode (by decide)
    | unopened _ _ hopen =>
      have hfaults : ∀ fault ∈ [Fault.stackUnderflow, .argumentMismatch, .localsExhausted,
          .tableFull], fault.code ≠ Fault.callDepthReached.code := by decide
      exact hfaults fault ((openFrame_faults _ _ s).of_error hopen) hcode
    | stretchMissing _ hbody =>
      unfold Module.body at hbody
      dsimp only at hbody
      split at hbody
      · cases hbody
      · cases hbody
        exact absurd hcode (by decide)
    | failed hopen hbody _ => exact hnot (hinside hopen hbody)
    | short hopen hbody _ _ => exact hnot (hinside hopen hbody)
  · intro hdepth
    have hdeclined : Declined m index s .callDepthReached s := .deep hindex hdepth
    exact ⟨⟨_, _, hdeclined.invoke_error, rfl⟩, hdeclined.not_entered⟩

end Machine

/-! ### The budget of a moment -/

/-- The interpreter is at work, and not a native function. -/
def Stage.Interprets : Stage → Prop
  | .calling _ | .body _ => True
  | .native _ | .over => False

/-- How many instructions of the running body are left. -/
def Stage.instructions : Stage → Nat
  | .body rest => rest.length
  | .calling _ | .native _ | .over => 0

namespace Moment

variable {m : Module}

def budget (moment : Moment) : Nat × Nat := moment.machine.budget moment.stage.instructions

/-- The interpreter works off the budget. -/
theorem Step.below {moment moment' : Moment} (hstep : Step m moment moment')
    (h : moment.stage.Interprets) (h' : moment'.stage.Interprets) :
    Below moment'.budget moment.budget := by
  have hkeeps {i : Instruction} {work : Instruction → Exec Flow} {flow : Flow} {s s' : Machine}
      (hwork : handler? m (invoke m) i.opcode = some work) (hrun : work i s = .ok flow s') :
      s'.depth = s.depth :=
    (handler?_keeps (covers_depth m) keepsDepth_invoke hwork i s).of_ok hrun
  cases hstep with
  | enterBody hindex hdepth hopen hbody =>
    exact below_deeper hdepth (congrArg (· + 1) hopen.depth_eq) _ _
  | call hopcode hindex => exact below_within rfl (Nat.succ_pos _)
  | next hwork hrun => exact below_within (hkeeps hwork hrun) (Nat.lt_succ_self _)
  | leave hwork hrun => exact below_within (hkeeps hwork hrun) (Nat.succ_pos _)
  | enterNative | returned | failed | unsupported => exact h'.elim
  | _ => exact h.elim

/-! ### The activations that are open -/

variable {index : UInt32} {s : Machine} {activations : List Activation} {moment : Moment}

/-- The depth counts the activations. -/
theorem Nested.depth_eq (h : Nested m (start index s) activations moment) :
    moment.machine.depth = s.depth + activations.length := by
  induction h with
  | here => rfl
  | enter h henters ih =>
    cases henters with
    | mk hindex hdepth hopen hbody => exact congrArg (· + 1) (hopen.depth_eq.trans ih)
  | step h hstep hcallers ih =>
    exact (related_of_step (covers_depth m) keepsDepth_invoke hstep hcallers).trans ih

theorem Nested.depth_le (hs : s.depth ≤ maxCallDepth)
    (h : Nested m (start index s) activations moment) :
    s.depth + activations.length ≤ maxCallDepth := by
  induction h with
  | here => exact hs
  | enter h henters ih =>
    have hdepth := h.depth_eq
    cases henters with
    | @mk _ _ _ _ _ _ _ s' _ _ hindex hless hopen hbody =>
      have hdepth : s'.depth = s.depth + _ := hdepth
      rw [List.length_cons]
      omega
  | step _ _ _ ih => exact ih

/-- What holds of the run of a call from the host, which finds some activations open. -/
structure Terminates (m : Module) (index : UInt32) (s : Machine) : Prop where
  finite : Acc (Later m) (start index s)
  below : ∀ moment moment', Reaches m (start index s) moment → Step m moment moment' →
    moment.stage.Interprets → moment'.stage.Interprets → Below moment'.budget moment.budget
  interpreted : interpretCall m index s = call m index s
  nested : ∀ moment, Reaches m (start index s) moment →
    ∃ activations, Nested m (start index s) activations moment
  depth_le : ∀ activations moment, Nested m (start index s) activations moment →
    s.depth + activations.length ≤ maxCallDepth
  refused_iff : ∀ activations callee s' callers,
    Nested m (start index s) activations ⟨.calling callee, s', callers⟩ →
      ∀ position typeIndex, m.function? callee = some (.defined position typeIndex) →
        (RefusedWith m callee s' Fault.callDepthReached.code ↔
          s.depth + activations.length = maxCallDepth)

/-- Whatever a module is and whatever its functions call, every call finishes, never more than
`maxCallDepth` activations are open, and only where so many are is a function refused for its
depth. -/
theorem call_terminates (m : Module) (hs : s.depth ≤ maxCallDepth) (index : UInt32) :
    Terminates m index s where
  finite := Step.acc _
  below _ _ _ hstep h h' := hstep.below h h'
  interpreted := interpretCall_eq m index s
  nested _ hreaches := exists_nested hreaches
  depth_le _ _ hnested := hnested.depth_le hs
  refused_iff activations callee s' callers hnested position typeIndex hcallee := by
    have hdepth : s'.depth = s.depth + activations.length := hnested.depth_eq
    have hle := hnested.depth_le hs
    rw [refusedWith_iff hcallee, hdepth]
    omega

/-- The sample machine, and the same machine with no room for another activation. -/
theorem adder_terminates :
    adderMachine.depth ≤ maxCallDepth ∧ Terminates .adder 1 adderMachine ∧
      Terminates .adder 1 { adderMachine with depth := maxCallDepth } ∧
      RefusedWith .adder 1 { adderMachine with depth := maxCallDepth } 1002 := by
  have hdepth : adderMachine.depth ≤ maxCallDepth := by decide +kernel
  have hindex : Module.adder.function? 1 = some (.defined 1 1) := by decide +kernel
  have hfull : Terminates .adder 1 { adderMachine with depth := maxCallDepth } :=
    call_terminates .adder (Nat.le_refl _) 1
  exact ⟨hdepth, call_terminates .adder hdepth 1, hfull,
    (hfull.refused_iff [] 1 _ [] .here 1 1 hindex).mpr rfl⟩

end Moment

end BoundedWasm
