import BoundedWasm.Proofs.Machine.Session

/-!
# BoundedWasm.Proofs.Machine.Interpreter — calls by a recursion that needs no room

`interpret` calls a function and `interpretBody` runs a body, each by recursion on two numbers: how
many activations may still open, and how many instructions of the running body are left.  A call
makes the first smaller, an instruction the second.  That an instruction which calls a function
leaves the first as it was is known from the result: an `Ending` is one with the machine back at
its depth, after a fault as after an answer.  So no bound has to be handed down, and the recursion
agrees with `invoke` on every module and every machine (`interpret_eq`).
-/

namespace BoundedWasm.Machine

open BoundedWasm.Action Limits

variable {m : Module} {s : Machine}

/-! ### What is left -/

/-- How many activations may still open, and how many instructions are left. -/
def budget (s : Machine) (instructions : Nat) : Nat × Nat := (maxCallDepth - s.depth, instructions)

/-- The first number decides, and the second where the first is the same. -/
def Below : Nat × Nat → Nat × Nat → Prop := Prod.Lex (· < ·) (· < ·)

/-- Work of one activation, after which fewer instructions are left. -/
theorem below_within {s' : Machine} (h : s'.depth = s.depth) {instructions more : Nat}
    (hfewer : instructions < more) : Below (budget s' instructions) (budget s more) := by
  unfold budget
  rw [h]
  exact .right _ hfewer

/-- One activation more is open. -/
theorem below_deeper {s' : Machine} (hdepth : s.depth < maxCallDepth) (h : s'.depth = s.depth + 1)
    (instructions more : Nat) : Below (budget s' instructions) (budget s more) :=
  .left _ _ (by rw [h]; omega)

/-! ### Endings -/

/-- The depth of the machine in which something ended. -/
def depthAfter {α : Type} : EStateM.Result Fault Machine α → Nat
  | .ok _ s | .error _ s => s.depth

/-- How a call or a body ends: the machine stands again as deep as it did. -/
structure Ending (depth : Nat) where
  result : EStateM.Result Fault Machine Unit
  depth_eq : depthAfter result = depth

namespace Ending

variable {depth depth' : Nat}

/-- The same ending, of a depth that is the same. -/
def ofDepth (e : Ending depth) (h : depth = depth') : Ending depth' :=
  ⟨e.result, e.depth_eq.trans h⟩

/-- What goes on where nothing failed, in a machine whose depth is known. -/
def andThen (e : Ending depth) (next : ∀ s : Machine, s.depth = depth → Ending depth) :
    Ending depth :=
  match e with
  | ⟨.ok _ s, h⟩ => next s h
  | ⟨.error fault s, h⟩ => ⟨.error fault s, h⟩

theorem andThen_result {e : Ending depth} {next : ∀ s : Machine, s.depth = depth → Ending depth}
    {goOn : Machine → EStateM.Result Fault Machine Unit}
    (h : ∀ s hs, (next s hs).result = goOn s) :
    (e.andThen next).result = match e.result with
      | .ok _ s => goOn s
      | .error fault s => .error fault s := by
  obtain ⟨_ | _, hdepth⟩ := e
  · exact h _ _
  · rfl

end Ending

/-! ### Work that keeps the depth -/

theorem KeepsDepth.depthAfter_eq {α : Type} {action : Exec α} (h : KeepsDepth action)
    (s : Machine) : depthAfter (action s) = s.depth := by
  cases hrun : action s with
  | ok a s' => exact (h s).of_ok hrun
  | error fault s' => exact (h s).of_error hrun

theorem KeepsDepth.depth_of_ok {α : Type} {action : Exec α} (h : KeepsDepth action) {a : α}
    {s s' : Machine} (hrun : action s = .ok a s') : s'.depth = s.depth :=
  (h s).of_ok hrun

theorem KeepsDepth.depth_of_error {α : Type} {action : Exec α} (h : KeepsDepth action)
    {fault : Fault} {s s' : Machine} (hrun : action s = .error fault s') : s'.depth = s.depth :=
  (h s).of_error hrun

theorem keepsDepth_openFrame (code : Code) (type : FunctionType) :
    KeepsDepth (openFrame code type) := by
  intro s
  refine (openFrame_ends code type s).mono (fun _ _ h => ?_) (fun _ _ h => ?_)
  · obtain ⟨-, stack, locals, rfl⟩ := h
    rfl
  · obtain ⟨stack, locals, rfl⟩ := h
    rfl

/-- Instructions other than calls work without calling anything. -/
theorem keepsDepth_work {opcode : Opcode} {work : Instruction → Exec Flow}
    (h : handler? m (fun _ => pure ()) opcode = some work) (i : Instruction) :
    KeepsDepth (work i) :=
  handler?_keeps (covers_depth m) (fun _ => .pure (covers_depth m).toChains _) h i

/-! ### Calls and instructions one by one -/

/-- How a call ends whose frame was opened and whose body ended so. -/
def closed (frame : Frame) (results : Nat) (opened : Machine) :
    EStateM.Result Fault Machine Unit → EStateM.Result Fault Machine Unit
  | .error fault s => .error fault (poison (left opened frame s))
  | .ok _ s =>
    if s.stack.length < frame.stackBase + results then
      .error .stackUnderflow (poison (left opened frame s))
    else
      .ok () { left opened frame s with stack := s.stack.keepEnds frame.stackBase results }

theorem depthAfter_closed (frame : Frame) (results : Nat) (opened : Machine)
    (result : EStateM.Result Fault Machine Unit) :
    depthAfter (closed frame results opened result) = depthAfter result - 1 := by
  cases result with
  | error fault s => rfl
  | ok _ s =>
    show depthAfter (if s.stack.length < frame.stackBase + results then _ else _) = s.depth - 1
    split <;> rfl

section Callee

variable {position : Nat} {typeIndex : UInt32} {code : Code} {type : FunctionType} {frame : Frame}
  {opened : Machine}

theorem depth_entered (hopen : openFrame code type s = .ok frame opened) (position : Nat) :
    (entered position frame opened).depth = s.depth + 1 :=
  congrArg (· + 1) ((keepsDepth_openFrame code type).depth_of_ok hopen)

/-- The call comes back to the depth from which its body was entered. -/
theorem depthAfter_closed_entered (hopen : openFrame code type s = .ok frame opened)
    {result : EStateM.Result Fault Machine Unit}
    (hresult : depthAfter result = (entered position frame opened).depth) :
    depthAfter (closed frame type.results.length opened result) = s.depth := by
  rw [depthAfter_closed, hresult, depth_entered hopen, Nat.add_sub_cancel]

theorem callDefined_unopened {fault : Fault} {s' : Machine}
    (hcode : m.codes.get? position = some code) (htype : m.types.get? typeIndex.toNat = some type)
    (hopen : openFrame code type s = .error fault s') (enter : UInt32 → Exec Unit) :
    callDefined m enter position typeIndex s = .error fault s' := by
  rw [callDefined_run hcode htype, hopen]

theorem callDefined_opened (hopen : Opened m position typeIndex s code type frame opened)
    (enter : UInt32 → Exec Unit) :
    callDefined m enter position typeIndex s = closed frame type.results.length opened
      (match m.body code with
        | .error fault => .error fault (entered position frame opened)
        | .ok body => runBody m enter body (entered position frame opened)) := by
  rw [callDefined_run hopen.code_eq hopen.type_eq, hopen.open_eq]
  cases m.body code with
  | error fault => rfl
  | ok body =>
    simp only
    cases runBody m enter body (entered position frame opened) <;> rfl

end Callee

section Instructions

variable {i : Instruction}

theorem runBody_call (h : i.opcode = .call) (enter : UInt32 → Exec Unit)
    (rest : List Instruction) (s : Machine) :
    runBody m enter (i :: rest) s = match i.index with
      | .error fault => .error fault s
      | .ok index =>
        match enter index s with
        | .ok _ s' => runBody m enter rest s'
        | .error fault s' => .error fault s' := by
  obtain ⟨work, hwork⟩ : ∃ work, handler? m enter .call = some work := ⟨_, rfl⟩
  rw [runBody_cons, h, hwork]
  simp only [callInstruction_run hwork]
  cases i.index with
  | error fault => rfl
  | ok index =>
    simp only
    cases enter index s <;> rfl

theorem runBody_unsupported {enter : UInt32 → Exec Unit} (h : handler? m enter i.opcode = none)
    (rest : List Instruction) (s : Machine) :
    runBody m enter (i :: rest) s
      = .error .opcodeUnsupported ((note (.opcodeUnsupported i.opcode)).after s) := by
  rw [runBody_cons, h]
  rfl

theorem runBody_step {enter : UInt32 → Exec Unit} {work : Instruction → Exec Flow}
    {result : EStateM.Result Fault Machine Flow}
    (h : handler? m enter i.opcode = some work) (rest : List Instruction) :
    work i s = result →
      runBody m enter (i :: rest) s = match result with
        | .ok .next s' => runBody m enter rest s'
        | .ok .leave s' => .ok () s'
        | .error fault s' => .error fault s' := by
  rintro rfl
  rewrite [runBody_cons, h]
  rfl

end Instructions

/-! ### The recursion -/

mutual

/-- Calls a function. -/
def interpret (m : Module) (index : UInt32) (s : Machine) : Ending s.depth :=
  match m.function? index with
  | none => ⟨.error .functionOutOfRange s, rfl⟩
  | some (.imported position _) =>
    ⟨callNative m position s, (keepsDepth_callNative position).depthAfter_eq s⟩
  | some (.defined position typeIndex) =>
    if hdepth : s.depth < maxCallDepth then
      match m.codes.get? position, m.types.get? typeIndex.toNat with
      | none, _ => ⟨.error .bodyMissing s, rfl⟩
      | some _, none => ⟨.error .functionTypeMissing s, rfl⟩
      | some code, some type =>
        match hopen : openFrame code type s with
        | .error fault s' =>
          ⟨.error fault s', (keepsDepth_openFrame code type).depth_of_error hopen⟩
        | .ok frame opened =>
          match m.body code with
          | .error fault =>
            ⟨closed frame type.results.length opened
              (.error fault (entered position frame opened)), depthAfter_closed_entered hopen rfl⟩
          | .ok body =>
            have := below_deeper hdepth (depth_entered hopen position) body.length 0
            let inner := interpretBody m body (entered position frame opened)
            ⟨closed frame type.results.length opened inner.result,
              depthAfter_closed_entered hopen inner.depth_eq⟩
    else ⟨.error .callDepthReached s, rfl⟩
  termination_by budget s 0
  decreasing_by exact this

/-- Runs what is left of a body. -/
def interpretBody (m : Module) (rest : List Instruction) (s : Machine) : Ending s.depth :=
  match rest with
  | [] => ⟨.ok () s, rfl⟩
  | i :: rest =>
    if i.opcode = .call then
      match i.index with
      | .error fault => ⟨.error fault s, rfl⟩
      | .ok index =>
        (interpret m index s).andThen fun s' hdepth => (interpretBody m rest s').ofDepth hdepth
    else
      -- no other instruction calls a function, so it does not matter how functions are called
      match hwork : handler? m (fun _ => pure ()) i.opcode with
      | none => ⟨.error .opcodeUnsupported ((note (.opcodeUnsupported i.opcode)).after s), rfl⟩
      | some work =>
        match hrun : work i s with
        | .error fault s' => ⟨.error fault s', (keepsDepth_work hwork i).depth_of_error hrun⟩
        | .ok .leave s' => ⟨.ok () s', (keepsDepth_work hwork i).depth_of_ok hrun⟩
        | .ok .next s' =>
          have hdepth := (keepsDepth_work hwork i).depth_of_ok hrun
          (interpretBody m rest s').ofDepth hdepth
  termination_by budget s rest.length
  decreasing_by
    · exact below_within rfl (Nat.succ_pos _)
    · exact below_within hdepth (Nat.lt_succ_self _)
    · exact below_within hdepth (Nat.lt_succ_self _)

end

/-! ### Agreement -/

mutual

theorem interpret_eq (m : Module) (index : UInt32) (s : Machine) :
    (interpret m index s).result = invoke m index s := by
  rw [interpret]
  split
  · rename_i hindex
    exact (invoke_missing hindex s).symm
  · rename_i hindex
    exact (invoke_native hindex s).symm
  · rename_i position typeIndex hindex
    split
    · rename_i hdepth
      rw [invoke_defined hindex hdepth]
      split
      · rename_i hcode
        exact (callDefined_bodyMissing hcode _ _ s).symm
      · rename_i hcode htype
        exact (callDefined_typeMissing hcode htype _ s).symm
      · rename_i code type hcode htype
        split
        · rename_i hopen
          exact (callDefined_unopened hcode htype hopen _).symm
        · rename_i frame opened hopen
          rw [callDefined_opened ⟨hcode, htype, hopen⟩]
          cases hbody : m.body code with
          | error fault => rfl
          | ok body =>
            have hless := below_deeper hdepth (depth_entered hopen position) body.length 0
            show closed _ _ _ (interpretBody m body (entered position frame opened)).result = _
            rw [interpretBody_eq m body (entered position frame opened)]
    · rename_i hdepth
      exact (invoke_deep hindex (Nat.le_of_not_lt hdepth)).symm
  termination_by budget s 0
  decreasing_by exact hless

theorem interpretBody_eq (m : Module) (rest : List Instruction) (s : Machine) :
    (interpretBody m rest s).result = runBody m (invoke m) rest s := by
  cases rest with
  | nil =>
    rw [interpretBody]
    rfl
  | cons i rest =>
    have hrest : ∀ s' : Machine, s'.depth = s.depth →
        (interpretBody m rest s').result = runBody m (invoke m) rest s' :=
      fun s' hdepth => interpretBody_eq m rest s'
    rw [interpretBody]
    split
    · rename_i hcall
      rw [runBody_call hcall]
      split
      · rfl
      · rename_i index hindex
        rw [Ending.andThen_result hrest, interpret_eq m index s]
    · rename_i hcall
      have hsame := handler?_of_ne_call (m := m) hcall (fun _ => pure ()) (invoke m)
      split
      · rename_i hwork
        exact (runBody_unsupported (hsame.symm.trans hwork) rest s).symm
      · rename_i work hwork
        split
        · rename_i hrun
          exact (runBody_step (hsame.symm.trans hwork) rest hrun).symm
        · rename_i hrun
          exact (runBody_step (hsame.symm.trans hwork) rest hrun).symm
        · rename_i s' hrun
          rw [runBody_step (hsame.symm.trans hwork) rest hrun]
          exact hrest s' ((keepsDepth_work hwork i).depth_of_ok hrun)
  termination_by budget s rest.length
  decreasing_by
    · exact below_within hdepth (Nat.lt_succ_self _)
    · exact below_within rfl (Nat.succ_pos _)

end

/-! ### Calls from the host -/

/-- A call from the host, made by this recursion. -/
def interpretCall (m : Module) (index : UInt32) : Exec Unit := fun s =>
  if s.poisoned then .error .poisoned s
  else match (interpret m index s).result with
    | .ok _ s' => .ok () s'
    | .error fault s' => .error fault (settled index fault s')

theorem interpretCall_eq (m : Module) (index : UInt32) (s : Machine) :
    interpretCall m index s = call m index s := by
  rewrite [call_run, interpretCall, interpret_eq]
  rfl

end BoundedWasm.Machine
