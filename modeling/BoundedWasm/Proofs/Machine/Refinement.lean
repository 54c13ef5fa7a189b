import BoundedWasm.Proofs.Machine.Mirror
import BoundedWasm.Proofs.Machine.Room

/-!
# BoundedWasm.Proofs.Machine.Refinement — machines compute what the plain evaluator computes

As long as no push and no call is refused for want of room (`Moment.Unrefused`), a call ends on the
machine as it ends in plain recursion: with the same fault, or with the same operands, globals,
memory and cells.  The proof follows one activation at a time: the operands and locals of all others
are a part of the two stacks that `Mirrors` sets aside, and calling a function sets more aside.
-/

namespace BoundedWasm

open BoundedWasm.Action Limits

open Moment

variable {m : Module} {below lower : List Value} {s s' : Machine} {r : Plain} {callers : List Frame}

/-! ### Native functions -/

/-- How work of a machine ends that is known to meet no full stack. -/
def Agrees (below lower : List Value) (ending : EStateM.Result Fault Machine Unit)
    (outcome : Except Fault Plain) : Prop :=
  match ending with
  | .ok _ s' => ∃ r', outcome = .ok r' ∧ Mirrors below lower s' r'
  | .error fault _ => outcome = .error fault

/-- The state that plain work ends in, or its fault. -/
def outcomeOf (ending : EStateM.Result Fault Plain Unit) : Except Fault Plain :=
  match ending with
  | .ok _ r' => .ok r'
  | .error fault _ => .error fault

theorem Agrees.of_ok {ending : EStateM.Result Fault Plain Unit}
    (h : Agrees below lower (.ok () s') (outcomeOf ending)) :
    ∃ r', ending = .ok () r' ∧ Mirrors below lower s' r' := by
  obtain ⟨r', houtcome, hs'⟩ := h
  cases ending with
  | ok _ r'' =>
    cases houtcome
    exact ⟨r', rfl, hs'⟩
  | error fault r'' => cases houtcome

theorem Agrees.of_error {ending : EStateM.Result Fault Plain Unit} {fault : Fault}
    (h : Agrees below lower (.error fault s') (outcomeOf ending)) :
    ∃ r', ending = .error fault r' := by
  cases ending with
  | ok _ r' => cases h
  | error other r' =>
    cases h
    exact ⟨r', rfl⟩

theorem observe_push (hs : Mirrors below lower s r) (value : Value)
    (hlt : s.stack.length < maxOperandStack) :
    ∃ s' r', observe (Machine.push value) s = .ok (.ok ()) s' ∧ Plain.push value r = .ok () r' ∧
      Mirrors below lower s' r' := by
  have hpush : Machine.push value s = .ok () { s with stack := s.stack.put value } := if_pos hlt
  obtain ⟨r', hrun, hs'⟩ := (follows_push value below lower s r hs).of_ok hpush
  exact ⟨_, r', by rw [observe, hpush], hrun, hs'⟩

theorem pop_run (s : Machine) :
    Machine.pop s = match Machine.top s with
      | .ok value s' => .ok value { s' with stack := s'.stack.pop }
      | .error fault s' => .error fault s' := by
  unfold Machine.pop
  rw [bind_run]
  cases Machine.top s <;> rfl

theorem observe_pop (hs : Mirrors below lower s r) :
    ∃ answer s' r', observe Machine.pop s = .ok answer s' ∧
      observe Plain.pop r = .ok answer r' ∧ Mirrors below lower s' r' := by
  have htop := hs.top_ends
  have hpop := pop_run s
  cases hrun : Machine.top s with
  | ok value s' =>
    obtain ⟨rfl, hlast, hpopped⟩ := htop.of_ok hrun
    rw [hrun] at hpop
    have hplain : Plain.pop r = .ok value { r with operands := r.operands.dropLast } := by
      unfold Plain.pop
      rw [hlast]
    exact ⟨.ok value, _, _, by rw [observe, hpop], by rw [observe, hplain], hpopped⟩
  | error fault s' =>
    obtain ⟨rfl, rfl, hlast⟩ := htop.of_error hrun
    rw [hrun] at hpop
    have hplain : Plain.pop r = .error .stackUnderflow r := by
      unfold Plain.pop
      rw [hlast]
    exact ⟨.error .stackUnderflow, _, r, by rw [observe, hpop], by rw [observe, hplain], hs⟩

theorem native_agrees (native : Native) (hs : Mirrors below lower s r)
    (hfree : Unrefused m ⟨.native native, s, callers⟩) :
    Agrees below lower (native.run s) (outcomeOf (Plain.native native r)) := by
  induction native generalizing s r with
  | finish outcome =>
    cases outcome with
    | ok _ => exact ⟨r, rfl, hs⟩
    | error fault => rfl
  | push value next ih =>
    have hlt : s.stack.length < maxOperandStack :=
      Nat.lt_of_le_of_ne s.stack.length_le fun hfull => hfree.now (.push hfull)
    obtain ⟨s', r', hmachine, hplain, hs'⟩ := observe_push hs value hlt
    show Agrees below lower ((observe (Machine.push value) >>= fun a => (next a).run) s)
      (outcomeOf ((Plain.push value >>= fun _ => Plain.native (next (.ok ()))) r))
    rw [bind_run, bind_run, hmachine, hplain]
    exact ih (.ok ()) hs' (hfree.step (.push hmachine))
  | pop next ih =>
    obtain ⟨answer, s', r', hmachine, hplain, hs'⟩ := observe_pop hs
    show Agrees below lower ((observe Machine.pop >>= fun a => (next a).run) s)
      (outcomeOf ((observe Plain.pop >>= fun a => Plain.native (next a)) r))
    rw [bind_run, bind_run, hmachine, hplain]
    exact ih answer hs' (hfree.step (.pop hmachine))
  | memorySize next ih =>
    show Agrees below lower ((next s.memory.size).run s)
      (outcomeOf (Plain.native (next r.memory.size) r))
    rw [← hs.memory]
    exact ih _ hs (hfree.step (.memorySize s callers))
  | readMemory start length next ih =>
    show Agrees below lower ((next (s.memory.bytes? start length)).run s)
      (outcomeOf (Plain.native (next (r.memory.bytes? start length)) r))
    rw [← hs.memory]
    exact ih _ hs (hfree.step (.readMemory s callers))
  | writeMemory start bytes next ih =>
    unfold Native.run Plain.native
    simp only [bind_run, get_run]
    rw [← hs.memory]
    cases hwrite : s.memory.overwrite? start bytes with
    | none => exact ih false hs (hfree.step (.writeMemoryOutside hwrite))
    | some memory =>
      have hs' : Mirrors below lower { s with memory } { r with memory } :=
        { hs with memory := rfl }
      exact ih true hs' (hfree.step (.writeMemory hwrite))
  | readCell cell next ih =>
    show Agrees below lower ((next (s.host.cells.read cell)).run s)
      (outcomeOf (Plain.native (next (r.cells.read cell)) r))
    rw [← hs.cells]
    exact ih _ hs (hfree.step (.readCell s callers))
  | writeCell cell bits next ih =>
    have hs' : Mirrors below lower
        { s with host := { s.host with cells := s.host.cells.write cell bits } }
        { r with cells := r.cells.write cell bits } :=
      { hs with cells := congrArg (Cells.write · cell bits) hs.cells }
    exact ih hs' (hfree.step (.writeCell s callers))
  | report entry next ih =>
    have hs' : Mirrors below lower
        { s with host := { s.host with reports := s.host.reports.push entry } }
        { r with reports := r.reports.push entry } :=
      { hs with reports := congrArg (Array.push · entry) hs.reports }
    exact ih hs' (hfree.step (.report s callers))

theorem callNative_agrees {index typeIndex : UInt32} {position : Nat}
    (hindex : m.function? index = some (.imported position typeIndex))
    (hs : Mirrors below lower s r) (hfree : Unrefused m ⟨.calling index, s, callers⟩) :
    Agrees below lower (Machine.callNative m position s) (Plain.callNative m position r) := by
  have hheight := hs.height
  have hbase := hs.stackBase
  have hcalled : Mirrors below lower (Machine.called position s) r := { hs with }
  -- what the native function does, as both sides see it
  have hrun : ∀ {binding : FunctionBinding}, Machine.bindingOf m position = .function binding →
      s.frame.stackBase + binding.inputs ≤ s.stack.length →
      Agrees below lower (binding.callback.run (Machine.called position s))
        (outcomeOf (Plain.native binding.callback r)) := fun hbinding henough =>
    native_agrees _ hcalled (hfree.step (.enterNative hindex hbinding henough))
  unfold Plain.callNative
  generalize hend : Machine.callNative m position s = ending
  cases Machine.callNative_cases hend with
  | unbound hbinding =>
    cases hslot : Machine.bindingOf m position with
    | function binding => exact absurd hslot (hbinding binding)
    | unbound => rfl
    | cell id => rfl
  | few hbinding hfew =>
    rw [hbinding]
    exact if_pos (by omega)
  | failed hbinding henough hmachine =>
    have hagree := hrun hbinding henough
    rw [hmachine] at hagree
    obtain ⟨r', hplain⟩ := hagree.of_error
    simp only [hbinding, hplain]
    exact if_neg (by omega)
  | uneven hbinding henough hmachine hheight' =>
    have hagree := hrun hbinding henough
    rw [hmachine] at hagree
    obtain ⟨r', hplain, hs'⟩ := hagree.of_ok
    have hlength := hs'.height
    simp only [hbinding, hplain]
    rw [if_neg (by omega), if_neg (by omega)]
    rfl
  | returned hbinding henough hmachine hheight' =>
    have hagree := hrun hbinding henough
    rw [hmachine] at hagree
    obtain ⟨r', hplain, hs'⟩ := hagree.of_ok
    have hlength := hs'.height
    simp only [hbinding, hplain]
    rw [if_neg (by omega), if_pos (by omega)]
    exact ⟨r', rfl, hs'⟩

/-! ### Bodies -/

/-- Calls made at this depth agree with their plain evaluation. -/
def CallsAgree (m : Module) (depth : Nat) : Prop :=
  ∀ ⦃below lower s r callers⦄ (index : UInt32), s.depth = depth → Mirrors below lower s r →
    Unrefused m ⟨.calling index, s, callers⟩ →
    ∃ outcome, Plain.call m index r = some outcome ∧
      Agrees below lower (Machine.invoke m index s) outcome

/-- Bodies run at this depth agree with their plain run. -/
def BodiesAgree (m : Module) (depth : Nat) : Prop :=
  ∀ ⦃below lower s r callers⦄ (body : List Instruction), s.depth = depth →
    Mirrors below lower s r → Unrefused m ⟨.body body, s, callers⟩ →
    ∃ outcome, Plain.run m body r = some outcome ∧
      Agrees below lower (Machine.runBody m (Machine.invoke m) body s) outcome

/-- An instruction that neither leaves the body nor calls a function ends alike on both sides, or is
supported by neither. -/
theorem instruction_agrees {i : Instruction} {rest : List Instruction} (hret : i.opcode ≠ .ret)
    (hcall : i.opcode ≠ .call) (hs : Mirrors below lower s r)
    (hnow : ¬ Refused m ⟨.body (i :: rest), s, callers⟩) :
    (Machine.handler? m (Machine.invoke m) i.opcode = none ∧ Plain.work? m i.opcode = none) ∨
      ∃ work plain, Machine.handler? m (Machine.invoke m) i.opcode = some work ∧
        Plain.work? m i.opcode = some plain ∧
        (work i).Ends s
          (fun flow s' => flow = .next ∧ ∃ r', plain i r = .ok () r' ∧ Mirrors below lower s' r')
          (fun fault _ => ∃ r', plain i r = .error fault r') := by
  have hfollows := work?_follows m (Machine.invoke m) hcall
  have hhandler := Machine.handler?_of_ne_ret (m := m) hret (Machine.invoke m)
  generalize Machine.work? m (Machine.invoke m) i.opcode = machine at hfollows hhandler
  generalize Plain.work? m i.opcode = plain at hfollows
  cases hfollows with
  | none => exact .inl ⟨hhandler, rfl⟩
  | @some work plain hfollow =>
    have hends := hfollow i below lower s r hs
    have hrun : (do
        work i
        return Flow.next : Exec Flow) s = match work i s with
          | .ok _ s' => .ok .next s'
          | .error fault s' => .error fault s' := by
      rw [bind_run]
      cases work i s <;> rfl
    rw [Option.map_some] at hhandler
    refine .inr ⟨_, plain, hhandler, rfl, ?_⟩
    unfold Ends
    rw [hrun]
    cases hwork : work i s with
    | ok _ s' => exact ⟨rfl, hends.of_ok hwork⟩
    | error fault s' =>
      rcases hends.of_error hwork with ⟨rfl, hfull⟩ | hplain
      · rw [hwork] at hrun
        exact absurd (.instruction hcall hhandler hrun hfull) hnow
      · exact hplain

/-- Bodies agree where the calls do that are made at their depth. -/
theorem CallsAgree.bodies {depth : Nat} (hcalls : CallsAgree m depth) : BodiesAgree m depth := by
  intro below lower s r callers body hdepth hs hfree
  induction body generalizing s r with
  | nil => exact ⟨.ok r, Plain.run_nil r, r, rfl, hs⟩
  | cons i rest ih =>
    rw [Machine.runBody_cons]
    by_cases hret : i.opcode = .ret
    · rw [Plain.run_ret hret, hret]
      exact ⟨.ok r, rfl, r, rfl, hs⟩
    by_cases hcall : i.opcode = .call
    · obtain ⟨work, hwork⟩ : ∃ work, Machine.handler? m (Machine.invoke m) .call = some work :=
        ⟨_, rfl⟩
      have hrun := Machine.callInstruction_run hwork i s
      rw [Plain.run_call hcall, hcall, hwork]
      simp only [hrun]
      cases hindex : i.index with
      | error fault => exact ⟨.error fault, rfl, rfl⟩
      | ok index =>
        obtain ⟨outcome, hplain, hagree⟩ := hcalls index hdepth hs (hfree.step (.call hcall hindex))
        rw [hindex] at hrun
        simp only [hplain]
        cases hinvoke : Machine.invoke m index s with
        | error fault s' =>
          rw [hinvoke] at hagree
          cases hagree
          exact ⟨.error fault, rfl, rfl⟩
        | ok _ s' =>
          rw [hinvoke] at hagree
          obtain ⟨r', rfl, hs'⟩ := hagree
          simp only [hinvoke] at hrun
          have hdepth' := (Machine.keepsDepth_invoke index s).of_ok hinvoke
          rw [← hcall] at hwork
          exact ih (hdepth'.trans hdepth) hs' (hfree.step (.next hwork hrun))
    · rw [Plain.run_work hret hcall]
      rcases instruction_agrees hret hcall hs hfree.now with
        ⟨hhandler, hplain⟩ | ⟨work, plain, hhandler, hplain, hends⟩
      · rw [hhandler, hplain]
        exact ⟨.error .opcodeUnsupported, rfl, rfl⟩
      · rw [hhandler, hplain]
        cases hrun : work i s with
        | error fault s' =>
          obtain ⟨r', hplainRun⟩ := hends.of_error hrun
          simp only [hrun, hplainRun]
          exact ⟨.error fault, rfl, rfl⟩
        | ok flow s' =>
          obtain ⟨rfl, r', hplainRun, hs'⟩ := hends.of_ok hrun
          have hdepth' := (Machine.handler?_keeps (Machine.covers_depth m)
            Machine.keepsDepth_invoke hhandler i s).of_ok hrun
          simp only [hrun, hplainRun]
          exact ih (hdepth'.trans hdepth) hs' (hfree.step (.next hhandler hrun))

/-! ### Activations -/

/-- What the machine has below the last operands of an activation. -/
theorem Mirrors.take_stack (h : Mirrors below lower s r) {count : Nat}
    (hle : count ≤ r.operands.length) :
    s.stack.toList.take (s.stack.length - count)
      = below ++ r.operands.take (r.operands.length - count) := by
  rw [h.stack, h.height, Nat.add_sub_assoc hle, List.take_length_add_append]

theorem Mirrors.drop_stack (h : Mirrors below lower s r) {count : Nat}
    (hle : count ≤ r.operands.length) :
    s.stack.toList.drop (s.stack.length - count)
      = r.operands.drop (r.operands.length - count) := by
  rw [h.stack, h.height, Nat.add_sub_assoc hle, List.drop_length_add_append]

section

variable {code : Code} {type : FunctionType} {opened : Machine} {position : Nat}

theorem Mirrors.stackBase_frameFor (h : Mirrors below lower s r)
    (hle : type.params.length ≤ r.operands.length) :
    (Machine.frameFor code type s).stackBase
      = (below ++ Plain.others type.params.length r).length := by
  have hheight := h.height
  show s.stack.length - type.params.length = _
  rw [List.length_append, Plain.others, List.length_take]
  omega

/-- A callee begins as its plain activation; the caller's operands and all locals are set aside. -/
theorem Mirrors.entered (h : Mirrors below lower s r) (hcode : code.CountsLocals)
    (hopens : Machine.Opens code type s opened) (hle : type.params.length ≤ r.operands.length) :
    Mirrors (below ++ Plain.others type.params.length r) s.locals.toList
      (Machine.entered position (Machine.frameFor code type s) opened)
      (Plain.callee code type r) := by
  obtain ⟨stack, locals, hothers⟩ := hopens.others
  have harguments : Machine.arguments type.params.length s
      = Plain.arguments type.params.length r := h.drop_stack hle
  have hcount := hcode.numLocals_eq
  constructor
  · show opened.stack.toList = _
    rw [hopens.stack, h.take_stack hle]
    exact (List.append_nil _).symm
  · exact h.stackBase_frameFor hle
  · show opened.locals.toList = _
    rw [hopens.locals, harguments, List.append_assoc]
    rfl
  · show s.locals.length = _
    rw [FixedVec.length_toList]
  · show type.params.length + code.numLocals.toNat = _
    rw [Plain.callee, List.length_append, Machine.length_zeros, Plain.arguments, List.length_drop]
    omega
  · rw [hothers]
    exact h.globals
  · rw [hothers]
    exact h.memory
  · rw [hothers]
    exact h.cells
  · rw [hothers]
    exact h.reports

/-- A callee that returns is left as its plain activation ends. -/
theorem Mirrors.resumed (h : Mirrors below lower s r) {ended : Plain}
    (hopens : Machine.Opens code type s opened) (hle : type.params.length ≤ r.operands.length)
    (hstays : (Machine.entered position (Machine.frameFor code type s) opened).Stays s')
    (hs' : Mirrors (below ++ Plain.others type.params.length r) s.locals.toList s' ended)
    (hlong : (Machine.frameFor code type s).stackBase + type.results.length ≤ s'.stack.length) :
    ∃ r', Plain.resumed type r ended = .ok r' ∧
      Mirrors below lower { Machine.left opened (Machine.frameFor code type s) s' with
        stack := s'.stack.keepEnds (Machine.frameFor code type s).stackBase
          type.results.length } r' := by
  have hrestores := hopens.left_restores hstays
  have hframe : opened.frame = s.frame := hrestores.frame
  have hresults : type.results.length ≤ ended.operands.length := by
    rw [h.stackBase_frameFor hle, hs'.height] at hlong
    exact Nat.le_of_add_le_add_left hlong
  refine ⟨_, if_neg (Nat.not_lt.mpr hresults), ?_, ?_, ?_, ?_, ?_, hs'.globals, hs'.memory,
    hs'.cells, hs'.reports⟩
  · show (s'.stack.keepEnds _ _).toList = _
    rw [hopens.toList_keepEnds hstays hlong, h.take_stack hle, hs'.drop_stack hresults,
      List.append_assoc]
    rfl
  · show opened.frame.stackBase = _
    rw [hframe]
    exact h.stackBase
  · exact hrestores.locals.trans h.locals
  · show opened.frame.localsBase = _
    rw [hframe]
    exact h.localsBase
  · show opened.frame.numLocals = _
    rw [hframe]
    exact h.numLocals

end

/-- Where the machine opens a frame, the plain evaluator goes on with the body. -/
theorem call_of_opened (hm : m.CountsLocals) {index typeIndex : UInt32} {position : Nat}
    (hindex : m.function? index = some (.defined position typeIndex))
    (hs : Mirrors below lower s r) {code : Code} {type : FunctionType} {frame : Frame}
    {opened : Machine} (hopen : Machine.Opened m position typeIndex s code type frame opened) :
    code.CountsLocals ∧ frame = Machine.frameFor code type s ∧ Machine.Opens code type s opened ∧
      type.params.length ≤ r.operands.length ∧
      Plain.call m index r = match m.body code with
        | .error fault => some (.error fault)
        | .ok body => (Plain.run m body (Plain.callee code type r)).map fun outcome =>
          outcome.bind (Plain.resumed type r) := by
  obtain ⟨hcode, hframe, hopens⟩ := hopen.opens hm
  have henough := hopens.enough
  rw [hs.stackBase, hs.height] at henough
  have hle : type.params.length ≤ r.operands.length := by omega
  have htypes := hopens.types
  rw [show Machine.arguments type.params.length s = Plain.arguments type.params.length r from
    hs.drop_stack hle] at htypes
  have hcall := Plain.call_defined hindex hopen.code_eq hopen.type_eq r
  rw [if_neg (by omega), if_neg (not_not_intro htypes)] at hcall
  refine ⟨hcode, hframe, hopens, hle, hcall.trans ?_⟩
  cases m.body code <;> rfl

/-- The body of an opened frame and its plain activation agree, and with them what is left of the
plain call. -/
theorem opened_agrees (hm : m.CountsLocals) {index typeIndex : UInt32} {position : Nat}
    (hindex : m.function? index = some (.defined position typeIndex))
    (hdepth : s.depth < maxCallDepth) (hbodies : BodiesAgree m (s.depth + 1))
    (hs : Mirrors below lower s r) (hfree : Unrefused m ⟨.calling index, s, callers⟩)
    {code : Code} {type : FunctionType} {frame : Frame} {opened : Machine}
    {body : List Instruction}
    (hopen : Machine.Opened m position typeIndex s code type frame opened)
    (hstretch : m.body code = .ok body) :
    ∃ outcome, Plain.call m index r = some (outcome.bind (Plain.resumed type r)) ∧
      Agrees (below ++ Plain.others type.params.length r) s.locals.toList
        (Machine.runBody m (Machine.invoke m) body (Machine.entered position frame opened))
        outcome := by
  obtain ⟨hcode, rfl, hopens, hle, hcall⟩ := call_of_opened hm hindex hs hopen
  have hdeeper : (Machine.entered position (Machine.frameFor code type s) opened).depth
      = s.depth + 1 := congrArg (· + 1) hopen.depth_eq
  obtain ⟨outcome, hplain, hagree⟩ := hbodies body hdeeper (hs.entered hcode hopens hle)
    (hfree.step (.enterBody hindex hdepth hopen hstretch))
  refine ⟨outcome, ?_, hagree⟩
  rw [hcall, hstretch]
  simp only [hplain]
  rfl

/-- A call of a defined function agrees with its plain evaluation when bodies do one activation
deeper. -/
theorem callDefined_agrees (hm : m.CountsLocals) {index typeIndex : UInt32} {position : Nat}
    (hindex : m.function? index = some (.defined position typeIndex))
    (hdepth : s.depth < maxCallDepth) (hbodies : BodiesAgree m (s.depth + 1))
    (hs : Mirrors below lower s r) (hfree : Unrefused m ⟨.calling index, s, callers⟩) :
    ∃ outcome, Plain.call m index r = some outcome ∧ Agrees below lower
      (Machine.callDefined m (Machine.invoke m) position typeIndex s) outcome := by
  generalize hend : Machine.callDefined m (Machine.invoke m) position typeIndex s = ending
  cases Machine.callDefined_cases hend with
  | bodyMissing hcode => exact ⟨_, Plain.call_bodyMissing hindex hcode r, rfl⟩
  | typeMissing hcode htype => exact ⟨_, Plain.call_typeMissing hindex hcode htype r, rfl⟩
  | @unopened code type fault _ hcode htype hopen =>
    have hheight := hs.height
    have hbase := hs.stackBase
    rw [Plain.call_defined hindex hcode htype]
    obtain ⟨-, hblocked⟩ := (Machine.openFrame_cases (hm.of_get? hcode) type s).of_error hopen
    cases hblocked with
    | underflow hfew =>
      rw [if_pos (by omega)]
      exact ⟨_, rfl, rfl⟩
    | mismatch henough htypes =>
      have harguments : Machine.arguments type.params.length s
          = Plain.arguments type.params.length r := hs.drop_stack (by omega)
      rw [harguments] at htypes
      rw [if_neg (by omega), if_pos htypes]
      exact ⟨_, rfl, rfl⟩
    | exhausted henough htypes hroom =>
      exact absurd (.locals hindex hcode htype hopen) hfree.now
  | stretchMissing hopen hstretch =>
    obtain ⟨-, -, -, -, hcall⟩ := call_of_opened hm hindex hs hopen
    rw [hcall, hstretch]
    exact ⟨_, rfl, rfl⟩
  | failed hopen hstretch hrun =>
    obtain ⟨outcome, hcall, hagree⟩ :=
      opened_agrees hm hindex hdepth hbodies hs hfree hopen hstretch
    rw [hrun] at hagree
    cases hagree
    exact ⟨_, hcall, rfl⟩
  | short hopen hstretch hrun hshort =>
    obtain ⟨outcome, hcall, hagree⟩ :=
      opened_agrees hm hindex hdepth hbodies hs hfree hopen hstretch
    rw [hrun] at hagree
    obtain ⟨ended, rfl, hs'⟩ := hagree
    obtain ⟨-, rfl, -, hle, -⟩ := call_of_opened hm hindex hs hopen
    have hfew := hshort
    rw [hs.stackBase_frameFor hle, hs'.height] at hfew
    exact ⟨_, hcall, if_pos (Nat.lt_of_add_lt_add_left hfew)⟩
  | returned hopen hstretch hrun hlong =>
    obtain ⟨outcome, hcall, hagree⟩ :=
      opened_agrees hm hindex hdepth hbodies hs hfree hopen hstretch
    rw [hrun] at hagree
    obtain ⟨ended, rfl, hs'⟩ := hagree
    obtain ⟨hcode, rfl, hopens, hle, -⟩ := call_of_opened hm hindex hs hopen
    have hstays : Machine.Stays _ _ := ((Machine.keeps_runBody (Machine.covers_frames m)
      (Machine.keeps_invoke hm) _ _).of_ok hrun (hopens.entered_framed hcode)).1
    obtain ⟨r', hresumed, hs''⟩ := hs.resumed hopens hle hstays hs' hlong
    exact ⟨_, hcall, r', hresumed, hs''⟩

/-- Only calls of defined functions depend on how deeply calls nest. -/
theorem invoke_agrees_of_not_defined {index : UInt32}
    (hindex : ∀ position typeIndex, m.function? index ≠ some (.defined position typeIndex))
    (hs : Mirrors below lower s r) (hfree : Unrefused m ⟨.calling index, s, callers⟩) :
    ∃ outcome, Plain.call m index r = some outcome ∧
      Agrees below lower (Machine.invoke m index s) outcome := by
  cases hfunction : m.function? index with
  | none =>
    rw [Machine.invoke_missing hfunction, Plain.call_missing hfunction]
    exact ⟨_, rfl, rfl⟩
  | some function =>
    cases function with
    | defined position typeIndex => exact absurd hfunction (hindex position typeIndex)
    | imported position typeIndex =>
      rw [Machine.invoke_native hfunction, Plain.call_native hfunction]
      exact ⟨_, rfl, callNative_agrees hfunction hs hfree⟩

/-- Calls agree with their plain evaluation, from wherever they are made; `room` more activations
may open. -/
theorem callsAgree (hm : m.CountsLocals) {depth room : Nat} (hroom : depth + room = maxCallDepth) :
    CallsAgree m depth := by
  induction room generalizing depth with
  | zero =>
    intro below lower s r callers index hdepth hs hfree
    refine invoke_agrees_of_not_defined (fun position typeIndex hindex => ?_) hs hfree
    exact hfree.now (.depth hindex (by omega))
  | succ room ih =>
    intro below lower s r callers index hdepth hs hfree
    by_cases hdefined : ∃ position typeIndex,
        m.function? index = some (.defined position typeIndex)
    · obtain ⟨position, typeIndex, hindex⟩ := hdefined
      have hlt : s.depth < maxCallDepth := by omega
      have hdeeper : CallsAgree m (s.depth + 1) := ih (by omega)
      rw [Machine.invoke_defined hindex hlt]
      exact callDefined_agrees hm hindex hlt hdeeper.bodies hs hfree
    · exact invoke_agrees_of_not_defined
        (fun position typeIndex hindex => hdefined ⟨position, typeIndex, hindex⟩) hs hfree

theorem mirrors_ofMachine (hs : s.Idle) : Mirrors [] [] s (Plain.ofMachine s) where
  stack := rfl
  stackBase := by rw [hs.frame]; rfl
  locals := List.eq_nil_of_length_eq_zero (by rw [FixedVec.length_toList]; exact hs.locals)
  localsBase := by rw [hs.frame]; rfl
  numLocals := by rw [hs.frame]; rfl
  globals := rfl
  memory := rfl
  cells := rfl
  reports := rfl

/-- A call from the host on an unpoisoned machine, during which nothing is refused for want of room,
ends as it does in plain recursion: with the same fault, or else with the same operands, globals,
memory and cells, and the same reports of native functions. -/
theorem Machine.call_refines (hm : m.Prepared) (hs : Machine.Reachable m s)
    (hpoisoned : s.poisoned = false) (index : UInt32)
    (hfree : Unrefused m (Moment.start index s)) :
    ∃ outcome, Plain.call m index (Plain.ofMachine s) = some outcome ∧
      (Machine.call m index).Ends s
        (fun _ s' => ∃ r', outcome = .ok r' ∧ s'.stack.toList = r'.operands ∧
          s'.globals.toList = r'.globals ∧ s'.memory = r'.memory ∧ s'.host.cells = r'.cells ∧
          s'.host.reports = r'.reports)
        (fun fault _ => outcome = .error fault) := by
  have hidle := hs.idle hm.countsLocals
  have hcalls : CallsAgree m 0 := callsAgree hm.countsLocals (Nat.zero_add maxCallDepth)
  obtain ⟨outcome, hplain, hagree⟩ := hcalls index hidle.depth (mirrors_ofMachine hidle) hfree
  refine ⟨outcome, hplain, ?_⟩
  unfold Ends
  rw [Machine.call_run, hpoisoned]
  cases hrun : Machine.invoke m index s with
  | ok _ s' =>
    rw [hrun] at hagree
    obtain ⟨r', houtcome, hs'⟩ := hagree
    exact ⟨r', houtcome, hs'.stack, hs'.globals, hs'.memory, hs'.cells, hs'.reports⟩
  | error fault s' =>
    rw [hrun] at hagree
    exact hagree

theorem Machine.adder_refines :
    ∃ r, Plain.call .adder 1 (Plain.ofMachine adderMachine) = some (.ok r) ∧
      r.operands = [.i32 12] := by
  have hs := adderMachine_reachable
  have hpoisoned : adderMachine.poisoned = false := by decide +kernel
  have hfits : fitsWithin .adder maxCallDepth 1 adderMachine = true := by decide +kernel
  have hfree := (unrefused_start_iff (hs.idle Module.adder_prepared.countsLocals) 1).mpr hfits
  obtain ⟨outcome, hplain, hends⟩ := call_refines Module.adder_prepared hs hpoisoned 1 hfree
  obtain ⟨s, hrun, hstack⟩ := adderMachine_answers
  have hcall : call .adder 1 adderMachine = .ok () s := by
    rw [call_run, hpoisoned, hrun]
    rfl
  obtain ⟨r, rfl, hoperands, -⟩ := hends.of_ok hcall
  exact ⟨r, hplain, hoperands.symm.trans hstack⟩

end BoundedWasm
