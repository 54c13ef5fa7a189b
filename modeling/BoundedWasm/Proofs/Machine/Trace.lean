import BoundedWasm.Proofs.Machine.Moment

/-!
# BoundedWasm.Proofs.Machine.Trace — how a run ends, traced back to where it comes from

Every run is finite: from no moment can one step on for ever (`Step.acc`), since calls nest at most
`maxCallDepth` deep and all else works off a body or a program.  So whatever a run ends in can be
followed back from its end.  `Raises` lists the places where a fault comes up; a run that fails
leads to one of them (`exists_raises`).
-/

namespace BoundedWasm.Moment

open BoundedWasm.Action Limits Machine

variable {m : Module}

/-! ### Every run is finite -/

/-- One step later. -/
def Later (m : Module) (moment' moment : Moment) : Prop := Step m moment moment'

theorem acc_over (s : Machine) (callers : List Frame) : Acc (Later m) ⟨.over, s, callers⟩ :=
  ⟨_, fun _ h => by cases h⟩

theorem acc_native (native : Native) (s : Machine) (callers : List Frame) :
    Acc (Later m) ⟨.native native, s, callers⟩ := by
  induction native generalizing s with
  | finish outcome =>
    refine ⟨_, fun _ h => ?_⟩
    cases h
    exact acc_over _ _
  | push value next ih =>
    refine ⟨_, fun _ h => ?_⟩
    cases h
    exact ih _ _
  | pop next ih =>
    refine ⟨_, fun _ h => ?_⟩
    cases h
    exact ih _ _
  | memorySize next ih =>
    refine ⟨_, fun _ h => ?_⟩
    cases h
    exact ih _ _
  | readMemory start length next ih =>
    refine ⟨_, fun _ h => ?_⟩
    cases h
    exact ih _ _
  | writeMemory start bytes next ih =>
    refine ⟨_, fun _ h => ?_⟩
    cases h with
    | writeMemory hwrite => exact ih true _
    | writeMemoryOutside hwrite => exact ih false _
  | readCell cell next ih =>
    refine ⟨_, fun _ h => ?_⟩
    cases h
    exact ih _ _
  | writeCell cell bits next ih =>
    refine ⟨_, fun _ h => ?_⟩
    cases h
    exact ih _
  | report entry next ih =>
    refine ⟨_, fun _ h => ?_⟩
    cases h
    exact ih _

/-- Calls are worked off where the bodies that they enter are. -/
theorem acc_calling {s : Machine}
    (hbody : s.depth < maxCallDepth → ∀ body (s' : Machine) callers, s'.depth = s.depth + 1 →
      Acc (Later m) ⟨.body body, s', callers⟩)
    (index : UInt32) (callers : List Frame) : Acc (Later m) ⟨.calling index, s, callers⟩ := by
  refine ⟨_, fun _ h => ?_⟩
  cases h with
  | enterNative hindex hbinding henough => exact acc_native _ _ _
  | enterBody hindex hdepth hopen hbody' =>
    exact hbody hdepth _ _ _ (congrArg (· + 1) hopen.depth_eq)
  | returned => exact acc_over _ _

/-- Bodies are worked off where the calls that they make are. -/
theorem acc_body {depth : Nat}
    (hcalling : ∀ (s : Machine), s.depth = depth → ∀ index callers,
      Acc (Later m) ⟨.calling index, s, callers⟩)
    (rest : List Instruction) {s : Machine} (hs : s.depth = depth) (callers : List Frame) :
    Acc (Later m) ⟨.body rest, s, callers⟩ := by
  have hnil : ∀ s callers, Acc (Later m) ⟨.body [], s, callers⟩ :=
    fun _ _ => ⟨_, fun _ h => by cases h⟩
  induction rest generalizing s with
  | nil => exact hnil s callers
  | cons i rest ih =>
    refine ⟨_, fun _ h => ?_⟩
    cases h with
    | call hopcode hindex => exact hcalling s hs _ _
    | next hwork hrun =>
      have hdepth := (handler?_keeps (covers_depth m) keepsDepth_invoke hwork i s).of_ok hrun
      exact ih (hdepth.trans hs)
    | leave hwork hrun => exact hnil _ _
    | failed hwork hrun => exact acc_over _ _
    | unsupported hwork => exact acc_over _ _

/-- No run goes on for ever. -/
theorem Step.acc (moment : Moment) : Acc (Later m) moment := by
  -- the calls of a machine are worked off, by induction on the activations that may still open
  have hcalling : ∀ room (s : Machine), maxCallDepth - s.depth = room → ∀ index callers,
      Acc (Later m) ⟨.calling index, s, callers⟩ := by
    intro room
    induction room with
    | zero =>
      intro s hroom
      exact acc_calling fun hdepth => by omega
    | succ room ih =>
      intro s hroom
      refine acc_calling fun hdepth body s' callers hs' => ?_
      have hdeeper : ∀ (t : Machine), t.depth = s.depth + 1 → ∀ index callers,
          Acc (Later m) ⟨.calling index, t, callers⟩ := fun t ht => ih t (by omega)
      exact acc_body hdeeper body hs' callers
  obtain ⟨stage, s, callers⟩ := moment
  cases stage with
  | calling index => exact hcalling _ s rfl index callers
  | body rest => exact acc_body (fun t _ => hcalling _ t rfl) rest rfl callers
  | native rest => exact acc_native rest s callers
  | «over» => exact acc_over s callers

/-! ### Where faults come up -/

/-- How a run ends that goes on from a moment. -/
def ending (m : Module) : Moment → EStateM.Result Fault Machine Unit
  | ⟨.calling index, s, _⟩ => invoke m index s
  | ⟨.body rest, s, _⟩ => runBody m (invoke m) rest s
  | ⟨.native rest, s, _⟩ => rest.run s
  | ⟨.over, s, _⟩ => .ok () s

/-- The fault comes up at this moment, and not in a body or a program that is entered from it. -/
inductive Raises (m : Module) : Moment → Fault → Prop
  | missing {index : UInt32} {s : Machine} {callers : List Frame}
    (hindex : m.function? index = none) :
    Raises m ⟨.calling index, s, callers⟩ .functionOutOfRange
  | unbound {index : UInt32} {position : Nat} {typeIndex : UInt32} {s : Machine}
    {callers : List Frame} (hindex : m.function? index = some (.imported position typeIndex))
    (hbinding : ∀ binding, bindingOf m position ≠ .function binding) :
    Raises m ⟨.calling index, s, callers⟩ .functionUnbound
  | few {index : UInt32} {position : Nat} {typeIndex : UInt32} {binding : FunctionBinding}
    {s : Machine} {callers : List Frame}
    (hindex : m.function? index = some (.imported position typeIndex))
    (hbinding : bindingOf m position = .function binding)
    (hfew : s.stack.length < s.frame.stackBase + binding.inputs) :
    Raises m ⟨.calling index, s, callers⟩ .stackUnderflow
  | uneven {index : UInt32} {position : Nat} {typeIndex : UInt32} {binding : FunctionBinding}
    {s s' : Machine} {callers : List Frame}
    (hindex : m.function? index = some (.imported position typeIndex))
    (hbinding : bindingOf m position = .function binding)
    (hrun : binding.callback.run (called position s) = .ok () s')
    (hheight : s'.stack.length ≠ s.stack.length - binding.inputs + binding.outputs) :
    Raises m ⟨.calling index, s, callers⟩ .nativeHeight
  | deep {index : UInt32} {position : Nat} {typeIndex : UInt32} {s : Machine}
    {callers : List Frame} (hindex : m.function? index = some (.defined position typeIndex))
    (hdepth : maxCallDepth ≤ s.depth) : Raises m ⟨.calling index, s, callers⟩ .callDepthReached
  | bodyMissing {index : UInt32} {position : Nat} {typeIndex : UInt32} {s : Machine}
    {callers : List Frame} (hindex : m.function? index = some (.defined position typeIndex))
    (hcode : m.codes.get? position = none) : Raises m ⟨.calling index, s, callers⟩ .bodyMissing
  | typeMissing {index : UInt32} {position : Nat} {typeIndex : UInt32} {s : Machine}
    {callers : List Frame} (hindex : m.function? index = some (.defined position typeIndex))
    (htype : m.types.get? typeIndex.toNat = none) :
    Raises m ⟨.calling index, s, callers⟩ .functionTypeMissing
  | unopened {index : UInt32} {position : Nat} {typeIndex : UInt32} {code : Code}
    {type : FunctionType} {fault : Fault} {s s' : Machine} {callers : List Frame}
    (hindex : m.function? index = some (.defined position typeIndex))
    (hcode : m.codes.get? position = some code)
    (htype : m.types.get? typeIndex.toNat = some type)
    (hopen : openFrame code type s = .error fault s') :
    Raises m ⟨.calling index, s, callers⟩ fault
  | stretchMissing {index : UInt32} {position : Nat} {typeIndex : UInt32} {code : Code}
    {type : FunctionType} {frame : Frame} {fault : Fault} {s opened : Machine}
    {callers : List Frame} (hindex : m.function? index = some (.defined position typeIndex))
    (hopen : Opened m position typeIndex s code type frame opened)
    (hbody : m.body code = .error fault) : Raises m ⟨.calling index, s, callers⟩ fault
  | short {index : UInt32} {position : Nat} {typeIndex : UInt32} {code : Code}
    {type : FunctionType} {frame : Frame} {body : List Instruction} {s opened s' : Machine}
    {callers : List Frame} (hindex : m.function? index = some (.defined position typeIndex))
    (hopen : Opened m position typeIndex s code type frame opened)
    (hbody : m.body code = .ok body)
    (hrun : runBody m (invoke m) body (entered position frame opened) = .ok () s')
    (hshort : s'.stack.length < frame.stackBase + type.results.length) :
    Raises m ⟨.calling index, s, callers⟩ .stackUnderflow
  | unsupported {i : Instruction} {rest : List Instruction} {s : Machine} {callers : List Frame}
    (hwork : handler? m (invoke m) i.opcode = none) :
    Raises m ⟨.body (i :: rest), s, callers⟩ .opcodeUnsupported
  | target {i : Instruction} {rest : List Instruction} {fault : Fault} {s : Machine}
    {callers : List Frame} (hopcode : i.opcode = .call) (hindex : i.index = .error fault) :
    Raises m ⟨.body (i :: rest), s, callers⟩ fault
  | instruction {i : Instruction} {rest : List Instruction} {work : Instruction → Exec Flow}
    {fault : Fault} {s s' : Machine} {callers : List Frame} (hopcode : i.opcode ≠ .call)
    (hwork : handler? m (invoke m) i.opcode = some work) (hrun : work i s = .error fault s') :
    Raises m ⟨.body (i :: rest), s, callers⟩ fault
  | reported {fault : Fault} {s : Machine} {callers : List Frame} :
    Raises m ⟨.native (.finish (.error fault)), s, callers⟩ fault

/-- A fault comes up at some moment from here on. -/
def Leads (m : Module) (moment : Moment) (fault : Fault) : Prop :=
  ∃ origin, Reaches m moment origin ∧ Raises m origin fault

theorem Raises.leads {moment : Moment} {fault : Fault} (h : Raises m moment fault) :
    Leads m moment fault := ⟨moment, .refl, h⟩

theorem Leads.head {moment next : Moment} {fault : Fault} (hstep : Step m moment next)
    (h : Leads m next fault) : Leads m moment fault := by
  obtain ⟨origin, hreaches, hraises⟩ := h
  exact ⟨origin, .head hstep hreaches, hraises⟩

/-- What is shown of the moments one step later. -/
def LeadsNext (m : Module) (moment : Moment) : Prop :=
  ∀ {next : Moment} {fault : Fault} {s' : Machine}, Step m moment next →
    next.ending m = .error fault s' → Leads m next fault

theorem LeadsNext.head {moment next : Moment} {fault : Fault} {s' : Machine}
    (ih : LeadsNext m moment) (hstep : Step m moment next) (h : next.ending m = .error fault s') :
    Leads m moment fault := (ih hstep h).head hstep

theorem leads_calling {index : UInt32} {s s' : Machine} {callers : List Frame} {fault : Fault}
    (ih : LeadsNext m ⟨.calling index, s, callers⟩) (h : invoke m index s = .error fault s') :
    Leads m ⟨.calling index, s, callers⟩ fault := by
  cases hindex : m.function? index with
  | none =>
    rw [invoke_missing hindex] at h
    cases h
    exact (Raises.missing hindex).leads
  | some function =>
    cases function with
    | imported position typeIndex =>
      rw [invoke_native hindex] at h
      cases callNative_cases h with
      | unbound hbinding => exact (Raises.unbound hindex hbinding).leads
      | few hbinding hfew => exact (Raises.few hindex hbinding hfew).leads
      | failed hbinding henough hrun => exact ih.head (.enterNative hindex hbinding henough) hrun
      | uneven hbinding henough hrun hheight =>
        exact (Raises.uneven hindex hbinding hrun hheight).leads
    | defined position typeIndex =>
      by_cases hdepth : s.depth < maxCallDepth
      · rw [invoke_defined hindex hdepth] at h
        cases callDefined_cases h with
        | bodyMissing hcode => exact (Raises.bodyMissing hindex hcode).leads
        | typeMissing hcode htype => exact (Raises.typeMissing hindex htype).leads
        | unopened hcode htype hopen => exact (Raises.unopened hindex hcode htype hopen).leads
        | stretchMissing hopen hbody => exact (Raises.stretchMissing hindex hopen hbody).leads
        | failed hopen hbody hrun => exact ih.head (.enterBody hindex hdepth hopen hbody) hrun
        | short hopen hbody hrun hshort =>
          exact (Raises.short hindex hopen hbody hrun hshort).leads
      · rw [invoke_deep hindex (Nat.le_of_not_lt hdepth)] at h
        cases h
        exact (Raises.deep hindex (Nat.le_of_not_lt hdepth)).leads

theorem leads_body {rest : List Instruction} {s s' : Machine} {callers : List Frame}
    {fault : Fault} (ih : LeadsNext m ⟨.body rest, s, callers⟩)
    (h : runBody m (invoke m) rest s = .error fault s') :
    Leads m ⟨.body rest, s, callers⟩ fault := by
  cases rest with
  | nil => cases h
  | cons i rest =>
    rw [runBody_cons] at h
    cases hwork : handler? m (invoke m) i.opcode with
    | none =>
      rw [hwork] at h
      cases h
      exact (Raises.unsupported hwork).leads
    | some work =>
      simp only [hwork] at h
      cases hrun : work i s with
      | ok flow s₁ =>
        simp only [hrun] at h
        cases flow with
        | next => exact ih.head (.next hwork hrun) h
        | leave => cases h
      | error fault' s₁ =>
        simp only [hrun] at h
        cases h
        by_cases hopcode : i.opcode = .call
        · rw [hopcode] at hwork
          rw [callInstruction_run hwork] at hrun
          cases hindex : i.index with
          | error fault' =>
            simp only [hindex] at hrun
            cases hrun
            exact (Raises.target hopcode hindex).leads
          | ok index =>
            simp only [hindex] at hrun
            cases hcall : invoke m index s with
            | ok _ s₂ =>
              rw [hcall] at hrun
              cases hrun
            | error fault' s₂ =>
              rw [hcall] at hrun
              cases hrun
              exact ih.head (.call hopcode hindex) hcall
        · exact (Raises.instruction hopcode hwork hrun).leads

theorem leads_native {native : Native} {s s' : Machine} {callers : List Frame} {fault : Fault}
    (ih : LeadsNext m ⟨.native native, s, callers⟩) (h : native.run s = .error fault s') :
    Leads m ⟨.native native, s, callers⟩ fault := by
  cases native with
  | finish outcome =>
    cases outcome with
    | ok _ => cases h
    | error fault' =>
      cases h
      exact Raises.reported.leads
  | push value next =>
    rw [Native.run, bind_run] at h
    cases hrun : observe (Machine.push value) s with
    | error fault' s₁ => unfold observe at hrun; split at hrun <;> cases hrun
    | ok answer s₁ =>
      rw [hrun] at h
      exact ih.head (.push hrun) h
  | pop next =>
    rw [Native.run, bind_run] at h
    cases hrun : observe Machine.pop s with
    | error fault' s₁ => unfold observe at hrun; split at hrun <;> cases hrun
    | ok answer s₁ =>
      rw [hrun] at h
      exact ih.head (.pop hrun) h
  | memorySize next => exact ih.head (.memorySize s callers) h
  | readMemory start length next => exact ih.head (.readMemory s callers) h
  | writeMemory start bytes next =>
    rw [Native.run, bind_run] at h
    simp only [get_run] at h
    cases hwrite : s.memory.overwrite? start bytes with
    | some memory =>
      rw [hwrite] at h
      exact ih.head (.writeMemory hwrite) h
    | none =>
      rw [hwrite] at h
      exact ih.head (.writeMemoryOutside hwrite) h
  | readCell cell next => exact ih.head (.readCell s callers) h
  | writeCell cell bits next => exact ih.head (.writeCell s callers) h
  | report entry next => exact ih.head (.report s callers) h

/-- A run that fails gets to a moment at which its fault comes up. -/
theorem exists_raises {moment : Moment} {fault : Fault} {s' : Machine}
    (h : moment.ending m = .error fault s') : Leads m moment fault := by
  induction Step.acc (m := m) moment generalizing fault s' with
  | intro moment _ ih =>
    have hnext : LeadsNext m moment := fun hstep hend => ih _ hstep hend
    obtain ⟨stage, s, callers⟩ := moment
    cases stage with
    | calling index => exact leads_calling hnext h
    | body rest => exact leads_body hnext h
    | native rest => exact leads_native hnext h
    | «over» => cases h

end BoundedWasm.Moment
