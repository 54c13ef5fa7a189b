import BoundedWasm.Proofs.Machine.Consistency

/-!
# BoundedWasm.Proofs.Machine.Cells — by whom a cell of the host is written

A cell is written by a host that works on it, by itself or in a native function, and by an
instruction that sets a mutable imported global bound to the cell (`Moment.WritesCell`).  A run that
never comes to such a moment ends with the cell as it was (`Unwritten.read_eq`), so a step in which
the cell changes writes it at once or makes a call that does (`Step.writesInStep`), and every
operation of the host that is none of these leaves it as it was (`Operation.WritesCell`).
-/

namespace BoundedWasm

open BoundedWasm.Action Limits Machine

/-- The state in which an action left off. -/
def Action.stateOf {σ α : Type} : EStateM.Result Fault σ α → σ
  | .ok _ s | .error _ s => s

namespace Moment

variable {m : Module} {cell : CellId}

/-- The cell is written next: through a global, or by a native function. -/
inductive WritesCell (m : Module) (cell : CellId) : Moment → Prop
  | global {i : Instruction} {rest : List Instruction} {s : Machine} {callers : List Frame}
    (hwrites : i.Writes m cell) : WritesCell m cell ⟨.body (i :: rest), s, callers⟩
  | native {bits : BitVec 32} {next : Native} {s : Machine} {callers : List Frame} :
    WritesCell m cell ⟨.native (.writeCell cell bits next), s, callers⟩

/-- The function is called next, by an instruction or because its call is what comes next. -/
inductive CallsNext (index : UInt32) : Moment → Prop
  | calling {s : Machine} {callers : List Frame} : CallsNext index ⟨.calling index, s, callers⟩
  | body {i : Instruction} {rest : List Instruction} {s : Machine} {callers : List Frame}
    (hopcode : i.opcode = .call) (hindex : i.index = .ok index) :
    CallsNext index ⟨.body (i :: rest), s, callers⟩

/-- The cell is written before the next moment: by what is done now, or in the course of the call
that is made now. -/
inductive WritesInStep (m : Module) (cell : CellId) (moment : Moment) : Prop
  | now (hwrites : moment.WritesCell m cell)
  | within {index : UInt32} {origin : Moment} (hcall : moment.CallsNext index)
    (hreaches : Reaches m ⟨.calling index, moment.machine, moment.callers⟩ origin)
    (hwrites : origin.WritesCell m cell)

/-- The cell is not written from here on. -/
def Unwritten (m : Module) (cell : CellId) (moment : Moment) : Prop :=
  ∀ origin, Reaches m moment origin → ¬ WritesCell m cell origin

theorem Unwritten.step {moment next : Moment} (h : Unwritten m cell moment)
    (hstep : Step m moment next) : Unwritten m cell next :=
  fun origin hreaches => h origin (.head hstep hreaches)

/-- What is shown of the moments one step later: the cell is at the end of the run as it is then. -/
def LeavesNext (m : Module) (cell : CellId) (moment : Moment) : Prop :=
  ∀ {next : Moment} {result : EStateM.Result Fault Machine Unit}, Step m moment next →
    next.ending m = result →
      (stateOf result).host.cells.read cell = next.machine.host.cells.read cell

theorem leaves_calling {index : UInt32} {s : Machine} {callers : List Frame}
    {result : EStateM.Result Fault Machine Unit}
    (ih : LeavesNext m cell ⟨.calling index, s, callers⟩) (h : invoke m index s = result) :
    (stateOf result).host.cells.read cell = s.host.cells.read cell := by
  cases hindex : m.function? index with
  | none =>
    rw [invoke_missing hindex] at h
    exact h ▸ rfl
  | some function =>
    cases function with
    | imported position typeIndex =>
      rw [invoke_native hindex] at h
      cases callNative_cases h with
      | unbound hbinding =>
        show (missed m position s).host.cells.read cell = _
        unfold missed
        split <;> rfl
      | few hbinding hfew => rfl
      | failed hbinding henough hrun =>
        have hleaves := ih (.enterNative hindex hbinding henough) hrun
        exact hleaves
      | uneven hbinding henough hrun _ =>
        have hleaves := ih (.enterNative hindex hbinding henough) hrun
        exact hleaves
      | returned hbinding henough hrun _ =>
        have hleaves := ih (.enterNative hindex hbinding henough) hrun
        exact hleaves
    | defined position typeIndex =>
      by_cases hdepth : s.depth < maxCallDepth
      · rw [invoke_defined hindex hdepth] at h
        have hcells : ∀ {code type frame opened}, Opened m position typeIndex s code type frame
            opened → (entered position frame opened).host.cells.read cell
              = s.host.cells.read cell := by
          intro code type frame opened hopen
          obtain ⟨-, stack, locals, rfl⟩ := (openFrame_ends code type s).of_ok hopen.open_eq
          rfl
        cases callDefined_cases h with
        | bodyMissing hcode => rfl
        | typeMissing hcode htype => rfl
        | unopened hcode htype hopen =>
          obtain ⟨stack, locals, rfl⟩ := (openFrame_ends _ _ s).of_error hopen
          rfl
        | stretchMissing hopen hbody =>
          have hentered := hcells hopen
          exact hentered
        | failed hopen hbody hrun =>
          have hleaves := ih (.enterBody hindex hdepth hopen hbody) hrun
          exact hleaves.trans (hcells hopen)
        | short hopen hbody hrun _ =>
          have hleaves := ih (.enterBody hindex hdepth hopen hbody) hrun
          exact hleaves.trans (hcells hopen)
        | returned hopen hbody hrun _ =>
          have hleaves := ih (.enterBody hindex hdepth hopen hbody) hrun
          exact hleaves.trans (hcells hopen)
      · rw [invoke_deep hindex (Nat.le_of_not_lt hdepth)] at h
        exact h ▸ rfl

/-- An instruction that makes no call leaves the cell alone where it does not write it. -/
theorem read_of_work (hm : m.Prepared) {i : Instruction} (hi : i.Shaped) (hcall : i.opcode ≠ .call)
    (hwrites : ¬ i.Writes m cell) {enter : UInt32 → Exec Unit} {work : Instruction → Exec Flow}
    (hwork : handler? m enter i.opcode = some work) (s : Machine) :
    ((work i).after s).host.cells.read cell = s.host.cells.read cell :=
  Classical.not_not.mp fun hne =>
    hwrites ((handler?_confined hm.slotted hi hcall hwork).after s cell hne)

/-- An instruction leaves the cell alone, if the call that it makes does. -/
theorem read_of_instruction (hm : m.Prepared) {i : Instruction} (hi : i.Shaped)
    (hwrites : ¬ i.Writes m cell) {s : Machine}
    (hcall : ∀ index, i.opcode = .call → i.index = .ok index →
      ((invoke m index).after s).host.cells.read cell = s.host.cells.read cell)
    {work : Instruction → Exec Flow} (hwork : handler? m (invoke m) i.opcode = some work) :
    ((work i).after s).host.cells.read cell = s.host.cells.read cell := by
  by_cases hopcode : i.opcode = .call
  · rw [hopcode] at hwork
    rw [after, callInstruction_run hwork]
    cases hindex : i.index with
    | error fault => rfl
    | ok index =>
      have hread := hcall index hopcode hindex
      unfold after at hread
      simp only
      cases hrun : invoke m index s with
      | ok _ s' => rwa [hrun] at hread
      | error fault s' => rwa [hrun] at hread
  · exact read_of_work hm hi hopcode hwrites hwork s

theorem leaves_body (hm : m.Prepared) {rest : List Instruction} {s : Machine} {callers : List Frame}
    {result : EStateM.Result Fault Machine Unit}
    (hshaped : Shaped ⟨.body rest, s, callers⟩)
    (hunwritten : Unwritten m cell ⟨.body rest, s, callers⟩)
    (ih : LeavesNext m cell ⟨.body rest, s, callers⟩) (h : runBody m (invoke m) rest s = result) :
    (stateOf result).host.cells.read cell = s.host.cells.read cell := by
  cases rest with
  | nil => exact h ▸ rfl
  | cons i rest =>
    rw [runBody_cons] at h
    cases hwork : handler? m (invoke m) i.opcode with
    | none =>
      rw [hwork] at h
      exact h ▸ rfl
    | some work =>
      simp only [hwork] at h
      have hwrites : ¬ i.Writes m cell := fun hwrites => hunwritten _ .refl (.global hwrites)
      have hcall : ∀ index, i.opcode = .call → i.index = .ok index →
          (stateOf (invoke m index s)).host.cells.read cell = s.host.cells.read cell :=
        fun _ hopcode hindex => ih (.call hopcode hindex) rfl
      have hread := read_of_instruction hm (hshaped _ rfl i List.mem_cons_self) hwrites hcall hwork
      cases hrun : work i s with
      | error fault s₁ =>
        rw [hrun] at h
        rw [after, hrun] at hread
        exact h ▸ hread
      | ok flow s₁ =>
        rw [hrun] at h
        rw [after, hrun] at hread
        cases flow with
        | next => exact (ih (.next hwork hrun) h).trans hread
        | leave => exact h ▸ hread

/-- So does an access of a native function to the operands. -/
theorem read_of_observe {α : Type} {action : Exec α}
    (h : Confined (fun _ => False) [.stackUnderflow, .stackOverflow] action) {s s' : Machine}
    {answer : Except Fault α} (hrun : observe action s = .ok answer s') :
    s'.host.cells.read cell = s.host.cells.read cell := by
  have hwrites := h.after s
  refine Classical.not_not.mp fun hne => hwrites cell ?_
  unfold observe at hrun
  unfold after
  cases haction : action s with
  | ok a t =>
    rw [haction] at hrun
    cases hrun
    exact hne
  | error fault t =>
    rw [haction] at hrun
    cases hrun
    exact hne

theorem leaves_native {native : Native} {s : Machine} {callers : List Frame}
    {result : EStateM.Result Fault Machine Unit}
    (hunwritten : Unwritten m cell ⟨.native native, s, callers⟩)
    (ih : LeavesNext m cell ⟨.native native, s, callers⟩) (h : native.run s = result) :
    (stateOf result).host.cells.read cell = s.host.cells.read cell := by
  cases native with
  | finish outcome =>
    cases outcome with
    | ok _ => exact h ▸ rfl
    | error fault => exact h ▸ rfl
  | push value next =>
    rw [Native.run, bind_run] at h
    cases hrun : observe (Machine.push value) s with
    | error fault' s₁ => unfold observe at hrun; split at hrun <;> cases hrun
    | ok answer s₁ =>
      rw [hrun] at h
      exact (ih (.push hrun) h).trans (read_of_observe (confined_push (by decide) value) hrun)
  | pop next =>
    rw [Native.run, bind_run] at h
    cases hrun : observe Machine.pop s with
    | error fault' s₁ => unfold observe at hrun; split at hrun <;> cases hrun
    | ok answer s₁ =>
      rw [hrun] at h
      exact (ih (.pop hrun) h).trans (read_of_observe (confined_pop (by decide)) hrun)
  | memorySize next => exact ih (.memorySize s callers) h
  | readMemory start length next => exact ih (.readMemory s callers) h
  | writeMemory start bytes next =>
    rw [Native.run, bind_run] at h
    simp only [get_run] at h
    cases hwrite : s.memory.overwrite? start bytes with
    | some memory =>
      rw [hwrite] at h
      exact ih (.writeMemory hwrite) h
    | none =>
      rw [hwrite] at h
      exact ih (.writeMemoryOutside hwrite) h
  | readCell other next => exact ih (.readCell s callers) h
  | writeCell other bits next =>
    have hother : cell ≠ other := by
      rintro rfl
      exact hunwritten _ .refl .native
    refine (ih (.writeCell s callers) h).trans ?_
    rw [Cells.read_write, if_neg hother]
  | report entry next => exact ih (.report s callers) h

/-- A run that never comes to write the cell ends with the cell as it was. -/
theorem Unwritten.read_eq (hm : m.Prepared) {moment : Moment} (h : Unwritten m cell moment)
    (hshaped : moment.Shaped) {result : EStateM.Result Fault Machine Unit}
    (hend : moment.ending m = result) :
    (stateOf result).host.cells.read cell = moment.machine.host.cells.read cell := by
  induction Step.acc (m := m) moment generalizing result with
  | intro moment _ ih =>
    have hnext : LeavesNext m cell moment := fun hstep hend =>
      ih _ hstep (h.step hstep) (hstep.shaped hm hshaped) hend
    obtain ⟨stage, s, callers⟩ := moment
    cases stage with
    | calling index => exact leaves_calling hnext hend
    | body rest => exact leaves_body hm hshaped h hnext hend
    | native rest => exact leaves_native h hnext hend
    | «over» => exact hend ▸ rfl

/-- A call that never comes to write the cell leaves it alone. -/
theorem Unwritten.read_of_call (hm : m.Prepared) {index : UInt32} {s : Machine}
    {callers : List Frame} (h : Unwritten m cell ⟨.calling index, s, callers⟩) :
    ((invoke m index).after s).host.cells.read cell = s.host.cells.read cell :=
  h.read_eq hm (fun _ hstage => nomatch hstage) rfl

/-- In a step in which the cell changes it is written. -/
theorem Step.writesInStep (hm : m.Prepared) {moment next : Moment} (hstep : Step m moment next)
    (hshaped : moment.Shaped)
    (hne : next.machine.host.cells.read cell ≠ moment.machine.host.cells.read cell) :
    moment.WritesInStep m cell := by
  refine Classical.byContradiction fun hnone => hne ?_
  have hcall : ∀ index, moment.CallsNext index →
      ((invoke m index).after moment.machine).host.cells.read cell
        = moment.machine.host.cells.read cell := by
    intro index hcall
    have hunwritten : Unwritten m cell ⟨.calling index, moment.machine, moment.callers⟩ :=
      fun origin hreaches hwrites => hnone (.within hcall hreaches hwrites)
    exact hunwritten.read_of_call hm
  -- an instruction that is worked off either writes the cell now or does so by its call
  have hinstruction : ∀ {i : Instruction} {rest : List Instruction} {s : Machine}
      {callers : List Frame} {work : Instruction → Exec Flow},
      moment = ⟨.body (i :: rest), s, callers⟩ → handler? m (invoke m) i.opcode = some work →
        ((work i).after s).host.cells.read cell = s.host.cells.read cell := by
    rintro i rest s callers work rfl hwork
    exact read_of_instruction hm (hshaped _ rfl i List.mem_cons_self)
      (fun hwrites => hnone (.now (.global hwrites)))
      (fun index hopcode hindex => hcall index (.body hopcode hindex)) hwork
  cases hstep with
  | enterNative hindex hbinding henough => rfl
  | @enterBody _ _ _ code type _ _ s _ _ hindex hdepth hopen hbody =>
    obtain ⟨-, stack, locals, rfl⟩ := (openFrame_ends code type s).of_ok hopen.open_eq
    rfl
  | returned index s callers => exact hcall index .calling
  | call hopcode hindex => rfl
  | next hwork hrun =>
    have hread := hinstruction rfl hwork
    rwa [after, hrun] at hread
  | leave hwork hrun =>
    have hread := hinstruction rfl hwork
    rwa [after, hrun] at hread
  | failed hwork hrun =>
    have hread := hinstruction rfl hwork
    rwa [after, hrun] at hread
  | unsupported hwork => rfl
  | push hrun => exact read_of_observe (confined_push (by decide) _) hrun
  | pop hrun => exact read_of_observe (confined_pop (by decide)) hrun
  | memorySize s callers => rfl
  | readMemory s callers => rfl
  | writeMemory hwrite => rfl
  | writeMemoryOutside hwrite => rfl
  | readCell s callers => rfl
  | @writeCell other bits rest s callers =>
    have hother : cell ≠ other := by
      rintro rfl
      exact hnone (.now .native)
    show (s.host.cells.write other bits).read cell = _
    rw [Cells.read_write, if_neg hother]
  | report s callers => rfl
  | finished s callers => rfl

/-- Where a cell differs between two moments of a run, it has changed in a step in between, in which
it was written. -/
theorem Reaches.exists_writesInStep (hm : m.Prepared) {moment moment' : Moment}
    (h : Reaches m moment moment') (hshaped : moment.Shaped)
    (hne : moment'.machine.host.cells.read cell ≠ moment.machine.host.cells.read cell) :
    ∃ before next, Reaches m moment before ∧ Step m before next ∧ Reaches m next moment' ∧
      next.machine.host.cells.read cell ≠ before.machine.host.cells.read cell ∧
      before.WritesInStep m cell := by
  induction h using Relation.ReflTransGen.head_induction_on with
  | refl => exact absurd rfl hne
  | @head moment next hstep hlater ih =>
    by_cases hsame : next.machine.host.cells.read cell = moment.machine.host.cells.read cell
    · obtain ⟨before, after, hbefore, hrest⟩ :=
        ih (hstep.shaped hm hshaped) (hsame.symm ▸ hne)
      exact ⟨before, after, .head hstep hbefore, hrest⟩
    · exact ⟨moment, next, .refl, hstep, hlater, hsame, hstep.writesInStep hm hshaped hsame⟩

end Moment

/-! ### Operations of the host -/

/-- The operation may write the cell: by itself, as the host does, or in the run of a call. -/
inductive Operation.WritesCell (m : Module) (s : Machine) (cell : CellId) : Operation → Prop
  | setGlobal {index : UInt32} {value : Value} (hcell : m.HasCell index cell) :
    WritesCell m s cell (.setGlobal index value)
  | writeCell {bits : BitVec 32} : WritesCell m s cell (.writeCell cell bits)
  | call {operation : Operation} {activations : List Activation} {origin : Moment}
    (hmeets : operation.Meets m s activations origin) (hwrites : origin.WritesCell m cell) :
    WritesCell m s cell operation

namespace Machine

variable {m : Module} {s : Machine} {cell : CellId}

theorem exists_writesCell_of_call (hm : m.Prepared) {index : UInt32}
    (hne : ((call m index).after s).host.cells.read cell ≠ s.host.cells.read cell) :
    ∃ origin, Moment.Reaches m (Moment.start index s) origin ∧ origin.WritesCell m cell := by
  refine Classical.byContradiction fun hnone => hne ?_
  have hunwritten : Moment.Unwritten m cell (Moment.start index s) := fun origin hreaches hwrites =>
    hnone ⟨origin, hreaches, hwrites⟩
  have heq := hunwritten.read_of_call hm
  unfold after at heq ⊢
  rw [call_run]
  by_cases hpoisoned : s.poisoned
  · rw [if_pos hpoisoned]
  · rw [if_neg hpoisoned]
    cases hrun : invoke m index s with
    | ok _ s' =>
      rw [hrun] at heq
      exact heq
    | error fault s' =>
      rw [hrun] at heq
      show (settled index fault s').host.cells.read cell = _
      unfold settled
      split
      · exact heq
      · exact heq

theorem after_writeMemory (start : Nat) (bytes : List UInt8) (s : Machine) :
    ((Operation.writeMemory start bytes).run m).after s = match s.memory.overwrite? start bytes with
      | some memory => { s with memory }
      | none => s :=
  rfl

/-- An operation of the host that changes a cell is one that may write it. -/
theorem writesCell_of_ne (hm : m.Prepared) (operation : Operation)
    (hne : ((operation.run m).after s).host.cells.read cell ≠ s.host.cells.read cell) :
    operation.WritesCell m s cell := by
  have hnone : ∀ {action : Exec Unit}, Confined (fun _ => False) Fault.ofOperands action →
      (action.after s).host.cells.read cell = s.host.cells.read cell := fun h =>
    Classical.not_not.mp fun hne => h.after s cell hne
  have hoperands : Fault.ofOperands ⊆ Fault.ofOperands := fun _ => id
  have hcalls : operation.isCall = true → operation.WritesCell m s cell := by
    intro hcall
    cases htarget : operation.target? m with
    | none =>
      rw [run_of_no_target hcall htarget] at hne
      exact absurd rfl hne
    | some index =>
      rw [run_of_target htarget] at hne
      obtain ⟨origin, hreaches, hwrites⟩ := exists_writesCell_of_call hm hne
      obtain ⟨activations, hnested⟩ := Moment.exists_nested hreaches
      exact .call ⟨index, htarget, hnested⟩ hwrites
  cases operation with
  | push value => exact absurd (hnone (confined_push (by decide) value)) hne
  | pop => exact absurd (hnone (.discard (confined_pop (by decide)))) hne
  | popAs type =>
    have hpop : ∀ {α : Type} {read : Value → Except Fault α},
        (∀ value fault, read value = .error fault → fault = .unexpectedType) →
        Confined (fun _ => False) Fault.ofOperands (popAs read) := confined_popAs hoperands
    cases type with
    | i32 => exact absurd (hnone (.discard (confined_popI32 hoperands))) hne
    | f32 => exact absurd (hnone (.discard (confined_popF32 hoperands))) hne
    | i64 =>
      exact absurd (hnone (.discard (hpop fun value _ h => by cases value <;> cases h <;> rfl))) hne
    | f64 =>
      exact absurd (hnone (.discard (hpop fun value _ h => by cases value <;> cases h <;> rfl))) hne
  | setGlobal index value =>
    exact .setGlobal ((confined_setGlobal hm.slotted index value).after s cell hne)
  | writeMemory start bytes =>
    refine absurd ?_ hne
    rw [after_writeMemory]
    split <;> rfl
  | writeCell other bits =>
    by_cases hother : cell = other
    · exact hother ▸ .writeCell
    · refine absurd ?_ hne
      show (s.host.cells.write other bits).read cell = _
      rw [Cells.read_write, if_neg hother]
  | call index => exact hcalls rfl
  | callExport name => exact hcalls rfl
  | runStart => exact hcalls rfl

end Machine

end BoundedWasm
