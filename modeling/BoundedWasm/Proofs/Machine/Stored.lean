import BoundedWasm.Proofs.Machine.Cells

/-!
# BoundedWasm.Proofs.Machine.Stored — what is stored keeps its type, what is constant its value

The globals that a module defines hold values of their types from the creation of a machine on, and
the immutable ones their first values (`HoldsGlobals`): only what sets a global changes one, and it
checks type and mutability.  With the windows of locals and the cells of the host this is all that a
machine stores.
-/

namespace BoundedWasm

open BoundedWasm.Action Limits

namespace Machine

variable {m : Module} {s s' : Machine}

/-! ### What the activations of a machine share -/

/-- A relation of machines that sees no more than what all activations share. -/
structure Shared (m : Module) (R : Machine → Machine → Prop) : Prop extends Covers m R R where
  shell : ∀ {s s'}, s'.memory = s.memory → s'.globals = s.globals →
    s'.host.cells = s.host.cells → R s s'

section Shared

variable {R : Machine → Machine → Prop} (hR : Shared m R)
include hR

theorem Shared.keeps_callNative (position : Nat) : Keeps R R (callNative m position) :=
  keeps_callNative_of hR.toCovers (fun h => hR.trans h (hR.shell rfl rfl rfl)) position

theorem Shared.entered {position : Nat} {typeIndex : UInt32} {code : Code} {type : FunctionType}
    {frame : Frame} {opened : Machine}
    (hopen : Opened m position typeIndex s code type frame opened) :
    R s (entered position frame opened) := by
  obtain ⟨-, stack, locals, rfl⟩ := (openFrame_ends code type s).of_ok hopen.open_eq
  exact hR.shell rfl rfl rfl

theorem Shared.keeps_callDefined {enter : UInt32 → Exec Unit}
    (henter : ∀ index, Keeps R R (enter index)) (position : Nat) (typeIndex : UInt32) :
    Keeps R R (callDefined m enter position typeIndex) := by
  intro s
  have hbody : ∀ body, Keeps R R (runBody m enter body) := keeps_runBody hR.toCovers henter
  unfold Ends
  generalize hend : callDefined m enter position typeIndex s = ending
  cases callDefined_cases hend with
  | bodyMissing hcode => exact hR.refl s
  | typeMissing hcode htype => exact hR.refl s
  | unopened hcode htype hopen =>
    obtain ⟨stack, locals, rfl⟩ := (openFrame_ends _ _ s).of_error hopen
    exact hR.shell rfl rfl rfl
  | stretchMissing hopen hstretch => exact hR.trans (hR.entered hopen) (hR.shell rfl rfl rfl)
  | failed hopen hstretch hrun =>
    have hran := hR.trans (hR.entered hopen) ((hbody _ _).of_error hrun)
    exact hR.trans hran (hR.shell rfl rfl rfl)
  | short hopen hstretch hrun hshort =>
    have hran := hR.trans (hR.entered hopen) ((hbody _ _).of_ok hrun)
    exact hR.trans hran (hR.shell rfl rfl rfl)
  | returned hopen hstretch hrun hlong =>
    have hran := hR.trans (hR.entered hopen) ((hbody _ _).of_ok hrun)
    exact hR.trans hran (hR.shell rfl rfl rfl)

theorem Shared.keeps_invoke (index : UInt32) : Keeps R R (invoke m index) := fun s =>
  keeps_invokeWithin hR.toChains hR.keeps_callNative hR.keeps_callDefined (maxCallDepth - s.depth)
    index s

theorem Shared.keeps_call (index : UInt32) : Keeps R R (call m index) := by
  intro s
  unfold Ends
  rw [call_run]
  by_cases hpoisoned : s.poisoned
  · rw [if_pos hpoisoned]
    exact hR.refl s
  · rw [if_neg hpoisoned]
    cases hrun : invoke m index s with
    | ok _ s' => exact (hR.keeps_invoke index s).of_ok hrun
    | error fault s' =>
      refine hR.trans ((hR.keeps_invoke index s).of_error hrun) ?_
      show R s' (settled index fault s')
      unfold settled
      split
      · exact hR.shell rfl rfl rfl
      · exact hR.refl s'

/-- Such a relation holds from each moment of a run to the next. -/
theorem Shared.of_step {moment moment' : Moment} (hstep : Moment.Step m moment moment') :
    R moment.machine moment'.machine := by
  rcases hstep.enters_or_callers with ⟨a, henters⟩ | hcallers
  · cases henters with
    | mk hindex hdepth hopen hbody => exact hR.entered hopen
  · exact related_of_step hR.toCovers hR.keeps_invoke hstep hcallers

theorem Shared.of_reaches {moment moment' : Moment} (h : Moment.Reaches m moment moment') :
    R moment.machine moment'.machine := by
  induction h with
  | refl => exact hR.refl _
  | tail _ hstep ih => exact hR.trans ih (hR.of_step hstep)

end Shared

/-! ### Globals -/

/-- Every global that the module defines holds a value of its type, and its first value if it is
immutable. -/
def HoldsGlobals (m : Module) (s : Machine) : Prop :=
  ∀ position entry, m.globals.get? position = some entry →
    ∃ value, s.globals.get? position = some value ∧ value.type = entry.type.valueType ∧
      (entry.type.isMutable = false → value = entry.init)

theorem HoldsGlobals.set (h : s.HoldsGlobals m) {position : Nat} {entry : Global} {value : Value}
    (hentry : m.globals.get? position = some entry)
    (hfault : globalFault? entry.type value = none) :
    { s with globals := s.globals.set position value }.HoldsGlobals m := by
  obtain ⟨hmutable, htype⟩ := globalFault?_eq_none_iff.mp hfault
  intro other entry' hentry'
  obtain ⟨old, hold, hrest⟩ := h other entry' hentry'
  rw [FixedVec.get?_eq] at hold
  simp only [FixedVec.get?_eq, FixedVec.toList_set]
  by_cases hother : position = other
  · subst hother
    cases hentry.symm.trans hentry'
    obtain ⟨hlt, -⟩ := List.getElem?_eq_some_iff.mp hold
    refine ⟨value, by rw [List.getElem?_set_self hlt], htype, fun hfrozen => ?_⟩
    rw [hmutable] at hfrozen
    cases hfrozen
  · exact ⟨old, by rw [List.getElem?_set_ne hother, hold], hrest⟩

theorem shared_holdsGlobals (m : Module) :
    Shared m fun s s' => s.HoldsGlobals m → s'.HoldsGlobals m where
  refl _ := id
  fails _ := id
  trans h h' := h' ∘ h
  trans_fails h h' := h' ∘ h
  change h := by
    cases h with
    | setGlobal value hglobal hentry hfault hlt => exact fun hs => hs.set hentry hfault
    | _ => exact id
  shell _ hglobals _ := fun h position entry hentry => hglobals ▸ h position entry hentry

/-- The globals of a new machine are the first values of those that the module defines. -/
theorem create_globals {host : Host} {buffer : Array UInt8}
    (h : create m host buffer = .ok s) : s.globals.toList = m.globals.toList.map Global.init := by
  have hroom : (m.globals.toList.map Global.init).length
      ≤ (FixedVec.empty : FixedVec Value maxGlobals).free := by
    rw [List.length_map, FixedVec.length_toList]
    exact m.globals.length_le
  have hcases := create_cases m host buffer
  rw [h] at hcases
  cases hcases
  rw [FixedVec.toList_putAll_of_le hroom, FixedVec.toList_empty, List.nil_append]

theorem create_holdsGlobals (hm : m.Prepared) {host : Host} {buffer : Array UInt8}
    (h : create m host buffer = .ok s) : s.HoldsGlobals m := by
  intro position entry hentry
  rw [FixedVec.get?_eq] at hentry
  refine ⟨entry.init, ?_, hm.globals_typed entry (List.mem_of_getElem? hentry), fun _ => rfl⟩
  rw [FixedVec.get?_eq, create_globals h, List.getElem?_map, hentry]
  rfl

theorem Reachable.holdsGlobals (hm : m.Prepared) (h : Reachable m s) : s.HoldsGlobals m := by
  induction h with
  | created h => exact create_holdsGlobals hm h
  | operated operation _ ih =>
    have hR := shared_holdsGlobals m
    exact (keeps_operation hR.toCovers hR.keeps_call operation).after _ ih

end Machine

/-! ### All that is stored -/

/-- Every local of every open activation holds a value of the type that its function declares. -/
def Moment.HoldsLocals (activations : List Activation) (moment : Moment) : Prop :=
  ∀ (n : Nat) (frame : Frame) (a : Activation) (index : UInt32),
    (moment.machine.frame :: moment.callers)[n]? = some frame → activations[n]? = some a →
    index.toNat < a.localTypes.length →
    ∃ value, ({ moment.machine with frame } : Machine).localValue index = .ok value ∧
      a.localTypes[index.toNat]? = some value.type

namespace Machine

variable {m : Module} {s : Machine}

/-- Between the operations of a host and at every moment of every run, globals and locals hold
values of their declared types, and immutable globals their first values.  A cell of the host is
only changed by the host itself or through a mutable imported global that is bound to it: where it
has changed in a run, it did so in a step that writes it. -/
theorem stored_values_keep_types (hm : m.Prepared) (hs : Reachable m s) :
    s.HoldsGlobals m ∧
    (∀ index moment, Moment.Reaches m (Moment.start index s) moment →
      moment.machine.HoldsGlobals m ∧
      (∃ activations, Moment.Nested m (Moment.start index s) activations moment) ∧
      ∀ activations, Moment.Nested m (Moment.start index s) activations moment →
        moment.HoldsLocals activations ∧ moment.callers.length = activations.length ∧
        ∀ rest, moment.stage = .body rest → activations ≠ []) ∧
    (∀ (operation : Operation) (cell : CellId),
      ((operation.run m).after s).host.cells.read cell ≠ s.host.cells.read cell →
      operation.WritesCell m s cell) ∧
    (∀ index moment moment' cell, Moment.Reaches m (Moment.start index s) moment →
      Moment.Reaches m moment moment' →
      moment'.machine.host.cells.read cell ≠ moment.machine.host.cells.read cell →
      ∃ before next, Moment.Reaches m moment before ∧ Moment.Step m before next ∧
        Moment.Reaches m next moment' ∧
        next.machine.host.cells.read cell ≠ before.machine.host.cells.read cell ∧
        before.WritesInStep m cell) := by
  have hglobals := hs.holdsGlobals hm
  have hidle := hs.idle hm.countsLocals
  refine ⟨hglobals, fun index moment hreaches => ⟨?_, Moment.exists_nested hreaches, ?_⟩,
    fun operation cell hne => writesCell_of_ne hm operation hne, ?_⟩
  · exact (shared_holdsGlobals m).of_reaches hreaches hglobals
  · intro activations hnested
    have hhoused := hnested.housed hm hidle
    exact ⟨fun n frame a index hframe ha hindex => hhoused.exists_local hframe ha hindex,
      hnested.length_callers, fun rest hstage => hnested.ne_nil_of_body hstage⟩
  · intro index moment moment' cell hreaches hlater hne
    have hshaped := hreaches.shaped hm (Moment.shaped_start index s)
    exact hlater.exists_writesInStep hm hshaped hne

/-- When the second function of the sample module begins, its second local is an integer, and so is
the global of the module. -/
theorem adder_stored : ∃ moment, Moment.Reaches .adder (Moment.start 1 adderMachine) moment ∧
    (∃ value, moment.machine.localValue 1 = .ok value ∧ value.type = .i32) ∧
    (∃ value, moment.machine.globals.get? 0 = some value ∧ value.type = .i32) := by
  obtain ⟨-, hmoments, -⟩ := stored_values_keep_types Module.adder_prepared adderMachine_reachable
  have hindex : Module.adder.function? 1 = some (.defined 1 1) := by decide +kernel
  have hglobal : (Module.adder.globals.get? 0).map (fun entry => entry.type.valueType)
      = some .i32 := by decide +kernel
  have hcode : (Module.adder.codes.get? 1).map (fun code => code.locals.toList)
      = some [⟨1, .i32⟩] := by decide +kernel
  have htype : (Module.adder.types.get? 1).map (fun type => type.params.toList)
      = some [.i32] := by decide +kernel
  have hdepth : adderMachine.depth < maxCallDepth := by
    rw [(adderMachine_reachable.idle Module.adder_prepared.countsLocals).depth]
    decide
  obtain ⟨s, hrun, -⟩ := adderMachine_answers
  rw [invoke_defined hindex hdepth] at hrun
  cases callDefined_cases hrun with
  | @returned code type frame opened body stopped hopen hbody _ _ =>
    have henters : Moment.Enters .adder ⟨type, code⟩ (Moment.start 1 adderMachine)
        ⟨.body body, entered 1 frame opened, [adderMachine.frame]⟩ :=
      .mk hindex hdepth hopen hbody
    have hreaches := Relation.ReflTransGen.single henters.step
    obtain ⟨hholds, -, hlocals⟩ := hmoments 1 _ hreaches
    have hlocalTypes : (Activation.mk type code).localTypes = [.i32, .i32] := by
      rw [hopen.code_eq] at hcode
      rw [show Module.adder.types.get? 1 = some type from hopen.type_eq] at htype
      simp only [Option.map_some, Option.some.injEq] at hcode htype
      unfold Activation.localTypes
      rw [hcode, htype]
      rfl
    refine ⟨_, hreaches, ?_, ?_⟩
    · obtain ⟨hholdsLocals, -⟩ := hlocals _ (.enter .here henters)
      obtain ⟨value, hvalue, hvalueType⟩ :=
        hholdsLocals 0 _ _ 1 rfl rfl (by rw [hlocalTypes]; decide)
      rw [hlocalTypes] at hvalueType
      exact ⟨value, hvalue, (Option.some.inj hvalueType).symm⟩
    · obtain ⟨entry, hentry, hentryType⟩ := Option.map_eq_some_iff.mp hglobal
      obtain ⟨value, hvalue, hvalueType, -⟩ := hholds 0 entry hentry
      exact ⟨value, hvalue, hvalueType.trans hentryType⟩

end Machine

end BoundedWasm
