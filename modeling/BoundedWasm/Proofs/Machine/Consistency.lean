import BoundedWasm.Proofs.Machine.Effects
import BoundedWasm.Proofs.Machine.Nesting
import BoundedWasm.Proofs.Machine.Poison

/-!
# BoundedWasm.Proofs.Machine.Consistency — a prepared module is never found at odds with itself

Some faults would mean that the module that runs is inconsistent: an immediate of the wrong shape, a
body that is missing or lies outside the table, a type that does not exist, locals that do not fit
the window made for them (`Fault.IsInternal`).  Whatever makes a run of a prepared module fail, it
is none of these: the fault is one of a call (`Fault.ofCalls`), of the operation of an instruction
(`Opcode.faults`), or what a native function reports (`Moment.Blames`).
-/

namespace BoundedWasm

open BoundedWasm.Action Limits Machine

/-- The fault would show a module to be at odds with itself, or a table of the machine to be
full. -/
def Fault.IsInternal (fault : Fault) : Prop :=
  fault ∈ [malformedImmediate, constantImmediateMissing, bodyOutsidePool, bodyMissing,
    functionTypeMissing] ∨ fault.category = .capacity

instance (fault : Fault) : Decidable fault.IsInternal :=
  inferInstanceAs (Decidable (_ ∨ _))

/-- The faults of calling, and of instructions that machines do not carry out. -/
def Fault.ofCalls : List Fault :=
  [functionOutOfRange, functionUnbound, stackUnderflow, nativeHeight, callDepthReached,
    argumentMismatch, localsExhausted, opcodeUnsupported]

/-- No fault of an operation is internal, and there is one for a missing local. -/
theorem Opcode.faults_plain (opcode : Opcode) : ∀ fault ∈ opcode.faults,
    ¬ fault.IsInternal ∧ (fault.code = Fault.localOutOfRange.code → fault = .localOutOfRange) := by
  unfold faults
  split <;> decide

/-- Only what moves operands meets a value of another type than it takes. -/
theorem Opcode.ne_of_unexpectedType {opcode : Opcode} (h : .unexpectedType ∈ opcode.faults) :
    opcode ≠ .globalGet ∧ opcode ≠ .globalSet := by
  constructor
  · rintro rfl
    exact absurd h (by decide)
  · rintro rfl
    exact absurd h (by decide)

namespace Moment

variable {m : Module}

/-! ### Bodies hold instructions with their immediates -/

/-- What is left of a body has the immediates of its operations. -/
def Shaped (moment : Moment) : Prop := ∀ rest, moment.stage = .body rest → ∀ i ∈ rest, i.Shaped

theorem Step.shaped (hm : m.Prepared) {moment moment' : Moment} (hstep : Step m moment moment')
    (h : moment.Shaped) : moment'.Shaped := by
  intro rest hstage
  cases hstep with
  | enterBody hindex hdepth hopen hbody =>
    cases hstage
    exact hm.shaped_of_body hbody
  | next hwork hrun =>
    cases hstage
    exact fun j hj => h _ rfl j (List.mem_cons_of_mem _ hj)
  | leave hwork hrun =>
    cases hstage
    exact fun j hj => by cases hj
  | _ => cases hstage

theorem Reaches.shaped (hm : m.Prepared) {moment moment' : Moment} (h : Reaches m moment moment')
    (hshaped : moment.Shaped) : moment'.Shaped := by
  induction h with
  | refl => exact hshaped
  | tail _ hstep ih => exact hstep.shaped hm ih

/-! ### What a failing run blames -/

/-- Why a run of a prepared module fails where the fault comes up. -/
inductive Blames : Moment → Fault → Prop
  | call {moment : Moment} {fault : Fault} (hfault : fault ∈ Fault.ofCalls) : Blames moment fault
  | instruction {i : Instruction} {rest : List Instruction} {s : Machine} {callers : List Frame}
    {fault : Fault} (hfault : fault ∈ i.opcode.faults)
    (hmisses : fault = .localOutOfRange → MissesLocal i s) :
    Blames ⟨.body (i :: rest), s, callers⟩ fault
  | reported {s : Machine} {callers : List Frame} {fault : Fault} :
    Blames ⟨.native (.finish (.error fault)), s, callers⟩ fault

theorem Raises.blames (hm : m.Prepared) {moment : Moment} {fault : Fault}
    (hshaped : moment.Shaped) (h : Raises m moment fault) : Blames moment fault := by
  cases h with
  | missing hindex => exact .call (by decide)
  | unbound hindex hbinding => exact .call (by decide)
  | few hindex hbinding hfew => exact .call (by decide)
  | uneven hindex hbinding hrun hheight => exact .call (by decide)
  | deep hindex hdepth => exact .call (by decide)
  | bodyMissing hindex hcode =>
    obtain ⟨code, hsome⟩ := hm.exists_code hindex
    rw [hcode] at hsome
    cases hsome
  | typeMissing hindex htype =>
    obtain ⟨type, hsome⟩ := hm.exists_type hindex
    rw [htype] at hsome
    cases hsome
  | unopened hindex hcode htype hopen =>
    obtain ⟨-, hblocked⟩ := (openFrame_cases (hm.countsLocals.of_get? hcode) _ _).of_error hopen
    cases hblocked with
    | underflow => exact .call (by decide)
    | mismatch => exact .call (by decide)
    | exhausted => exact .call (by decide)
  | stretchMissing hindex hopen hbody =>
    obtain ⟨body, hsome⟩ := hm.exists_body hopen.code_eq
    rw [hbody] at hsome
    cases hsome
  | short hindex hopen hbody hrun hshort => exact .call (by decide)
  | unsupported hwork => exact .call (by decide)
  | @target i rest _ _ _ hopcode hindex =>
    have hi : i.Shaped := hshaped _ rfl i List.mem_cons_self
    obtain ⟨index, hsome⟩ := hi.index_ok (by rw [hopcode]; rfl)
    rw [hindex] at hsome
    cases hsome
  | @instruction i rest _ _ _ _ _ hopcode hwork hrun =>
    have hi : i.Shaped := hshaped _ rfl i List.mem_cons_self
    refine .instruction ((handler?_confined hm.slotted hi hopcode hwork).of_error hrun) ?_
    rintro rfl
    exact handler?_misses hm.slotted hi hopcode hwork hrun
  | reported => exact .reported

theorem shaped_start (index : UInt32) (s : Machine) : (start index s).Shaped := by
  intro rest hstage
  cases hstage

/-- Where nothing is bound to a native function, no run gets into one. -/
theorem Reaches.ne_native (hm : ∀ position binding, bindingOf m position ≠ .function binding)
    {moment moment' : Moment} (h : Reaches m moment moment')
    (hstage : ∀ native, moment.stage ≠ .native native) :
    ∀ native, moment'.stage ≠ .native native := by
  induction h with
  | refl => exact hstage
  | tail _ hstep ih =>
    intro native heq
    cases hstep with
    | enterNative hindex hbinding henough => exact hm _ _ hbinding
    | enterBody | returned | call | next | leave | failed | unsupported | finished => cases heq
    | _ => exact ih _ rfl

/-- A local that is missing has an index beyond the parameters and declared locals of the running
function. -/
theorem Nested.le_of_misses (hm : m.Prepared) {index : UInt32} {s : Machine} (hs : s.Idle)
    {a : Activation} {outer : List Activation} {moment : Moment}
    (h : Nested m (start index s) (a :: outer) moment) {i : Instruction}
    (hmisses : MissesLocal i moment.machine) :
    ∃ position, i.index = .ok position ∧ a.localTypes.length ≤ position.toNat := by
  obtain ⟨position, hposition, hmissing⟩ := hmisses
  refine ⟨position, hposition, Nat.le_of_not_lt fun hlt => ?_⟩
  obtain ⟨value, hvalue, -⟩ := (h.housed hm hs).exists_local (n := 0) rfl rfl hlt
  rw [hmissing] at hvalue
  cases hvalue

end Moment

/-! ### Whole sessions -/

/-- A moment in the run of a call from the host, with the activations that are open then. -/
def Operation.Meets (m : Module) (operation : Operation) (s : Machine)
    (activations : List Activation) (moment : Moment) : Prop :=
  ∃ index, operation.target? m = some index ∧
    Moment.Nested m (Moment.start index s) activations moment

namespace Machine

variable {m : Module} {s s' : Machine}

/-- A call from the host that fails was refused, or leads to where its fault comes up. -/
theorem refused_or_leads {operation : Operation} (hcall : operation.isCall = true) {fault : Fault}
    (h : operation.run m s = .error fault s') :
    fault ∈ [Fault.exportMissing, .poisoned] ∨
      ∃ index, operation.target? m = some index ∧ Moment.Leads m (Moment.start index s) fault := by
  cases htarget : operation.target? m with
  | none =>
    refine .inl ?_
    cases operation with
    | callExport name =>
      rw [Operation.run, callExport, show m.exportedFunction? name = none from htarget] at h
      cases h
      decide
    | runStart =>
      rw [Operation.run, runStart, show m.start = none from htarget] at h
      cases h
    | call index => cases htarget
    | _ => cases hcall
  | some index =>
    rw [run_of_target htarget] at h
    cases call_cases h with
    | refused hpoisoned => exact .inl (by decide)
    | failed hpoisoned hrun =>
      have hleads : Moment.Leads m (Moment.start index s) fault := Moment.exists_raises hrun
      exact .inr ⟨index, rfl, hleads⟩

/-- No operation on a machine for a prepared module ever finds the module at odds with itself,
unless a native function reports so.  A value of an unexpected type is only met among operands,
never in passing a global through its cell; and an index of a local is only refused where the
running function has no such local. -/
theorem internal_faults_unreachable (hm : m.Prepared) (hs : Reachable m s) :
    (∀ index fault, s.globalValue m index = .error fault →
      ¬ fault.IsInternal ∧ fault ≠ .unexpectedType ∧ fault.code ≠ Fault.localOutOfRange.code) ∧
    (∀ index value fault s', setGlobal m index value s = .error fault s' →
      ¬ fault.IsInternal ∧ fault ≠ .unexpectedType ∧ fault.code ≠ Fault.localOutOfRange.code) ∧
    ∀ (operation : Operation) (fault : Fault) (s' : Machine), operation.isCall = true →
      operation.run m s = .error fault s' →
      (∃ activations t callers,
        operation.Meets m s activations ⟨.native (.finish (.error fault)), t, callers⟩) ∨
      ¬ fault.IsInternal ∧
      (fault = .unexpectedType → ∃ activations i rest t callers,
        operation.Meets m s activations ⟨.body (i :: rest), t, callers⟩ ∧
        Moment.Raises m ⟨.body (i :: rest), t, callers⟩ fault ∧
        i.opcode ≠ .globalGet ∧ i.opcode ≠ .globalSet) ∧
      (fault.code = Fault.localOutOfRange.code → ∃ a outer i rest t callers index,
        operation.Meets m s (a :: outer) ⟨.body (i :: rest), t, callers⟩ ∧
        Moment.Raises m ⟨.body (i :: rest), t, callers⟩ fault ∧
        i.index = .ok index ∧ a.localTypes.length ≤ index.toNat) := by
  have hglobals : ∀ fault ∈ Fault.ofGlobals, ¬ fault.IsInternal ∧ fault ≠ .unexpectedType ∧
      fault.code ≠ Fault.localOutOfRange.code := by decide
  have hrefusals : ∀ fault ∈ [Fault.exportMissing, .poisoned] ++ Fault.ofCalls,
      ¬ fault.IsInternal ∧ fault ≠ .unexpectedType ∧ fault.code ≠ Fault.localOutOfRange.code := by
    decide
  refine ⟨fun index fault h => ?_, fun index value fault s' h => ?_,
    fun operation fault s' hcall h => ?_⟩
  · exact hglobals fault ((by decide : [Fault.globalOutOfRange, .variableUnbound] ⊆ Fault.ofGlobals)
      (globalValue_error hm.slotted h))
  · exact hglobals fault ((confined_setGlobal hm.slotted index value).of_error h)
  · rcases refused_or_leads hcall h with hfault | ⟨index, htarget, origin, hreaches, hraises⟩
    · obtain ⟨hinternal, htype, hlocal⟩ := hrefusals fault (List.mem_append_left _ hfault)
      exact .inr ⟨hinternal, fun heq => absurd heq htype, fun heq => absurd heq hlocal⟩
    obtain ⟨activations, hnested⟩ := Moment.exists_nested hreaches
    have hmeets : operation.Meets m s activations origin := ⟨index, htarget, hnested⟩
    cases hraises.blames hm (hreaches.shaped hm (Moment.shaped_start index s)) with
    | call hfault =>
      obtain ⟨hinternal, htype, hlocal⟩ := hrefusals fault (List.mem_append_right _ hfault)
      exact .inr ⟨hinternal, fun heq => absurd heq htype, fun heq => absurd heq hlocal⟩
    | @instruction i rest t callers fault hfault hmisses =>
      obtain ⟨hinternal, hlocal⟩ := i.opcode.faults_plain fault hfault
      refine .inr ⟨hinternal, ?_, fun hcode => ?_⟩
      · rintro rfl
        exact ⟨_, i, rest, t, callers, hmeets, hraises, Opcode.ne_of_unexpectedType hfault⟩
      · obtain ⟨a, outer, rfl⟩ := List.exists_cons_of_ne_nil (hnested.ne_nil_of_body rfl)
        obtain ⟨position, hposition, hle⟩ := hnested.le_of_misses hm
          (hs.idle hm.countsLocals) (hmisses (hlocal hcode))
        exact ⟨a, outer, i, rest, t, callers, position, hmeets, hraises, hposition, hle⟩
    | reported => exact .inl ⟨activations, _, _, hmeets⟩

/-- A module whose only function, without parameters and locals, reads a local. -/
def strayBytes : List UInt8 :=
  [0x00, 0x61, 0x73, 0x6D, 0x01, 0x00, 0x00, 0x00,
    0x01, 0x04, 0x01, 0x60, 0x00, 0x00,
    0x03, 0x02, 0x01, 0x00,
    0x0A, 0x06, 0x01, 0x04, 0x00, 0x20, 0x00, 0x0B]

/-- The fault of calling that function is one of an instruction whose local does not exist. -/
theorem stray_faults : ∃ m s s', Module.ofBytes strayBytes = .ok m ∧ m.Prepared ∧
    Reachable m s ∧ (Operation.call 0).run m s = .error .localOutOfRange s' ∧
    ¬ Fault.localOutOfRange.IsInternal ∧
    ∃ a outer i rest t callers index,
      (Operation.call 0).Meets m s (a :: outer) ⟨.body (i :: rest), t, callers⟩ ∧
      i.index = .ok index ∧ a.localTypes.length ≤ index.toNat := by
  have h : ∃ m ∈ (Module.ofBytes strayBytes).toOption, ∃ s ∈ (create m {} #[]).toOption,
      ((Operation.call 0).run m).fault? s = some .localOutOfRange ∧ m.bindings.length = 0 := by
    decide +kernel
  obtain ⟨m, hdecoded, s, hcreate, hfault, hlength⟩ := h
  have hdecoded := Action.ok_of_mem_toOption hdecoded
  have hrun := Action.run_of_fault?_some hfault
  have hm : m.Prepared := .decoded hdecoded
  have hs : Reachable m s := .created (Action.ok_of_mem_toOption hcreate)
  obtain ⟨-, -, hcalls⟩ := internal_faults_unreachable hm hs
  rcases hcalls (.call 0) _ _ rfl hrun with ⟨_, t, callers, index, htarget, hnested⟩ | hplain
  · have hunbound : ∀ position binding, bindingOf m position ≠ .function binding := by
      intro position binding hbinding
      rw [bindingOf, FixedVec.get?, dif_neg (by omega)] at hbinding
      cases hbinding
    exact absurd rfl (hnested.reaches.ne_native hunbound (fun _ hstage => by cases hstage) _)
  · obtain ⟨hinternal, -, hlocal⟩ := hplain
    obtain ⟨a, outer, i, rest, t, callers, index, hmeets, -, hindex, hle⟩ := hlocal rfl
    exact ⟨m, s, _, hdecoded, hm, hs, hrun, hinternal, a, outer, i, rest, t, callers, index,
      hmeets, hindex, hle⟩

end Machine

end BoundedWasm
