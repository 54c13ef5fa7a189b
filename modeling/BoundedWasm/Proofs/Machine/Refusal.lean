import BoundedWasm.Proofs.Machine.Poison
import BoundedWasm.Proofs.Module.Runnable

/-!
# BoundedWasm.Proofs.Machine.Refusal — calls that fail before they start

`Declined` lists what can keep a call from entering a body or a native function: the index, the
binding, the depth, and the checks on the operands and on the room for locals.  For a prepared
module these are the only ways to fail outside (`declined_iff`).  A declined call does nothing but
write to the log.  Whether the host may go on with the machine then depends on the kind of the
fault: arguments of the wrong types are a matter of types, all other refusals are faults of the
runtime, and those poison a machine when they reach its host.
-/

namespace BoundedWasm.Machine

open BoundedWasm.Action Limits

variable {m : Module} {s s' : Machine} {index : UInt32} {fault : Fault}

/-- Why a call of the function in `s` fails before it starts, and in which machine. -/
inductive Declined (m : Module) (index : UInt32) (s : Machine) : Fault → Machine → Prop
  | missing (hindex : m.function? index = none) : Declined m index s .functionOutOfRange s
  | unbound {position : Nat} {typeIndex : UInt32}
    (hindex : m.function? index = some (.imported position typeIndex))
    (hbinding : ∀ binding, bindingOf m position ≠ .function binding) :
    Declined m index s .functionUnbound (missed m position s)
  | few {position : Nat} {typeIndex : UInt32} {binding : FunctionBinding}
    (hindex : m.function? index = some (.imported position typeIndex))
    (hbinding : bindingOf m position = .function binding)
    (hfew : s.stack.length < s.frame.stackBase + binding.inputs) :
    Declined m index s .stackUnderflow s
  | deep {position : Nat} {typeIndex : UInt32}
    (hindex : m.function? index = some (.defined position typeIndex))
    (hdepth : maxCallDepth ≤ s.depth) : Declined m index s .callDepthReached s
  | blocked {position : Nat} {typeIndex : UInt32} {code : Code} {type : FunctionType}
    {fault : Fault} (hindex : m.function? index = some (.defined position typeIndex))
    (hdepth : s.depth < maxCallDepth) (hcode : m.codes.get? position = some code)
    (htype : m.types.get? typeIndex.toNat = some type) (hblocked : Blocked code type s fault) :
    Declined m index s fault s

/-! ### Failing outside -/

/-- Before it enters a body or a native function, a call can only fail by being declined. -/
theorem declined_of_not_entered (hm : m.Prepared) (h : invoke m index s = .error fault s')
    (hnot : ¬ Moment.Entered m index s) : Declined m index s fault s' := by
  cases hindex : m.function? index with
  | none =>
    rw [invoke_missing hindex] at h
    cases h
    exact .missing hindex
  | some function =>
    cases function with
    | imported position typeIndex =>
      have hinside {binding : FunctionBinding}
          (hbinding : bindingOf m position = .function binding)
          (henough : s.frame.stackBase + binding.inputs ≤ s.stack.length) :
          Moment.Entered m index s :=
        ⟨_, .single (.enterNative hindex hbinding henough), trivial⟩
      rw [invoke_native hindex] at h
      cases callNative_cases h with
      | unbound hbinding => exact .unbound hindex hbinding
      | few hbinding hfew => exact .few hindex hbinding hfew
      | failed hbinding henough _ => exact absurd (hinside hbinding henough) hnot
      | uneven hbinding henough _ _ => exact absurd (hinside hbinding henough) hnot
    | defined position typeIndex =>
      by_cases hdepth : s.depth < maxCallDepth
      · have hinside {code : Code} {type : FunctionType} {frame : Frame} {opened : Machine}
            {body : List Instruction}
            (hopen : Opened m position typeIndex s code type frame opened)
            (hbody : m.body code = .ok body) : Moment.Entered m index s :=
          ⟨_, .single (.enterBody hindex hdepth hopen hbody), trivial⟩
        rw [invoke_defined hindex hdepth] at h
        cases callDefined_cases h with
        | bodyMissing hcode =>
          obtain ⟨code, hother⟩ := hm.exists_code hindex
          cases hcode.symm.trans hother
        | typeMissing _ htype =>
          obtain ⟨type, hother⟩ := hm.exists_type hindex
          cases htype.symm.trans hother
        | unopened hcode htype hopen =>
          obtain ⟨rfl, hblocked⟩ :=
            (openFrame_cases (hm.countsLocals.of_get? hcode) _ s).of_error hopen
          exact .blocked hindex hdepth hcode htype hblocked
        | stretchMissing hopen hbody =>
          obtain ⟨body, hother⟩ := hm.exists_body hopen.code_eq
          cases hbody.symm.trans hother
        | failed hopen hbody _ => exact absurd (hinside hopen hbody) hnot
        | short hopen hbody _ _ => exact absurd (hinside hopen hbody) hnot
      · rw [invoke_deep hindex (Nat.le_of_not_lt hdepth)] at h
        cases h
        exact .deep hindex (Nat.le_of_not_lt hdepth)

/-- A declined call fails as it says. -/
theorem Declined.invoke_error (h : Declined m index s fault s') :
    invoke m index s = .error fault s' := by
  cases h with
  | missing hindex => exact invoke_missing hindex s
  | unbound hindex hbinding =>
    rw [invoke_native hindex]
    exact callNative_run_unbound hbinding s
  | few hindex hbinding hfew => rw [invoke_native hindex, callNative_run hbinding, if_pos hfew]
  | deep hindex hdepth => exact invoke_deep hindex hdepth
  | blocked hindex hdepth hcode htype hblocked =>
    rw [invoke_defined hindex hdepth, callDefined_run hcode htype, hblocked.openFrame_error]

/-- The first step of a run that gets anywhere is into the function that is called. -/
theorem Declined.not_entered (h : Declined m index s fault s') : ¬ Moment.Entered m index s := by
  rintro ⟨moment, hreaches, hinside⟩
  rcases Relation.ReflTransGen.cases_head hreaches with rfl | ⟨first, hfirst, hlater⟩
  · exact hinside
  cases hfirst with
  | enterNative hindex hbinding henough =>
    cases h with
    | missing hother => cases hindex.symm.trans hother
    | unbound hother hunbound =>
      cases hindex.symm.trans hother
      exact hunbound _ hbinding
    | few hother hslot hfew =>
      cases hindex.symm.trans hother
      cases hbinding.symm.trans hslot
      omega
    | deep hother hdeep => cases hindex.symm.trans hother
    | blocked hother hdepth hcode htype hblocked => cases hindex.symm.trans hother
  | enterBody hindex hdepth hopen hbody =>
    cases h with
    | missing hother => cases hindex.symm.trans hother
    | unbound hother hunbound => cases hindex.symm.trans hother
    | few hother hslot hfew => cases hindex.symm.trans hother
    | deep hother hdeep => omega
    | blocked hother _ hcode htype hblocked =>
      cases hindex.symm.trans hother
      cases hcode.symm.trans hopen.code_eq
      cases htype.symm.trans hopen.type_eq
      cases hblocked.openFrame_error.symm.trans hopen.open_eq
  | returned =>
    rcases Relation.ReflTransGen.cases_head hlater with rfl | ⟨second, hsecond, -⟩
    · exact hinside
    · cases hsecond

theorem declined_iff (hm : m.Prepared) :
    Declined m index s fault s' ↔
      invoke m index s = .error fault s' ∧ ¬ Moment.Entered m index s :=
  ⟨fun h => ⟨h.invoke_error, h.not_entered⟩, fun h => declined_of_not_entered hm h.1 h.2⟩

/-! ### What a declined call does -/

theorem Declined.onlyLogs (h : Declined m index s fault s') : OnlyLogs s s' := by
  cases h with
  | unbound hindex hbinding => exact onlyLogs_missed m _ s
  | _ => exact .refl s

/-- Wrong arguments are refused without a trace; all other refusals are faults of the runtime. -/
theorem Declined.mismatch_or_runtime (h : Declined m index s fault s') :
    (fault = .argumentMismatch ∧ s' = s) ∨ fault.category = .runtime := by
  cases h with
  | blocked hindex hdepth hcode htype hblocked =>
    cases hblocked with
    | mismatch henough htypes => exact .inl ⟨rfl, rfl⟩
    | underflow hfew => exact .inr rfl
    | exhausted henough htypes hroom => exact .inr rfl
  | _ => exact .inr rfl

theorem settled_of_runtime (h : fault.category = .runtime) (index : UInt32) (s : Machine) :
    settled index fault s =
      { s with
        host := { s.host with log := s.host.log.push (.callTrapped index fault) }
        poisoned := true } := by
  have hpoisons : fault.poisonsInstance = true := by
    unfold Fault.poisonsInstance
    rw [h]
  unfold settled
  rw [hpoisons, Bool.true_or, if_pos rfl]

/-- A call from the host that fails before it enters a body or a native function leaves operands,
globals, memory and cells alone.  If its arguments were of the wrong types nothing at all happened.
Every other such failure is a fault of the runtime; it poisons the machine, which from then on
refuses every call. -/
theorem refusals_change_nothing (hm : m.Prepared) (hpoisoned : s.poisoned = false)
    (h : call m index s = .error fault s') (hnot : ¬ Moment.Entered m index s) :
    (s'.stack = s.stack ∧ s'.globals = s.globals ∧ s'.memory = s.memory ∧
      s'.host.cells = s.host.cells) ∧
    ((fault = .argumentMismatch ∧ s' = s) ∨
      (fault.category = .runtime ∧ s'.poisoned = true ∧
        ∀ other, call m other s' = .error .poisoned s')) := by
  cases call_cases h with
  | refused hother =>
    rw [hpoisoned] at hother
    cases hother
  | failed _ hrun =>
    have hdeclined := declined_of_not_entered hm hrun hnot
    rcases hdeclined.mismatch_or_runtime with ⟨rfl, hsame⟩ | hruntime
    · have hsettled : settled index .argumentMismatch s = s := by
        unfold settled
        rw [hpoisoned]
        rfl
      rw [hsame, hsettled]
      exact ⟨⟨rfl, rfl, rfl, rfl⟩, .inl ⟨rfl, rfl⟩⟩
    · obtain ⟨log, rfl⟩ := hdeclined.onlyLogs
      rw [settled_of_runtime hruntime]
      refine ⟨⟨rfl, rfl, rfl, rfl⟩, .inr ⟨hruntime, rfl, fun other => ?_⟩⟩
      rw [call_run]
      rfl

/-- Called with a value of another type on top, the second function of the sample module leaves the
machine as it was. -/
theorem adder_mismatch_changes_nothing : ∃ s, Reachable .adder s ∧ s.stack.length = 2 ∧
    call .adder 1 s = .error .argumentMismatch s := by
  obtain ⟨s, hs⟩ : ∃ s, s = ((Operation.push (.f32 0)).run .adder).after adderMachine := ⟨_, rfl⟩
  have hreachable : Reachable .adder s := hs ▸ .operated _ adderMachine_reachable
  have hindex : Module.adder.function? 1 = some (.defined 1 1) := by decide +kernel
  have hpoisoned : s.poisoned = false := by
    rw [hs]
    decide +kernel
  have hheight : s.stack.length = 2 := by
    rw [hs]
    decide +kernel
  have htypes : ∀ type ∈ Module.adder.types.get? 1, type.params.length = 1 ∧
      (arguments type.params.length s).map Value.type ≠ type.params.toList := by
    rw [hs]
    decide +kernel
  have hcall : Action.fault? (call .adder 1) s = some .argumentMismatch := by
    rw [hs]
    decide +kernel
  obtain ⟨code, hcode⟩ := Module.adder_prepared.exists_code hindex
  obtain ⟨type, htype⟩ := Module.adder_prepared.exists_type hindex
  obtain ⟨hparams, hmismatch⟩ := htypes type htype
  have hidle := hreachable.idle Module.adder_prepared.countsLocals
  have henough : s.frame.stackBase + type.params.length ≤ s.stack.length := by
    rw [hidle.frame, hparams, hheight]
    decide
  have hdeclined : Declined .adder 1 s .argumentMismatch s :=
    .blocked hindex (by rw [hidle.depth]; decide) hcode htype (.mismatch henough hmismatch)
  have hrun := Action.run_of_fault?_some hcall
  obtain ⟨-, ⟨-, hsame⟩ | ⟨hruntime, -⟩⟩ := refusals_change_nothing Module.adder_prepared hpoisoned
    hrun hdeclined.not_entered
  · rw [hsame] at hrun
    exact ⟨s, hreachable, hheight, hrun⟩
  · cases hruntime

/-- The index of no function poisons the sample machine, although nothing was entered: a call that
would have returned is refused afterwards. -/
theorem missing_function_poisons :
    Reachable .adder adderMachine ∧ adderMachine.poisoned = false ∧
      ¬ Moment.Entered .adder 7 adderMachine ∧
      ∃ s', call .adder 7 adderMachine = .error .functionOutOfRange s' ∧ s'.poisoned = true ∧
        (∃ answered, call .adder 1 adderMachine = .ok () answered) ∧
        call .adder 1 s' = .error .poisoned s' := by
  have hmissing : Module.adder.function? 7 = none := by decide +kernel
  have hpoisoned : adderMachine.poisoned = false := by decide +kernel
  have hdeclined : Declined .adder 7 adderMachine .functionOutOfRange adderMachine :=
    .missing hmissing
  have hrefused : call .adder 7 adderMachine
      = .error .functionOutOfRange (settled 7 .functionOutOfRange adderMachine) := by
    rw [call_run, hpoisoned, hdeclined.invoke_error]
    rfl
  have hanswered : Action.fault? (call .adder 1) adderMachine = none := by decide +kernel
  obtain ⟨_, hanswered⟩ := Action.run_of_fault?_none hanswered
  refine ⟨adderMachine_reachable, hpoisoned, hdeclined.not_entered, _, hrefused, ?_,
    ⟨_, hanswered⟩, ?_⟩
  · rw [settled_of_runtime rfl]
  · rw [settled_of_runtime rfl, call_run]
    rfl

end BoundedWasm.Machine
