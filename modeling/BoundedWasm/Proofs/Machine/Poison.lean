import BoundedWasm.Proofs.Machine.Moment

/-!
# BoundedWasm.Proofs.Machine.Poison — when a machine is poisoned

A call poisons the machine as soon as it fails inside a body or a native function, at any depth and
with any fault: the flag is set where the fault passes and never taken back.  A call that fails
before that leaves everything but the log as it was.  A poisoned machine takes no calls.
-/

namespace BoundedWasm.Machine

open BoundedWasm.Action Limits

variable {m : Module} {s s' : Machine}

/-- Nothing but the log is different. -/
def OnlyLogs (s s' : Machine) : Prop := ∃ log, s' = { s with host := { s.host with log } }

theorem OnlyLogs.refl (s : Machine) : OnlyLogs s s := ⟨s.host.log, rfl⟩

theorem onlyLogs_missed (m : Module) (position : Nat) (s : Machine) :
    OnlyLogs s (missed m position s) := by
  unfold missed
  split
  · exact .refl s
  · exact ⟨_, rfl⟩

/-! ### Calls that fail -/

/-- A call fails with the machine poisoned, or with nothing done to it. -/
theorem poisoned_or_onlyLogs (hm : m.CountsLocals) {index : UInt32} {fault : Fault}
    (h : invoke m index s = .error fault s') : s'.poisoned = true ∨ OnlyLogs s s' := by
  cases hindex : m.function? index with
  | none =>
    rw [invoke_missing hindex] at h
    cases h
    exact .inr (.refl s)
  | some function =>
    cases function with
    | imported position typeIndex =>
      rw [invoke_native hindex] at h
      cases callNative_cases h with
      | unbound hbinding => exact .inr (onlyLogs_missed m position s)
      | few hbinding hfew => exact .inr (.refl s)
      | failed hbinding henough hrun => exact .inl rfl
      | uneven hbinding henough hrun hheight => exact .inl rfl
    | defined position typeIndex =>
      by_cases hdepth : s.depth < maxCallDepth
      · rw [invoke_defined hindex hdepth] at h
        cases callDefined_cases h with
        | bodyMissing hcode => exact .inr (.refl s)
        | typeMissing hcode htype => exact .inr (.refl s)
        | unopened hcode htype hopen =>
          obtain ⟨rfl, -⟩ := (openFrame_cases (hm.of_get? hcode) _ s).of_error hopen
          exact .inr (.refl _)
        | stretchMissing hopen hbody => exact .inl rfl
        | failed hopen hbody hrun => exact .inl rfl
        | short hopen hbody hrun hshort => exact .inl rfl
      · rw [invoke_deep hindex (Nat.le_of_not_lt hdepth)] at h
        cases h
        exact .inr (.refl s)

/-- A fault inside a body or a native function leaves the machine poisoned. -/
theorem poisoned_of_entered {index : UInt32} {fault : Fault}
    (h : invoke m index s = .error fault s') (hentered : Moment.Entered m index s) :
    s'.poisoned = true := by
  obtain ⟨moment, hreaches, hinside⟩ := hentered
  rcases Relation.ReflTransGen.cases_head hreaches with rfl | ⟨first, hfirst, hlater⟩
  · exact hinside.elim
  cases hfirst with
  | enterNative hindex hbinding henough =>
    rw [invoke_native hindex] at h
    cases callNative_cases h with
    | unbound hunbound => exact absurd hbinding (hunbound _)
    | few hother hfew =>
      cases hother.symm.trans hbinding
      omega
    | failed _ _ hrun => rfl
    | uneven _ _ hrun hheight => rfl
  | enterBody hindex hdepth hopen hbody =>
    rw [invoke_defined hindex hdepth] at h
    cases callDefined_cases h with
    | bodyMissing hcode =>
      have hother := hopen.code_eq
      rw [hcode] at hother
      cases hother
    | typeMissing hcode htype =>
      have hother := hopen.type_eq
      rw [htype] at hother
      cases hother
    | unopened hcode htype hunopened =>
      cases hcode.symm.trans hopen.code_eq
      cases htype.symm.trans hopen.type_eq
      cases hunopened.symm.trans hopen.open_eq
    | stretchMissing _ _ => rfl
    | failed _ _ hrun => rfl
    | short _ _ hrun hshort => rfl
  | returned =>
    rcases Relation.ReflTransGen.cases_head hlater with rfl | ⟨second, hsecond, -⟩
    · exact hinside.elim
    · cases hsecond

/-- A call that returns does not poison the machine. -/
theorem poisoned_of_returned (hm : m.CountsLocals) (hs : s.Framed) {index : UInt32}
    (h : invoke m index s = .ok () s') : s'.poisoned = s.poisoned :=
  ((keeps_invoke hm index s).of_ok h hs).2

/-! ### Calls from the host -/

/-- The ends of a call that the host makes in `s`. -/
inductive HostCall (m : Module) (index : UInt32) (s : Machine) :
    EStateM.Result Fault Machine Unit → Prop
  | refused (hpoisoned : s.poisoned = true) : HostCall m index s (.error .poisoned s)
  | returned {s' : Machine} (hpoisoned : s.poisoned = false) (hrun : invoke m index s = .ok () s') :
    HostCall m index s (.ok () s')
  | failed {fault : Fault} {s' : Machine} (hpoisoned : s.poisoned = false)
    (hrun : invoke m index s = .error fault s') :
    HostCall m index s (.error fault (settled index fault s'))

theorem call_cases {index : UInt32} {ending : EStateM.Result Fault Machine Unit}
    (h : call m index s = ending) : HostCall m index s ending := by
  subst h
  rw [call_run]
  cases hpoisoned : s.poisoned with
  | true => exact .refused hpoisoned
  | false =>
    cases hrun : invoke m index s with
    | ok _ s' => exact .returned hpoisoned hrun
    | error fault s' => exact .failed hpoisoned hrun

theorem settled_poisoned (index : UInt32) (fault : Fault) (s : Machine) :
    (settled index fault s).poisoned = (fault.poisonsInstance || s.poisoned) := by
  unfold settled
  split
  · rename_i h
    exact h.symm
  · rename_i h
    rw [Bool.not_eq_true] at h
    rw [h]
    exact (Bool.or_eq_false_iff.mp h).2

theorem settled_of_unpoisoned {index : UInt32} {fault : Fault}
    (h : (settled index fault s).poisoned = false) : settled index fault s = s := by
  rw [settled_poisoned] at h
  unfold settled
  rw [if_neg (by rw [h]; exact Bool.false_ne_true)]

/-- A call that the host makes and that leaves the machine usable has only written to the log. -/
theorem onlyLogs_of_call (hm : m.CountsLocals) {index : UInt32} {fault : Fault}
    (h : call m index s = .error fault s') (hs' : s'.poisoned = false) : OnlyLogs s s' := by
  cases call_cases h with
  | refused hpoisoned => exact .refl s
  | failed hpoisoned hrun =>
    have hsettled := settled_of_unpoisoned hs'
    rw [hsettled] at hs' ⊢
    rcases poisoned_or_onlyLogs hm hrun with hpoison | honly
    · rw [hpoison] at hs'
      cases hs'
    · exact honly

/-! ### Whole sessions -/

/-- The operations that make a call make it as `call` does. -/
theorem run_of_target {operation : Operation} {index : UInt32}
    (h : operation.target? m = some index) : operation.run m = call m index := by
  cases operation with
  | call other =>
    cases h
    rfl
  | callExport name =>
    show callExport m name = _
    unfold callExport
    rw [show m.exportedFunction? name = some index from h]
  | runStart =>
    show runStart m = _
    unfold runStart
    rw [show m.start = some index from h]
  | _ => cases h

/-- Without a function to call nothing is done. -/
theorem run_of_no_target {operation : Operation} (hcall : operation.isCall = true)
    (h : operation.target? m = none) : (operation.run m).after s = s := by
  cases operation with
  | call other => cases h
  | callExport name =>
    show (callExport m name).after s = s
    unfold callExport
    rw [show m.exportedFunction? name = none from h]
    rfl
  | runStart =>
    show (runStart m).after s = s
    unfold runStart
    rw [show m.start = none from h]
    rfl
  | _ => cases hcall

theorem covers_poisoned (m : Module) :
    Covers m (fun s s' => s.poisoned = true → s'.poisoned = true)
      (fun s s' => s.poisoned = true → s'.poisoned = true) where
  refl _ := id
  fails _ := id
  trans h h' := h' ∘ h
  trans_fails h h' := h' ∘ h
  change h := by cases h <;> exact id

/-- The flag is never taken back. -/
theorem operate_poisoned (operations : List Operation) (hs : s.poisoned = true) :
    (operate m operations s).poisoned = true := by
  have hcall : ∀ index, Keeps (fun s s' => s.poisoned = true → s'.poisoned = true)
      (fun s s' => s.poisoned = true → s'.poisoned = true) (call m index) := by
    intro index s
    by_cases hpoisoned : s.poisoned = true
    · unfold Ends
      rw [call_run, if_pos hpoisoned]
      exact id
    · exact ends_of (fun _ _ _ h => absurd h hpoisoned) (fun _ _ _ h => absurd h hpoisoned)
  induction operations generalizing s with
  | nil => exact hs
  | cons operation operations ih =>
    exact ih ((keeps_operation (covers_poisoned m) hcall operation).after s hs)

/-- The discipline of poisoning over the whole life of a machine: a poisoned machine stays so, and
refuses every call without doing anything; a call that returns leaves the machine unpoisoned; one
that fails inside a body or a native function poisons it; and one that fails and does not poison it
has changed nothing. -/
theorem poisoning_discipline (hm : m.Prepared) (hs : Reachable m s) :
    (∀ operations, s.poisoned = true → (operate m operations s).poisoned = true) ∧
    (∀ (operation : Operation) (index : UInt32), operation.target? m = some index →
      (s.poisoned = true → operation.run m s = .error .poisoned s ∧
        Fault.poisoned.category = .runtime ∧ Fault.poisoned.code = 1009) ∧
      (∀ s', operation.run m s = .ok () s' → s'.poisoned = false) ∧
      (∀ fault s', operation.run m s = .error fault s' → Moment.Entered m index s →
        s'.poisoned = true)) ∧
    (∀ (operation : Operation) (fault : Fault) (s' : Machine), operation.isCall = true →
      operation.run m s = .error fault s' → s'.poisoned = false →
      s'.stack = s.stack ∧ s'.globals = s.globals ∧ s'.memory = s.memory ∧
        s'.host.cells = s.host.cells) := by
  refine ⟨fun operations hpoisoned => operate_poisoned operations hpoisoned,
    fun operation index htarget => ⟨?_, ?_, ?_⟩, ?_⟩
  · intro hpoisoned
    rw [run_of_target htarget, call_run, if_pos hpoisoned]
    exact ⟨rfl, rfl, rfl⟩
  · intro s' hrun
    rw [run_of_target htarget] at hrun
    cases call_cases hrun with
    | returned hpoisoned hinvoke =>
      exact (poisoned_of_returned hm.countsLocals (hs.idle hm.countsLocals).framed hinvoke).trans
        hpoisoned
  · intro fault s' hrun hentered
    rw [run_of_target htarget] at hrun
    cases call_cases hrun with
    | refused hpoisoned => exact hpoisoned
    | failed hpoisoned hinvoke =>
      rw [settled_poisoned, poisoned_of_entered hinvoke hentered, Bool.or_true]
  · intro operation fault s' hcall hrun hs'
    have honly : OnlyLogs s s' := by
      cases htarget : operation.target? m with
      | none =>
        have hafter := run_of_no_target (s := s) hcall htarget
        rw [after_eq_of_error hrun] at hafter
        rw [hafter]
        exact .refl s
      | some index =>
        rw [run_of_target htarget] at hrun
        exact onlyLogs_of_call hm.countsLocals hrun hs'
    obtain ⟨log, rfl⟩ := honly
    exact ⟨rfl, rfl, rfl, rfl⟩

/-- Called without its argument, the second function of the sample module poisons the machine. -/
theorem adder_poisoned : ∃ s, Reachable .adder s ∧ s.poisoned = true ∧
    (∀ operations, (operate .adder operations s).poisoned = true) ∧
    (Operation.callExport "f").run .adder s = .error .poisoned s := by
  have h : ∃ fresh ∈ (create .adder {} #[]).toOption,
      (((Operation.call 1).run .adder).after fresh).poisoned = true := by
    decide +kernel
  have htarget : (Operation.callExport "f").target? .adder = some 1 := by decide +kernel
  obtain ⟨fresh, hfresh, hpoisoned⟩ := h
  have hs : Reachable .adder (((Operation.call 1).run .adder).after fresh) :=
    .operated _ (.created (Action.ok_of_mem_toOption hfresh))
  obtain ⟨hstays, hcalls, -⟩ := poisoning_discipline Module.adder_prepared hs
  obtain ⟨hrefused, -, -⟩ := hcalls _ _ htarget
  exact ⟨_, hs, hpoisoned, fun operations => hstays operations hpoisoned, (hrefused hpoisoned).1⟩

end BoundedWasm.Machine
