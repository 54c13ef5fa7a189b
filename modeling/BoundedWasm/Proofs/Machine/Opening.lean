import BoundedWasm.Proofs.Machine.Frame
import BoundedWasm.Proofs.Machine.Session

/-!
# BoundedWasm.Proofs.Machine.Opening — a call that cannot open its frame

A call of a defined function is set up in steps: the operands are checked, room for the locals is
asked for, the arguments move from the operands to the locals, and each group of locals is opened.
Room is asked for by the number of locals that the code gives, but the locals are opened by its
groups, and in a module put together by hand the groups may declare more.  Then the arguments have
moved when the groups turn out not to fit (`Overran`): the machine is left without them, with locals
of an activation that never began, and fit for further calls.  In all other cases a call that fails
before its frame is open leaves the machine as it was (`set_up_atomic_or_overran`).
-/

namespace BoundedWasm

open BoundedWasm.Action Limits

/-- The groups that fit into `room` places one after the other, up to the first that does not. -/
def LocalGroup.fitting : (room : Nat) → List LocalGroup → List LocalGroup
  | _, [] => []
  | room, group :: groups =>
    if group.count.toNat ≤ room then group :: fitting (room - group.count.toNat) groups else []

namespace FixedVec

variable {α : Type} [Inhabited α] {cap : Nat} {v : FixedVec α cap} {xs : List α}

theorem putAll_append (v : FixedVec α cap) (xs ys : List α) :
    v.putAll (xs ++ ys) = (v.putAll xs).putAll ys :=
  List.foldl_append

theorem free_putAll (h : xs.length ≤ v.free) : (v.putAll xs).free = v.free - xs.length := by
  have hlength := congrArg List.length (toList_putAll_of_le h)
  rw [length_toList, List.length_append, length_toList] at hlength
  rw [free, free, hlength]
  omega

/-- Growing by `count` copies of an element succeeds exactly when there is room for them. -/
theorem resize_grow (v : FixedVec α cap) (count : Nat) (x : α) :
    v.resize (v.length + count) x =
      if count ≤ v.free then .ok (v.putAll (List.replicate count x)) else .error .tableFull := by
  have hle := v.length_le
  unfold resize
  rw [free]
  by_cases h : count ≤ cap - v.length
  · rw [if_pos h, if_neg (by omega), if_neg (by omega), Nat.add_sub_cancel_left]
  · rw [if_neg h, if_pos (by omega)]

end FixedVec

namespace Machine

variable {m : Module} {s s' : Machine} {fault : Fault}

/-! ### Groups that do not fit -/

/-- Locals for which there is no room are opened as far as their groups fit. -/
theorem openLocals_overrun {groups : List LocalGroup} {s : Machine}
    (h : s.locals.free < LocalGroup.total groups) :
    openLocals groups s = .error .tableFull { s with
      locals := s.locals.putAll (zeros (LocalGroup.fitting s.locals.free groups)) } := by
  induction groups generalizing s with
  | nil => exact absurd h (Nat.not_lt_zero _)
  | cons group groups ih =>
    rw [openLocals_cons, FixedVec.resize_grow, LocalGroup.fitting]
    by_cases hfits : group.count.toNat ≤ s.locals.free
    · rw [if_pos hfits, if_pos hfits, zeros_cons, FixedVec.putAll_append]
      have hfree : (s.locals.putAll
          (List.replicate group.count.toNat (Value.zero group.valueType))).free
            = s.locals.free - group.count.toNat := by
        rw [FixedVec.free_putAll (by rwa [List.length_replicate]), List.length_replicate]
      rw [← hfree]
      refine ih (s := { s with locals := s.locals.putAll _ }) ?_
      rw [hfree]
      have htotal : LocalGroup.total (group :: groups)
        = group.count.toNat + LocalGroup.total groups := rfl
      omega
    · rw [if_neg hfits, if_neg hfits]
      rfl

/-! ### Opening a frame -/

/-- The checks have passed, the arguments have moved, and then the groups of locals did not fit. -/
structure Overran (code : Code) (type : FunctionType) (s : Machine) (fault : Fault)
    (s' : Machine) : Prop where
  enough : s.frame.stackBase + type.params.length ≤ s.stack.length
  types : (arguments type.params.length s).map Value.type = type.params.toList
  room : type.params.length + code.numLocals.toNat ≤ s.locals.free
  overrun : s.locals.free < type.params.length + LocalGroup.total code.locals.toList
  fault_eq : fault = .tableFull
  stack : s'.stack.toList = s.stack.toList.take (s.stack.length - type.params.length)
  locals : s'.locals.toList = s.locals.toList ++ arguments type.params.length s
    ++ zeros (LocalGroup.fitting (s.locals.free - type.params.length) code.locals.toList)
  others : ∃ stack locals, s' = { s with stack, locals }

/-- An overrun is only possible where the groups declare more locals than the code says. -/
theorem Overran.numLocals_lt {code : Code} {type : FunctionType}
    (h : Overran code type s fault s') :
    code.numLocals.toNat < LocalGroup.total code.locals.toList := by
  have := h.room
  have := h.overrun
  omega

theorem length_zeros_fitting (room : Nat) (groups : List LocalGroup) :
    (zeros (LocalGroup.fitting room groups)).length ≤ room := by
  induction groups generalizing room with
  | nil => exact Nat.zero_le _
  | cons group groups ih =>
    rw [LocalGroup.fitting]
    split
    · rw [zeros_cons, List.length_append, List.length_replicate]
      have := ih (room - group.count.toNat)
      omega
    · exact Nat.zero_le _

theorem openFrame_fails {code : Code} {type : FunctionType}
    (h : openFrame code type s = .error fault s') : s' = s ∨ Overran code type s fault s' := by
  rw [openFrame_run] at h
  by_cases hfew : s.stack.length < s.frame.stackBase + type.params.length
  · rw [if_pos hfew] at h
    cases h
    exact .inl rfl
  rw [if_neg hfew] at h
  by_cases htypes : (arguments type.params.length s).map Value.type ≠ type.params.toList
  · rw [if_pos htypes] at h
    cases h
    exact .inl rfl
  rw [if_neg htypes] at h
  by_cases hroom : s.locals.free < type.params.length + code.numLocals.toNat
  · rw [if_pos hroom] at h
    cases h
    exact .inl rfl
  rw [if_neg hroom] at h
  have hcount : (arguments type.params.length s).length = type.params.length :=
    length_arguments (by omega)
  have hfits : (arguments type.params.length s).length ≤ s.locals.free := by omega
  have hfree : (moved type.params.length s).locals.free = s.locals.free - type.params.length := by
    have hmoved := FixedVec.free_putAll hfits
    rwa [hcount] at hmoved
  by_cases hover : s.locals.free < type.params.length + LocalGroup.total code.locals.toList
  · rw [openLocals_overrun (by rw [hfree]; omega), hfree] at h
    cases h
    refine .inr ⟨by omega, Decidable.not_not.mp htypes, by omega, hover, rfl,
      FixedVec.toList_truncate _ _, ?_, _, _, rfl⟩
    show ((moved type.params.length s).locals.putAll _).toList = _
    rw [FixedVec.toList_putAll_of_le (by rw [hfree]; exact length_zeros_fitting _ _)]
    exact congrArg (· ++ _) (FixedVec.toList_putAll_of_le hfits)
  · rw [openLocals_run (by rw [hfree, length_zeros]; omega)] at h
    cases h

/-! ### Starting a call -/

/-- A call of a defined function that fails has opened its frame, and then it has poisoned the
machine; or it has left the machine as it was; or the groups of its locals overran the room for
them.  The last needs groups that declare more locals than their code says: without such groups, a
call that fails and leaves the machine fit for others has moved nothing on the two stacks. -/
theorem set_up_atomic_or_overran {index typeIndex : UInt32} {position : Nat}
    (hindex : m.function? index = some (.defined position typeIndex))
    (h : invoke m index s = .error fault s') :
    ((∃ code type frame opened, Opened m position typeIndex s code type frame opened ∧
        s'.poisoned = true) ∨
      s' = s ∨
      ∃ code type, m.codes.get? position = some code ∧
        m.types.get? typeIndex.toNat = some type ∧ Overran code type s fault s') ∧
    ((∀ code, m.codes.get? position = some code →
        LocalGroup.total code.locals.toList ≤ code.numLocals.toNat) →
      s'.poisoned = false → s'.stack = s.stack ∧ s'.locals = s.locals) := by
  have hends : (∃ code type frame opened, Opened m position typeIndex s code type frame opened ∧
        s'.poisoned = true) ∨
      s' = s ∨
      ∃ code type, m.codes.get? position = some code ∧
        m.types.get? typeIndex.toNat = some type ∧ Overran code type s fault s' := by
    by_cases hdepth : s.depth < maxCallDepth
    · rw [invoke_defined hindex hdepth] at h
      cases callDefined_cases h with
      | bodyMissing hcode => exact .inr (.inl rfl)
      | typeMissing hcode htype => exact .inr (.inl rfl)
      | unopened hcode htype hopen =>
        rcases openFrame_fails hopen with hsame | hover
        · exact .inr (.inl hsame)
        · exact .inr (.inr ⟨_, _, hcode, htype, hover⟩)
      | stretchMissing hopen hbody => exact .inl ⟨_, _, _, _, hopen, rfl⟩
      | failed hopen hbody hrun => exact .inl ⟨_, _, _, _, hopen, rfl⟩
      | short hopen hbody hrun hshort => exact .inl ⟨_, _, _, _, hopen, rfl⟩
    · rw [invoke_deep hindex (Nat.le_of_not_lt hdepth)] at h
      cases h
      exact .inr (.inl rfl)
  refine ⟨hends, fun hfits hpoisoned => ?_⟩
  rcases hends with ⟨_, _, _, _, -, htrue⟩ | rfl | ⟨code, type, hcode, -, hover⟩
  · rw [hpoisoned] at htrue
    cases htrue
  · exact ⟨rfl, rfl⟩
  · have hle := hfits code hcode
    have hlt := hover.numLocals_lt
    omega

end Machine

/-! ### A module put together by hand -/

/-- One function, with an integer for its parameter: its code says that it has no other locals, and
declares one local and then more than there is room for. -/
def Module.crowded : Module where
  types := .put .empty ⟨.put .empty .i32, .empty⟩
  functions := .put .empty 0
  codes := .put .empty
    { locals := .putAll .empty [⟨1, .i32⟩, ⟨2000, .i32⟩], numLocals := 0, start := 0, length := 1 }
  instructions := .put .empty ⟨.endBlock, .none, .none⟩

namespace Machine

/-- A machine for the module, with five on its stack. -/
def crowdedMachine : Option Machine :=
  (create .crowded {} #[]).toOption.map (operate .crowded [.push (.i32 5)])

theorem reachable_of_crowdedMachine {s : Machine} (h : s ∈ crowdedMachine) :
    Reachable .crowded s := by
  obtain ⟨fresh, hfresh, rfl⟩ := Option.map_eq_some_iff.mp h
  exact .operated (.push (.i32 5)) (.created (Action.ok_of_mem_toOption hfresh))

theorem crowded_fails : Module.crowded.function? 0 = some (.defined 0 0) ∧
    ∃ s ∈ crowdedMachine, s.stack.toList = [.i32 5] ∧ s.locals.toList = [] ∧
      (invoke .crowded 0).fault? s = some .tableFull ∧
      ((invoke .crowded 0).after s).poisoned = false ∧
      ((invoke .crowded 0).after s).stack.toList = [] ∧
      ((invoke .crowded 0).after s).locals.toList = [.i32 5, .i32 0] := by
  decide +kernel

/-- The call fails with the argument gone from the operands and two locals left behind, in a machine
that takes further calls. -/
theorem crowded_consumes : ∃ s s', Reachable .crowded s ∧
    Module.crowded.function? 0 = some (.defined 0 0) ∧
    invoke .crowded 0 s = .error .tableFull s' ∧ s'.poisoned = false ∧
    s.stack.toList = [.i32 5] ∧ s'.stack.toList = [] ∧
    s.locals.toList = [] ∧ s'.locals.toList = [.i32 5, .i32 0] := by
  obtain ⟨hindex, s, hs, hstack, hlocals, hfault, hpoisoned, hstack', hlocals'⟩ := crowded_fails
  exact ⟨s, _, reachable_of_crowdedMachine hs, hindex, Action.run_of_fault?_some hfault, hpoisoned,
    hstack, hstack', hlocals, hlocals'⟩

/-- What happened is an overrun: nothing else lets such a call fail in a changed machine. -/
theorem crowded_overran : ∃ s s' code type, Reachable .crowded s ∧
    invoke .crowded 0 s = .error .tableFull s' ∧ Overran code type s .tableFull s' := by
  obtain ⟨hindex, s, hs, hstack, -, hfault, hpoisoned, hstack', -⟩ := crowded_fails
  have hrun := Action.run_of_fault?_some hfault
  obtain ⟨⟨_, _, _, _, -, htrue⟩ | hsame | ⟨code, type, -, -, hover⟩, -⟩ :=
    set_up_atomic_or_overran hindex hrun
  · rw [hpoisoned] at htrue
    cases htrue
  · rw [hsame, hstack] at hstack'
    cases hstack'
  · exact ⟨s, _, code, type, reachable_of_crowdedMachine hs, hrun, hover⟩

end Machine

end BoundedWasm
