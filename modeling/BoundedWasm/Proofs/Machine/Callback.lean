import BoundedWasm.Native.Script
import BoundedWasm.Proofs.Machine.Discipline
import BoundedWasm.Proofs.Machine.Poison
import BoundedWasm.Proofs.Module.Slots

/-!
# BoundedWasm.Proofs.Machine.Callback — what a native function leaves alone

A native function has no frame of its own: it pops from its caller's operands as far down as the
caller may, and only the height that it leaves is compared with its binding.  What it cannot have
changed are the operands that it never reached.  `Native.lowest` computes how far down a program of
the host gets when it is run, which is the least height at any moment of the run
(`staysAbove_iff`).
-/

namespace BoundedWasm

open BoundedWasm.Action Limits

/-- The least height of the operand stack while a program of the host runs. -/
def Native.lowest : Native → Machine → Nat
  | finish _, s => s.stack.length
  | push value next, s => min s.stack.length <|
    match Machine.push value s with
    | .ok answer s' => (next (.ok answer)).lowest s'
    | .error fault s' => (next (.error fault)).lowest s'
  | pop next, s => min s.stack.length <|
    match Machine.pop s with
    | .ok value s' => (next (.ok value)).lowest s'
    | .error fault s' => (next (.error fault)).lowest s'
  | memorySize next, s => (next s.memory.size).lowest s
  | readMemory start length next, s => (next (s.memory.bytes? start length)).lowest s
  | writeMemory start bytes next, s =>
    match s.memory.overwrite? start bytes with
    | some memory => (next true).lowest { s with memory }
    | none => (next false).lowest s
  | readCell cell next, s => (next (s.host.cells.read cell)).lowest s
  | writeCell cell bits next, s =>
    next.lowest { s with host := { s.host with cells := s.host.cells.write cell bits } }
  | report entry next, s =>
    next.lowest { s with host := { s.host with reports := s.host.reports.push entry } }

theorem Native.lowest_push (value : Value) (next : Except Fault Unit → Native) (s : Machine) :
    (push value next).lowest s = min s.stack.length
      (match Machine.push value s with
        | .ok answer s' => (next (.ok answer)).lowest s'
        | .error fault s' => (next (.error fault)).lowest s') := by
  delta Native.lowest
  rfl

theorem Native.lowest_pop (next : Except Fault Value → Native) (s : Machine) :
    (pop next).lowest s = min s.stack.length
      (match Machine.pop s with
        | .ok value s' => (next (.ok value)).lowest s'
        | .error fault s' => (next (.error fault)).lowest s') := by
  delta Native.lowest
  rfl

theorem Native.lowest_writeMemory (start : Nat) (bytes : List UInt8) (next : Bool → Native)
    (s : Machine) : (writeMemory start bytes next).lowest s =
      match s.memory.overwrite? start bytes with
      | some memory => (next true).lowest { s with memory }
      | none => (next false).lowest s := rfl

namespace Machine

variable {m : Module} {s s' : Machine}

/-- Whether a program of the host that is run in `s` has at least `height` operands on the stack at
all its moments. -/
def StaysAbove (m : Module) (height : Nat) (native : Native) (s : Machine) : Prop :=
  ∀ rest s', Moment.Reaches m ⟨.native native, s, []⟩ ⟨.native rest, s', []⟩ →
    height ≤ s'.stack.length

variable {height : Nat}

theorem StaysAbove.now {native : Native} (h : StaysAbove m height native s) :
    height ≤ s.stack.length := h native s .refl

theorem StaysAbove.step {native next : Native} (h : StaysAbove m height native s)
    (hstep : Moment.Step m ⟨.native native, s, []⟩ ⟨.native next, s', []⟩) :
    StaysAbove m height next s' :=
  fun rest s'' hreaches => h rest s'' (.head hstep hreaches)

/-! ### Operands below -/

theorem push_run (value : Value) (s : Machine) :
    push value s =
      if s.stack.length < maxOperandStack then .ok () { s with stack := s.stack.put value }
      else .error .stackOverflow s := rfl

theorem take_of_push {value : Value} {answer : Except Fault Unit}
    (h : observe (push value) s = .ok answer s') (hle : height ≤ s.stack.length) :
    s'.stack.toList.take height = s.stack.toList.take height := by
  unfold observe push at h
  split at h
  · rename_i hpush
    split at hpush
    · cases hpush
      cases h
      exact FixedVec.take_put ‹_› hle value
    · cases hpush
  · rename_i hpush
    split at hpush
    · cases hpush
    · cases hpush
      cases h
      rfl

theorem pop_ends (s : Machine) :
    pop.Ends s (fun _ s' => s.frame.stackBase < s.stack.length ∧
      s' = { s with stack := s.stack.pop }) (fun _ s' => s' = s) := by
  unfold pop
  rw [ends_bind]
  refine (top_ends s).mono (fun _ _ htop => ?_) (fun _ _ htop => htop.1)
  obtain ⟨rfl, hlt, -⟩ := htop
  exact ⟨hlt, rfl⟩

theorem take_of_pop {answer : Except Fault Value} (h : observe pop s = .ok answer s')
    (hle : height ≤ s'.stack.length) :
    s'.stack.toList.take height = s.stack.toList.take height := by
  unfold observe at h
  split at h
  · rename_i hrun
    cases h
    obtain ⟨hlt, rfl⟩ := (pop_ends s).of_ok hrun
    have hlength : height ≤ s.stack.pop.length := hle
    rw [FixedVec.length_pop] at hlength
    exact FixedVec.take_pop (by omega)
  · rename_i hrun
    cases h
    rw [(pop_ends s).of_error hrun]

/-- Operands that a program of the host never gets down to are left as they were. -/
theorem take_of_staysAbove {native : Native} (habove : StaysAbove m height native s)
    (h : native.run s = .ok () s') :
    s'.stack.toList.take height = s.stack.toList.take height := by
  induction native generalizing s with
  | finish outcome =>
    cases outcome with
    | ok _ =>
      cases h
      rfl
    | error fault => cases h
  | push value next ih =>
    unfold Native.run at h
    rw [bind_run] at h
    split at h
    · rename_i answer s₁ hpush
      exact (ih answer (habove.step (.push hpush)) h).trans (take_of_push hpush habove.now)
    · cases h
  | pop next ih =>
    unfold Native.run at h
    rw [bind_run] at h
    split at h
    · rename_i answer s₁ hpop
      have hnext := habove.step (.pop hpop)
      exact (ih answer hnext h).trans (take_of_pop hpop hnext.now)
    · cases h
  | memorySize next ih => exact ih _ (habove.step (.memorySize s [])) h
  | readMemory start length next ih => exact ih _ (habove.step (.readMemory s [])) h
  | writeMemory start bytes next ih =>
    unfold Native.run at h
    simp only [bind_run, get_run] at h
    cases hwrite : s.memory.overwrite? start bytes with
    | none =>
      rw [hwrite] at h
      exact ih false (habove.step (.writeMemoryOutside hwrite)) h
    | some memory =>
      rw [hwrite] at h
      have hrest := ih true (habove.step (.writeMemory hwrite)) h
      exact hrest
  | readCell cell next ih => exact ih _ (habove.step (.readCell s [])) h
  | writeCell cell bits next ih =>
    have hrest := ih (habove.step (.writeCell s [])) h
    exact hrest
  | report entry next ih =>
    have hrest := ih (habove.step (.report s [])) h
    exact hrest

/-! ### The least height -/

theorem lowest_le (native : Native) (s : Machine) : native.lowest s ≤ s.stack.length := by
  induction native generalizing s with
  | finish outcome => exact Nat.le_refl _
  | push value next ih =>
    rw [Native.lowest_push]
    exact Nat.min_le_left _ _
  | pop next ih =>
    rw [Native.lowest_pop]
    exact Nat.min_le_left _ _
  | memorySize next ih => exact ih _ s
  | readMemory start length next ih => exact ih _ s
  | writeMemory start bytes next ih =>
    rw [Native.lowest_writeMemory]
    split
    · exact ih true _
    · exact ih false s
  | readCell cell next ih => exact ih _ s
  | writeCell cell bits next ih => exact ih _
  | report entry next ih => exact ih _

theorem lowest_push_le {value : Value} {next : Except Fault Unit → Native}
    {answer : Except Fault Unit} (h : observe (push value) s = .ok answer s') :
    (Native.push value next).lowest s ≤ (next answer).lowest s' := by
  rw [Native.lowest_push]
  unfold observe at h
  split at h
  · rename_i hrun
    cases h
    rw [hrun]
    exact Nat.min_le_right _ _
  · rename_i hrun
    cases h
    rw [hrun]
    exact Nat.min_le_right _ _

theorem lowest_pop_le {next : Except Fault Value → Native} {answer : Except Fault Value}
    (h : observe pop s = .ok answer s') :
    (Native.pop next).lowest s ≤ (next answer).lowest s' := by
  rw [Native.lowest_pop]
  unfold observe at h
  split at h
  · rename_i hrun
    cases h
    rw [hrun]
    exact Nat.min_le_right _ _
  · rename_i hrun
    cases h
    rw [hrun]
    exact Nat.min_le_right _ _

/-- The least height does not sink from one moment to the next. -/
theorem lowest_step_le {native next : Native} {callers callers' : List Frame}
    (h : Moment.Step m ⟨.native native, s, callers⟩ ⟨.native next, s', callers'⟩) :
    native.lowest s ≤ next.lowest s' := by
  cases h with
  | push hrun => exact lowest_push_le hrun
  | pop hrun => exact lowest_pop_le hrun
  | writeMemory hwrite => exact Nat.le_of_eq (by rw [Native.lowest_writeMemory, hwrite])
  | writeMemoryOutside hwrite => exact Nat.le_of_eq (by rw [Native.lowest_writeMemory, hwrite])
  | _ => exact Nat.le_refl _

/-- From a moment inside a native function one gets to its later moments and to its end. -/
theorem native_or_over {native : Native} {moment : Moment}
    (h : Moment.Step m ⟨.native native, s, []⟩ moment) :
    (∃ next s', moment = ⟨.native next, s', []⟩) ∨ moment = ⟨.over, s, []⟩ := by
  cases h with
  | finished => exact .inr rfl
  | _ => exact .inl ⟨_, _, rfl⟩

theorem staysAbove_of_le_lowest {native : Native} (h : height ≤ native.lowest s) :
    StaysAbove m height native s := by
  intro rest s' hreaches
  generalize hfirst : (⟨.native native, s, []⟩ : Moment) = first at hreaches
  induction hreaches using Relation.ReflTransGen.head_induction_on generalizing native s with
  | refl =>
    cases hfirst
    exact Nat.le_trans h (lowest_le _ _)
  | head hstep hrest ih =>
    subst hfirst
    rcases native_or_over hstep with ⟨next, s₁, rfl⟩ | rfl
    · exact ih (Nat.le_trans h (lowest_step_le hstep)) rfl
    · rcases Relation.ReflTransGen.cases_head hrest with hsame | ⟨_, hnone, -⟩
      · cases hsame
      · cases hnone

theorem StaysAbove.le_lowest {native : Native} (h : StaysAbove m height native s) :
    height ≤ native.lowest s := by
  induction native generalizing s with
  | finish outcome => exact h.now
  | push value next ih =>
    rw [Native.lowest_push]
    refine Nat.le_min.mpr ⟨h.now, ?_⟩
    cases hrun : Machine.push value s with
    | ok answer s' => exact ih (.ok answer) (h.step (.push (by rw [observe, hrun])))
    | error fault s' => exact ih (.error fault) (h.step (.push (by rw [observe, hrun])))
  | pop next ih =>
    rw [Native.lowest_pop]
    refine Nat.le_min.mpr ⟨h.now, ?_⟩
    cases hrun : Machine.pop s with
    | ok value s' => exact ih (.ok value) (h.step (.pop (by rw [observe, hrun])))
    | error fault s' => exact ih (.error fault) (h.step (.pop (by rw [observe, hrun])))
  | memorySize next ih => exact ih _ (h.step (.memorySize s []))
  | readMemory start length next ih => exact ih _ (h.step (.readMemory s []))
  | writeMemory start bytes next ih =>
    rw [Native.lowest_writeMemory]
    cases hwrite : s.memory.overwrite? start bytes with
    | none => exact ih false (h.step (.writeMemoryOutside hwrite))
    | some memory => exact ih true (h.step (.writeMemory hwrite))
  | readCell cell next ih => exact ih _ (h.step (.readCell s []))
  | writeCell cell bits next ih => exact ih (h.step (.writeCell s []))
  | report entry next ih => exact ih (h.step (.report s []))

/-- The program stays above its least height, and above no greater one. -/
theorem staysAbove_iff {native : Native} :
    StaysAbove m height native s ↔ height ≤ native.lowest s :=
  ⟨StaysAbove.le_lowest, staysAbove_of_le_lowest⟩

/-! ### Calls of native functions -/

/-- The operands below the base of the running activation are left as they were. -/
def KeepsBase (s s' : Machine) : Prop :=
  s.frame.stackBase ≤ s.stack.length →
    s'.frame = s.frame ∧ s.frame.stackBase ≤ s'.stack.length ∧
      s'.stack.toList.take s.frame.stackBase = s.stack.toList.take s.frame.stackBase

theorem covers_base (m : Module) : Covers m KeepsBase KeepsBase := by
  have htrans : ∀ {s s' s'' : Machine}, KeepsBase s s' → KeepsBase s' s'' → KeepsBase s s'' := by
    intro s s' s'' h h' hs
    obtain ⟨hframe, hle, hstack⟩ := h hs
    obtain ⟨hframe', hle', hstack'⟩ := h' (by rwa [hframe])
    rw [hframe] at hframe' hle' hstack'
    exact ⟨hframe', hle', hstack'.trans hstack⟩
  refine ⟨⟨fun _ hs => ⟨rfl, hs, rfl⟩, fun _ hs => ⟨rfl, hs, rfl⟩, htrans, htrans⟩, ?_⟩
  intro s s' h hs
  cases h with
  | push value hlt =>
    refine ⟨rfl, ?_, FixedVec.take_put hlt hs value⟩
    show s.frame.stackBase ≤ (s.stack.put value).length
    rw [FixedVec.length_put, if_pos hlt]
    omega
  | pop hlt =>
    refine ⟨rfl, ?_, FixedVec.take_pop hlt⟩
    show s.frame.stackBase ≤ s.stack.pop.length
    rw [FixedVec.length_pop]
    omega
  | _ => exact ⟨rfl, hs, rfl⟩

/-- `s'` is the machine when a call of the function in `s` has returned, to the host or to a
body. -/
def Returns (m : Module) (index : UInt32) (s s' : Machine) : Prop :=
  call m index s = .ok () s' ∨ invoke m index s = .ok () s'

theorem Returns.invoke_ok {index : UInt32} (h : Returns m index s s') :
    invoke m index s = .ok () s' := by
  rcases h with hcall | hinvoke
  · cases call_cases hcall with
    | returned hpoisoned hrun => exact hrun
  · exact hinvoke

/-- A call of a native function that returns had its inputs, and leaves as many operands as its
binding declares.  It has not touched the operands below its caller's base, nor those that its
program never got down to; so if the program only ever took its own inputs, exactly its outputs lie
above everything that lay below them. -/
theorem native_leaves_below {index typeIndex : UInt32} {position : Nat} {binding : FunctionBinding}
    (hindex : m.function? index = some (.imported position typeIndex))
    (hbinding : bindingOf m position = .function binding) (h : Returns m index s s') :
    (s.frame.stackBase + binding.inputs ≤ s.stack.length ∧
      s'.stack.length = s.stack.length - binding.inputs + binding.outputs) ∧
    s'.stack.toList.take s.frame.stackBase = s.stack.toList.take s.frame.stackBase ∧
    (∀ height, StaysAbove m height binding.callback (called position s) →
      s'.stack.toList.take height = s.stack.toList.take height) ∧
    (StaysAbove m (s.stack.length - binding.inputs) binding.callback (called position s) →
      ∃ outputs, outputs.length = binding.outputs ∧
        s'.stack.toList = s.stack.toList.take (s.stack.length - binding.inputs) ++ outputs) := by
  have hinvoke := h.invoke_ok
  rw [invoke_native hindex] at hinvoke
  cases callNative_cases hinvoke with
  | returned hother henough hrun hheight =>
    cases hbinding.symm.trans hother
    have hbelow : ∀ height, StaysAbove m height binding.callback (called position s) →
        s'.stack.toList.take height = s.stack.toList.take height :=
      fun height habove => take_of_staysAbove (s := called position s) habove hrun
    have hbase : s.frame.stackBase ≤ (called position s).stack.length := by
      show s.frame.stackBase ≤ s.stack.length
      omega
    obtain ⟨-, -, hstack⟩ := (keeps_native (covers_base m) _ _).of_ok hrun hbase
    refine ⟨⟨henough, hheight⟩, hstack, hbelow, fun habove => ?_⟩
    refine ⟨s'.stack.toList.drop (s.stack.length - binding.inputs), ?_, ?_⟩
    · rw [List.length_drop, FixedVec.length_toList]
      omega
    · rw [← hbelow _ habove, List.take_append_drop]

/-! ### A native function that is bound -/

theorem bindingOf_importingWith (callback : Native) :
    bindingOf (.importingWith callback) 0 = .function ⟨callback, 1, 1⟩ := by
  rw [bindingOf, FixedVec.get?_eq, Module.bindings_importingWith]
  rfl

/-- A machine for a module, with two integers on its stack. -/
def loaded (m : Module) : Option Machine :=
  (create m {} #[]).toOption.map (operate m [.push (.i32 1), .push (.i32 2)])

theorem reachable_of_loaded (h : s ∈ loaded m) : Reachable m s := by
  obtain ⟨fresh, hfresh, rfl⟩ := Option.map_eq_some_iff.mp h
  have hcreated : Reachable m fresh := .created (Action.ok_of_mem_toOption hfresh)
  exact .operated (.push (.i32 2)) (.operated (.push (.i32 1)) hcreated)

/-- A native function that pops its input and pushes an output. -/
def modest : Native := Script.native [.popI32, .push (.i32 3)]

/-- A native function that pops two operands and pushes two. -/
def greedy : Native := Script.native [.pop, .pop, .push (.i32 7), .push (.i32 8)]

/-- Both get through in the place of the import, on a machine with two integers. -/
theorem importing_calls :
    (∃ s ∈ loaded (.importingWith modest),
      (Module.importingWith modest).function? 0 = some (.imported 0 0) ∧
      s.stack.toList = [.i32 1, .i32 2] ∧ (call (.importingWith modest) 0).fault? s = none ∧
      1 ≤ modest.lowest (called 0 s)) ∧
    ∃ s ∈ loaded (.importingWith greedy),
      (Module.importingWith greedy).function? 0 = some (.imported 0 0) ∧
      s.stack.toList = [.i32 1, .i32 2] ∧ (call (.importingWith greedy) 0).fault? s = none ∧
      ((call (.importingWith greedy) 0).after s).stack.toList = [.i32 7, .i32 8] := by
  decide +kernel

/-- A native function that pops its input and pushes an output leaves the operand below. -/
theorem modest_leaves_below : ∃ m s s', m.Prepared ∧ Reachable m s ∧ call m 0 s = .ok () s' ∧
    s.stack.toList = [.i32 1, .i32 2] ∧
    ∃ outputs, outputs.length = 1 ∧ s'.stack.toList = [.i32 1] ++ outputs := by
  obtain ⟨s, hs, hindex, hstack, hfault, hlow⟩ := importing_calls.1
  obtain ⟨_, hcall⟩ := Action.run_of_fault?_none hfault
  have hheight : s.stack.length - 1 = 1 := by
    rw [← FixedVec.length_toList, hstack]
    rfl
  obtain ⟨-, -, -, hexact⟩ :=
    native_leaves_below hindex (bindingOf_importingWith modest) (.inl hcall)
  rw [hheight, hstack] at hexact
  exact ⟨_, s, _, Module.importingWith_prepared modest, reachable_of_loaded hs, hcall, hstack,
    hexact (staysAbove_iff.mpr hlow)⟩

/-- A native function with one input that pops two operands and pushes two gets through: the
operand below its input is another one afterwards. -/
theorem greedy_replaces_below : ∃ m s s' binding, m.Prepared ∧ Reachable m s ∧
    m.function? 0 = some (.imported 0 0) ∧ bindingOf m 0 = .function binding ∧
    binding.inputs = 1 ∧ binding.outputs = 1 ∧ call m 0 s = .ok () s' ∧
    s.stack.toList = [.i32 1, .i32 2] ∧ s'.stack.toList = [.i32 7, .i32 8] := by
  obtain ⟨s, hs, hindex, hstack, hfault, hafter⟩ := importing_calls.2
  obtain ⟨_, hcall⟩ := Action.run_of_fault?_none hfault
  exact ⟨_, s, _, _, Module.importingWith_prepared greedy, reachable_of_loaded hs, hindex,
    bindingOf_importingWith greedy, rfl, rfl, hcall, hstack, hafter⟩

end Machine

end BoundedWasm
