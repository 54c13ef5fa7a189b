import BoundedWasm.Proofs.Machine.Alike
import BoundedWasm.Proofs.Machine.Session
import BoundedWasm.Proofs.Module.Runnable

/-!
# BoundedWasm.Proofs.Machine.Confinement — a callee does not see its caller

Two machines may differ in all that lies below the arguments of a call and in all open locals.  The
frames opened in them are alike, so the two bodies run alike, and what they leave agrees from the
place of the arguments on (`callDefined_together`).  Since each machine keeps its own lower part,
the callers cannot tell the machines apart either if they could not before, and so the argument goes
through calls inside bodies, by induction on the activations that may still open
(`parallel_invokeWithin`).
-/

namespace BoundedWasm

open BoundedWasm.Action Limits

namespace Machine

variable {m : Module} {s t s' t' : Machine} {params : Nat}

/-- How two machines are left by calls with `params` parameters: they agree on what is shared and on
all operands from the place of the arguments on, and each has its own lower operands and locals. -/
structure AlikeAfter (params : Nat) (s t s' t' : Machine) : Prop
    extends AlikeFrom (s.stack.length - params) s.locals.length s' t' where
  left : Restores params s s'
  right : Restores params t t'

/-! ### Poison and the log -/

theorem AlikeFrom.poison {operands window : Nat} (h : AlikeFrom operands window s t) :
    AlikeFrom operands window (Machine.poison s) (Machine.poison t) :=
  { h with poisoned := rfl }

theorem Alike.poison (h : Alike s t) : Alike (Machine.poison s) (Machine.poison t) :=
  ⟨h.toAlikeFrom.poison, h.framed.stackBase_le, h.framed.locals_length⟩

theorem AlikeAfter.poison (h : AlikeAfter params s t s' t') :
    AlikeAfter params s t (Machine.poison s') (Machine.poison t') :=
  ⟨h.toAlikeFrom.poison, h.left.of_poison, h.right.of_poison⟩

/-- Two calls that did nothing. -/
theorem AlikeFrom.after (h : AlikeFrom (s.stack.length - params) s.locals.length s t) :
    AlikeAfter params s t s t :=
  ⟨h, .refl params s, .refl params t⟩

/-! ### Opening a frame -/

section Callee

variable {code : Code} {type : FunctionType} {opened opened' : Machine} {position : Nat}

theorem AlikeFrom.arguments_eq {window : Nat}
    (h : AlikeFrom (s.stack.length - params) window s t) :
    arguments params t = arguments params s := by
  unfold arguments
  rw [h.height]
  exact h.stack

theorem AlikeFrom.frameFor_eq {operands window : Nat} (h : AlikeFrom operands window s t) :
    frameFor code type t = frameFor code type s := by
  unfold frameFor
  rw [h.height, h.length_locals]

/-- A call is kept from opening its frame by what it can see. -/
theorem Blocked.of_alikeFrom {window : Nat} {fault : Fault} (hblocked : Blocked code type s fault)
    (h : AlikeFrom (s.stack.length - type.params.length) window s t) :
    Blocked code type t fault := by
  have hfree : t.locals.free = s.locals.free := by
    unfold FixedVec.free
    rw [h.length_locals]
  cases hblocked with
  | underflow hfew =>
    rw [← h.height, ← h.frame] at hfew
    exact .underflow hfew
  | mismatch henough htypes =>
    rw [← h.arguments_eq] at htypes
    rw [← h.height, ← h.frame] at henough
    exact .mismatch henough htypes
  | exhausted henough htypes hroom =>
    rw [← h.arguments_eq] at htypes
    rw [← h.height, ← h.frame] at henough
    rw [← hfree] at hroom
    exact .exhausted henough htypes hroom

/-- What keeps the call from opening a frame in one machine does so in the other. -/
theorem openFrame_together (hcode : code.CountsLocals)
    (h : AlikeFrom (s.stack.length - type.params.length) s.locals.length s t) :
    (∃ fault, openFrame code type s = .error fault s ∧ openFrame code type t = .error fault t) ∨
      ∃ opened opened', openFrame code type s = .ok (frameFor code type s) opened ∧
        openFrame code type t = .ok (frameFor code type t) opened' ∧
        Opens code type s opened ∧ Opens code type t opened' := by
  have hopen := openFrame_cases hcode type s
  have hopen' := openFrame_cases hcode type t
  cases hrun : openFrame code type s with
  | error fault opened =>
    obtain ⟨rfl, hblocked⟩ := hopen.of_error hrun
    exact .inl ⟨fault, rfl, (hblocked.of_alikeFrom h).openFrame_error⟩
  | ok frame opened =>
    obtain ⟨rfl, hopens⟩ := hopen.of_ok hrun
    cases hrun' : openFrame code type t with
    | error fault opened' =>
      obtain ⟨rfl, hblocked⟩ := hopen'.of_error hrun'
      have hback := h.symm
      rw [← h.height] at hback
      cases hrun.symm.trans (hblocked.of_alikeFrom hback).openFrame_error
    | ok frame' opened' =>
      obtain ⟨rfl, hopens'⟩ := hopen'.of_ok hrun'
      exact .inr ⟨opened, opened', rfl, rfl, hopens, hopens'⟩

/-- The new activations cannot tell the machines apart: they start with no operands and with locals
that are the arguments and zeros. -/
theorem Opens.entered_alike (hs : Opens code type s opened) (ht : Opens code type t opened')
    (hcode : code.CountsLocals)
    (h : AlikeFrom (s.stack.length - type.params.length) s.locals.length s t) :
    Alike (entered position (frameFor code type s) opened)
      (entered position (frameFor code type t) opened') := by
  rw [h.frameFor_eq]
  have hheight : opened'.stack.length = opened.stack.length := by
    rw [hs.length_stack, ht.length_stack, h.height]
  have hlength : opened'.locals.length = opened.locals.length := by
    rw [hs.length_locals hcode, ht.length_locals hcode, h.length_locals]
  have hstack : opened'.stack.toList.drop (s.stack.length - type.params.length)
      = opened.stack.toList.drop (s.stack.length - type.params.length) := by
    rw [hs.stack, ht.stack, h.height, List.drop_eq_nil_of_le (List.length_take_le _ _),
      List.drop_eq_nil_of_le (List.length_take_le _ _)]
  have hlocals : opened'.locals.toList.drop s.locals.length
      = opened.locals.toList.drop s.locals.length := by
    rw [hs.locals, ht.locals, List.append_assoc, List.append_assoc,
      List.drop_left' (by rw [FixedVec.length_toList, h.length_locals]),
      List.drop_left' (FixedVec.length_toList _), h.arguments_eq]
  refine ⟨?_, hs.entered_framed hcode⟩
  obtain ⟨stack, locals, rfl⟩ := hs.others
  obtain ⟨stack', locals', rfl⟩ := ht.others
  exact {
    frame := rfl
    depth := congrArg (· + 1) h.depth
    poisoned := h.poisoned
    height := hheight
    stack := hstack
    length_locals := hlength
    locals := hlocals
    globals := h.globals
    memory := h.memory
    cells := h.cells }

/-- Two bodies that ran alike are left alike, each machine with its own lower part. -/
theorem Opens.left_alike (hs : Opens code type s opened) (ht : Opens code type t opened')
    (h : AlikeFrom (s.stack.length - type.params.length) s.locals.length s t)
    (hstays : (entered position (frameFor code type s) opened).Stays s')
    (hstays' : (entered position (frameFor code type t) opened').Stays t') (hends : Alike s' t') :
    AlikeAfter type.params.length s t (left opened (frameFor code type s) s')
      (left opened' (frameFor code type t) t') := by
  have hrestores := hs.left_restores hstays
  have hrestores' := ht.left_restores hstays'
  have hframe : s'.frame = frameFor code type s := hstays.frame
  have hlength := FixedVec.length_eq_of_toList hrestores.locals
  have hlength' := FixedVec.length_eq_of_toList hrestores'.locals
  have hstack := hends.stack
  rw [hframe] at hstack
  refine ⟨?_, hrestores, hrestores'⟩
  exact {
    frame := by rw [hrestores.frame, hrestores'.frame, h.frame]
    depth := by rw [hrestores.depth, hrestores'.depth, h.depth]
    poisoned := hends.poisoned
    height := hends.height
    stack := hstack
    length_locals := by rw [hlength, hlength', h.length_locals]
    locals := by rw [hrestores.locals, hrestores'.locals, h.locals]
    globals := hends.globals
    memory := hends.memory
    cells := hends.cells }

/-- The results that two bodies leave agree as well. -/
theorem Opens.returned_alike (hs : Opens code type s opened) (ht : Opens code type t opened')
    (h : AlikeFrom (s.stack.length - type.params.length) s.locals.length s t)
    (hstays : (entered position (frameFor code type s) opened).Stays s')
    (hstays' : (entered position (frameFor code type t) opened').Stays t') (hends : Alike s' t')
    {results : Nat} (hlong : (frameFor code type s).stackBase + results ≤ s'.stack.length)
    (hlong' : (frameFor code type t).stackBase + results ≤ t'.stack.length) :
    AlikeAfter type.params.length s t
      { left opened (frameFor code type s) s' with
        stack := s'.stack.keepEnds (frameFor code type s).stackBase results }
      { left opened' (frameFor code type t) t' with
        stack := t'.stack.keepEnds (frameFor code type t).stackBase results } := by
  have hleft := hs.left_alike ht h hstays hstays' hends
  have hframe : s'.frame = frameFor code type s := hstays.frame
  have hkept := hs.toList_keepEnds hstays hlong
  have hkept' := ht.toList_keepEnds hstays' hlong'
  have hresults : t'.stack.toList.drop (t'.stack.length - results)
      = s'.stack.toList.drop (s'.stack.length - results) := by
    rw [hends.height]
    refine (hends.mono ?_ (Nat.le_refl _)).stack
    rw [hframe]
    omega
  have hbelow : ∀ u : Machine, (u.stack.toList.take (u.stack.length - type.params.length)).length
      = u.stack.length - type.params.length := by
    intro u
    rw [List.length_take, FixedVec.length_toList]
    omega
  refine ⟨?_, hs.returned_restores hstays hlong, ht.returned_restores hstays' hlong'⟩
  refine { hleft.toAlikeFrom with height := ?_, stack := ?_ }
  · have hlength := congrArg List.length hkept
    have hlength' := congrArg List.length hkept'
    rw [List.length_append, hbelow, FixedVec.length_toList] at hlength hlength'
    show (t'.stack.keepEnds _ results).length = (s'.stack.keepEnds _ results).length
    rw [hlength, hlength', hresults, h.height]
  · show (t'.stack.keepEnds _ results).toList.drop _ = (s'.stack.keepEnds _ results).toList.drop _
    rw [hkept, hkept', List.drop_left' (hbelow s), List.drop_left' (by rw [hbelow, h.height]),
      hresults]

end Callee

/-! ### Calls of defined functions -/

/-- Called in two machines that agree from its arguments on, a function ends with the same answer or
the same fault and leaves them agreeing from the place of its arguments on. -/
theorem callDefined_together (hm : m.CountsLocals) {enter : UInt32 → Exec Unit}
    (hkeeps : ∀ index, Keeps Goes Fails (enter index)) (henter : ∀ index, Parallel (enter index))
    (position : Nat) {typeIndex : UInt32} {type : FunctionType}
    (htype : m.types.get? typeIndex.toNat = some type)
    (h : AlikeFrom (s.stack.length - type.params.length) s.locals.length s t) :
    Together (AlikeAfter type.params.length s t) (callDefined m enter position typeIndex s)
      (callDefined m enter position typeIndex t) := by
  cases hcode : m.codes.get? position with
  | none =>
    rw [callDefined_bodyMissing hcode, callDefined_bodyMissing hcode]
    exact .error _ h.after
  | some code =>
    have hcount := hm.of_get? hcode
    have hbody : ∀ body, Keeps Goes Fails (runBody m enter body) :=
      keeps_runBody (covers_frames m) hkeeps
    rw [callDefined_run hcode htype, callDefined_run hcode htype]
    rcases openFrame_together hcount h with
      ⟨fault, hopen, hopen'⟩ | ⟨opened, opened', hopen, hopen', hopens, hopens'⟩
    · rw [hopen, hopen']
      exact .error fault h.after
    rw [hopen, hopen']
    have hframed : (entered position (frameFor code type s) opened).Framed :=
      hopens.entered_framed hcount
    have hframed' : (entered position (frameFor code type t) opened').Framed :=
      hopens'.entered_framed hcount
    have hentered : Alike (entered position (frameFor code type s) opened)
        (entered position (frameFor code type t) opened') :=
      hopens.entered_alike hopens' hcount h
    cases m.body code with
    | error fault =>
      exact .error fault
        (hopens.left_alike hopens' h (.refl hframed) (.refl hframed') hentered).poison
    | ok body =>
      simp only []
      rcases (parallel_runBody henter body _ _ hentered).endings with
        ⟨fault, s', t', hs, ht, hends⟩ | ⟨⟨⟩, s', t', hs, ht, hends⟩
      · have hstays := (hbody body _).of_error hs hframed
        have hstays' := (hbody body _).of_error ht hframed'
        simp only [hs, ht]
        exact .error fault (hopens.left_alike hopens' h hstays hstays' hends).poison
      · obtain ⟨hstays, -⟩ := (hbody body _).of_ok hs hframed
        obtain ⟨hstays', -⟩ := (hbody body _).of_ok ht hframed'
        have hbase : (frameFor code type t).stackBase = (frameFor code type s).stackBase := by
          rw [h.frameFor_eq]
        simp only [hs, ht]
        by_cases hshort : s'.stack.length < (frameFor code type s).stackBase + type.results.length
        · rw [if_pos hshort, if_pos (by rwa [hbase, hends.height])]
          exact .error _ (hopens.left_alike hopens' h hstays hstays' hends).poison
        · have hlong := Nat.le_of_not_lt hshort
          have hlong' : (frameFor code type t).stackBase + type.results.length
              ≤ t'.stack.length := by rwa [hbase, hends.height]
          rw [if_neg hshort, if_neg (Nat.not_lt.mpr hlong')]
          exact .ok () (hopens.returned_alike hopens' h hstays hstays' hends hlong hlong')

/-- Callers that could not tell the machines apart cannot do so after the calls. -/
theorem AlikeAfter.alike (h : AlikeAfter params s t s' t') (hst : Alike s t)
    (henough : s.frame.stackBase + params ≤ s.stack.length) : Alike s' t' := by
  have hstays := h.left.stays hst.framed henough
  have hlower : t'.stack.toList.take (s.stack.length - params)
      = t.stack.toList.take (s.stack.length - params) := by
    rw [← hst.height]
    exact h.right.stack
  -- the caller's operands are its lower ones, which the call has kept, and those from the arguments
  have hsplit : ∀ {xs ys : List Value} {base top : Nat}, xs.take top = ys.take top →
      xs.drop base = (ys.drop base).take (top - base) ++ xs.drop (base + (top - base)) := by
    intro xs ys base top heq
    rw [← List.drop_take, ← heq, List.drop_take, ← List.drop_drop, List.take_append_drop]
  refine ⟨?_, hstays.framed⟩
  rw [h.left.frame]
  refine { h.toAlikeFrom with stack := ?_, locals := ?_ }
  · rw [hsplit hlower, hsplit h.left.stack, hst.stack,
      Nat.add_sub_cancel' (by omega), h.toAlikeFrom.stack]
  · rw [h.left.locals, h.right.locals, hst.locals]

theorem parallel_callDefined (hm : m.CountsLocals) {enter : UInt32 → Exec Unit}
    (hkeeps : ∀ index, Keeps Goes Fails (enter index)) (henter : ∀ index, Parallel (enter index))
    (position : Nat) (typeIndex : UInt32) : Parallel (callDefined m enter position typeIndex) := by
  intro s t h
  cases hcode : m.codes.get? position with
  | none =>
    rw [callDefined_bodyMissing hcode, callDefined_bodyMissing hcode]
    exact .error _ h
  | some code =>
    cases htype : m.types.get? typeIndex.toNat with
    | none =>
      rw [callDefined_typeMissing hcode htype, callDefined_typeMissing hcode htype]
      exact .error _ h
    | some type =>
      by_cases henough : s.frame.stackBase + type.params.length ≤ s.stack.length
      · have hwindow : s.frame.localsBase ≤ s.locals.length := by
          have hlocals := h.framed.locals_length
          omega
        have hfrom : AlikeFrom (s.stack.length - type.params.length) s.locals.length s t :=
          h.mono (by omega) hwindow
        exact (callDefined_together hm hkeeps henter position htype hfrom).mono
          fun _ _ hafter => hafter.alike h henough
      · have hfew := Nat.lt_of_not_le henough
        have hfew' : t.stack.length < t.frame.stackBase + type.params.length := by
          rwa [h.height, h.frame]
        have hblocked : Blocked code type s .stackUnderflow := .underflow hfew
        have hblocked' : Blocked code type t .stackUnderflow := .underflow hfew'
        rw [callDefined_run hcode htype, callDefined_run hcode htype, hblocked.openFrame_error,
          hblocked'.openFrame_error]
        exact .error _ h

/-! ### Calls of native functions -/

theorem parallel_callNative (position : Nat) : Parallel (callNative m position) := by
  intro s t h
  by_cases hbound : ∃ binding, bindingOf m position = .function binding
  · obtain ⟨binding, hbinding⟩ := hbound
    have hcalled : Alike (called position s) (called position t) := h.of_log _ _
    rw [callNative_run hbinding, callNative_run hbinding, h.height, h.frame]
    by_cases hfew : s.stack.length < s.frame.stackBase + binding.inputs
    · rw [if_pos hfew, if_pos hfew]
      exact .error _ h
    rw [if_neg hfew, if_neg hfew]
    rcases (parallel_native binding.callback _ _ hcalled).endings with
      ⟨fault, s', t', hs, ht, hends⟩ | ⟨⟨⟩, s', t', hs, ht, hends⟩
    · simp only [hs, ht]
      exact .error fault hends.poison
    · simp only [hs, ht, hends.height]
      by_cases hheight : s'.stack.length ≠ s.stack.length - binding.inputs + binding.outputs
      · rw [if_pos hheight, if_pos hheight]
        exact .error _ hends.poison
      · rw [if_neg hheight, if_neg hheight]
        exact .ok () hends
  · have hbinding : ∀ binding, bindingOf m position ≠ .function binding :=
      fun binding hslot => hbound ⟨binding, hslot⟩
    rw [callNative_run_unbound hbinding, callNative_run_unbound hbinding]
    refine .error _ ?_
    unfold missed
    cases m.imports.get? position with
    | none => exact h
    | some entry => exact h.of_log _ _

/-! ### All calls -/

theorem parallel_invokeWithin (hm : m.CountsLocals) (room : Nat) (index : UInt32) :
    Parallel (invokeWithin m room index) := by
  have hcallBy : ∀ {defined : Nat → UInt32 → Exec Unit},
      (∀ position typeIndex, Parallel (defined position typeIndex)) →
      ∀ index, Parallel (callBy m defined index) := by
    intro defined h index
    unfold callBy
    split
    · exact .throw _
    · exact parallel_callNative _
    · exact h _ _
  induction room generalizing index with
  | zero => exact hcallBy (fun _ _ => .throw _) index
  | succ room ih =>
    have hkeeps : ∀ index, Keeps Goes Fails (invokeWithin m room index) :=
      keeps_invokeWithin (covers_frames m).toChains keeps_callNative (keeps_callDefined hm) room
    exact hcallBy (parallel_callDefined hm hkeeps ih) index

theorem parallel_invoke (hm : m.CountsLocals) (index : UInt32) : Parallel (invoke m index) := by
  intro s t h
  rw [invoke_run, invoke_run, h.depth]
  exact parallel_invokeWithin hm _ index s t h

/-! ### Two callers -/

theorem AlikeAfter.settled (h : AlikeAfter params s t s' t') (index : UInt32) (fault : Fault) :
    AlikeAfter params s t (Machine.settled index fault s') (Machine.settled index fault t') := by
  unfold Machine.settled
  rw [h.poisoned]
  split
  · obtain ⟨hfrom, hleft, hright⟩ := h
    exact ⟨{ hfrom with poisoned := rfl },
      ⟨hleft.frame, hleft.depth, hleft.locals, hleft.height, hleft.stack⟩,
      ⟨hright.frame, hright.depth, hright.locals, hright.height, hright.stack⟩⟩
  · exact h

/-- A callee does not see its caller.  Take two machines that agree in shape, frame and poison, on
globals, memory and cells and on the arguments of a function of the module, whatever their other
operands and their locals are.  Calling the function in both, from a body or by the host, ends with
the same answer or the same fault; afterwards they agree on globals, memory and cells and on all
operands from the place of the arguments on, and each has its own lower operands and its own
locals. -/
theorem callee_blind_to_caller (hm : m.Prepared) {index : UInt32} {position : Nat}
    {typeIndex : UInt32} {type : FunctionType}
    (hindex : m.function? index = some (.defined position typeIndex))
    (htype : m.types.get? typeIndex.toNat = some type)
    (h : AlikeFrom (s.stack.length - type.params.length) s.locals.length s t) :
    Together (AlikeAfter type.params.length s t) (invoke m index s) (invoke m index t) ∧
      Together (AlikeAfter type.params.length s t) (call m index s) (call m index t) := by
  have hinvoke : Together (AlikeAfter type.params.length s t) (invoke m index s)
      (invoke m index t) := by
    by_cases hdepth : s.depth < maxCallDepth
    · rw [invoke_defined hindex hdepth, invoke_defined hindex (by rwa [h.depth])]
      exact callDefined_together hm.countsLocals (keeps_invoke hm.countsLocals)
        (parallel_invoke hm.countsLocals) position htype h
    · have hdeep := Nat.le_of_not_lt hdepth
      rw [invoke_deep hindex hdeep, invoke_deep hindex (by rwa [h.depth])]
      exact .error _ h.after
  refine ⟨hinvoke, ?_⟩
  rw [call_run, call_run, h.poisoned]
  split
  · exact .error _ h.after
  · rcases hinvoke.endings with ⟨fault, s', t', hs, ht, hends⟩ | ⟨⟨⟩, s', t', hs, ht, hends⟩
    · simp only [hs, ht]
      exact .error fault (hends.settled index fault)
    · simp only [hs, ht]
      exact .ok () hends

/-- The sample machine with another operand below the five. -/
def adderMachineOver (lower : Value) : Machine :=
  { adderMachine with stack := (FixedVec.empty.put lower).put (.i32 5) }

/-- Over different operands, of different types, the second function of the sample module answers
the same. -/
theorem adder_blind_to_caller : ∃ s' t',
    invoke .adder 1 (adderMachineOver (.i32 1)) = .ok () s' ∧
    invoke .adder 1 (adderMachineOver (.f32 2)) = .ok () t' ∧
    AlikeAfter 1 (adderMachineOver (.i32 1)) (adderMachineOver (.f32 2)) s' t' ∧
    s'.stack.toList = [.i32 1, .i32 12] ∧ t'.stack.toList = [.f32 2, .i32 12] := by
  have hindex : Module.adder.function? 1 = some (.defined 1 1) := by decide +kernel
  obtain ⟨type, htype⟩ := Module.adder_prepared.exists_type hindex
  have hparams : type.params.length = 1 := by
    have hlookup : (Module.adder.types.get? 1).map (fun type => type.params.length) = some 1 := by
      decide +kernel
    rw [show Module.adder.types.get? 1 = some type from htype] at hlookup
    simpa using hlookup
  have halike : AlikeFrom 1 (adderMachineOver (.i32 1)).locals.length (adderMachineOver (.i32 1))
      (adderMachineOver (.f32 2)) :=
    { frame := rfl, depth := rfl, poisoned := rfl, height := by decide +kernel
      stack := by decide +kernel, length_locals := rfl, locals := rfl, globals := rfl, memory := rfl
      cells := fun _ => rfl }
  have hanswers : Action.fault? (invoke .adder 1) (adderMachineOver (.i32 1)) = none := by
    decide +kernel
  have hstack : ∀ lower ∈ [Value.i32 1, .f32 2],
      (Action.after (invoke .adder 1) (adderMachineOver lower)).stack.toList
        = [lower, .i32 12] := by
    decide +kernel
  have hheight : (adderMachineOver (.i32 1)).stack.length = 2 := by decide +kernel
  obtain ⟨hends, -⟩ := callee_blind_to_caller Module.adder_prepared hindex htype
    (s := adderMachineOver (.i32 1)) (t := adderMachineOver (.f32 2))
    (by rw [hheight, hparams]; exact halike)
  rw [hparams] at hends
  rcases hends.endings with ⟨fault, s', t', hs, ht, hends⟩ | ⟨⟨⟩, s', t', hs, ht, hends⟩
  · rw [fault?, hs] at hanswers
    cases hanswers
  · have hs' := hstack (.i32 1) (by decide)
    have ht' := hstack (.f32 2) (by decide)
    rw [after, hs] at hs'
    rw [after, ht] at ht'
    exact ⟨s', t', hs, ht, hends, hs', ht'⟩

end Machine

end BoundedWasm
