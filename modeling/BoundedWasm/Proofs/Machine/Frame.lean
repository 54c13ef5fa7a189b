import BoundedWasm.Proofs.Machine.Invoke
import BoundedWasm.Proofs.Module.WellFormed

/-!
# BoundedWasm.Proofs.Machine.Frame — activations on two shared stacks

An activation owns the operands above its base and the last `numLocals` locals (`Machine.Framed`).
Whatever it does, and whatever the functions do that it calls, ends in the same frame with nothing
changed below it (`Machine.Stays`), in faults as in answers.  For a call of a defined function
everything but the operands from its arguments on is restored (`Machine.Restores`).
-/

namespace BoundedWasm

open BoundedWasm.Action Limits

/-- Every body declares as many locals as its groups have. -/
def Module.CountsLocals (m : Module) : Prop := ∀ code ∈ m.codes.toList, code.CountsLocals

theorem Module.CountsLocals.of_get? {m : Module} (hm : m.CountsLocals) {position : Nat}
    {code : Code} (h : m.codes.get? position = some code) : code.CountsLocals := by
  rw [FixedVec.get?_eq] at h
  exact hm code (List.mem_of_getElem? h)

namespace Machine

variable {m : Module} {s s' : Machine}

/-- The running activation has its operands and its locals at the ends of the two stacks. -/
structure Framed (s : Machine) : Prop where
  stackBase_le : s.frame.stackBase ≤ s.stack.length
  locals_length : s.frame.localsBase + s.frame.numLocals = s.locals.length

/-- `s'` is `s` after work of the running activation. -/
structure Stays (s s' : Machine) : Prop where
  frame : s'.frame = s.frame
  depth : s'.depth = s.depth
  framed : s'.Framed
  stack : s'.stack.toList.take s.frame.stackBase = s.stack.toList.take s.frame.stackBase
  locals : s'.locals.toList.take s.frame.localsBase = s.locals.toList.take s.frame.localsBase

theorem Stays.refl (h : s.Framed) : s.Stays s := ⟨rfl, rfl, h, rfl, rfl⟩

theorem Stays.trans {s'' : Machine} (h : s.Stays s') (h' : s'.Stays s'') : s.Stays s'' := by
  refine ⟨h'.frame.trans h.frame, h'.depth.trans h.depth, h'.framed, ?_, ?_⟩
  · rw [← h.stack, ← h.frame]
    exact h'.stack
  · rw [← h.locals, ← h.frame]
    exact h'.locals

theorem Stays.of_poison (h : s.Stays s') : s.Stays (poison s') :=
  ⟨h.frame, h.depth, ⟨h.framed.stackBase_le, h.framed.locals_length⟩, h.stack, h.locals⟩

/-- How an activation goes on, and how it is left by a fault. -/
def Goes (s s' : Machine) : Prop := s.Framed → s.Stays s' ∧ s'.poisoned = s.poisoned

def Fails (s s' : Machine) : Prop := s.Framed → s.Stays s'

/-! ### Elementary changes -/

/-- A local of the running activation lies above those of its callers. -/
theorem localSlot?_eq_some (hs : s.Framed) {index : UInt32} {slot : Nat}
    (h : s.frame.localSlot? index = some slot) :
    slot = s.frame.localsBase + index.toNat ∧ index.toNat < s.frame.numLocals := by
  unfold Frame.localSlot? at h
  split at h
  · rename_i hlt
    cases h
    have hlocals := hs.locals_length
    have hcap : s.locals.length ≤ 1024 := s.locals.length_le
    exact ⟨Nat.mod_eq_of_lt (Nat.lt_of_lt_of_le (by omega) (by decide : 1024 ≤ UInt64.size)), hlt⟩
  · cases h

theorem Stays.put (h : s.Framed) {value : Value} (hlt : s.stack.length < maxOperandStack) :
    s.Stays { s with stack := s.stack.put value } := by
  have hle := h.stackBase_le
  refine ⟨rfl, rfl, ⟨?_, h.locals_length⟩, ?_, rfl⟩
  · show s.frame.stackBase ≤ (s.stack.put value).length
    rw [FixedVec.length_put, if_pos hlt]
    omega
  · exact FixedVec.take_put hlt hle value

theorem Stays.pop (h : s.Framed) (hlt : s.frame.stackBase < s.stack.length) :
    s.Stays { s with stack := s.stack.pop } := by
  refine ⟨rfl, rfl, ⟨?_, h.locals_length⟩, FixedVec.take_pop hlt, rfl⟩
  show s.frame.stackBase ≤ s.stack.pop.length
  rw [FixedVec.length_pop]
  omega

theorem Stays.setLocal (h : s.Framed) {index : UInt32} {slot : Nat} (value : Value)
    (hslot : s.frame.localSlot? index = some slot) :
    s.Stays { s with locals := s.locals.set slot value } := by
  obtain ⟨rfl, -⟩ := localSlot?_eq_some h hslot
  refine ⟨rfl, rfl, ⟨h.stackBase_le, ?_⟩, rfl, ?_⟩
  · show _ = (s.locals.set _ value).length
    rw [FixedVec.length_set]
    exact h.locals_length
  · show (s.locals.set _ value).toList.take _ = _
    rw [FixedVec.toList_set, List.take_set_of_le (Nat.le_add_right _ _)]

theorem Stays.of_stacks (h : s.Framed) (hframe : s'.frame = s.frame) (hdepth : s'.depth = s.depth)
    (hstack : s'.stack = s.stack) (hlocals : s'.locals = s.locals) : s.Stays s' := by
  refine ⟨hframe, hdepth, ⟨?_, ?_⟩, by rw [hstack], by rw [hlocals]⟩
  · rw [hframe, hstack]
    exact h.stackBase_le
  · rw [hframe, hlocals]
    exact h.locals_length

theorem covers_frames (m : Module) : Covers m Goes Fails where
  refl _ := fun h => ⟨.refl h, rfl⟩
  fails _ := fun h => .refl h
  trans h h' := fun hs => by
    obtain ⟨hstays, hpoison⟩ := h hs
    obtain ⟨hstays', hpoison'⟩ := h' hstays.framed
    exact ⟨hstays.trans hstays', hpoison'.trans hpoison⟩
  trans_fails h h' := fun hs => by
    obtain ⟨hstays, -⟩ := h hs
    exact hstays.trans (h' hstays.framed)
  change h := fun hs => by
    cases h with
    | push value hlt => exact ⟨.put hs hlt, rfl⟩
    | pop hlt => exact ⟨.pop hs hlt, rfl⟩
    | setLocal value hslot hold htype => exact ⟨.setLocal hs value hslot, rfl⟩
    | _ => exact ⟨.of_stacks hs rfl rfl rfl rfl, rfl⟩

/-! ### Opening a frame -/

theorem length_zeros (groups : List LocalGroup) :
    (zeros groups).length = LocalGroup.total groups := by
  induction groups with
  | nil => rfl
  | cons group groups ih =>
    rw [zeros_cons, List.length_append, ih, List.length_replicate]
    rfl

/-- The checks that a call makes before it opens a frame; each leaves the machine as it is. -/
inductive Blocked (code : Code) (type : FunctionType) (s : Machine) : Fault → Prop
  | underflow (hfew : s.stack.length < s.frame.stackBase + type.params.length) :
    Blocked code type s .stackUnderflow
  | mismatch (henough : s.frame.stackBase + type.params.length ≤ s.stack.length)
    (htypes : (arguments type.params.length s).map Value.type ≠ type.params.toList) :
    Blocked code type s .argumentMismatch
  | exhausted (henough : s.frame.stackBase + type.params.length ≤ s.stack.length)
    (htypes : (arguments type.params.length s).map Value.type = type.params.toList)
    (hroom : s.locals.free < type.params.length + code.numLocals.toNat) :
    Blocked code type s .localsExhausted

theorem Blocked.openFrame_error {code : Code} {type : FunctionType} {fault : Fault}
    (h : Blocked code type s fault) : openFrame code type s = .error fault s := by
  rw [openFrame_run]
  cases h with
  | underflow hfew => rw [if_pos hfew]
  | mismatch henough htypes => rw [if_neg (Nat.not_lt.mpr henough), if_pos htypes]
  | exhausted henough htypes hroom =>
    rw [if_neg (Nat.not_lt.mpr henough), if_neg (not_not_intro htypes), if_pos hroom]

/-- The machine with a frame opened in `s`: the arguments have moved, the other locals are zero. -/
structure Opens (code : Code) (type : FunctionType) (s opened : Machine) : Prop where
  enough : s.frame.stackBase + type.params.length ≤ s.stack.length
  types : (arguments type.params.length s).map Value.type = type.params.toList
  room : type.params.length + code.numLocals.toNat ≤ s.locals.free
  stack : opened.stack.toList = s.stack.toList.take (s.stack.length - type.params.length)
  locals : opened.locals.toList = s.locals.toList ++ arguments type.params.length s
    ++ zeros code.locals.toList
  others : ∃ stack locals, opened = { s with stack, locals }

theorem openFrame_cases {code : Code} (hcode : code.CountsLocals) (type : FunctionType)
    (s : Machine) :
    (openFrame code type).Ends s
      (fun frame opened => frame = frameFor code type s ∧ Opens code type s opened)
      (fun fault s' => s' = s ∧ Blocked code type s fault) := by
  unfold Ends
  rw [openFrame_run]
  by_cases hfew : s.stack.length < s.frame.stackBase + type.params.length
  · rw [if_pos hfew]
    exact ⟨rfl, .underflow hfew⟩
  rw [if_neg hfew]
  have henough := Nat.le_of_not_lt hfew
  by_cases htypes : (arguments type.params.length s).map Value.type = type.params.toList
  · rw [if_neg (not_not_intro htypes)]
    by_cases hroom : s.locals.free < type.params.length + code.numLocals.toNat
    · rw [if_pos hroom]
      exact ⟨rfl, .exhausted henough htypes hroom⟩
    rw [if_neg hroom]
    have hcount : (arguments type.params.length s).length = type.params.length :=
      length_arguments (by omega)
    have hroom' := Nat.le_of_not_lt hroom
    have hmoved : (moved type.params.length s).locals.toList
        = s.locals.toList ++ arguments type.params.length s :=
      FixedVec.toList_putAll_of_le (by omega)
    have hfree : (zeros code.locals.toList).length
        ≤ (moved type.params.length s).locals.free := by
      have hnum := hcode.numLocals_eq
      have hlength := congrArg List.length hmoved
      rw [List.length_append, FixedVec.length_toList, FixedVec.length_toList] at hlength
      rw [length_zeros, FixedVec.free]
      unfold FixedVec.free at hroom'
      omega
    rw [openLocals_run hfree]
    refine ⟨rfl, henough, htypes, hroom', ?_, ?_, _, _, rfl⟩
    · exact FixedVec.toList_truncate _ _
    · show ((moved type.params.length s).locals.putAll _).toList = _
      rw [FixedVec.toList_putAll_of_le hfree, hmoved]
  · rw [if_pos htypes]
    exact ⟨rfl, .mismatch henough htypes⟩

theorem Opened.opens (hm : m.CountsLocals) {position : Nat} {typeIndex : UInt32} {code : Code}
    {type : FunctionType} {frame : Frame} {opened : Machine}
    (h : Opened m position typeIndex s code type frame opened) :
    code.CountsLocals ∧ frame = frameFor code type s ∧ Opens code type s opened := by
  have hcode := hm.of_get? h.code_eq
  exact ⟨hcode, (openFrame_cases hcode type s).of_ok h.open_eq⟩

/-! ### Leaving a frame -/

/-- `s'` is `s` after a call with `params` parameters: all but the arguments is as it was, and
something may have been put in their place. -/
structure Restores (params : Nat) (s s' : Machine) : Prop where
  frame : s'.frame = s.frame
  depth : s'.depth = s.depth
  locals : s'.locals.toList = s.locals.toList
  height : s.stack.length - params ≤ s'.stack.length
  stack : s'.stack.toList.take (s.stack.length - params)
    = s.stack.toList.take (s.stack.length - params)

theorem Restores.refl (params : Nat) (s : Machine) : Restores params s s :=
  ⟨rfl, rfl, rfl, Nat.sub_le _ _, rfl⟩

theorem Restores.of_poison {params : Nat} (h : Restores params s s') :
    Restores params s (poison s') :=
  ⟨h.frame, h.depth, h.locals, h.height, h.stack⟩

theorem Restores.stays {params : Nat} (h : Restores params s s') (hs : s.Framed)
    (henough : s.frame.stackBase + params ≤ s.stack.length) : s.Stays s' := by
  have hheight := h.height
  refine ⟨h.frame, h.depth, ⟨?_, ?_⟩, ?_, by rw [h.locals]⟩
  · rw [h.frame]
    omega
  · rw [h.frame, FixedVec.length_eq_of_toList h.locals]
    exact hs.locals_length
  · have htake := congrArg (List.take s.frame.stackBase) h.stack
    rwa [List.take_take, List.take_take, Nat.min_eq_left (by omega)] at htake

section Callee

variable {code : Code} {type : FunctionType} {opened : Machine} {position : Nat}

theorem Opens.length_stack (h : Opens code type s opened) :
    opened.stack.length = s.stack.length - type.params.length := by
  have hlength := congrArg List.length h.stack
  rw [List.length_take, FixedVec.length_toList, FixedVec.length_toList] at hlength
  omega

theorem Opens.length_locals (h : Opens code type s opened) (hcode : code.CountsLocals) :
    opened.locals.length = s.locals.length + (type.params.length + code.numLocals.toNat) := by
  have hlength := congrArg List.length h.locals
  have hparams : (arguments type.params.length s).length = type.params.length :=
    length_arguments (by have := h.enough; omega)
  have hcount := hcode.numLocals_eq
  rw [List.length_append, List.length_append, hparams, length_zeros, FixedVec.length_toList,
    FixedVec.length_toList] at hlength
  omega

theorem Opens.entered_framed (h : Opens code type s opened) (hcode : code.CountsLocals) :
    (entered position (frameFor code type s) opened).Framed :=
  ⟨Nat.le_of_eq h.length_stack.symm, (h.length_locals hcode).symm⟩

/-- A body that stayed in its frame is left with the caller's part of the machine restored. -/
theorem Opens.left_restores (h : Opens code type s opened)
    (hstays : (entered position (frameFor code type s) opened).Stays s') :
    Restores type.params.length s (left opened (frameFor code type s) s') := by
  obtain ⟨stack, locals, hothers⟩ := h.others
  have hframe : s'.frame = frameFor code type s := hstays.frame
  have hheight := hstays.framed.stackBase_le
  rw [hframe] at hheight
  refine ⟨?_, ?_, ?_, hheight, ?_⟩
  · show opened.frame = s.frame
    rw [hothers]
  · have hdepth : s'.depth = opened.depth + 1 := hstays.depth
    show s'.depth - 1 = s.depth
    rw [hdepth, hothers]
    rfl
  · have hlocals : s'.locals.toList.take s.locals.length
        = opened.locals.toList.take s.locals.length := hstays.locals
    show (s'.locals.truncate s.locals.length).toList = s.locals.toList
    rw [FixedVec.toList_truncate, hlocals, h.locals, List.append_assoc, ← FixedVec.length_toList,
      List.take_left]
  · have hstack : s'.stack.toList.take (s.stack.length - type.params.length)
        = opened.stack.toList.take (s.stack.length - type.params.length) := hstays.stack
    show s'.stack.toList.take _ = _
    rw [hstack, h.stack, List.take_take, Nat.min_self]

/-- The operands after a call that returned: those below the arguments, and the results. -/
theorem Opens.toList_keepEnds (h : Opens code type s opened)
    (hstays : (entered position (frameFor code type s) opened).Stays s') {results : Nat}
    (hlong : (frameFor code type s).stackBase + results ≤ s'.stack.length) :
    (s'.stack.keepEnds (frameFor code type s).stackBase results).toList
      = s.stack.toList.take (s.stack.length - type.params.length)
        ++ s'.stack.toList.drop (s'.stack.length - results) := by
  rw [FixedVec.toList_keepEnds _ _ _ hlong]
  exact congrArg (· ++ _) (h.left_restores hstays).stack

theorem Opens.returned_restores (h : Opens code type s opened)
    (hstays : (entered position (frameFor code type s) opened).Stays s') {results : Nat}
    (hlong : (frameFor code type s).stackBase + results ≤ s'.stack.length) :
    Restores type.params.length s { left opened (frameFor code type s) s' with
      stack := s'.stack.keepEnds (frameFor code type s).stackBase results } := by
  have hleft := h.left_restores hstays
  have hkeep := h.toList_keepEnds hstays hlong
  have hbelow : (s.stack.toList.take (s.stack.length - type.params.length)).length
      = s.stack.length - type.params.length := by
    rw [List.length_take, FixedVec.length_toList]
    omega
  refine ⟨hleft.frame, hleft.depth, hleft.locals, ?_, ?_⟩
  · have hlength := congrArg List.length hkeep
    rw [FixedVec.length_toList, List.length_append, hbelow] at hlength
    show _ ≤ (s'.stack.keepEnds _ results).length
    omega
  · show (s'.stack.keepEnds _ results).toList.take _ = _
    rw [hkeep, List.take_append_of_le_length (by omega), List.take_take, Nat.min_self]

end Callee

/-! ### Calls -/

theorem keeps_callDefined (hm : m.CountsLocals) {enter : UInt32 → Exec Unit}
    (henter : ∀ index, Keeps Goes Fails (enter index)) (position : Nat) (typeIndex : UInt32) :
    Keeps Goes Fails (callDefined m enter position typeIndex) := by
  intro s
  have hbody : ∀ body, Keeps Goes Fails (runBody m enter body) :=
    keeps_runBody (covers_frames m) henter
  unfold Ends
  generalize hend : callDefined m enter position typeIndex s = ending
  cases callDefined_cases hend with
  | bodyMissing hcode => exact fun hs => .refl hs
  | typeMissing hcode htype => exact fun hs => .refl hs
  | unopened hcode htype hopen =>
    obtain ⟨rfl, -⟩ := (openFrame_cases (hm.of_get? hcode) _ s).of_error hopen
    exact fun hs => .refl hs
  | stretchMissing hopen hstretch =>
    intro hs
    obtain ⟨hcode, rfl, hopens⟩ := hopen.opens hm
    have hstays : (entered position (frameFor _ _ s) _).Stays _ :=
      .refl (hopens.entered_framed hcode)
    exact ((hopens.left_restores hstays).stays hs hopens.enough).of_poison
  | failed hopen hstretch hrun =>
    intro hs
    obtain ⟨hcode, rfl, hopens⟩ := hopen.opens hm
    have hstays := (hbody _ _).of_error hrun (hopens.entered_framed hcode)
    exact ((hopens.left_restores hstays).stays hs hopens.enough).of_poison
  | short hopen hstretch hrun hshort =>
    intro hs
    obtain ⟨hcode, rfl, hopens⟩ := hopen.opens hm
    obtain ⟨hstays, -⟩ := (hbody _ _).of_ok hrun (hopens.entered_framed hcode)
    exact ((hopens.left_restores hstays).stays hs hopens.enough).of_poison
  | returned hopen hstretch hrun hlong =>
    intro hs
    obtain ⟨hcode, rfl, hopens⟩ := hopen.opens hm
    obtain ⟨hstays, hpoisoned⟩ := (hbody _ _).of_ok hrun (hopens.entered_framed hcode)
    obtain ⟨stack, locals, rfl⟩ := hopens.others
    exact ⟨(hopens.returned_restores hstays hlong).stays hs hopens.enough, hpoisoned⟩

theorem keeps_callNative (position : Nat) : Keeps Goes Fails (callNative m position) := by
  intro s
  have hnative : ∀ native : Native, Keeps Goes Fails native.run := keeps_native (covers_frames m)
  unfold Ends
  generalize hend : callNative m position s = ending
  cases callNative_cases hend with
  | unbound hbinding =>
    intro hs
    show s.Stays (missed m position s)
    unfold missed
    split
    · exact .refl hs
    · exact .of_stacks hs rfl rfl rfl rfl
  | few hbinding hfew => exact fun hs => .refl hs
  | failed hbinding henough hrun =>
    intro hs
    have hcalled : s.Stays (called position s) := .of_stacks hs rfl rfl rfl rfl
    exact (hcalled.trans ((hnative _ _).of_error hrun hcalled.framed)).of_poison
  | uneven hbinding henough hrun hheight =>
    intro hs
    have hcalled : s.Stays (called position s) := .of_stacks hs rfl rfl rfl rfl
    obtain ⟨hstays, -⟩ := (hnative _ _).of_ok hrun hcalled.framed
    exact (hcalled.trans hstays).of_poison
  | returned hbinding henough hrun hheight =>
    intro hs
    have hcalled : s.Stays (called position s) := .of_stacks hs rfl rfl rfl rfl
    obtain ⟨hstays, hpoisoned⟩ := (hnative _ _).of_ok hrun hcalled.framed
    exact ⟨hcalled.trans hstays, hpoisoned⟩

/-- A call, of whatever function and however it ends, stays in the frame it is made in. -/
theorem keeps_invoke (hm : m.CountsLocals) (index : UInt32) :
    Keeps Goes Fails (invoke m index) :=
  fun s => keeps_invokeWithin (covers_frames m).toChains keeps_callNative (keeps_callDefined hm)
    (maxCallDepth - s.depth) index s

end Machine

end BoundedWasm
