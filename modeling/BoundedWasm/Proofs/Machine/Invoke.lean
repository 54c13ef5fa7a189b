import BoundedWasm.FixedVec.Lemmas
import BoundedWasm.Proofs.Machine.Change

/-!
# BoundedWasm.Proofs.Machine.Invoke — the ways in which a call ends

`DefinedCall` and `NativeCall` list, once, everything that calling a function can do: which check
refuses it, and which state its body or its program starts from and ends in.  Calls open at most
`maxCallDepth` activations; since nothing a body does changes the depth it runs at
(`keepsDepth_invokeWithin`), the room that is left can be read off the machine, and `invoke`
satisfies the equations of a plain recursion (`invoke_native`, `invoke_defined`).
-/

namespace BoundedWasm.Machine

open BoundedWasm.Action Limits

variable {m : Module} {s : Machine}

/-! ### Opening a frame -/

/-- The first values of the declared locals of a body. -/
def zeros (groups : List LocalGroup) : List Value :=
  groups.flatMap fun group => List.replicate group.count.toNat (Value.zero group.valueType)

theorem zeros_cons (group : LocalGroup) (groups : List LocalGroup) :
    zeros (group :: groups)
      = List.replicate group.count.toNat (Value.zero group.valueType) ++ zeros groups := by
  unfold zeros
  rw [List.flatMap_cons]

theorem openLocals_cons (group : LocalGroup) (groups : List LocalGroup) (s : Machine) :
    openLocals (group :: groups) s =
      match s.locals.resize (s.locals.length + group.count.toNat) (Value.zero group.valueType) with
      | .ok locals => openLocals groups { s with locals }
      | .error fault => .error fault s := by
  conv => lhs; unfold openLocals
  rw [bind_run]
  simp only [get_run]
  cases s.locals.resize (s.locals.length + group.count.toNat) (Value.zero group.valueType) <;> rfl

/-- Opening locals changes nothing but the locals. -/
theorem openLocals_ends (groups : List LocalGroup) (s : Machine) :
    (openLocals groups).Ends s (fun _ s' => ∃ locals, s' = { s with locals })
      (fun _ s' => ∃ locals, s' = { s with locals }) := by
  induction groups generalizing s with
  | nil => exact ⟨s.locals, rfl⟩
  | cons group groups ih =>
    unfold Ends
    rw [openLocals_cons]
    cases s.locals.resize (s.locals.length + group.count.toNat) (Value.zero group.valueType) with
    | error fault => exact ⟨s.locals, rfl⟩
    | ok locals => exact ih { s with locals }

/-- Locals for which there is room are opened, at zero. -/
theorem openLocals_run {groups : List LocalGroup} {s : Machine}
    (hroom : (zeros groups).length ≤ s.locals.free) :
    openLocals groups s = .ok () { s with locals := s.locals.putAll (zeros groups) } := by
  induction groups generalizing s with
  | nil => rfl
  | cons group groups ih =>
    obtain ⟨first, hfirst⟩ : ∃ first, first
        = List.replicate group.count.toNat (Value.zero group.valueType) := ⟨_, rfl⟩
    have hcount : first.length = group.count.toNat := by rw [hfirst, List.length_replicate]
    rw [zeros_cons, ← hfirst, List.length_append, FixedVec.free] at hroom
    have hle := s.locals.length_le
    have hresize : s.locals.resize (s.locals.length + group.count.toNat)
        (Value.zero group.valueType) = .ok (s.locals.putAll first) := by
      unfold FixedVec.resize
      rw [if_neg (by omega), if_neg (by omega), Nat.add_sub_cancel_left, hfirst]
    have hlength : (s.locals.putAll first).length = s.locals.length + first.length := by
      rw [← FixedVec.length_toList, FixedVec.toList_putAll_of_le (by rw [FixedVec.free]; omega),
        List.length_append, FixedVec.length_toList]
    have hfree : (zeros groups).length ≤ (s.locals.putAll first).free := by
      rw [FixedVec.free, hlength]
      omega
    have hputAll : (s.locals.putAll first).putAll (zeros groups)
        = s.locals.putAll (first ++ zeros groups) := List.foldl_append.symm
    rw [openLocals_cons, hresize, zeros_cons, ← hfirst, ← hputAll]
    exact ih (s := { s with locals := s.locals.putAll first }) hfree

/-- The operands that become arguments of a call with `params` parameters. -/
def arguments (params : Nat) (s : Machine) : List Value :=
  s.stack.toList.drop (s.stack.length - params)

/-- The machine when the arguments have moved to the locals. -/
def moved (params : Nat) (s : Machine) : Machine :=
  { s with
    locals := s.locals.putAll (arguments params s)
    stack := s.stack.truncate (s.stack.length - params) }

theorem length_arguments {params : Nat} {s : Machine} (h : params ≤ s.stack.length) :
    (arguments params s).length = params := by
  rw [arguments, List.length_drop, FixedVec.length_toList]
  omega

/-- The frame of a call of `code` that is made in `s`. -/
def frameFor (code : Code) (type : FunctionType) (s : Machine) : Frame :=
  ⟨s.locals.length, type.params.length + code.numLocals.toNat,
    s.stack.length - type.params.length⟩

theorem openFrame_run (code : Code) (type : FunctionType) (s : Machine) :
    openFrame code type s =
      if s.stack.length < s.frame.stackBase + type.params.length then .error .stackUnderflow s
      else if (arguments type.params.length s).map Value.type ≠ type.params.toList then
        .error .argumentMismatch s
      else if s.locals.free < type.params.length + code.numLocals.toNat then
        .error .localsExhausted s
      else match openLocals code.locals.toList (moved type.params.length s) with
        | .ok _ s' => .ok (frameFor code type s) s'
        | .error fault s' => .error fault s' := by
  have hslice : s.stack.slice (s.stack.length - type.params.length) s.stack.length
      = arguments type.params.length s := by
    rw [FixedVec.toList_slice, List.take_of_length_le (by simp)]
    rfl
  unfold openFrame
  rw [bind_run]
  simp only [get_run]
  simp only [hslice]
  split
  · rfl
  rename_i henough
  split
  · rfl
  split
  · rfl
  rename_i hroom
  have hextend : s.locals.extend (arguments type.params.length s)
      = .ok (s.locals.putAll (arguments type.params.length s)) := by
    unfold FixedVec.extend
    rw [if_pos (by rw [length_arguments (by omega)]; omega)]
  rw [hextend]
  show (openLocals code.locals.toList >>= fun _ => pure (frameFor code type s))
    (moved type.params.length s) = _
  rw [bind_run]
  cases openLocals code.locals.toList (moved type.params.length s) <;> rfl

/-- Opening a frame touches the two stacks only. -/
theorem openFrame_ends (code : Code) (type : FunctionType) (s : Machine) :
    (openFrame code type).Ends s
      (fun frame s' => frame = frameFor code type s ∧ ∃ stack locals, s' = { s with stack, locals })
      (fun _ s' => ∃ stack locals, s' = { s with stack, locals }) := by
  have hsame : ∃ stack locals, s = { s with stack, locals } := ⟨s.stack, s.locals, rfl⟩
  unfold Ends
  rw [openFrame_run]
  split
  · rename_i heq
    split at heq
    · cases heq
    split at heq
    · cases heq
    split at heq
    · cases heq
    split at heq
    · rename_i hlocals
      cases heq
      obtain ⟨locals, rfl⟩ := (openLocals_ends _ _).of_ok hlocals
      exact ⟨rfl, (moved type.params.length s).stack, locals, rfl⟩
    · cases heq
  · rename_i heq
    split at heq
    · cases heq
      exact hsame
    split at heq
    · cases heq
      exact hsame
    split at heq
    · cases heq
      exact hsame
    split at heq
    · cases heq
    · rename_i hlocals
      cases heq
      obtain ⟨locals, rfl⟩ := (openLocals_ends _ _).of_error hlocals
      exact ⟨(moved type.params.length s).stack, locals, rfl⟩

/-! ### Calls of defined functions -/

/-- The machine when a body begins: one activation deeper, in a frame of its own. -/
def entered (position : Nat) (frame : Frame) (opened : Machine) : Machine :=
  { opened with
    frame
    depth := opened.depth + 1
    host := { opened.host with
      log := opened.host.log.push (.bodyEntered position (opened.depth + 1)) } }

/-- The machine when a body is left in `s`, back in the activation it was entered from. -/
def left (opened : Machine) (frame : Frame) (s : Machine) : Machine :=
  { s with
    depth := s.depth - 1
    frame := opened.frame
    locals := s.locals.truncate frame.localsBase }

/-- The machine after a fault inside a body or a native function. -/
def poison (s : Machine) : Machine := { s with poisoned := true }

/-- The function at `position` of the module exists, and its frame was opened in `s`. -/
structure Opened (m : Module) (position : Nat) (typeIndex : UInt32) (s : Machine) (code : Code)
    (type : FunctionType) (frame : Frame) (opened : Machine) : Prop where
  code_eq : m.codes.get? position = some code
  type_eq : m.types.get? typeIndex.toNat = some type
  open_eq : openFrame code type s = .ok frame opened

/-- The ends of a call of the defined function at `position` in `s`. -/
inductive DefinedCall (m : Module) (enter : UInt32 → Exec Unit) (position : Nat)
    (typeIndex : UInt32) (s : Machine) : EStateM.Result Fault Machine Unit → Prop
  | bodyMissing (hcode : m.codes.get? position = none) :
    DefinedCall m enter position typeIndex s (.error .bodyMissing s)
  | typeMissing {code : Code} (hcode : m.codes.get? position = some code)
    (htype : m.types.get? typeIndex.toNat = none) :
    DefinedCall m enter position typeIndex s (.error .functionTypeMissing s)
  | unopened {code : Code} {type : FunctionType} {fault : Fault} {s' : Machine}
    (hcode : m.codes.get? position = some code)
    (htype : m.types.get? typeIndex.toNat = some type)
    (hopen : openFrame code type s = .error fault s') :
    DefinedCall m enter position typeIndex s (.error fault s')
  | stretchMissing {code : Code} {type : FunctionType} {frame : Frame} {opened : Machine}
    {fault : Fault} (hopen : Opened m position typeIndex s code type frame opened)
    (hbody : m.body code = .error fault) :
    DefinedCall m enter position typeIndex s
      (.error fault (poison (left opened frame (entered position frame opened))))
  | failed {code : Code} {type : FunctionType} {frame : Frame} {opened : Machine}
    {body : List Instruction} {fault : Fault} {s' : Machine}
    (hopen : Opened m position typeIndex s code type frame opened)
    (hbody : m.body code = .ok body)
    (hrun : runBody m enter body (entered position frame opened) = .error fault s') :
    DefinedCall m enter position typeIndex s (.error fault (poison (left opened frame s')))
  | short {code : Code} {type : FunctionType} {frame : Frame} {opened : Machine}
    {body : List Instruction} {s' : Machine}
    (hopen : Opened m position typeIndex s code type frame opened)
    (hbody : m.body code = .ok body)
    (hrun : runBody m enter body (entered position frame opened) = .ok () s')
    (hshort : s'.stack.length < frame.stackBase + type.results.length) :
    DefinedCall m enter position typeIndex s
      (.error .stackUnderflow (poison (left opened frame s')))
  | returned {code : Code} {type : FunctionType} {frame : Frame} {opened : Machine}
    {body : List Instruction} {s' : Machine}
    (hopen : Opened m position typeIndex s code type frame opened)
    (hbody : m.body code = .ok body)
    (hrun : runBody m enter body (entered position frame opened) = .ok () s')
    (hlong : frame.stackBase + type.results.length ≤ s'.stack.length) :
    DefinedCall m enter position typeIndex s
      (.ok () { left opened frame s' with
        stack := s'.stack.keepEnds frame.stackBase type.results.length })

theorem withFrame_run (frame : Frame) (action : Exec Unit) (opened : Machine) :
    withFrame frame action opened =
      match action { opened with frame, depth := opened.depth + 1 } with
      | .ok _ s' => .ok () (left opened frame s')
      | .error fault s' => .error fault (left opened frame s') := rfl

theorem poisoning_run {α : Type} (action : Exec α) (s : Machine) :
    poisoning action s = match action s with
      | .ok a s' => .ok a s'
      | .error fault s' => .error fault (poison s') := rfl

/-- How the part of a call inside the new frame ends. -/
theorem inFrame_run (enter : UInt32 → Exec Unit) (position : Nat) (code : Code) (frame : Frame)
    (opened : Machine) :
    withFrame frame (do
      note (.bodyEntered position (← get).depth)
      runBody m enter (← Action.ofExcept (m.body code))) opened =
      match m.body code with
      | .error fault => .error fault (left opened frame (entered position frame opened))
      | .ok body =>
        match runBody m enter body (entered position frame opened) with
        | .ok _ s' => .ok () (left opened frame s')
        | .error fault s' => .error fault (left opened frame s') := by
  rw [withFrame_run]
  cases hbody : m.body code with
  | error fault => rfl
  | ok body =>
    show (match runBody m enter body (entered position frame opened) with
      | .ok _ s' => EStateM.Result.ok () (left opened frame s')
      | .error fault s' => .error fault (left opened frame s')) = _
    rfl

theorem closeOperands_run (stackBase results : Nat) (s : Machine) :
    closeOperands stackBase results s =
      if s.stack.length < stackBase + results then .error .stackUnderflow s
      else .ok () { s with stack := s.stack.keepEnds stackBase results } := by
  show (if s.stack.length < stackBase + results then throw .stackUnderflow else
    modify fun s => { s with stack := s.stack.keepEnds stackBase results } : Exec Unit) s = _
  split <;> rfl

section Lookup

variable {position : Nat} {typeIndex : UInt32} {code : Code} {type : FunctionType}

theorem callDefined_bodyMissing (hcode : m.codes.get? position = none)
    (enter : UInt32 → Exec Unit) (typeIndex : UInt32) (s : Machine) :
    callDefined m enter position typeIndex s = .error .bodyMissing s := by
  unfold callDefined
  rw [hcode]
  rfl

theorem callDefined_typeMissing (hcode : m.codes.get? position = some code)
    (htype : m.types.get? typeIndex.toNat = none) (enter : UInt32 → Exec Unit) (s : Machine) :
    callDefined m enter position typeIndex s = .error .functionTypeMissing s := by
  unfold callDefined
  rw [hcode, htype]
  rfl

/-- How a function runs whose body and type are there. -/
theorem callDefined_run (hcode : m.codes.get? position = some code)
    (htype : m.types.get? typeIndex.toNat = some type) (enter : UInt32 → Exec Unit) (s : Machine) :
    callDefined m enter position typeIndex s =
      match openFrame code type s with
      | .error fault s' => .error fault s'
      | .ok frame opened =>
        match m.body code with
        | .error fault => .error fault (poison (left opened frame (entered position frame opened)))
        | .ok body =>
          match runBody m enter body (entered position frame opened) with
          | .error fault s' => .error fault (poison (left opened frame s'))
          | .ok _ s' =>
            if s'.stack.length < frame.stackBase + type.results.length then
              .error .stackUnderflow (poison (left opened frame s'))
            else
              .ok () { left opened frame s' with
                stack := s'.stack.keepEnds frame.stackBase type.results.length } := by
  unfold callDefined
  rw [hcode, htype]
  simp only [bind_run]
  cases openFrame code type s with
  | error fault s' => rfl
  | ok frame opened =>
    simp only [poisoning_run, inFrame_run]
    cases m.body code with
    | error fault => rfl
    | ok body =>
      cases hrun : runBody m enter body (entered position frame opened) with
      | error fault s' => simp only [hrun]
      | ok _ s' =>
        have hleft : (left opened frame s').stack = s'.stack := rfl
        simp only [hrun, closeOperands_run, hleft]
        by_cases hshort : s'.stack.length < frame.stackBase + type.results.length
        · rw [if_pos hshort, if_pos hshort]
        · rw [if_neg hshort, if_neg hshort]

theorem callDefined_cases {enter : UInt32 → Exec Unit}
    {ending : EStateM.Result Fault Machine Unit}
    (h : callDefined m enter position typeIndex s = ending) :
    DefinedCall m enter position typeIndex s ending := by
  subst h
  cases hcode : m.codes.get? position with
  | none =>
    rw [callDefined_bodyMissing hcode]
    exact .bodyMissing hcode
  | some code =>
    cases htype : m.types.get? typeIndex.toNat with
    | none =>
      rw [callDefined_typeMissing hcode htype]
      exact .typeMissing hcode htype
    | some type =>
      rw [callDefined_run hcode htype]
      cases hopen : openFrame code type s with
      | error fault s' => exact .unopened hcode htype hopen
      | ok frame opened =>
        have hopened : Opened m position typeIndex s code type frame opened :=
          ⟨hcode, htype, hopen⟩
        cases hbody : m.body code with
        | error fault => exact .stretchMissing hopened hbody
        | ok body =>
          cases hrun : runBody m enter body (entered position frame opened) with
          | error fault s' =>
            simp only [hrun]
            exact .failed hopened hbody hrun
          | ok _ s' =>
            simp only [hrun]
            split
            · exact .short hopened hbody hrun ‹_›
            · exact .returned hopened hbody hrun (Nat.le_of_not_lt ‹_›)

end Lookup

/-! ### The depth of a machine -/

/-- Work of one activation leaves the machine at its depth. -/
def KeepsDepth {α : Type} (action : Exec α) : Prop :=
  Keeps (fun s s' => s'.depth = s.depth) (fun s s' => s'.depth = s.depth) action

theorem covers_depth (m : Module) :
    Covers m (fun s s' => s'.depth = s.depth) (fun s s' => s'.depth = s.depth) where
  refl _ := rfl
  fails _ := rfl
  trans h h' := h'.trans h
  trans_fails h h' := h'.trans h
  change h := by cases h <;> rfl

theorem Opened.depth_eq {position : Nat} {typeIndex : UInt32} {code : Code} {type : FunctionType}
    {frame : Frame} {opened : Machine}
    (h : Opened m position typeIndex s code type frame opened) : opened.depth = s.depth := by
  obtain ⟨-, stack, locals, rfl⟩ := (openFrame_ends code type s).of_ok h.open_eq
  rfl

theorem keepsDepth_callDefined {enter : UInt32 → Exec Unit}
    (henter : ∀ index, KeepsDepth (enter index)) (position : Nat) (typeIndex : UInt32) :
    KeepsDepth (callDefined m enter position typeIndex) := by
  intro s
  have hbody : ∀ body, KeepsDepth (runBody m enter body) := keeps_runBody (covers_depth m) henter
  unfold Ends
  generalize hend : callDefined m enter position typeIndex s = ending
  cases callDefined_cases hend with
  | bodyMissing hcode => rfl
  | typeMissing hcode htype => rfl
  | unopened hcode htype hopen =>
    obtain ⟨stack, locals, rfl⟩ := (openFrame_ends _ _ s).of_error hopen
    rfl
  | stretchMissing hopen hstretch =>
    have hdepth := hopen.depth_eq
    exact hdepth
  | failed hopen hstretch hrun =>
    have hdepth := (hbody _ _).of_error hrun
    exact (congrArg (· - 1) hdepth).trans hopen.depth_eq
  | short hopen hstretch hrun hshort =>
    have hdepth := (hbody _ _).of_ok hrun
    exact (congrArg (· - 1) hdepth).trans hopen.depth_eq
  | returned hopen hstretch hrun hlong =>
    have hdepth := (hbody _ _).of_ok hrun
    exact (congrArg (· - 1) hdepth).trans hopen.depth_eq

/-! ### Calls of native functions -/

/-- The machine when the native function of the import at `position` begins. -/
def called (position : Nat) (s : Machine) : Machine :=
  { s with host := { s.host with log := s.host.log.push (.nativeEntered position) } }

/-- The machine when the import at `position` turned out to be unbound. -/
def missed (m : Module) (position : Nat) (s : Machine) : Machine :=
  match m.imports.get? position with
  | none => s
  | some entry =>
    { s with host :=
      { s.host with log := s.host.log.push (.unboundCalled entry.moduleName entry.field) } }

/-- The ends of a call of the import at `position` in `s`. -/
inductive NativeCall (m : Module) (position : Nat) (s : Machine) :
    EStateM.Result Fault Machine Unit → Prop
  | unbound (hbinding : ∀ binding, bindingOf m position ≠ .function binding) :
    NativeCall m position s (.error .functionUnbound (missed m position s))
  | few {binding : FunctionBinding} (hbinding : bindingOf m position = .function binding)
    (hfew : s.stack.length < s.frame.stackBase + binding.inputs) :
    NativeCall m position s (.error .stackUnderflow s)
  | failed {binding : FunctionBinding} {fault : Fault} {s' : Machine}
    (hbinding : bindingOf m position = .function binding)
    (henough : s.frame.stackBase + binding.inputs ≤ s.stack.length)
    (hrun : binding.callback.run (called position s) = .error fault s') :
    NativeCall m position s (.error fault (poison s'))
  | uneven {binding : FunctionBinding} {s' : Machine}
    (hbinding : bindingOf m position = .function binding)
    (henough : s.frame.stackBase + binding.inputs ≤ s.stack.length)
    (hrun : binding.callback.run (called position s) = .ok () s')
    (hheight : s'.stack.length ≠ s.stack.length - binding.inputs + binding.outputs) :
    NativeCall m position s (.error .nativeHeight (poison s'))
  | returned {binding : FunctionBinding} {s' : Machine}
    (hbinding : bindingOf m position = .function binding)
    (henough : s.frame.stackBase + binding.inputs ≤ s.stack.length)
    (hrun : binding.callback.run (called position s) = .ok () s')
    (hheight : s'.stack.length = s.stack.length - binding.inputs + binding.outputs) :
    NativeCall m position s (.ok () s')

theorem callNative_run {position : Nat} {binding : FunctionBinding}
    (hbinding : bindingOf m position = .function binding) (s : Machine) :
    callNative m position s =
      if s.stack.length < s.frame.stackBase + binding.inputs then .error .stackUnderflow s
      else match binding.callback.run (called position s) with
        | .error fault s' => .error fault (poison s')
        | .ok _ s' =>
          if s'.stack.length ≠ s.stack.length - binding.inputs + binding.outputs then
            .error .nativeHeight (poison s')
          else .ok () s' := by
  unfold callNative
  rw [hbinding]
  simp only [bind_run, get_run]
  split
  · rfl
  · show poisoning _ (called position s) = _
    simp only [poisoning_run, bind_run]
    cases hrun : binding.callback.run (called position s) with
    | error fault s' => rfl
    | ok _ s' =>
      by_cases hheight : s'.stack.length ≠ s.stack.length - binding.inputs + binding.outputs
      · simp only [get_run, if_pos hheight]
        rfl
      · simp only [get_run, if_neg hheight]
        rfl

theorem missed_run (position : Nat) (s : Machine) :
    (do
      match m.imports.get? position with
      | some entry => note (.unboundCalled entry.moduleName entry.field)
      | none => pure ()
      throw .functionUnbound : Exec Unit) s = .error .functionUnbound (missed m position s) := by
  unfold missed
  cases m.imports.get? position <;> rfl

theorem callNative_run_unbound {position : Nat}
    (hbinding : ∀ binding, bindingOf m position ≠ .function binding) (s : Machine) :
    callNative m position s = .error .functionUnbound (missed m position s) := by
  have hmissed := missed_run (m := m) position s
  unfold callNative
  cases hslot : bindingOf m position with
  | function binding => exact absurd hslot (hbinding binding)
  | unbound => exact hmissed
  | cell id => exact hmissed

theorem callNative_cases {position : Nat} {ending : EStateM.Result Fault Machine Unit}
    (h : callNative m position s = ending) : NativeCall m position s ending := by
  subst h
  by_cases hbound : ∃ binding, bindingOf m position = .function binding
  · obtain ⟨binding, hbinding⟩ := hbound
    rw [callNative_run hbinding]
    split
    · exact .few hbinding ‹_›
    rename_i henough
    split
    · exact .failed hbinding (Nat.le_of_not_lt henough) ‹_›
    rename_i hrun
    split
    · exact .uneven hbinding (Nat.le_of_not_lt henough) hrun ‹_›
    · exact .returned hbinding (Nat.le_of_not_lt henough) hrun (Decidable.not_not.mp ‹_›)
  · have hbinding : ∀ binding, bindingOf m position ≠ .function binding :=
      fun binding hslot => hbound ⟨binding, hslot⟩
    rw [callNative_run_unbound hbinding]
    exact .unbound hbinding

theorem keepsDepth_callNative (position : Nat) : KeepsDepth (callNative m position) := by
  intro s
  have hnative : ∀ native : Native, KeepsDepth native.run := keeps_native (covers_depth m)
  unfold Ends
  generalize hend : callNative m position s = ending
  cases callNative_cases hend with
  | unbound hbinding =>
    show (missed m position s).depth = s.depth
    unfold missed
    split <;> rfl
  | few hbinding hfew => rfl
  | failed hbinding henough hrun =>
    have hdepth := (hnative _ _).of_error hrun
    exact hdepth
  | uneven hbinding henough hrun hheight =>
    have hdepth := (hnative _ _).of_ok hrun
    exact hdepth
  | returned hbinding henough hrun hheight =>
    have hdepth := (hnative _ _).of_ok hrun
    exact hdepth

/-! ### Calls by index -/

/-- A relation passes through calls of every kind when it passes through native functions, and
through defined ones as far as it passes through the calls that they make. -/
theorem keeps_invokeWithin {R E : Machine → Machine → Prop} (hC : Chains R E)
    (hnative : ∀ position, Keeps R E (callNative m position))
    (hdefined : ∀ {enter : UInt32 → Exec Unit}, (∀ index, Keeps R E (enter index)) →
      ∀ position typeIndex, Keeps R E (callDefined m enter position typeIndex))
    (room : Nat) (index : UInt32) : Keeps R E (invokeWithin m room index) := by
  have hcallBy : ∀ {defined : Nat → UInt32 → Exec Unit},
      (∀ position typeIndex, Keeps R E (defined position typeIndex)) →
      ∀ index, Keeps R E (callBy m defined index) := by
    intro defined h index
    unfold callBy
    split
    · exact .throw hC _
    · exact hnative _
    · exact h _ _
  induction room generalizing index with
  | zero => exact hcallBy (fun _ _ => .throw hC _) index
  | succ room ih => exact hcallBy (hdefined ih) index

theorem keepsDepth_invokeWithin (room : Nat) (index : UInt32) :
    KeepsDepth (invokeWithin m room index) :=
  keeps_invokeWithin (covers_depth m).toChains keepsDepth_callNative keepsDepth_callDefined room
    index

/-! ### The room that is left -/

theorem callInstruction_run {enter : UInt32 → Exec Unit} {work : Instruction → Exec Flow}
    (h : handler? m enter .call = some work) (i : Instruction) (s : Machine) :
    work i s = match i.index with
      | .error fault => .error fault s
      | .ok index =>
        match enter index s with
        | .ok _ s' => .ok .next s'
        | .error fault s' => .error fault s' := by
  cases h
  simp only [bind_run]
  cases i.index with
  | error fault => rfl
  | ok index =>
    simp only [ofExcept_ok_run]
    cases enter index s <;> rfl

/-- No other operation calls a function. -/
theorem handler?_of_ne_call {opcode : Opcode} (h : opcode ≠ .call)
    (enter enter' : UInt32 → Exec Unit) :
    handler? m enter opcode = handler? m enter' opcode := by
  have hwork : work? m enter opcode = work? m enter' opcode := by
    unfold work?
    split <;> first | rfl | exact absurd rfl h
  unfold handler?
  split
  · rfl
  · rw [hwork]

theorem handler?_of_ne_ret {opcode : Opcode} (h : opcode ≠ .ret) (enter : UInt32 → Exec Unit) :
    handler? m enter opcode = (work? m enter opcode).map fun work i => do
      work i
      return .next := by
  unfold handler?
  split
  · exact absurd rfl h
  · rfl

theorem runBody_cons (enter : UInt32 → Exec Unit) (i : Instruction) (rest : List Instruction)
    (s : Machine) :
    runBody m enter (i :: rest) s =
      match handler? m enter i.opcode with
      | none => (note (.opcodeUnsupported i.opcode) >>= fun _ => throw .opcodeUnsupported) s
      | some work =>
        match work i s with
        | .ok .next s' => runBody m enter rest s'
        | .ok .leave s' => .ok () s'
        | .error fault s' => .error fault s' := by
  conv => lhs; unfold runBody
  cases handler? m enter i.opcode with
  | none => rfl
  | some work =>
    simp only [bind_run]
    cases work i s with
    | error fault s' => rfl
    | ok flow s' => cases flow <;> rfl

theorem runBody_ret {i : Instruction} (h : i.opcode = .ret) (enter : UInt32 → Exec Unit)
    (rest : List Instruction) (s : Machine) : runBody m enter (i :: rest) s = .ok () s := by
  rw [runBody_cons, h]
  rfl

/-- Every other instruction is worked off, and the body goes on. -/
theorem runBody_work {i : Instruction} (h : i.opcode ≠ .ret) (enter : UInt32 → Exec Unit)
    (rest : List Instruction) (s : Machine) :
    runBody m enter (i :: rest) s =
      match work? m enter i.opcode with
      | none => (note (.opcodeUnsupported i.opcode) >>= fun _ => throw .opcodeUnsupported) s
      | some work =>
        match work i s with
        | .ok _ s' => runBody m enter rest s'
        | .error fault s' => .error fault s' := by
  rw [runBody_cons, handler?_of_ne_ret h]
  cases work? m enter i.opcode with
  | none => rfl
  | some work =>
    simp only [Option.map_some, bind_run]
    cases work i s <;> rfl

/-- A body only depends on how functions are called at its own depth. -/
theorem runBody_congr {enter enter' : UInt32 → Exec Unit} {depth : Nat}
    (henter : ∀ index, KeepsDepth (enter index))
    (hsame : ∀ s : Machine, s.depth = depth → ∀ index, enter index s = enter' index s)
    (instructions : List Instruction) {s : Machine} (hs : s.depth = depth) :
    runBody m enter instructions s = runBody m enter' instructions s := by
  induction instructions generalizing s with
  | nil => rfl
  | cons i rest ih =>
    rw [runBody_cons, runBody_cons]
    by_cases hcall : i.opcode = .call
    · obtain ⟨work, hwork⟩ : ∃ work, handler? m enter .call = some work := ⟨_, rfl⟩
      obtain ⟨work', hwork'⟩ : ∃ work, handler? m enter' .call = some work := ⟨_, rfl⟩
      rw [hcall, hwork, hwork']
      simp only [callInstruction_run hwork, callInstruction_run hwork']
      cases i.index with
      | error fault => rfl
      | ok index =>
        simp only [← hsame s hs index]
        cases hrun : enter index s with
        | error fault s' => rfl
        | ok _ s' => exact ih (((henter index s).of_ok hrun).trans hs)
    · rw [handler?_of_ne_call hcall enter' enter]
      cases hwork : handler? m enter i.opcode with
      | none => rfl
      | some work =>
        simp only []
        cases hrun : work i s with
        | error fault s' => rfl
        | ok flow s' =>
          cases flow with
          | leave => rfl
          | next =>
            have hdepth := (handler?_keeps (covers_depth m) henter hwork i s).of_ok hrun
            exact ih (hdepth.trans hs)

/-- Calls of one function only depend on how its body calls others. -/
theorem callDefined_congr {enter enter' : UInt32 → Exec Unit}
    (henter : ∀ index, KeepsDepth (enter index))
    (hsame : ∀ s' : Machine, s'.depth = s.depth + 1 → ∀ index, enter index s' = enter' index s')
    (position : Nat) (typeIndex : UInt32) :
    callDefined m enter position typeIndex s = callDefined m enter' position typeIndex s := by
  cases hcode : m.codes.get? position with
  | none => rw [callDefined_bodyMissing hcode, callDefined_bodyMissing hcode]
  | some code =>
    cases htype : m.types.get? typeIndex.toNat with
    | none => rw [callDefined_typeMissing hcode htype, callDefined_typeMissing hcode htype]
    | some type =>
      rw [callDefined_run hcode htype, callDefined_run hcode htype]
      cases hopen : openFrame code type s with
      | error fault s' => rfl
      | ok frame opened =>
        have hopened : Opened m position typeIndex s code type frame opened :=
          ⟨hcode, htype, hopen⟩
        have hdepth : (entered position frame opened).depth = s.depth + 1 :=
          congrArg (· + 1) hopened.depth_eq
        cases m.body code with
        | error fault => rfl
        | ok body => simp only [runBody_congr henter hsame body hdepth]

theorem invoke_run (index : UInt32) (s : Machine) :
    invoke m index s = invokeWithin m (maxCallDepth - s.depth) index s := rfl

theorem keepsDepth_invoke (index : UInt32) : KeepsDepth (invoke m index) :=
  fun s => keepsDepth_invokeWithin (maxCallDepth - s.depth) index s

theorem invoke_missing {index : UInt32} (h : m.function? index = none) (s : Machine) :
    invoke m index s = .error .functionOutOfRange s := by
  rw [invoke_run]
  cases maxCallDepth - s.depth <;> rw [invokeWithin, callBy, h] <;> rfl

theorem invoke_native {index : UInt32} {position : Nat} {typeIndex : UInt32}
    (h : m.function? index = some (.imported position typeIndex)) (s : Machine) :
    invoke m index s = callNative m position s := by
  rw [invoke_run]
  cases maxCallDepth - s.depth <;> rw [invokeWithin, callBy, h]

theorem invoke_deep {index : UInt32} {position : Nat} {typeIndex : UInt32}
    (h : m.function? index = some (.defined position typeIndex)) (hdepth : maxCallDepth ≤ s.depth) :
    invoke m index s = .error .callDepthReached s := by
  rw [invoke_run, Nat.sub_eq_zero_of_le hdepth, invokeWithin, callBy, h]
  rfl

theorem invoke_defined {index : UInt32} {position : Nat} {typeIndex : UInt32}
    (h : m.function? index = some (.defined position typeIndex)) (hdepth : s.depth < maxCallDepth) :
    invoke m index s = callDefined m (invoke m) position typeIndex s := by
  obtain ⟨room, hroom⟩ : ∃ room, maxCallDepth - s.depth = room + 1 :=
    ⟨maxCallDepth - s.depth - 1, by omega⟩
  rw [invoke_run, hroom, invokeWithin, callBy, h]
  refine callDefined_congr (keepsDepth_invokeWithin room) (fun s' hs' index => ?_) _ _
  rw [invoke_run, show maxCallDepth - s'.depth = room by omega]

end BoundedWasm.Machine
