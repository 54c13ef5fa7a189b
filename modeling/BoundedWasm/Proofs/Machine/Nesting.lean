import BoundedWasm.Proofs.Machine.Discipline

/-!
# BoundedWasm.Proofs.Machine.Nesting — the activations that are open, and their locals

`Moment.Nested` follows a run and says which defined functions have activations open at a moment,
the running one first.  The window of each on the stack of locals holds a value for every parameter
and every declared local of its function, of the declared type (`Windows`), however the run got
there: a call starts with arguments of the right types and zeros, a local only takes values of its
type, and a call that comes back gives back the locals as they were.
-/

namespace BoundedWasm

open BoundedWasm.Action Limits Machine

/-- A defined function as it runs. -/
structure Activation where
  type : FunctionType
  code : Code

/-- The types of its locals: the parameters, then the declared groups. -/
def Activation.localTypes (a : Activation) : List ValueType :=
  a.type.params.toList
    ++ a.code.locals.toList.flatMap fun group => List.replicate group.count.toNat group.valueType

/-- The types of the values on a stack. -/
def FixedVec.types {cap : Nat} (v : FixedVec Value cap) : List ValueType := v.toList.map Value.type

theorem FixedVec.length_types {cap : Nat} (v : FixedVec Value cap) : v.types.length = v.length := by
  rw [types, List.length_map, length_toList]

namespace Moment

variable {m : Module}

/-- A call opens an activation. -/
inductive Enters (m : Module) : Activation → Moment → Moment → Prop
  | mk {index : UInt32} {position : Nat} {typeIndex : UInt32} {code : Code} {type : FunctionType}
    {frame : Frame} {body : List Instruction} {s opened : Machine} {callers : List Frame}
    (hindex : m.function? index = some (.defined position typeIndex))
    (hdepth : s.depth < maxCallDepth)
    (hopen : Opened m position typeIndex s code type frame opened)
    (hbody : m.body code = .ok body) :
    Enters m ⟨type, code⟩ ⟨.calling index, s, callers⟩
      ⟨.body body, entered position frame opened, s.frame :: callers⟩

/-- The activations that were opened since `origin` and are open at a moment, the running one
first. -/
inductive Nested (m : Module) (origin : Moment) : List Activation → Moment → Prop
  | here : Nested m origin [] origin
  | enter {a : Activation} {outer : List Activation} {moment moment' : Moment}
    (h : Nested m origin outer moment) (henters : Enters m a moment moment') :
    Nested m origin (a :: outer) moment'
  | step {activations : List Activation} {moment moment' : Moment}
    (h : Nested m origin activations moment) (hstep : Step m moment moment')
    (hcallers : moment'.callers = moment.callers) : Nested m origin activations moment'

theorem Enters.step {a : Activation} {moment moment' : Moment} (h : Enters m a moment moment') :
    Step m moment moment' := by
  cases h with
  | mk hindex hdepth hopen hbody => exact .enterBody hindex hdepth hopen hbody

/-- A step opens an activation or stays among those that are open. -/
theorem Step.enters_or_callers {moment moment' : Moment} (h : Step m moment moment') :
    (∃ a, Enters m a moment moment') ∨ moment'.callers = moment.callers := by
  cases h with
  | enterBody hindex hdepth hopen hbody => exact .inl ⟨_, .mk hindex hdepth hopen hbody⟩
  | _ => exact .inr rfl

theorem Nested.reaches {origin moment : Moment} {activations : List Activation}
    (h : Nested m origin activations moment) : Reaches m origin moment := by
  induction h with
  | here => exact .refl
  | enter _ henters ih => exact .tail ih henters.step
  | step _ hstep _ ih => exact .tail ih hstep

/-- At every moment of a run the open activations are known. -/
theorem exists_nested {origin moment : Moment} (h : Reaches m origin moment) :
    ∃ activations, Nested m origin activations moment := by
  induction h with
  | refl => exact ⟨[], .here⟩
  | tail _ hstep ih =>
    obtain ⟨activations, hnested⟩ := ih
    rcases hstep.enters_or_callers with ⟨a, henters⟩ | hcallers
    · exact ⟨a :: activations, .enter hnested henters⟩
    · exact ⟨activations, .step hnested hstep hcallers⟩

/-- Each open activation has a caller that waits for it. -/
theorem Nested.length_callers {index : UInt32} {s : Machine} {moment : Moment}
    {activations : List Activation} (h : Nested m (start index s) activations moment) :
    moment.callers.length = activations.length := by
  induction h with
  | here => rfl
  | enter _ henters ih =>
    cases henters with
    | mk => exact congrArg (· + 1) ih
  | step _ _ hcallers ih => rwa [hcallers]

/-- A body is only run by an open activation. -/
theorem Nested.ne_nil_of_body {index : UInt32} {s : Machine} {moment : Moment}
    {activations : List Activation} {rest : List Instruction}
    (h : Nested m (start index s) activations moment) (hstage : moment.stage = .body rest) :
    activations ≠ [] := by
  induction h generalizing rest with
  | here => cases hstage
  | enter => exact List.cons_ne_nil _ _
  | step _ hstep hcallers ih =>
    cases hstep with
    | next hwork hrun => exact ih rfl
    | leave hwork hrun => exact ih rfl
    | enterBody => exact absurd hcallers (by simp)
    | _ => cases hstage

end Moment

/-! ### Locals keep their types -/

namespace Machine

variable {m : Module} {s s' : Machine}

/-- Whatever is done in a frame leaves it standing, with locals of the same types. -/
def Retypes (s s' : Machine) : Prop := s.Framed → s.Stays s' ∧ s'.locals.types = s.locals.types

theorem types_set {cap : Nat} (v : FixedVec Value cap) {slot : Nat} {old value : Value}
    (hold : v.get? slot = some old) (htype : old.type = value.type) :
    (v.set slot value).types = v.types := by
  unfold FixedVec.types
  rw [FixedVec.get?_eq] at hold
  obtain ⟨hlt, hold⟩ := List.getElem?_eq_some_iff.mp hold
  rw [FixedVec.toList_set, List.map_set, ← htype, ← hold, ← List.getElem_map Value.type]
  · exact List.set_getElem_self _
  · simpa using hlt

theorem covers_retypes (m : Module) : Covers m Retypes Retypes where
  refl _ := fun h => ⟨.refl h, rfl⟩
  fails _ := fun h => ⟨.refl h, rfl⟩
  trans h h' := fun hs => by
    obtain ⟨hstays, htypes⟩ := h hs
    obtain ⟨hstays', htypes'⟩ := h' hstays.framed
    exact ⟨hstays.trans hstays', htypes'.trans htypes⟩
  trans_fails h h' := fun hs => by
    obtain ⟨hstays, htypes⟩ := h hs
    obtain ⟨hstays', htypes'⟩ := h' hstays.framed
    exact ⟨hstays.trans hstays', htypes'.trans htypes⟩
  change h := fun hs => by
    obtain ⟨hstays, -⟩ := (covers_frames m).change h hs
    refine ⟨hstays, ?_⟩
    cases h with
    | setLocal value hslot hold htype => exact types_set _ hold htype
    | _ => rfl

theorem Retypes.of_poison (h : Retypes s s') : Retypes s (poison s') := fun hs =>
  ⟨(h hs).1.of_poison, (h hs).2⟩

/-- A relation that passes through elementary changes, and does not mind the flag, passes through
calls of native functions. -/
theorem keeps_callNative_of {R : Machine → Machine → Prop} (hR : Covers m R R)
    (hpoison : ∀ {s s'}, R s s' → R s (poison s')) (position : Nat) :
    Keeps R R (callNative m position) := by
  intro s
  have hnative : ∀ native : Native, Keeps R R native.run := keeps_native hR
  have hcalled : R s (called position s) := hR.change (.note (.nativeEntered position))
  unfold Ends
  generalize hend : callNative m position s = ending
  cases callNative_cases hend with
  | unbound hbinding =>
    show R s (missed m position s)
    unfold missed
    split
    · exact hR.refl s
    · exact hR.change (.note _)
  | few hbinding hfew => exact hR.refl s
  | failed hbinding henough hrun =>
    exact hpoison (hR.trans hcalled ((hnative _ _).of_error hrun))
  | uneven hbinding henough hrun hheight =>
    exact hpoison (hR.trans hcalled ((hnative _ _).of_ok hrun))
  | returned hbinding henough hrun hheight => exact hR.trans hcalled ((hnative _ _).of_ok hrun)

theorem keeps_retypes_invoke (hm : m.Prepared) (index : UInt32) :
    Keeps Retypes Retypes (invoke m index) := by
  intro s
  cases hindex : m.function? index with
  | none =>
    unfold Ends
    rw [invoke_missing hindex]
    exact (covers_retypes m).refl s
  | some function =>
    cases function with
    | imported position typeIndex =>
      unfold Ends
      rw [invoke_native hindex]
      exact keeps_callNative_of (covers_retypes m) Retypes.of_poison position s
    | defined position typeIndex =>
      obtain ⟨type, htype⟩ := hm.exists_type hindex
      refine ends_of (fun _ s' hrun hs => ?_) (fun fault s' hrun hs => ?_)
      · obtain ⟨hstays, -⟩ := (keeps_invoke hm.countsLocals index s).of_ok hrun hs
        obtain ⟨hrestores, -⟩ := (invoke_restores hm.countsLocals hs [] hindex htype).of_ok hrun
        exact ⟨hstays, congrArg (List.map Value.type) hrestores.locals⟩
      · have hstays := (keeps_invoke hm.countsLocals index s).of_error hrun hs
        have hrestores := (invoke_restores hm.countsLocals hs [] hindex htype).of_error hrun
        exact ⟨hstays, congrArg (List.map Value.type) hrestores.locals⟩

/-- A relation of elementary changes and of calls holds along every step that stays among the open
activations. -/
theorem related_of_step {R : Machine → Machine → Prop} (hR : Covers m R R)
    (hinvoke : ∀ index, Keeps R R (invoke m index)) {moment moment' : Moment}
    (hstep : Moment.Step m moment moment') (hcallers : moment'.callers = moment.callers) :
    R moment.machine moment'.machine := by
  have hwork : ∀ {opcode : Opcode} {work : Instruction → Exec Flow},
      handler? m (invoke m) opcode = some work → ∀ i, Keeps R R (work i) :=
    handler?_keeps hR hinvoke
  have hpush : ∀ value, Keeps R R (observe (push value)) :=
    fun value => keeps_observe (keeps_push hR value)
  have hpop : Keeps R R (observe pop) := keeps_observe (keeps_pop hR)
  cases hstep with
  | enterNative hindex hbinding henough => exact hR.change (.note _)
  | enterBody => exact absurd hcallers (by simp)
  | returned index s callers => exact (hinvoke index).after s
  | call hopcode hindex => exact hR.refl _
  | next hhandler hrun => exact (hwork hhandler _ _).of_ok hrun
  | leave hhandler hrun => exact (hwork hhandler _ _).of_ok hrun
  | failed hhandler hrun => exact (hwork hhandler _ _).of_error hrun
  | unsupported hhandler => exact hR.change (.note _)
  | push hrun => exact (hpush _ _).of_ok hrun
  | pop hrun => exact (hpop _).of_ok hrun
  | memorySize s callers => exact hR.refl s
  | readMemory s callers => exact hR.refl s
  | writeMemory hwrite => exact hR.change (.overwrite hwrite)
  | writeMemoryOutside hwrite => exact hR.refl _
  | readCell s callers => exact hR.refl s
  | writeCell s callers => exact hR.change (.writeCell _ _)
  | report s callers => exact hR.change (.report _)
  | finished s callers => exact hR.refl s

theorem types_zeros (groups : List LocalGroup) :
    (zeros groups).map Value.type
      = groups.flatMap fun group => List.replicate group.count.toNat group.valueType := by
  unfold zeros
  rw [List.map_flatMap]
  simp

/-- A frame is opened with locals of the types that the function declares. -/
theorem Opens.locals_types {code : Code} {type : FunctionType} {opened : Machine}
    (h : Opens code type s opened) :
    opened.locals.types = s.locals.types ++ (Activation.mk type code).localTypes := by
  unfold FixedVec.types Activation.localTypes
  rw [h.locals, List.map_append, List.map_append, h.types, types_zeros, List.append_assoc]

end Machine

/-! ### Windows -/

/-- The windows of open activations on the stack of locals, the types of whose values are given: the
first window is on top, and what lies below it are the windows of the others. -/
def Windows : List Frame → List Activation → List ValueType → Prop
  | _, [], types => types = []
  | [], _ :: _, _ => False
  | frame :: callers, a :: outer, types =>
    frame.numLocals = a.localTypes.length ∧ types.drop frame.localsBase = a.localTypes ∧
      Windows callers outer (types.take frame.localsBase)

/-- Each window holds values of the types that its function declares. -/
theorem Windows.types_eq {frames : List Frame} {activations : List Activation}
    {types : List ValueType} (h : Windows frames activations types) {n : Nat} {frame : Frame}
    {a : Activation} (hframe : frames[n]? = some frame) (ha : activations[n]? = some a) :
    frame.numLocals = a.localTypes.length ∧
      (types.drop frame.localsBase).take frame.numLocals = a.localTypes := by
  induction n generalizing frames activations types with
  | zero =>
    obtain ⟨first, outer, rfl⟩ := List.exists_cons_of_ne_nil (List.ne_nil_of_mem
      (List.mem_of_getElem? ha))
    obtain ⟨top, callers, rfl⟩ := List.exists_cons_of_ne_nil (List.ne_nil_of_mem
      (List.mem_of_getElem? hframe))
    cases hframe
    cases ha
    obtain ⟨hnum, htop, -⟩ := h
    refine ⟨hnum, ?_⟩
    rw [htop, hnum, List.take_length]
  | succ n ih =>
    obtain ⟨first, outer, rfl⟩ := List.exists_cons_of_ne_nil (List.ne_nil_of_mem
      (List.mem_of_getElem? ha))
    obtain ⟨top, callers, rfl⟩ := List.exists_cons_of_ne_nil (List.ne_nil_of_mem
      (List.mem_of_getElem? hframe))
    obtain ⟨-, -, hbelow⟩ := h
    obtain ⟨hnum, hwindow⟩ := ih hbelow (by simpa using hframe) (by simpa using ha)
    refine ⟨hnum, ?_⟩
    rw [List.drop_take, List.take_take] at hwindow
    have hlength := congrArg List.length hwindow
    rw [← hnum, List.length_take] at hlength
    rwa [Nat.min_eq_left (by omega)] at hwindow

namespace Moment

variable {m : Module}

/-- The open activations of a moment have their windows on its stack of locals. -/
def Housed (activations : List Activation) (moment : Moment) : Prop :=
  Windows (moment.machine.frame :: moment.callers) activations moment.machine.locals.types

theorem length_groupTypes (groups : List LocalGroup) :
    (groups.flatMap fun group => List.replicate group.count.toNat group.valueType).length
      = LocalGroup.total groups := by
  rw [← types_zeros, List.length_map, length_zeros]

theorem Enters.housed (hm : m.CountsLocals) {a : Activation} {outer : List Activation}
    {moment moment' : Moment} (henters : Enters m a moment moment') (h : moment.Housed outer) :
    moment'.Housed (a :: outer) := by
  cases henters with
  | @mk _ _ _ code type _ _ s opened _ hindex hdepth hopen hbody =>
    obtain ⟨hcode, rfl, hopens⟩ := hopen.opens hm
    have htypes := hopens.locals_types
    have hbase := s.locals.length_types
    refine ⟨?_, ?_, ?_⟩
    · show type.params.length + code.numLocals.toNat = _
      rw [Activation.localTypes, List.length_append, length_groupTypes, FixedVec.length_toList,
        hcode.numLocals_eq]
    · show opened.locals.types.drop s.locals.length = _
      rw [htypes, ← hbase, List.drop_left]
    · show Windows (s.frame :: _) outer (opened.locals.types.take s.locals.length)
      rw [htypes, ← hbase, List.take_left]
      exact h

/-- In a run that starts without locals every open activation has its window. -/
theorem Nested.housed (hm : m.Prepared) {index : UInt32} {s : Machine} (hs : s.Idle)
    {activations : List Activation} {moment : Moment}
    (h : Nested m (start index s) activations moment) : moment.Housed activations := by
  induction h with
  | here =>
    have hnil : s.locals.toList = [] := by
      apply List.eq_nil_of_length_eq_zero
      rw [FixedVec.length_toList]
      exact hs.locals
    exact congrArg (List.map Value.type) hnil
  | enter _ henters ih => exact henters.housed hm.countsLocals ih
  | step h hstep hcallers ih =>
    have hdisciplined := Reaches.disciplined hm.countsLocals h.reaches (disciplined_start hs index)
    obtain ⟨hstays, htypes⟩ := related_of_step (covers_retypes m) (keeps_retypes_invoke hm) hstep
      hcallers hdisciplined.framed
    unfold Housed
    rw [hstays.frame, hcallers, htypes]
    exact ih

/-- Every local of an open activation is there, at its declared type. -/
theorem Housed.exists_local {moment : Moment} {activations : List Activation}
    (h : moment.Housed activations) {n : Nat} {frame : Frame} {a : Activation}
    (hframe : (moment.machine.frame :: moment.callers)[n]? = some frame)
    (ha : activations[n]? = some a) {index : UInt32}
    (hindex : index.toNat < a.localTypes.length) :
    ∃ value, ({ moment.machine with frame } : Machine).localValue index = .ok value ∧
      a.localTypes[index.toNat]? = some value.type := by
  obtain ⟨hnum, hwindow⟩ := Windows.types_eq h hframe ha
  have hlt : index.toNat < frame.numLocals := by omega
  obtain ⟨type, htype⟩ : ∃ type, a.localTypes[index.toNat]? = some type :=
    ⟨_, List.getElem?_eq_getElem hindex⟩
  have hslot : moment.machine.locals.types[frame.localsBase + index.toNat]? = some type := by
    rwa [← hwindow, List.getElem?_take, if_pos hlt, List.getElem?_drop] at htype
  obtain ⟨value, hvalue, rfl⟩ : ∃ value,
      moment.machine.locals.toList[frame.localsBase + index.toNat]? = some value ∧
        value.type = type := by
    rw [FixedVec.types, List.getElem?_map] at hslot
    exact Option.map_eq_some_iff.mp hslot
  refine ⟨value, ?_, htype⟩
  have hsmall : frame.localsBase + index.toNat < UInt64.size := by
    obtain ⟨hlength, -⟩ := List.getElem?_eq_some_iff.mp hvalue
    rw [FixedVec.length_toList] at hlength
    have hcap : moment.machine.locals.length ≤ 1024 := moment.machine.locals.length_le
    exact Nat.lt_of_lt_of_le hlength (Nat.le_trans hcap (by decide))
  unfold localValue Frame.localSlot?
  simp only [if_pos hlt, Nat.mod_eq_of_lt hsmall, Option.bind_some, FixedVec.get?_eq, hvalue]

end Moment

end BoundedWasm
