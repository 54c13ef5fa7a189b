import BoundedWasm.Proofs.Machine.Typing

/-!
# BoundedWasm.Proofs.Machine.Boundary — the types of arguments and of results

A call checks the types of its arguments, but not those of the values that its body leaves: it only
counts these.  They are of the result types in a module whose bodies leave their results
(`Module.leavesResults`), in a run in which the native functions answer values of the result types
of their imports (`AnswersTyped`).
-/

namespace BoundedWasm

open BoundedWasm.Action Limits

namespace Machine

variable {m : Module} {s s' : Machine}

theorem native_typed (hm : m.Prepared) {index typeIndex : UInt32} {position : Nat}
    {callers : List Frame} (hanswers : AnswersTyped m ⟨.calling index, s, callers⟩)
    (hindex : m.function? index = some (.imported position typeIndex))
    (hs : s.frame.stackBase ≤ s.stack.length) (hrun : callNative m position s = .ok () s') :
    ∃ type, m.types.get? typeIndex.toNat = some type ∧
      Shifts ⟨type.params.length, type.results.toList⟩ s s' := by
  cases callNative_cases hrun with
  | @returned binding s' hbinding henough hcallback hheight =>
    have hslot : m.bindings.get? position = some (.function binding) := by
      unfold bindingOf at hbinding
      cases hget : m.bindings.get? position with
      | none =>
        rw [hget] at hbinding
        cases hbinding
      | some slot =>
        rw [hget] at hbinding
        exact congrArg some hbinding
    obtain ⟨type, htype, hinputs, -⟩ := hm.slotted.fits_function hindex hslot
    obtain ⟨hframe, -⟩ := (keeps_native (covers_base m) _ _).of_ok hcallback hs
    exact ⟨type, htype, hframe, hinputs ▸ henough,
      hanswers _ _ _ _ _ _ .refl rfl hindex htype hrun⟩

theorem leavesFrom_of_defined (hleaves : m.leavesResults = true) {index typeIndex : UInt32}
    {position : Nat} (hindex : m.function? index = some (.defined position typeIndex))
    {code : Code} {type : FunctionType} {body : List Instruction}
    (hcode : m.codes.get? position = some code) (htype : m.types.get? typeIndex.toNat = some type)
    (hbody : m.body code = .ok body) :
    m.leavesFrom (Activation.mk type code).localTypes type.results.toList body [] = true := by
  have hfunction : m.functions.toList[position]? = some typeIndex := by
    unfold Module.function? at hindex
    split at hindex
    · cases hindex
    · obtain ⟨found, hfound, hsame⟩ := Option.map_eq_some_iff.mp hindex
      cases hsame
      rwa [FixedVec.get?_eq] at hfound
  have hmem : (typeIndex, position) ∈ m.functions.toList.zipIdx :=
    List.mem_zipIdx_iff_getElem?.mpr hfunction
  have hat := List.all_eq_true.mp hleaves _ hmem
  simp only [Module.leavesAt, hcode, htype, hbody] at hat
  exact hat

/-- A body begins with locals of the types that its code and its type declare. -/
theorem Opened.runs (hm : m.CountsLocals) {position : Nat} {typeIndex : UInt32} {code : Code}
    {type : FunctionType} {frame : Frame} {opened : Machine}
    (h : Opened m position typeIndex s code type frame opened) (hglobals : s.HoldsGlobals m) :
    Runs m (Activation.mk type code).localTypes (entered position frame opened) := by
  obtain ⟨hcode, rfl, hopens⟩ := h.opens hm
  refine ⟨hopens.entered_framed hcode, (shared_holdsGlobals m).entered h hglobals, ?_⟩
  show opened.locals.types.drop s.locals.length = _
  rw [hopens.locals_types, ← FixedVec.length_types, List.drop_left]

theorem types_drop {cap : Nat} {v : FixedVec Value cap} {before answers : List ValueType}
    (h : v.types = before ++ answers) : v.types.drop (v.length - answers.length) = answers := by
  have hlength := congrArg List.length h
  rw [FixedVec.length_types, List.length_append] at hlength
  rw [h]
  exact List.drop_left' (by omega)

/-- A defined function answers what its body leaves. -/
theorem defined_typed (hm : m.Prepared) (hleaves : m.leavesResults = true)
    {index typeIndex : UInt32} {position : Nat}
    (hindex : m.function? index = some (.defined position typeIndex))
    (hdepth : s.depth < maxCallDepth) (hcalls : CallsTypedAt m (s.depth + 1)) {callers : List Frame}
    (hanswers : AnswersTyped m ⟨.calling index, s, callers⟩) (hglobals : s.HoldsGlobals m)
    (hcall : callDefined m (invoke m) position typeIndex s = .ok () s') :
    ∃ type, m.types.get? typeIndex.toNat = some type ∧
      Shifts ⟨type.params.length, type.results.toList⟩ s s' := by
  cases callDefined_cases hcall with
  | @returned code type frame opened body s₁ hopen hbody hrun hlong =>
    have hruns := hopen.runs hm.countsLocals hglobals
    have hinside := hanswers.step (.enterBody hindex hdepth hopen hbody)
    obtain ⟨hcode, rfl, hopens⟩ := hopen.opens hm.countsLocals
    obtain ⟨below, hbelow⟩ : ∃ below,
        below = s.stack.types.take (s.stack.length - type.params.length) := ⟨_, rfl⟩
    have hlength : below.length = s.stack.length - type.params.length := by
      rw [hbelow, List.length_take, FixedVec.length_types]
      omega
    have hopened : opened.stack.types = below ++ [] := by
      rw [FixedVec.types, hopens.stack, List.append_nil, hbelow, FixedVec.types, List.map_take]
    obtain ⟨left, hleft, before, rfl⟩ := types_of_runBody hm hcalls
      (leavesFrom_of_defined hleaves hindex hopen.code_eq hopen.type_eq hbody) hruns
      (congrArg (· + 1) hopen.depth_eq) hinside hlength hopened hrun
    have hresults : s₁.stack.types.drop (s₁.stack.length - type.results.length)
        = type.results.toList := by
      rw [← List.append_assoc] at hleft
      rw [← type.results.length_toList]
      exact types_drop hleft
    obtain ⟨hstays, -⟩ := (keeps_runBody (covers_frames m) (keeps_invoke hm.countsLocals) _ _).of_ok
      hrun hruns.framed
    refine ⟨type, hopen.type_eq, (hopens.returned_restores hstays hlong).frame, hopens.enough, ?_⟩
    show (s₁.stack.keepEnds _ type.results.length).types = _
    rw [FixedVec.types, hopens.toList_keepEnds hstays hlong, List.map_append, List.map_take,
      List.map_drop]
    show s.stack.types.take _ ++ s₁.stack.types.drop _ = _
    rw [hresults, Effect.apply, FixedVec.length_types]

/-- Calls at a depth are typed when those one activation deeper are. -/
theorem callsTypedAt_of_deeper (hm : m.Prepared) (hleaves : m.leavesResults = true) {depth : Nat}
    (hdeeper : depth < maxCallDepth → CallsTypedAt m (depth + 1)) : CallsTypedAt m depth := by
  rintro s callers index s' rfl hframed hglobals hanswers hrun
  cases hindex : m.function? index with
  | none =>
    rw [invoke_missing hindex] at hrun
    cases hrun
  | some function =>
    have htype : m.functionType? index = m.types.get? function.typeIndex.toNat := by
      unfold Module.functionType?
      rw [hindex]
      rfl
    unfold ShiftsTyped
    rw [htype]
    cases function with
    | imported position typeIndex =>
      rw [invoke_native hindex] at hrun
      exact native_typed hm hanswers hindex hframed.stackBase_le hrun
    | defined position typeIndex =>
      by_cases hdepth : s.depth < maxCallDepth
      · rw [invoke_defined hindex hdepth] at hrun
        exact defined_typed hm hleaves hindex hdepth (hdeeper hdepth) hanswers hglobals hrun
      · rw [invoke_deep hindex (Nat.le_of_not_lt hdepth)] at hrun
        cases hrun

/-- In a module whose bodies leave their results every call answers values of its result types, if
the native functions of its run do; `room` more activations may open. -/
theorem callsTypedAt (hm : m.Prepared) (hleaves : m.leavesResults = true) {depth room : Nat}
    (hroom : maxCallDepth ≤ depth + room) : CallsTypedAt m depth := by
  induction room generalizing depth with
  | zero => exact callsTypedAt_of_deeper hm hleaves fun hdepth => by omega
  | succ room ih => exact callsTypedAt_of_deeper hm hleaves fun _ => ih (by omega)

end Machine

open Machine

/-- A call of a defined function that returns, to the host or to a body, has taken operands of
exactly its parameter types, and left as many values in their place as it has results.  Those values
have the result types if every body of the module leaves its results and the native functions that
are called in the course of the call answer values of theirs. -/
theorem Moment.call_boundary_typed {m : Module} (hm : m.Prepared) {moment : Moment}
    (hmet : moment.Met m) {index typeIndex : UInt32} {position : Nat}
    (hstage : moment.stage = .calling index)
    (hindex : m.function? index = some (.defined position typeIndex)) {s' : Machine}
    (h : Returns m index moment.machine s') :
    ∃ type below arguments answers, m.types.get? typeIndex.toNat = some type ∧
      moment.machine.stack.toList = below ++ arguments ∧
      arguments.map Value.type = type.params.toList ∧
      s'.stack.toList = below ++ answers ∧ answers.length = type.results.length ∧
      (m.leavesResults = true → AnswersTyped m moment →
        answers.map Value.type = type.results.toList) := by
  have hframed := (hmet.disciplined hm.countsLocals).framed
  obtain ⟨first, origin, horigin, hreaches⟩ := hmet
  have hglobals := (shared_holdsGlobals m).of_reaches hreaches (horigin.holdsGlobals hm)
  obtain ⟨stage, s, callers⟩ := moment
  obtain rfl : stage = .calling index := hstage
  have hinvoke : invoke m index s = .ok () s' := h.invoke_ok
  by_cases hdepth : s.depth < maxCallDepth
  · have hcall := hinvoke
    rw [invoke_defined hindex hdepth] at hcall
    cases callDefined_cases hcall with
    | @returned code type frame opened body s₁ hopen hbody hrun hlong =>
      obtain ⟨hcode, rfl, hopens⟩ := hopen.opens hm.countsLocals
      obtain ⟨hstays, -⟩ := (keeps_runBody (covers_frames m) (keeps_invoke hm.countsLocals) _
        _).of_ok hrun (hopens.entered_framed hcode)
      have hanswers := hopens.toList_keepEnds hstays hlong
      refine ⟨type, s.stack.toList.take (s.stack.length - type.params.length),
        Machine.arguments type.params.length s, _, hopen.type_eq, (List.take_append_drop _ _).symm,
        hopens.types, hanswers, ?_, fun hleaves htyped => ?_⟩
      · rw [List.length_drop, FixedVec.length_toList]
        omega
      · have hcalls := callsTypedAt hm hleaves (Nat.le_add_left maxCallDepth s.depth)
        obtain ⟨type', htype', hshifts⟩ :=
          hcalls s callers index _ rfl hframed hglobals htyped hinvoke
        have hsame : m.functionType? index = some type := by
          unfold Module.functionType?
          rw [hindex]
          exact hopen.type_eq
        cases hsame.symm.trans htype'
        have htypes := hshifts.types
        rw [FixedVec.types, hanswers, Effect.apply, FixedVec.length_types, FixedVec.types,
          List.map_append, List.map_take] at htypes
        exact List.append_cancel_left htypes
  · rw [invoke_deep hindex (Nat.le_of_not_lt hdepth)] at hinvoke
    cases hinvoke

namespace Machine

/-! ### A module that passes, and one that does not -/

/-- A native function that hands back what it takes. -/
def forward : Native := Native.popThen fun value => Native.pushThen value (.finish (.ok ()))

theorem moves_forward : Moves ⟨0, []⟩ forward.run := by
  have hrun : forward.run = pop >>= push := by
    funext s
    unfold forward Native.popThen
    rw [Native.run, bind_run, bind_run, observe]
    cases pop s with
    | error fault s' => rfl
    | ok value s' =>
      show (Native.pushThen value (.finish (.ok ()))).run s' = push value s'
      unfold Native.pushThen
      rw [Native.run, bind_run, observe]
      cases push value s' <;> rfl
  rw [hrun]
  exact .putBack fun value => moves_push value

/-- The only import of the sample module is a function from an integer to an integer. -/
theorem imported_importing {index typeIndex : UInt32} {position : Nat} {type : FunctionType}
    (hindex : Module.importing.function? index = some (.imported position typeIndex))
    (htype : Module.importing.types.get? typeIndex.toNat = some type) :
    position = 0 ∧ type.params.length = 1 ∧ type.results.toList = [.i32] := by
  have himports : Module.importing.imports.toList.map (fun entry => entry.desc.functionType?)
      = [some 0] := by decide +kernel
  have htypes : Module.importing.types.toList.map
      (fun type => (type.params.length, type.results.toList)) = [(1, [.i32])] := by decide +kernel
  unfold Module.function? at hindex
  split at hindex
  · rename_i hlocate
    cases hindex
    obtain ⟨-, entry, hentry, hselect⟩ := getElem?_of_locateImport hlocate
    have hposition : (Module.importing.imports.toList.map
        fun entry => entry.desc.functionType?)[position]? = some (some typeIndex) := by
      rw [List.getElem?_map, ← hselect]
      exact congrArg _ hentry
    rw [himports, List.getElem?_singleton] at hposition
    split at hposition
    · cases hposition
      rw [FixedVec.get?_eq] at htype
      have hpair : (Module.importing.types.toList.map
          fun type => (type.params.length, type.results.toList))[0]?
          = some (type.params.length, type.results.toList) := by
        rw [List.getElem?_map]
        exact congrArg _ htype
      rw [htypes] at hpair
      obtain ⟨hparams, hresults⟩ := Prod.mk.inj (Option.some.inj hpair)
      exact ⟨‹_›, hparams.symm, hresults.symm⟩
    · cases hposition
  · obtain ⟨_, -, hdefined⟩ := Option.map_eq_some_iff.mp hindex
    cases hdefined

/-- The second function of the sample module has an integer, and hands it on. -/
theorem defined_importing {position : Nat} {typeIndex : UInt32} {code : Code} {type : FunctionType}
    {body : List Instruction}
    (hcode : (Module.importingWith forward).codes.get? position = some code)
    (htype : (Module.importingWith forward).types.get? typeIndex.toNat = some type)
    (hbody : (Module.importingWith forward).body code = .ok body) :
    body.map (fun i => i.opcode) = [.localGet, .call, .endBlock] ∧
      (Activation.mk type code).localTypes = [.i32] := by
  have hbodies : ∀ code ∈ (Module.importingWith forward).codes.toList, code.locals.toList = [] ∧
      ((Module.importingWith forward).body code).toOption.map (List.map fun i => i.opcode)
        = some [.localGet, .call, .endBlock] := by decide +kernel
  have htypes : ∀ type ∈ (Module.importingWith forward).types.toList,
      type.params.toList = [.i32] := by decide +kernel
  rw [FixedVec.get?_eq] at hcode htype
  obtain ⟨hlocals, hopcodes⟩ := hbodies code (List.mem_of_getElem? hcode)
  rw [hbody] at hopcodes
  refine ⟨Option.some.inj hopcodes, ?_⟩
  unfold Activation.localTypes
  rw [htypes type (List.mem_of_getElem? htype), hlocals]
  rfl

/-- In the run of that function an integer lies on top whenever the first function is called. -/
def HandsInteger (moment : Moment) : Prop :=
  match moment.stage with
  | .calling index => index = 1 ∨ ∃ below, moment.machine.stack.types = below ++ [.i32]
  | .body rest =>
    (rest.map (fun i => i.opcode) = [.localGet, .call, .endBlock] ∧
        Runs (.importingWith forward) [.i32] moment.machine) ∨
      (rest.map (fun i => i.opcode) = [.call, .endBlock] ∧
        ∃ below, moment.machine.stack.types = below ++ [.i32]) ∨
      ∀ i ∈ rest, i.opcode ≠ .call
  | .native _ | .over => True

/-- What the function reads from its local is an integer. -/
theorem types_of_localGet (hs : Runs (.importingWith forward) [.i32] s) {i : Instruction}
    (hopcode : i.opcode = .localGet) {work : Instruction → Exec Flow} {flow : Flow}
    (hwork : handler? (.importingWith forward) (invoke (.importingWith forward)) i.opcode
      = some work) (hrun : work i s = .ok flow s') :
    ∃ below, s'.stack.types = below ++ [.i32] := by
  rw [hopcode, handler?_of_ne_ret (by decide)] at hwork
  obtain ⟨read, hread, rfl⟩ := Option.map_eq_some_iff.mp hwork
  replace hrun : (read i >>= fun _ => pure Flow.next) s = .ok flow s' := hrun
  rw [bind_run] at hrun
  cases hstep : read i s with
  | error fault s₁ =>
    rw [hstep] at hrun
    cases hrun
  | ok _ s₁ =>
    rw [hstep] at hrun
    cases hrun
    have hnoCall : ∀ index s', Opcode.localGet = .call → i.index = .ok index →
        invoke (.importingWith forward) index s = .ok () s' →
        ShiftsTyped (.importingWith forward) index s s' := fun _ _ hcall => nomatch hcall
    obtain ⟨effect, heffect, hshifts⟩ := (work?_shifts hs hnoCall hread).of_ok hstep
    obtain ⟨type, htype, rfl⟩ := Option.map_eq_some_iff.mp heffect
    obtain ⟨index, -, hindex⟩ := Option.bind_eq_some_iff.mp htype
    obtain rfl := List.mem_singleton.mp (List.mem_of_getElem? hindex)
    exact ⟨_, hshifts.types⟩

theorem handsInteger_of_reaches (hs : Reachable (.importingWith forward) s) {moment : Moment}
    (h : Moment.Reaches (.importingWith forward) (Moment.start 1 s) moment) :
    HandsInteger moment := by
  have hm := Module.importingWith_prepared forward
  induction h with
  | refl => exact .inl rfl
  | @tail before moment hreaches hstep ih =>
    have hglobals := (shared_holdsGlobals _).of_reaches hreaches (hs.holdsGlobals hm)
    cases hstep with
    | enterBody hindex hdepth hopen hbody =>
      obtain ⟨hopcodes, hlocals⟩ := defined_importing hopen.code_eq hopen.type_eq hbody
      exact .inl ⟨hopcodes, hlocals ▸ hopen.runs hm.countsLocals hglobals⟩
    | call hopcode hindex =>
      obtain ⟨hopcodes, -⟩ | ⟨-, hinteger⟩ | hcalls := ih
      · cases hopcode.symm.trans (List.cons.inj hopcodes).1
      · exact .inr hinteger
      · exact absurd hopcode (hcalls _ List.mem_cons_self)
    | next hwork hrun =>
      obtain ⟨hopcodes, hruns⟩ | ⟨hopcodes, -⟩ | hcalls := ih
      · obtain ⟨hopcode, hrest⟩ := List.cons.inj hopcodes
        exact .inr (.inl ⟨hrest, types_of_localGet hruns hopcode hwork hrun⟩)
      · refine .inr (.inr fun i hi hopcode => ?_)
        have hmem := List.mem_map_of_mem (f := fun i => i.opcode) hi
        rw [(List.cons.inj hopcodes).2, List.mem_singleton] at hmem
        cases hopcode.symm.trans hmem
      · exact .inr (.inr fun i hi => hcalls i (List.mem_cons_of_mem _ hi))
    | leave hwork hrun => exact .inr (.inr fun _ hi => nomatch hi)
    | _ => trivial

/-- In that run the native function answers an integer, as its import says. -/
theorem answersTyped_forwarding (hs : Reachable (.importingWith forward) s) :
    AnswersTyped (.importingWith forward) (Moment.start 1 s) := by
  intro reached index position typeIndex type s' hreaches hstage hindex htype hrun
  obtain ⟨rfl, hparams, hresults⟩ := imported_importing hindex htype
  have hdefined : (Module.importingWith forward).function? 1 = some (.defined 0 0) := by
    decide +kernel
  have hhands := handsInteger_of_reaches hs hreaches
  obtain ⟨stage, s, callers⟩ := reached
  obtain rfl : stage = .calling index := hstage
  obtain rfl | ⟨below, hbelow⟩ := hhands
  · cases hdefined.symm.trans hindex
  cases callNative_cases hrun with
  | returned hbinding henough hcallback hheight =>
    cases (bindingOf_importingWith _).symm.trans hbinding
    have hbase : (called 0 s).frame.stackBase ≤ (called 0 s).stack.length :=
      Nat.le_trans (Nat.le_add_right _ _) henough
    have htypes := ((moves_forward _ hbase).of_ok hcallback).types
    replace hbelow : s.stack.types = below ++ [.i32] := hbelow
    show _ = Effect.apply _ s.stack.types
    rw [htypes, hparams, hresults]
    show Effect.apply _ s.stack.types = _
    rw [hbelow, Effect.apply, Effect.apply, Nat.sub_zero, List.take_length, List.append_nil,
      List.length_append, List.length_singleton, Nat.add_sub_cancel, List.take_left]

/-- The second function of the sample module hands an integer on, and answers one. -/
theorem forwarding_typed : ∃ m s s' below arguments answers, m.Prepared ∧ Reachable m s ∧
    call m 1 s = .ok () s' ∧ s.stack.toList = below ++ arguments ∧
    arguments.map Value.type = [.i32] ∧ s'.stack.toList = below ++ answers ∧
    answers.map Value.type = [.i32] := by
  have h : ∃ s ∈ loaded (.importingWith forward),
      (Module.importingWith forward).function? 1 = some (.defined 0 0) ∧
      (call (.importingWith forward) 1).fault? s = none ∧
      (Module.importingWith forward).leavesResults = true ∧
      (Module.importingWith forward).types.toList.map
        (fun type => (type.params.toList, type.results.toList)) = [([.i32], [.i32])] := by
    decide +kernel
  obtain ⟨s, hs, hindex, hfault, hleaves, htypes⟩ := h
  obtain ⟨_, hcall⟩ := Action.run_of_fault?_none hfault
  have hs := reachable_of_loaded hs
  have hmet : (Moment.start 1 s).Met (.importingWith forward) := ⟨1, s, hs, .refl⟩
  have hm := Module.importingWith_prepared forward
  obtain ⟨type, below, arguments, answers, htype, hbefore, harguments, hafter, -, htyped⟩ :=
    Moment.call_boundary_typed hm hmet rfl hindex (.inl hcall)
  have hpair : ((Module.importingWith forward).types.toList.map
      fun type => (type.params.toList, type.results.toList))[0]?
      = some (type.params.toList, type.results.toList) := by
    rw [FixedVec.get?_eq] at htype
    rw [List.getElem?_map]
    exact congrArg _ htype
  rw [htypes] at hpair
  obtain ⟨hparams, hresults⟩ := Prod.mk.inj (Option.some.inj hpair)
  exact ⟨_, s, _, below, arguments, answers, hm, hs, hcall, hbefore,
    harguments.trans hparams.symm, hafter,
    (htyped hleaves (answersTyped_forwarding hs)).trans hresults.symm⟩

/-- A module whose only function promises an integer and leaves a floating-point number. -/
def mistypedBytes : List UInt8 :=
  [0x00, 0x61, 0x73, 0x6D, 0x01, 0x00, 0x00, 0x00,
    0x01, 0x05, 0x01, 0x60, 0x00, 0x01, 0x7F,
    0x03, 0x02, 0x01, 0x00,
    0x0A, 0x09, 0x01, 0x07, 0x00, 0x43, 0x00, 0x00, 0x80, 0x3F, 0x0B]

/-- A call of that function returns. -/
theorem mistyped_returns : ∃ m s s' type, m.Prepared ∧ (∀ moment, AnswersTyped m moment) ∧
    Reachable m s ∧ m.function? 0 = some (.defined 0 0) ∧ m.types.get? 0 = some type ∧
    type.results.toList = [.i32] ∧ call m 0 s = .ok () s' ∧
    s'.stack.toList.map Value.type = [.f32] := by
  have h : ∃ m ∈ (Module.ofBytes mistypedBytes).toOption, ∃ s ∈ (create m {} #[]).toOption,
      ∃ type ∈ m.types.get? 0, m.imports.toList.length = 0 ∧
      m.function? 0 = some (.defined 0 0) ∧ type.results.toList = [.i32] ∧
      (call m 0).fault? s = none ∧ ((call m 0).after s).stack.toList.map Value.type = [.f32] := by
    decide +kernel
  obtain ⟨m, hdecoded, s, hcreate, type, htype, himports, hindex, hresults, hfault, hafter⟩ := h
  obtain ⟨_, hcall⟩ := Action.run_of_fault?_none hfault
  have hanswers : ∀ moment, AnswersTyped m moment := by
    intro moment reached index position typeIndex type s' _ _ hindex
    unfold Module.function? at hindex
    rw [List.eq_nil_of_length_eq_zero himports] at hindex
    obtain ⟨_, -, hdefined⟩ := Option.map_eq_some_iff.mp hindex
    cases hdefined
  exact ⟨m, s, _, type, .decoded (Action.ok_of_mem_toOption hdecoded), hanswers,
    .created (Action.ok_of_mem_toOption hcreate), hindex, htype, hresults, hcall, hafter⟩

end Machine

end BoundedWasm
