import BoundedWasm.Proofs.Module.Slots

/-!
# BoundedWasm.Proofs.Module.Requests — the slots of imports, request by request

A host binds natives by requests, each of which names the imports that it is about.  A request that
is granted fills the slots of all imports that it matches and of no others, and one that is not
granted changes nothing (`BindRequest.run_cases`).  So, over any number of requests, each slot holds
what the last granted request that matches its import has put there (`HoldsLast`).
-/

namespace BoundedWasm

open BoundedWasm.Action

/-! ### Requests -/

/-- What a host may ask of a module. -/
inductive BindRequest where
  | native (moduleName field signature : String) (callback : Native)
  | cell (field : String) (id : CellId)

namespace BindRequest

/-- Carries out the request; answers whether there was anything to bind. -/
def run : BindRequest → Action Assembly Bool
  | native moduleName field signature callback =>
    Assembly.bindFunction moduleName field signature callback
  | cell field id => Assembly.bindVariable field id

/-- The request is about the import: functions go by both names, cells by the field alone. -/
def Matches : BindRequest → Import → Prop
  | native moduleName field _ _, entry =>
    (∃ typeIndex, entry.desc = .function typeIndex) ∧ entry.moduleName = moduleName ∧
      entry.field = field
  | cell field _, entry => (∃ type, entry.desc = .global type) ∧ entry.field = field

/-- What the request puts into a slot. -/
def Offers : BindRequest → NativeBinding → Prop
  | native _ _ text callback, slot => ∃ signature, Signature.ofString text = .ok signature ∧
    slot = .function ⟨callback, signature.inputs.length, signature.outputs.length⟩
  | cell _ id, slot => slot = .cell id

/-- The import takes what the request offers: a function type that the signature fits, or a global
of 32 bits. -/
def Suits (m : Module) : BindRequest → Import → Prop
  | native _ _ text _, entry => ∃ signature typeIndex type,
    Signature.ofString text = .ok signature ∧ entry.desc = .function typeIndex ∧
      m.types.get? typeIndex.toNat = some type ∧
      signature.accepts type.params.toList type.results.toList = true
  | cell _ _, entry => ∃ type, entry.desc = .global type ∧ type.valueType.isWord = true

/-- From `m` to `bound` the request has filled the slots of the imports that it matches, of which
there is one at least, and changed nothing else. -/
structure Replaces (request : BindRequest) (m bound : Module) : Prop where
  exists_matches : ∃ entry ∈ m.imports.toList, request.Matches entry
  suits : ∀ entry ∈ m.imports.toList, request.Matches entry → request.Suits m entry
  filled : ∀ position entry, m.imports.get? position = some entry → request.Matches entry →
    ∃ slot, bound.bindings.get? position = some slot ∧ request.Offers slot
  kept : ∀ position entry, m.imports.get? position = some entry → ¬ request.Matches entry →
    bound.bindings.get? position = m.bindings.get? position
  rest : bound = { m with bindings := bound.bindings }

/-- The ends of a request. -/
inductive Answered (request : BindRequest) (a : Assembly) :
    EStateM.Result Fault Assembly Bool → Prop
  | unreadable {fault : Fault} (h : ∀ slot, ¬ request.Offers slot) :
    Answered request a (.error fault a)
  | unsuited {fault : Fault} {entry : Import} (hentry : entry ∈ a.module.imports.toList)
    (hmatches : request.Matches entry) (hsuits : ¬ request.Suits a.module entry) :
    Answered request a (.error fault a)
  | unmatched (h : ∀ entry ∈ a.module.imports.toList, ¬ request.Matches entry) :
    Answered request a (.ok false a)
  | granted {a' : Assembly} (h : request.Replaces a.module a'.module)
    (hprepared : a.module.Prepared → a'.module.Prepared) : Answered request a (.ok true a')

end BindRequest

/-! ### Selected imports -/

namespace ImportDesc

theorem functionType?_eq_some {desc : ImportDesc} {typeIndex : UInt32} :
    desc.functionType? = some typeIndex ↔ desc = .function typeIndex := by
  cases desc <;> simp [functionType?]

theorem globalType?_eq_some {desc : ImportDesc} {type : GlobalType} :
    desc.globalType? = some type ↔ desc = .global type := by
  cases desc <;> simp [globalType?]

end ImportDesc

namespace Module

variable {m : Module} {entry : Import}

theorem isFunctionImport_iff {moduleName field : String} (text : String) (callback : Native) :
    isFunctionImport moduleName field entry = true ↔
      (BindRequest.native moduleName field text callback).Matches entry := by
  unfold isFunctionImport BindRequest.Matches
  simp only [Bool.and_eq_true, beq_iff_eq, Option.isSome_iff_exists,
    ImportDesc.functionType?_eq_some, and_assoc]

theorem isGlobalImport_iff {field : String} (id : CellId) :
    isGlobalImport field entry = true ↔ (BindRequest.cell field id).Matches entry := by
  unfold isGlobalImport BindRequest.Matches
  simp only [Bool.and_eq_true, beq_iff_eq, Option.isSome_iff_exists,
    ImportDesc.globalType?_eq_some]

theorem signatureFault?_eq_none_iff {moduleName field text : String} {callback : Native}
    {signature : Signature} (hsignature : Signature.ofString text = .ok signature)
    (hmatches : (BindRequest.native moduleName field text callback).Matches entry) :
    m.signatureFault? signature entry = none ↔
      (BindRequest.native moduleName field text callback).Suits m entry := by
  obtain ⟨⟨typeIndex, hdesc⟩, -⟩ := hmatches
  unfold signatureFault? BindRequest.Suits
  simp only [ImportDesc.functionType?_eq_some.mpr hdesc]
  cases htype : m.types.get? typeIndex.toNat with
  | none => simp [hsignature, hdesc, htype]
  | some type => simp [hsignature, hdesc, htype]

theorem cellFault?_eq_none_iff {field : String} {id : CellId}
    (hmatches : (BindRequest.cell field id).Matches entry) :
    cellFault? entry = none ↔ (BindRequest.cell field id).Suits m entry := by
  obtain ⟨⟨type, hdesc⟩, -⟩ := hmatches
  unfold cellFault? BindRequest.Suits
  simp [hdesc, ImportDesc.globalType?]

/-- Binding fails at a selected import, has nothing to do, or fills the selected slots. -/
theorem bind?_ends (m : Module) (select : Import → Bool) (fault? : Import → Option Fault)
    (binding : NativeBinding) :
    (∃ fault entry, entry ∈ m.imports.toList ∧ select entry = true ∧ fault? entry ≠ none ∧
      m.bind? select fault? binding = .error fault) ∨
    ((∀ entry ∈ m.imports.toList, select entry = false) ∧
      m.bind? select fault? binding = .ok none) ∨
    ((∃ entry ∈ m.imports.toList, select entry = true) ∧
      (∀ entry ∈ m.imports.toList, select entry = true → fault? entry = none) ∧
      m.bind? select fault? binding = .ok (some (m.setBindings select binding))) := by
  unfold bind?
  cases hfault : (m.imports.toList.filter select).findSome? fault? with
  | some fault =>
    obtain ⟨entry, hentry, heq⟩ := List.exists_of_findSome?_eq_some hfault
    obtain ⟨hmem, hselect⟩ := List.mem_filter.mp hentry
    exact .inl ⟨fault, entry, hmem, hselect, by simp [heq], by simp only [hfault]⟩
  | none =>
    refine .inr ?_
    have hfaults : ∀ entry ∈ m.imports.toList, select entry = true → fault? entry = none :=
      fun entry hmem hselect =>
        List.findSome?_eq_none_iff.mp hfault entry (List.mem_filter.mpr ⟨hmem, hselect⟩)
    by_cases hselected : ∃ entry ∈ m.imports.toList, select entry = true
    · refine .inr ⟨hselected, hfaults, ?_⟩
      have hsome : (m.imports.toList.filter select).isEmpty = false := by
        obtain ⟨entry, hmem, hselect⟩ := hselected
        simpa using ⟨entry, hmem, hselect⟩
      simp [hfault, hsome]
    · refine .inl ⟨fun entry hmem => ?_, ?_⟩
      · cases hselect : select entry with
        | false => rfl
        | true => exact absurd ⟨entry, hmem, hselect⟩ hselected
      · have hnone : (m.imports.toList.filter select).isEmpty = true := by
          simpa using hselected
        simp [hfault, hnone]

/-- The slot of an import after its selection was bound. -/
theorem get?_setBindings (h : m.Slotted) (select : Import → Bool) (binding : NativeBinding)
    {position : Nat} (hentry : m.imports.get? position = some entry) :
    (m.setBindings select binding).bindings.get? position
      = if select entry then some binding else m.bindings.get? position := by
  rw [FixedVec.get?_eq] at hentry
  obtain ⟨slot, hslot⟩ : ∃ slot, m.bindings.toList[position]? = some slot := by
    obtain ⟨hlt, -⟩ := List.getElem?_eq_some_iff.mp hentry
    have hlength := h.length_eq
    simp only [FixedVec.length_toList] at hlt
    exact ⟨_, List.getElem?_eq_getElem (by rw [FixedVec.length_toList]; omega)⟩
  have hpair : (m.imports.toList.zip m.bindings.toList)[position]? = some (entry, slot) :=
    List.getElem?_zip_eq_some.mpr ⟨hentry, hslot⟩
  rw [FixedVec.get?_eq, FixedVec.get?_eq, toList_setBindings h, List.getElem?_map, hpair, hslot]
  cases hselect : select entry <;> simp [hselect]

end Module

/-! ### One request -/

namespace BindRequest

/-- Filling the selected slots is what a request that selects them does. -/
theorem replaces_setBindings {m : Module} (h : m.Slotted) {request : BindRequest}
    {select : Import → Bool} {binding : NativeBinding}
    (hselect : ∀ entry, select entry = true ↔ request.Matches entry)
    (hexists : ∃ entry ∈ m.imports.toList, select entry = true)
    (hsuits : ∀ entry ∈ m.imports.toList, request.Matches entry → request.Suits m entry)
    (hoffers : request.Offers binding) : request.Replaces m (m.setBindings select binding) where
  exists_matches := by
    obtain ⟨entry, hentry, heq⟩ := hexists
    exact ⟨entry, hentry, (hselect entry).mp heq⟩
  suits := hsuits
  filled position entry hentry hmatches := by
    refine ⟨binding, ?_, hoffers⟩
    rw [Module.get?_setBindings h select binding hentry, if_pos ((hselect entry).mpr hmatches)]
  kept position entry hentry hmatches := by
    rw [Module.get?_setBindings h select binding hentry, if_neg (mt (hselect entry).mp hmatches)]
  rest := rfl

/-- Once its text is read, a request is settled by the imports that it matches. -/
theorem accept_answered {a : Assembly} (h : a.module.Slotted) {request : BindRequest}
    {select : Import → Bool} {fault? : Import → Option Fault} {binding : NativeBinding}
    (hselect : ∀ entry, select entry = true ↔ request.Matches entry)
    (hfault : ∀ entry, request.Matches entry → (fault? entry = none ↔ request.Suits a.module entry))
    (hoffers : request.Offers binding)
    (hprepared : ∀ bound, a.module.bind? select fault? binding = .ok (some bound) →
      a.module.Prepared → bound.Prepared) (event : Event) :
    request.Answered a ((do
      let bound? ← Action.ofExcept ((← get).module.bind? select fault? binding)
      Assembly.accept bound? event : Action Assembly Bool) a) := by
  rw [bind_run]
  simp only [get_run]
  obtain ⟨fault, entry, hentry, heq, hne, hbind⟩ | ⟨hnone, hbind⟩ | ⟨hexists, hfaults, hbind⟩ :=
    a.module.bind?_ends select fault? binding
  · rw [hbind]
    have hmatches := (hselect entry).mp heq
    exact .unsuited hentry hmatches (mt (hfault entry hmatches).mpr hne)
  · rw [hbind]
    refine .unmatched fun entry hentry hmatches => ?_
    have heq := hnone entry hentry
    rw [(hselect entry).mpr hmatches] at heq
    cases heq
  · have hready := hprepared _ hbind
    rw [hbind]
    refine .granted (replaces_setBindings h hselect hexists (fun entry hentry hmatches => ?_)
      hoffers) hready
    exact (hfault entry hmatches).mp (hfaults entry hentry ((hselect entry).mpr hmatches))

/-- Every request is granted, or has nothing to do, or is refused with a reason. -/
theorem run_cases {a : Assembly} (h : a.module.Slotted) (request : BindRequest)
    {ending : EStateM.Result Fault Assembly Bool} (hrun : request.run a = ending) :
    request.Answered a ending := by
  subst hrun
  cases request with
  | native moduleName field text callback =>
    show BindRequest.Answered _ a (Assembly.bindFunction moduleName field text callback a)
    unfold Assembly.bindFunction
    rw [bind_run]
    cases hsignature : Signature.ofString text with
    | error fault =>
      refine .unreadable fun slot hoffers => ?_
      obtain ⟨signature, hread, -⟩ := hoffers
      cases hsignature.symm.trans hread
    | ok signature =>
      exact accept_answered h (fun entry => Module.isFunctionImport_iff text callback)
        (fun entry hmatches => Module.signatureFault?_eq_none_iff hsignature hmatches)
        ⟨signature, hsignature, rfl⟩ (fun bound hbind hm => .bindFunction hm hbind) _
  | cell field id =>
    exact accept_answered h (fun entry => Module.isGlobalImport_iff id)
      (fun entry hmatches => Module.cellFault?_eq_none_iff hmatches) rfl
      (fun bound hbind hm => .bindVariable hm hbind) _

end BindRequest

/-! ### Any number of requests -/

namespace Assembly

/-- The module after several requests, one after the other, whatever the answers. -/
def bindEach (requests : List BindRequest) (a : Assembly) : Assembly :=
  requests.foldl (fun a request => request.run.after a) a

/-- The requests that are granted, in their order. -/
def granted : (requests : List BindRequest) → Assembly → List BindRequest
  | [], _ => []
  | request :: requests, a =>
    match request.run a with
    | .ok true a' => request :: granted requests a'
    | .ok false a' => granted requests a'
    | .error _ a' => granted requests a'

end Assembly

/-- The slot of an import, which held `old`, after these requests were granted: it holds what the
last that matches has offered. -/
inductive HoldsLast (entry : Import) (old : NativeBinding) (granted : List BindRequest) :
    NativeBinding → Prop
  | untouched (h : ∀ request ∈ granted, ¬ request.Matches entry) : HoldsLast entry old granted old
  | filled {earlier later : List BindRequest} {request : BindRequest} {slot : NativeBinding}
    (heq : granted = earlier ++ request :: later) (hmatches : request.Matches entry)
    (hlast : ∀ other ∈ later, ¬ other.Matches entry) (hoffers : request.Offers slot) :
    HoldsLast entry old granted slot

namespace HoldsLast

variable {entry : Import} {old between slot : NativeBinding} {granted : List BindRequest}
  {request : BindRequest}

/-- One more request before the others, which does not match the import. -/
theorem skip (hmatches : ¬ request.Matches entry) (h : HoldsLast entry old granted slot) :
    HoldsLast entry old (request :: granted) slot := by
  cases h with
  | untouched h => exact .untouched (List.forall_mem_cons.mpr ⟨hmatches, h⟩)
  | filled heq hother hlast hoffers =>
    exact .filled (by rw [heq, List.cons_append]) hother hlast hoffers

/-- One more request before the others, which fills the slot. -/
theorem fill (hmatches : request.Matches entry) (hoffers : request.Offers between)
    (h : HoldsLast entry between granted slot) : HoldsLast entry old (request :: granted) slot := by
  cases h with
  | untouched h => exact .filled (List.nil_append _).symm hmatches h hoffers
  | filled heq hother hlast hoffers' =>
    exact .filled (by rw [heq, List.cons_append]) hother hlast hoffers'

end HoldsLast

namespace Assembly

variable {a : Assembly}

/-- Requests leave a module prepared and all but its bindings as they were, and each slot holds what
the last granted request for its import has offered. -/
theorem bindEach_slots (requests : List BindRequest) (h : a.module.Prepared) :
    (a.bindEach requests).module.Prepared ∧
      (a.bindEach requests).module
        = { a.module with bindings := (a.bindEach requests).module.bindings } ∧
      ∀ position entry old, a.module.imports.get? position = some entry →
        a.module.bindings.get? position = some old →
        ∃ slot, (a.bindEach requests).module.bindings.get? position = some slot ∧
          HoldsLast entry old (a.granted requests) slot := by
  induction requests generalizing a with
  | nil =>
    exact ⟨h, rfl, fun position entry old _ hold =>
      ⟨old, hold, .untouched (List.forall_mem_nil _)⟩⟩
  | cons request requests ih =>
    obtain ⟨ending, hrun⟩ : ∃ ending, request.run a = ending := ⟨_, rfl⟩
    have hanswered := request.run_cases h.slotted hrun
    have hstep : a.bindEach (request :: requests) = (request.run.after a).bindEach requests := rfl
    rw [hstep]
    unfold granted after
    rw [hrun]
    cases hanswered with
    | unreadable _ => exact ih h
    | unsuited _ _ _ => exact ih h
    | unmatched _ => exact ih h
    | @granted a' hreplaces hprepared =>
      obtain ⟨hm, hrest, hslots⟩ := ih (hprepared h)
      have himports : a'.module.imports = a.module.imports := by rw [hreplaces.rest]
      refine ⟨hm, hrest.trans (by rw [hreplaces.rest]), fun position entry old hentry hold => ?_⟩
      have hentry' : a'.module.imports.get? position = some entry := by rw [himports, hentry]
      by_cases hmatches : request.Matches entry
      · obtain ⟨between, hbetween, hoffers⟩ := hreplaces.filled position entry hentry hmatches
        obtain ⟨slot, hslot, hlast⟩ := hslots position entry between hentry' hbetween
        exact ⟨slot, hslot, hlast.fill hmatches hoffers⟩
      · have hkept := hreplaces.kept position entry hentry hmatches
        obtain ⟨slot, hslot, hlast⟩ := hslots position entry old hentry' (hkept.trans hold)
        exact ⟨slot, hslot, hlast.skip hmatches⟩

/-- Over any number of requests to a decoded module there is one slot for each import, and what is
in it fits the import: it is what the last granted request that matches the import has offered, or
nothing if there is none.  A request that is granted fills the slots of the imports that it matches,
at least one, and no others; one that is not granted has nothing to fill, or a reason to be refused,
and leaves everything as it was. -/
theorem slots_hold_last_binding {bytes : List UInt8} (h : Module.ofBytes bytes = .ok a.module)
    (requests : List BindRequest) :
    (a.bindEach requests).module
        = { a.module with bindings := (a.bindEach requests).module.bindings } ∧
      (a.bindEach requests).module.bindings.length = a.module.imports.length ∧
      (∀ position entry, a.module.imports.get? position = some entry →
        ∃ slot, (a.bindEach requests).module.bindings.get? position = some slot ∧
          slot.Fits a.module entry ∧ HoldsLast entry .unbound (a.granted requests) slot) ∧
      ∀ request : BindRequest, request.run.Ends (a.bindEach requests)
        (fun answer a' => if answer then request.Replaces (a.bindEach requests).module a'.module
          else a' = a.bindEach requests ∧
            ∀ entry ∈ (a.bindEach requests).module.imports.toList, ¬ request.Matches entry)
        (fun _ a' => a' = a.bindEach requests ∧ ((∀ slot, ¬ request.Offers slot) ∨
          ∃ entry ∈ (a.bindEach requests).module.imports.toList, request.Matches entry ∧
            ¬ request.Suits (a.bindEach requests).module entry)) := by
  have hprepared : a.module.Prepared := .decoded h
  obtain ⟨hafter, hrest, hslots⟩ := bindEach_slots requests hprepared
  have hslotted := hafter.slotted
  have himports : (a.bindEach requests).module.imports = a.module.imports := by rw [hrest]
  refine ⟨hrest, by rw [hslotted.length_eq, himports], fun position entry hentry => ?_,
    fun request => ?_⟩
  · obtain ⟨lastOrder, d, hsound, -, heq⟩ := Module.sound_of_decoded h
    have hunbound : a.module.bindings.get? position = some .unbound := by
      rw [FixedVec.get?_eq] at hentry
      obtain ⟨hlt, -⟩ := List.getElem?_eq_some_iff.mp hentry
      rw [FixedVec.length_toList] at hlt
      rw [FixedVec.get?_eq, ← heq, hsound.coherent.bindings, heq, List.getElem?_replicate,
        if_pos hlt]
    obtain ⟨slot, hslot, hlast⟩ := hslots position entry .unbound hentry hunbound
    have hfits := hslotted.fits position entry slot (by rw [himports, hentry]) hslot
    rw [hrest] at hfits
    exact ⟨slot, hslot, hfits, hlast⟩
  · unfold Ends
    generalize hrun : request.run (a.bindEach requests) = ending
    cases request.run_cases hslotted hrun with
    | unreadable hoffers => exact ⟨rfl, .inl hoffers⟩
    | unsuited hentry hmatches hsuits => exact ⟨rfl, .inr ⟨_, hentry, hmatches, hsuits⟩⟩
    | unmatched hmatches => exact ⟨rfl, hmatches⟩
    | granted hreplaces _ => exact hreplaces

/-- Three requests to the sample module with an import: the first and the last are granted. -/
def importingRequests : List BindRequest :=
  [.native "e" "f" "(i)i" (.finish (.ok ())), .cell "f" 0,
    .native "e" "f" "(*)i" (.fail .unreachableExecuted)]

theorem importing_holds_last :
    Module.ofBytes Module.importingBytes = .ok Module.importing ∧
      (granted importingRequests ⟨.importing, #[]⟩).length = 2 ∧
      ∀ position entry, Module.importing.imports.get? position = some entry →
        ∃ slot, (bindEach importingRequests ⟨.importing, #[]⟩).module.bindings.get? position
            = some slot ∧ slot.Fits .importing entry ∧
          HoldsLast entry .unbound (granted importingRequests ⟨.importing, #[]⟩) slot := by
  have hdecoded := Module.importing_decodes
  obtain ⟨-, -, hslots, -⟩ :=
    slots_hold_last_binding (a := ⟨.importing, #[]⟩) hdecoded importingRequests
  exact ⟨hdecoded, by decide +kernel, hslots⟩

end Assembly

end BoundedWasm
