import BoundedWasm.Proofs.Module.Prepared

/-!
# BoundedWasm.Proofs.Module.Slots — bindings fit the imports they stand for

There is one slot for each import, and what the host puts into it fits the import: a cell stands for
a global of 32 bits, a native function for a function with as many parameters and results
(`NativeBinding.Fits`).  Binding keeps this (`Slotted.setBindings`), so it holds of every prepared
module.
-/

namespace BoundedWasm

/-- The binding may stand in the place of the import. -/
def NativeBinding.Fits (m : Module) (entry : Import) : NativeBinding → Prop
  | .unbound => True
  | .cell _ => ∃ type, entry.desc.globalType? = some type ∧ type.valueType.isWord = true
  | .function binding => ∃ typeIndex type, entry.desc.functionType? = some typeIndex ∧
    m.types.get? typeIndex.toNat = some type ∧ binding.inputs = type.params.length ∧
    binding.outputs = type.results.length

namespace Module

/-- Each import has a slot, and what is in it fits. -/
structure Slotted (m : Module) : Prop where
  length_eq : m.bindings.length = m.imports.length
  fits : ∀ position entry slot, m.imports.get? position = some entry →
    m.bindings.get? position = some slot → slot.Fits m entry

variable {m bound : Module}

theorem Coherent.slotted (h : m.Coherent) : m.Slotted := by
  have hlength : m.bindings.length = m.imports.length := by
    rw [← FixedVec.length_toList m.bindings, h.bindings, List.length_replicate]
  refine ⟨hlength, fun position entry slot _ hslot => ?_⟩
  rw [FixedVec.get?_eq, h.bindings] at hslot
  rw [List.eq_of_mem_replicate (List.mem_of_getElem? hslot)]
  trivial

/-- The slots after a binding: those of selected imports have it, the others are as they were. -/
theorem toList_setBindings (h : m.Slotted) (select : Import → Bool) (binding : NativeBinding) :
    (m.setBindings select binding).bindings.toList
      = (m.imports.toList.zip m.bindings.toList).map fun (entry, slot) =>
        if select entry then binding else slot := by
  obtain ⟨slots, hslots⟩ : ∃ slots, slots
      = (m.imports.toList.zip m.bindings.toList).map fun (entry, slot) =>
        if select entry then binding else slot := ⟨_, rfl⟩
  have hlength : slots.length = m.bindings.length := by
    have := h.length_eq
    simp only [hslots, List.length_map, List.length_zip, FixedVec.length_toList]
    omega
  have hset : (m.setBindings select binding).bindings = m.bindings.overwrite 0 slots := by
    rw [hslots]
    rfl
  have hdrop : m.bindings.toList.drop (0 + slots.length) = [] := by
    rw [Nat.zero_add, hlength, ← FixedVec.length_toList, List.drop_length]
  rw [← hslots, hset, FixedVec.toList_overwrite _ _ _ (by omega), hdrop, List.append_nil]
  rfl

/-- What a successful binding found out and did. -/
theorem bind?_eq_some {select : Import → Bool} {fault? : Import → Option Fault}
    {binding : NativeBinding} (h : m.bind? select fault? binding = .ok (some bound)) :
    bound = m.setBindings select binding ∧
      ∀ entry ∈ m.imports.toList, select entry = true → fault? entry = none := by
  simp only [bind?] at h
  split at h
  · cases h
  · rename_i hnone
    split at h
    · cases h
    · cases h
      refine ⟨rfl, fun entry hentry hselect => ?_⟩
      exact List.findSome?_eq_none_iff.mp hnone entry (List.mem_filter.mpr ⟨hentry, hselect⟩)

theorem Slotted.setBindings (h : m.Slotted) {select : Import → Bool} {binding : NativeBinding}
    (hfits : ∀ entry ∈ m.imports.toList, select entry = true → binding.Fits m entry) :
    (m.setBindings select binding).Slotted := by
  have htoList := toList_setBindings h select binding
  refine ⟨?_, fun position entry slot hentry hslot => ?_⟩
  · have hlength := congrArg List.length htoList
    have hold := h.length_eq
    simp only [List.length_map, List.length_zip, FixedVec.length_toList] at hlength
    show (m.setBindings select binding).bindings.length = m.imports.length
    omega
  · have hentry : m.imports.get? position = some entry := hentry
    rw [FixedVec.get?_eq, htoList, List.getElem?_map] at hslot
    obtain ⟨⟨entry', old⟩, hpair, rfl⟩ := Option.map_eq_some_iff.mp hslot
    obtain ⟨himport, hbinding⟩ := List.getElem?_zip_eq_some.mp hpair
    have hold := h.fits position entry old hentry (by rw [FixedVec.get?_eq]; exact hbinding)
    rw [FixedVec.get?_eq] at hentry
    cases hentry.symm.trans himport
    show (if select entry' then binding else old : NativeBinding).Fits m entry'
    split
    · exact hfits entry' (List.mem_of_getElem? himport) ‹_›
    · exact hold

/-! ### What the two kinds of binding check -/

theorem length_eq_of_allAccept {markers : List Marker} {types : List ValueType}
    (h : Signature.allAccept markers types = true) : markers.length = types.length := by
  unfold Signature.allAccept at h
  rw [Bool.and_eq_true] at h
  exact eq_of_beq h.1

theorem fits_of_signature {moduleName field : String} {signature : Signature} {callback : Native}
    {entry : Import} (hselect : isFunctionImport moduleName field entry = true)
    (hfault : m.signatureFault? signature entry = none) :
    (NativeBinding.function ⟨callback, signature.inputs.length, signature.outputs.length⟩).Fits m
      entry := by
  obtain ⟨typeIndex, htypeIndex⟩ : ∃ typeIndex, entry.desc.functionType? = some typeIndex := by
    unfold isFunctionImport at hselect
    simp only [Bool.and_eq_true] at hselect
    exact Option.isSome_iff_exists.mp hselect.1.1
  unfold signatureFault? at hfault
  simp only [htypeIndex] at hfault
  cases htype : m.types.get? typeIndex.toNat with
  | none =>
    rw [htype] at hfault
    cases hfault
  | some type =>
    simp only [htype] at hfault
    split at hfault
    · rename_i haccepts
      unfold Signature.accepts at haccepts
      rw [Bool.and_eq_true] at haccepts
      have hinputs := length_eq_of_allAccept haccepts.1
      have houtputs := length_eq_of_allAccept haccepts.2
      rw [FixedVec.length_toList, FixedVec.length_toList] at hinputs houtputs
      exact ⟨typeIndex, type, htypeIndex, htype, hinputs, houtputs⟩
    · cases hfault

theorem fits_of_cell {field : String} {cell : CellId} {entry : Import}
    (hselect : isGlobalImport field entry = true) (hfault : cellFault? entry = none) :
    (NativeBinding.cell cell).Fits m entry := by
  obtain ⟨type, htype⟩ : ∃ type, entry.desc.globalType? = some type := by
    unfold isGlobalImport at hselect
    rw [Bool.and_eq_true] at hselect
    exact Option.isSome_iff_exists.mp hselect.1
  unfold cellFault? at hfault
  simp only [htype] at hfault
  split at hfault
  · exact ⟨type, htype, ‹_›⟩
  · cases hfault

theorem Prepared.slotted (h : m.Prepared) : m.Slotted := by
  induction h with
  | decoded h =>
    obtain ⟨lastOrder, d, hsound, -, rfl⟩ := sound_of_decoded h
    exact hsound.coherent.slotted
  | bindFunction _ h ih =>
    obtain ⟨rfl, hfaults⟩ := bind?_eq_some h
    exact ih.setBindings fun entry hentry hselect =>
      fits_of_signature hselect (hfaults entry hentry hselect)
  | bindVariable _ h ih =>
    obtain ⟨rfl, hfaults⟩ := bind?_eq_some h
    exact ih.setBindings fun entry hentry hselect =>
      fits_of_cell hselect (hfaults entry hentry hselect)

end Module

/-! ### Imports by index -/

/-- The import that was found is where it is said to be. -/
theorem getElem?_of_locateImport {α : Type} {select : ImportDesc → Option α}
    {imports : List Import} {start skip position : Nat} {found : α}
    (h : locateImport select imports start skip = .ok (position, found)) :
    start ≤ position ∧ ∃ entry, imports[position - start]? = some entry ∧
      select entry.desc = some found := by
  induction imports generalizing start skip with
  | nil => cases h
  | cons entry imports ih =>
    have hlater : ∀ {skip'}, locateImport select imports (start + 1) skip' = .ok (position, found) →
        start ≤ position ∧ ∃ entry', (entry :: imports)[position - start]? = some entry' ∧
          select entry'.desc = some found := by
      intro skip' h
      obtain ⟨hle, entry', hentry, hselect⟩ := ih h
      refine ⟨by omega, entry', ?_, hselect⟩
      rw [show position - start = position - (start + 1) + 1 by omega, List.getElem?_cons_succ]
      exact hentry
    unfold locateImport at h
    split at h
    · exact hlater h
    · rename_i hselect
      cases h
      exact ⟨Nat.le_refl _, entry, by simp, hselect⟩
    · exact hlater h

/-- A global that is bound to a cell has 32 bits. -/
theorem Module.Slotted.isWord_of_cell {m : Module} (h : m.Slotted) {index : UInt32} {position : Nat}
    {type : GlobalType} {id : CellId} (hglobal : m.global? index = some (.imported position type))
    (hbinding : m.bindings.get? position = some (.cell id)) : type.valueType.isWord = true := by
  unfold global? at hglobal
  split at hglobal
  · rename_i hlocate
    cases hglobal
    obtain ⟨-, entry, hentry, hselect⟩ := getElem?_of_locateImport hlocate
    rw [Nat.sub_zero, ← FixedVec.get?_eq] at hentry
    obtain ⟨type', htype, hword⟩ := h.fits _ entry _ hentry hbinding
    rw [hselect] at htype
    cases htype
    exact hword
  · split at hglobal <;> cases hglobal

/-- A native function takes and leaves as many operands as the type of its import says. -/
theorem Module.Slotted.fits_function {m : Module} (h : m.Slotted) {index typeIndex : UInt32}
    {position : Nat} {binding : FunctionBinding}
    (hindex : m.function? index = some (.imported position typeIndex))
    (hbinding : m.bindings.get? position = some (.function binding)) :
    ∃ type, m.types.get? typeIndex.toNat = some type ∧ binding.inputs = type.params.length ∧
      binding.outputs = type.results.length := by
  unfold function? at hindex
  split at hindex
  · rename_i hlocate
    cases hindex
    obtain ⟨-, entry, hentry, hselect⟩ := getElem?_of_locateImport hlocate
    rw [Nat.sub_zero, ← FixedVec.get?_eq] at hentry
    obtain ⟨typeIndex', type, htypeIndex, htype, hinputs, houtputs⟩ :=
      h.fits _ entry _ hentry hbinding
    rw [hselect] at htypeIndex
    cases htypeIndex
    exact ⟨type, htype, hinputs, houtputs⟩
  · obtain ⟨_, -, hdefined⟩ := Option.map_eq_some_iff.mp hindex
    cases hdefined

/-! ### A module with an import -/

namespace Module

/-- A module with two functions from an integer to an integer: the first is imported, the second
hands its argument on to the first. -/
def importingBytes : List UInt8 :=
  [0x00, 0x61, 0x73, 0x6D, 0x01, 0x00, 0x00, 0x00,
    0x01, 0x06, 0x01, 0x60, 0x01, 0x7F, 0x01, 0x7F,
    0x02, 0x07, 0x01, 0x01, 0x65, 0x01, 0x66, 0x00, 0x00,
    0x03, 0x02, 0x01, 0x00,
    0x0A, 0x08, 0x01, 0x06, 0x00, 0x20, 0x00, 0x10, 0x00, 0x0B]

@[irreducible] def importing : Module :=
  match Module.ofBytes importingBytes with
  | .ok m => m
  | .error _ => .empty

/-- The signature of a function from an integer to an integer. -/
def integerSignature : Signature := ⟨FixedVec.empty.put .int, FixedVec.empty.put .int⟩

/-- The module is decoded, and its import takes a program of the host with that signature. -/
theorem importing_computed : (Module.ofBytes importingBytes).isOk = true ∧
    importing.imports.toList.map (isFunctionImport "e" "f") = [true] ∧
    (importing.imports.toList.filter (isFunctionImport "e" "f")).findSome?
      (importing.signatureFault? integerSignature) = none := by
  decide +kernel

theorem importing_decodes : Module.ofBytes importingBytes = .ok importing := by
  obtain ⟨m, hm⟩ := Action.exists_ok_of_isOk importing_computed.1
  simp only [importing, hm]

theorem importing_prepared : importing.Prepared := .decoded importing_decodes

/-- That module, with a program of the host in the import's place. -/
def importingWith (callback : Native) : Module :=
  importing.setBindings (isFunctionImport "e" "f") (.function ⟨callback, 1, 1⟩)

theorem importingWith_prepared (callback : Native) : (importingWith callback).Prepared := by
  obtain ⟨-, himports, hfault⟩ := importing_computed
  obtain ⟨entry, himport, hselect⟩ := List.map_eq_singleton_iff.mp himports
  have hbind : importing.bindFunction? "e" "f" integerSignature callback
      = .ok (some (importingWith callback)) := by
    have hselected : (importing.imports.toList.filter (isFunctionImport "e" "f")).isEmpty
        = false := by
      simp [himport, hselect]
    unfold bindFunction? bind?
    simp only [hfault, hselected]
    rfl
  exact .bindFunction importing_prepared hbind

theorem bindings_importingWith (callback : Native) :
    (importingWith callback).bindings.toList = [.function ⟨callback, 1, 1⟩] := by
  obtain ⟨entry, himport, hselect⟩ := List.map_eq_singleton_iff.mp importing_computed.2.1
  have hslotted := importing_prepared.slotted
  have hlength : importing.bindings.toList.length = 1 := by
    rw [FixedVec.length_toList, hslotted.length_eq, ← FixedVec.length_toList, himport]
    rfl
  obtain ⟨slot, hslot⟩ := List.length_eq_one_iff.mp hlength
  rw [importingWith, toList_setBindings hslotted, himport, hslot]
  simp only [List.zip_cons_cons, List.zip_nil_right, List.map_cons, List.map_nil, hselect, if_true]

end Module

end BoundedWasm
