import BoundedWasm.Proofs.Machine.Stored
import BoundedWasm.Proofs.Module.IndexSpace

/-!
# BoundedWasm.Proofs.Machine.Globals — the laws of a store, with cells that are shared

A global takes a value if it is there, mutable, of the type of the value and, where it is imported,
bound to a cell (`Module.Takes`).  What was written is read back, and no other global changes, but
for those that are bound to the same cell: they show the new word at their own types
(`Machine.StoreLaws`).
-/

namespace BoundedWasm

open BoundedWasm.Action

namespace Module

variable (m : Module)

/-! ### What an index says of a global -/

/-- The global with the index, imported or defined, has the type. -/
def HasGlobal (index : UInt32) (type : GlobalType) : Prop :=
  (∃ position, m.global? index = some (.imported position type)) ∨
    ∃ position entry, m.global? index = some (.defined position) ∧
      m.globals.get? position = some entry ∧ entry.type = type

/-- The global with the index is imported, and its import is bound to the cell. -/
def BoundTo (index : UInt32) (cell : CellId) : Prop :=
  ∃ position type, m.global? index = some (.imported position type) ∧
    m.bindings.get? position = some (.cell cell)

instance (index : UInt32) (cell : CellId) : Decidable (m.BoundTo index cell) :=
  decidable_of_iff ((match m.global? index with
      | some (.imported position _) =>
        match m.bindings.get? position with
        | some (.cell id) => decide (id = cell)
        | _ => false
      | _ => false) = true) <| by
    unfold BoundTo
    rcases m.global? index with _ | ⟨position, type⟩ | position
    · simp
    · rcases hbinding : m.bindings.get? position with _ | _ | id | binding <;> simp [hbinding]
    · simp

/-- The two globals are imported and bound to the same cell. -/
def Shares (index other : UInt32) : Prop := ∃ cell, m.BoundTo index cell ∧ m.BoundTo other cell

/-- The global may be set to the value. -/
structure Takes (index : UInt32) (value : Value) : Prop where
  inSpace : index.toNat < m.globalCount
  accepts : ∃ type, m.HasGlobal index type ∧ type.isMutable = true ∧ value.type = type.valueType
  bound : index.toNat < m.importedGlobalCount → ∃ cell, m.BoundTo index cell

end Module

namespace Machine

/-- What setting one global does, in one state of a machine. -/
structure StoreLaws (m : Module) (s : Machine) (index : UInt32) (value : Value) : Prop where
  succeeds : (∃ s', setGlobal m index value s = .ok () s') ↔ m.Takes index value
  fails : ∀ fault s', setGlobal m index value s = .error fault s' → s' = s
  reads_back : ∀ s', setGlobal m index value s = .ok () s' → s'.globalValue m index = .ok value
  others : ∀ s', setGlobal m index value s = .ok () s' → ∀ other, other ≠ index →
    ¬ m.Shares index other → s'.globalValue m other = s.globalValue m other
  shared : ∀ s', setGlobal m index value s = .ok () s' → ∀ other, m.Shares index other →
    ∃ type seen, m.HasGlobal other type ∧ s'.globalValue m other = .ok seen ∧
      seen.type = type.valueType ∧ ∃ word, value.toWord = .ok word ∧ seen.toWord = .ok word
  rest : ∀ s', setGlobal m index value s = .ok () s' → s' =
    { s with globals := s'.globals, host := { s.host with cells := s'.host.cells } }

end Machine

/-! ### Indices -/

namespace Module

variable {m : Module} {index : UInt32} {position : Nat} {value : Value}

section Imported

variable {type : GlobalType} (h : m.global? index = some (.imported position type))

include h

theorem imported_lt : index.toNat < m.importedGlobalCount := by
  rcases (globals_importsFirst m).cases h with ⟨hlt, -⟩ | ⟨-, -, heq⟩
  · rwa [length_positions] at hlt
  · cases heq

theorem hasGlobal_imported_iff {other : GlobalType} : m.HasGlobal index other ↔ type = other := by
  simp [HasGlobal, h]

theorem boundTo_iff {cell : CellId} :
    m.BoundTo index cell ↔ m.bindings.get? position = some (.cell cell) := by
  simp [BoundTo, h]

theorem takes_imported_iff : m.Takes index value ↔
    Machine.globalFault? type value = none ∧
      ∃ cell, m.bindings.get? position = some (.cell cell) := by
  have hlt := imported_lt h
  rw [Machine.globalFault?_eq_none_iff]
  constructor
  · rintro ⟨-, ⟨other, hother, haccepts⟩, hbound⟩
    obtain rfl := (hasGlobal_imported_iff h).mp hother
    obtain ⟨cell, hcell⟩ := hbound hlt
    exact ⟨haccepts, cell, (boundTo_iff h).mp hcell⟩
  · rintro ⟨haccepts, cell, hcell⟩
    exact ⟨Nat.lt_of_lt_of_le hlt (Nat.le_add_right _ _),
      ⟨type, (hasGlobal_imported_iff h).mpr rfl, haccepts⟩,
      fun _ => ⟨cell, (boundTo_iff h).mpr hcell⟩⟩

end Imported

section Defined

variable (h : m.global? index = some (.defined position))

include h

theorem defined_lt : m.importedGlobalCount ≤ index.toNat ∧ index.toNat < m.globalCount ∧
    position < m.globals.length := by
  rcases (globals_importsFirst m).cases h with ⟨_, _, _, -, -, heq⟩ | ⟨hge, hlt, heq⟩
  · cases heq
  · cases heq
    rw [length_positions] at hge hlt ⊢
    unfold globalCount importedGlobalCount
    exact ⟨hge, by omega, hlt⟩

theorem takes_defined_iff {entry : Global} (hentry : m.globals.get? position = some entry) :
    m.Takes index value ↔ Machine.globalFault? entry.type value = none := by
  obtain ⟨hge, hlt, -⟩ := defined_lt h
  have hhas : ∀ type, m.HasGlobal index type ↔ entry.type = type := fun type => by
    simp [HasGlobal, h, hentry]
  rw [Machine.globalFault?_eq_none_iff]
  constructor
  · rintro ⟨-, ⟨type, hother, haccepts⟩, -⟩
    rwa [(hhas type).mp hother]
  · intro haccepts
    exact ⟨hlt, ⟨entry.type, (hhas _).mpr rfl, haccepts⟩, fun himported => by omega⟩

end Defined

end Module

/-! ### Setting a global -/

namespace Machine

variable {m : Module} {s : Machine} {index : UInt32} {value : Value}

/-- The ways in which setting a global may end: it is refused, or its slot is written, or its
cell. -/
inductive Sets (m : Module) (index : UInt32) (value : Value) (s : Machine) :
    EStateM.Result Fault Machine Unit → Prop
  | refused {fault : Fault} (htakes : ¬ m.Takes index value) : Sets m index value s (.error fault s)
  | slot {position : Nat} (htakes : m.Takes index value)
    (hindex : m.global? index = some (.defined position)) (hlt : position < s.globals.length) :
    Sets m index value s (.ok () { s with globals := s.globals.set position value })
  | cell {position : Nat} {type : GlobalType} {id : CellId} {word : BitVec 32}
    (htakes : m.Takes index value) (hindex : m.global? index = some (.imported position type))
    (hbinding : m.bindings.get? position = some (.cell id)) (htype : value.type = type.valueType)
    (hword : value.toWord = .ok word) : Sets m index value s
      (.ok () { s with host := { s.host with cells := s.host.cells.write id word } })

theorem setGlobal_sets (hm : m.Slotted) (hs : s.HoldsGlobals m) (index : UInt32) (value : Value) :
    Sets m index value s (setGlobal m index value s) := by
  unfold setGlobal
  cases hindex : m.global? index with
  | none =>
    refine .refused fun htakes => ?_
    obtain ⟨type, hhas, -⟩ := htakes.accepts
    simp [Module.HasGlobal, hindex] at hhas
  | some ref =>
    cases ref with
    | defined position =>
      obtain ⟨entry, hentry⟩ := FixedVec.exists_get? (Module.defined_lt hindex).2.2
      obtain ⟨old, hold, -⟩ := hs position entry hentry
      have hlt : position < s.globals.length := by
        by_contra hnot
        rw [FixedVec.get?, dif_neg hnot] at hold
        cases hold
      have htakes : m.Takes index value ↔ _ := Module.takes_defined_iff hindex hentry
      simp only [hentry]
      cases hfault : globalFault? entry.type value with
      | some fault => exact .refused (by rw [htakes, hfault]; exact Option.some_ne_none _)
      | none =>
        simp only [bind_run, get_run, if_pos hlt]
        exact .slot (htakes.mpr hfault) hindex hlt
    | imported position type =>
      have htakes : m.Takes index value ↔ _ := Module.takes_imported_iff hindex
      simp only
      cases hfault : globalFault? type value with
      | some fault => exact .refused (by rw [htakes, hfault]; exact fun h => by cases h.1)
      | none =>
        simp only
        rcases hbinding : m.bindings.get? position with _ | _ | id | binding
        case some.cell =>
          have htype := (globalFault?_eq_none_iff.mp hfault).2
          have hisWord := hm.isWord_of_cell hindex hbinding
          obtain ⟨word, hword⟩ := Value.exists_toWord (htype ▸ hisWord)
          simp only [bind_run, hword, ofExcept_ok_run]
          exact .cell (htakes.mpr ⟨hfault, id, hbinding⟩) hindex hbinding htype hword
        all_goals exact .refused (by simp [htakes, hbinding])

/-! ### What the other globals show -/

theorem globalValue_of_boundTo {type : GlobalType} {cell : CellId}
    (hhas : m.HasGlobal index type) (hbound : m.BoundTo index cell) :
    s.globalValue m index = Value.ofWord type.valueType (s.host.cells.read cell) := by
  obtain ⟨position, type', hindex, hbinding⟩ := hbound
  obtain rfl := (Module.hasGlobal_imported_iff hindex).mp hhas
  simp [globalValue, hindex, hbinding]

theorem globalValue_set_ne {position : Nat} {other : UInt32}
    (hindex : m.global? index = some (.defined position)) (hother : other ≠ index) :
    { s with globals := s.globals.set position value }.globalValue m other
      = s.globalValue m other := by
  unfold globalValue
  rcases hglobal : m.global? other with _ | position' | position'
  · rfl
  · rfl
  · have hne : position ≠ position' := by
      rintro rfl
      exact hother ((Module.globals_importsFirst m).injective _ _ _ hglobal hindex)
    simp only [FixedVec.get?_eq, FixedVec.toList_set, List.getElem?_set_ne hne]

theorem globalValue_write_of_not_boundTo {cell : CellId} {word : BitVec 32} {other : UInt32}
    (hother : ¬ m.BoundTo other cell) :
    { s with host := { s.host with cells := s.host.cells.write cell word } }.globalValue m other
      = s.globalValue m other := by
  unfold globalValue
  rcases hglobal : m.global? other with _ | ⟨position, type⟩ | position
  · rfl
  · rcases hbinding : m.bindings.get? position with _ | _ | id | binding
    case some.cell =>
      have hne : id ≠ cell := by
        rintro rfl
        exact hother ⟨position, type, hglobal, hbinding⟩
      simp only [hbinding, Cells.read_write, if_neg hne]
    all_goals simp only [hbinding]
  · rfl

/-! ### The laws -/

namespace Sets

variable {s' : Machine} {ending : EStateM.Result Fault Machine Unit}

theorem succeeds_iff (h : Sets m index value s ending) :
    (∃ s', ending = .ok () s') ↔ m.Takes index value := by
  cases h with
  | refused htakes => simp [htakes]
  | slot htakes _ _ => simp [htakes]
  | cell htakes _ _ _ _ => simp [htakes]

theorem reads_back (h : Sets m index value s (.ok () s')) :
    s'.globalValue m index = .ok value := by
  cases h with
  | slot htakes hindex hlt =>
    rw [← FixedVec.length_toList] at hlt
    simp only [globalValue, hindex, FixedVec.get?_eq, FixedVec.toList_set,
      List.getElem?_set_self hlt]
  | cell htakes hindex hbinding htype hword =>
    rw [globalValue_of_boundTo ((Module.hasGlobal_imported_iff hindex).mpr rfl)
      ((Module.boundTo_iff hindex).mpr hbinding)]
    simp only [Cells.read_write, if_true]
    rw [← htype, Value.ofWord_of_toWord hword]

theorem others (h : Sets m index value s (.ok () s')) {other : UInt32} (hother : other ≠ index)
    (hshares : ¬ m.Shares index other) : s'.globalValue m other = s.globalValue m other := by
  cases h with
  | slot htakes hindex hlt => exact globalValue_set_ne hindex hother
  | cell htakes hindex hbinding htype hword =>
    have hbound := (Module.boundTo_iff hindex).mpr hbinding
    exact globalValue_write_of_not_boundTo fun hcell => hshares ⟨_, hbound, hcell⟩

theorem shared (hm : m.Slotted) (h : Sets m index value s (.ok () s')) {other : UInt32}
    (hshares : m.Shares index other) :
    ∃ type seen, m.HasGlobal other type ∧ s'.globalValue m other = .ok seen ∧
      seen.type = type.valueType ∧ ∃ word, value.toWord = .ok word ∧ seen.toWord = .ok word := by
  obtain ⟨cell, hcell, hother⟩ := hshares
  cases h with
  | slot htakes hindex hlt =>
    obtain ⟨_, _, himported, -⟩ := hcell
    cases hindex.symm.trans himported
  | @cell position type id word htakes hindex hbinding htype hword =>
    obtain rfl : id = cell := by
      rw [Module.boundTo_iff hindex, hbinding] at hcell
      cases hcell
      rfl
    have hbound := hother
    obtain ⟨position', type', hglobal, hbinding'⟩ := hother
    obtain ⟨seen, hseen⟩ := Value.exists_ofWord (hm.isWord_of_cell hglobal hbinding') word
    have hhas := (Module.hasGlobal_imported_iff hglobal).mpr rfl
    refine ⟨type', seen, hhas, ?_, Value.type_of_ofWord hseen, word, hword,
      Value.toWord_of_ofWord hseen⟩
    rw [globalValue_of_boundTo hhas hbound]
    simp only [Cells.read_write, if_true, hseen]

end Sets

theorem storeLaws (hm : m.Slotted) (hs : s.HoldsGlobals m) (index : UInt32) (value : Value) :
    StoreLaws m s index value := by
  have hsets := setGlobal_sets hm hs index value
  refine ⟨hsets.succeeds_iff, fun fault s' h => ?_, fun s' h => ?_, fun s' h => ?_, fun s' h => ?_,
    fun s' h => ?_⟩
  all_goals rw [h] at hsets
  · cases hsets
    rfl
  · exact hsets.reads_back
  · exact fun other hother hshares => hsets.others hother hshares
  · exact fun other hshares => hsets.shared hm hshares
  · cases hsets <;> rfl

/-- The globals of a prepared module obey the laws of a store, at every moment of every run on a
machine for it: setting one succeeds if it takes the value, changes nothing otherwise, and is seen
where the global is read or another that shares its cell, and nowhere else. -/
theorem global_store_laws (hm : m.Prepared) :
    (∀ s, Reachable m s → ∀ index value, StoreLaws m s index value) ∧
    ∀ moment, Moment.Met m moment → ∀ index value, StoreLaws m moment.machine index value := by
  refine ⟨fun s hs => storeLaws hm.slotted (hs.holdsGlobals hm), ?_⟩
  rintro moment ⟨index, s, hs, hreaches⟩
  exact storeLaws hm.slotted ((shared_holdsGlobals m).of_reaches hreaches (hs.holdsGlobals hm))

end Machine

/-! ### Two globals in one cell -/

namespace Module

theorem bindVariable?_eq {m : Module} (field : String) (cell : CellId)
    (hfault : (m.imports.toList.filter (isGlobalImport field)).findSome? cellFault? = none)
    (hselected : (m.imports.toList.filter (isGlobalImport field)).isEmpty = false) :
    m.bindVariable? field cell
      = .ok (some (m.setBindings (isGlobalImport field) (.cell cell))) := by
  unfold bindVariable? bind?
  simp only [hfault, hselected]
  rfl

/-- The module with a global between its imported functions, with both of its imported globals in
the first cell. -/
@[irreducible] def sharing : Module :=
  (interleaved.setBindings (isGlobalImport "g") (.cell 0)).setBindings (isGlobalImport "h")
    (.cell 0)

theorem sharing_prepared : sharing.Prepared := by
  unfold sharing
  have hfirst := interleaved_prepared.bindVariable
    (bindVariable?_eq "g" 0 (by decide +kernel) (by decide +kernel))
  exact hfirst.bindVariable (bindVariable?_eq "h" 0 (by decide +kernel) (by decide +kernel))

theorem sharing_imported : sharing.global? 0 = some (.imported 0 ⟨.i32, true⟩) ∧
    sharing.global? 1 = some (.imported 2 ⟨.f32, true⟩) := by decide +kernel

theorem sharing_boundTo : sharing.BoundTo 0 0 ∧ sharing.BoundTo 1 0 := by decide +kernel

end Module

namespace Machine

theorem sharing_created : ∃ s, create .sharing {} #[] = .ok s ∧
    s.globalValue .sharing 2 = .ok (.i32 7) := by
  obtain ⟨s, hcreate⟩ : ∃ s, create .sharing {} #[] = .ok s :=
    exists_ok_of_isOk (by decide +kernel)
  have hindex : Module.sharing.global? 2 = some (.defined 0) := by decide +kernel
  have hinit : Module.sharing.globals.toList.map Global.init = [.i32 7] := by decide +kernel
  have hfirst := create_globals hcreate
  rw [hinit] at hfirst
  exact ⟨s, hcreate, by simp [globalValue, hindex, FixedVec.get?_eq, hfirst]⟩

/-- The word that is written to the first global as an integer is read from the second as a
floating-point number, and the global that the module defines keeps its value. -/
theorem sharing_seen : ∃ s s', create .sharing {} #[] = .ok s ∧
    s.globalValue .sharing 2 = .ok (.i32 7) ∧
    setGlobal .sharing 0 (.i32 0x40490FDB) s = .ok () s' ∧
    s'.globalValue .sharing 0 = .ok (.i32 0x40490FDB) ∧
    s'.globalValue .sharing 1 = .ok (.f32 0x40490FDB) ∧
    s'.globalValue .sharing 2 = .ok (.i32 7) := by
  obtain ⟨s, hcreate, hsaved⟩ := sharing_created
  obtain ⟨hfirst, hsecond⟩ := Module.sharing_imported
  obtain ⟨hbound, hbound'⟩ := Module.sharing_boundTo
  obtain ⟨hlaws, -⟩ := global_store_laws Module.sharing_prepared
  have h := hlaws s (.created hcreate) 0 (.i32 0x40490FDB)
  have htakes : Module.sharing.Takes 0 (.i32 0x40490FDB) :=
    (Module.takes_imported_iff hfirst).mpr ⟨rfl, 0, (Module.boundTo_iff hfirst).mp hbound⟩
  obtain ⟨s', hset⟩ := h.succeeds.mpr htakes
  have hapart : ¬ Module.sharing.Shares 0 2 := by
    rintro ⟨cell, -, position, type, himported, -⟩
    have hdefined : Module.sharing.global? 2 = some (.defined 0) := by decide +kernel
    cases himported.symm.trans hdefined
  refine ⟨s, s', hcreate, hsaved, hset, h.reads_back s' hset, ?_, ?_⟩
  · obtain ⟨type, seen, hhas, hseen, htype, word, hword, hseenWord⟩ :=
      h.shared s' hset 1 ⟨0, hbound, hbound'⟩
    obtain rfl := (Module.hasGlobal_imported_iff hsecond).mp hhas
    cases hword
    rw [hseen, ← Value.ofWord_of_toWord hseenWord, htype]
    rfl
  · rw [h.others s' hset 2 (by decide) hapart, hsaved]

end Machine

end BoundedWasm
