import BoundedWasm.Proofs.Module.Requests
import BoundedWasm.Proofs.Module.Runnable
import Mathlib.Data.List.Nodup
import Mathlib.Logic.ExistsUnique

/-!
# BoundedWasm.Proofs.Module.IndexSpace — imports come first, without gap or overlap

The imports of one kind stand among those of the other kinds, at certain positions
(`Module.positions`).  An index below their number refers to the import at the position of that
rank, and the indices behind it refer to the definitions one after the other (`ImportsFirst`), so
that each import of the kind and each definition has one index.  In a prepared module every function
that an index refers to has a type.
-/

namespace BoundedWasm

open BoundedWasm.Action Limits

/-! ### What an index should refer to -/

namespace Module

variable (m : Module)

/-- Where the selected imports stand, in their order. -/
def positions {α : Type} (select : ImportDesc → Option α) : List Nat :=
  m.imports.toList.findIdxs fun entry => (select entry.desc).isSome

/-- The import at a position is a function, and `ref` refers to it. -/
def ImportsFunction (position : Nat) (ref : FunctionRef) : Prop :=
  ∃ entry typeIndex, m.imports.get? position = some entry ∧ entry.desc = .function typeIndex ∧
    ref = .imported position typeIndex

/-- The function is one that the module defines, and `ref` refers to it. -/
def DefinesFunction (code : Nat) (ref : FunctionRef) : Prop :=
  ∃ typeIndex, m.functions.get? code = some typeIndex ∧ ref = .defined code typeIndex

/-- The import at a position is a global, and `ref` refers to it. -/
def ImportsGlobal (position : Nat) (ref : GlobalRef) : Prop :=
  ∃ entry type, m.imports.get? position = some entry ∧ entry.desc = .global type ∧
    ref = .imported position type

/-- The global is one that the module defines, and `ref` refers to it. -/
def DefinesGlobal (position : Nat) (ref : GlobalRef) : Prop :=
  position < m.globals.length ∧ ref = .defined position

end Module

/-- An index refers to the import at the position of its rank if it is below the number of these
positions, behind that to one of so many definitions, and otherwise to nothing. -/
structure Resolves {Ref : Type} (resolve : UInt32 → Option Ref) (positions : List Nat)
    (definitions : Nat) (Imports Defines : Nat → Ref → Prop) : Prop where
  imported : ∀ (index : UInt32) (h : index.toNat < positions.length),
    ∃ ref, resolve index = some ref ∧ Imports positions[index.toNat] ref
  defined : ∀ index : UInt32, positions.length ≤ index.toNat →
    index.toNat < positions.length + definitions →
    ∃ ref, resolve index = some ref ∧ Defines (index.toNat - positions.length) ref
  outside : ∀ index : UInt32, positions.length + definitions ≤ index.toNat → resolve index = none

/-- Besides, no two indices refer to the same, and each of the imports and each of the definitions
has one index. -/
structure ImportsFirst {Ref : Type} (resolve : UInt32 → Option Ref) (positions : List Nat)
    (definitions : Nat) (Imports Defines : Nat → Ref → Prop) : Prop
    extends Resolves resolve positions definitions Imports Defines where
  injective : ∀ (i j : UInt32) (ref : Ref), resolve i = some ref → resolve j = some ref → i = j
  covers_imports : ∀ position ∈ positions,
    ∃! index, ∃ ref, resolve index = some ref ∧ Imports position ref
  covers_definitions : ∀ definition < definitions,
    ∃! index, ∃ ref, resolve index = some ref ∧ Defines definition ref

/-! ### Walking along the imports -/

section Walk

variable {α : Type} {select : ImportDesc → Option α}

/-- The import of a rank below the number of the selected ones is found. -/
theorem locateImport_lt {imports : List Import} {start skip : Nat}
    (h : skip < (imports.findIdxs (fun entry => (select entry.desc).isSome) start).length) :
    ∃ found, locateImport select imports start skip
      = .ok ((imports.findIdxs (fun entry => (select entry.desc).isSome) start)[skip], found) := by
  induction imports generalizing start skip with
  | nil => simp at h
  | cons entry imports ih =>
    cases hselect : select entry.desc with
    | none =>
      simp only [List.findIdxs_cons, hselect, Option.isSome_none, Bool.false_eq_true, if_false]
        at h ⊢
      simpa [locateImport, hselect] using ih h
    | some found =>
      simp only [List.findIdxs_cons, hselect, Option.isSome_some, if_true] at h ⊢
      cases skip with
      | zero => exact ⟨found, by simp [locateImport, hselect]⟩
      | succ skip => simpa [locateImport, hselect] using ih (Nat.lt_of_succ_lt_succ h)

/-- Of a higher rank there is none, and the selected ones are taken off. -/
theorem locateImport_ge {imports : List Import} {start skip : Nat}
    (h : (imports.findIdxs (fun entry => (select entry.desc).isSome) start).length ≤ skip) :
    locateImport select imports start skip = .error
      (skip - (imports.findIdxs (fun entry => (select entry.desc).isSome) start).length) := by
  induction imports generalizing start skip with
  | nil => simp [locateImport]
  | cons entry imports ih =>
    cases hselect : select entry.desc with
    | none =>
      simp only [List.findIdxs_cons, hselect, Option.isSome_none, Bool.false_eq_true, if_false]
        at h ⊢
      simpa [locateImport, hselect] using ih h
    | some found =>
      simp only [List.findIdxs_cons, hselect, Option.isSome_some, if_true, List.length_cons] at h ⊢
      obtain ⟨skip, rfl⟩ := Nat.exists_eq_add_of_le' (Nat.le_trans (Nat.succ_pos _) h)
      rw [Nat.add_sub_add_right]
      simpa [locateImport, hselect] using ih (Nat.le_of_succ_le_succ h)

end Walk

namespace Module

variable {m : Module} {α : Type} {select : ImportDesc → Option α}

theorem length_positions (m : Module) (select : ImportDesc → Option α) :
    (m.positions select).length = m.countImports select :=
  List.length_findIdxs

theorem nodup_positions (m : Module) (select : ImportDesc → Option α) :
    (m.positions select).Nodup :=
  List.nodup_findIdxs

theorem length_positions_le (m : Module) (select : ImportDesc → Option α) :
    (m.positions select).length ≤ maxImports := by
  rw [length_positions]
  refine Nat.le_trans List.countP_le_length ?_
  rw [FixedVec.length_toList]
  exact m.imports.length_le

/-- An index below the number of selected imports. -/
theorem locate_lt {skip : Nat} (h : skip < (m.positions select).length) : ∃ entry found,
    m.imports.get? (m.positions select)[skip] = some entry ∧ select entry.desc = some found ∧
      locateImport select m.imports.toList 0 skip = .ok ((m.positions select)[skip], found) := by
  obtain ⟨found, hlocate⟩ := locateImport_lt h
  obtain ⟨-, entry, hentry, hselect⟩ := getElem?_of_locateImport hlocate
  exact ⟨entry, found, by rw [FixedVec.get?_eq]; exact hentry, hselect, hlocate⟩

theorem function?_imported {index : UInt32}
    (h : index.toNat < (m.positions ImportDesc.functionType?).length) :
    ∃ ref, m.function? index = some ref ∧
      m.ImportsFunction (m.positions ImportDesc.functionType?)[index.toNat] ref := by
  obtain ⟨entry, typeIndex, hentry, hselect, hlocate⟩ := locate_lt h
  refine ⟨.imported _ typeIndex, by simp [function?, hlocate], entry, typeIndex, hentry, ?_, rfl⟩
  exact ImportDesc.functionType?_eq_some.mp hselect

theorem function?_behind {index : UInt32} (h : m.importedFunctionCount ≤ index.toNat) :
    m.function? index = (m.functions.get? (index.toNat - m.importedFunctionCount)).map
      (.defined (index.toNat - m.importedFunctionCount)) := by
  rw [importedFunctionCount, ← length_positions] at h ⊢
  unfold function?
  rw [locateImport_ge h]
  rfl

theorem global?_imported {index : UInt32}
    (h : index.toNat < (m.positions ImportDesc.globalType?).length) :
    ∃ ref, m.global? index = some ref ∧
      m.ImportsGlobal (m.positions ImportDesc.globalType?)[index.toNat] ref := by
  obtain ⟨entry, type, hentry, hselect, hlocate⟩ := locate_lt h
  refine ⟨.imported _ type, by simp [global?, hlocate], entry, type, hentry, ?_, rfl⟩
  exact ImportDesc.globalType?_eq_some.mp hselect

theorem global?_behind {index : UInt32} (h : m.importedGlobalCount ≤ index.toNat) :
    m.global? index = if index.toNat - m.importedGlobalCount < m.globals.length then
      some (.defined (index.toNat - m.importedGlobalCount)) else none := by
  rw [importedGlobalCount, ← length_positions] at h ⊢
  unfold global?
  rw [locateImport_ge h]
  rfl

end Module

/-! ### One index for each -/

/-- A reference tells what it refers to: one import, or one definition. -/
structure TellsApart {Ref : Type} (Imports Defines : Nat → Ref → Prop) : Prop where
  imports : ∀ {p q ref}, Imports p ref → Imports q ref → p = q
  defines : ∀ {p q ref}, Defines p ref → Defines q ref → p = q
  apart : ∀ {p q ref}, Imports p ref → ¬ Defines q ref

namespace Resolves

variable {Ref : Type} {resolve : UInt32 → Option Ref} {positions : List Nat} {definitions : Nat}
  {Imports Defines : Nat → Ref → Prop} (h : Resolves resolve positions definitions Imports Defines)

include h

theorem cases {index : UInt32} {ref : Ref} (hindex : resolve index = some ref) :
    (∃ hlt : index.toNat < positions.length, Imports positions[index.toNat] ref) ∨
      positions.length ≤ index.toNat ∧ Defines (index.toNat - positions.length) ref := by
  rcases Nat.lt_or_ge index.toNat positions.length with hlt | hge
  · obtain ⟨ref', href, himports⟩ := h.imported index hlt
    rw [hindex] at href
    cases href
    exact .inl ⟨hlt, himports⟩
  rcases Nat.lt_or_ge index.toNat (positions.length + definitions) with hlt | hout
  · obtain ⟨ref', href, hdefines⟩ := h.defined index hge hlt
    rw [hindex] at href
    cases href
    exact .inr ⟨hge, hdefines⟩
  · rw [h.outside index hout] at hindex
    cases hindex

/-- An index that refers to an import is its rank. -/
theorem index_of_import (hapart : TellsApart Imports Defines) {index : UInt32} {ref : Ref}
    {position : Nat} (hindex : resolve index = some ref) (himports : Imports position ref) :
    ∃ hlt : index.toNat < positions.length, positions[index.toNat] = position := by
  rcases h.cases hindex with ⟨hlt, hother⟩ | ⟨-, hdefines⟩
  · exact ⟨hlt, hapart.imports hother himports⟩
  · exact absurd hdefines (hapart.apart himports)

/-- An index that refers to a definition counts the imports and those before it. -/
theorem index_of_definition (hapart : TellsApart Imports Defines) {index : UInt32} {ref : Ref}
    {definition : Nat} (hindex : resolve index = some ref) (hdefines : Defines definition ref) :
    index.toNat = positions.length + definition := by
  rcases h.cases hindex with ⟨_, himports⟩ | ⟨hge, hother⟩
  · exact absurd hdefines (hapart.apart himports)
  · have := hapart.defines hother hdefines
    omega

theorem importsFirst (hapart : TellsApart Imports Defines) (hnodup : positions.Nodup)
    (hbound : positions.length + definitions ≤ 1 <<< 32) :
    ImportsFirst resolve positions definitions Imports Defines where
  toResolves := h
  injective i j ref hi hj := by
    apply UInt32.toNat_inj.mp
    rcases h.cases hi with ⟨hlt, himports⟩ | ⟨hge, hdefines⟩
    · obtain ⟨hlt', heq⟩ := h.index_of_import hapart hj himports
      exact hnodup.getElem_inj_iff.mp heq.symm
    · have := h.index_of_definition hapart hj hdefines
      omega
  covers_imports position hmem := by
    obtain ⟨rank, hrank, rfl⟩ := List.getElem_of_mem hmem
    have hnat : (UInt32.ofNat rank).toNat = rank :=
      UInt32.toNat_ofNat_of_lt' (Nat.lt_of_lt_of_le (by omega) hbound)
    obtain ⟨ref, href, himports⟩ := h.imported (UInt32.ofNat rank) (by omega)
    simp only [hnat] at himports
    refine ⟨_, ⟨ref, href, himports⟩, ?_⟩
    rintro index ⟨ref', href', himports'⟩
    obtain ⟨hlt, heq⟩ := h.index_of_import hapart href' himports'
    rw [← hnodup.getElem_inj_iff.mp heq, UInt32.ofNat_toNat]
  covers_definitions definition hdefinition := by
    have hnat : (UInt32.ofNat (positions.length + definition)).toNat
        = positions.length + definition :=
      UInt32.toNat_ofNat_of_lt' (Nat.lt_of_lt_of_le (by omega) hbound)
    obtain ⟨ref, href, hdefines⟩ :=
      h.defined (UInt32.ofNat (positions.length + definition)) (by omega) (by omega)
    rw [hnat, Nat.add_sub_cancel_left] at hdefines
    refine ⟨_, ⟨ref, href, hdefines⟩, ?_⟩
    rintro index ⟨ref', href', hdefines'⟩
    rw [← h.index_of_definition hapart href' hdefines', UInt32.ofNat_toNat]

end Resolves

namespace Module

variable {m : Module}

theorem functions_importsFirst (m : Module) : ImportsFirst m.function?
    (m.positions ImportDesc.functionType?) m.functions.length m.ImportsFunction
    m.DefinesFunction := by
  have hapart : TellsApart m.ImportsFunction m.DefinesFunction := by
    refine ⟨?_, ?_, ?_⟩
    · rintro p q ref ⟨_, _, -, -, rfl⟩ ⟨_, _, -, -, heq⟩
      cases heq
      rfl
    · rintro p q ref ⟨_, -, rfl⟩ ⟨_, -, heq⟩
      cases heq
      rfl
    · rintro p q ref ⟨_, _, -, -, rfl⟩ ⟨_, -, heq⟩
      cases heq
  have hcount := m.length_positions ImportDesc.functionType?
  refine Resolves.importsFirst ⟨fun index h => function?_imported h, ?_, ?_⟩ hapart
    (m.nodup_positions _) ?_
  · intro index hge hlt
    rw [hcount] at hge hlt ⊢
    obtain ⟨typeIndex, htypeIndex⟩ :=
      FixedVec.exists_get? (Nat.sub_lt_left_of_lt_add hge hlt : _ < m.functions.length)
    exact ⟨_, by rw [function?_behind hge]; exact congrArg _ htypeIndex, typeIndex, htypeIndex, rfl⟩
  · intro index hge
    rw [hcount] at hge
    have hnone : m.functions.get? (index.toNat - m.importedFunctionCount) = none :=
      dif_neg (Nat.not_lt.mpr (Nat.le_sub_of_add_le' hge))
    rw [function?_behind (Nat.le_of_add_right_le hge), hnone, Option.map_none]
  · have hpositions := m.length_positions_le ImportDesc.functionType?
    have hdefined := m.functions.length_le
    simp only [maxImports, maxFunctions, Nat.reduceShiftLeft] at *
    omega

theorem globals_importsFirst (m : Module) : ImportsFirst m.global?
    (m.positions ImportDesc.globalType?) m.globals.length m.ImportsGlobal m.DefinesGlobal := by
  have hapart : TellsApart m.ImportsGlobal m.DefinesGlobal := by
    refine ⟨?_, ?_, ?_⟩
    · rintro p q ref ⟨_, _, -, -, rfl⟩ ⟨_, _, -, -, heq⟩
      cases heq
      rfl
    · rintro p q ref ⟨-, rfl⟩ ⟨-, heq⟩
      cases heq
      rfl
    · rintro p q ref ⟨_, _, -, -, rfl⟩ ⟨-, heq⟩
      cases heq
  have hcount := m.length_positions ImportDesc.globalType?
  refine Resolves.importsFirst ⟨fun index h => global?_imported h, ?_, ?_⟩ hapart
    (m.nodup_positions _) ?_
  · intro index hge hlt
    rw [hcount] at hge hlt ⊢
    have hdefined := Nat.sub_lt_left_of_lt_add hge hlt
    exact ⟨_, by rw [global?_behind hge]; exact if_pos hdefined, hdefined, rfl⟩
  · intro index hge
    rw [hcount] at hge
    rw [global?_behind (Nat.le_of_add_right_le hge)]
    exact if_neg (Nat.not_lt.mpr (Nat.le_sub_of_add_le' hge))
  · have hpositions := m.length_positions_le ImportDesc.globalType?
    have hdefined := m.globals.length_le
    simp only [maxImports, maxGlobals, Nat.reduceShiftLeft] at *
    omega

/-! ### Types of functions -/

theorem Prepared.imports_fit (h : m.Prepared) :
    ∀ entry ∈ m.imports.toList, entry.desc.FitsTypes m.types.length := by
  obtain ⟨decoded, hwell, -, heq⟩ := h.exists_wellFormed
  rw [heq]
  exact hwell.imports

/-- Every function of a prepared module has a type. -/
theorem Prepared.exists_functionType (h : m.Prepared) {index : UInt32}
    (hlt : index.toNat < m.functionCount) : ∃ type, m.functionType? index = some type := by
  have hspace := functions_importsFirst m
  have hcount := m.length_positions ImportDesc.functionType?
  have htype : ∀ ref : FunctionRef, m.function? index = some ref →
      ref.typeIndex.toNat < m.types.length → ∃ type, m.functionType? index = some type := by
    intro ref href hfits
    obtain ⟨type, hfound⟩ := FixedVec.exists_get? hfits
    exact ⟨type, by simp [functionType?, href, hfound]⟩
  rcases Nat.lt_or_ge index.toNat (m.positions ImportDesc.functionType?).length with himp | hge
  · obtain ⟨ref, href, entry, typeIndex, hentry, hdesc, rfl⟩ := hspace.imported index himp
    rw [FixedVec.get?_eq] at hentry
    have hfits := h.imports_fit entry (List.mem_of_getElem? hentry)
    exact htype _ href (hfits.typeIndex_lt typeIndex (by rw [hdesc]; rfl))
  · obtain ⟨ref, href, typeIndex, htypeIndex, rfl⟩ :=
      hspace.defined index hge (by rw [hcount]; exact hlt)
    rw [FixedVec.get?_eq] at htypeIndex
    exact htype _ href (h.functions_lt typeIndex (List.mem_of_getElem? htypeIndex))

theorem Prepared.start_lt (h : m.Prepared) {index : UInt32} (hstart : m.start = some index) :
    index.toNat < m.functionCount := by
  obtain ⟨decoded, hwell, -, heq⟩ := h.exists_wellFormed
  rw [heq] at hstart ⊢
  exact hwell.start_lt index hstart

/-- A function that is found by its name is exported, so its index is one of the module. -/
theorem Prepared.exportedFunction_lt (h : m.Prepared) {name : String} {index : UInt32}
    (hname : m.exportedFunction? name = some index) : index.toNat < m.functionCount := by
  obtain ⟨decoded, hwell, -, heq⟩ := h.exists_wellFormed
  rw [heq] at hname ⊢
  obtain ⟨entry, hentry, hfound⟩ := List.exists_of_findSome?_eq_some hname
  have hlt := hwell.exports_lt entry hentry
  cases hdesc : entry.desc with
  | function found =>
    rw [hdesc] at hfound hlt
    simp only [Option.ite_none_right_eq_some, Option.some.injEq] at hfound
    rw [← hfound.2]
    exact hlt
  | _ => simp [hdesc] at hfound

/-- Functions and globals are numbered with the imports first and without gap or overlap, whatever
stands between the imports of the kind, and as many as the module counts.  In a prepared module
every function has a type, the start function and those that are found by name among them. -/
theorem index_spaces (m : Module) :
    (ImportsFirst m.function? (m.positions ImportDesc.functionType?) m.functions.length
      m.ImportsFunction m.DefinesFunction ∧
      m.functionCount = (m.positions ImportDesc.functionType?).length + m.functions.length) ∧
    (ImportsFirst m.global? (m.positions ImportDesc.globalType?) m.globals.length
      m.ImportsGlobal m.DefinesGlobal ∧
      m.globalCount = (m.positions ImportDesc.globalType?).length + m.globals.length) ∧
    (m.Prepared →
      (∀ index, index.toNat < m.functionCount → ∃ type, m.functionType? index = some type) ∧
      (∀ index, m.start = some index → ∃ type, m.functionType? index = some type) ∧
      ∀ name index, m.exportedFunction? name = some index →
        ∃ type, m.functionType? index = some type) := by
  refine ⟨⟨functions_importsFirst m, ?_⟩, ⟨globals_importsFirst m, ?_⟩, fun h => ⟨?_, ?_, ?_⟩⟩
  · rw [length_positions]
    rfl
  · rw [length_positions]
    rfl
  · exact fun index hlt => h.exists_functionType hlt
  · exact fun index hstart => h.exists_functionType (h.start_lt hstart)
  · exact fun name index hname => h.exists_functionType (h.exportedFunction_lt hname)

/-- A module whose imports are a global, a function, another global and another function, with a
function and a global of its own; the first function is run at the start and the last is
exported. -/
def interleavedBytes : List UInt8 :=
  [0x00, 0x61, 0x73, 0x6D, 0x01, 0x00, 0x00, 0x00,
    0x01, 0x09, 0x02, 0x60, 0x00, 0x00, 0x60, 0x01, 0x7F, 0x01, 0x7F,
    0x02, 0x1B, 0x04,
    0x01, 0x65, 0x01, 0x67, 0x03, 0x7F, 0x01,
    0x01, 0x65, 0x01, 0x66, 0x00, 0x00,
    0x01, 0x65, 0x01, 0x68, 0x03, 0x7D, 0x01,
    0x01, 0x65, 0x01, 0x6B, 0x00, 0x01,
    0x03, 0x02, 0x01, 0x01,
    0x06, 0x06, 0x01, 0x7F, 0x01, 0x41, 0x07, 0x0B,
    0x07, 0x07, 0x01, 0x03, 0x72, 0x75, 0x6E, 0x00, 0x02,
    0x08, 0x01, 0x00,
    0x0A, 0x06, 0x01, 0x04, 0x00, 0x20, 0x00, 0x0B]

@[irreducible] def interleaved : Module :=
  match Module.ofBytes interleavedBytes with
  | .ok m => m
  | .error _ => .empty

theorem interleaved_prepared : interleaved.Prepared := by
  obtain ⟨m, hm⟩ : ∃ m, Module.ofBytes interleavedBytes = .ok m :=
    exists_ok_of_isOk (by decide +kernel)
  simp only [interleaved, hm]
  exact .decoded hm

/-- Its second function is the fourth import, and the exported one, which has a type, comes behind
the imports. -/
theorem interleaved_numbered : interleaved.Prepared ∧
    interleaved.positions ImportDesc.functionType? = [1, 3] ∧
    (∃ ref, interleaved.function? 1 = some ref ∧ interleaved.ImportsFunction 3 ref) ∧
    (∃ ref, interleaved.function? 2 = some ref ∧ interleaved.DefinesFunction 0 ref) ∧
    interleaved.exportedFunction? "run" = some 2 ∧
    ∃ type, interleaved.functionType? 2 = some type := by
  obtain ⟨⟨hfunctions, -⟩, -, htypes⟩ := index_spaces interleaved
  obtain ⟨-, -, hexported⟩ := htypes interleaved_prepared
  have hpositions : interleaved.positions ImportDesc.functionType? = [1, 3] := by decide +kernel
  have hdefinitions : interleaved.functions.length = 1 := by decide +kernel
  have hname : interleaved.exportedFunction? "run" = some 2 := by decide +kernel
  rw [hpositions, hdefinitions] at hfunctions
  exact ⟨interleaved_prepared, hpositions, hfunctions.imported 1 (by decide),
    hfunctions.defined 2 (by decide) (by decide), hname, hexported _ _ hname⟩

end Module

end BoundedWasm
