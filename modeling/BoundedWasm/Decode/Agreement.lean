import BoundedWasm.Module.IndexSpace

/-!
# BoundedWasm.Decode.Agreement — what the sections of a module owe each other

Conditions that no section can check by itself: every defined function has a body, announced data
exists, the start function and every export exist, and no two exports have the same name.
-/

namespace BoundedWasm.Module

variable (m : Module)

/-- Whether an export refers to something in the index space of its kind. Tables are never defined,
only imported. -/
def hasExported : ExportDesc → Bool
  | .function index => index.toNat < m.functionCount
  | .table index => index.toNat < m.importedTableCount
  | .memory index => index.toNat < m.importedMemoryCount + m.memories.length
  | .global index => index.toNat < m.globalCount

/-- What is wrong with one export among all. -/
def exportFault? (entry : Export) : Option Fault :=
  if !m.hasExported entry.desc then some .exportOutOfRange
  else if 1 < m.exports.toList.countP (fun other => other.name == entry.name) then
    some .duplicateExport
  else none

/-- The first condition that the module breaks; `sawData` says whether it had a data section. -/
def agreementFault? (sawData : Bool) : Option Fault :=
  if m.codes.length ≠ m.functions.length then some .functionCodeMismatch
  else if !sawData && m.dataCount.any (· ≠ 0) then some .dataSectionMissing
  else if m.start.any fun index => m.functionCount ≤ index.toNat then some .startOutOfRange
  else m.exports.toList.findSome? m.exportFault?

end BoundedWasm.Module
