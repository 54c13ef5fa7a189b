import BoundedWasm.FixedVec.Lemmas
import BoundedWasm.Instruction
import BoundedWasm.Limits
import BoundedWasm.Native

/-!
# BoundedWasm.Module.Basic — the parts of a module

A module is a record of tables, one for each kind of definition, each of a fixed capacity. The
bodies of all functions lie in one table of instructions; a `Code` says which stretch of it is its
own. The bindings stand beside the imports, one for each.
-/

namespace BoundedWasm

open Limits

/-- Bounds on the size of a memory in pages, or of a table in elements. -/
structure SizeLimits where
  min : UInt32
  max : Option UInt32
  deriving DecidableEq, Inhabited

structure FunctionType where
  params : FixedVec ValueType maxParams := .empty
  results : FixedVec ValueType maxResults := .empty
  deriving Inhabited

/-- The function type with these parameters and results, if there is room for them. -/
def FunctionType.ofLists (params results : List ValueType) : Except Fault FunctionType := do
  let params ← FixedVec.empty.extend params
  let results ← FixedVec.empty.extend results
  return ⟨params, results⟩

structure GlobalType where
  valueType : ValueType
  isMutable : Bool
  deriving DecidableEq, Inhabited

inductive ImportDesc where
  | function (typeIndex : UInt32)
  | table (limits : SizeLimits)
  | memory (limits : SizeLimits)
  | global (type : GlobalType)
  | tag (typeIndex : UInt32)
  deriving DecidableEq, Inhabited

structure Import where
  moduleName : String
  field : String
  desc : ImportDesc
  deriving DecidableEq, Inhabited

inductive ExportDesc where
  | function (index : UInt32)
  | table (index : UInt32)
  | memory (index : UInt32)
  | global (index : UInt32)
  deriving DecidableEq, Inhabited

structure Export where
  name : String
  desc : ExportDesc
  deriving DecidableEq, Inhabited

/-- A global defined by the module, with its first value. -/
structure Global where
  type : GlobalType
  init : Value
  deriving DecidableEq, Inhabited

/-- Consecutive locals of one type. -/
structure LocalGroup where
  count : UInt32
  valueType : ValueType
  deriving DecidableEq, Inhabited

/-- A function body: its locals, and its stretch of the table of instructions. -/
structure Code where
  locals : FixedVec LocalGroup maxLocalGroups := .empty
  numLocals : UInt32 := 0
  start : UInt32 := 0
  length : UInt32 := 0
  size : UInt32 := 0
  deriving Inhabited

/-- Bytes that a new machine finds in its memory. -/
structure DataSegment where
  offset : UInt32
  bytes : List UInt8
  deriving DecidableEq, Inhabited

structure Module where
  types : FixedVec FunctionType maxTypes := .empty
  imports : FixedVec Import maxImports := .empty
  functions : FixedVec UInt32 maxFunctions := .empty
  memories : FixedVec SizeLimits maxMemories := .empty
  globals : FixedVec Global maxGlobals := .empty
  exports : FixedVec Export maxExports := .empty
  start : Option UInt32 := none
  codes : FixedVec Code maxFunctions := .empty
  data : FixedVec DataSegment maxDataSegments := .empty
  dataCount : Option UInt32 := none
  instructions : FixedVec Instruction maxInstructions := .empty
  bindings : FixedVec NativeBinding maxImports := .empty

namespace Module

/-- A module without any definition. -/
def empty : Module := {}

instance : Inhabited Module := ⟨empty⟩

/-- Empties every table. -/
def clear (m : Module) : Module where
  types := m.types.clear
  imports := m.imports.clear
  functions := m.functions.clear
  memories := m.memories.clear
  globals := m.globals.clear
  exports := m.exports.clear
  start := none
  codes := m.codes.clear
  data := m.data.clear
  dataCount := none
  instructions := m.instructions.clear
  bindings := m.bindings.clear

/-- Every table of a module that is cleared is a new one. -/
theorem clear_eq_empty (m : Module) : m.clear = empty := by
  simp only [clear, FixedVec.clear_eq_empty]
  rfl

/-- Whether nothing is defined; the data count and the bindings do not matter. -/
def isEmpty (m : Module) : Bool :=
  m.types.isEmpty && m.imports.isEmpty && m.functions.isEmpty && m.memories.isEmpty
    && m.globals.isEmpty && m.exports.isEmpty && m.start.isNone && m.codes.isEmpty
    && m.data.isEmpty && m.instructions.isEmpty

/-! ### Adding one entry -/

def addType (m : Module) (entry : FunctionType) : Except Fault Module :=
  return { m with types := ← m.types.push entry }

/-- An import alone, without a binding slot. -/
def addImport (m : Module) (entry : Import) : Except Fault Module :=
  return { m with imports := ← m.imports.push entry }

def addBinding (m : Module) (entry : NativeBinding) : Except Fault Module :=
  return { m with bindings := ← m.bindings.push entry }

def addFunction (m : Module) (typeIndex : UInt32) : Except Fault Module :=
  return { m with functions := ← m.functions.push typeIndex }

def addMemory (m : Module) (entry : SizeLimits) : Except Fault Module :=
  return { m with memories := ← m.memories.push entry }

def addGlobal (m : Module) (entry : Global) : Except Fault Module :=
  return { m with globals := ← m.globals.push entry }

def addExport (m : Module) (entry : Export) : Except Fault Module :=
  return { m with exports := ← m.exports.push entry }

def addCode (m : Module) (entry : Code) : Except Fault Module :=
  return { m with codes := ← m.codes.push entry }

def addData (m : Module) (entry : DataSegment) : Except Fault Module :=
  return { m with data := ← m.data.push entry }

def addInstruction (m : Module) (entry : Instruction) : Except Fault Module :=
  return { m with instructions := ← m.instructions.push entry }

/-- The instructions of a body, if its stretch lies inside the table. -/
def body (m : Module) (code : Code) : Except Fault (List Instruction) :=
  let start := code.start.toNat
  let stop := start + code.length.toNat
  if stop ≤ m.instructions.length then .ok (m.instructions.slice start stop)
  else .error .bodyOutsidePool

end Module

end BoundedWasm
