import BoundedWasm.Module.Basic

/-!
# BoundedWasm.Module.IndexSpace — what an index refers to

The functions of a module are numbered with the imported ones first, in the order of the imports,
and the defined ones after them; the globals likewise. `Module.function?` and `Module.global?`
find what an index refers to.
-/

namespace BoundedWasm

namespace ImportDesc

def functionType? : ImportDesc → Option UInt32
  | function typeIndex => some typeIndex
  | _ => none

def globalType? : ImportDesc → Option GlobalType
  | global type => some type
  | _ => none

def memoryLimits? : ImportDesc → Option SizeLimits
  | memory limits => some limits
  | _ => none

def tableLimits? : ImportDesc → Option SizeLimits
  | table limits => some limits
  | _ => none

end ImportDesc

/-- A function that an index refers to: an import, or a code of the module. -/
inductive FunctionRef where
  | imported (position : Nat) (typeIndex : UInt32)
  | defined (code : Nat) (typeIndex : UInt32)
  deriving DecidableEq

def FunctionRef.typeIndex : FunctionRef → UInt32
  | imported _ typeIndex | defined _ typeIndex => typeIndex

/-- A global that an index refers to: an import, or a global of the module. -/
inductive GlobalRef where
  | imported (position : Nat) (type : GlobalType)
  | defined (position : Nat)
  deriving DecidableEq

namespace Module

variable (m : Module)

/-! ### Counts -/

/-- The number of imports for which `select` gives something. -/
def countImports {α : Type} (select : ImportDesc → Option α) : Nat :=
  m.imports.toList.countP fun entry => (select entry.desc).isSome

def importedFunctionCount : Nat := m.countImports ImportDesc.functionType?

def importedGlobalCount : Nat := m.countImports ImportDesc.globalType?

def importedMemoryCount : Nat := m.countImports ImportDesc.memoryLimits?

def importedTableCount : Nat := m.countImports ImportDesc.tableLimits?

def functionCount : Nat := m.importedFunctionCount + m.functions.length

def globalCount : Nat := m.importedGlobalCount + m.globals.length

end Module

/-! ### Resolution -/

/-- Walks along `imports`, the first of which stands at `position`, to the one that has `skip`
others of the selected kind before it. Answers its position and what was selected, or else how many
are still to be skipped when the imports are at an end. -/
def locateImport {α : Type} (select : ImportDesc → Option α) :
    (imports : List Import) → (position skip : Nat) → Except Nat (Nat × α)
  | [], _, skip => .error skip
  | entry :: imports, position, skip =>
    match select entry.desc, skip with
    | none, skip => locateImport select imports (position + 1) skip
    | some found, 0 => .ok (position, found)
    | some _, skip + 1 => locateImport select imports (position + 1) skip

namespace Module

variable (m : Module)

/-- The function with an index. -/
def function? (index : UInt32) : Option FunctionRef :=
  match locateImport ImportDesc.functionType? m.imports.toList 0 index.toNat with
  | .ok (position, typeIndex) => some (.imported position typeIndex)
  | .error code => (m.functions.get? code).map fun typeIndex => .defined code typeIndex

/-- The type of the function with an index. -/
def functionType? (index : UInt32) : Option FunctionType := do
  let function ← m.function? index
  m.types.get? function.typeIndex.toNat

/-- The global with an index. -/
def global? (index : UInt32) : Option GlobalRef :=
  match locateImport ImportDesc.globalType? m.imports.toList 0 index.toNat with
  | .ok (position, type) => some (.imported position type)
  | .error position => if position < m.globals.length then some (.defined position) else none

/-- The index of the first exported function with a name. -/
def exportedFunction? (name : String) : Option UInt32 :=
  m.exports.toList.findSome? fun entry =>
    match entry.desc with
    | .function index => if entry.name = name then some index else none
    | _ => none

/-- The limits of the module's memory; an imported memory comes before a defined one. -/
def memoryLimits? : Option SizeLimits :=
  (m.imports.toList.findSome? fun entry => entry.desc.memoryLimits?).or (m.memories.get? 0)

end Module

end BoundedWasm
