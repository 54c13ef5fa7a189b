import BoundedWasm.Decode.Module
import BoundedWasm.Signature

/-!
# BoundedWasm.Binding — putting natives in the place of imports

A host binds a native function to every function import of a given name, or a cell to every
global import of a given field. Nothing is bound unless everything that matches can be.
-/

namespace BoundedWasm

namespace Module

/-- Puts a binding in the slot of every selected import. -/
def setBindings (m : Module) (select : Import → Bool) (binding : NativeBinding) : Module :=
  { m with
    bindings := m.bindings.overwrite 0 <|
      (m.imports.toList.zip m.bindings.toList).map fun (entry, slot) =>
        if select entry then binding else slot }

/-- Binds every selected import, unless one of them has a fault; answers nothing if none is
selected. -/
def bind? (m : Module) (select : Import → Bool) (fault? : Import → Option Fault)
    (binding : NativeBinding) : Except Fault (Option Module) :=
  let selected := m.imports.toList.filter select
  match selected.findSome? fault? with
  | some fault => .error fault
  | none => .ok (if selected.isEmpty then none else some (m.setBindings select binding))

/-- The function imports with this name. -/
def isFunctionImport (moduleName field : String) (entry : Import) : Bool :=
  entry.desc.functionType?.isSome && entry.moduleName == moduleName && entry.field == field

/-- The global imports with this field. -/
def isGlobalImport (field : String) (entry : Import) : Bool :=
  entry.desc.globalType?.isSome && entry.field == field

/-- What keeps a function import from a signature: its type is missing or does not fit. -/
def signatureFault? (m : Module) (signature : Signature) (entry : Import) : Option Fault :=
  match entry.desc.functionType? with
  | none => none
  | some typeIndex =>
    match m.types.get? typeIndex.toNat with
    | none => some .importTypeMissing
    | some type =>
      if signature.accepts type.params.toList type.results.toList then none
      else some .signatureMismatch

/-- What keeps a global import from a cell: its type is wider than a cell. -/
def cellFault? (entry : Import) : Option Fault :=
  match entry.desc.globalType? with
  | none => none
  | some type => if type.valueType.isWord then none else some .variableTooWide

/-- Binds a native function by name; answers nothing if no import has the name. -/
def bindFunction? (m : Module) (moduleName field : String) (signature : Signature)
    (callback : Native) : Except Fault (Option Module) :=
  m.bind? (isFunctionImport moduleName field) (m.signatureFault? signature)
    (.function ⟨callback, signature.inputs.length, signature.outputs.length⟩)

/-- Binds a cell by field; answers nothing if no import has the field. -/
def bindVariable? (m : Module) (field : String) (cell : CellId) : Except Fault (Option Module) :=
  m.bind? (isGlobalImport field) cellFault? (.cell cell)

end Module

namespace Assembly

/-- Takes a bound module and notes the event, if there was something to bind; answers whether. -/
def accept (bound? : Option Module) (event : Event) : Action Assembly Bool := do
  match bound? with
  | none => return false
  | some m =>
    modify fun a => ⟨m, a.log.push event⟩
    return true

/-- Binds a native function to all imports of its name; answers whether there are any. -/
def bindFunction (moduleName field signature : String) (callback : Native) :
    Action Assembly Bool := do
  let signature ← Action.ofExcept (Signature.ofString signature)
  let bound? ← Action.ofExcept <|
    (← get).module.bindFunction? moduleName field signature callback
  accept bound? <|
    .functionBound moduleName field signature.inputs.length signature.outputs.length

/-- Binds a cell to all global imports of a field; answers whether there are any. -/
def bindVariable (field : String) (cell : CellId) : Action Assembly Bool := do
  let bound? ← Action.ofExcept ((← get).module.bindVariable? field cell)
  accept bound? (.variableBound field)

end Assembly

end BoundedWasm
