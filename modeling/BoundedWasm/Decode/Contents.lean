import BoundedWasm.Decode.Expression
import BoundedWasm.Module.IndexSpace
import BoundedWasm.Reader.Name
import BoundedWasm.SectionId

/-!
# BoundedWasm.Decode.Contents — what each kind of section adds to a module

The payload of a section is read entry by entry into the table that it belongs to. A section begins
with the number of its entries, which is refused at once when the table has no room for so many, so
that an oversized section adds nothing. Entries read before a fault stay in the module.
-/

namespace BoundedWasm

open Limits

/-- A module being built from the bytes at a reader. -/
structure Draft where
  reader : Reader
  module : Module

namespace Parser

/-- The length of a vector that must fit into `free` places. -/
def count (free : Nat) : Parser Nat := do
  let n ← uleb32
  if free < n.toNat then throw .vectorTooLong
  return n.toNat

def valueType : Parser ValueType := do
  Action.ofExcept (ValueType.ofByte (← byte))

/-- Exactly `count` value types, the first of them at the head. -/
def valueTypes : (count : Nat) → Parser (List ValueType)
  | 0 => return []
  | count + 1 => do
    let type ← valueType
    let types ← valueTypes count
    return type :: types

/-- The byte that begins every function type. -/
def functionTypeTag : UInt8 := 0x60

def functionType : Parser FunctionType := do
  if (← byte) ≠ functionTypeTag then throw .invalidTypeTag
  let params ← valueTypes (← count maxParams)
  let results ← uleb32
  if maxResults < results.toNat then throw .multipleResults
  let results ← valueTypes results.toNat
  Action.ofExcept (FunctionType.ofLists params results)

/-- A flag that says whether a maximum follows, the minimum, and the maximum. -/
def sizeLimits : Parser SizeLimits := do
  match ← byte with
  | 0x00 => return ⟨← uleb32, none⟩
  | 0x01 =>
    let min ← uleb32
    let max ← uleb32
    if max < min then throw .limitsReversed
    return ⟨min, some max⟩
  | _ => throw .invalidLimitsFlag

/-- Limits of a memory, in pages. -/
def memoryLimits : Parser SizeLimits := do
  let limits ← sizeLimits
  let excessive (pages : UInt32) := decide (maxPages < pages.toNat)
  if excessive limits.min || limits.max.any excessive then throw .tooManyPages
  return limits

def globalType : Parser GlobalType := do
  let type ← valueType
  match ← byte with
  | 0x00 => return ⟨type, false⟩
  | 0x01 => return ⟨type, true⟩
  | _ => throw .invalidMutability

/-- An index below the number of types. -/
def typeIndex (types : Nat) : Parser UInt32 := do
  let index ← uleb32
  if types ≤ index.toNat then throw .typeIndexOutOfRange
  return index

/-- The element types that a table may have. -/
def referenceTypes : List UInt8 := [0x70, 0x6F]

/-- What an import provides, in a module with `types` types. -/
def importDesc (types : Nat) : Parser ImportDesc := do
  match ← byte with
  | 0x00 => return .function (← typeIndex types)
  | 0x01 =>
    if (← byte) ∉ referenceTypes then throw .invalidValueType
    return .table (← sizeLimits)
  | 0x02 => return .memory (← memoryLimits)
  | 0x03 => return .global (← globalType)
  | 0x04 =>
    if (← byte) ≠ 0 then throw .invalidTagAttribute
    return .tag (← typeIndex types)
  | _ => throw .invalidImportKind

def importEntry (types : Nat) : Parser Import := do
  let moduleName ← name maxNameLength
  let field ← name maxNameLength
  let desc ← importDesc types
  return ⟨moduleName, field, desc⟩

def globalEntry : Parser Global := do
  let type ← globalType
  let init ← constant type.valueType
  return ⟨type, init⟩

def exportEntry : Parser Export := do
  let name ← name maxNameLength
  let kind ← byte
  let index ← uleb32
  match kind with
  | 0x00 => return ⟨name, .function index⟩
  | 0x01 => return ⟨name, .table index⟩
  | 0x02 => return ⟨name, .memory index⟩
  | 0x03 => return ⟨name, .global index⟩
  | _ => throw .invalidExportKind

/-- Groups of locals; `total` locals were declared by the groups before them. -/
def localGroups : (count total : Nat) → Parser (List LocalGroup)
  | 0, _ => return []
  | count + 1, total => do
    let number ← uleb32
    let type ← valueType
    let total := total + number.toNat
    if maxLocalsPerFunction < total then throw .tooManyLocals
    let groups ← localGroups count total
    return ⟨number, type⟩ :: groups

/-- The mode of a data segment; an explicit memory index must be zero. -/
def dataMode : Parser Unit := do
  let mode ← uleb32
  if mode = 0 then return
  else if mode = 2 then if (← uleb32) ≠ 0 then throw .multipleMemories
  else if mode = 1 then throw .passiveData
  else throw .invalidDataMode

def dataOffset : Parser UInt32 := do
  match ← constant .i32 with
  | .i32 bits => return UInt32.ofBitVec bits
  | _ => throw .invalidDataOffset

def dataSegment : Parser DataSegment := do
  dataMode
  let offset ← dataOffset
  let length ← uleb32
  let bytes ← bytes length.toNat
  return ⟨offset, bytes⟩

end Parser

/-- The number of locals that groups declare together. -/
def LocalGroup.total : List LocalGroup → Nat
  | [] => 0
  | group :: groups => group.count.toNat + total groups

namespace Draft

def reading {α : Type} (p : Parser α) : Action Draft α :=
  Action.onPart reader (fun d r => { d with reader := r }) p

def update (f : Module → Except Fault Module) : Action Draft Unit := do
  let m ← Action.ofExcept (f (← get).module)
  modify fun d => { d with module := m }

/-- Reads a count of entries that must fit into `free` places, and then each entry. -/
def entries (free : Module → Nat) (entry : Action Draft Unit) : Action Draft Unit := do
  let count ← reading (Parser.count (free (← get).module))
  Action.times entry count

def typeSection : Action Draft Unit :=
  entries (fun m => m.types.free) do
    let type ← reading Parser.functionType
    update fun m => m.addType type

/-- Each import gets a binding slot, which is unbound. -/
def importSection : Action Draft Unit :=
  entries (fun m => m.imports.free) do
    let entry ← reading (Parser.importEntry (← get).module.types.length)
    update fun m => m.addImport entry
    update fun m => m.addBinding .unbound

def functionSection : Action Draft Unit :=
  entries (fun m => m.functions.free) do
    let index ← reading (Parser.typeIndex (← get).module.types.length)
    update fun m => m.addFunction index

/-- Tables are not supported, so none may be declared. -/
def tableSection : Action Draft Unit := do
  if (← reading Parser.uleb32) ≠ 0 then throw .tablesUnsupported

/-- A module with an imported memory defines none. -/
def memorySection : Action Draft Unit := do
  let m := (← get).module
  let count ← reading (Parser.count m.memories.free)
  if 0 < count ∧ 0 < m.importedMemoryCount then throw .multipleMemories
  Action.times (do
    let limits ← reading Parser.memoryLimits
    update fun m => m.addMemory limits) count

def globalSection : Action Draft Unit :=
  entries (fun m => m.globals.free) do
    let entry ← reading Parser.globalEntry
    update fun m => m.addGlobal entry

def exportSection : Action Draft Unit :=
  entries (fun m => m.exports.free) do
    let entry ← reading Parser.exportEntry
    update fun m => m.addExport entry

def startSection : Action Draft Unit := do
  let index ← reading Parser.uleb32
  modify fun d => { d with module := { d.module with start := some index } }

/-- Elements would fill tables, so none may be declared. -/
def elementSection : Action Draft Unit := tableSection

def dataCountSection : Action Draft Unit := do
  let count ← reading Parser.uleb32
  modify fun d => { d with module := { d.module with dataCount := some count } }

/-- Reads a body with a reader of its own into the module's table of instructions. -/
def onBody {α : Type} (action : Action (Body maxInstructions) α) : Action Draft α :=
  Action.onPart (fun d => ⟨d.reader, d.module.instructions⟩)
    (fun d b => ⟨b.reader, { d.module with instructions := b.pool }⟩) action

/-- One function body of `size` bytes, which are all that the reader holds. -/
def code (size : UInt32) : Action Draft Unit := do
  let groups ← reading do Parser.localGroups (← Parser.count maxLocalGroups) 0
  let locals ← Action.ofExcept (FixedVec.empty.extend groups)
  let (start, length) ← onBody Body.expression
  if !(← get).reader.atEnd then throw .bodySizeMismatch
  let code : Code :=
    { locals, numLocals := UInt32.ofNat (LocalGroup.total groups), start := UInt32.ofNat start,
      length := UInt32.ofNat length, size }
  update fun m => m.addCode code

/-- Works on a part of the bytes alone; the draft's own reader stays where it is. -/
def within (part : Reader) (action : Action Draft Unit) : Action Draft Unit :=
  Action.onPart (fun d => { d with reader := part }) (fun d e => { e with reader := d.reader })
    action

/-- There must be as many bodies as declared functions. -/
def codeSection : Action Draft Unit := do
  let m := (← get).module
  let count ← reading (Parser.count m.codes.free)
  if count ≠ m.functions.length then throw .functionCodeMismatch
  Action.times (do
    let size ← reading Parser.uleb32
    let part ← reading (Parser.sub size.toNat)
    within part (code size)) count

def dataSection : Action Draft Unit := do
  let m := (← get).module
  let count ← reading (Parser.count m.data.free)
  if m.dataCount.any fun expected => expected.toNat ≠ count then throw .dataCountMismatch
  Action.times (do
    let segment ← reading Parser.dataSegment
    update fun m => m.addData segment) count

/-- Reads the payload of a section of the given kind; a custom section adds nothing. -/
def contents : SectionId → Action Draft Unit
  | .custom => pure ()
  | .type => typeSection
  | .imports => importSection
  | .function => functionSection
  | .table => tableSection
  | .memory => memorySection
  | .global => globalSection
  | .exports => exportSection
  | .start => startSection
  | .element => elementSection
  | .code => codeSection
  | .data => dataSection
  | .dataCount => dataCountSection

end Draft

end BoundedWasm
