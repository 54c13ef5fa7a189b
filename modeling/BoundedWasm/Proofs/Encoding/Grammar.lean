import BoundedWasm.SectionId
import BoundedWasm.Proofs.Module.WellFormed

/-!
# BoundedWasm.Proofs.Encoding.Grammar — the byte strings that encode a module

The binary format as relations between what is encoded and its bytes, written down without the
decoder.  Where the format leaves a choice there are several byte strings for one module: integers
may be padded (`Leb128.Unsigned`, `Leb128.Signed`), empty sections may be left out or written,
custom sections may stand between any two others (`Module.SectionsBy`), and the labels of a branch
table are not part of a module.

`Module.Regular` says which modules there are encodings of: those that keep to the rules of the
format.
-/

namespace BoundedWasm

open Limits

/-! ### Integers -/

namespace Leb128

/-- An unsigned integer of `bits` bits: a byte below 128 is the last, the others carry seven bits
and say that more follow. -/
inductive Unsigned : (bits n : Nat) → List UInt8 → Prop
  | last {bits : Nat} {b : UInt8} (hlast : b.toNat < 128) (hfits : b.toNat < 1 <<< bits) :
    Unsigned bits b.toNat [b]
  | more {bits n : Nat} {b : UInt8} {bytes : List UInt8} (hmore : 128 ≤ b.toNat)
    (hbits : 7 < bits) (h : Unsigned (bits - 7) n bytes) :
    Unsigned bits (b.toNat - 128 + 128 * n) (b :: bytes)

/-- A signed integer of `bits` bits: the last byte holds the sign in its seventh bit. -/
inductive Signed : (bits : Nat) → Int → List UInt8 → Prop
  | nonneg {bits : Nat} {b : UInt8} (hlast : b.toNat < 64) (hfits : b.toNat < 1 <<< (bits - 1)) :
    Signed bits b.toNat [b]
  | neg {bits : Nat} {b : UInt8} (hsign : 64 ≤ b.toNat) (hlast : b.toNat < 128)
    (hfits : 128 - b.toNat ≤ 1 <<< (bits - 1)) : Signed bits (b.toNat - 128) [b]
  | more {bits : Nat} {z : Int} {b : UInt8} {bytes : List UInt8} (hmore : 128 ≤ b.toNat)
    (hbits : 7 < bits) (h : Signed (bits - 7) z bytes) :
    Signed bits (b.toNat - 128 + 128 * z) (b :: bytes)

end Leb128

/-! ### Sequences -/

/-- One thing after the other. -/
inductive EachBy {α : Type} (E : α → List UInt8 → Prop) : List α → List UInt8 → Prop
  | nil : EachBy E [] []
  | cons {x : α} {xs : List α} {bytes more : List UInt8} (hx : E x bytes) (hxs : EachBy E xs more) :
    EachBy E (x :: xs) (bytes ++ more)

/-- Their number, and one thing after the other. -/
inductive VectorBy {α : Type} (E : α → List UInt8 → Prop) : List α → List UInt8 → Prop
  | mk {xs : List α} {count bytes : List UInt8} (hcount : Leb128.Unsigned 32 xs.length count)
    (hxs : EachBy E xs bytes) : VectorBy E xs (count ++ bytes)

/-- Text with its number of bytes in front. -/
inductive NameBy : String → List UInt8 → Prop
  | mk {name : String} {size : List UInt8} (hsize : Leb128.Unsigned 32 name.utf8ByteSize size) :
    NameBy name (size ++ name.toUTF8.data.toList)

/-! ### Types -/

inductive ValueType.EncodedBy : ValueType → List UInt8 → Prop
  | mk (type : ValueType) : EncodedBy type [type.toByte]

inductive FunctionType.EncodedBy : FunctionType → List UInt8 → Prop
  | mk {type : FunctionType} {params results : List UInt8}
    (hparams : VectorBy ValueType.EncodedBy type.params.toList params)
    (hresults : VectorBy ValueType.EncodedBy type.results.toList results) :
    EncodedBy type (0x60 :: (params ++ results))

inductive GlobalType.EncodedBy : GlobalType → List UInt8 → Prop
  | immutable (type : ValueType) : EncodedBy ⟨type, false⟩ [type.toByte, 0x00]
  | mutable (type : ValueType) : EncodedBy ⟨type, true⟩ [type.toByte, 0x01]

inductive SizeLimits.EncodedBy : SizeLimits → List UInt8 → Prop
  | unbounded {min : UInt32} {least : List UInt8} (hmin : Leb128.Unsigned 32 min.toNat least) :
    EncodedBy ⟨min, none⟩ (0x00 :: least)
  | bounded {min max : UInt32} {least greatest : List UInt8}
    (hmin : Leb128.Unsigned 32 min.toNat least) (hmax : Leb128.Unsigned 32 max.toNat greatest) :
    EncodedBy ⟨min, some max⟩ (0x01 :: (least ++ greatest))

/-! ### Entries of sections -/

/-- What an import provides; a table may be one of functions or of external references. -/
inductive ImportDesc.EncodedBy : ImportDesc → List UInt8 → Prop
  | function {typeIndex : UInt32} {index : List UInt8}
    (hindex : Leb128.Unsigned 32 typeIndex.toNat index) :
    EncodedBy (.function typeIndex) (0x00 :: index)
  | table {limits : SizeLimits} {reference : UInt8} {bounds : List UInt8}
    (hreference : reference = 0x70 ∨ reference = 0x6F) (hlimits : limits.EncodedBy bounds) :
    EncodedBy (.table limits) (0x01 :: reference :: bounds)
  | memory {limits : SizeLimits} {bounds : List UInt8} (hlimits : limits.EncodedBy bounds) :
    EncodedBy (.memory limits) (0x02 :: bounds)
  | global {type : GlobalType} {bytes : List UInt8} (htype : type.EncodedBy bytes) :
    EncodedBy (.global type) (0x03 :: bytes)
  | tag {typeIndex : UInt32} {index : List UInt8}
    (hindex : Leb128.Unsigned 32 typeIndex.toNat index) :
    EncodedBy (.tag typeIndex) (0x04 :: 0x00 :: index)

inductive Import.EncodedBy : Import → List UInt8 → Prop
  | mk {entry : Import} {moduleName field desc : List UInt8}
    (hmodule : NameBy entry.moduleName moduleName) (hfield : NameBy entry.field field)
    (hdesc : entry.desc.EncodedBy desc) : EncodedBy entry (moduleName ++ (field ++ desc))

/-- An index, of a function or of a type. -/
inductive IndexBy : UInt32 → List UInt8 → Prop
  | mk {index : UInt32} {bytes : List UInt8} (h : Leb128.Unsigned 32 index.toNat bytes) :
    IndexBy index bytes

/-- A constant expression: the code of the type, the number, and `end`. -/
inductive Value.EncodedBy : Value → List UInt8 → Prop
  | i32 {bits : BitVec 32} {number : List UInt8} (h : Leb128.Signed 32 bits.toInt number) :
    EncodedBy (.i32 bits) (0x41 :: (number ++ [0x0B]))
  | i64 {bits : BitVec 64} {number : List UInt8} (h : Leb128.Signed 64 bits.toInt number) :
    EncodedBy (.i64 bits) (0x42 :: (number ++ [0x0B]))
  | f32 (bits : BitVec 32) :
    EncodedBy (.f32 bits) (0x43 :: (Bytes.toLittleEndian 4 bits.toNat ++ [0x0B]))
  | f64 (bits : BitVec 64) :
    EncodedBy (.f64 bits) (0x44 :: (Bytes.toLittleEndian 8 bits.toNat ++ [0x0B]))

inductive Global.EncodedBy : Global → List UInt8 → Prop
  | mk {entry : Global} {type init : List UInt8} (htype : entry.type.EncodedBy type)
    (hinit : entry.init.EncodedBy init) : EncodedBy entry (type ++ init)

/-- The byte that says what kind of definition is exported. -/
def ExportDesc.kind : ExportDesc → UInt8
  | .function _ => 0x00
  | .table _ => 0x01
  | .memory _ => 0x02
  | .global _ => 0x03

inductive Export.EncodedBy : Export → List UInt8 → Prop
  | mk {entry : Export} {name index : List UInt8} (hname : NameBy entry.name name)
    (hindex : Leb128.Unsigned 32 entry.desc.index.toNat index) :
    EncodedBy entry (name ++ entry.desc.kind :: index)

inductive LocalGroup.EncodedBy : LocalGroup → List UInt8 → Prop
  | mk {group : LocalGroup} {count : List UInt8}
    (hcount : Leb128.Unsigned 32 group.count.toNat count) :
    EncodedBy group (count ++ [group.valueType.toByte])

/-- A segment of the first memory, which may be named or not. -/
inductive DataSegment.ModeBy : List UInt8 → Prop
  | active {mode : List UInt8} (hmode : Leb128.Unsigned 32 0 mode) : ModeBy mode
  | explicit {mode memory : List UInt8} (hmode : Leb128.Unsigned 32 2 mode)
    (hmemory : Leb128.Unsigned 32 0 memory) : ModeBy (mode ++ memory)

inductive DataSegment.EncodedBy : DataSegment → List UInt8 → Prop
  | mk {segment : DataSegment} {mode offset size : List UInt8} (hmode : ModeBy mode)
    (hoffset : (Value.i32 segment.offset.toBitVec).EncodedBy offset)
    (hsize : Leb128.Unsigned 32 segment.bytes.length size) :
    EncodedBy segment (mode ++ (offset ++ (size ++ segment.bytes)))

/-! ### Instructions -/

inductive Opcode.EncodedBy : Opcode → List UInt8 → Prop
  | byte {opcode : Opcode} (h : opcode.code < 256) : EncodedBy opcode [UInt8.ofNat opcode.code]
  | extended {opcode : Opcode} {k : Nat} {number : List UInt8} (h : opcode.code = 0xFC00 + k)
    (hnumber : Leb128.Unsigned 32 k number) : EncodedBy opcode (0xFC :: number)

inductive BlockType.EncodedBy : BlockType → List UInt8 → Prop
  | empty : EncodedBy .empty [0x40]
  | value (type : ValueType) : EncodedBy (.value type) [type.toByte]
  | typeIndex {index : UInt32} {number : List UInt8} (h : Leb128.Signed 33 index.toNat number) :
    EncodedBy (.typeIndex index) number

/-- The immediates of each kind.  The length of a block is not written; the labels of a branch table
are written but not kept. -/
inductive ImmediateKind.EncodedBy : ImmediateKind → Immediate → Immediate → List UInt8 → Prop
  | none : EncodedBy .none .none .none []
  | index {n : UInt32} {bytes : List UInt8} (h : Leb128.Unsigned 32 n.toNat bytes) :
    EncodedBy .index (.u32 n) .none bytes
  | i32 {bits : BitVec 32} {bytes : List UInt8} (h : Leb128.Signed 32 bits.toInt bytes) :
    EncodedBy .i32 (.i32 bits) .none bytes
  | i64 {bits : BitVec 64} {bytes : List UInt8} (h : Leb128.Signed 64 bits.toInt bytes) :
    EncodedBy .i64 (.i64 bits) .none bytes
  | f32 (bits : BitVec 32) : EncodedBy .f32 (.f32 bits) .none (Bytes.toLittleEndian 4 bits.toNat)
  | f64 (bits : BitVec 64) : EncodedBy .f64 (.f64 bits) .none (Bytes.toLittleEndian 8 bits.toNat)
  | block {type : BlockType} {bytes : List UInt8} (length : UInt32) (h : type.EncodedBy bytes) :
    EncodedBy .block (.block type) (.u32 length) bytes
  | memArg {align offset : UInt32} {first second : List UInt8}
    (halign : Leb128.Unsigned 32 align.toNat first)
    (hoffset : Leb128.Unsigned 32 offset.toNat second) :
    EncodedBy .memArg (.u32 align) (.u32 offset) (first ++ second)
  | callIndirect {type table : UInt32} {first second : List UInt8}
    (htype : Leb128.Unsigned 32 type.toNat first)
    (htable : Leb128.Unsigned 32 table.toNat second) :
    EncodedBy .callIndirect (.u32 type) (.u32 table) (first ++ second)
  | brTable {count default : UInt32} {labels : List UInt32} {vector last : List UInt8}
    (hcount : labels.length = count.toNat) (hlabels : VectorBy IndexBy labels vector)
    (hdefault : Leb128.Unsigned 32 default.toNat last) :
    EncodedBy .brTable (.u32 count) (.u32 default) (vector ++ last)
  | reserved : EncodedBy .reserved .none .none [0x00]

inductive Instruction.EncodedBy : Instruction → List UInt8 → Prop
  | mk {i : Instruction} {code immediates : List UInt8} (hcode : i.opcode.EncodedBy code)
    (himmediates : i.opcode.immediates.EncodedBy i.first i.second immediates) :
    EncodedBy i (code ++ immediates)

/-- Instructions in which blocks are nested at most `depth` deep, every block is closed by an `end`,
and says how many instructions it has. -/
inductive Balanced : (depth : Nat) → List Instruction → Prop
  | nil {depth : Nat} : Balanced depth []
  | plain {depth : Nat} {i : Instruction} {rest : List Instruction}
    (hopens : i.opcode.opensBlock = false) (hend : i.opcode ≠ .endBlock)
    (h : Balanced depth rest) : Balanced depth (i :: rest)
  | block {depth : Nat} {i last : Instruction} {inner rest : List Instruction}
    (hopens : i.opcode.opensBlock = true) (hlast : last.opcode = .endBlock)
    (hlength : i.second = .u32 (UInt32.ofNat inner.length)) (hinner : Balanced depth inner)
    (h : Balanced (depth + 1) rest) : Balanced (depth + 1) (i :: (inner ++ last :: rest))

/-- A body: its instructions and the `end` that closes it. -/
inductive IsBody : List Instruction → Prop
  | mk {inner : List Instruction} {last : Instruction} (hinner : Balanced maxBlockDepth inner)
    (hlast : last.opcode = .endBlock) : IsBody (inner ++ [last])

/-- The size of a code, its locals and its body, which take up so many bytes. -/
inductive Code.EncodedBy (m : Module) : Code → List UInt8 → Prop
  | mk {code : Code} {instructions : List Instruction} {size locals body : List UInt8}
    (hbody : m.body code = .ok instructions) (hsize : Leb128.Unsigned 32 code.size.toNat size)
    (hlocals : VectorBy LocalGroup.EncodedBy code.locals.toList locals)
    (hinstructions : EachBy Instruction.EncodedBy instructions body)
    (hlength : (locals ++ body).length = code.size.toNat) :
    EncodedBy m code (size ++ (locals ++ body))

/-! ### Sections -/

namespace Module

/-- The payload of the section of a kind. -/
inductive PayloadBy (m : Module) : SectionId → List UInt8 → Prop
  | type {bytes : List UInt8} (h : VectorBy FunctionType.EncodedBy m.types.toList bytes) :
    PayloadBy m .type bytes
  | imports {bytes : List UInt8} (h : VectorBy Import.EncodedBy m.imports.toList bytes) :
    PayloadBy m .imports bytes
  | function {bytes : List UInt8} (h : VectorBy IndexBy m.functions.toList bytes) :
    PayloadBy m .function bytes
  | table {bytes : List UInt8} (h : Leb128.Unsigned 32 0 bytes) : PayloadBy m .table bytes
  | memory {bytes : List UInt8} (h : VectorBy SizeLimits.EncodedBy m.memories.toList bytes) :
    PayloadBy m .memory bytes
  | global {bytes : List UInt8} (h : VectorBy Global.EncodedBy m.globals.toList bytes) :
    PayloadBy m .global bytes
  | exports {bytes : List UInt8} (h : VectorBy Export.EncodedBy m.exports.toList bytes) :
    PayloadBy m .exports bytes
  | start {index : UInt32} {bytes : List UInt8} (hstart : m.start = some index)
    (h : Leb128.Unsigned 32 index.toNat bytes) : PayloadBy m .start bytes
  | element {bytes : List UInt8} (h : Leb128.Unsigned 32 0 bytes) : PayloadBy m .element bytes
  | dataCount {count : UInt32} {bytes : List UInt8} (hcount : m.dataCount = some count)
    (h : Leb128.Unsigned 32 count.toNat bytes) : PayloadBy m .dataCount bytes
  | code {bytes : List UInt8} (h : VectorBy (Code.EncodedBy m) m.codes.toList bytes) :
    PayloadBy m .code bytes
  | data {bytes : List UInt8} (h : VectorBy DataSegment.EncodedBy m.data.toList bytes) :
    PayloadBy m .data bytes

/-- The module has nothing for a section of the kind, which may then be left out. -/
def Lacks (m : Module) : SectionId → Prop
  | .type => m.types.length = 0
  | .imports => m.imports.length = 0
  | .function => m.functions.length = 0
  | .memory => m.memories.length = 0
  | .global => m.globals.length = 0
  | .exports => m.exports.length = 0
  | .start => m.start = none
  | .code => m.codes.length = 0
  | .data => m.data.length = 0
  | .dataCount => m.dataCount = none
  | .custom | .table | .element => True

end Module

/-- A section around its payload. -/
inductive FrameBy (id : SectionId) (payload : List UInt8) : List UInt8 → Prop
  | mk {size : List UInt8} (hsize : Leb128.Unsigned 32 payload.length size) :
    FrameBy id payload (UInt8.ofNat id.number :: (size ++ payload))

/-- The payload of a custom section: a name, and whatever follows. -/
inductive CustomBy : List UInt8 → Prop
  | mk {name : String} {bytes : List UInt8} (hname : NameBy name bytes) (more : List UInt8) :
    CustomBy (bytes ++ more)

namespace Module

/-- Sections of the kinds in `ids`, in this order, with custom sections before, between and behind
them. -/
inductive SectionsBy (m : Module) : List SectionId → List UInt8 → Prop
  | nil : SectionsBy m [] []
  | custom {ids : List SectionId} {payload bytes more : List UInt8} (hpayload : CustomBy payload)
    (hframe : FrameBy .custom payload bytes) (h : SectionsBy m ids more) :
    SectionsBy m ids (bytes ++ more)
  | omitted {id : SectionId} {ids : List SectionId} {bytes : List UInt8} (hlacks : m.Lacks id)
    (h : SectionsBy m ids bytes) : SectionsBy m (id :: ids) bytes
  | written {id : SectionId} {ids : List SectionId} {payload bytes more : List UInt8}
    (hpayload : m.PayloadBy id payload) (hframe : FrameBy id payload bytes)
    (h : SectionsBy m ids more) : SectionsBy m (id :: ids) (bytes ++ more)

/-- The kinds of sections in the order in which they are written. -/
def canonical : List SectionId :=
  [.type, .imports, .function, .table, .memory, .global, .exports, .start, .element, .dataCount,
    .code, .data]

/-- The bytes encode the module. -/
inductive EncodedBy (m : Module) : List UInt8 → Prop
  | mk {sections : List UInt8} (h : m.SectionsBy canonical sections) :
    EncodedBy m ([0x00, 0x61, 0x73, 0x6D, 0x01, 0x00, 0x00, 0x00] ++ sections)

end Module

/-! ### Modules that can be encoded -/

def FunctionType.contents (type : FunctionType) : List ValueType × List ValueType :=
  (type.params.toList, type.results.toList)

def Code.contents (code : Code) : List LocalGroup × UInt32 × UInt32 × UInt32 × UInt32 :=
  (code.locals.toList, code.numLocals, code.start, code.length, code.size)

namespace Module

/-- The module without what a host bound to its imports. -/
def unbound (m : Module) : Module :=
  { m with bindings := FixedVec.empty.putAll (List.replicate m.imports.length .unbound) }

/-- The module keeps to the rules of the format. -/
structure Regular (m : Module) : Prop where
  wellFormed : m.unbound.WellFormed
  importNames : ∀ entry ∈ m.imports.toList,
    entry.moduleName.utf8ByteSize ≤ maxNameLength ∧ entry.field.utf8ByteSize ≤ maxNameLength
  exportNames : ∀ entry ∈ m.exports.toList, entry.name.utf8ByteSize ≤ maxNameLength
  tables : ∀ entry ∈ m.imports.toList, ∀ limits max, entry.desc.tableLimits? = some limits →
    limits.max = some max → limits.min ≤ max
  memories : 0 < m.importedMemoryCount → m.memories.length = 0
  bodies : ∀ code ∈ m.codes.toList, ∀ instructions, m.body code = .ok instructions →
    IsBody instructions

/-- The modules hold the same, table by table. -/
structure Same (m m' : Module) : Prop where
  types : m.types.toList.map FunctionType.contents = m'.types.toList.map FunctionType.contents
  imports : m.imports.toList = m'.imports.toList
  functions : m.functions.toList = m'.functions.toList
  memories : m.memories.toList = m'.memories.toList
  globals : m.globals.toList = m'.globals.toList
  exports : m.exports.toList = m'.exports.toList
  start : m.start = m'.start
  codes : m.codes.toList.map Code.contents = m'.codes.toList.map Code.contents
  data : m.data.toList = m'.data.toList
  dataCount : m.dataCount = m'.dataCount
  instructions : m.instructions.toList = m'.instructions.toList
  bindings : m.bindings.toList = m'.bindings.toList

end Module

end BoundedWasm
