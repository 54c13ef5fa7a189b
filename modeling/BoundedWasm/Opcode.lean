import BoundedWasm.ValueType

/-!
# BoundedWasm.Opcode — operation codes, their mnemonics and their immediates

Operations that differ only in a width, a sign or an operator are one constructor with that as its
argument. `Opcode.all` lists them in the order of their codes: a code below 256 is one byte, and the
code `0xFC00 + k` is the byte `0xFC` followed by the number `k`.
-/

namespace BoundedWasm

/-- The two widths of integers and of floating-point numbers. -/
inductive Width where
  | w32
  | w64
  deriving DecidableEq, Inhabited

inductive Sign where
  | signed
  | unsigned
  deriving DecidableEq, Inhabited

/-- The part of a 32-bit integer that a narrow access moves. -/
inductive Narrow32 where
  | bits8
  | bits16
  deriving DecidableEq, Inhabited

/-- The part of a 64-bit integer that a narrow access moves. -/
inductive Narrow64 where
  | bits8
  | bits16
  | bits32
  deriving DecidableEq, Inhabited

inductive IntCompare where
  | eq
  | ne
  | lt (sign : Sign)
  | gt (sign : Sign)
  | le (sign : Sign)
  | ge (sign : Sign)
  deriving DecidableEq, Inhabited

inductive FloatCompare where
  | eq
  | ne
  | lt
  | gt
  | le
  | ge
  deriving DecidableEq, Inhabited

inductive IntUnary where
  | clz
  | ctz
  | popcnt
  deriving DecidableEq, Inhabited

inductive IntBinary where
  | add
  | sub
  | mul
  | div (sign : Sign)
  | rem (sign : Sign)
  | and
  | or
  | xor
  | shl
  | shr (sign : Sign)
  | rotl
  | rotr
  deriving DecidableEq, Inhabited

inductive FloatUnary where
  | abs
  | neg
  | ceil
  | floor
  | trunc
  | nearest
  | sqrt
  deriving DecidableEq, Inhabited

inductive FloatBinary where
  | add
  | sub
  | mul
  | div
  | min
  | max
  | copysign
  deriving DecidableEq, Inhabited

/-- Conversions between the four types, other than saturating truncation. -/
inductive Conversion where
  | wrap
  | truncate (target source : Width) (sign : Sign)
  | extend (sign : Sign)
  | convert (target source : Width) (sign : Sign)
  | demote
  | promote
  | floatToInt (width : Width)
  | intToFloat (width : Width)
  | signExtend32 (part : Narrow32)
  | signExtend64 (part : Narrow64)
  deriving DecidableEq, Inhabited

inductive Opcode where
  | unreachable
  | nop
  | block
  | loop
  | ifThen
  | elseBranch
  | endBlock
  | br
  | brIf
  | brTable
  | ret
  | call
  | callIndirect
  | drop
  | select
  | localGet
  | localSet
  | localTee
  | globalGet
  | globalSet
  | load (type : ValueType)
  | load32 (part : Narrow32) (sign : Sign)
  | load64 (part : Narrow64) (sign : Sign)
  | store (type : ValueType)
  | store32 (part : Narrow32)
  | store64 (part : Narrow64)
  | memorySize
  | memoryGrow
  | const (type : ValueType)
  | eqz (width : Width)
  | intCompare (width : Width) (operator : IntCompare)
  | floatCompare (width : Width) (operator : FloatCompare)
  | intUnary (width : Width) (operator : IntUnary)
  | intBinary (width : Width) (operator : IntBinary)
  | floatUnary (width : Width) (operator : FloatUnary)
  | floatBinary (width : Width) (operator : FloatBinary)
  | conversion (operator : Conversion)
  | truncateSaturating (target source : Width) (sign : Sign)
  deriving DecidableEq

/-- The immediates that follow an operation code. -/
inductive ImmediateKind where
  | none
  | index
  | i32
  | i64
  | f32
  | f64
  | block
  | memArg
  | callIndirect
  | brTable
  | reserved
  deriving DecidableEq

namespace ImmediateKind

def name : ImmediateKind → String
  | none => "None"
  | index => "Index"
  | i32 => "I32"
  | i64 => "I64"
  | f32 => "F32"
  | f64 => "F64"
  | block => "Block"
  | memArg => "MemArg"
  | callIndirect => "CallIndirect"
  | brTable => "BrTable"
  | reserved => "Reserved"

end ImmediateKind

/-! ### Parts of mnemonics -/

namespace Width

def int : Width → String
  | w32 => "i32"
  | w64 => "i64"

def float : Width → String
  | w32 => "f32"
  | w64 => "f64"

end Width

def Sign.suffix : Sign → String
  | .signed => "_s"
  | .unsigned => "_u"

def Narrow32.bits : Narrow32 → String
  | .bits8 => "8"
  | .bits16 => "16"

def Narrow64.bits : Narrow64 → String
  | .bits8 => "8"
  | .bits16 => "16"
  | .bits32 => "32"

def IntCompare.name : IntCompare → String
  | .eq => "eq"
  | .ne => "ne"
  | .lt sign => "lt" ++ sign.suffix
  | .gt sign => "gt" ++ sign.suffix
  | .le sign => "le" ++ sign.suffix
  | .ge sign => "ge" ++ sign.suffix

def FloatCompare.name : FloatCompare → String
  | .eq => "eq"
  | .ne => "ne"
  | .lt => "lt"
  | .gt => "gt"
  | .le => "le"
  | .ge => "ge"

def IntUnary.name : IntUnary → String
  | .clz => "clz"
  | .ctz => "ctz"
  | .popcnt => "popcnt"

def IntBinary.name : IntBinary → String
  | .add => "add"
  | .sub => "sub"
  | .mul => "mul"
  | .div sign => "div" ++ sign.suffix
  | .rem sign => "rem" ++ sign.suffix
  | .and => "and"
  | .or => "or"
  | .xor => "xor"
  | .shl => "shl"
  | .shr sign => "shr" ++ sign.suffix
  | .rotl => "rotl"
  | .rotr => "rotr"

def FloatUnary.name : FloatUnary → String
  | .abs => "abs"
  | .neg => "neg"
  | .ceil => "ceil"
  | .floor => "floor"
  | .trunc => "trunc"
  | .nearest => "nearest"
  | .sqrt => "sqrt"

def FloatBinary.name : FloatBinary → String
  | .add => "add"
  | .sub => "sub"
  | .mul => "mul"
  | .div => "div"
  | .min => "min"
  | .max => "max"
  | .copysign => "copysign"

def Conversion.name : Conversion → String
  | .wrap => "i32.wrap_i64"
  | .truncate target source sign => target.int ++ ".trunc_" ++ source.float ++ sign.suffix
  | .extend sign => "i64.extend_i32" ++ sign.suffix
  | .convert target source sign => target.float ++ ".convert_" ++ source.int ++ sign.suffix
  | .demote => "f32.demote_f64"
  | .promote => "f64.promote_f32"
  | .floatToInt width => width.int ++ ".reinterpret_" ++ width.float
  | .intToFloat width => width.float ++ ".reinterpret_" ++ width.int
  | .signExtend32 part => "i32.extend" ++ part.bits ++ "_s"
  | .signExtend64 part => "i64.extend" ++ part.bits ++ "_s"

namespace Opcode

instance : Inhabited Opcode := ⟨nop⟩

def name : Opcode → String
  | unreachable => "unreachable"
  | nop => "nop"
  | block => "block"
  | loop => "loop"
  | ifThen => "if"
  | elseBranch => "else"
  | endBlock => "end"
  | br => "br"
  | brIf => "br_if"
  | brTable => "br_table"
  | ret => "return"
  | call => "call"
  | callIndirect => "call_indirect"
  | drop => "drop"
  | select => "select"
  | localGet => "local.get"
  | localSet => "local.set"
  | localTee => "local.tee"
  | globalGet => "global.get"
  | globalSet => "global.set"
  | load type => type.name ++ ".load"
  | load32 part sign => "i32.load" ++ part.bits ++ sign.suffix
  | load64 part sign => "i64.load" ++ part.bits ++ sign.suffix
  | store type => type.name ++ ".store"
  | store32 part => "i32.store" ++ part.bits
  | store64 part => "i64.store" ++ part.bits
  | memorySize => "memory.size"
  | memoryGrow => "memory.grow"
  | const type => type.name ++ ".const"
  | eqz width => width.int ++ ".eqz"
  | intCompare width operator => width.int ++ "." ++ operator.name
  | floatCompare width operator => width.float ++ "." ++ operator.name
  | intUnary width operator => width.int ++ "." ++ operator.name
  | intBinary width operator => width.int ++ "." ++ operator.name
  | floatUnary width operator => width.float ++ "." ++ operator.name
  | floatBinary width operator => width.float ++ "." ++ operator.name
  | conversion operator => operator.name
  | truncateSaturating target source sign =>
    target.int ++ ".trunc_sat_" ++ source.float ++ sign.suffix

instance : ToString Opcode := ⟨name⟩

/-- The immediates in the binary format; only constants, indices, memory arguments, blocks and
branch tables have any. -/
def immediates : Opcode → ImmediateKind
  | block | loop | ifThen => .block
  | br | brIf | call | localGet | localSet | localTee | globalGet | globalSet => .index
  | brTable => .brTable
  | callIndirect => .callIndirect
  | load _ | load32 .. | load64 .. | store _ | store32 _ | store64 _ => .memArg
  | memorySize | memoryGrow => .reserved
  | const .i32 => .i32
  | const .i64 => .i64
  | const .f32 => .f32
  | const .f64 => .f64
  | _ => .none

/-- Whether a matching `end` closes the operation. -/
def opensBlock : Opcode → Bool
  | block | loop | ifThen => true
  | _ => false

/-! ### Codes -/

def intCompares : List IntCompare :=
  [.eq, .ne, .lt .signed, .lt .unsigned, .gt .signed, .gt .unsigned,
    .le .signed, .le .unsigned, .ge .signed, .ge .unsigned]

def floatCompares : List FloatCompare := [.eq, .ne, .lt, .gt, .le, .ge]

def intUnaries : List IntUnary := [.clz, .ctz, .popcnt]

def intBinaries : List IntBinary :=
  [.add, .sub, .mul, .div .signed, .div .unsigned, .rem .signed, .rem .unsigned,
    .and, .or, .xor, .shl, .shr .signed, .shr .unsigned, .rotl, .rotr]

def floatUnaries : List FloatUnary := [.abs, .neg, .ceil, .floor, .trunc, .nearest, .sqrt]

def floatBinaries : List FloatBinary := [.add, .sub, .mul, .div, .min, .max, .copysign]

def conversions : List Conversion :=
  [.wrap, .truncate .w32 .w32 .signed, .truncate .w32 .w32 .unsigned,
    .truncate .w32 .w64 .signed, .truncate .w32 .w64 .unsigned,
    .extend .signed, .extend .unsigned,
    .truncate .w64 .w32 .signed, .truncate .w64 .w32 .unsigned,
    .truncate .w64 .w64 .signed, .truncate .w64 .w64 .unsigned,
    .convert .w32 .w32 .signed, .convert .w32 .w32 .unsigned,
    .convert .w32 .w64 .signed, .convert .w32 .w64 .unsigned, .demote,
    .convert .w64 .w32 .signed, .convert .w64 .w32 .unsigned,
    .convert .w64 .w64 .signed, .convert .w64 .w64 .unsigned, .promote,
    .floatToInt .w32, .floatToInt .w64, .intToFloat .w32, .intToFloat .w64,
    .signExtend32 .bits8, .signExtend32 .bits16,
    .signExtend64 .bits8, .signExtend64 .bits16, .signExtend64 .bits32]

/-- Pairs an operation with consecutive codes. -/
def numbered (code : Nat) (opcodes : List Opcode) : List (Nat × Opcode) :=
  opcodes.zipIdx code |>.map fun (opcode, code) => (code, opcode)

/-- Every operation with its code, in ascending order. -/
def table : List (Nat × Opcode) :=
  numbered 0x00 [unreachable, nop, block, loop, ifThen, elseBranch]
  ++ numbered 0x0B [endBlock, br, brIf, brTable, ret, call, callIndirect]
  ++ numbered 0x1A [drop, select]
  ++ numbered 0x20 [localGet, localSet, localTee, globalGet, globalSet]
  ++ numbered 0x28 (
    ValueType.all.map load
    ++ [load32 .bits8 .signed, load32 .bits8 .unsigned,
      load32 .bits16 .signed, load32 .bits16 .unsigned,
      load64 .bits8 .signed, load64 .bits8 .unsigned,
      load64 .bits16 .signed, load64 .bits16 .unsigned,
      load64 .bits32 .signed, load64 .bits32 .unsigned]
    ++ ValueType.all.map store
    ++ [store32 .bits8, store32 .bits16, store64 .bits8, store64 .bits16, store64 .bits32,
      memorySize, memoryGrow]
    ++ ValueType.all.map const
    ++ eqz .w32 :: intCompares.map (intCompare .w32)
    ++ eqz .w64 :: intCompares.map (intCompare .w64)
    ++ floatCompares.map (floatCompare .w32) ++ floatCompares.map (floatCompare .w64)
    ++ intUnaries.map (intUnary .w32) ++ intBinaries.map (intBinary .w32)
    ++ intUnaries.map (intUnary .w64) ++ intBinaries.map (intBinary .w64)
    ++ floatUnaries.map (floatUnary .w32) ++ floatBinaries.map (floatBinary .w32)
    ++ floatUnaries.map (floatUnary .w64) ++ floatBinaries.map (floatBinary .w64)
    ++ conversions.map conversion)
  ++ numbered 0xFC00 [
    truncateSaturating .w32 .w32 .signed, truncateSaturating .w32 .w32 .unsigned,
    truncateSaturating .w32 .w64 .signed, truncateSaturating .w32 .w64 .unsigned,
    truncateSaturating .w64 .w32 .signed, truncateSaturating .w64 .w32 .unsigned,
    truncateSaturating .w64 .w64 .signed, truncateSaturating .w64 .w64 .unsigned]

def all : List Opcode := table.map Prod.snd

/-- The code of an operation. -/
def code (opcode : Opcode) : Nat :=
  match table.find? fun entry => entry.2 == opcode with
  | some entry => entry.1
  | none => 0

/-- The operation with a code, if there is one. -/
def ofCode? (code : Nat) : Option Opcode :=
  (table.find? fun entry => entry.1 == code).map Prod.snd

/-- The first code of the operations that follow the byte `extendedPrefix`. -/
def extendedBase : Nat := 0xFC00

/-- The byte before the number of an extended operation. -/
def extendedPrefix : UInt8 := 0xFC

/-- The operation that one byte stands for. -/
def ofByte? (byte : UInt8) : Option Opcode := ofCode? byte.toNat

/-- The operation that a number after `extendedPrefix` stands for. -/
def ofExtended? (number : Nat) : Option Opcode := ofCode? (extendedBase + number)

def isExtended (opcode : Opcode) : Bool := decide (extendedBase ≤ opcode.code)

/-- The place of an operation among those of its kind: the low byte of its code. -/
def tableIndex (opcode : Opcode) : Nat := opcode.code % 256

end Opcode

end BoundedWasm
