import BoundedWasm.Fault

/-!
# BoundedWasm.ValueType — the four number types

Their names, their bytes in the binary format and their sizes.
-/

namespace BoundedWasm

inductive ValueType where
  | i32
  | i64
  | f32
  | f64
  deriving DecidableEq, Inhabited

namespace ValueType

def all : List ValueType := [i32, i64, f32, f64]

def name : ValueType → String
  | i32 => "i32"
  | i64 => "i64"
  | f32 => "f32"
  | f64 => "f64"

instance : ToString ValueType := ⟨name⟩

/-- The byte that stands for the type in a binary module. -/
def toByte : ValueType → UInt8
  | i32 => 0x7F
  | i64 => 0x7E
  | f32 => 0x7D
  | f64 => 0x7C

def ofByte? (byte : UInt8) : Option ValueType :=
  all.find? fun type => type.toByte == byte

/-- The type that a byte stands for; every other byte is refused. -/
def ofByte (byte : UInt8) : Except Fault ValueType :=
  match ofByte? byte with
  | some type => .ok type
  | none => .error .invalidValueType

def sizeInBytes : ValueType → Nat
  | i32 | f32 => 4
  | i64 | f64 => 8

def isWord (type : ValueType) : Bool := type.sizeInBytes == 4

theorem ofByte?_toByte (type : ValueType) : ofByte? type.toByte = some type := by
  cases type <;> rfl

end ValueType

end BoundedWasm
