import BoundedWasm.Binary.Decimal
import BoundedWasm.ValueType

/-!
# BoundedWasm.Value — typed words

A value is a word of 32 or 64 bits under one of the four types. Floating-point values are kept as
patterns, so that the bits of a non-number survive every move.
-/

namespace BoundedWasm

inductive Value where
  | i32 (bits : BitVec 32)
  | i64 (bits : BitVec 64)
  | f32 (bits : BitVec 32)
  | f64 (bits : BitVec 64)
  deriving DecidableEq

namespace Value

def type : Value → ValueType
  | i32 _ => .i32
  | i64 _ => .i64
  | f32 _ => .f32
  | f64 _ => .f64

/-- All bits zero. -/
def zero : ValueType → Value
  | .i32 => .i32 0
  | .i64 => .i64 0
  | .f32 => .f32 0
  | .f64 => .f64 0

instance : Inhabited Value := ⟨zero .i32⟩

/-! ### Reading a value at an expected type -/

def asI32 : Value → Except Fault (BitVec 32)
  | i32 bits => .ok bits
  | _ => .error .unexpectedType

def asI64 : Value → Except Fault (BitVec 64)
  | i64 bits => .ok bits
  | _ => .error .unexpectedType

def asF32 : Value → Except Fault (BitVec 32)
  | f32 bits => .ok bits
  | _ => .error .unexpectedType

def asF64 : Value → Except Fault (BitVec 64)
  | f64 bits => .ok bits
  | _ => .error .unexpectedType

/-! ### Passing through a word of 32 bits -/

/-- The bits of a value of a 32-bit type. -/
def toWord : Value → Except Fault (BitVec 32)
  | i32 bits | f32 bits => .ok bits
  | _ => .error .unexpectedType

/-- The value of a 32-bit type with the given bits. -/
def ofWord (type : ValueType) (bits : BitVec 32) : Except Fault Value :=
  match type with
  | .i32 => .ok (.i32 bits)
  | .f32 => .ok (.f32 bits)
  | _ => .error .unexpectedType

/-- The type and the number: integers signed, floating point with the fewest digits. -/
def render : Value → String
  | i32 bits => "i32:" ++ toString bits.toInt
  | i64 bits => "i64:" ++ toString bits.toInt
  | f32 bits => "f32:" ++ Binary.Format.single.render bits.toNat
  | f64 bits => "f64:" ++ Binary.Format.double.render bits.toNat

@[simp] theorem type_zero (type : ValueType) : (zero type).type = type := by
  cases type <;> rfl

end Value

end BoundedWasm
