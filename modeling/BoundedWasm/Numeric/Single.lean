import BoundedWasm.Binary.Arithmetic
import BoundedWasm.Opcode

/-!
# BoundedWasm.Numeric.Single — operations on single-precision patterns

The floating-point operators that machines carry out, on 32-bit patterns, and the conversions
between these and 32-bit integers.
-/

namespace BoundedWasm

open Binary (Format)

/-- The pattern with these bits. -/
def singleOf (pattern : Nat) : BitVec 32 := BitVec.ofNat 32 pattern

/-- Whether two patterns are so related; of the six relations only `ne` holds of a non-number. -/
def FloatCompare.holds (operator : FloatCompare) (a b : BitVec 32) : Bool :=
  match operator with
  | .eq => Format.single.eq a.toNat b.toNat
  | .ne => !Format.single.eq a.toNat b.toNat
  | .lt => Format.single.lt a.toNat b.toNat
  | .gt => Format.single.lt b.toNat a.toNat
  | .le => Format.single.le a.toNat b.toNat
  | .ge => Format.single.le b.toNat a.toNat

/-- The operators with one operand that machines carry out. -/
def FloatUnary.eval? : FloatUnary → Option (BitVec 32 → BitVec 32)
  | .abs => some fun a => singleOf (Format.single.abs a.toNat)
  | .neg => some fun a => singleOf (Format.single.neg a.toNat)
  | _ => none

/-- The operators with two operands that machines carry out. -/
def FloatBinary.eval? : FloatBinary → Option (BitVec 32 → BitVec 32 → BitVec 32)
  | .add => some fun a b => singleOf (Format.single.add a.toNat b.toNat)
  | .sub => some fun a b => singleOf (Format.single.sub a.toNat b.toNat)
  | .mul => some fun a b => singleOf (Format.single.mul a.toNat b.toNat)
  | .div => some fun a b => singleOf (Format.single.div a.toNat b.toNat)
  | .min => some fun a b => singleOf (Format.single.lesser a.toNat b.toNat)
  | .max => some fun a b => singleOf (Format.single.greater a.toNat b.toNat)
  | .copysign => none

namespace Single

/-- The exact place of a pattern among whole numbers of units; none for a non-number. -/
def rank? (a : BitVec 32) : Option Int := Format.single.rank? (Format.single.read a.toNat)

/-- A whole number in units. -/
def units (n : Int) : Int := n * Format.single.unitsPerOne

/-- The least and the greatest integer of a reading of 32 bits. -/
def range : Sign → Int × Int
  | .signed => (-0x80000000, 0x7fffffff)
  | .unsigned => (0, 0xffffffff)

/-- Whether truncation toward zero stays in range, decided before truncating: signed patterns are
compared with both ends of the range, unsigned ones lie strictly between minus one and the end. -/
def fits (sign : Sign) (rank : Int) : Bool :=
  match sign with
  | .signed => units (-0x80000000) ≤ rank && rank < units 0x80000000
  | .unsigned => units (-1) < rank && rank < units 0x100000000

/-- The integer that a pattern reaches toward zero, if there is one in range. -/
def truncate (sign : Sign) (a : BitVec 32) : Except Fault (BitVec 32) :=
  match rank? a with
  | none => .error .invalidConversion
  | some rank =>
    if fits sign rank then .ok (BitVec.ofInt 32 (Format.single.truncate rank))
    else .error .integerOverflow

/-- The integer in range nearest to what a pattern reaches toward zero; zero for a non-number. -/
def truncateSaturating (sign : Sign) (a : BitVec 32) : BitVec 32 :=
  match rank? a with
  | none => 0
  | some rank =>
    let (least, greatest) := range sign
    BitVec.ofInt 32 (max least (min greatest (Format.single.truncate rank)))

/-- The pattern nearest to an integer. -/
def ofInteger (sign : Sign) (a : BitVec 32) : BitVec 32 :=
  match sign with
  | .signed => singleOf (Format.single.ofInt a.toInt)
  | .unsigned => singleOf (Format.single.ofInt a.toNat)

end Single

end BoundedWasm
