import BoundedWasm.Opcode

/-!
# BoundedWasm.Numeric.Integer — integer operations on words

The operators of the instruction set on words of any width. A word is read as signed or unsigned by
the operator; shift and rotation counts are taken modulo the width.
-/

namespace BoundedWasm

variable {w : Nat}

/-- Whether two words are so related. -/
def IntCompare.holds : IntCompare → (a b : BitVec w) → Bool
  | .eq, a, b => a == b
  | .ne, a, b => a != b
  | .lt .signed, a, b => a.slt b
  | .lt .unsigned, a, b => a.ult b
  | .gt .signed, a, b => b.slt a
  | .gt .unsigned, a, b => b.ult a
  | .le .signed, a, b => a.sle b
  | .le .unsigned, a, b => a.ule b
  | .ge .signed, a, b => b.sle a
  | .ge .unsigned, a, b => b.ule a

def IntUnary.eval : IntUnary → (a : BitVec w) → BitVec w
  | .clz, a => a.clz
  | .ctz, a => a.ctz
  | .popcnt, a => a.cpop

namespace IntBinary

/-- The quotient toward zero of signed words; the one quotient out of range is refused. -/
def divSigned (a b : BitVec w) : Except Fault (BitVec w) :=
  if b = 0 then .error .divideByZero
  else if a = BitVec.intMin w ∧ b = -1 then .error .integerOverflow
  else .ok (a.sdiv b)

def divUnsigned (a b : BitVec w) : Except Fault (BitVec w) :=
  if b = 0 then .error .divideByZero else .ok (a.udiv b)

/-- The remainder of signed words, with the sign of the dividend. -/
def remSigned (a b : BitVec w) : Except Fault (BitVec w) :=
  if b = 0 then .error .divideByZero else .ok (a.srem b)

def remUnsigned (a b : BitVec w) : Except Fault (BitVec w) :=
  if b = 0 then .error .divideByZero else .ok (a.umod b)

def eval : IntBinary → (a b : BitVec w) → Except Fault (BitVec w)
  | add, a, b => .ok (a + b)
  | sub, a, b => .ok (a - b)
  | mul, a, b => .ok (a * b)
  | div .signed, a, b => divSigned a b
  | div .unsigned, a, b => divUnsigned a b
  | rem .signed, a, b => remSigned a b
  | rem .unsigned, a, b => remUnsigned a b
  | and, a, b => .ok (a &&& b)
  | or, a, b => .ok (a ||| b)
  | xor, a, b => .ok (a ^^^ b)
  | shl, a, b => .ok (a <<< (b.toNat % w))
  | shr .signed, a, b => .ok (a.sshiftRight (b.toNat % w))
  | shr .unsigned, a, b => .ok (a >>> (b.toNat % w))
  | rotl, a, b => .ok (a.rotateLeft (b.toNat % w))
  | rotr, a, b => .ok (a.rotateRight (b.toNat % w))

end IntBinary

end BoundedWasm
