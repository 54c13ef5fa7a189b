import BoundedWasm.Binary.Format

/-!
# BoundedWasm.Binary.Arithmetic — operations on patterns

Comparison goes by `Format.rank`, the exact place of a datum among whole numbers of units, where
both zeros have rank zero and a non-number has none. Sums, products and quotients are computed
exactly in units and rounded once. Where one of these is no number, the arithmetic of the host
leaves its sign and payload open; the definitions here settle on `Format.canonicalNaN`.
-/

namespace BoundedWasm.Binary

namespace Datum

/-- The sign; a non-number counts as positive. -/
def isNegative : Datum → Bool
  | nan => false
  | infinite negative => negative
  | finite negative _ => negative

/-- A whole number with its sign apart. -/
def signed (negative : Bool) (n : Nat) : Int := if negative then -(n : Int) else n

end Datum

namespace Format

variable (F : Format)

/-- The exact value in units, an infinity being put beyond all finite values. -/
def rank? : Datum → Option Int
  | .nan => none
  | .infinite negative => some (Datum.signed negative F.limit)
  | .finite negative units => some (Datum.signed negative units)

/-! ### Order -/

/-- Holds of two patterns when both are numbers and their exact values are so related. -/
def related (relation : Int → Int → Bool) (a b : Nat) : Bool :=
  match F.rank? (F.read a), F.rank? (F.read b) with
  | some x, some y => relation x y
  | _, _ => false

def eq (a b : Nat) : Bool := F.related (fun x y => x == y) a b

def lt (a b : Nat) : Bool := F.related (fun x y => decide (x < y)) a b

def le (a b : Nat) : Bool := F.related (fun x y => decide (x ≤ y)) a b

/-- The lesser of two patterns: no number if either is none, and of two zeros the negative one. -/
def lesser (a b : Nat) : Nat :=
  match F.rank? (F.read a), F.rank? (F.read b) with
  | some x, some y =>
    if x = 0 ∧ y = 0 then if (F.read a).isNegative then a else b
    else if x < y then a else b
  | _, _ => F.canonicalNaN

/-- The greater of two patterns: no number if either is none, and of two zeros the positive one. -/
def greater (a b : Nat) : Nat :=
  match F.rank? (F.read a), F.rank? (F.read b) with
  | some x, some y =>
    if x = 0 ∧ y = 0 then if (F.read a).isNegative then b else a
    else if y < x then a else b
  | _, _ => F.canonicalNaN

/-! ### Sign -/

/-- Clears the sign bit, of a non-number too. -/
def abs (a : Nat) : Nat := a % F.signBit

/-- Flips the sign bit, of a non-number too. -/
def neg (a : Nat) : Nat := (a + F.signBit) % (2 * F.signBit)

/-! ### Arithmetic -/

/-- The sum; `canonicalNaN` stands for any pattern that is no number. -/
def add (a b : Nat) : Nat :=
  match F.read a, F.read b with
  | .nan, _ | _, .nan => F.canonicalNaN
  | .infinite s, .infinite t => if s = t then a else F.canonicalNaN
  | .infinite _, _ => a
  | _, .infinite _ => b
  | .finite s m, .finite t n =>
    let sum := Datum.signed s m + Datum.signed t n
    if sum = 0 then F.withSign (s && t) 0 else F.round (decide (sum < 0)) sum.natAbs 1

/-- The difference; `canonicalNaN` stands for any pattern that is no number. -/
def sub (a b : Nat) : Nat := F.add a (F.neg b)

/-- The product; `canonicalNaN` stands for any pattern that is no number. -/
def mul (a b : Nat) : Nat :=
  match F.read a, F.read b with
  | .nan, _ | _, .nan => F.canonicalNaN
  | .infinite s, .infinite t => F.withSign (s != t) F.infinity
  | .infinite s, .finite t n | .finite t n, .infinite s =>
    if n = 0 then F.canonicalNaN else F.withSign (s != t) F.infinity
  | .finite s m, .finite t n => F.round (s != t) (m * n) F.unitsPerOne

/-- The quotient; `canonicalNaN` stands for any pattern that is no number. -/
def div (a b : Nat) : Nat :=
  match F.read a, F.read b with
  | .nan, _ | _, .nan => F.canonicalNaN
  | .infinite _, .infinite _ => F.canonicalNaN
  | .infinite s, .finite t _ => F.withSign (s != t) F.infinity
  | .finite s _, .infinite t => F.withSign (s != t) 0
  | .finite s m, .finite t n =>
    if n ≠ 0 then F.round (s != t) (m * F.unitsPerOne) n
    else if m = 0 then F.canonicalNaN
    else F.withSign (s != t) F.infinity

/-! ### Whole numbers -/

/-- The pattern nearest to a whole number. -/
def ofInt (n : Int) : Nat := F.round (decide (n < 0)) (n.natAbs * F.unitsPerOne) 1

/-- The whole number that a rank in units reaches toward zero. -/
def truncate (rank : Int) : Int := rank.tdiv F.unitsPerOne

end Format

end BoundedWasm.Binary
