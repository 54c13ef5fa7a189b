/-!
# BoundedWasm.Binary.Format — binary floating point, exactly

A pattern of bits in a binary interchange format denotes a datum: not a number, an infinity, or a
sign and a whole number of units, the unit being the least positive value of the format. Reading a
pattern is `Format.read`; `Format.round` is the way back, from an exact quotient of units to the
pattern of the nearest value, of two nearest values the one with the even pattern.
-/

namespace BoundedWasm.Binary

/-- A binary interchange format: a sign bit, an exponent field and a fraction field. -/
structure Format where
  exponentBits : Nat
  fractionBits : Nat

/-- What a pattern denotes; a finite datum is a whole number of units. -/
inductive Datum where
  | nan
  | infinite (negative : Bool)
  | finite (negative : Bool) (units : Nat)
  deriving DecidableEq

/-- A quotient of natural numbers rounded to the nearest whole number, a half to the even one. -/
def divNearestEven (num den : Nat) : Nat :=
  let quotient := num / den
  let twice := 2 * (num % den)
  if twice < den then quotient
  else if den < twice then quotient + 1
  else quotient + quotient % 2

namespace Format

def single : Format := ⟨8, 23⟩

def double : Format := ⟨11, 52⟩

variable (F : Format)

/-- The pattern of the sign bit alone. -/
def signBit : Nat := 1 <<< (F.exponentBits + F.fractionBits)

/-- The pattern of positive infinity; all greater magnitudes are not numbers. -/
def infinity : Nat := ((1 <<< F.exponentBits) - 1) <<< F.fractionBits

/-- The quiet pattern without payload.  It stands for every computed non-number: which of their
patterns a computation answers is not determined, and here it is always this one. -/
def canonicalNaN : Nat := F.infinity + (1 <<< (F.fractionBits - 1))

/-- The number of units in one. -/
def unitsPerOne : Nat := 1 <<< ((1 <<< (F.exponentBits - 1)) - 2 + F.fractionBits)

/-- The first power of two beyond the finite values, in units. -/
def limit : Nat := 1 <<< ((1 <<< F.exponentBits) - 2 + F.fractionBits)

/-- The units of a finite magnitude pattern: below the second binade the pattern itself. -/
def unitsOf (magnitude : Nat) : Nat :=
  let field := magnitude >>> F.fractionBits
  let fraction := magnitude % (1 <<< F.fractionBits)
  if field = 0 then fraction else ((1 <<< F.fractionBits) + fraction) <<< (field - 1)

/-- The datum that a pattern denotes. -/
def read (pattern : Nat) : Datum :=
  let negative := pattern / F.signBit % 2 == 1
  let magnitude := pattern % F.signBit
  if magnitude < F.infinity then .finite negative (F.unitsOf magnitude)
  else if magnitude = F.infinity then .infinite negative
  else .nan

/-- The magnitude pattern nearest to `num / den` units; infinity from half a step beyond the
greatest finite value on. -/
def roundMagnitude (num den : Nat) : Nat :=
  let shift := (num / den).log2 - F.fractionBits
  min F.infinity ((shift <<< F.fractionBits) + divNearestEven num (den <<< shift))

def withSign (negative : Bool) (magnitude : Nat) : Nat :=
  if negative then F.signBit + magnitude else magnitude

/-- The pattern nearest to plus or minus `num / den` units. -/
def round (negative : Bool) (num den : Nat) : Nat :=
  F.withSign negative (F.roundMagnitude num den)

end Format

end BoundedWasm.Binary
