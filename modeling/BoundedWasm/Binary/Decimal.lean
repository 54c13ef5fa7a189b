import BoundedWasm.Binary.Format

/-!
# BoundedWasm.Binary.Decimal — the shortest decimal that reads back

A finite datum is written with the fewest significant digits that round to it again, and of those
with the nearest; the digits are always written positionally. `Format.interval` gives the reals that
round to a number of units, and `Format.shortest` tests the two neighbours of the value on ever
finer decimal grids.
-/

namespace BoundedWasm.Binary

/-- A decimal number: `digits` times ten to the power of `exponent`. -/
structure Decimal where
  digits : Nat
  exponent : Int
  deriving DecidableEq

namespace Decimal

/-- Ten to the power of `places`. -/
def scale (places : Nat) : Nat := Nat.pow 10 places

/-- Digits before the point, a point only if digits follow it, no exponent. -/
def positional (d : Decimal) : String :=
  let text := toString d.digits
  let places := (-d.exponent).toNat
  if places = 0 then text ++ String.ofList (List.replicate d.exponent.toNat '0')
  else
    let padded := List.replicate (places + 1 - text.length) '0' ++ text.toList
    let whole := padded.length - places
    String.ofList (padded.take whole ++ '.' :: padded.drop whole)

end Decimal

/-- The reals that round to a datum, in quarters of a unit; the ends belong to it or not. -/
structure Interval where
  lower : Nat
  upper : Nat
  closed : Bool

namespace Interval

/-- Whether `num / den` quarters lie in the interval. -/
def contains (i : Interval) (num den : Nat) : Bool :=
  if i.closed then decide (i.lower * den ≤ num ∧ num ≤ i.upper * den)
  else decide (i.lower * den < num ∧ num < i.upper * den)

end Interval

namespace Format

variable (F : Format)

/-- The interval around a positive number of units: half way to the neighbours on either side, the
ends included when the significand is even. -/
def interval (units : Nat) : Interval :=
  let shift := units.log2 - F.fractionBits
  let step := 1 <<< shift
  let below := if shift ≠ 0 ∧ units = 1 <<< units.log2 then step else 2 * step
  ⟨4 * units - below, 4 * units + 2 * step, units / step % 2 == 0⟩

/-- The power of ten just above a positive number of units: the least `k` with the value below
ten to the power of `k`. -/
def magnitude (units : Nat) : Int :=
  let places := (1 <<< F.exponentBits) + F.fractionBits
  ((toString (units * Decimal.scale places / F.unitsPerOne)).length : Int) - places

/-- The neighbour of the value in the interval on the grid of `count` significant digits, if there
is one: the nearer of two, and the upper one when they are equally near. -/
def onGrid? (units : Nat) (count : Nat) : Option Decimal :=
  let exponent := F.magnitude units - count
  let up := Decimal.scale (-exponent).toNat
  let num := 4 * units * up
  let den := 4 * F.unitsPerOne * Decimal.scale exponent.toNat
  let digits := num / den
  let candidate (n : Nat) : Option Decimal :=
    if (F.interval units).contains (n * den) up then
      some (if n = Decimal.scale count then ⟨1, exponent + count⟩ else ⟨n, exponent⟩)
    else none
  match candidate digits, candidate (digits + 1) with
  | some low, some high => if 2 * (num % den) < den then some low else some high
  | some low, none => some low
  | none, high => high

/-- The first hit on the grids of `count`, `count + 1`, … digits, `room` grids being tried. -/
def firstOnGrid (units : Nat) : (room count : Nat) → Decimal
  | 0, _ => ⟨0, 0⟩
  | room + 1, count =>
    match F.onGrid? units count with
    | some decimal => decimal
    | none => firstOnGrid units room (count + 1)

/-- The shortest decimal for a positive number of units. As many digits as there are fraction bits
always suffice. -/
def shortest (units : Nat) : Decimal :=
  F.firstOnGrid units (F.fractionBits + 1) 1

/-- The text of the datum that a pattern denotes. -/
def render (pattern : Nat) : String :=
  let sign (negative : Bool) := if negative then "-" else ""
  match F.read pattern with
  | .nan => "NaN"
  | .infinite negative => sign negative ++ "inf"
  | .finite negative units =>
    sign negative ++ if units = 0 then "0" else (F.shortest units).positional

end Format

end BoundedWasm.Binary
