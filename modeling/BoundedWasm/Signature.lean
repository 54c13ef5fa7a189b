import BoundedWasm.FixedVec
import BoundedWasm.Limits
import BoundedWasm.ValueType

/-!
# BoundedWasm.Signature — how a host writes the type of a native function

A signature is an opening parenthesis, a marker for each input, a closing parenthesis and a marker
for each output; `i` stands for an integer, `f` for a floating-point number and `*` for any value.
-/

namespace BoundedWasm

inductive Marker where
  | int
  | float
  | any
  deriving DecidableEq, Inhabited

namespace Marker

def ofChar? : Char → Option Marker
  | 'i' => some int
  | 'f' => some float
  | '*' => some any
  | _ => none

def name : Marker → String
  | int => "Int"
  | float => "Float"
  | any => "Any"

/-- Whether a value of the type may stand where the marker does. -/
def accepts : Marker → ValueType → Bool
  | int, .i32 | int, .i64 => true
  | float, .f32 | float, .f64 => true
  | any, _ => true
  | _, _ => false

end Marker

structure Signature where
  inputs : FixedVec Marker Limits.maxParams := .empty
  outputs : FixedVec Marker Limits.maxParams := .empty

namespace Signature

/-- Whether the markers accept the types one by one, and there are as many. -/
def allAccept (markers : List Marker) (types : List ValueType) : Bool :=
  markers.length == types.length
    && (markers.zip types).all fun (marker, type) => marker.accepts type

/-- Whether the signature fits a function type. -/
def accepts (s : Signature) (params results : List ValueType) : Bool :=
  allAccept s.inputs.toList params && allAccept s.outputs.toList results

/-- Adds a marker to the outputs once the parenthesis is closed, and to the inputs before. -/
def add (s : Signature) (closed : Bool) (marker : Marker) : Except Fault Signature :=
  let grown := if closed then s.outputs.push marker else s.inputs.push marker
  match grown with
  | .error _ => .error .signatureTooLong
  | .ok markers =>
    .ok (if closed then { s with outputs := markers } else { s with inputs := markers })

/-- Reads what follows the opening parenthesis. -/
def markers (s : Signature) (closed : Bool) : List Char → Except Fault Signature
  | [] => if closed then .ok s else .error .signatureUnclosed
  | ')' :: rest => if closed then .error .signatureReclosed else markers s true rest
  | c :: rest =>
    match Marker.ofChar? c with
    | none => .error .signatureCharacter
    | some marker =>
      match s.add closed marker with
      | .error fault => .error fault
      | .ok s => markers s closed rest

/-- The signature that a text spells. -/
def ofString (text : String) : Except Fault Signature :=
  match text.toList with
  | '(' :: rest => markers {} false rest
  | _ => .error .signatureUnopened

end Signature

end BoundedWasm
