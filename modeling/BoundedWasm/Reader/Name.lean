import BoundedWasm.Reader.Leb128

/-!
# BoundedWasm.Reader.Name — text

Text is UTF-8 of a given number of bytes. A name is text with its number of bytes in front, and
has a greatest length, which is checked before the bytes are looked for.
-/

namespace BoundedWasm

/-- The text that bytes spell in UTF-8. -/
def Bytes.text? (bytes : List UInt8) : Option String :=
  String.fromUTF8? bytes.toByteArray

namespace Parser

/-- Text of `length` bytes. -/
def text (length : Nat) : Parser String := Action.atomic do
  match Bytes.text? (← bytes length) with
  | some found => pure found
  | none => throw .invalidUtf8

/-- A name of at most `maxLength` bytes. -/
def name (maxLength : Nat) : Parser String := Action.atomic do
  let length ← uleb32
  if maxLength < length.toNat then throw .nameTooLong
  text length.toNat

end Parser

end BoundedWasm
