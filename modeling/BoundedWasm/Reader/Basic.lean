import BoundedWasm.Action
import BoundedWasm.Bytes

/-!
# BoundedWasm.Reader.Basic — reading bytes from a position

A reader holds the bytes that are still to be read and the number of those behind it. A `Parser`
runs on a reader and may fail. The parsers of this module that fail leave the reader as it was; a
parser made of several stops where the failing one stood.
-/

namespace BoundedWasm

structure Reader where
  position : Nat
  rest : List UInt8
  deriving DecidableEq, Inhabited

abbrev Parser (α : Type) : Type := Action Reader α

namespace Reader

def ofBytes (bytes : List UInt8) : Reader := ⟨0, bytes⟩

def remaining (r : Reader) : Nat := r.rest.length

def atEnd (r : Reader) : Bool := r.rest.isEmpty

/-- Steps over `count` bytes. -/
def advance (r : Reader) (count : Nat) : Reader := ⟨r.position + count, r.rest.drop count⟩

/-! ### Looking ahead -/

def peek? (r : Reader) : Option UInt8 := r.rest.head?

/-- The next `count` bytes, if there are so many. -/
def peekBytes? (r : Reader) (count : Nat) : Option (List UInt8) :=
  if count ≤ r.remaining then some (r.rest.take count) else none

/-- The number in the next `width` bytes, least significant first. -/
def peekLittle? (r : Reader) (width : Nat) : Option Nat :=
  (r.peekBytes? width).map Bytes.ofLittleEndian

/-- The number in the next `width` bytes, most significant first. -/
def peekBig? (r : Reader) (width : Nat) : Option Nat :=
  (r.peekBytes? width).map Bytes.ofBigEndian

end Reader

namespace Parser

/-- Takes what `look` sees in the next `width` bytes, or reports that the input ends. -/
def take {α : Type} (look : Reader → Option α) (width : Nat) : Parser α := fun r =>
  match look r with
  | some found => .ok found (r.advance width)
  | none => .error .unexpectedEnd r

def byte : Parser UInt8 := take Reader.peek? 1

/-- The next `count` bytes. -/
def bytes (count : Nat) : Parser (List UInt8) := take (fun r => r.peekBytes? count) count

def little (width : Nat) : Parser Nat := take (fun r => r.peekLittle? width) width

def big (width : Nat) : Parser Nat := take (fun r => r.peekBig? width) width

/-- The bits of a 32-bit word, least significant byte first. -/
def word32 : Parser (BitVec 32) := BitVec.ofNat 32 <$> little 4

/-- The bits of a 64-bit word, least significant byte first. -/
def word64 : Parser (BitVec 64) := BitVec.ofNat 64 <$> little 8

def skip (count : Nat) : Parser Unit := do
  let _ ← bytes count

/-- A reader of the next `count` bytes, which are stepped over. -/
def sub (count : Nat) : Parser Reader := Reader.ofBytes <$> bytes count

end Parser

end BoundedWasm
