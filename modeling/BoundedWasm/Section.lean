import BoundedWasm.Event
import BoundedWasm.Limits
import BoundedWasm.Reader.Name

/-!
# BoundedWasm.Section — the sections of a binary module

A binary module is a header followed by sections; a section is a number that says its kind, a size
and so many bytes. `SectionReader.next?` gives the sections one after the other, steps over the
custom ones, and refuses a section that does not come after all earlier ones in the order of
kinds.
-/

namespace BoundedWasm

/-- A section: its kind, where its payload starts in the module, and the payload. -/
structure Section where
  id : SectionId
  offset : Nat
  payload : List UInt8
  deriving DecidableEq

/-- Stands between two sections; `lastOrder` is the order of the section given last. -/
structure SectionReader where
  reader : Reader
  lastOrder : Nat := 0
  log : Array Event := #[]

namespace SectionReader

/-- The four bytes that begin every module. -/
def magic : List UInt8 := [0x00, 0x61, 0x73, 0x6D]

/-- Reads the header: the magic bytes, then the version. -/
def ofBytes (bytes : List UInt8) : Except Fault SectionReader :=
  if bytes.take 4 = magic then
    let reader := (Reader.ofBytes bytes).advance 4
    if reader.peekLittle? 4 = some Limits.binaryVersion then .ok ⟨reader.advance 4, 0, #[]⟩
    else .error .invalidVersion
  else .error .invalidMagic

def position (s : SectionReader) : Nat := s.reader.position

def note (event : Event) : Action SectionReader Unit :=
  modify fun s => { s with log := s.log.push event }

def reading {α : Type} (p : Parser α) : Action SectionReader α :=
  Action.onPart reader (fun s r => { s with reader := r }) p

/-- One section of any kind. -/
def frame : Parser Section := do
  let number ← Parser.byte
  match SectionId.ofNumber? number.toNat with
  | none => throw .unknownSection
  | some id =>
    let size ← Parser.uleb32
    let offset := (← get).position
    let payload ← Parser.bytes size.toNat
    return ⟨id, offset, payload⟩

/-- The name at the head of a custom section; what follows it is not looked at. -/
def customName (payload : List UInt8) : Except Fault String :=
  match (do Parser.text (← Parser.uleb32).toNat : Parser String) (Reader.ofBytes payload) with
  | .ok name _ => .ok name
  | .error fault _ => .error fault

/-- Reads frames up to the first that is not custom, at most `room` of them. -/
def nextWithin : (room : Nat) → Action SectionReader (Option Section)
  | 0 => return none
  | room + 1 => do
    if (← get).reader.atEnd then return none
    let found ← reading frame
    if found.id = .custom then
      match customName found.payload with
      | .error fault => throw fault
      | .ok name =>
        note (.customSkipped name found.offset found.payload.length)
        nextWithin room
    else if found.id.order ≤ (← get).lastOrder then throw .sectionOrder
    else
      modify fun s => { s with lastOrder := found.id.order }
      note (.sectionFound found.id found.offset found.payload.length)
      return some found

/-- The next section that is not custom, or none at the end of the bytes. A frame takes at least one
byte, so there are at most as many frames as bytes. -/
def next? : Action SectionReader (Option Section) := do
  nextWithin (← get).reader.remaining

end SectionReader

end BoundedWasm
