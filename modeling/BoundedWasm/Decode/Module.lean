import BoundedWasm.Decode.Agreement
import BoundedWasm.Decode.Contents
import BoundedWasm.Section

/-!
# BoundedWasm.Decode.Module — from bytes to a module

`Module.ofBytes` decodes a whole module. `Assembly.decode` does so in storage that is used again:
the earlier contents are gone, and after a fault the module is empty.
-/

namespace BoundedWasm

/-- A module together with the log of how it came about. -/
structure Assembly where
  module : Module := .empty
  log : Array Event := #[]

/-- Stands between two sections of a module that is partly decoded. -/
structure Decoding where
  sections : SectionReader
  module : Module := .empty
  sawData : Bool := false

namespace Decoding

def note (event : Event) : Action Decoding Unit :=
  modify fun d => { d with sections := { d.sections with log := d.sections.log.push event } }

def nextSection? : Action Decoding (Option Section) :=
  Action.onPart sections (fun d s => { d with sections := s }) SectionReader.next?

/-- Reads the payload of a section into the module, and gives the reader after it. -/
def contents (found : Section) : Action Decoding Reader :=
  Action.onPart (fun d => (⟨.ofBytes found.payload, d.module⟩ : Draft))
    (fun d draft => { d with module := draft.module })
    (do Draft.contents found.id; return (← get).reader)

/-- One section; its contents must take up all of its payload. -/
def decodeSection (found : Section) : Action Decoding Unit := do
  modify fun d => { d with sawData := d.sawData || found.id = .data }
  let reader ← contents found
  if !reader.atEnd then
    note (.trailingBytes found.id reader.remaining)
    throw .sectionSizeMismatch
  note (.sectionDecoded found.id)

/-- At most `room` sections. -/
def decodeSections : (room : Nat) → Action Decoding Unit
  | 0 => return
  | room + 1 => do
    match ← nextSection? with
    | none => return
    | some found =>
      decodeSection found
      decodeSections room

/-- All sections, and what they owe each other. There are no more sections than bytes. -/
def decodeAll : Action Decoding Unit := do
  decodeSections (← get).sections.reader.remaining
  let d ← get
  match d.module.agreementFault? d.sawData with
  | some fault => throw fault
  | none => return

end Decoding

/-- The event that ends the log of a decoding. -/
def Module.decodedEvent (m : Module) : Event :=
  .moduleDecoded m.types.length m.imports.length m.functions.length m.globals.length
    m.exports.length m.instructions.length

/-- Decodes into the tables of a module that is used again. -/
def Assembly.decode (bytes : List UInt8) : Action Assembly Unit := fun a =>
  let storage := a.module.clear
  match SectionReader.ofBytes bytes with
  | .error fault => .error fault ⟨storage, a.log.push (.decodingFailed fault)⟩
  | .ok sections =>
    match Decoding.decodeAll ⟨sections, storage, false⟩ with
    | .ok _ d => .ok () ⟨d.module, (a.log ++ d.sections.log).push d.module.decodedEvent⟩
    | .error fault d =>
      .error fault ⟨d.module.clear, (a.log ++ d.sections.log).push (.decodingFailed fault)⟩

/-- The module that bytes spell. -/
def Module.ofBytes (bytes : List UInt8) : Except Fault Module :=
  match Assembly.decode bytes {} with
  | .ok _ a => .ok a.module
  | .error fault _ => .error fault

end BoundedWasm
