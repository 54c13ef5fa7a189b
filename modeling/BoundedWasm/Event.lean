import BoundedWasm.Opcode
import BoundedWasm.SectionId

/-!
# BoundedWasm.Event — what the engine tells its log

Each kind of line in the log is one constructor; `level` and `message` give its wording.
-/

namespace BoundedWasm

inductive Event where
  | sectionFound (id : SectionId) (offset size : Nat)
  | customSkipped (name : String) (offset size : Nat)
  | trailingBytes (id : SectionId) (count : Nat)
  | sectionDecoded (id : SectionId)
  | moduleDecoded (types imports functions globals exports instructions : Nat)
  | decodingFailed (fault : Fault)
  | functionBound (moduleName field : String) (inputs outputs : Nat)
  | variableBound (name : String)
  | machineCreated (bytes globals : Nat)
  | nativeEntered (position : Nat)
  | bodyEntered (code depth : Nat)
  | unboundCalled (moduleName field : String)
  | opcodeUnsupported (opcode : Opcode)
  | callTrapped (function : UInt32) (fault : Fault)
  deriving DecidableEq

namespace Event

inductive Level where
  | trace
  | debug
  | warn
  deriving DecidableEq

def Level.name : Level → String
  | trace => "TRACE"
  | debug => "DEBUG"
  | warn => "WARN"

def level : Event → Level
  | sectionFound .. | customSkipped .. | trailingBytes .. | sectionDecoded .. => .trace
  | nativeEntered .. | bodyEntered .. => .trace
  | moduleDecoded .. | decodingFailed .. | functionBound .. | variableBound .. => .debug
  | machineCreated .. => .debug
  | unboundCalled .. | opcodeUnsupported .. | callTrapped .. => .warn

def message : Event → String
  | sectionFound id offset size => s!"section {id} at offset {offset} ({size} bytes)"
  | customSkipped name offset size =>
    "skipping custom section '" ++ name ++ s!"' at offset {offset} ({size} bytes)"
  | trailingBytes id count => s!"{id} section has {count} trailing bytes"
  | sectionDecoded id => s!"{id} section decoded"
  | moduleDecoded types imports functions globals exports instructions =>
    s!"decoded module: {types} types, {imports} imports, {functions} functions, "
      ++ s!"{globals} globals, {exports} exports, {instructions} instructions"
  | decodingFailed fault => s!"module decoding failed: {fault}"
  | functionBound moduleName field inputs outputs =>
    s!"bound native function {moduleName}.{field} ({inputs} inputs, {outputs} outputs)"
  | variableBound name => s!"bound native variable {name}"
  | machineCreated bytes globals =>
    s!"Created virtual machine: {bytes} bytes of memory, {globals} globals"
  | nativeEntered position => s!"Calling native function for import {position}"
  | bodyEntered code depth => s!"Entering function body {code} at depth {depth}"
  | unboundCalled moduleName field => s!"Call to unbound import {moduleName}.{field}"
  | opcodeUnsupported opcode => s!"No handler for opcode {opcode}"
  | callTrapped function fault => s!"Call to function {function} trapped: {fault}"

/-- The line of the log: level and message. -/
def line (event : Event) : String := event.level.name ++ " " ++ event.message

end Event

end BoundedWasm
