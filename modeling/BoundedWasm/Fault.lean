/-!
# BoundedWasm.Fault — what can go wrong, and how it is worded

A `Fault` is a category, a numeric code and a message. Every cause that the engine itself reports
has one name here, so that its category, its code and its wording are decided in one place. Native
functions may report faults of their own.
-/

namespace BoundedWasm

/-- The kind of a fault; only some kinds leave a machine unusable. -/
inductive Category where
  | parse
  | validation
  | capacity
  | notSupported
  | memory
  | type
  | runtime
  | runtimeTrap
  deriving DecidableEq, Inhabited

namespace Category

/-- Categories are numbered from one, in the order of their declaration. -/
def number : Category → Nat
  | parse => 1
  | validation => 2
  | capacity => 3
  | notSupported => 4
  | memory => 5
  | type => 6
  | runtime => 7
  | runtimeTrap => 8

def name : Category → String
  | parse => "Parse"
  | validation => "Validation"
  | capacity => "Capacity"
  | notSupported => "NotSupported"
  | memory => "Memory"
  | type => "Type"
  | runtime => "Runtime"
  | runtimeTrap => "RuntimeTrap"

/-- Every category, by number. -/
def all : List Category :=
  [parse, validation, capacity, notSupported, memory, type, runtime, runtimeTrap]

end Category

structure Fault where
  category : Category
  code : UInt16
  message : String
  deriving DecidableEq, Inhabited

namespace Fault

/-- A fault of one of these categories, met while a machine runs, leaves the machine poisoned. -/
def poisonsInstance (fault : Fault) : Bool :=
  match fault.category with
  | .runtimeTrap | .runtime | .notSupported => true
  | _ => false

/-- A number with at least four digits. -/
def fourDigits (n : Nat) : String :=
  let digits := toString n
  String.ofList (List.replicate (4 - digits.length) '0') ++ digits

/-- The line that logs show: category, code with four digits, message. -/
def display (fault : Fault) : String :=
  "[" ++ fault.category.name ++ "][E" ++ fourDigits fault.code.toNat ++ "] " ++ fault.message

instance : ToString Fault := ⟨display⟩

/-! ### Faults by category, with a code and a wording of the caller's -/

def parse (code : UInt16) (message : String) : Fault := ⟨.parse, code, message⟩

def validation (code : UInt16) (message : String) : Fault := ⟨.validation, code, message⟩

def notSupported (code : UInt16) (message : String) : Fault := ⟨.notSupported, code, message⟩

def memory (code : UInt16) (message : String) : Fault := ⟨.memory, code, message⟩

def runtime (code : UInt16) (message : String) : Fault := ⟨.runtime, code, message⟩

def trap (code : UInt16) (message : String) : Fault := ⟨.runtimeTrap, code, message⟩

/-! ### Kinds: category and code are fixed, the wording is the caller's -/

def capacityExceeded (message : String) : Fault := ⟨.capacity, 4000, message⟩

def typeMismatch (message : String) : Fault := ⟨.type, 1003, message⟩

def stackExhausted (message : String) : Fault := runtime 1001 message

def memoryOutOfBounds (message : String) : Fault := trap 1101 message

def invalidLeb128 (message : String) : Fault := parse 2001 message

def invalidOpcode (message : String) : Fault := parse 2008 message

def invalidIndex (code : UInt16) (message : String) : Fault := validation code message

def sizeMismatch (code : UInt16) (message : String) : Fault := validation code message

def importUnbound (message : String) : Fault := runtime 1007 message

def invalidSignature (message : String) : Fault := validation 3005 message

/-! ### Fixed-capacity tables -/

/-- An element does not fit. -/
def tableFull : Fault := capacityExceeded "StaticVec capacity exceeded"

/-- A whole vector does not fit. -/
def vectorTooLong : Fault := capacityExceeded "Vector length exceeds the fixed capacity"

/-- The general wording, for callers that have none of their own. -/
def capacityLimit : Fault := capacityExceeded "Bounded capacity exceeded"

/-! ### Reading bytes -/

def unexpectedEnd : Fault := parse 2000 "Unexpected end of input"

def leb128TooLong : Fault := invalidLeb128 "LEB128 integer too long"

def leb128TooLarge : Fault := invalidLeb128 "LEB128 integer too large"

def invalidUtf8 : Fault := parse 2007 "Name is not valid UTF-8"

def nameTooLong : Fault := validation 3008 "Name exceeds maximum length"

/-! ### Framing of sections -/

def invalidMagic : Fault := parse 2002 "Not a valid WebAssembly module"

def invalidVersion : Fault := parse 2003 "Unsupported WebAssembly version"

def unknownSection : Fault := parse 2004 "Unknown section id"

def sectionOrder : Fault := validation 3000 "Section repeated or out of order"

def sectionSizeMismatch : Fault :=
  sizeMismatch 3001 "Section size does not match its contents"

/-! ### Contents of sections -/

def invalidValueType : Fault := parse 2005 "Invalid value type"

def invalidMutability : Fault := parse 2006 "Invalid global mutability flag"

def invalidTypeTag : Fault := parse 2009 "Function type must start with 0x60"

def multipleResults : Fault := notSupported 5002 "Multiple return values are not supported"

def typeIndexOutOfRange : Fault := invalidIndex 3004 "Type index out of range"

def invalidImportKind : Fault := parse 2010 "Invalid import kind"

def invalidTagAttribute : Fault := parse 2010 "Tag attribute must be zero"

def invalidExportKind : Fault := parse 2011 "Invalid export kind"

def invalidLimitsFlag : Fault := parse 2012 "Invalid limits flag"

def limitsReversed : Fault := parse 2012 "Limits minimum exceeds maximum"

def tooManyPages : Fault := parse 2012 "Memory size exceeds 65536 pages"

def tablesUnsupported : Fault := notSupported 5001 "Tables are not supported"

def multipleMemories : Fault := notSupported 5002 "Multiple memories are not supported"

def passiveData : Fault := notSupported 5002 "Passive data segments are not supported"

def invalidDataMode : Fault := parse 2013 "Invalid data segment mode"

def invalidDataOffset : Fault := parse 2013 "Invalid data offset"

def dataCountMismatch : Fault :=
  validation 3007 "Data count does not match the data section"

def tooManyLocals : Fault := capacityExceeded "Too many locals in function"

def bodySizeMismatch : Fault :=
  sizeMismatch 3002 "Function body size does not match its contents"

def functionCodeMismatch : Fault :=
  validation 3003 "Function and code section lengths differ"

/-! ### Expressions -/

def unknownOpcode : Fault := invalidOpcode "Unknown opcode"

def invalidBlockType : Fault := parse 2014 "Invalid block type"

def invalidReservedByte : Fault := parse 2015 "Reserved memory index byte must be zero"

def blocksTooDeep : Fault := ⟨.capacity, 4001, "Blocks nested too deeply"⟩

def constantExpected : Fault :=
  parse 2013 "Constant expression must be a single constant"

def constantUnterminated : Fault :=
  parse 2013 "Constant expression is not terminated by end"

def constantTypeMismatch : Fault := parse 2013 "Constant expression type does not match"

/-! ### Agreement of the sections with each other -/

def dataSectionMissing : Fault :=
  validation 3007 "Data count announced without a data section"

def startOutOfRange : Fault := invalidIndex 1004 "Start function index out of range"

def exportOutOfRange : Fault := invalidIndex 3010 "Export refers to a missing definition"

def duplicateExport : Fault := validation 3010 "Duplicate export name"

/-! ### Native bindings -/

def signatureUnopened : Fault := invalidSignature "Signature must start with '('"

def signatureReclosed : Fault := invalidSignature "Signature has more than one ')'"

def signatureCharacter : Fault := invalidSignature "Invalid signature character"

def signatureTooLong : Fault := invalidSignature "Signature has too many values"

def signatureUnclosed : Fault := invalidSignature "Signature is missing ')'"

def importTypeMissing : Fault := validation 3004 "Import refers to a missing type"

def signatureMismatch : Fault :=
  validation 3006 "Native signature does not match the import"

def variableTooWide : Fault := typeMismatch "Host variables must be 32 bits wide"

/-! ### Values and instructions -/

def unexpectedType : Fault := runtime 1003 "Value has unexpected type"

def malformedImmediate : Fault :=
  runtime 1009 "Instruction immediate has unexpected shape"

def constantImmediateMissing : Fault :=
  runtime 1009 "Constant instruction without a constant immediate"

/-! ### Creating a machine -/

def importedMemory : Fault := notSupported 5002 "Imported memories are not supported"

def bufferTooSmall : Fault :=
  memory 6000 "Memory buffer is smaller than the module's initial memory"

def segmentOutOfBounds : Fault := memory 6001 "Data segment does not fit in memory"

/-! ### Running -/

def stackUnderflow : Fault := runtime 1000 "Operand stack underflow"

def stackOverflow : Fault := stackExhausted "Operand stack overflow"

def localsExhausted : Fault := stackExhausted "Locals stack exhausted"

def callDepthReached : Fault := runtime 1002 "Call depth limit reached"

def poisoned : Fault := runtime 1009 "Virtual machine was poisoned by an earlier trap"

def exportMissing : Fault := runtime 1004 "No exported function with this name"

def functionOutOfRange : Fault := runtime 1004 "Function index out of range"

def bodyMissing : Fault := runtime 1004 "Function has no code body"

def functionTypeMissing : Fault := runtime 1004 "Function type index out of range"

def bodyOutsidePool : Fault :=
  validation 1004 "Code body lies outside the instruction pool"

def argumentMismatch : Fault :=
  typeMismatch "Argument does not match the callee's signature"

def localOutOfRange : Fault := runtime 1005 "Local index out of range"

def localMismatch : Fault := typeMismatch "Value does not match the local's type"

def globalOutOfRange : Fault := runtime 1006 "Global index out of range"

def globalImmutable : Fault := runtime 1008 "Cannot set an immutable global"

def globalMismatch : Fault := typeMismatch "Value does not match the global's type"

def variableUnbound : Fault := importUnbound "Imported global has no host variable"

def functionUnbound : Fault := importUnbound "Imported function has no native binding"

def opcodeUnsupported : Fault :=
  notSupported 5000 "Opcode not supported by the interpreter"

def nativeHeight : Fault :=
  trap 1105 "Native function left the stack at the wrong height"

def unreachableExecuted : Fault := trap 1100 "unreachable executed"

def accessOutOfBounds : Fault := memoryOutOfBounds "Out of bounds memory access"

def divideByZero : Fault := trap 1102 "Integer divide by zero"

def integerOverflow : Fault := trap 1103 "Integer overflow"

def invalidConversion : Fault := trap 1104 "Invalid conversion to integer"

def selectMismatch : Fault := typeMismatch "select operands differ in type"

end Fault

end BoundedWasm
