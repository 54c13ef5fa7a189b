/-!
# BoundedWasm.Limits — the fixed sizes of every table and stack

Nothing in the engine grows past these numbers: each table of a module and each stack of a machine
is a `FixedVec` whose capacity is one of them.
-/

namespace BoundedWasm.Limits

/-! ### Tables of a module -/

def maxTypes : Nat := 64

def maxImports : Nat := 64

/-- Functions defined by a module; imported functions are counted by `maxImports`. -/
def maxFunctions : Nat := 256

def maxGlobals : Nat := 64

def maxExports : Nat := 64

def maxDataSegments : Nat := 32

def maxMemories : Nat := 1

/-- Instructions of all function bodies together. -/
def maxInstructions : Nat := 4096

/-! ### Parts of one definition -/

def maxParams : Nat := 16

def maxResults : Nat := 1

def maxLocalGroups : Nat := 16

/-- Locals that the groups of one function may declare, parameters not counted. -/
def maxLocalsPerFunction : Nat := 256

/-- Blocks open at one time inside one body. -/
def maxBlockDepth : Nat := 32

/-- Bytes of an import or export name. -/
def maxNameLength : Nat := 64

/-! ### Stacks of a machine -/

def maxOperandStack : Nat := 1024

def maxLocalsStack : Nat := 1024

/-- Activations of defined functions open at one time. -/
def maxCallDepth : Nat := 64

/-! ### Linear memory and the binary format -/

/-- Bytes of one page. -/
def pageSize : Nat := 65536

def maxPages : Nat := 65536

/-- The version number that follows the magic bytes. -/
def binaryVersion : Nat := 1

end BoundedWasm.Limits
