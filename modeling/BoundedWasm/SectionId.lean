/-!
# BoundedWasm.SectionId — the kinds of sections

Their numbers, their names and the order in which they stand in a module: by number, except that the
data count stands before the code.
-/

namespace BoundedWasm

inductive SectionId where
  | custom
  | type
  | imports
  | function
  | table
  | memory
  | global
  | exports
  | start
  | element
  | code
  | data
  | dataCount
  deriving DecidableEq, Inhabited

namespace SectionId

/-- Every kind, by number. -/
def all : List SectionId :=
  [custom, type, imports, function, table, memory, global, exports, start, element, code, data,
    dataCount]

def number : SectionId → Nat
  | custom => 0
  | type => 1
  | imports => 2
  | function => 3
  | table => 4
  | memory => 5
  | global => 6
  | exports => 7
  | start => 8
  | element => 9
  | code => 10
  | data => 11
  | dataCount => 12

def ofNumber? (n : Nat) : Option SectionId := all[n]?

/-- The rank of a section among the sections of a module; ranks must increase. -/
def order : SectionId → Nat
  | dataCount => 10
  | code => 11
  | data => 12
  | id => id.number

def name : SectionId → String
  | custom => "custom"
  | type => "type"
  | imports => "import"
  | function => "function"
  | table => "table"
  | memory => "memory"
  | global => "global"
  | exports => "export"
  | start => "start"
  | element => "element"
  | code => "code"
  | data => "data"
  | dataCount => "datacount"

instance : ToString SectionId := ⟨name⟩

def ofName? (name : String) : Option SectionId := all.find? fun id => id.name == name

theorem ofNumber?_number (id : SectionId) : ofNumber? id.number = some id := by
  cases id <;> rfl

end SectionId

end BoundedWasm
