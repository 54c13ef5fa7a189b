import BoundedWasm.Decode.Contents
import BoundedWasm.FixedVec.Lemmas

/-!
# BoundedWasm.Proofs.Module.WellFormed — what holds of a module that was decoded

`Module.Coherent` collects the conditions that hold between any two sections of a module that is
being built, whatever sections it has so far; `Module.WellFormed` adds what the end of decoding
makes sure of.  The bodies of a module are said to tile its table of instructions (`Tiles`): they
are not empty, each ends with `end`, and they lie one behind the other from the first instruction to
the last.
-/

namespace BoundedWasm

open Limits

/-! ### Parts of a module -/

/-- The bounds of a memory, in pages. -/
structure SizeLimits.InPages (limits : SizeLimits) : Prop where
  min_le : limits.min.toNat ≤ maxPages
  max_le : ∀ max, limits.max = some max → limits.min ≤ max ∧ max.toNat ≤ maxPages

/-- The function type that an import of a function or of a tag refers to. -/
def ImportDesc.typeIndex? : ImportDesc → Option UInt32
  | .function index => some index
  | .tag index => some index
  | _ => none

/-- An import in a module with `types` types. -/
structure ImportDesc.FitsTypes (types : Nat) (desc : ImportDesc) : Prop where
  typeIndex_lt : ∀ index, desc.typeIndex? = some index → index.toNat < types
  inPages : ∀ limits, desc.memoryLimits? = some limits → limits.InPages

theorem ImportDesc.FitsTypes.mono {types types' : Nat} {desc : ImportDesc}
    (h : desc.FitsTypes types) (hle : types ≤ types') : desc.FitsTypes types' :=
  ⟨fun index hi => Nat.lt_of_lt_of_le (h.typeIndex_lt index hi) hle, h.inPages⟩

theorem ImportDesc.FitsTypes.of_typeIndex {types : Nat} {desc : ImportDesc} {index : UInt32}
    (htype : desc.typeIndex? = some index) (hlt : index.toNat < types)
    (hlimits : desc.memoryLimits? = none) : desc.FitsTypes types := by
  refine ⟨fun i hi => ?_, fun limits h => ?_⟩
  · rw [htype] at hi
    cases hi
    exact hlt
  · rw [hlimits] at h
    cases h

theorem ImportDesc.FitsTypes.of_none {types : Nat} {desc : ImportDesc}
    (htype : desc.typeIndex? = none) (hlimits : desc.memoryLimits? = none) :
    desc.FitsTypes types := by
  refine ⟨fun i hi => ?_, fun limits h => ?_⟩
  · rw [htype] at hi
    cases hi
  · rw [hlimits] at h
    cases h

/-- The initializer of a global has the type of the global. -/
def Global.Typed (entry : Global) : Prop := entry.init.type = entry.type.valueType

/-- The number of locals of a body is the sum of its groups. -/
structure Code.CountsLocals (code : Code) : Prop where
  numLocals_eq : code.numLocals.toNat = LocalGroup.total code.locals.toList
  numLocals_le : code.numLocals.toNat ≤ maxLocalsPerFunction

/-- The instruction at `position` is an `end`. -/
def EndsAt (pool : List Instruction) (position : Nat) : Prop :=
  ∃ i, pool[position]? = some i ∧ i.opcode = .endBlock

/-- The bodies of `codes` lie one behind the other, from `start` to the end of `pool`. -/
def Tiles (pool : List Instruction) : (start : Nat) → List Code → Prop
  | start, [] => start = pool.length
  | start, code :: codes =>
    code.start.toNat = start ∧ 0 < code.length.toNat ∧
      EndsAt pool (start + code.length.toNat - 1) ∧ Tiles pool (start + code.length.toNat) codes

/-- What holds between any two sections of a module that is being built. -/
structure Module.Coherent (m : Module) : Prop where
  bindings : m.bindings.toList = List.replicate m.imports.length .unbound
  functions : ∀ index ∈ m.functions.toList, index.toNat < m.types.length
  imports : ∀ entry ∈ m.imports.toList, entry.desc.FitsTypes m.types.length
  memories : ∀ limits ∈ m.memories.toList, limits.InPages
  globals : ∀ entry ∈ m.globals.toList, entry.Typed
  codes : ∀ code ∈ m.codes.toList, code.CountsLocals
  bodies : Tiles m.instructions.toList 0 m.codes.toList

/-- The number of the index that an export refers to. -/
def ExportDesc.index : ExportDesc → UInt32
  | .function index => index
  | .table index => index
  | .memory index => index
  | .global index => index

/-- The size of the index space that an export refers to: the imports of its kind, and after them
the definitions.  Tables are never defined. -/
def Module.spaceOf (m : Module) : ExportDesc → Nat
  | .function _ => m.importedFunctionCount + m.functions.length
  | .table _ => m.importedTableCount
  | .memory _ => m.importedMemoryCount + m.memories.length
  | .global _ => m.importedGlobalCount + m.globals.length

structure Module.WellFormed (m : Module) : Prop extends m.Coherent where
  codes_length : m.codes.length = m.functions.length
  start_lt : ∀ index, m.start = some index → index.toNat < m.functionCount
  exports_lt : ∀ entry ∈ m.exports.toList, entry.desc.index.toNat < m.spaceOf entry.desc
  exports_nodup : (m.exports.toList.map Export.name).Nodup
  dataCount_eq : ∀ count, m.dataCount = some count → count.toNat = m.data.length

/-! ### Tilings -/

section Tilings

variable {pool : List Instruction}

theorem EndsAt.append {position : Nat} (h : EndsAt pool position) (more : List Instruction) :
    EndsAt (pool ++ more) position := by
  obtain ⟨i, hi, hop⟩ := h
  obtain ⟨hlt, -⟩ := List.getElem?_eq_some_iff.mp hi
  exact ⟨i, by rw [List.getElem?_append_left hlt]; exact hi, hop⟩

/-- One more body, put behind the others. -/
theorem Tiles.append {start : Nat} {codes : List Code} (h : Tiles pool start codes) {code : Code}
    {body : List Instruction} (hstart : code.start.toNat = pool.length)
    (hlength : code.length.toNat = body.length) (hne : 0 < body.length)
    (hend : EndsAt (pool ++ body) (pool.length + body.length - 1)) :
    Tiles (pool ++ body) start (codes ++ [code]) := by
  induction codes generalizing start with
  | nil =>
    have hs : start = pool.length := h
    subst hs
    refine ⟨hstart, by omega, ?_, ?_⟩
    · rw [hlength]
      exact hend
    · simp [Tiles, hlength]
  | cons first codes ih =>
    obtain ⟨h1, h2, h3, h4⟩ := h
    exact ⟨h1, h2, h3.append body, ih h4⟩

end Tilings

/-! ### Adding an entry -/

namespace Module

/-- A table that grew by one entry in its place in a module. -/
theorem grow_ok {α : Type} [Inhabited α] {cap : Nat} {v : FixedVec α cap} {x : α} {m' : Module}
    (place : FixedVec α cap → Module)
    (h : (do return place (← v.push x) : Except Fault Module) = .ok m') :
    ∃ w, w.toList = v.toList ++ [x] ∧ m' = place w := by
  cases hw : v.push x with
  | error fault =>
    rw [hw] at h
    cases h
  | ok w =>
    rw [hw] at h
    cases h
    exact ⟨w, FixedVec.toList_of_push hw, rfl⟩

/-- A coherent module with these data segments and this data count. -/
structure CoherentWith (data : FixedVec DataSegment maxDataSegments) (dataCount : Option UInt32)
    (m : Module) : Prop extends m.Coherent where
  data_eq : m.data = data
  dataCount_eq : m.dataCount = dataCount

theorem forall_mem_concat {α : Type} {P : α → Prop} {xs ys : List α} {x : α}
    (hys : ys = xs ++ [x]) (h : ∀ y ∈ xs, P y) (hx : P x) : ∀ y ∈ ys, P y := by
  subst hys
  intro y hy
  rcases List.mem_append.mp hy with hy | hy
  · exact h y hy
  · rw [List.mem_singleton.mp hy]
    exact hx

namespace CoherentWith

variable {data : FixedVec DataSegment maxDataSegments} {dataCount : Option UInt32} {m m' : Module}

theorem addType (h : CoherentWith data dataCount m) {entry : FunctionType}
    (hm : m.addType entry = .ok m') : CoherentWith data dataCount m' := by
  obtain ⟨w, hw, rfl⟩ := grow_ok (fun types => { m with types }) hm
  have hle : m.types.length ≤ w.length := by
    rw [← FixedVec.length_toList w, hw]
    simp
  exact { h with
    functions := fun index hi => Nat.lt_of_lt_of_le (h.functions index hi) hle
    imports := fun entry he => (h.imports entry he).mono hle }

/-- An import comes with a binding slot. -/
theorem addImport (h : CoherentWith data dataCount m) {entry : Import} {m₁ : Module}
    (hentry : entry.desc.FitsTypes m.types.length) (hm₁ : m.addImport entry = .ok m₁)
    (hm : m₁.addBinding .unbound = .ok m') : CoherentWith data dataCount m' := by
  obtain ⟨w, hw, rfl⟩ := grow_ok (fun imports => { m with imports }) hm₁
  obtain ⟨b, hb, rfl⟩ := grow_ok (fun bindings => { m with imports := w, bindings }) hm
  have hlength : w.length = m.imports.length + 1 := by
    rw [← FixedVec.length_toList w, hw]
    simp
  refine { h with bindings := ?_, imports := forall_mem_concat hw h.imports hentry }
  show b.toList = List.replicate w.length .unbound
  rw [hb, hlength, List.replicate_succ']
  exact congrArg (· ++ [_]) h.bindings

theorem addFunction (h : CoherentWith data dataCount m) {index : UInt32}
    (hlt : index.toNat < m.types.length) (hm : m.addFunction index = .ok m') :
    CoherentWith data dataCount m' := by
  obtain ⟨w, hw, rfl⟩ := grow_ok (fun functions => { m with functions }) hm
  exact { h with functions := forall_mem_concat hw h.functions hlt }

theorem addMemory (h : CoherentWith data dataCount m) {limits : SizeLimits}
    (hpages : limits.InPages) (hm : m.addMemory limits = .ok m') :
    CoherentWith data dataCount m' := by
  obtain ⟨w, hw, rfl⟩ := grow_ok (fun memories => { m with memories }) hm
  exact { h with memories := forall_mem_concat hw h.memories hpages }

theorem addGlobal (h : CoherentWith data dataCount m) {entry : Global} (htyped : entry.Typed)
    (hm : m.addGlobal entry = .ok m') : CoherentWith data dataCount m' := by
  obtain ⟨w, hw, rfl⟩ := grow_ok (fun globals => { m with globals }) hm
  exact { h with globals := forall_mem_concat hw h.globals htyped }

theorem addExport (h : CoherentWith data dataCount m) {entry : Export}
    (hm : m.addExport entry = .ok m') : CoherentWith data dataCount m' := by
  obtain ⟨w, hw, rfl⟩ := grow_ok (fun exports => { m with exports }) hm
  exact { h with }

/-- A body behind the others, and the code that says where it is. -/
theorem addCode (h : CoherentWith data dataCount m) {pool : FixedVec Instruction maxInstructions}
    {code : Code} {body : List Instruction} (hpool : pool.toList = m.instructions.toList ++ body)
    (hne : 0 < body.length) (hend : EndsAt pool.toList (pool.length - 1))
    (hstart : code.start.toNat = m.instructions.length) (hlength : code.length.toNat = body.length)
    (hcounts : code.CountsLocals)
    (hm : ({ m with instructions := pool } : Module).addCode code = .ok m') :
    CoherentWith data dataCount m' := by
  obtain ⟨w, hw, rfl⟩ := grow_ok (fun codes => { m with instructions := pool, codes }) hm
  refine { h with codes := forall_mem_concat hw h.codes hcounts, bodies := ?_ }
  show Tiles pool.toList 0 w.toList
  rw [hw, hpool]
  refine h.bodies.append ?_ hlength hne ?_
  · rw [hstart, FixedVec.length_toList]
  · rw [← FixedVec.length_toList pool, hpool, List.length_append] at hend
    exact hend

end CoherentWith

end Module

end BoundedWasm
