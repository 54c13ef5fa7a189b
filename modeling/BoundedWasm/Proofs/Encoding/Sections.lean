import BoundedWasm.Proofs.Decode.Tables
import BoundedWasm.Proofs.Encoding.Bodies

/-!
# BoundedWasm.Proofs.Encoding.Sections — a section fills its tables as they were

`Draft.Builds action bytes m m'` says that the action reads `bytes`, whatever follows them, and
makes `m'` of the module `m`.  For each kind of section: if the sections before it have filled their
tables and its own are still empty, reading what was written for it fills them with what they held
when it was written (`builds_contents`).
-/

namespace BoundedWasm

open Limits

namespace Module

/-- The tables of sections of the kind hold the same in the module `m'` that was read as in the
module `m` that was written, and no import is bound. -/
def SameAt (m m' : Module) : SectionId → Prop
  | .type => m'.types.toList.map FunctionType.contents = m.types.toList.map FunctionType.contents
  | .imports => m'.imports.toList = m.imports.toList ∧
      m'.bindings.toList = List.replicate m.imports.length .unbound
  | .function => m'.functions.toList = m.functions.toList
  | .memory => m'.memories.toList = m.memories.toList
  | .global => m'.globals.toList = m.globals.toList
  | .exports => m'.exports.toList = m.exports.toList
  | .start => m'.start = m.start
  | .code => m'.codes.toList.map Code.contents = m.codes.toList.map Code.contents ∧
      m'.instructions.toList = m.instructions.toList
  | .data => m'.data.toList = m.data.toList
  | .dataCount => m'.dataCount = m.dataCount
  | .custom | .table | .element => True

theorem sameAt_without {id other : SectionId} (hne : other ≠ id) (m m' : Module) :
    m.SameAt (m'.without id) other ↔ m.SameAt m' other := by
  cases id <;> cases other <;> first | exact Iff.rfl | exact absurd rfl hne

/-- What another section does leaves the tables of this kind as they are. -/
theorem SameAt.of_without {m m₀ m' : Module} {id other : SectionId} (h : m.SameAt m₀ other)
    (hne : other ≠ id) (hwithout : m'.without id = m₀.without id) : m.SameAt m' other := by
  rw [← sameAt_without hne, hwithout, sameAt_without hne]
  exact h

end Module

/-! ### Building a module -/

section Vectors

variable {α : Type} [Inhabited α] {cap : Nat} {v w : FixedVec α cap}

theorem FixedVec.exists_push (h : v.length < cap) (x : α) :
    ∃ w, v.push x = .ok w ∧ w.toList = v.toList ++ [x] :=
  ⟨v.put x, if_pos h, v.toList_put_of_lt h x⟩

theorem FixedVec.toList_eq_nil (h : v.length = 0) : v.toList = [] :=
  List.eq_nil_of_length_eq_zero (v.length_toList.trans h)

theorem FixedVec.length_eq_of_map {β : Type} {f : α → β} (h : v.toList.map f = w.toList.map f) :
    v.length = w.length := by
  simpa using congrArg List.length h

end Vectors

namespace Draft

open BoundedWasm.Action

/-- The action reads `bytes`, whatever follows them, and makes `m'` of the module `m`. -/
def Builds (action : Action Draft Unit) (bytes : List UInt8) (m m' : Module) : Prop :=
  ∀ position rest, action ⟨⟨position, bytes ++ rest⟩, m⟩
    = .ok () ⟨⟨position + bytes.length, rest⟩, m'⟩

section Rules

variable {bytes more : List UInt8} {m m₁ m' : Module}

theorem builds_pure (m : Module) : Builds (pure ()) [] m m := fun _ _ => rfl

theorem Builds.seq {action next : Action Draft Unit} (h : Builds action bytes m m₁)
    (hnext : Builds next more m₁ m') :
    Builds (action >>= fun _ => next) (bytes ++ more) m m' := by
  intro position rest
  rw [bind_run, List.append_assoc, h]
  simp only
  rw [hnext, List.length_append, Nat.add_assoc]

theorem reading_run {α : Type} {p : Parser α} {a : α} (h : Reads p bytes a) (position : Nat)
    (rest : List UInt8) (m : Module) :
    reading p ⟨⟨position, bytes ++ rest⟩, m⟩ = .ok a ⟨⟨position + bytes.length, rest⟩, m⟩ := by
  rw [reading, onPart, h]

theorem builds_reading {α : Type} {p : Parser α} {a : α} (h : Reads p bytes a)
    {next : α → Action Draft Unit} (hnext : Builds (next a) more m m') :
    Builds (reading p >>= next) (bytes ++ more) m m' := by
  intro position rest
  rw [bind_run, List.append_assoc, reading_run h]
  simp only
  rw [hnext, List.length_append, Nat.add_assoc]

/-- What is read last. -/
theorem builds_reading_last {α : Type} {p : Parser α} {a : α} (h : Reads p bytes a)
    {next : α → Action Draft Unit} (hnext : Builds (next a) [] m m') :
    Builds (reading p >>= next) bytes m m' := by
  have hbuilds := builds_reading h hnext
  rwa [List.append_nil] at hbuilds

theorem builds_get {next : Draft → Action Draft Unit} (h : ∀ r, Builds (next ⟨r, m⟩) bytes m m') :
    Builds (get >>= next) bytes m m' :=
  fun position rest => h ⟨position, bytes ++ rest⟩ position rest

theorem builds_modify (f : Module → Module) :
    Builds (modify fun d => { d with module := f d.module }) [] m (f m) := fun _ _ => rfl

theorem builds_update {f : Module → Except Fault Module} (h : f m = .ok m') :
    Builds (update f) [] m m' := by
  intro position rest
  show (ofExcept (f m) >>= fun m => _) _ = _
  rw [h]
  rfl

theorem Builds.unless {c : Prop} [Decidable c] {fault : Fault} {action : Action Draft Unit}
    (hc : ¬ c) (h : Builds action bytes m m') :
    Builds (if c then throw fault else action) bytes m m' := by
  rwa [if_neg hc]

end Rules

section Repetition

variable {α : Type} {E : α → List UInt8 → Prop} {entry : Action Draft Unit} {xs : List α}

/-- Entry after entry; `I` says what is in the module when some of them were read. -/
theorem builds_times (I : List α → Module → Prop)
    (hstep : ∀ done x todo bytes m, xs = done ++ x :: todo → E x bytes → I done m →
      ∃ m', Builds entry bytes m m' ∧ I (done ++ [x]) m')
    {bytes : List UInt8} (h : EachBy E xs bytes) {m : Module} (hm : I [] m) :
    ∃ m', Builds (times entry xs.length) bytes m m' ∧ I xs m' := by
  suffices hall : ∀ todo done bytes m, xs = done ++ todo → EachBy E todo bytes → I done m →
      ∃ m', Builds (times entry todo.length) bytes m m' ∧ I xs m' from
    hall xs [] bytes m rfl h hm
  intro todo
  induction todo with
  | nil =>
    intro done bytes m hxs h hm
    cases h
    rw [List.append_nil] at hxs
    exact ⟨m, builds_pure m, hxs ▸ hm⟩
  | cons x todo ih =>
    intro done bytes m hxs h hm
    cases h with
    | cons hx htodo =>
      obtain ⟨m₁, hfirst, hm₁⟩ := hstep done x todo _ m hxs hx hm
      have hxs₁ : xs = (done ++ [x]) ++ todo := by rw [hxs, List.append_assoc]; rfl
      obtain ⟨m', hothers, hm'⟩ := ih (done ++ [x]) _ m₁ hxs₁ htodo hm₁
      exact ⟨m', hfirst.seq hothers, hm'⟩

end Repetition

/-! ### Filling a table -/

section Tables

variable {α β : Type} [Inhabited α] {cap : Nat}

/-- What is read is put behind what the table holds. -/
theorem builds_add (add : α → Module → Except Fault Module) {p : Parser α} {x : α}
    {bytes : List UInt8} (h : Reads p bytes x) {m : Module} {v : FixedVec α cap}
    (place : FixedVec α cap → Module)
    (hadd : add x m = do return place (← v.push x)) (hroom : v.length < cap) :
    ∃ w, w.toList = v.toList ++ [x] ∧
      Builds (do let a ← reading p; update (add a)) bytes m (place w) := by
  obtain ⟨w, hpush, hw⟩ := FixedVec.exists_push hroom x
  refine ⟨w, hw, builds_reading_last h (builds_update ?_)⟩
  rw [hadd, hpush]
  rfl

variable {E : α → List UInt8 → Prop} {entry : Action Draft Unit} {bytes : List UInt8}
  {m m₀ : Module}

/-- An empty table is filled with what it held when it was written; `view` says what of an entry
counts, and `K` what else is kept. -/
theorem builds_fill (table : Module → FixedVec α cap) (view : α → β)
    (K : List α → Module → Prop)
    (hstep : ∀ done x todo bytes m₁, (table m).toList = done ++ x :: todo → E x bytes →
      (table m₁).length < cap → K done m₁ → ∃ x' m', Builds entry bytes m₁ m' ∧
        (table m').toList = (table m₁).toList ++ [x'] ∧ view x' = view x ∧ K (done ++ [x]) m')
    (h : EachBy E (table m).toList bytes) (hempty : (table m₀).length = 0) (hK : K [] m₀) :
    ∃ m', Builds (times entry (table m).toList.length) bytes m₀ m' ∧
      (table m').toList.map view = (table m).toList.map view ∧ K (table m).toList m' := by
  refine builds_times (fun done m' => (table m').toList.map view = done.map view ∧ K done m')
    (fun done x todo bytes m₁ hxs hx hm₁ => ?_) h ⟨?_, hK⟩
  · obtain ⟨hview, hK₁⟩ := hm₁
    have hroom : (table m₁).length < cap := by
      have hle := (table m).length_toList_le
      have hlength := congrArg List.length hview
      rw [List.length_map, List.length_map, FixedVec.length_toList] at hlength
      rw [hxs, List.length_append, List.length_cons] at hle
      omega
    obtain ⟨x', m', hbuilds, hm', hx', hK'⟩ := hstep done x todo bytes m₁ hxs hx hroom hK₁
    refine ⟨m', hbuilds, ?_, hK'⟩
    rw [hm', List.map_append, List.map_append, hview, List.map_singleton, List.map_singleton, hx']
  · rw [FixedVec.toList_eq_nil hempty]

/-- The same for entries that are read as they were written. -/
theorem builds_fill_id (table : Module → FixedVec α cap) (K : Module → Prop)
    (hstep : ∀ x bytes m₁, x ∈ (table m).toList → E x bytes → (table m₁).length < cap → K m₁ →
      ∃ m', Builds entry bytes m₁ m' ∧ (table m').toList = (table m₁).toList ++ [x] ∧ K m')
    (h : EachBy E (table m).toList bytes) (hempty : (table m₀).length = 0) (hK : K m₀) :
    ∃ m', Builds (times entry (table m).toList.length) bytes m₀ m' ∧
      (table m').toList = (table m).toList ∧ K m' := by
  obtain ⟨m', hbuilds, hm', hK'⟩ := builds_fill table id (fun _ => K)
    (fun done x todo bytes m₁ hxs hx hroom hK₁ => by
      have hmem : x ∈ (table m).toList := by rw [hxs]; simp
      obtain ⟨m', hbuilds, hm', hK'⟩ := hstep x bytes m₁ hmem hx hroom hK₁
      exact ⟨x, m', hbuilds, hm', rfl, hK'⟩) h hempty hK
  rw [List.map_id, List.map_id] at hm'
  exact ⟨m', hbuilds, hm', hK'⟩

/-- An empty table has room for what a table of the same kind held. -/
theorem length_le_free {v w : FixedVec α cap} (hempty : w.length = 0) :
    v.toList.length ≤ w.free := by
  rw [FixedVec.free, hempty]
  exact v.length_toList_le

/-- The number of entries, for which there is room, stands before them. -/
theorem builds_entries (table : Module → FixedVec α cap) {number : List UInt8} {m' : Module}
    (hcount : Leb128.Unsigned 32 (table m).toList.length number) (hempty : (table m₀).length = 0)
    (h : Builds (times entry (table m).toList.length) bytes m₀ m') :
    Builds (entries (fun m => (table m).free) entry) (number ++ bytes) m₀ m' :=
  builds_get fun _ => builds_reading (Parser.reads_count hcount (length_le_free hempty)) h

end Tables

/-! ### Sections of definitions -/

section Definitions

variable {m m₀ : Module} {bytes : List UInt8}

theorem builds_typeSection (h : VectorBy FunctionType.EncodedBy m.types.toList bytes)
    (hempty : m₀.types.length = 0) :
    ∃ m', Builds typeSection bytes m₀ m' ∧ m.SameAt m' .type := by
  obtain ⟨hcount, hxs⟩ := h
  obtain ⟨m', hbuilds, hm', -⟩ := builds_fill Module.types FunctionType.contents (fun _ _ => True)
    (fun done type todo bytes m₁ _ htype hroom _ => by
      obtain ⟨type', hreads, hparams, hresults⟩ := Parser.reads_functionType htype
      obtain ⟨w, hw, hbuilds⟩ := builds_add (fun type m => m.addType type) hreads
        (fun types => { m₁ with types }) rfl hroom
      exact ⟨type', _, hbuilds, hw, by rw [FunctionType.contents, hparams, hresults]; rfl, trivial⟩)
    hxs hempty trivial
  exact ⟨m', builds_entries Module.types hcount hempty hbuilds, hm'⟩

/-- Every import gets a binding slot. -/
theorem builds_importSection (h : VectorBy Import.EncodedBy m.imports.toList bytes)
    (hempty : m₀.imports.length = 0) (hbindings : m₀.bindings.length = 0)
    (htypes : m₀.types.length = m.types.length)
    (hreads : ∀ entry bytes, entry ∈ m.imports.toList → entry.EncodedBy bytes →
      Reads (Parser.importEntry m.types.length) bytes entry) :
    ∃ m', Builds importSection bytes m₀ m' ∧ m.SameAt m' .imports := by
  obtain ⟨hcount, hxs⟩ := h
  have hbindings₀ : m₀.bindings.toList = List.replicate m₀.imports.length .unbound := by
    rw [hempty]
    exact FixedVec.toList_eq_nil hbindings
  suffices hfill : ∃ m', Builds importSection _ m₀ m' ∧ m'.imports.toList = m.imports.toList ∧
      m'.bindings.toList = List.replicate m'.imports.length .unbound by
    obtain ⟨m', hbuilds, hm', hbindings'⟩ := hfill
    exact ⟨m', hbuilds, hm', by rw [hbindings', FixedVec.length_eq_of_toList hm']⟩
  refine (builds_fill_id Module.imports
    (fun m₁ => m₁.bindings.toList = List.replicate m₁.imports.length .unbound ∧
      m₁.types.length = m.types.length)
    (fun entry bytes m₁ hmem hentry hroom hm₁ => ?_) hxs hempty ⟨hbindings₀, htypes⟩).imp
      fun m' h => ⟨builds_entries Module.imports hcount hempty h.1, h.2.1, h.2.2.1⟩
  obtain ⟨hbindings₁, htypes₁⟩ := hm₁
  have hbound : m₁.bindings.length = m₁.imports.length := by
    rw [← FixedVec.length_toList, hbindings₁, List.length_replicate]
  have hread : Reads (Parser.importEntry m₁.types.length) bytes entry :=
    htypes₁.symm ▸ hreads entry bytes hmem hentry
  obtain ⟨w, hpush, hw⟩ := FixedVec.exists_push hroom entry
  obtain ⟨b, hpushBinding, hb⟩ := FixedVec.exists_push (hbound ▸ hroom) NativeBinding.unbound
  have hadd : m₁.addImport entry = .ok { m₁ with imports := w } := by
    rw [Module.addImport, hpush]
    rfl
  have haddBinding : Module.addBinding { m₁ with imports := w } .unbound
      = .ok { m₁ with imports := w, bindings := b } := by
    rw [Module.addBinding, hpushBinding]
    rfl
  refine ⟨{ m₁ with imports := w, bindings := b }, builds_get fun _ =>
    builds_reading_last hread ((builds_update hadd).seq (builds_update haddBinding)), hw, ?_,
    htypes₁⟩
  show b.toList = List.replicate w.length .unbound
  rw [hb, hbindings₁, ← FixedVec.length_toList w, hw, List.length_append,
    FixedVec.length_toList, List.length_singleton, List.replicate_succ']

theorem builds_functionSection (h : VectorBy IndexBy m.functions.toList bytes)
    (hempty : m₀.functions.length = 0) (htypes : m₀.types.length = m.types.length)
    (hindices : ∀ index ∈ m.functions.toList, index.toNat < m.types.length) :
    ∃ m', Builds functionSection bytes m₀ m' ∧ m.SameAt m' .function := by
  obtain ⟨hcount, hxs⟩ := h
  refine (builds_fill_id Module.functions (fun m₁ => m₁.types.length = m.types.length)
    (fun index bytes m₁ hmem hindex hroom htypes₁ => ?_) hxs hempty htypes).imp fun m' h =>
      ⟨builds_entries Module.functions hcount hempty h.1, h.2.1⟩
  obtain ⟨hbytes⟩ := hindex
  have hlt : index.toNat < m₁.types.length := htypes₁.symm ▸ hindices index hmem
  obtain ⟨w, hw, hbuilds⟩ := builds_add (fun index m => m.addFunction index)
    (Parser.reads_typeIndex hbytes hlt) (fun functions => { m₁ with functions }) rfl hroom
  exact ⟨{ m₁ with functions := w }, builds_get fun _ => hbuilds, hw, htypes₁⟩

/-- Sections of tables and of elements are empty. -/
theorem builds_tableSection (h : Leb128.Unsigned 32 0 bytes) : Builds tableSection bytes m₀ m₀ := by
  refine builds_reading_last (Parser.reads_uleb32 (n := 0) h) ?_
  exact Builds.unless (by decide) (builds_pure m₀)

theorem builds_memorySection (h : VectorBy SizeLimits.EncodedBy m.memories.toList bytes)
    (hempty : m₀.memories.length = 0)
    (himported : 0 < m₀.importedMemoryCount → m.memories.length = 0)
    (hpages : ∀ limits ∈ m.memories.toList, limits.InPages) :
    ∃ m', Builds memorySection bytes m₀ m' ∧ m.SameAt m' .memory := by
  obtain ⟨hcount, hxs⟩ := h
  obtain ⟨m', hbuilds, hm', -⟩ := builds_fill_id Module.memories (fun _ => True)
    (fun limits bytes m₁ hmem hlimits hroom _ => by
      obtain ⟨w, hw, hbuilds⟩ := builds_add (fun limits m => m.addMemory limits)
        (Parser.reads_memoryLimits hlimits (hpages limits hmem))
        (fun memories => { m₁ with memories }) rfl hroom
      exact ⟨{ m₁ with memories := w }, hbuilds, hw, trivial⟩) hxs hempty trivial
  have hone : ¬ (0 < m.memories.toList.length ∧ 0 < m₀.importedMemoryCount) := by
    rintro ⟨hdefined, h⟩
    rw [FixedVec.length_toList, himported h] at hdefined
    omega
  exact ⟨m', builds_get fun _ =>
    builds_reading (Parser.reads_count hcount (length_le_free hempty)) (.unless hone hbuilds), hm'⟩

theorem builds_globalSection (h : VectorBy Global.EncodedBy m.globals.toList bytes)
    (hempty : m₀.globals.length = 0) (htyped : ∀ entry ∈ m.globals.toList, entry.Typed) :
    ∃ m', Builds globalSection bytes m₀ m' ∧ m.SameAt m' .global := by
  obtain ⟨hcount, hxs⟩ := h
  obtain ⟨m', hbuilds, hm', -⟩ := builds_fill_id Module.globals (fun _ => True)
    (fun entry bytes m₁ hmem hentry hroom _ => by
      obtain ⟨w, hw, hbuilds⟩ := builds_add (fun entry m => m.addGlobal entry)
        (Parser.reads_globalEntry hentry (htyped entry hmem)) (fun globals => { m₁ with globals })
        rfl hroom
      exact ⟨{ m₁ with globals := w }, hbuilds, hw, trivial⟩) hxs hempty trivial
  exact ⟨m', builds_entries Module.globals hcount hempty hbuilds, hm'⟩

theorem builds_exportSection (h : VectorBy Export.EncodedBy m.exports.toList bytes)
    (hempty : m₀.exports.length = 0)
    (hnames : ∀ entry ∈ m.exports.toList, entry.name.utf8ByteSize ≤ maxNameLength) :
    ∃ m', Builds exportSection bytes m₀ m' ∧ m.SameAt m' .exports := by
  obtain ⟨hcount, hxs⟩ := h
  obtain ⟨m', hbuilds, hm', -⟩ := builds_fill_id Module.exports (fun _ => True)
    (fun entry bytes m₁ hmem hentry hroom _ => by
      obtain ⟨w, hw, hbuilds⟩ := builds_add (fun entry m => m.addExport entry)
        (Parser.reads_exportEntry hentry (hnames entry hmem)) (fun exports => { m₁ with exports })
        rfl hroom
      exact ⟨{ m₁ with exports := w }, hbuilds, hw, trivial⟩) hxs hempty trivial
  exact ⟨m', builds_entries Module.exports hcount hempty hbuilds, hm'⟩

theorem builds_startSection {index : UInt32} (h : Leb128.Unsigned 32 index.toNat bytes)
    (hstart : m.start = some index) :
    ∃ m', Builds startSection bytes m₀ m' ∧ m.SameAt m' .start := by
  refine ⟨{ m₀ with start := some index }, ?_, hstart.symm⟩
  exact builds_reading_last (Parser.reads_uleb32 h)
    (builds_modify fun m => { m with start := some index })

theorem builds_dataCountSection {count : UInt32} (h : Leb128.Unsigned 32 count.toNat bytes)
    (hcount : m.dataCount = some count) :
    ∃ m', Builds dataCountSection bytes m₀ m' ∧ m.SameAt m' .dataCount := by
  refine ⟨{ m₀ with dataCount := some count }, ?_, hcount.symm⟩
  exact builds_reading_last (Parser.reads_uleb32 h)
    (builds_modify fun m => { m with dataCount := some count })

theorem builds_dataSection (h : VectorBy DataSegment.EncodedBy m.data.toList bytes)
    (hempty : m₀.data.length = 0)
    (hannounced : ∀ count, m₀.dataCount = some count → count.toNat = m.data.length) :
    ∃ m', Builds dataSection bytes m₀ m' ∧ m.SameAt m' .data := by
  obtain ⟨hcount, hxs⟩ := h
  obtain ⟨m', hbuilds, hm', -⟩ := builds_fill_id Module.data (fun _ => True)
    (fun segment bytes m₁ _ hsegment hroom _ => by
      obtain ⟨w, hw, hbuilds⟩ := builds_add (fun segment m => m.addData segment)
        (Parser.reads_dataSegment hsegment) (fun data => { m₁ with data }) rfl hroom
      exact ⟨{ m₁ with data := w }, hbuilds, hw, trivial⟩) hxs hempty trivial
  have hagrees : ¬ (m₀.dataCount.any fun expected =>
      decide (expected.toNat ≠ m.data.toList.length)) = true := by
    cases hdataCount : m₀.dataCount with
    | none => simp
    | some count => simpa using hannounced count hdataCount
  exact ⟨m', builds_get fun _ =>
    builds_reading (Parser.reads_count hcount (length_le_free hempty)) (.unless hagrees hbuilds),
    hm'⟩

end Definitions

end Draft

/-! ### Bodies -/

/-- The number of instructions of all bodies together. -/
def Code.extent : List Code → Nat
  | [] => 0
  | code :: codes => code.length.toNat + extent codes

section Tilings

variable {pool : List Instruction} {start : Nat}

/-- A body starts where the ones before it end. -/
theorem Tiles.start_eq {done todo : List Code} {code : Code}
    (h : Tiles pool start (done ++ code :: todo)) :
    code.start.toNat = start + Code.extent done := by
  induction done generalizing start with
  | nil => exact h.1
  | cons first done ih =>
    rw [ih h.2.2.2, Code.extent, Nat.add_assoc]

/-- The bodies end where the table does. -/
theorem Tiles.extent_eq {codes : List Code} (h : Tiles pool start codes) :
    start + Code.extent codes = pool.length := by
  induction codes generalizing start with
  | nil => exact h
  | cons first codes ih =>
    rw [← ih h.2.2.2, Code.extent, Nat.add_assoc]

theorem Code.extent_concat (done : List Code) (code : Code) :
    Code.extent (done ++ [code]) = Code.extent done + code.length.toNat := by
  induction done with
  | nil => exact Nat.add_comm _ _
  | cons first done ih => rw [List.cons_append, Code.extent, Code.extent, ih, Nat.add_assoc]

/-- A body is the stretch of the table behind the instructions before it. -/
theorem Module.take_body {m : Module} {code : Code} {instructions : List Instruction}
    (h : m.body code = .ok instructions) :
    m.instructions.toList.take (code.start.toNat + code.length.toNat)
        = m.instructions.toList.take code.start.toNat ++ instructions ∧
      instructions.length = code.length.toNat ∧
      code.start.toNat + code.length.toNat ≤ m.instructions.length := by
  unfold body at h
  simp only at h
  split at h
  · rename_i hle
    cases h
    rw [FixedVec.toList_slice]
    refine ⟨?_, ?_, hle⟩
    · have hsplit := List.take_append_drop code.start.toNat
        (m.instructions.toList.take (code.start.toNat + code.length.toNat))
      rw [List.take_take, Nat.min_eq_left (Nat.le_add_right _ _)] at hsplit
      exact hsplit.symm
    · rw [List.length_drop, List.length_take, FixedVec.length_toList]
      omega
  · cases h

end Tilings

namespace Draft

open BoundedWasm.Action

/-- A code is read by a reader of its own: its locals, and its body behind those in the table. -/
theorem code_run {code : Code} {instructions : List Instruction} {locals body : List UInt8}
    (hlocals : VectorBy LocalGroup.EncodedBy code.locals.toList locals)
    (hcounts : code.CountsLocals) (hinstructions : EachBy Instruction.EncodedBy instructions body)
    (hbody : IsBody instructions) {m : Module}
    (hroom : m.instructions.length + instructions.length ≤ maxInstructions)
    (hcodes : m.codes.length < maxFunctions)
    (hstart : code.start.toNat = m.instructions.length)
    (hlength : code.length.toNat = instructions.length) :
    ∃ code' r m', Draft.code code.size ⟨.ofBytes (locals ++ body), m⟩ = .ok () ⟨r, m'⟩ ∧
      code'.contents = code.contents ∧ m'.codes.toList = m.codes.toList ++ [code'] ∧
      m'.instructions.toList = m.instructions.toList ++ instructions := by
  obtain ⟨hcount, hgroups⟩ := hlocals
  rename_i count groups
  have hreads : Reads (do Parser.localGroups (← Parser.count maxLocalGroups) 0) (count ++ groups)
      code.locals.toList := by
    refine (Parser.reads_count hcount code.locals.length_toList_le).bind ?_
    refine Parser.reads_localGroups hgroups ?_
    rw [Nat.zero_add, ← hcounts.numLocals_eq]
    exact hcounts.numLocals_le
  obtain ⟨locals, hextend, hlocals⟩ := FixedVec.exists_extend_empty code.locals.length_toList_le
  obtain ⟨pool, hpool, hrun⟩ := Body.expression_body hbody hinstructions
    (0 + (count ++ groups).length) [] m.instructions hroom
  obtain ⟨codes, hpush, hcodes'⟩ := FixedVec.exists_push hcodes
    { locals, numLocals := UInt32.ofNat (LocalGroup.total code.locals.toList),
      start := UInt32.ofNat m.instructions.length, length := UInt32.ofNat instructions.length,
      size := code.size }
  refine ⟨_, ⟨0 + (count ++ groups).length + body.length, []⟩,
    { m with instructions := pool, codes }, ?_, ?_, hcodes', hpool⟩
  · rw [Draft.code, bind_run, Reader.ofBytes, reading_run hreads]
    simp only [hextend]
    rw [bind_run, ofExcept_ok_run]
    simp only
    rw [List.append_nil] at hrun
    rw [bind_run, onBody, onPart, hrun]
    simp only
    show (ofExcept (Module.addCode _ _) >>= fun m => _) _ = _
    rw [Module.addCode, hpush]
    rfl
  · rw [← hcounts.numLocals_eq, ← hstart, ← hlength, Code.contents, hlocals]
    simp [Code.contents]

variable {m m₀ : Module}

theorem builds_codeSection {bytes : List UInt8}
    (h : VectorBy (Code.EncodedBy m) m.codes.toList bytes) (hempty : m₀.codes.length = 0)
    (hpool : m₀.instructions.length = 0) (hfunctions : m.codes.length = m₀.functions.length)
    (hcounts : ∀ code ∈ m.codes.toList, code.CountsLocals)
    (htiles : Tiles m.instructions.toList 0 m.codes.toList)
    (hbodies : ∀ code ∈ m.codes.toList, ∀ instructions, m.body code = .ok instructions →
      IsBody instructions) :
    ∃ m', Builds codeSection bytes m₀ m' ∧ m.SameAt m' .code := by
  obtain ⟨hcount, hxs⟩ := h
  have hall : m.instructions.toList.take (Code.extent m.codes.toList) = m.instructions.toList := by
    rw [← Nat.zero_add (Code.extent _), htiles.extent_eq, List.take_length]
  have hagrees : ¬ m.codes.toList.length ≠ m₀.functions.length := by
    rw [FixedVec.length_toList]
    exact not_not_intro hfunctions
  -- after some of the codes the table of instructions holds what these take up
  refine (builds_fill Module.codes Code.contents
    (fun done m₁ => m₁.instructions.toList = m.instructions.toList.take (Code.extent done))
    (fun done code todo bytes m₁ hsplit hcode hroom hpool₁ => ?_) hxs hempty
    (FixedVec.toList_eq_nil hpool)).imp
      fun m' h => ⟨builds_get fun _ => builds_reading
        (Parser.reads_count hcount (length_le_free hempty)) (.unless hagrees h.1),
        h.2.1, h.2.2.trans hall⟩
  have hmem : code ∈ m.codes.toList := by rw [hsplit]; simp
  obtain ⟨hbody, hsize, hlocals, hinstructions, hlength⟩ := hcode
  rename_i instructions size locals body
  obtain ⟨htake, hcodeLength, hle⟩ := Module.take_body hbody
  have hstart : code.start.toNat = Code.extent done := by
    rw [hsplit] at htiles
    rw [htiles.start_eq, Nat.zero_add]
  have hpoolLength : m₁.instructions.length = code.start.toNat := by
    rw [← FixedVec.length_toList, hpool₁, ← hstart, List.length_take, FixedVec.length_toList]
    omega
  have hcap := m.instructions.length_le
  obtain ⟨code', r, m', hrun, hcode', hcodes', hpool'⟩ := code_run hlocals (hcounts code hmem)
    hinstructions (hbodies code hmem _ hbody) (by omega) hroom hpoolLength.symm hcodeLength.symm
  have hpart : Reads (Parser.sub code.size.toNat) (locals ++ body) (.ofBytes (locals ++ body)) := by
    rw [← hlength]
    exact (Parser.reads_bytes _).map Reader.ofBytes
  refine ⟨code', m', ?_, hcodes', hcode', ?_⟩
  · refine builds_reading (Parser.reads_uleb32 hsize) (builds_reading_last hpart ?_)
    intro position rest
    rw [within, onPart, hrun]
    rfl
  · rw [hpool', hpool₁, Code.extent_concat, ← hstart, htake]

/-! ### Every kind of section -/

/-- What was written for a section fills its tables, if the sections before it have filled theirs
and its own are empty. -/
theorem builds_contents (hm : m.Regular) {id : SectionId} {payload : List UInt8}
    (h : m.PayloadBy id payload) (hdone : ∀ other, other.order < id.order → m.SameAt m₀ other)
    (hempty : Module.empty.SameAt m₀ id) :
    ∃ m', Builds (contents id) payload m₀ m' ∧ m.SameAt m' id := by
  have htypes (hlt : SectionId.type.order < id.order) : m₀.types.length = m.types.length :=
    FixedVec.length_eq_of_map (hdone .type hlt)
  cases h with
  | type h => exact builds_typeSection h (FixedVec.length_eq_of_map hempty)
  | imports h =>
    have hbindings : m₀.bindings.toList = Module.empty.bindings.toList := hempty.2
    refine builds_importSection h (FixedVec.length_eq_of_toList hempty.1)
      (FixedVec.length_eq_of_toList hbindings) (htypes (by decide)) ?_
    intro entry bytes hmem hentry
    obtain ⟨hmodule, hfield⟩ := hm.importNames entry hmem
    exact Parser.reads_importEntry hentry hmodule hfield (hm.wellFormed.imports entry hmem)
      fun limits hlimits max => hm.tables entry hmem limits max hlimits
  | function h =>
    exact builds_functionSection h (FixedVec.length_eq_of_toList hempty) (htypes (by decide))
      hm.wellFormed.functions
  | table h => exact ⟨m₀, builds_tableSection h, trivial⟩
  | memory h =>
    refine builds_memorySection h (FixedVec.length_eq_of_toList hempty) ?_ hm.wellFormed.memories
    rw [Module.importedMemoryCount, Module.countImports, (hdone .imports (by decide)).1]
    exact hm.memories
  | global h =>
    exact builds_globalSection h (FixedVec.length_eq_of_toList hempty) hm.wellFormed.globals
  | exports h =>
    exact builds_exportSection h (FixedVec.length_eq_of_toList hempty) hm.exportNames
  | start hstart h => exact builds_startSection h hstart
  | element h => exact ⟨m₀, builds_tableSection h, trivial⟩
  | dataCount hcount h => exact builds_dataCountSection h hcount
  | code h =>
    refine builds_codeSection h (FixedVec.length_eq_of_map hempty.1)
      (FixedVec.length_eq_of_toList hempty.2) ?_ hm.wellFormed.codes hm.wellFormed.bodies hm.bodies
    rw [FixedVec.length_eq_of_toList (hdone .function (by decide))]
    exact hm.wellFormed.codes_length
  | data h =>
    refine builds_dataSection h (FixedVec.length_eq_of_toList hempty) fun count hcount => ?_
    rw [show m₀.dataCount = m.dataCount from hdone .dataCount (by decide)] at hcount
    exact hm.wellFormed.dataCount_eq count hcount

end Draft

end BoundedWasm
