import BoundedWasm.Proofs.Decode.Overflow
import BoundedWasm.Proofs.Decode.Tables
import BoundedWasm.Proofs.Module.Slots

/-!
# BoundedWasm.Proofs.Decode.Appending — sections append, and look for room before they do

Eight kinds of sections are vectors of entries for a table of the module; `Draft.entry` reads one
entry and puts it there, and `contents_counts` says that a section is its number of entries, which
has to fit in the table, and then so many of them.  One entry appends to the tables of its kind
(`entry_adds`), and so does a whole section, whatever its end (`Module.Appends`).  When the number
fits, no entry is refused by the table that it goes to: what may be too large then is something
inside an entry (`Overflow`).
-/

namespace BoundedWasm

open BoundedWasm.Action Limits

namespace Module

/-- How many more entries of sections of the kind fit, for the kinds that have a table. -/
def room? (m : Module) : SectionId → Option Nat
  | .type => some m.types.free
  | .imports => some m.imports.free
  | .function => some m.functions.free
  | .memory => some m.memories.free
  | .global => some m.globals.free
  | .exports => some m.exports.free
  | .code => some m.codes.free
  | .data => some m.data.free
  | .custom | .table | .start | .element | .dataCount => none

/-- No table has lost or changed anything, those that do not belong to the kind are as they were,
and imports and bindings have grown together. -/
structure Appends (id : SectionId) (m m' : Module) : Prop where
  untouched : m'.without id = m.without id
  types : m.types.toList <+: m'.types.toList
  imports : m.imports.toList <+: m'.imports.toList
  functions : m.functions.toList <+: m'.functions.toList
  memories : m.memories.toList <+: m'.memories.toList
  globals : m.globals.toList <+: m'.globals.toList
  exports : m.exports.toList <+: m'.exports.toList
  codes : m.codes.toList <+: m'.codes.toList
  data : m.data.toList <+: m'.data.toList
  instructions : m.instructions.toList <+: m'.instructions.toList
  bindings : m.bindings.toList <+: m'.bindings.toList
  paired : m'.imports.length + m.bindings.length = m.imports.length + m'.bindings.length

variable {id : SectionId} {m m₁ m' : Module}

theorem Appends.refl (id : SectionId) (m : Module) : m.Appends id m where
  untouched := rfl
  types := List.prefix_refl _
  imports := List.prefix_refl _
  functions := List.prefix_refl _
  memories := List.prefix_refl _
  globals := List.prefix_refl _
  exports := List.prefix_refl _
  codes := List.prefix_refl _
  data := List.prefix_refl _
  instructions := List.prefix_refl _
  bindings := List.prefix_refl _
  paired := rfl

theorem Appends.trans (h : m.Appends id m₁) (h' : m₁.Appends id m') : m.Appends id m' where
  untouched := h'.untouched.trans h.untouched
  types := h.types.trans h'.types
  imports := h.imports.trans h'.imports
  functions := h.functions.trans h'.functions
  memories := h.memories.trans h'.memories
  globals := h.globals.trans h'.globals
  exports := h.exports.trans h'.exports
  codes := h.codes.trans h'.codes
  data := h.data.trans h'.data
  instructions := h.instructions.trans h'.instructions
  bindings := h.bindings.trans h'.bindings
  paired := by
    have := h.paired
    have := h'.paired
    omega

/-- There are no more bindings than imports. -/
def Paired (m : Module) : Prop := m.bindings.length ≤ m.imports.length

theorem Appends.keepsPaired (h : m.Appends id m') (hm : m.Paired) : m'.Paired := by
  have := h.paired
  unfold Paired at *
  omega

end Module

/-! ### Vectors with room -/

namespace FixedVec

variable {α : Type} [Inhabited α] {cap : Nat}

/-- A vector takes an element exactly when it has room for one. -/
theorem push_cases (v : FixedVec α cap) (x : α) :
    (∃ w, v.push x = .ok w ∧ v.toList <+: w.toList ∧ w.length = v.length + 1 ∧
      v.free = w.free + 1) ∨ (v.push x = .error .tableFull ∧ v.free = 0) := by
  unfold push
  by_cases h : v.length < cap
  · have hlength : (v.put x).length = v.length + 1 := by rw [length_put, if_pos h]
    refine .inl ⟨v.put x, if_pos h, ?_, hlength, ?_⟩
    · rw [toList_put_of_lt h]
      exact List.prefix_append _ _
    · rw [free, free, hlength]
      omega
  · refine .inr ⟨if_neg h, ?_⟩
    rw [free]
    omega

end FixedVec

/-! ### What is too large inside an entry -/

/-- Why the body of a function with the bytes at `part` does not fit, when its instructions were put
behind `pool` and this made it `pool'`: it has too many groups of locals, one of them goes beyond
the number of locals that a function may have, or its instructions overflow. -/
inductive Code.Overflow (part : Reader) (pool pool' : FixedVec Instruction maxInstructions) :
    Fault → Prop
  | groups {n : UInt32} {r : Reader} (hcount : Parser.uleb32 part = .ok n r)
    (h : maxLocalGroups < n.toNat) : Overflow part pool pool' .vectorTooLong
  | locals {n number : UInt32} {r r₁ r₂ : Reader} {k : Nat} {groups : List LocalGroup}
    (hcount : Parser.uleb32 part = .ok n r) (hk : k < n.toNat)
    (hgroups : Parser.localGroups k 0 r = .ok groups r₁)
    (hnumber : Parser.uleb32 r₁ = .ok number r₂)
    (h : maxLocalsPerFunction < LocalGroup.total groups + number.toNat) :
    Overflow part pool pool' .tooManyLocals
  | instructions {n : UInt32} {r r₁ r₂ : Reader} {groups : List LocalGroup} {fault : Fault}
    (hcount : Parser.uleb32 part = .ok n r)
    (hgroups : Parser.localGroups n.toNat 0 r = .ok groups r₁)
    (hbody : Body.expression ⟨r₁, pool⟩ = .error fault ⟨r₂, pool'⟩)
    (h : Body.Overflows pool.toList fault (⟨r₂, pool'⟩ : Body maxInstructions)) :
    Overflow part pool pool' fault

namespace Draft

/-- Why an entry that begins where `d` stands does not fit, when reading it stops at `d'`: the type
of a function has too many parameters, or it is the body of a function. -/
inductive Overflow (d d' : Draft) : SectionId → Fault → Prop
  | params {tag : UInt8} {tagged : Reader} {n : UInt32}
    (htag : Parser.byte d.reader = .ok tag tagged)
    (hcount : Parser.uleb32 tagged = .ok n d'.reader) (h : maxParams < n.toNat) :
    Overflow d d' .type .vectorTooLong
  | body {size : UInt32} {sized part : Reader} {fault : Fault}
    (hsize : Parser.uleb32 d.reader = .ok size sized)
    (hpart : Parser.sub size.toNat sized = .ok part d'.reader)
    (h : Code.Overflow part d.module.instructions d'.module.instructions fault) :
    Overflow d d' .code fault

variable {id : SectionId} {d : Draft} {cause : Fault → Draft → Prop}

/-! ### Adding one entry -/

/-- From `d`, the action puts one entry into the table of the kind, or fails with nothing there but
perhaps what comes before the entry is put; if the table has room, its faults of capacity have a
`cause`. -/
def AddsOne (id : SectionId) (cause : Fault → Draft → Prop) (action : Action Draft Unit)
    (d : Draft) : Prop :=
  action.Ends d
    (fun _ d' => d.module.Appends id d'.module ∧
      ∀ room, d.module.room? id = some (room + 1) → d'.module.room? id = some room)
    (fun fault d' => d.module.Appends id d'.module ∧
      ∀ room, d.module.room? id = some (room + 1) → d'.module.room? id = some (room + 1) ∧
        (fault.category = .capacity → cause fault d'))

theorem AddsOne.throw {fault : Fault} (h : fault.category = .capacity → cause fault d) :
    AddsOne id cause (throw fault) d :=
  ⟨.refl _ _, fun _ hroom => ⟨hroom, h⟩⟩

theorem AddsOne.get {next : Draft → Action Draft Unit} (h : AddsOne id cause (next d) d) :
    AddsOne id cause (MonadState.get >>= next) d := by
  unfold AddsOne
  rw [ends_bind, ends_get]
  exact h

theorem AddsOne.reading {α : Type} {p : Parser α} {next : α → Action Draft Unit}
    (hp : p.Ends d.reader (fun a r => AddsOne id cause (next a) { d with reader := r })
      (fun fault r => fault.category = .capacity → cause fault { d with reader := r })) :
    AddsOne id cause (reading p >>= next) d := by
  unfold AddsOne
  rw [ends_bind]
  unfold Draft.reading
  rw [ends_onPart]
  exact hp.mono (fun _ _ h => h) (fun _ _ h => ⟨.refl _ _, fun _ hroom => ⟨hroom, h⟩⟩)

theorem AddsOne.causes {cause' : Fault → Draft → Prop} {action : Action Draft Unit}
    (h : AddsOne id cause action d) (hcause : ∀ fault d', cause fault d' → cause' fault d') :
    AddsOne id cause' action d :=
  h.mono (fun _ _ h => h) fun _ _ h => ⟨h.1, fun room hroom =>
    ⟨(h.2 room hroom).1, fun hcapacity => hcause _ _ ((h.2 room hroom).2 hcapacity)⟩⟩

theorem AddsOne.within {part : Reader} {action : Action Draft Unit}
    (h : AddsOne id (fun fault d' => cause fault { d' with reader := d.reader }) action
      { d with reader := part }) : AddsOne id cause (Draft.within part action) d := by
  unfold AddsOne Draft.within
  rw [ends_onPart]
  exact h

/-- What is read fits. -/
theorem AddsOne.reading_fits {α : Type} {p : Parser α} (hp : p.Fits)
    {next : α → Action Draft Unit}
    (hnext : ∀ a r, AddsOne id cause (next a) { d with reader := r }) :
    AddsOne id cause (Draft.reading p >>= next) d :=
  .reading <| (hp d.reader).mono (fun a r _ => hnext a r)
    (fun _ _ hne hcapacity => absurd hcapacity hne)

theorem ends_update_ok {f : Module → Except Fault Module} {m : Module} (h : f d.module = .ok m)
    {Q : Unit → Draft → Prop} {E : Fault → Draft → Prop} (hQ : Q () { d with module := m }) :
    (update f).Ends d Q E := by
  unfold update
  rw [ends_bind, ends_get, ends_bind, h]
  exact hQ

theorem ends_update_error {f : Module → Except Fault Module} {fault : Fault}
    (h : f d.module = .error fault) {Q : Unit → Draft → Prop} {E : Fault → Draft → Prop}
    (hE : E fault d) : (update f).Ends d Q E := by
  unfold update
  rw [ends_bind, ends_get, ends_bind, h]
  exact hE

/-- The table at one place of a module takes an entry. -/
theorem addsOne_update {α : Type} [Inhabited α] {cap : Nat} {v : FixedVec α cap} {x : α}
    {f : Module → Except Fault Module} (place : FixedVec α cap → Module)
    (hf : f d.module = do return place (← v.push x)) (hd : d.module.room? id = some v.free)
    (hplace : ∀ w, v.toList <+: w.toList → d.module.Appends id (place w))
    (hroom : ∀ w, (place w).room? id = some w.free) :
    AddsOne id cause (update f) d := by
  rcases v.push_cases x with ⟨w, hpush, hw, -, hfree⟩ | ⟨hpush, hfree⟩
  · refine ends_update_ok (hf.trans (by rw [hpush]; rfl)) ⟨hplace w hw, fun room h => ?_⟩
    rw [hd, hfree] at h
    rw [hroom, Nat.succ_inj.mp (Option.some_inj.mp h)]
  · refine ends_update_error (hf.trans (by rw [hpush]; rfl)) ⟨.refl _ _, fun room h => ?_⟩
    rw [hd, hfree] at h
    cases h

/-! ### The eight kinds of entries -/

/-- Reading one entry of a section of the kind, and putting it into its table. -/
def entry : SectionId → Action Draft Unit
  | .type => do
    let type ← reading Parser.functionType
    update fun m => m.addType type
  | .imports => do
    let entry ← reading (Parser.importEntry (← get).module.types.length)
    update fun m => m.addImport entry
    update fun m => m.addBinding .unbound
  | .function => do
    let index ← reading (Parser.typeIndex (← get).module.types.length)
    update fun m => m.addFunction index
  | .memory => do
    let limits ← reading Parser.memoryLimits
    update fun m => m.addMemory limits
  | .global => do
    let entry ← reading Parser.globalEntry
    update fun m => m.addGlobal entry
  | .exports => do
    let entry ← reading Parser.exportEntry
    update fun m => m.addExport entry
  | .code => do
    let size ← reading Parser.uleb32
    let part ← reading (Parser.sub size.toNat)
    within part (code size)
  | .data => do
    let segment ← reading Parser.dataSegment
    update fun m => m.addData segment
  | .custom | .table | .start | .element | .dataCount => pure ()

/-- Why a number of entries is refused that would fit. -/
def refusal? (m : Module) (count : Nat) : SectionId → Option Fault
  | .memory => if 0 < count ∧ 0 < m.importedMemoryCount then some .multipleMemories else none
  | .code => if count ≠ m.functions.length then some .functionCodeMismatch else none
  | .data =>
    if m.dataCount.any fun expected => expected.toNat ≠ count then some .dataCountMismatch else none
  | _ => none

/-- A section of the kind behind its number of entries. -/
def entriesOf (id : SectionId) (m : Module) (count : Nat) : Action Draft Unit :=
  match refusal? m count id with
  | some fault => throw fault
  | none => times (entry id) count

/-- Two ways to go on after a count that may be refused. -/
theorem guarded_eq {c : Prop} [Decidable c] {fault : Fault} {action : Action Draft Unit} :
    (if c then (throw fault : Action Draft Unit) >>= fun _ => action else action)
      = match (if c then some fault else none) with
        | some found => throw found
        | none => action := by
  split <;> rfl

/-- A section that adds entries is their number, which has to fit in the table, and then each of
them. -/
theorem contents_counts {room : Nat} (h : d.module.room? id = some room) :
    contents id d = (reading (Parser.count room) >>= entriesOf id d.module) d := by
  have hcongr {next next' : Nat → Action Draft Unit} (hnext : ∀ count, next count = next' count) :
      (reading (Parser.count room) >>= next) d = (reading (Parser.count room) >>= next') d := by
    rw [funext hnext]
  cases id with
  | type | imports | function | global | exports =>
    cases h
    rfl
  | memory | code | data =>
    cases h
    exact hcongr fun _ => guarded_eq
  | custom | table | start | element | dataCount => cases h

/-! ### Each kind of entry adds one -/

/-- An import and its binding are put together: where there is room for the one, there is room for
the other. -/
theorem importEntry_adds (d : Draft) (hpaired : d.module.Paired) (entry : Import) :
    AddsOne .imports cause
      (do
        update fun m => m.addImport entry
        update fun m => m.addBinding .unbound) d := by
  have hbindings : d.module.imports.free ≤ d.module.bindings.free := by
    unfold Module.Paired at hpaired
    rw [FixedVec.free, FixedVec.free]
    omega
  unfold AddsOne
  rw [ends_bind]
  rcases d.module.imports.push_cases entry with ⟨w, hpush, hw, hlength, hfree⟩ | ⟨hpush, hfree⟩
  · rcases d.module.bindings.push_cases .unbound with
      ⟨u, hpush', hu, hlength', -⟩ | ⟨-, hfree'⟩
    · refine ends_update_ok (m := { d.module with imports := w })
        (by rw [Module.addImport, hpush]; rfl) ?_
      refine ends_update_ok (m := { d.module with imports := w, bindings := u })
        (by rw [Module.addBinding, hpush']; rfl) ⟨?_, fun room h => ?_⟩
      · refine { Module.Appends.refl .imports d.module with
          untouched := rfl, imports := hw, bindings := hu, paired := ?_ }
        show w.length + d.module.bindings.length = d.module.imports.length + u.length
        omega
      · show some w.free = some room
        rw [Module.room?, hfree] at h
        rw [Nat.succ_inj.mp (Option.some_inj.mp h)]
    · omega
  · refine ends_update_error (by rw [Module.addImport, hpush]; rfl) ⟨.refl _ _, fun room h => ?_⟩
    rw [Module.room?, hfree] at h
    cases h

theorem groups_overflow (part : Reader) (pool pool' : FixedVec Instruction maxInstructions) :
    (do Parser.localGroups (← Parser.count maxLocalGroups) 0 : Parser _).Ends part
      (fun groups r' => groups.length ≤ maxLocalGroups ∧ ∃ n r, Parser.uleb32 part = .ok n r ∧
        Parser.localGroups n.toNat 0 r = .ok groups r')
      (fun fault _ => fault.category = .capacity → Code.Overflow part pool pool' fault) := by
  rw [ends_bind]
  refine (Parser.count_ends _ _).mono (fun count r hcount => ?_) (fun fault r h hcapacity => ?_)
  · obtain ⟨hle, n, hn, rfl⟩ := hcount
    refine ends_of (fun groups r' hrun => ⟨?_, n, r, hn, hrun⟩) (fun fault r' hrun hcapacity => ?_)
    · rw [(Parser.localGroups_length _ _ _).of_ok hrun]
      exact hle
    · obtain ⟨rfl, k, hk, groups, r₁, number, r₂, hgroups, hnumber, hlt⟩ :=
        (Parser.localGroups_overflows _ _ _).of_error hrun hcapacity
      rw [Nat.zero_add] at hlt
      exact .locals hn hk hgroups hnumber hlt
  · obtain ⟨rfl, n, hn, hlt⟩ := h hcapacity
    exact .groups hn hlt

/-- A body is put behind the instructions, before its code is put into its own table. -/
theorem AddsOne.onBody {α : Type} {action : Action (Body maxInstructions) α}
    {next : α → Action Draft Unit}
    (h : action.Ends ⟨d.reader, d.module.instructions⟩
      (fun a b => d.module.instructions.toList <+: b.pool.toList ∧
        AddsOne .code cause (next a) ⟨b.reader, { d.module with instructions := b.pool }⟩)
      (fun fault b => d.module.instructions.toList <+: b.pool.toList ∧
        (fault.category = .capacity →
          cause fault ⟨b.reader, { d.module with instructions := b.pool }⟩))) :
    AddsOne .code cause (Draft.onBody action >>= next) d := by
  have happends {b : Body maxInstructions}
      (hkept : d.module.instructions.toList <+: b.pool.toList) :
      d.module.Appends .code { d.module with instructions := b.pool } :=
    { Module.Appends.refl .code d.module with untouched := rfl, instructions := hkept }
  unfold AddsOne
  rw [ends_bind]
  unfold Draft.onBody
  rw [ends_onPart]
  refine h.mono (fun a b hb => ?_) (fun fault b hb => ?_)
  · obtain ⟨hkept, hnext⟩ := hb
    exact hnext.mono (fun _ _ h => ⟨(happends hkept).trans h.1, h.2⟩)
      (fun _ _ h => ⟨(happends hkept).trans h.1, h.2⟩)
  · exact ⟨happends hb.1, fun room hroom => ⟨hroom, hb.2⟩⟩

theorem addCode_adds (code : Code) : AddsOne .code cause (update fun m => m.addCode code) d :=
  addsOne_update (fun codes => { d.module with codes }) rfl rfl
    (fun _ hw => { Module.Appends.refl .code d.module with untouched := rfl, codes := hw })
    fun _ => rfl

theorem code_adds (size : UInt32) (d : Draft) :
    AddsOne .code
      (fun fault d' => Code.Overflow d.reader d.module.instructions d'.module.instructions fault)
      (code size) d := by
  refine .reading ((groups_overflow _ d.module.instructions d.module.instructions).mono
    (fun groups r hgroups => ?_) fun _ _ h => h)
  obtain ⟨hle, n, r₁, hcount, hgroups⟩ := hgroups
  obtain ⟨locals, hlocals, -⟩ := FixedVec.exists_extend_empty hle
  rw [hlocals]
  show AddsOne .code _ (onBody Body.expression >>= fun span => _) _
  refine .onBody (ends_of (fun span b hrun => ⟨?_, ?_⟩)
    fun fault b hrun => ⟨?_, fun hcapacity => ?_⟩)
  · exact ((Body.expression_ends _).of_ok hrun).1.isPrefix
  · show AddsOne .code _ (if _ then _ else _) _
    split
    · exact .throw fun hcapacity => absurd hcapacity (by decide)
    · exact addCode_adds _
  · exact (Body.expression_ends _).of_error hrun
  · exact .instructions hcount hgroups hrun ((Body.expression_overflows _).of_error hrun hcapacity)

/-- Reading one entry and putting it into its table, for each kind. -/
theorem entry_adds (id : SectionId) (d : Draft) (hpaired : d.module.Paired) :
    AddsOne id (fun fault d' => Overflow d d' id fault) (entry id) d := by
  cases id with
  | type =>
    refine .reading ((Parser.functionType_overflows _).mono (fun type r _ => ?_)
      fun fault r h hcapacity => ?_)
    · exact addsOne_update (fun types => { d.module with types }) rfl rfl
        (fun _ hw => { Module.Appends.refl .type d.module with untouched := rfl, types := hw })
        fun _ => rfl
    · obtain ⟨rfl, tag, tagged, n, htag, hcount, hlt⟩ := h hcapacity
      exact .params htag hcount hlt
  | imports =>
    exact .get <| .reading_fits (Parser.fits_importEntry _) fun entry r =>
      importEntry_adds { d with reader := r } hpaired entry
  | function =>
    exact .get <| .reading_fits (Parser.fits_typeIndex _) fun index r =>
      addsOne_update (fun functions => { d.module with functions }) rfl rfl
        (fun _ hw => { Module.Appends.refl .function d.module with
          untouched := rfl, functions := hw }) fun _ => rfl
  | memory =>
    exact .reading_fits Parser.fits_memoryLimits fun limits r =>
      addsOne_update (fun memories => { d.module with memories }) rfl rfl
        (fun _ hw => { Module.Appends.refl .memory d.module with
          untouched := rfl, memories := hw }) fun _ => rfl
  | global =>
    exact .reading_fits Parser.fits_globalEntry fun entry r =>
      addsOne_update (fun globals => { d.module with globals }) rfl rfl
        (fun _ hw => { Module.Appends.refl .global d.module with
          untouched := rfl, globals := hw }) fun _ => rfl
  | exports =>
    exact .reading_fits Parser.fits_exportEntry fun entry r =>
      addsOne_update (fun exports => { d.module with exports }) rfl rfl
        (fun _ hw => { Module.Appends.refl .exports d.module with
          untouched := rfl, exports := hw }) fun _ => rfl
  | data =>
    exact .reading_fits Parser.fits_dataSegment fun segment r =>
      addsOne_update (fun data => { d.module with data }) rfl rfl
        (fun _ hw => { Module.Appends.refl .data d.module with untouched := rfl, data := hw })
        fun _ => rfl
  | code =>
    refine .reading (ends_of (fun size sized hsize => ?_)
      fun fault r hrun hcapacity => absurd hcapacity ((Parser.fits_uleb32 _).of_error hrun))
    refine .reading (ends_of (fun part r hpart => ?_)
      fun fault r hrun hcapacity => absurd hcapacity ((Parser.fits_sub _ _).of_error hrun))
    exact .within ((code_adds size ⟨part, d.module⟩).causes fun _ _ h => .body hsize hpart h)
  | custom | table | start | element | dataCount =>
    exact ⟨.refl _ _, fun _ h => by cases h⟩

/-! ### Whole sections -/

/-- Of `count` entries from `d` on, all before the `k`-th were read; that one does not fit, while
its table still has room for the rest. -/
def StopsAt (id : SectionId) (d d' : Draft) (fault : Fault) (room count : Nat) : Prop :=
  ∃ k e, k < count ∧ times (entry id) k d = .ok () e ∧ d'.module.room? id = some (room - k) ∧
    Overflow e d' id fault

/-- From `d`, the action puts `count` entries into the table of the kind, or some of them and then
fails; if the table has room for them all, a fault of capacity comes from inside an entry. -/
def AddsMany (id : SectionId) (count : Nat) (action : Action Draft Unit) (d : Draft) : Prop :=
  action.Ends d
    (fun _ d' => d.module.Appends id d'.module ∧
      ∀ room, d.module.room? id = some room → count ≤ room →
        d'.module.room? id = some (room - count))
    (fun fault d' => d.module.Appends id d'.module ∧
      ∀ room, d.module.room? id = some room → count ≤ room → fault.category = .capacity →
        StopsAt id d d' fault room count)

theorem times_adds (id : SectionId) (count : Nat) (d : Draft) (hpaired : d.module.Paired) :
    AddsMany id count (times (entry id) count) d := by
  induction count generalizing d with
  | zero => exact ⟨.refl _ _, fun _ hroom _ => hroom⟩
  | succ count ih =>
    show AddsMany id (count + 1) (entry id >>= fun _ => times (entry id) count) d
    unfold AddsMany
    rw [ends_bind]
    refine ends_of (fun _ d₁ hfirst => ?_) (fun fault d' hrun => ?_)
    · obtain ⟨happends, hone⟩ := (entry_adds id d hpaired).of_ok hfirst
      refine (ih d₁ (happends.keepsPaired hpaired)).mono (fun _ d' h => ?_) (fun fault d' h => ?_)
      · refine ⟨happends.trans h.1, fun room hroom hle => ?_⟩
        obtain ⟨room, rfl⟩ := Nat.exists_eq_add_of_le' (Nat.one_le_of_lt hle)
        rw [Nat.succ_sub_succ]
        exact h.2 room (hone room hroom) (Nat.le_of_succ_le_succ hle)
      · refine ⟨happends.trans h.1, fun room hroom hle hcapacity => ?_⟩
        obtain ⟨room, rfl⟩ := Nat.exists_eq_add_of_le' (Nat.one_le_of_lt hle)
        obtain ⟨k, e, hk, hrun, hroom', hoverflow⟩ :=
          h.2 room (hone room hroom) (Nat.le_of_succ_le_succ hle) hcapacity
        refine ⟨k + 1, e, Nat.succ_lt_succ hk, ?_, by rw [Nat.succ_sub_succ, hroom'], hoverflow⟩
        show (entry id >>= fun _ => times (entry id) k) d = _
        rw [bind_run, hfirst]
        exact hrun
    · obtain ⟨happends, hone⟩ := (entry_adds id d hpaired).of_error hrun
      refine ⟨happends, fun room hroom hle hcapacity => ?_⟩
      obtain ⟨room, rfl⟩ := Nat.exists_eq_add_of_le' (Nat.one_le_of_lt hle)
      obtain ⟨hleft, hcause⟩ := hone room hroom
      exact ⟨0, d, Nat.succ_pos _, rfl, hleft, hcause hcapacity⟩

theorem refusal?_category {m : Module} {count : Nat} {fault : Fault}
    (h : refusal? m count id = some fault) : fault.category ≠ .capacity := by
  unfold refusal? at h
  split at h <;> first
    | (split at h <;> cases h; decide)
    | cases h

theorem entriesOf_adds (id : SectionId) (count : Nat) (d : Draft) (m : Module)
    (hpaired : d.module.Paired) : AddsMany id count (entriesOf id m count) d := by
  unfold entriesOf
  split
  · rename_i fault hrefused
    exact ⟨.refl _ _, fun _ _ _ hcapacity => absurd hcapacity (refusal?_category hrefused)⟩
  · exact times_adds id count d hpaired

/-- A section of entries, with room for `room` more of them. -/
theorem vector_ends {room : Nat} (hroom : d.module.room? id = some room)
    (hpaired : d.module.Paired) :
    (contents id).Ends d
      (fun _ d' => d.module.Appends id d'.module ∧ ∃ n r, Parser.uleb32 d.reader = .ok n r ∧
        n.toNat ≤ room ∧ d'.module.room? id = some (room - n.toNat))
      (fun fault d' => d.module.Appends id d'.module ∧ (fault.category = .capacity →
        ∃ n r, Parser.uleb32 d.reader = .ok n r ∧
          (n.toNat ≤ room → StopsAt id ⟨r, d.module⟩ d' fault room n.toNat))) := by
  unfold Ends
  rw [contents_counts hroom]
  change (reading (Parser.count room) >>= entriesOf id d.module).Ends d _ _
  rw [ends_bind]
  unfold reading
  rw [ends_onPart]
  refine (Parser.count_ends room d.reader).mono (fun count r hcount => ?_)
    (fun fault r h => ⟨.refl _ _, fun hcapacity => ?_⟩)
  · obtain ⟨hle, n, hn, rfl⟩ := hcount
    refine (entriesOf_adds id n.toNat ⟨r, d.module⟩ d.module hpaired).mono (fun _ d' h => ?_)
      (fun fault d' h => ?_)
    · exact ⟨h.1, n, r, hn, hle, h.2 room hroom hle⟩
    · exact ⟨h.1, fun hcapacity => ⟨n, r, hn, fun _ => h.2 room hroom hle hcapacity⟩⟩
  · obtain ⟨rfl, n, hn, hlt⟩ := h hcapacity
    exact ⟨n, r, hn, fun hle => by omega⟩

/-- The kinds without entries. -/
theorem single_ends (hroom : d.module.room? id = none) :
    (contents id).Ends d (fun _ d' => d.module.Appends id d'.module)
      (fun fault d' => d.module.Appends id d'.module ∧ fault.category ≠ .capacity) := by
  have hreading {next : UInt32 → Action Draft Unit}
      (hnext : ∀ n r, (next n).Ends ⟨r, d.module⟩ (fun _ d' => d.module.Appends id d'.module)
        (fun fault d' => d.module.Appends id d'.module ∧ fault.category ≠ .capacity)) :
      (reading Parser.uleb32 >>= next).Ends d (fun _ d' => d.module.Appends id d'.module)
        (fun fault d' => d.module.Appends id d'.module ∧ fault.category ≠ .capacity) := by
    rw [ends_bind]
    unfold reading
    rw [ends_onPart]
    exact (Parser.fits_uleb32 d.reader).mono (fun n r _ => hnext n r)
      (fun _ _ hne => ⟨.refl _ _, hne⟩)
  cases id with
  | custom => exact .refl _ _
  | start => exact hreading fun n r => { Module.Appends.refl .start d.module with untouched := rfl }
  | dataCount =>
    exact hreading fun n r => { Module.Appends.refl .dataCount d.module with untouched := rfl }
  | table | element =>
    refine hreading fun n r => ?_
    split
    · exact ⟨.refl _ _, by decide⟩
    · exact .refl _ _
  | type | imports | function | memory | global | exports | code | data => cases hroom

/-- How a section of the kind is read into the module of a draft.  Nothing is lost, whatever the
outcome.  A number of entries for which the table has no room is refused before anything is put into
it; otherwise that many are put there, or a fault stops it, and if this is one of capacity it comes
from inside an entry while the table has room for this one and all that follow. -/
structure AppendsInRoom (id : SectionId) (d : Draft) : Prop where
  appends : d.module.Appends id ((contents id).after d).module
  oversized : ∀ {room n r}, d.module.room? id = some room → Parser.uleb32 d.reader = .ok n r →
    room < n.toNat → contents id d = .error .vectorTooLong ⟨r, d.module⟩ ∧
      Fault.vectorTooLong.category = .capacity ∧ Fault.vectorTooLong.code = 4000
  fills : ∀ {room n r d'}, d.module.room? id = some room → Parser.uleb32 d.reader = .ok n r →
    contents id d = .ok () d' → n.toNat ≤ room ∧ d'.module.room? id = some (room - n.toNat)
  overflows : ∀ {room fault d'}, d.module.room? id = some room → contents id d = .error fault d' →
    fault.category = .capacity → ∃ n r, Parser.uleb32 d.reader = .ok n r ∧
      (n.toNat ≤ room → StopsAt id ⟨r, d.module⟩ d' fault room n.toNat)
  single : ∀ {fault d'}, d.module.room? id = none → contents id d = .error fault d' →
    fault.category ≠ .capacity

theorem contents_oversized {room : Nat} {n : UInt32} {r : Reader}
    (hroom : d.module.room? id = some room) (hn : Parser.uleb32 d.reader = .ok n r)
    (hlt : room < n.toNat) : contents id d = .error .vectorTooLong ⟨r, d.module⟩ := by
  rw [contents_counts hroom, bind_run, reading, onPart, Parser.count_run hn, if_pos hlt]

theorem contents_ends_appends (id : SectionId) (hpaired : d.module.Paired) :
    (contents id).Ends d (fun _ d' => d.module.Appends id d'.module)
      (fun _ d' => d.module.Appends id d'.module) := by
  cases hroom : d.module.room? id with
  | none => exact (single_ends hroom).mono (fun _ _ h => h) (fun _ _ h => h.1)
  | some room => exact (vector_ends hroom hpaired).mono (fun _ _ h => h.1) (fun _ _ h => h.1)

/-- Sections only append to their own tables, and have looked for room there before they do. -/
theorem contents_appends_in_room (id : SectionId) {d : Draft} (hpaired : d.module.Paired) :
    AppendsInRoom id d where
  appends := by
    unfold Action.after
    cases hrun : contents id d with
    | ok _ d' => exact (contents_ends_appends id hpaired).of_ok hrun
    | error fault d' => exact (contents_ends_appends id hpaired).of_error hrun
  oversized hroom hn hlt := ⟨contents_oversized hroom hn hlt, rfl, rfl⟩
  fills hroom hn hrun := by
    obtain ⟨-, n, r, hn', hle, hroom'⟩ := (vector_ends hroom hpaired).of_ok hrun
    rw [hn] at hn'
    cases hn'
    exact ⟨hle, hroom'⟩
  overflows hroom hrun := ((vector_ends hroom hpaired).of_error hrun).2
  single hroom hrun := ((single_ends hroom).of_error hrun).2

theorem exists_concat_of_prefix {α : Type} {l l' : List α} (h : l <+: l')
    (hlength : l'.length = l.length + 1) : ∃ x, l' = l ++ [x] := by
  obtain ⟨more, rfl⟩ := h
  rw [List.length_append, Nat.add_left_cancel_iff, List.length_eq_one_iff] at hlength
  obtain ⟨x, rfl⟩ := hlength
  exact ⟨x, rfl⟩

/-- A section with one import, a function of the first type. -/
def furtherImport : List UInt8 := [0x01, 0x01, 0x65, 0x01, 0x67, 0x00, 0x00]

/-- A further import is put behind the one of the sample module, and its slot behind the program of
the host; two memories do not fit into the module, and leave it as it is. -/
theorem importing_grows : ∃ (m : Module) (d' : Draft), m.Paired ∧
    m.bindings.toList = [.function ⟨.finish (.ok ()), 1, 1⟩] ∧
    contents .imports ⟨.ofBytes furtherImport, m⟩ = .ok () d' ∧
    (∃ entry, d'.module.imports.toList = m.imports.toList ++ [entry]) ∧
    (∃ slot, d'.module.bindings.toList = m.bindings.toList ++ [slot]) ∧
    d'.module.without .imports = m.without .imports ∧
    contents .memory ⟨.ofBytes [2], m⟩ = .error .vectorTooLong ⟨⟨1, []⟩, m⟩ := by
  obtain ⟨m, hm⟩ : ∃ m, m = Module.importingWith (.finish (.ok ())) := ⟨_, rfl⟩
  have hbindings : m.bindings.toList = [.function ⟨.finish (.ok ()), 1, 1⟩] :=
    hm ▸ Module.bindings_importingWith _
  have hlength : m.bindings.length = m.imports.length :=
    hm ▸ (Module.importingWith_prepared _).slotted.length_eq
  have hpaired : m.Paired := Nat.le_of_eq hlength
  have hfacts : ((contents .imports).fault? ⟨.ofBytes furtherImport, m⟩) = none ∧
      0 < m.imports.free ∧ m.memories.free = 1 := by
    rw [hm]
    decide +kernel
  obtain ⟨hfault, hroom, hmemories⟩ := hfacts
  have hone : Parser.uleb32 (.ofBytes furtherImport) = .ok 1 ⟨1, furtherImport.tail⟩ := rfl
  have htwo : Parser.uleb32 (.ofBytes [2]) = .ok 2 ⟨1, []⟩ := rfl
  have hgrows : AppendsInRoom .imports ⟨.ofBytes furtherImport, m⟩ :=
    contents_appends_in_room .imports hpaired
  have hrefuses : AppendsInRoom .memory ⟨.ofBytes [2], m⟩ :=
    contents_appends_in_room .memory hpaired
  obtain ⟨_, hrun⟩ := Action.run_of_fault?_none hfault
  have happends := hgrows.appends
  obtain ⟨-, hfree⟩ := hgrows.fills rfl hone hrun
  obtain ⟨d', hd'⟩ : ∃ d', d' = (contents .imports).after ⟨.ofBytes furtherImport, m⟩ := ⟨_, rfl⟩
  rw [← hd'] at happends hrun hfree
  have himports : d'.module.imports.length = m.imports.length + 1 := by
    replace hfree : d'.module.imports.free = m.imports.free - 1 := Option.some.inj hfree
    have hle := d'.module.imports.length_le
    unfold FixedVec.free at hfree hroom
    omega
  have hslots : d'.module.bindings.length = m.bindings.length + 1 := by
    have hpairs : _ + m.bindings.length = m.imports.length + _ := happends.paired
    omega
  rw [← FixedVec.length_toList, ← FixedVec.length_toList] at himports hslots
  exact ⟨m, d', hpaired, hbindings, hrun, exists_concat_of_prefix happends.imports himports,
    exists_concat_of_prefix happends.bindings hslots, happends.untouched,
    (hrefuses.oversized rfl htwo (by rw [hmemories]; decide)).1⟩

end Draft

end BoundedWasm
