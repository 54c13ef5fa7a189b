import BoundedWasm.Proofs.Machine.Trace
import BoundedWasm.Proofs.Module.Runnable

/-!
# BoundedWasm.Proofs.Machine.Effects — with what operations fail, and which cells they write

`Opcode.faults` lists the faults of an operation by itself, and `Instruction.Writes` says which
cells of the host an instruction may write: those that stand for the mutable imported global it
names.  An instruction that has the immediates of its operation fails with no other faults and
writes no other cells (`handler?_confined`), on any machine for a module whose bindings fit: its
immediates are there, and a cell holds the bits of a global of 32 bits.
-/

namespace BoundedWasm

open BoundedWasm.Action Limits

/-- The faults of taking operands and of giving back a result. -/
def Fault.ofOperands : List Fault := [.stackUnderflow, .unexpectedType, .stackOverflow]

/-- The faults of reading and writing a global. -/
def Fault.ofGlobals : List Fault :=
  [.globalOutOfRange, .globalImmutable, .globalMismatch, .variableUnbound]

/-- The faults of an access to memory. -/
def Fault.ofMemory : List Fault := .accessOutOfBounds :: ofOperands

/-- The faults of computing with numbers. -/
def Fault.ofNumbers : List Fault :=
  [.divideByZero, .integerOverflow, .invalidConversion] ++ ofOperands

/-- The faults of an operation that calls no function. -/
def Opcode.faults : Opcode → List Fault
  | .unreachable => [.unreachableExecuted]
  | .localGet | .localSet | .localTee =>
    [.stackUnderflow, .stackOverflow, .localOutOfRange, .localMismatch]
  | .globalGet | .globalSet => [.stackUnderflow, .stackOverflow] ++ Fault.ofGlobals
  | .select => .selectMismatch :: Fault.ofOperands
  | .load _ | .load32 _ _ | .store _ | .store32 _ => Fault.ofMemory
  | _ => Fault.ofNumbers

/-- Only accesses of locals miss a local. -/
theorem Opcode.eq_of_localOutOfRange {opcode : Opcode} (h : .localOutOfRange ∈ opcode.faults) :
    opcode = .localGet ∨ opcode = .localSet ∨ opcode = .localTee := by
  cases opcode with
  | localGet => exact .inl rfl
  | localSet => exact .inr (.inl rfl)
  | localTee => exact .inr (.inr rfl)
  | unreachable => exact absurd h (by decide)
  | globalGet => exact absurd h (by decide)
  | globalSet => exact absurd h (by decide)
  | select => exact absurd h (by decide)
  | load | load32 | store | store32 => exact absurd h (by decide : _ ∉ Fault.ofMemory)
  | _ => exact absurd h (by decide : _ ∉ Fault.ofNumbers)

/-- The global is imported and mutable, and is bound to the cell. -/
def Module.HasCell (m : Module) (index : UInt32) (cell : CellId) : Prop :=
  ∃ position type, m.global? index = some (.imported position type) ∧ type.isMutable = true ∧
    m.bindings.get? position = some (.cell cell)

/-- The instruction may write the cell. -/
def Instruction.Writes (m : Module) (i : Instruction) (cell : CellId) : Prop :=
  i.opcode = .globalSet ∧ ∃ index, i.index = .ok index ∧ m.HasCell index cell

/-! ### Accesses to memory and passing through words -/

theorem LinearMemory.effectiveRange_error {size : Nat} {address offset : UInt32} {width : UInt64}
    {fault : Fault} (h : effectiveRange size address offset width = .error fault) :
    fault = .accessOutOfBounds := by
  unfold effectiveRange at h
  simp only at h
  split at h
  · cases h
    rfl
  · cases h

theorem LinearMemory.load_error {memory : LinearMemory} {width : Nat} {address offset : UInt32}
    {fault : Fault} (h : memory.load width address offset = .error fault) :
    fault = .accessOutOfBounds := by
  unfold load at h
  cases hrange : effectiveRange memory.size address offset (UInt64.ofNat width) with
  | ok range =>
    rw [hrange] at h
    cases h
  | error fault' =>
    rw [hrange] at h
    cases h
    exact effectiveRange_error hrange

theorem LinearMemory.store_error {memory : LinearMemory} {address offset : UInt32}
    {bytes : List UInt8} {fault : Fault} (h : memory.store address offset bytes = .error fault) :
    fault = .accessOutOfBounds := by
  unfold store at h
  cases hrange : effectiveRange memory.size address offset (UInt64.ofNat bytes.length) with
  | ok range =>
    rw [hrange] at h
    cases h
  | error fault' =>
    rw [hrange] at h
    cases h
    exact effectiveRange_error hrange

theorem Value.exists_ofWord {type : ValueType} (h : type.isWord = true) (bits : BitVec 32) :
    ∃ value, ofWord type bits = .ok value := by
  cases type with
  | i32 => exact ⟨_, rfl⟩
  | f32 => exact ⟨_, rfl⟩
  | i64 => cases h
  | f64 => cases h

theorem Value.exists_toWord {value : Value} (h : value.type.isWord = true) :
    ∃ bits, value.toWord = .ok bits := by
  cases value with
  | i32 bits => exact ⟨bits, rfl⟩
  | f32 bits => exact ⟨bits, rfl⟩
  | i64 => cases h
  | f64 => cases h

section Words

variable {type : ValueType} {bits : BitVec 32} {value : Value}

theorem Value.type_of_ofWord (h : ofWord type bits = .ok value) : value.type = type := by
  cases type <;> cases h <;> rfl

theorem Value.toWord_of_ofWord (h : ofWord type bits = .ok value) : value.toWord = .ok bits := by
  cases type <;> cases h <;> rfl

theorem Value.ofWord_of_toWord (h : value.toWord = .ok bits) :
    ofWord value.type bits = .ok value := by
  cases value <;> cases h <;> rfl

end Words

namespace Machine

/-- Only cells of `C` are written on the way. -/
def WritesIn (C : CellId → Prop) (s s' : Machine) : Prop :=
  ∀ cell, s'.host.cells.read cell ≠ s.host.cells.read cell → C cell

/-- The action fails with faults of `F` only, and writes cells of `C` only. -/
def Confined {α : Type} (C : CellId → Prop) (F : List Fault) (action : Exec α) : Prop :=
  ∀ s, action.Ends s (fun _ s' => WritesIn C s s') (fun fault s' => fault ∈ F ∧ WritesIn C s s')

variable {m : Module} {C : CellId → Prop} {F : List Fault} {s s' : Machine}

theorem WritesIn.of_cells (h : s'.host.cells = s.host.cells) : WritesIn C s s' := fun cell hne =>
  absurd (congrArg (Cells.read · cell) h) hne

theorem WritesIn.refl (s : Machine) : WritesIn C s s := .of_cells rfl

theorem WritesIn.trans {s'' : Machine} (h : WritesIn C s s') (h' : WritesIn C s' s'') :
    WritesIn C s s'' := by
  intro cell hne
  by_cases heq : s'.host.cells.read cell = s.host.cells.read cell
  · exact h' cell (heq ▸ hne)
  · exact h cell heq

/-- Writing a cell of `C` writes no others. -/
theorem WritesIn.write {id : CellId} (hid : C id) (bits : BitVec 32) :
    WritesIn C s { s with host := { s.host with cells := s.host.cells.write id bits } } := by
  intro cell hne
  rw [Cells.read_write] at hne
  split at hne
  · rename_i heq
    exact heq ▸ hid
  · exact absurd rfl hne

namespace Confined

variable {α β : Type}

theorem of_error {action : Exec α} (h : Confined C F action) {fault : Fault}
    (hrun : action s = .error fault s') : fault ∈ F :=
  ((h s).of_error hrun).1

theorem after {action : Exec α} (h : Confined C F action) (s : Machine) :
    WritesIn C s (action.after s) := by
  unfold Action.after
  cases hrun : action s with
  | ok a s' => exact (h s).of_ok hrun
  | error fault s' => exact ((h s).of_error hrun).2

theorem mono {D : CellId → Prop} {G : List Fault} {action : Exec α} (h : Confined C F action)
    (hD : ∀ cell, C cell → D cell) (hG : F ⊆ G) : Confined D G action := fun s =>
  (h s).mono (fun _ _ hs cell hne => hD cell (hs cell hne))
    (fun _ _ hs => ⟨hG hs.1, fun cell hne => hD cell (hs.2 cell hne)⟩)

theorem pure (a : α) : Confined C F (Pure.pure a : Exec α) := fun s => .refl s

theorem throw {fault : Fault} (h : fault ∈ F) :
    Confined C F (MonadExcept.throw fault : Exec α) := fun s => ⟨h, .refl s⟩

theorem ofExcept {answer : Except Fault α} (h : ∀ fault, answer = .error fault → fault ∈ F) :
    Confined C F (Action.ofExcept answer : Exec α) := fun s =>
  (ends_ofExcept answer).mpr ⟨fun _ _ => .refl s, fun fault heq => ⟨h fault heq, .refl s⟩⟩

theorem bind {action : Exec α} {next : α → Exec β} (h : Confined C F action)
    (hnext : ∀ a, Confined C F (next a)) : Confined C F (action >>= next) := by
  intro s
  rw [ends_bind]
  refine (h s).mono (fun a s' hs => ?_) (fun _ _ => id)
  exact (hnext a s').mono (fun _ _ hs' => hs.trans hs') (fun _ _ hs' => ⟨hs'.1, hs.trans hs'.2⟩)

theorem get {next : Machine → Exec β} (hnext : ∀ s, Confined C F (next s)) :
    Confined C F (MonadState.get >>= next) :=
  bind (fun s => .refl s) hnext

/-- An update that does not touch the cells. -/
theorem update {f : Machine → Machine} (h : ∀ s, (f s).host.cells = s.host.cells) :
    Confined C F (modify f : Exec Unit) := fun s => .of_cells (h s)

theorem discard {action : Exec α} (h : Confined C F action) :
    Confined C F (Functor.discard action) :=
  bind h fun _ => pure _

theorem ite {c : Prop} [Decidable c] {action other : Exec α} (h : Confined C F action)
    (hother : Confined C F other) : Confined C F (if c then action else other) := by
  split
  · exact h
  · exact hother

end Confined

/-! ### The operand stack -/

theorem confined_push (hF : .stackOverflow ∈ F) (value : Value) : Confined C F (push value) := by
  intro s
  by_cases hlt : s.stack.length < maxOperandStack
  · simp only [Ends, push, if_pos hlt]
    exact .of_cells rfl
  · simp only [Ends, push, if_neg hlt]
    exact ⟨hF, .refl s⟩

theorem confined_top (hF : .stackUnderflow ∈ F) : Confined C F top := by
  intro s
  refine (top_ends s).mono ?_ ?_
  · rintro value s' ⟨rfl, -, -⟩
    exact .refl s'
  · rintro fault s' ⟨rfl, rfl, -⟩
    exact ⟨hF, .refl s'⟩

theorem confined_drop : Confined C F drop := .update fun _ => rfl

theorem confined_pop (hF : .stackUnderflow ∈ F) : Confined C F pop :=
  .bind (confined_top hF) fun _ => .bind confined_drop fun _ => .pure _

theorem confined_popAs {α : Type} (hF : Fault.ofOperands ⊆ F) {read : Value → Except Fault α}
    (hread : ∀ value fault, read value = .error fault → fault = .unexpectedType) :
    Confined C F (popAs read) := by
  refine .bind (confined_top (hF (by decide))) fun value => .bind (.ofExcept fun fault h => ?_)
    fun _ => .bind confined_drop fun _ => .pure _
  rw [hread value fault h]
  exact hF (by decide)

theorem confined_popI32 (hF : Fault.ofOperands ⊆ F) : Confined C F popI32 :=
  confined_popAs hF fun value fault h => by cases value <;> cases h <;> rfl

theorem confined_popF32 (hF : Fault.ofOperands ⊆ F) : Confined C F popF32 :=
  confined_popAs hF fun value fault h => by cases value <;> cases h <;> rfl

/-! ### Operand patterns -/

section Patterns

variable (hF : Fault.ofOperands ⊆ F)
include hF

theorem confined_pushed (value : Value) : Confined C F (push value) :=
  confined_push (hF (by decide)) value

theorem confined_unary (eval : BitVec 32 → BitVec 32) : Confined C F (unary eval) :=
  .bind (confined_popI32 hF) fun _ => confined_pushed hF _

theorem confined_binary {eval : BitVec 32 → BitVec 32 → Except Fault (BitVec 32)}
    (heval : ∀ a b fault, eval a b = .error fault → fault ∈ F) : Confined C F (binary eval) :=
  .bind (confined_popI32 hF) fun b => .bind (confined_popI32 hF) fun a =>
    .bind (.ofExcept (heval a b)) fun _ => confined_pushed hF _

theorem confined_compare (holds : BitVec 32 → BitVec 32 → Bool) : Confined C F (compare holds) :=
  .bind (confined_popI32 hF) fun _ => .bind (confined_popI32 hF) fun _ => confined_pushed hF _

theorem confined_unaryF32 (eval : BitVec 32 → BitVec 32) : Confined C F (unaryF32 eval) :=
  .bind (confined_popF32 hF) fun _ => confined_pushed hF _

theorem confined_binaryF32 (eval : BitVec 32 → BitVec 32 → BitVec 32) :
    Confined C F (binaryF32 eval) :=
  .bind (confined_popF32 hF) fun _ => .bind (confined_popF32 hF) fun _ => confined_pushed hF _

theorem confined_compareF32 (holds : BitVec 32 → BitVec 32 → Bool) :
    Confined C F (compareF32 holds) :=
  .bind (confined_popF32 hF) fun _ => .bind (confined_popF32 hF) fun _ => confined_pushed hF _

theorem confined_fromF32 {eval : BitVec 32 → Except Fault (BitVec 32)}
    (heval : ∀ a fault, eval a = .error fault → fault ∈ F) : Confined C F (fromF32 eval) :=
  .bind (confined_popF32 hF) fun a => .bind (.ofExcept (heval a)) fun _ => confined_pushed hF _

theorem confined_toF32 (eval : BitVec 32 → BitVec 32) : Confined C F (toF32 eval) :=
  .bind (confined_popI32 hF) fun _ => confined_pushed hF _

theorem confined_memorySize : Confined C F memorySize := .get fun _ => confined_pushed hF _

theorem confined_memoryGrow : Confined C F memoryGrow :=
  .bind (confined_popI32 hF) fun _ => confined_pushed hF _

theorem confined_select (hselect : .selectMismatch ∈ F) : Confined C F select := by
  have hpop : Confined C F pop := confined_pop (hF (by decide))
  exact .bind (confined_popI32 hF) fun _ => .bind hpop fun second => .bind hpop fun first =>
    .ite (.throw hselect) (confined_pushed hF _)

/-! ### Memory -/

variable {i : Instruction} (hoffset : ∃ offset, i.memoryOffset = .ok offset)
  (hbounds : .accessOutOfBounds ∈ F)
include hoffset hbounds

theorem confined_loadNumber (width : Nat) : Confined C F (loadNumber i width) := by
  obtain ⟨offset, hoffset⟩ := hoffset
  refine .bind (.ofExcept fun fault h => ?_) fun offset => .bind (confined_popI32 hF) fun address =>
    .get fun s => .bind (.ofExcept fun fault h => ?_) fun _ => .pure _
  · rw [hoffset] at h
    cases h
  · rw [LinearMemory.load_error h]
    exact hbounds

theorem confined_storeNumber (width n : Nat) : Confined C F (storeNumber i width n) := by
  obtain ⟨offset, hoffset⟩ := hoffset
  refine .bind (.ofExcept fun fault h => ?_) fun offset => .bind (confined_popI32 hF) fun address =>
    .get fun s => .bind (.ofExcept fun fault h => ?_) fun _ => .update fun _ => rfl
  · rw [hoffset] at h
    cases h
  · rw [LinearMemory.store_error h]
    exact hbounds

theorem confined_loadNarrow (part : Narrow32) (sign : Sign) :
    Confined C F (loadNarrow i part sign) :=
  .bind (confined_loadNumber hF hoffset hbounds _) fun _ => confined_pushed hF _

theorem confined_storeNarrow (part : Narrow32) : Confined C F (storeNarrow i part) := by
  refine .bind (confined_popI32 hF) fun _ => ?_
  cases part with
  | bits8 => exact confined_storeNumber hF hoffset hbounds 1 _
  | bits16 => exact confined_storeNumber hF hoffset hbounds 2 _

end Patterns

/-! ### Variables -/

theorem globalValue_error (hm : m.Slotted) {s : Machine} {index : UInt32} {fault : Fault}
    (h : s.globalValue m index = .error fault) :
    fault ∈ [Fault.globalOutOfRange, .variableUnbound] := by
  unfold globalValue at h
  split at h
  · cases h
    decide
  · split at h
    · cases h
    · cases h
      decide
  · rename_i position type hglobal
    split at h
    · rename_i id hbinding
      obtain ⟨value, hvalue⟩ := Value.exists_ofWord (hm.isWord_of_cell hglobal hbinding)
        (s.host.cells.read id)
      rw [hvalue] at h
      cases h
    · cases h
      decide

theorem globalFault?_eq_some {type : GlobalType} {value : Value} {fault : Fault}
    (h : globalFault? type value = some fault) :
    fault ∈ [Fault.globalImmutable, .globalMismatch] := by
  unfold globalFault? at h
  split at h
  · cases h
    decide
  · split at h
    · cases h
      decide
    · cases h

theorem globalFault?_eq_none_iff {type : GlobalType} {value : Value} :
    globalFault? type value = none ↔ type.isMutable = true ∧ value.type = type.valueType := by
  unfold globalFault?
  cases type.isMutable <;> simp

theorem confined_setGlobal (hm : m.Slotted) (index : UInt32) (value : Value) :
    Confined (m.HasCell index) Fault.ofGlobals (setGlobal m index value) := by
  have hfault : ∀ {type fault}, globalFault? type value = some fault → fault ∈ Fault.ofGlobals :=
    fun h => (by decide : [Fault.globalImmutable, .globalMismatch] ⊆ Fault.ofGlobals)
      (globalFault?_eq_some h)
  unfold setGlobal
  split
  · exact .throw (by decide)
  · split
    · exact .throw (by decide)
    · split
      · exact .throw (hfault ‹_›)
      · exact .get fun s => .ite (.update fun _ => rfl) (.throw (by decide))
  · rename_i position type hglobal
    split
    · exact .throw (hfault ‹_›)
    · rename_i hnone
      obtain ⟨hmutable, htype⟩ := globalFault?_eq_none_iff.mp hnone
      split
      · rename_i id hbinding
        refine .bind (.ofExcept fun fault h => ?_) fun bits s => ?_
        · have hword := hm.isWord_of_cell hglobal hbinding
          rw [← htype] at hword
          obtain ⟨bits, hbits⟩ := Value.exists_toWord hword
          rw [hbits] at h
          cases h
        · rw [ends_modify]
          exact .write ⟨position, type, hglobal, hmutable, hbinding⟩ bits
      · exact .throw (by decide)

/-- How a local is set: it is there, at the type of the value. -/
theorem setLocal_ends (index : UInt32) (value : Value) (s : Machine) :
    (setLocal index value).Ends s (fun _ s' => ∃ locals, s' = { s with locals })
      (fun fault s' => s' = s ∧
        (fault = .localMismatch ∨
          fault = .localOutOfRange ∧ s.localValue index = .error .localOutOfRange)) := by
  refine ends_of (fun _ s' h => ?_) (fun fault s' h => ?_)
  · unfold setLocal at h
    split at h
    · cases h
    · split at h
      · cases h
      · split at h
        · cases h
          exact ⟨_, rfl⟩
        · cases h
  · unfold setLocal at h
    unfold localValue
    split at h
    · rename_i hslot
      cases h
      exact ⟨rfl, .inr ⟨rfl, by rw [hslot]; rfl⟩⟩
    · rename_i slot hslot
      split at h
      · rename_i hold
        cases h
        refine ⟨rfl, .inr ⟨rfl, ?_⟩⟩
        simp only [hslot, Option.bind_some, hold]
      · split at h
        · cases h
        · cases h
          exact ⟨rfl, .inl rfl⟩

theorem confined_setLocal {index : UInt32} {value : Value}
    (hF : [Fault.localOutOfRange, .localMismatch] ⊆ F) : Confined C F (setLocal index value) := by
  intro s
  refine (setLocal_ends index value s).mono ?_ ?_
  · rintro _ s' ⟨locals, rfl⟩
    exact .of_cells rfl
  · rintro fault s' ⟨rfl, rfl | ⟨rfl, -⟩⟩
    · exact ⟨hF (by decide), .refl s'⟩
    · exact ⟨hF (by decide), .refl s'⟩

theorem localValue_error {s : Machine} {index : UInt32} {fault : Fault}
    (h : s.localValue index = .error fault) : fault = .localOutOfRange := by
  unfold localValue at h
  split at h
  · cases h
  · cases h
    rfl

/-! ### All operations -/

section Operations

variable {i : Instruction}

theorem confined_index (hi : i.Shaped) (hkind : i.opcode.immediates = .index) :
    Confined C F (Action.ofExcept i.index : Exec UInt32) := by
  obtain ⟨index, hindex⟩ := hi.index_ok hkind
  refine .ofExcept fun fault h => ?_
  rw [hindex] at h
  cases h

theorem confined_localGet (hi : i.Shaped) (hkind : i.opcode.immediates = .index)
    (hF : [Fault.stackOverflow, .localOutOfRange] ⊆ F) : Confined C F (localGet i) := by
  refine .bind (confined_index hi hkind) fun index => .get fun s =>
    .bind (.ofExcept fun fault h => ?_) fun _ => confined_push (hF (by decide)) _
  rw [localValue_error h]
  exact hF (by decide)

theorem confined_localSet (hi : i.Shaped) (hkind : i.opcode.immediates = .index)
    (hF : [Fault.stackUnderflow, .localOutOfRange, .localMismatch] ⊆ F) :
    Confined C F (localSet i) :=
  .bind (confined_pop (hF (by decide))) fun _ => .bind (confined_index hi hkind) fun _ =>
    .bind (confined_setLocal fun _ h => hF (List.mem_cons_of_mem _ h)) fun _ => .pure _

theorem confined_globalGet (hm : m.Slotted) (hi : i.Shaped) (hkind : i.opcode.immediates = .index)
    (hF : .stackOverflow :: Fault.ofGlobals ⊆ F) : Confined C F (globalGet m i) := by
  refine .bind (confined_index hi hkind) fun index => .get fun s =>
    .bind (.ofExcept fun fault h => ?_) fun _ => confined_push (hF (by decide)) _
  have hlisted :
      [Fault.globalOutOfRange, .variableUnbound] ⊆ .stackOverflow :: Fault.ofGlobals := by decide
  exact hF (hlisted (globalValue_error hm h))

theorem confined_globalSet (hm : m.Slotted) (hi : i.Shaped) (hopcode : i.opcode = .globalSet)
    (hF : .stackUnderflow :: Fault.ofGlobals ⊆ F) : Confined (i.Writes m) F (globalSet m i) := by
  obtain ⟨index, hindex⟩ := hi.index_ok (by rw [hopcode]; rfl)
  refine .bind (confined_pop (hF (by decide))) fun value => ?_
  rw [hindex]
  exact (confined_setGlobal hm index value).mono (fun cell h => ⟨hopcode, index, hindex, h⟩)
    fun _ h => hF (List.mem_cons_of_mem _ h)

theorem confined_constant (hi : i.Shaped) {type : ValueType} (hopcode : i.opcode = .const type) :
    Confined C F (Action.ofExcept (constant i) : Exec Value) := by
  obtain ⟨value, hvalue⟩ := hi.constant_ok hopcode
  refine .ofExcept fun fault h => ?_
  rw [hvalue] at h
  cases h

theorem error_of_ite {α : Type} {c : Prop} [Decidable c] {fault fault' : Fault}
    {answer : Except Fault α} (h : (if c then .error fault else answer) = .error fault') :
    fault' = fault ∨ answer = .error fault' := by
  split at h
  · cases h
    exact .inl rfl
  · exact .inr h

theorem intBinary_error {operator : IntBinary} {a b : BitVec 32} {fault : Fault}
    (h : operator.eval a b = .error fault) : fault ∈ [Fault.divideByZero, .integerOverflow] := by
  cases operator with
  | div sign =>
    cases sign with
    | signed =>
      rcases error_of_ite h with rfl | h
      · decide
      · rcases error_of_ite h with rfl | h
        · decide
        · cases h
    | unsigned =>
      rcases error_of_ite h with rfl | h
      · decide
      · cases h
  | rem sign =>
    cases sign with
    | signed =>
      rcases error_of_ite h with rfl | h
      · decide
      · cases h
    | unsigned =>
      rcases error_of_ite h with rfl | h
      · decide
      · cases h
  | shr sign => cases sign <;> cases h
  | _ => cases h

theorem truncate_error {sign : Sign} {a : BitVec 32} {fault : Fault}
    (h : Single.truncate sign a = .error fault) :
    fault ∈ [Fault.invalidConversion, .integerOverflow] := by
  unfold Single.truncate at h
  split at h
  · cases h
    decide
  · split at h
    · cases h
    · cases h
      decide

/-- An instruction with the immediates of its operation fails with the faults of the operation only,
and writes only the cells that it may write. -/
theorem work?_confined (hm : m.Slotted) (hi : i.Shaped) (hcall : i.opcode ≠ .call)
    {enter : UInt32 → Exec Unit} {work : Instruction → Exec Unit}
    (h : work? m enter i.opcode = some work) : Confined (i.Writes m) i.opcode.faults (work i) := by
  generalize hopcode : i.opcode = opcode at h hcall
  have hkind : i.opcode.immediates = opcode.immediates := by rw [hopcode]
  have hnumbers : Fault.ofOperands ⊆ Fault.ofNumbers := by decide
  have hmemory : Fault.ofOperands ⊆ Fault.ofMemory := by decide
  have hbounds : .accessOutOfBounds ∈ Fault.ofMemory := by decide
  unfold work? at h
  split at h
  -- one case for each line of the table
  · cases h
    exact .throw (by decide)
  · cases h
    exact .pure _
  · cases h
    exact .pure _
  · cases h
    exact .pure _
  · exact absurd rfl hcall
  · cases h
    exact .discard (confined_pop (by decide))
  · cases h
    exact confined_select (by decide) (by decide)
  · cases h
    exact confined_localGet hi hkind (by decide)
  · cases h
    exact .discard (confined_localSet hi hkind (by decide))
  · cases h
    exact .bind (confined_localSet hi hkind (by decide)) fun _ => confined_push (by decide) _
  · cases h
    exact confined_globalGet hm hi hkind (by decide)
  · cases h
    exact confined_globalSet hm hi hopcode (by decide)
  · cases h
    exact .bind (confined_loadNumber hmemory (hi.memoryOffset_ok hkind) hbounds 4) fun _ =>
      confined_pushed hmemory _
  · cases h
    exact .bind (confined_loadNumber hmemory (hi.memoryOffset_ok hkind) hbounds 4) fun _ =>
      confined_pushed hmemory _
  · cases h
    exact confined_loadNarrow hmemory (hi.memoryOffset_ok hkind) hbounds _ _
  · cases h
    exact .bind (confined_popI32 hmemory) fun _ =>
      confined_storeNumber hmemory (hi.memoryOffset_ok hkind) hbounds 4 _
  · cases h
    exact .bind (confined_popF32 hmemory) fun _ =>
      confined_storeNumber hmemory (hi.memoryOffset_ok hkind) hbounds 4 _
  · cases h
    exact confined_storeNarrow hmemory (hi.memoryOffset_ok hkind) hbounds _
  · cases h
    exact confined_memorySize hnumbers
  · cases h
    exact confined_memoryGrow hnumbers
  · cases h
    exact .bind (confined_constant hi hopcode) fun _ => confined_pushed hnumbers _
  · cases h
    exact .bind (confined_popI32 hnumbers) fun _ => confined_pushed hnumbers _
  · cases h
    exact confined_compare hnumbers _
  · cases h
    exact confined_unary hnumbers _
  · cases h
    exact confined_binary hnumbers fun a b fault hfault =>
      (by decide : [Fault.divideByZero, .integerOverflow] ⊆ Fault.ofNumbers)
        (intBinary_error hfault)
  · cases h
    exact confined_compareF32 hnumbers _
  · obtain ⟨eval, -, rfl⟩ := Option.map_eq_some_iff.mp h
    exact confined_unaryF32 hnumbers eval
  · obtain ⟨eval, -, rfl⟩ := Option.map_eq_some_iff.mp h
    exact confined_binaryF32 hnumbers eval
  · cases h
    exact confined_fromF32 hnumbers fun a fault hfault =>
      (by decide : [Fault.invalidConversion, .integerOverflow] ⊆ Fault.ofNumbers)
        (truncate_error hfault)
  · cases h
    exact confined_toF32 hnumbers _
  · cases h
    exact confined_fromF32 hnumbers fun _ _ hfault => by cases hfault
  · cases h
    exact confined_toF32 hnumbers _
  · cases h
    exact confined_fromF32 hnumbers fun _ _ hfault => by cases hfault
  · cases h

theorem handler?_confined (hm : m.Slotted) (hi : i.Shaped) (hcall : i.opcode ≠ .call)
    {enter : UInt32 → Exec Unit} {work : Instruction → Exec Flow}
    (h : handler? m enter i.opcode = some work) :
    Confined (i.Writes m) i.opcode.faults (work i) := by
  unfold handler? at h
  split at h
  · cases h
    exact .pure _
  · obtain ⟨inner, hinner, rfl⟩ := Option.map_eq_some_iff.mp h
    exact .bind (work?_confined hm hi hcall hinner) fun _ => .pure _

/-- The instruction names a local that is not there. -/
def MissesLocal (i : Instruction) (s : Machine) : Prop :=
  ∃ index, i.index = .ok index ∧ s.localValue index = .error .localOutOfRange

theorem index_error {fault : Fault} (h : i.index = .error fault) : fault = .malformedImmediate := by
  unfold Instruction.index at h
  split at h
  · cases h
  · cases h
    rfl

/-- An action that fails for a missing local does so because of the instruction. -/
def Misses {α : Type} (i : Instruction) (s : Machine) (action : Exec α) : Prop :=
  action.Ends s (fun _ _ => True) (fun fault _ => fault = .localOutOfRange → MissesLocal i s)

theorem misses_push (i : Instruction) (s t : Machine) (value : Value) :
    (push value).Ends t (fun _ _ => True)
      (fun fault _ => fault = .localOutOfRange → MissesLocal i s) := by
  refine (confined_push (C := fun _ => True) (F := [.stackOverflow]) (by decide) value t).mono
    (fun _ _ _ => trivial) ?_
  rintro _ _ ⟨hpush, -⟩ rfl
  exact absurd hpush (by decide)

theorem localGet_misses (s : Machine) : Misses i s (localGet i) := by
  unfold Misses localGet
  rw [ends_bind, ends_ofExcept]
  refine ⟨fun index hindex => ?_, fun fault h hfault => ?_⟩
  · rw [ends_bind, ends_get, ends_bind, ends_ofExcept]
    exact ⟨fun value _ => misses_push i s s value,
      fun fault h hfault => ⟨index, hindex, hfault ▸ h⟩⟩
  · rw [index_error h] at hfault
    exact absurd hfault (by decide)

theorem localSet_misses (s : Machine) : Misses i s (localSet i) := by
  unfold Misses localSet pop
  rw [ends_bind, ends_bind]
  refine (top_ends s).mono ?_ ?_
  · rintro value s' ⟨rfl, -, -⟩
    rw [ends_bind]
    show Ends _ { s' with stack := s'.stack.pop } _ _
    rw [ends_bind, ends_ofExcept]
    refine ⟨fun index hindex => ?_, fun fault h hfault => ?_⟩
    · rw [ends_bind]
      refine (setLocal_ends index value _).mono (fun _ _ _ => trivial) ?_
      rintro fault t ⟨-, rfl | ⟨-, hmissing⟩⟩ hfault
      · exact absurd hfault (by decide)
      · exact ⟨index, hindex, hmissing⟩
    · rw [index_error h] at hfault
      exact absurd hfault (by decide)
  · rintro fault s' ⟨-, rfl, -⟩ hfault
    exact absurd hfault (by decide)

/-- An instruction fails for the index of a local only where it names one that is not there. -/
theorem handler?_misses (hm : m.Slotted) (hi : i.Shaped) (hcall : i.opcode ≠ .call)
    {enter : UInt32 → Exec Unit} {work : Instruction → Exec Flow}
    (h : handler? m enter i.opcode = some work) {s s' : Machine}
    (hrun : work i s = .error .localOutOfRange s') : MissesLocal i s := by
  have hfault := (handler?_confined hm hi hcall h).of_error hrun
  have hends : ∀ {action : Exec Unit}, Misses i s action →
      (action >>= fun _ => pure Flow.next) s = .error .localOutOfRange s' → MissesLocal i s := by
    intro action hmisses hrun
    have hnext : Misses i s (action >>= fun _ => pure Flow.next) := by
      unfold Misses
      rw [ends_bind]
      exact hmisses
    exact hnext.of_error hrun rfl
  generalize i.opcode = opcode at h hfault
  rcases Opcode.eq_of_localOutOfRange hfault with rfl | rfl | rfl
  · cases h
    exact hends (localGet_misses s) hrun
  · cases h
    refine hends ?_ hrun
    show (localSet i >>= fun _ => pure ()).Ends s _ _
    rw [ends_bind]
    exact localSet_misses s
  · cases h
    refine hends ?_ hrun
    unfold Misses
    rw [ends_bind]
    exact (localSet_misses s).mono (fun value t _ => misses_push i s t value) (fun _ _ => id)

end Operations

end Machine

end BoundedWasm
