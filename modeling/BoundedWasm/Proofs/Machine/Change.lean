import BoundedWasm.Machine.Call
import BoundedWasm.Proofs.ActionLogic

/-!
# BoundedWasm.Proofs.Machine.Change — the changes a machine is made of

Whatever an instruction or a native function does to a machine is a sequence of elementary changes
(`Machine.Change`), each under the condition that the machine checks before it.  A relation between
machines that holds of every elementary change, and that passes through sequences, therefore holds
between the beginning and the end of every instruction (`work?_keeps`), of a whole body
(`runBody_keeps`) and of a native function (`keeps_native`).
-/

namespace BoundedWasm.Machine

open BoundedWasm.Action Limits

/-- One elementary change of a machine. -/
inductive Change (m : Module) (s : Machine) : Machine → Prop
  | push (value : Value) (hlt : s.stack.length < maxOperandStack) :
    Change m s { s with stack := s.stack.put value }
  | pop (hlt : s.frame.stackBase < s.stack.length) : Change m s { s with stack := s.stack.pop }
  | setLocal {index : UInt32} {slot : Nat} {old : Value} (value : Value)
    (hslot : s.frame.localSlot? index = some slot) (hold : s.locals.get? slot = some old)
    (htype : old.type = value.type) : Change m s { s with locals := s.locals.set slot value }
  | setGlobal {index : UInt32} {position : Nat} {entry : Global} (value : Value)
    (hglobal : m.global? index = some (.defined position))
    (hentry : m.globals.get? position = some entry)
    (hfault : globalFault? entry.type value = none) (hlt : position < s.globals.length) :
    Change m s { s with globals := s.globals.set position value }
  | setCell {index : UInt32} {position : Nat} {type : GlobalType} {id : CellId} {value : Value}
    {bits : BitVec 32} (hglobal : m.global? index = some (.imported position type))
    (hfault : globalFault? type value = none)
    (hbinding : m.bindings.get? position = some (.cell id)) (hbits : value.toWord = .ok bits) :
    Change m s { s with host := { s.host with cells := s.host.cells.write id bits } }
  | store {address offset : UInt32} {bytes : List UInt8} {memory : LinearMemory}
    (hwidth : bytes.length ≤ 8) (hstore : s.memory.store address offset bytes = .ok memory) :
    Change m s { s with memory }
  | overwrite {start : Nat} {bytes : List UInt8} {memory : LinearMemory}
    (hwrite : s.memory.overwrite? start bytes = some memory) : Change m s { s with memory }
  | writeCell (cell : CellId) (bits : BitVec 32) :
    Change m s { s with host := { s.host with cells := s.host.cells.write cell bits } }
  | report (entry : Report) :
    Change m s { s with host := { s.host with reports := s.host.reports.push entry } }
  | note (event : Event) :
    Change m s { s with host := { s.host with log := s.host.log.push event } }

/-- Relations that hold of every elementary change and of sequences of them. -/
structure Covers (m : Module) (R E : Machine → Machine → Prop) : Prop extends Chains R E where
  change : ∀ {s s'}, Change m s s' → R s s'

variable {m : Module} {R E : Machine → Machine → Prop}

/-! ### The operand stack -/

theorem keeps_push (hR : Covers m R E) (value : Value) : Keeps R E (push value) := by
  intro s
  by_cases hlt : s.stack.length < maxOperandStack
  · simp only [Ends, push, if_pos hlt]
    exact hR.change (.push value hlt)
  · simp only [Ends, push, if_neg hlt]
    exact hR.fails s

/-- How the top value is looked up: it is the last of the stack, and above the base of the frame. -/
theorem top_ends (s : Machine) :
    top.Ends s
      (fun value s' => s' = s ∧ s.frame.stackBase < s.stack.length ∧ s.stack.last? = some value)
      (fun fault s' => s' = s ∧ fault = .stackUnderflow ∧ s.stack.length ≤ s.frame.stackBase) := by
  by_cases hle : s.stack.length ≤ s.frame.stackBase
  · unfold Ends top
    rw [if_pos hle]
    exact ⟨rfl, rfl, hle⟩
  · cases hlast : s.stack.last? with
    | none =>
      exfalso
      unfold FixedVec.last? at hlast
      rw [if_neg (by omega), FixedVec.get?, dif_pos (by omega)] at hlast
      cases hlast
    | some value =>
      unfold Ends top
      rw [if_neg hle, hlast]
      exact ⟨rfl, by omega, rfl⟩

theorem keeps_pop (hR : Covers m R E) : Keeps R E pop := by
  intro s
  unfold pop
  rw [ends_bind]
  refine (top_ends s).mono (fun value s' h => ?_) (fun fault s' h => ?_)
  · obtain ⟨rfl, hlt, -⟩ := h
    exact hR.change (.pop hlt)
  · obtain ⟨rfl, -, -⟩ := h
    exact hR.fails s'

theorem keeps_popAs {α : Type} (hR : Covers m R E) (read : Value → Except Fault α) :
    Keeps R E (popAs read) := by
  intro s
  unfold popAs
  rw [ends_bind]
  refine (top_ends s).mono (fun value s' h => ?_) (fun fault s' h => ?_)
  · obtain ⟨rfl, hlt, -⟩ := h
    rw [ends_bind, ends_ofExcept]
    exact ⟨fun _ _ => hR.change (.pop hlt), fun _ _ => hR.fails s'⟩
  · obtain ⟨rfl, -, -⟩ := h
    exact hR.fails s'

/-! ### Operand patterns -/

theorem keeps_unary (hR : Covers m R E) (eval : BitVec 32 → BitVec 32) :
    Keeps R E (unary eval) :=
  .bind hR.toChains (keeps_popAs hR _) fun _ => keeps_push hR _

theorem keeps_binary (hR : Covers m R E)
    (eval : BitVec 32 → BitVec 32 → Except Fault (BitVec 32)) : Keeps R E (binary eval) :=
  .bind hR.toChains (keeps_popAs hR _) fun _ =>
    .bind hR.toChains (keeps_popAs hR _) fun _ =>
      .bind hR.toChains (.ofExcept hR.toChains _) fun _ => keeps_push hR _

theorem keeps_compare (hR : Covers m R E) (holds : BitVec 32 → BitVec 32 → Bool) :
    Keeps R E (compare holds) :=
  .bind hR.toChains (keeps_popAs hR _) fun _ =>
    .bind hR.toChains (keeps_popAs hR _) fun _ => keeps_push hR _

theorem keeps_unaryF32 (hR : Covers m R E) (eval : BitVec 32 → BitVec 32) :
    Keeps R E (unaryF32 eval) :=
  .bind hR.toChains (keeps_popAs hR _) fun _ => keeps_push hR _

theorem keeps_binaryF32 (hR : Covers m R E) (eval : BitVec 32 → BitVec 32 → BitVec 32) :
    Keeps R E (binaryF32 eval) :=
  .bind hR.toChains (keeps_popAs hR _) fun _ =>
    .bind hR.toChains (keeps_popAs hR _) fun _ => keeps_push hR _

theorem keeps_compareF32 (hR : Covers m R E) (holds : BitVec 32 → BitVec 32 → Bool) :
    Keeps R E (compareF32 holds) :=
  .bind hR.toChains (keeps_popAs hR _) fun _ =>
    .bind hR.toChains (keeps_popAs hR _) fun _ => keeps_push hR _

theorem keeps_fromF32 (hR : Covers m R E) (eval : BitVec 32 → Except Fault (BitVec 32)) :
    Keeps R E (fromF32 eval) :=
  .bind hR.toChains (keeps_popAs hR _) fun _ =>
    .bind hR.toChains (.ofExcept hR.toChains _) fun _ => keeps_push hR _

theorem keeps_toF32 (hR : Covers m R E) (eval : BitVec 32 → BitVec 32) :
    Keeps R E (toF32 eval) :=
  .bind hR.toChains (keeps_popAs hR _) fun _ => keeps_push hR _

theorem keeps_select (hR : Covers m R E) : Keeps R E select := by
  refine .bind hR.toChains (keeps_popAs hR _) fun _ => ?_
  refine .bind hR.toChains (keeps_pop hR) fun second => ?_
  refine .bind hR.toChains (keeps_pop hR) fun first => ?_
  exact .ite (fun _ => .throw hR.toChains _) (fun _ => keeps_push hR _)

/-! ### Memory -/

theorem keeps_loadNumber (hR : Covers m R E) (i : Instruction) (width : Nat) :
    Keeps R E (loadNumber i width) := by
  refine .bind hR.toChains (.ofExcept hR.toChains _) fun _ => ?_
  refine .bind hR.toChains (keeps_popAs hR _) fun _ => .get hR.toChains fun _ => ?_
  exact .bind hR.toChains (.ofExcept hR.toChains _) fun _ => .pure hR.toChains _

theorem keeps_storeNumber (hR : Covers m R E) (i : Instruction) {width : Nat} (hwidth : width ≤ 8)
    (n : Nat) : Keeps R E (storeNumber i width n) := by
  refine .bind hR.toChains (.ofExcept hR.toChains _) fun offset => ?_
  refine .bind hR.toChains (keeps_popAs hR _) fun address => ?_
  intro s
  rw [ends_bind, ends_get, ends_bind, ends_ofExcept]
  have hbytes : (Bytes.toLittleEndian width n).length ≤ 8 := by
    rwa [Bytes.length_toLittleEndian]
  exact ⟨fun memory hstore => hR.change (.store hbytes hstore), fun _ _ => hR.fails s⟩

theorem keeps_loadNarrow (hR : Covers m R E) (i : Instruction) (part : Narrow32) (sign : Sign) :
    Keeps R E (loadNarrow i part sign) :=
  .bind hR.toChains (keeps_loadNumber hR i _) fun _ => keeps_push hR _

theorem keeps_storeNarrow (hR : Covers m R E) (i : Instruction) (part : Narrow32) :
    Keeps R E (storeNarrow i part) := by
  refine .bind hR.toChains (keeps_popAs hR _) fun _ => ?_
  cases part with
  | bits8 => exact keeps_storeNumber hR i (by decide) _
  | bits16 => exact keeps_storeNumber hR i (by decide) _

theorem keeps_memorySize (hR : Covers m R E) : Keeps R E memorySize :=
  .get hR.toChains fun _ => keeps_push hR _

theorem keeps_memoryGrow (hR : Covers m R E) : Keeps R E memoryGrow :=
  .bind hR.toChains (keeps_popAs hR _) fun _ => keeps_push hR _

/-! ### Variables -/

theorem keeps_setLocal (hR : Covers m R E) (index : UInt32) (value : Value) :
    Keeps R E (setLocal index value) := by
  intro s
  unfold Ends setLocal
  cases hslot : s.frame.localSlot? index with
  | none => exact hR.fails s
  | some slot =>
    cases hold : s.locals.get? slot with
    | none =>
      simp only [hold]
      exact hR.fails s
    | some old =>
      by_cases htype : old.type = value.type
      · simp only [hold, if_pos htype]
        exact hR.change (.setLocal value hslot hold htype)
      · simp only [hold, if_neg htype]
        exact hR.fails s

theorem keeps_setGlobal (hR : Covers m R E) (index : UInt32) (value : Value) :
    Keeps R E (setGlobal m index value) := by
  intro s
  unfold setGlobal
  cases hglobal : m.global? index with
  | none => exact hR.fails s
  | some global =>
    cases global with
    | defined position =>
      cases hentry : m.globals.get? position with
      | none =>
        simp only [hentry]
        exact hR.fails s
      | some entry =>
        cases hfault : globalFault? entry.type value with
        | some fault =>
          simp only [hentry, hfault]
          exact hR.fails s
        | none =>
          simp only [hentry, hfault, ends_bind, ends_get]
          by_cases hlt : position < s.globals.length
          · rw [if_pos hlt]
            exact hR.change (.setGlobal value hglobal hentry hfault hlt)
          · rw [if_neg hlt]
            exact hR.fails s
    | imported position type =>
      cases hfault : globalFault? type value with
      | some fault =>
        simp only [hfault]
        exact hR.fails s
      | none =>
        simp only [hfault]
        split
        · rename_i id hbinding
          rw [ends_bind, ends_ofExcept]
          exact ⟨fun bits hbits => hR.change (.setCell hglobal hfault hbinding hbits),
            fun _ _ => hR.fails s⟩
        · exact hR.fails s

theorem keeps_localGet (hR : Covers m R E) (i : Instruction) : Keeps R E (localGet i) := by
  refine .bind hR.toChains (.ofExcept hR.toChains _) fun _ => .get hR.toChains fun _ => ?_
  exact .bind hR.toChains (.ofExcept hR.toChains _) fun _ => keeps_push hR _

theorem keeps_localSet (hR : Covers m R E) (i : Instruction) : Keeps R E (localSet i) := by
  refine .bind hR.toChains (keeps_pop hR) fun _ => ?_
  refine .bind hR.toChains (.ofExcept hR.toChains _) fun _ => ?_
  exact .bind hR.toChains (keeps_setLocal hR _ _) fun _ => .pure hR.toChains _

theorem keeps_globalGet (hR : Covers m R E) (i : Instruction) : Keeps R E (globalGet m i) := by
  refine .bind hR.toChains (.ofExcept hR.toChains _) fun _ => .get hR.toChains fun _ => ?_
  exact .bind hR.toChains (.ofExcept hR.toChains _) fun _ => keeps_push hR _

theorem keeps_globalSet (hR : Covers m R E) (i : Instruction) : Keeps R E (globalSet m i) := by
  refine .bind hR.toChains (keeps_pop hR) fun _ => ?_
  exact .bind hR.toChains (.ofExcept hR.toChains _) fun _ => keeps_setGlobal hR _ _

/-! ### Instructions, bodies and native functions -/

theorem work?_keeps (hR : Covers m R E) {enter : UInt32 → Exec Unit}
    (henter : ∀ index, Keeps R E (enter index)) {opcode : Opcode} {work : Instruction → Exec Unit}
    (h : work? m enter opcode = some work) (i : Instruction) : Keeps R E (work i) := by
  have hC := hR.toChains
  unfold work? at h
  split at h
  -- one case for each line of the table
  · cases h
    exact .throw hC _
  · cases h
    exact .pure hC _
  · cases h
    exact .pure hC _
  · cases h
    exact .pure hC _
  · cases h
    exact .bind hC (.ofExcept hC _) henter
  · cases h
    exact .discard hC (keeps_pop hR)
  · cases h
    exact keeps_select hR
  · cases h
    exact keeps_localGet hR i
  · cases h
    exact .discard hC (keeps_localSet hR i)
  · cases h
    exact .bind hC (keeps_localSet hR i) fun _ => keeps_push hR _
  · cases h
    exact keeps_globalGet hR i
  · cases h
    exact keeps_globalSet hR i
  · cases h
    exact .bind hC (keeps_loadNumber hR i 4) fun _ => keeps_push hR _
  · cases h
    exact .bind hC (keeps_loadNumber hR i 4) fun _ => keeps_push hR _
  · cases h
    exact keeps_loadNarrow hR i _ _
  · cases h
    exact .bind hC (keeps_popAs hR _) fun _ => keeps_storeNumber hR i (by decide) _
  · cases h
    exact .bind hC (keeps_popAs hR _) fun _ => keeps_storeNumber hR i (by decide) _
  · cases h
    exact keeps_storeNarrow hR i _
  · cases h
    exact keeps_memorySize hR
  · cases h
    exact keeps_memoryGrow hR
  · cases h
    exact .bind hC (.ofExcept hC _) fun _ => keeps_push hR _
  · cases h
    exact .bind hC (keeps_popAs hR _) fun _ => keeps_push hR _
  · cases h
    exact keeps_compare hR _
  · cases h
    exact keeps_unary hR _
  · cases h
    exact keeps_binary hR _
  · cases h
    exact keeps_compareF32 hR _
  · obtain ⟨eval, -, rfl⟩ := Option.map_eq_some_iff.mp h
    exact keeps_unaryF32 hR eval
  · obtain ⟨eval, -, rfl⟩ := Option.map_eq_some_iff.mp h
    exact keeps_binaryF32 hR eval
  · cases h
    exact keeps_fromF32 hR _
  · cases h
    exact keeps_toF32 hR _
  · cases h
    exact keeps_fromF32 hR _
  · cases h
    exact keeps_toF32 hR _
  · cases h
    exact keeps_fromF32 hR _
  · cases h

theorem handler?_keeps (hR : Covers m R E) {enter : UInt32 → Exec Unit}
    (henter : ∀ index, Keeps R E (enter index)) {opcode : Opcode} {work : Instruction → Exec Flow}
    (h : handler? m enter opcode = some work) (i : Instruction) : Keeps R E (work i) := by
  unfold handler? at h
  split at h
  · cases h
    exact .pure hR.toChains _
  · obtain ⟨inner, hinner, rfl⟩ := Option.map_eq_some_iff.mp h
    exact .bind hR.toChains (work?_keeps hR henter hinner i) fun _ => .pure hR.toChains _

theorem keeps_note (hR : Covers m R E) (event : Event) : Keeps R E (note event) :=
  fun _ => hR.change (.note event)

theorem keeps_runBody (hR : Covers m R E) {enter : UInt32 → Exec Unit}
    (henter : ∀ index, Keeps R E (enter index)) (instructions : List Instruction) :
    Keeps R E (runBody m enter instructions) := by
  induction instructions with
  | nil => exact .pure hR.toChains _
  | cons i rest ih =>
    unfold runBody
    cases hwork : handler? m enter i.opcode with
    | none => exact .bind hR.toChains (keeps_note hR _) fun _ => .throw hR.toChains _
    | some work =>
      refine .bind hR.toChains (handler?_keeps hR henter hwork i) fun flow => ?_
      cases flow with
      | next => exact ih
      | leave => exact .pure hR.toChains _

/-- The same relation for faults; it is for actions whose fault is given as an answer. -/
theorem Covers.steady (hR : Covers m R E) : Covers m R R :=
  ⟨⟨hR.refl, hR.refl, hR.trans, hR.trans⟩, hR.change⟩

theorem keeps_observe {α : Type} {action : Exec α} (h : Keeps R R action) :
    Keeps R E action.observe := by
  intro s
  rw [ends_observe]
  exact h s

theorem keeps_native (hR : Covers m R E) (native : Native) : Keeps R E native.run := by
  have hC := hR.toChains
  induction native with
  | finish outcome => exact .ofExcept hC outcome
  | push value next ih => exact .bind hC (keeps_observe (keeps_push hR.steady value)) ih
  | pop next ih => exact .bind hC (keeps_observe (keeps_pop hR.steady)) ih
  | memorySize next ih => exact .get hC fun s => ih s.memory.size
  | readMemory start length next ih => exact .get hC fun s => ih (s.memory.bytes? start length)
  | writeMemory start bytes next ih =>
    intro s
    unfold Native.run
    rw [ends_bind, ends_get]
    cases hwrite : s.memory.overwrite? start bytes with
    | none => exact ih false s
    | some memory =>
      simp only [ends_bind, ends_modify]
      have hchange : R s { s with memory } := hR.change (.overwrite hwrite)
      exact (ih true _).mono (fun _ _ hs => hR.trans hchange hs)
        (fun _ _ hs => hR.trans_fails hchange hs)
  | readCell cell next ih => exact .get hC fun s => ih (s.host.cells.read cell)
  | writeCell cell bits next ih =>
    exact .bind hC (fun s => hR.change (.writeCell cell bits)) fun _ => ih
  | report entry next ih => exact .bind hC (fun s => hR.change (.report entry)) fun _ => ih

end BoundedWasm.Machine
