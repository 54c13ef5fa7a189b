import BoundedWasm.Proofs.Decode.Module
import BoundedWasm.Machine.Handler
import BoundedWasm.Proofs.Decode.Tables

/-!
# BoundedWasm.Proofs.Decode.Operands — decoded instructions have the immediates of their operations

Which immediates stand beside an operation is said by its kind (`ImmediateKind.Fits`).  The decoder
reads them by that kind, and the one immediate that is changed afterwards, the length of a block,
stays of its kind; so every instruction of a decoded module is `Shaped`.
-/

namespace BoundedWasm

open BoundedWasm.Action Limits

/-- The immediates of an instruction whose operation has immediates of the kind. -/
inductive ImmediateKind.Fits : ImmediateKind → Immediate → Immediate → Prop
  | none : Fits .none .none .none
  | index (n : UInt32) : Fits .index (.u32 n) .none
  | i32 (bits : BitVec 32) : Fits .i32 (.i32 bits) .none
  | i64 (bits : BitVec 64) : Fits .i64 (.i64 bits) .none
  | f32 (bits : BitVec 32) : Fits .f32 (.f32 bits) .none
  | f64 (bits : BitVec 64) : Fits .f64 (.f64 bits) .none
  | block (type : BlockType) (length : UInt32) : Fits .block (.block type) (.u32 length)
  | memArg (align offset : UInt32) : Fits .memArg (.u32 align) (.u32 offset)
  | callIndirect (type table : UInt32) : Fits .callIndirect (.u32 type) (.u32 table)
  | brTable (count default : UInt32) : Fits .brTable (.u32 count) (.u32 default)
  | reserved : Fits .reserved .none .none

/-- The immediates of the instruction are those of its operation. -/
def Instruction.Shaped (i : Instruction) : Prop := i.opcode.immediates.Fits i.first i.second

/-- Every instruction in the table is shaped. -/
def Module.Shaped (m : Module) : Prop := ∀ i ∈ m.instructions.toList, i.Shaped

namespace Instruction

variable {i : Instruction}

theorem Shaped.index_ok (h : i.Shaped) (hkind : i.opcode.immediates = .index) :
    ∃ index, i.index = .ok index := by
  obtain ⟨opcode, first, second⟩ := i
  unfold Shaped at h
  simp only [hkind] at h
  cases h with
  | index n => exact ⟨n, rfl⟩

theorem Shaped.memoryOffset_ok (h : i.Shaped) (hkind : i.opcode.immediates = .memArg) :
    ∃ offset, i.memoryOffset = .ok offset := by
  obtain ⟨opcode, first, second⟩ := i
  unfold Shaped at h
  simp only [hkind] at h
  cases h with
  | memArg align offset => exact ⟨offset, rfl⟩

theorem Shaped.constant_ok (h : i.Shaped) {type : ValueType} (hopcode : i.opcode = .const type) :
    ∃ value, Machine.constant i = .ok value := by
  obtain ⟨opcode, first, second⟩ := i
  unfold Shaped at h
  simp only at hopcode
  subst hopcode
  cases type with
  | i32 => cases h with | i32 bits => exact ⟨_, rfl⟩
  | i64 => cases h with | i64 bits => exact ⟨_, rfl⟩
  | f32 => cases h with | f32 bits => exact ⟨_, rfl⟩
  | f64 => cases h with | f64 bits => exact ⟨_, rfl⟩

/-- Only the opening of a block has a length that can be set. -/
theorem Shaped.close (h : i.Shaped) (hopens : i.opcode.opensBlock = true) (length : UInt32) :
    ({ i with second := .u32 length } : Instruction).Shaped := by
  obtain ⟨opcode, first, second⟩ := i
  unfold Shaped at *
  cases opcode with
  | block => cases h with | block type _ => exact .block type length
  | loop => cases h with | block type _ => exact .block type length
  | ifThen => cases h with | block type _ => exact .block type length
  | _ => cases hopens

end Instruction

/-! ### Reading instructions -/

namespace Parser

theorem immediates_yields (opcode : Opcode) :
    Yields (fun found => opcode.immediates.Fits found.1 found.2) (immediates opcode) := by
  unfold immediates
  cases opcode.immediates with
  | none => exact yields_pure .none
  | index => exact yields_after fun n => yields_pure (.index n)
  | i32 => exact yields_after fun bits => yields_pure (.i32 bits)
  | i64 => exact yields_after fun bits => yields_pure (.i64 bits)
  | f32 => exact yields_after fun bits => yields_pure (.f32 bits)
  | f64 => exact yields_after fun bits => yields_pure (.f64 bits)
  | block => exact yields_after fun type => yields_pure (.block type 0)
  | memArg => exact yields_after fun align => yields_after fun offset => yields_pure (.memArg _ _)
  | callIndirect =>
    exact yields_after fun type => yields_after fun table => yields_pure (.callIndirect _ _)
  | brTable =>
    exact yields_after fun count => yields_after fun _ => yields_after fun _ =>
      yields_pure (.brTable _ _)
  | reserved =>
    refine yields_after fun byte => ?_
    show Yields _ (if byte ≠ 0 then _ else _)
    split
    · exact yields_throw _
    · exact yields_pure .reserved

theorem instruction_yields : Yields Instruction.Shaped instruction :=
  yields_after fun opcode => (immediates_yields opcode).bind fun _ hfits => yields_pure hfits

end Parser

namespace Body

variable {cap : Nat}

/-- Every instruction in the table is shaped, and blocks are open only where they were opened. -/
structure Orderly (opened : List Nat) (b : Body cap) : Prop where
  shaped : ∀ i ∈ b.pool.toList, i.Shaped
  opens : ∀ opening ∈ opened, ∀ i, b.pool.get? opening = some i → i.opcode.opensBlock = true

theorem Orderly.put {opened : List Nat} {b : Body cap} (h : b.Orderly opened)
    (hroom : b.pool.length < cap) {next : Instruction} (hnext : next.Shaped)
    (hopened : ∀ opening ∈ opened, opening < b.pool.length) :
    Orderly opened { b with pool := b.pool.put next } := by
  refine ⟨?_, fun opening ho i hi => ?_⟩
  · exact Module.forall_mem_concat (FixedVec.toList_put_of_lt hroom next) h.shaped hnext
  · refine h.opens opening ho i ?_
    rw [FixedVec.get?_eq, FixedVec.toList_put_of_lt hroom,
      List.getElem?_append_left (by rw [FixedVec.length_toList]; exact hopened opening ho)] at hi
    rw [FixedVec.get?_eq]
    exact hi

theorem Orderly.close_ends {opening ending : Nat} {outer : List Nat} {b : Body cap}
    (h : b.Orderly (opening :: outer)) :
    (close opening ending).Ends b
      (fun _ b' => b'.Orderly outer ∧ b'.pool.length = b.pool.length) (fun _ _ => True) := by
  unfold close
  rw [ends_modify]
  cases hfound : b.pool.get? opening with
  | none => exact ⟨⟨h.shaped, fun o ho => h.opens o (List.mem_cons_of_mem _ ho)⟩, rfl⟩
  | some i =>
    have hopens : i.opcode.opensBlock = true := h.opens opening List.mem_cons_self i hfound
    have hi : i.Shaped := by
      rw [FixedVec.get?_eq] at hfound
      exact h.shaped i (List.mem_of_getElem? hfound)
    refine ⟨⟨fun j hj => ?_, fun o ho j hj => ?_⟩, FixedVec.length_set _ _ _⟩
    · simp only [FixedVec.toList_set] at hj
      rcases List.mem_or_eq_of_mem_set hj with hj | rfl
      · exact h.shaped j hj
      · exact hi.close hopens _
    · have hold := h.opens o (List.mem_cons_of_mem _ ho)
      simp only [FixedVec.get?_eq, FixedVec.toList_set, List.getElem?_set] at hj hold
      split at hj
      · split at hj
        · cases hj
          exact hopens
        · cases hj
      · exact hold j hj

theorem ends_reading_of {α : Type} {P : α → Prop} {p : Parser α} (hp : p.Yields P) {b : Body cap}
    {Q : α → Body cap → Prop} (h : ∀ a r, P a → Q a { b with reader := r }) :
    (reading p).Ends b Q (fun _ _ => True) := by
  unfold reading
  rw [ends_onPart]
  exact (hp b.reader).mono (fun a r ha => h a r ha) (fun _ _ => id)

theorem instructions_orderly (room : Nat) (opened : List Nat) (b : Body cap)
    (hroom : b.pool.length + room = cap) (h : b.Orderly opened)
    (hopened : ∀ opening ∈ opened, opening < b.pool.length) :
    (instructions room opened).Ends b (fun _ b' => b'.Orderly []) (fun _ _ => True) := by
  induction room generalizing opened b with
  | zero =>
    unfold instructions
    rw [ends_bind]
    exact ends_reading (fun _ _ => trivial) (fun _ _ => trivial)
  | succ room ih =>
    unfold instructions
    rw [ends_bind]
    refine ends_reading_of Parser.instruction_yields fun next r hnext => ?_
    have hlt : b.pool.length < cap := by omega
    have hput : Orderly opened { b with reader := r, pool := b.pool.put next } :=
      Orderly.put (b := { b with reader := r }) ⟨h.shaped, h.opens⟩ hlt hnext hopened
    have hlength : (b.pool.put next).length = b.pool.length + 1 := by
      rw [FixedVec.length_put, if_pos hlt]
    have hroom' : (b.pool.put next).length + room = cap := by omega
    have hopened' : ∀ opening ∈ opened, opening < (b.pool.put next).length := fun o ho => by
      have := hopened o ho
      omega
    simp only [place, ends_bind, ends_get, ends_modify, ends_pure]
    split
    · rename_i hopens
      split
      · refine ih _ _ hroom' ⟨hput.shaped, fun o ho i hi => ?_⟩ fun o ho => ?_
        · rcases List.mem_cons.mp ho with rfl | ho
          · -- the block that was just opened is the last in the table
            simp only [FixedVec.get?_eq, FixedVec.toList_put_of_lt hlt] at hi
            rw [← FixedVec.length_toList b.pool, List.getElem?_concat_length] at hi
            cases hi
            exact hopens
          · exact hput.opens o ho i hi
        · rcases List.mem_cons.mp ho with rfl | ho
          · show b.pool.length < (b.pool.put next).length
            omega
          · exact hopened' o ho
      · trivial
    · split
      · cases opened with
        | nil => exact hput
        | cons opening outer =>
          rw [ends_bind]
          refine hput.close_ends.mono ?_ (fun _ _ => id)
          rintro _ b' ⟨hb', hlength'⟩
          refine ih _ _ (by rw [hlength']; exact hroom') hb' fun o ho => ?_
          rw [hlength']
          exact hopened' o (List.mem_cons_of_mem _ ho)
      · exact ih _ _ hroom' hput hopened'

theorem expression_shaped (b : Body cap) (h : ∀ i ∈ b.pool.toList, i.Shaped) :
    expression.Ends b (fun _ b' => ∀ i ∈ b'.pool.toList, i.Shaped) (fun _ _ => True) := by
  unfold expression
  simp only [ends_bind, ends_get, ends_pure]
  have hroom : b.pool.length + b.pool.free = cap := by
    have := b.pool.length_le
    rw [FixedVec.free]
    omega
  refine (instructions_orderly b.pool.free [] b hroom ⟨h, ?_⟩ ?_).mono (fun _ b' hb' => hb'.shaped)
    (fun _ _ => id)
  · intro opening ho
    cases ho
  · intro opening ho
    cases ho

end Body

/-! ### Sections -/

namespace Draft

theorem codeSection_shaped : Maintains Module.Shaped codeSection := by
  intro d hd
  unfold codeSection
  rw [ends_bind, ends_get, ends_bind]
  refine ends_reading (Parser.yields_any _) fun count r _ => ?_
  simp only
  split
  · trivial
  refine maintains_times (fun d hd => ?_) count _ hd
  rw [ends_bind]
  refine ends_reading (Parser.yields_any _) fun size r _ => ?_
  rw [ends_bind]
  refine ends_reading (Parser.yields_any _) fun part r _ => within_maintains (fun d hd => ?_) part _
    hd
  unfold code
  rw [ends_bind]
  refine ends_reading (Parser.yields_any _) fun groups r _ => ?_
  rw [ends_bind, ends_ofExcept]
  refine ⟨fun locals _ => ?_, fun _ _ => trivial⟩
  rw [ends_bind]
  refine ends_onBody (Body.expression_shaped ⟨r, d.module.instructions⟩ hd) ?_
  rintro ⟨start, length⟩ b hb
  simp only [ends_bind, ends_get]
  split
  · trivial
  · refine ends_update fun m' hm' => ?_
    obtain ⟨w, -, rfl⟩ := Module.grow_ok
      (fun codes => { d.module with instructions := b.pool, codes }) hm'
    exact hb

/-- Sections other than that of bodies have nothing to do with the table of instructions. -/
theorem instructions_of_touches {id : SectionId} (hid : id ≠ .code) {d d' : Draft}
    (h : Touches id d d') : d'.module.instructions = d.module.instructions := by
  have hsame := congrArg Module.instructions h
  cases id with
  | code => exact absurd rfl hid
  | _ => exact hsame

theorem contents_shaped (id : SectionId) : Maintains Module.Shaped (contents id) := by
  by_cases hid : id = .code
  · rw [hid]
    exact codeSection_shaped
  · intro d hd
    refine (contents_touches id d).mono (fun _ d' h => ?_) (fun _ _ _ => trivial)
    unfold Module.Shaped
    rw [instructions_of_touches hid h]
    exact hd

end Draft

theorem Decoding.shaped_invariant : Invariant fun _ d => d.module.Shaped where
  of_module h hmodule _ := by rwa [hmodule]
  contents_ends {found _ d} h _ := by
    refine ends_contents (P := Module.Shaped) ?_ fun _ _ hm => ⟨hm, rfl⟩
    exact Draft.contents_shaped found.id ⟨.ofBytes found.payload, d.module⟩ h

/-- Every instruction of a decoded module has the immediates of its operation. -/
theorem Module.shaped_of_decoded {bytes : List UInt8} {m : Module}
    (h : Module.ofBytes bytes = .ok m) : m.Shaped := by
  have hempty : Module.empty.Shaped := fun i hi => by
    simp [Module.empty] at hi
  obtain ⟨_, d, hshaped, -, rfl⟩ := Decoding.shaped_invariant.of_decoded (fun _ => hempty) h
  exact hshaped

end BoundedWasm
