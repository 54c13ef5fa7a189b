import BoundedWasm.Proofs.Machine.Frame

/-!
# BoundedWasm.Proofs.Machine.Alike — two machines that an activation cannot tell apart

`AlikeFrom operands window s t` says that two machines agree on all but the lower operands and the
lower locals, `Alike s t` that the running activation cannot see where they differ: its operands lie
above its base and its locals in its window.  An action is `Parallel` when from two such machines it
ends with the same answer or the same fault, and they are alike again.  One rule for each way to put
actions together, one lemma for each operation.
-/

namespace BoundedWasm

open BoundedWasm.Action Limits

/-! ### Memories with the same contents -/

namespace LinearMemory

variable {a b : LinearMemory}

theorem toList_eq_take (a : LinearMemory) : a.toList = a.buffer.toList.take a.size := by
  rw [toList, Array.toList_extract, List.extract_eq_take_drop, List.drop_zero, Nat.sub_zero]

theorem length_toList (a : LinearMemory) : a.toList.length = a.size := by
  rw [toList_eq_take, List.length_take, Array.length_toList, Nat.min_eq_left a.size_le]

theorem size_eq_of_toList (h : b.toList = a.toList) : b.size = a.size := by
  rw [← length_toList, h, length_toList]

/-- A stretch inside the memory is a stretch of its contents. -/
theorem extract_congr (h : b.toList = a.toList) {start stop : Nat} (hstop : stop ≤ a.size) :
    (b.buffer.extract start stop).toList = (a.buffer.extract start stop).toList := by
  have hstretch : ∀ c : LinearMemory, stop ≤ c.size →
      (c.buffer.extract start stop).toList = (c.toList.drop start).take (stop - start) := by
    intro c hc
    rw [toList_eq_take, Array.toList_extract, List.extract_eq_take_drop, List.drop_take,
      List.take_take, Nat.min_eq_left (by omega)]
  rw [hstretch a hstop, hstretch b (by rwa [size_eq_of_toList h]), h]

theorem take_writeBytes {buffer buffer' : Array UInt8} {count : Nat}
    (h : buffer'.toList.take count = buffer.toList.take count) (start : Nat) (bytes : List UInt8) :
    (writeBytes buffer' start bytes).toList.take count
      = (writeBytes buffer start bytes).toList.take count := by
  induction bytes generalizing buffer buffer' start with
  | nil => exact h
  | cons byte bytes ih =>
    refine ih ?_ (start + 1)
    rw [Array.toList_setIfInBounds, Array.toList_setIfInBounds, List.take_set, List.take_set, h]

theorem write_congr (h : b.toList = a.toList) (start : Nat) (bytes : List UInt8) :
    (b.write start bytes).toList = (a.write start bytes).toList := by
  have hsize := size_eq_of_toList h
  rw [toList_eq_take, toList_eq_take, hsize] at h
  rw [toList_eq_take, toList_eq_take]
  show (writeBytes b.buffer start bytes).toList.take b.size = _
  rw [hsize]
  exact take_writeBytes h start bytes

theorem bytes?_congr (h : b.toList = a.toList) (start length : Nat) :
    b.bytes? start length = a.bytes? start length := by
  unfold bytes?
  rw [size_eq_of_toList h]
  split
  · exact congrArg some (extract_congr h ‹_›)
  · rfl

theorem overwrite?_congr (h : b.toList = a.toList) (start : Nat) (bytes : List UInt8) :
    Option.Rel (fun a b => b.toList = a.toList) (a.overwrite? start bytes)
      (b.overwrite? start bytes) := by
  unfold overwrite?
  rw [size_eq_of_toList h]
  split
  · exact .some (write_congr h start bytes)
  · exact .none

theorem load_congr (h : b.toList = a.toList) (width : Nat) (address offset : UInt32) :
    b.load width address offset = a.load width address offset := by
  unfold load
  rw [size_eq_of_toList h]
  cases hrange : effectiveRange a.size address offset (UInt64.ofNat width) with
  | error fault => rfl
  | ok range =>
    have hstop : range.2 ≤ a.size := by
      unfold effectiveRange at hrange
      simp only at hrange
      split at hrange
      · cases hrange
      · cases hrange
        omega
    exact congrArg Except.ok (extract_congr h hstop)

/-- Where a store ends in one of them. -/
theorem store_congr (h : b.toList = a.toList) (address offset : UInt32) (bytes : List UInt8) :
    (∃ fault, a.store address offset bytes = .error fault ∧
      b.store address offset bytes = .error fault) ∨
    ∃ a' b', a.store address offset bytes = .ok a' ∧ b.store address offset bytes = .ok b' ∧
      b'.toList = a'.toList := by
  unfold store
  rw [size_eq_of_toList h]
  cases effectiveRange a.size address offset (UInt64.ofNat bytes.length) with
  | error fault => exact .inl ⟨fault, rfl, rfl⟩
  | ok range => exact .inr ⟨_, _, rfl, rfl, write_congr h range.1 bytes⟩

end LinearMemory

namespace Machine

variable {m : Module} {s t s' t' : Machine} {α β : Type}

/-! ### Machines that are alike -/

/-- Two machines of the same shape that agree on the operands from `operands` on, on the locals from
`window` on, and on all that is shared. -/
structure AlikeFrom (operands window : Nat) (s t : Machine) : Prop where
  frame : t.frame = s.frame
  depth : t.depth = s.depth
  poisoned : t.poisoned = s.poisoned
  height : t.stack.length = s.stack.length
  stack : t.stack.toList.drop operands = s.stack.toList.drop operands
  length_locals : t.locals.length = s.locals.length
  locals : t.locals.toList.drop window = s.locals.toList.drop window
  globals : t.globals.toList = s.globals.toList
  memory : t.memory.toList = s.memory.toList
  cells : ∀ cell, t.host.cells.read cell = s.host.cells.read cell

variable {operands window : Nat}

theorem AlikeFrom.symm (h : AlikeFrom operands window s t) : AlikeFrom operands window t s where
  frame := h.frame.symm
  depth := h.depth.symm
  poisoned := h.poisoned.symm
  height := h.height.symm
  stack := h.stack.symm
  length_locals := h.length_locals.symm
  locals := h.locals.symm
  globals := h.globals.symm
  memory := h.memory.symm
  cells cell := (h.cells cell).symm

/-- Machines that agree from somewhere on agree from any higher place on. -/
theorem AlikeFrom.mono (h : AlikeFrom operands window s t) {operands' window' : Nat}
    (hoperands : operands ≤ operands') (hwindow : window ≤ window') :
    AlikeFrom operands' window' s t := by
  have hdrop : ∀ {xs ys : List Value} {low high : Nat}, xs.drop low = ys.drop low → low ≤ high →
      xs.drop high = ys.drop high := by
    intro xs ys low high heq hle
    rw [← Nat.add_sub_cancel' hle, ← List.drop_drop, heq, List.drop_drop]
  exact { h with stack := hdrop h.stack hoperands, locals := hdrop h.locals hwindow }

/-- The running activation cannot tell the machines apart. -/
structure Alike (s t : Machine) : Prop
    extends AlikeFrom s.frame.stackBase s.frame.localsBase s t where
  framed : s.Framed

/-! ### Two runs -/

/-- Two runs end with the same answer or the same fault, in related machines. -/
inductive Together (R : Machine → Machine → Prop) :
    EStateM.Result Fault Machine α → EStateM.Result Fault Machine α → Prop
  | ok (a : α) {s' t' : Machine} (h : R s' t') : Together R (.ok a s') (.ok a t')
  | error (fault : Fault) {s' t' : Machine} (h : R s' t') :
    Together R (.error fault s') (.error fault t')

theorem Together.mono {R R' : Machine → Machine → Prop} {x y : EStateM.Result Fault Machine α}
    (h : Together R x y) (hR : ∀ s' t', R s' t' → R' s' t') : Together R' x y := by
  cases h with
  | ok a h => exact .ok a (hR _ _ h)
  | error fault h => exact .error fault (hR _ _ h)

theorem Together.endings {R : Machine → Machine → Prop} {x y : EStateM.Result Fault Machine α}
    (h : Together R x y) :
    (∃ fault s' t', x = .error fault s' ∧ y = .error fault t' ∧ R s' t') ∨
      ∃ a s' t', x = .ok a s' ∧ y = .ok a t' ∧ R s' t' := by
  cases h with
  | ok a h => exact .inr ⟨a, _, _, rfl, rfl, h⟩
  | error fault h => exact .inl ⟨fault, _, _, rfl, rfl, h⟩

/-- Started in machines that the running activation cannot tell apart, the action ends alike. -/
def Parallel (action : Exec α) : Prop := ∀ s t, Alike s t → Together Alike (action s) (action t)

namespace Parallel

theorem pure (a : α) : Parallel (Pure.pure a : Exec α) := fun _ _ h => .ok a h

theorem throw (fault : Fault) : Parallel (MonadExcept.throw fault : Exec α) :=
  fun _ _ h => .error fault h

theorem ofExcept (answer : Except Fault α) : Parallel (Action.ofExcept answer : Exec α) := by
  cases answer with
  | ok a => exact .pure a
  | error fault => exact .throw fault

theorem bind {action : Exec α} {next : α → Exec β} (h : Parallel action)
    (hnext : ∀ a, Parallel (next a)) : Parallel (action >>= next) := by
  intro s t hst
  have hends := h s t hst
  rw [bind_run, bind_run]
  generalize action s = x at hends
  generalize action t = y at hends
  cases hends with
  | ok a h' => exact hnext a _ _ h'
  | error fault h' => exact .error fault h'

theorem get {next : Machine → Exec β}
    (hnext : ∀ s t, Alike s t → Together Alike (next s s) (next t t)) :
    Parallel (MonadState.get >>= next) := hnext

theorem update {f : Machine → Machine} (h : ∀ s t, Alike s t → Alike (f s) (f t)) :
    Parallel (modify f : Exec Unit) := fun s t hst => .ok () (h s t hst)

theorem discard {action : Exec α} (h : Parallel action) : Parallel (Functor.discard action) :=
  .bind h fun _ => .pure _

theorem ite {c : Prop} [Decidable c] {action other : Exec α} (h : Parallel action)
    (hother : Parallel other) : Parallel (if c then action else other) := by
  split
  · exact h
  · exact hother

theorem observe {action : Exec α} (h : Parallel action) : Parallel action.observe := by
  intro s t hst
  have hends := h s t hst
  unfold Action.observe
  generalize action s = x at hends
  generalize action t = y at hends
  cases hends with
  | ok a h' => exact .ok _ h'
  | error fault h' => exact .ok _ h'

end Parallel

/-! ### The operand stack -/

theorem parallel_push (value : Value) : Parallel (push value) := by
  intro s t h
  have hbase := h.framed.stackBase_le
  unfold push
  rw [h.height]
  by_cases hlt : s.stack.length < maxOperandStack
  · rw [if_pos hlt, if_pos hlt]
    have hlt' : t.stack.length < maxOperandStack := by rwa [h.height]
    refine .ok () ⟨{ h with height := ?_, stack := ?_ }, ?_, h.framed.locals_length⟩
    · show (t.stack.put value).length = (s.stack.put value).length
      rw [FixedVec.length_put, FixedVec.length_put, h.height]
    · show (t.stack.put value).toList.drop _ = (s.stack.put value).toList.drop _
      rw [FixedVec.toList_put_of_lt hlt, FixedVec.toList_put_of_lt hlt',
        List.drop_append_of_le_length (by rwa [FixedVec.length_toList, h.height]),
        List.drop_append_of_le_length (by rwa [FixedVec.length_toList]), h.stack]
    · show s.frame.stackBase ≤ (s.stack.put value).length
      rw [FixedVec.length_put, if_pos hlt]
      omega
  · rw [if_neg hlt, if_neg hlt]
    exact .error _ h

/-- Both machines have the same value on top, or none. -/
theorem Alike.top_run (h : Alike s t) :
    (∃ fault, top s = .error fault s ∧ top t = .error fault t) ∨
    ∃ value, top s = .ok value s ∧ top t = .ok value t ∧
      Alike { s with stack := s.stack.pop } { t with stack := t.stack.pop } := by
  have hframe : t.frame.stackBase = s.frame.stackBase := by rw [h.frame]
  unfold top
  rw [h.height, hframe]
  by_cases hle : s.stack.length ≤ s.frame.stackBase
  · rw [if_pos hle, if_pos hle]
    exact .inl ⟨_, rfl, rfl⟩
  rw [if_neg hle, if_neg hle]
  have hlast : t.stack.last? = s.stack.last? := by
    have hdrop := congrArg List.getLast? h.stack
    rw [List.getLast?_drop, List.getLast?_drop, FixedVec.length_toList, FixedVec.length_toList,
      h.height, if_neg hle, if_neg hle] at hdrop
    rw [FixedVec.last?_eq, FixedVec.last?_eq, hdrop]
  rw [hlast]
  cases s.stack.last? with
  | none => exact .inl ⟨_, rfl, rfl⟩
  | some value =>
    refine .inr ⟨value, rfl, rfl, { h with height := ?_, stack := ?_ }, ?_, h.framed.locals_length⟩
    · show t.stack.pop.length = s.stack.pop.length
      rw [FixedVec.length_pop, FixedVec.length_pop, h.height]
    · show t.stack.pop.toList.drop _ = s.stack.pop.toList.drop _
      rw [FixedVec.toList_pop, FixedVec.toList_pop, List.dropLast_eq_take, List.dropLast_eq_take,
        List.drop_take, List.drop_take, FixedVec.length_toList, FixedVec.length_toList, h.height,
        h.stack]
    · show s.frame.stackBase ≤ s.stack.pop.length
      rw [FixedVec.length_pop]
      omega

theorem parallel_pop : Parallel pop := by
  intro s t h
  unfold pop
  rw [bind_run, bind_run]
  rcases h.top_run with ⟨fault, hs, ht⟩ | ⟨value, hs, ht, hpopped⟩
  · rw [hs, ht]
    exact .error fault h
  · rw [hs, ht]
    exact .ok value hpopped

theorem parallel_popAs (read : Value → Except Fault α) : Parallel (popAs read) := by
  intro s t h
  unfold popAs
  rw [bind_run, bind_run]
  rcases h.top_run with ⟨fault, hs, ht⟩ | ⟨value, hs, ht, hpopped⟩
  · rw [hs, ht]
    exact .error fault h
  · rw [hs, ht]
    cases hread : read value with
    | error fault =>
      simp only [hread]
      exact .error fault h
    | ok a =>
      simp only [hread]
      exact .ok a hpopped

theorem parallel_pushed {action : Exec α} (h : Parallel action) (value : α → Value) :
    Parallel (action >>= fun a => push (value a)) := .bind h fun _ => parallel_push _

theorem parallel_select : Parallel select := by
  refine .bind (parallel_popAs _) fun condition => ?_
  refine .bind parallel_pop fun second => .bind parallel_pop fun first => ?_
  exact .ite (.throw _) (parallel_push _)

/-! ### Operand patterns -/

theorem parallel_unary (eval : BitVec 32 → BitVec 32) : Parallel (unary eval) :=
  parallel_pushed (parallel_popAs _) _

theorem parallel_binary (eval : BitVec 32 → BitVec 32 → Except Fault (BitVec 32)) :
    Parallel (binary eval) :=
  .bind (parallel_popAs _) fun _ => .bind (parallel_popAs _) fun _ =>
    parallel_pushed (.ofExcept _) _

theorem parallel_compare (holds : BitVec 32 → BitVec 32 → Bool) : Parallel (compare holds) :=
  .bind (parallel_popAs _) fun _ => parallel_pushed (parallel_popAs _) _

theorem parallel_unaryF32 (eval : BitVec 32 → BitVec 32) : Parallel (unaryF32 eval) :=
  parallel_pushed (parallel_popAs _) _

theorem parallel_binaryF32 (eval : BitVec 32 → BitVec 32 → BitVec 32) :
    Parallel (binaryF32 eval) :=
  .bind (parallel_popAs _) fun _ => parallel_pushed (parallel_popAs _) _

theorem parallel_compareF32 (holds : BitVec 32 → BitVec 32 → Bool) :
    Parallel (compareF32 holds) :=
  .bind (parallel_popAs _) fun _ => parallel_pushed (parallel_popAs _) _

theorem parallel_fromF32 (eval : BitVec 32 → Except Fault (BitVec 32)) :
    Parallel (fromF32 eval) :=
  .bind (parallel_popAs _) fun _ => parallel_pushed (.ofExcept _) _

theorem parallel_toF32 (eval : BitVec 32 → BitVec 32) : Parallel (toF32 eval) :=
  parallel_pushed (parallel_popAs _) _

/-! ### Memory -/

theorem parallel_memorySize : Parallel memorySize := .get fun s t h => by
  rw [LinearMemory.size_eq_of_toList h.memory]
  exact parallel_push _ s t h

theorem parallel_loadNumber (i : Instruction) (width : Nat) : Parallel (loadNumber i width) := by
  refine .bind (.ofExcept _) fun offset => .bind (parallel_popAs _) fun address => ?_
  refine .get fun s t h => ?_
  rw [LinearMemory.load_congr h.memory]
  exact Parallel.bind (.ofExcept _) (fun bytes => .pure _) s t h

theorem Alike.setMemory (h : Alike s t) {memory memory' : LinearMemory}
    (hmemory : memory'.toList = memory.toList) :
    Alike { s with memory } { t with memory := memory' } :=
  ⟨{ h with memory := hmemory }, h.framed.stackBase_le, h.framed.locals_length⟩

theorem parallel_storeNumber (i : Instruction) (width n : Nat) :
    Parallel (storeNumber i width n) := by
  refine .bind (.ofExcept _) fun offset => .bind (parallel_popAs _) fun address => ?_
  refine .get fun s t h => ?_
  rcases LinearMemory.store_congr h.memory (UInt32.ofBitVec address) offset
    (Bytes.toLittleEndian width n) with ⟨fault, hs, ht⟩ | ⟨memory, memory', hs, ht, hsame⟩
  · rw [hs, ht]
    exact .error fault h
  · rw [hs, ht]
    exact .ok () (h.setMemory hsame)

theorem parallel_loadNarrow (i : Instruction) (part : Narrow32) (sign : Sign) :
    Parallel (loadNarrow i part sign) :=
  .bind (parallel_loadNumber i _) fun _ => parallel_push _

theorem parallel_storeNarrow (i : Instruction) (part : Narrow32) :
    Parallel (storeNarrow i part) := by
  refine .bind (parallel_popAs _) fun value => ?_
  cases part with
  | bits8 => exact parallel_storeNumber i 1 _
  | bits16 => exact parallel_storeNumber i 2 _

/-! ### Variables -/

/-- The local that an index refers to in the running activation lies in its window. -/
theorem Alike.get?_local (h : Alike s t) {index : UInt32} {slot : Nat}
    (hslot : s.frame.localSlot? index = some slot) : t.locals.get? slot = s.locals.get? slot := by
  obtain ⟨rfl, -⟩ := localSlot?_eq_some h.framed hslot
  have hlocal := congrArg (·[index.toNat]?) h.locals
  simp only [List.getElem?_drop] at hlocal
  rw [FixedVec.get?_eq, FixedVec.get?_eq, hlocal]

theorem Alike.localValue_eq (h : Alike s t) (index : UInt32) :
    t.localValue index = s.localValue index := by
  unfold localValue
  rw [h.frame]
  cases hslot : s.frame.localSlot? index with
  | none => rfl
  | some slot => rw [Option.bind_some, Option.bind_some, h.get?_local hslot]

/-- A value that is the same in machines that are alike is pushed in both. -/
theorem parallel_indexed (read : Machine → UInt32 → Except Fault Value)
    (hread : ∀ s t, Alike s t → ∀ index, read t index = read s index) (i : Instruction) :
    Parallel (do
      let index ← Action.ofExcept i.index
      push (← Action.ofExcept (read (← MonadState.get) index))) := by
  refine .bind (.ofExcept _) fun index => .get fun s t h => ?_
  rw [hread s t h]
  exact parallel_pushed (.ofExcept _) id s t h

theorem parallel_localGet (i : Instruction) : Parallel (localGet i) :=
  parallel_indexed localValue (fun _ _ h => h.localValue_eq) i

theorem parallel_setLocal (index : UInt32) (value : Value) : Parallel (setLocal index value) := by
  intro s t h
  have hframe : t.frame.localSlot? index = s.frame.localSlot? index := by rw [h.frame]
  unfold setLocal
  rw [hframe]
  cases hslot : s.frame.localSlot? index with
  | none => exact .error _ h
  | some slot =>
    simp only [h.get?_local hslot]
    cases s.locals.get? slot with
    | none => exact .error _ h
    | some old =>
      by_cases htype : old.type = value.type
      · simp only [if_pos htype]
        obtain ⟨rfl, -⟩ := localSlot?_eq_some h.framed hslot
        have hlocals : (t.locals.set (s.frame.localsBase + index.toNat) value).toList.drop
              s.frame.localsBase
            = (s.locals.set (s.frame.localsBase + index.toNat) value).toList.drop
              s.frame.localsBase := by
          rw [FixedVec.toList_set, FixedVec.toList_set, List.drop_set, List.drop_set, h.locals]
        refine .ok () ⟨{ h with length_locals := ?_, locals := hlocals },
          h.framed.stackBase_le, ?_⟩
        · show (t.locals.set _ value).length = (s.locals.set _ value).length
          rw [FixedVec.length_set, FixedVec.length_set, h.length_locals]
        · show _ = (s.locals.set _ value).length
          rw [FixedVec.length_set]
          exact h.framed.locals_length
      · simp only [if_neg htype]
        exact .error _ h

theorem parallel_localSet (i : Instruction) : Parallel (localSet i) :=
  .bind parallel_pop fun value => .bind (.ofExcept _) fun index =>
    .bind (parallel_setLocal index value) fun _ => .pure value

theorem Alike.globalValue_eq (h : Alike s t) (m : Module) (index : UInt32) :
    t.globalValue m index = s.globalValue m index := by
  unfold globalValue
  cases m.global? index with
  | none => rfl
  | some global =>
    cases global with
    | defined position => simp only [FixedVec.get?_eq, h.globals]
    | imported position type => simp only [h.cells]

theorem parallel_globalGet (m : Module) (i : Instruction) : Parallel (globalGet m i) :=
  parallel_indexed (globalValue m) (fun _ _ h => h.globalValue_eq m) i

theorem Alike.writeCell (h : Alike s t) (id : CellId) (bits : BitVec 32) :
    Alike { s with host := { s.host with cells := s.host.cells.write id bits } }
      { t with host := { t.host with cells := t.host.cells.write id bits } } := by
  refine ⟨{ h with cells := fun cell => ?_ }, h.framed.stackBase_le, h.framed.locals_length⟩
  show (t.host.cells.write id bits).read cell = (s.host.cells.write id bits).read cell
  rw [Cells.read_write, Cells.read_write, h.cells]

theorem parallel_setGlobal (m : Module) (index : UInt32) (value : Value) :
    Parallel (setGlobal m index value) := by
  unfold setGlobal
  split
  · exact .throw _
  · split
    · exact .throw _
    · split
      · exact .throw _
      · refine .get fun s t h => ?_
        have hlength := FixedVec.length_eq_of_toList h.globals
        rw [hlength]
        refine Parallel.ite (.update fun s t h => ?_) (.throw _) s t h
        refine ⟨{ h with globals := ?_ }, h.framed.stackBase_le, h.framed.locals_length⟩
        show (t.globals.set _ value).toList = (s.globals.set _ value).toList
        rw [FixedVec.toList_set, FixedVec.toList_set, h.globals]
  · split
    · exact .throw _
    · split
      · exact .bind (.ofExcept _) fun bits => .update fun s t h => h.writeCell _ bits
      · exact .throw _

theorem parallel_globalSet (m : Module) (i : Instruction) : Parallel (globalSet m i) :=
  .bind parallel_pop fun value => .bind (.ofExcept _) fun index => parallel_setGlobal m index value

/-! ### Instructions and bodies -/

theorem work?_parallel {enter : UInt32 → Exec Unit} (henter : ∀ index, Parallel (enter index))
    {opcode : Opcode} {work : Instruction → Exec Unit} (h : work? m enter opcode = some work)
    (i : Instruction) : Parallel (work i) := by
  unfold work? at h
  split at h
  -- one case for each line of the table
  · cases h
    exact .throw _
  · cases h
    exact .pure _
  · cases h
    exact .pure _
  · cases h
    exact .pure _
  · cases h
    exact .bind (.ofExcept _) henter
  · cases h
    exact .discard parallel_pop
  · cases h
    exact parallel_select
  · cases h
    exact parallel_localGet i
  · cases h
    exact .discard (parallel_localSet i)
  · cases h
    exact parallel_pushed (parallel_localSet i) id
  · cases h
    exact parallel_globalGet m i
  · cases h
    exact parallel_globalSet m i
  · cases h
    exact parallel_pushed (parallel_loadNumber i 4) _
  · cases h
    exact parallel_pushed (parallel_loadNumber i 4) _
  · cases h
    exact parallel_loadNarrow i _ _
  · cases h
    exact .bind (parallel_popAs _) fun _ => parallel_storeNumber i 4 _
  · cases h
    exact .bind (parallel_popAs _) fun _ => parallel_storeNumber i 4 _
  · cases h
    exact parallel_storeNarrow i _
  · cases h
    exact parallel_memorySize
  · cases h
    exact parallel_pushed (parallel_popAs _) _
  · cases h
    exact parallel_pushed (.ofExcept _) id
  · cases h
    exact parallel_pushed (parallel_popAs _) _
  · cases h
    exact parallel_compare _
  · cases h
    exact parallel_unary _
  · cases h
    exact parallel_binary _
  · cases h
    exact parallel_compareF32 _
  · obtain ⟨eval, -, rfl⟩ := Option.map_eq_some_iff.mp h
    exact parallel_unaryF32 eval
  · obtain ⟨eval, -, rfl⟩ := Option.map_eq_some_iff.mp h
    exact parallel_binaryF32 eval
  · cases h
    exact parallel_fromF32 _
  · cases h
    exact parallel_toF32 _
  · cases h
    exact parallel_fromF32 _
  · cases h
    exact parallel_toF32 _
  · cases h
    exact parallel_fromF32 _
  · cases h

theorem handler?_parallel {enter : UInt32 → Exec Unit} (henter : ∀ index, Parallel (enter index))
    {opcode : Opcode} {work : Instruction → Exec Flow} (h : handler? m enter opcode = some work)
    (i : Instruction) : Parallel (work i) := by
  unfold handler? at h
  split at h
  · cases h
    exact .pure _
  · obtain ⟨inner, hinner, rfl⟩ := Option.map_eq_some_iff.mp h
    exact .bind (work?_parallel henter hinner i) fun _ => .pure _

/-- The machines may differ in what their logs say. -/
theorem Alike.of_log (h : Alike s t) (log log' : Array Event) :
    Alike { s with host := { s.host with log } } { t with host := { t.host with log := log' } } :=
  ⟨{ h with }, h.framed.stackBase_le, h.framed.locals_length⟩

theorem parallel_note (event : Event) : Parallel (note event) :=
  .update fun _ _ h => h.of_log _ _

theorem parallel_runBody {enter : UInt32 → Exec Unit} (henter : ∀ index, Parallel (enter index))
    (instructions : List Instruction) : Parallel (runBody m enter instructions) := by
  induction instructions with
  | nil => exact .pure _
  | cons i rest ih =>
    unfold runBody
    cases hwork : handler? m enter i.opcode with
    | none => exact .bind (parallel_note _) fun _ => .throw _
    | some work =>
      refine .bind (handler?_parallel henter hwork i) fun flow => ?_
      cases flow with
      | next => exact ih
      | leave => exact .pure _

/-! ### Native functions -/

/-- A program of the host sees of the machine what the running activation sees. -/
theorem parallel_native (native : Native) : Parallel native.run := by
  induction native with
  | finish outcome => exact .ofExcept outcome
  | push value next ih => exact .bind (.observe (parallel_push value)) ih
  | pop next ih => exact .bind (.observe parallel_pop) ih
  | memorySize next ih =>
    refine .get fun s t h => ?_
    rw [LinearMemory.size_eq_of_toList h.memory]
    exact ih _ s t h
  | readMemory start length next ih =>
    refine .get fun s t h => ?_
    rw [LinearMemory.bytes?_congr h.memory]
    exact ih _ s t h
  | writeMemory start bytes next ih =>
    refine .get fun s t h => ?_
    have hmemory := LinearMemory.overwrite?_congr h.memory start bytes
    generalize s.memory.overwrite? start bytes = x at hmemory
    generalize t.memory.overwrite? start bytes = y at hmemory
    cases hmemory with
    | none => exact ih false s t h
    | some hsame => exact ih true _ _ (h.setMemory hsame)
  | readCell cell next ih =>
    refine .get fun s t h => ?_
    rw [h.cells]
    exact ih _ s t h
  | writeCell cell bits next ih =>
    exact .bind (.update fun _ _ h => h.writeCell cell bits) fun _ => ih
  | report entry next ih =>
    refine .bind (.update fun s t h => ?_) fun _ => ih
    exact ⟨{ h with }, h.framed.stackBase_le, h.framed.locals_length⟩

end Machine

end BoundedWasm
