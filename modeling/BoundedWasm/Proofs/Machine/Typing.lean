import BoundedWasm.Proofs.Machine.Callback
import BoundedWasm.Proofs.Machine.Stored

/-!
# BoundedWasm.Proofs.Machine.Typing — the types of operands, instruction by instruction

Bodies run straight on, so the types of the operands that one leaves can be read off its
instructions: each takes a number of operands and leaves operands of certain types in their place
(`Opcode.effect?`).  Nothing checks this when a module is decoded or when a body is left; a module
for which it is checked beforehand (`Module.leavesResults`) has functions that answer values of
their result types.

`Shifts effect s s'` says that the operands changed from `s` to `s'` by an effect, `Moves effect
action` that an action changes them so whenever it ends in an answer.
-/

namespace BoundedWasm

open BoundedWasm.Action Limits

/-- The number of operands that are taken from the top, and the types of those left there. -/
structure Effect where
  takes : Nat
  leaves : List ValueType

/-- The types of the operands after an effect. -/
def Effect.apply (effect : Effect) (types : List ValueType) : List ValueType :=
  types.take (types.length - effect.takes) ++ effect.leaves

/-- The type of a global. -/
def Module.globalType? (m : Module) (index : UInt32) : Option ValueType :=
  match m.global? index with
  | none => none
  | some (.defined position) => (m.globals.get? position).map fun entry => entry.type.valueType
  | some (.imported _ type) => some type.valueType

/-- The effect on the operands of an instruction with the operation, in a body with locals of the
given types; an instruction without one always fails. -/
def Opcode.effect? (m : Module) (localTypes : List ValueType) (i : Instruction) :
    Opcode → Option Effect
  | .nop | .block | .endBlock => some ⟨0, []⟩
  | .call => (i.index.toOption.bind m.functionType?).map fun type =>
    ⟨type.params.length, type.results.toList⟩
  | .drop | .localSet | .globalSet => some ⟨1, []⟩
  -- the two values have one type, and one of them stays
  | .select => some ⟨2, []⟩
  | .localGet => (i.index.toOption.bind fun index => localTypes[index.toNat]?).map fun type =>
    ⟨0, [type]⟩
  | .localTee => some ⟨0, []⟩
  | .globalGet => (i.index.toOption.bind m.globalType?).map fun type => ⟨0, [type]⟩
  | .load .i32 | .load32 _ _ => some ⟨1, [.i32]⟩
  | .load .f32 => some ⟨1, [.f32]⟩
  | .store _ | .store32 _ => some ⟨2, []⟩
  | .memorySize => some ⟨0, [.i32]⟩
  | .memoryGrow => some ⟨1, [.i32]⟩
  | .const _ => (Machine.constant i).toOption.map fun value => ⟨0, [value.type]⟩
  | .eqz _ | .intUnary _ _ => some ⟨1, [.i32]⟩
  | .intCompare _ _ | .intBinary _ _ | .floatCompare _ _ => some ⟨2, [.i32]⟩
  | .floatUnary _ _ => some ⟨1, [.f32]⟩
  | .floatBinary _ _ => some ⟨2, [.f32]⟩
  | .conversion (.truncate _ _ _) | .conversion (.floatToInt _) => some ⟨1, [.i32]⟩
  | .conversion (.convert _ _ _) | .conversion (.intToFloat _) => some ⟨1, [.f32]⟩
  | .truncateSaturating _ _ _ => some ⟨1, [.i32]⟩
  | _ => none

namespace Module

variable (m : Module)

/-- Whether a body that goes on from operands of the types `types` leaves operands the last of which
have the types `results`, wherever it is left. -/
def leavesFrom (localTypes results : List ValueType) :
    (body : List Instruction) → (types : List ValueType) → Bool
  | [], types => results.isSuffixOf types
  | i :: rest, types =>
    if i.opcode = .ret then results.isSuffixOf types
    else
      match i.opcode.effect? m localTypes i with
      | none => true
      | some effect => leavesFrom localTypes results rest (effect.apply types)

/-- Whether the body of the function at `position` leaves its results, if there is such a
function. -/
def leavesAt (position : Nat) (typeIndex : UInt32) : Bool :=
  match m.codes.get? position, m.types.get? typeIndex.toNat with
  | some code, some type =>
    match m.body code with
    | .ok body => m.leavesFrom (Activation.mk type code).localTypes type.results.toList body []
    | .error _ => true
  | _, _ => true

/-- Whether the body of every function leaves values of its result types on top. -/
def leavesResults : Bool :=
  m.functions.toList.zipIdx.all fun (typeIndex, position) => m.leavesAt position typeIndex

end Module

namespace Machine

variable {m : Module} {s s' s'' : Machine} {effect : Effect} {α β : Type}

theorem types_put {cap : Nat} {v : FixedVec Value cap} (h : v.length < cap) (value : Value) :
    (v.put value).types = v.types ++ [value.type] := by
  rw [FixedVec.types, FixedVec.toList_put_of_lt h, List.map_append]
  rfl

theorem types_pop {cap : Nat} (v : FixedVec Value cap) :
    v.pop.types = v.types.take (v.types.length - 1) := by
  rw [FixedVec.types, FixedVec.toList_pop, List.map_dropLast, List.dropLast_eq_take]
  rfl

/-! ### Effects of actions -/

/-- From `s` to `s'` the operands of the running activation change by an effect. -/
structure Shifts (effect : Effect) (s s' : Machine) : Prop where
  frame : s'.frame = s.frame
  enough : s.frame.stackBase + effect.takes ≤ s.stack.length
  types : s'.stack.types = effect.apply s.stack.types

theorem Shifts.length_eq (h : Shifts effect s s') :
    s'.stack.length = s.stack.length - effect.takes + effect.leaves.length := by
  rw [← FixedVec.length_types, h.types, Effect.apply, List.length_append, List.length_take,
    FixedVec.length_types]
  omega

theorem Shifts.base_le (h : Shifts effect s s') : s'.frame.stackBase ≤ s'.stack.length := by
  have henough := h.enough
  rw [h.frame, h.length_eq]
  omega

theorem Shifts.refl (h : s.frame.stackBase ≤ s.stack.length) : Shifts ⟨0, []⟩ s s := by
  refine ⟨rfl, h, ?_⟩
  rw [Effect.apply, Nat.sub_zero, List.take_length, List.append_nil]

/-- What is taken first and what is taken then are taken together. -/
theorem Shifts.trans {first second : Nat} {leaves : List ValueType}
    (h : Shifts ⟨first, []⟩ s s') (h' : Shifts ⟨second, leaves⟩ s' s'') :
    Shifts ⟨second + first, leaves⟩ s s'' := by
  have hlength := h.length_eq
  have henough := h.enough
  have henough' := h'.enough
  have htypes := h.types
  simp only [Effect.apply, List.append_nil, List.length_nil, Nat.add_zero] at hlength htypes
  rw [h.frame] at henough'
  simp only at henough henough'
  refine ⟨h'.frame.trans h.frame, ?_, ?_⟩
  · show s.frame.stackBase + (second + first) ≤ _
    omega
  · rw [h'.types, Effect.apply, Effect.apply, htypes, List.length_take, List.take_take,
      FixedVec.length_types]
    congr 2
    simp only
    omega

/-- Whenever the action ends in an answer, it has changed the operands by the effect. -/
def Moves (effect : Effect) (action : Exec α) : Prop :=
  ∀ s : Machine, s.frame.stackBase ≤ s.stack.length →
    action.Ends s (fun _ s' => Shifts effect s s') (fun _ _ => True)

namespace Moves

theorem pure (a : α) : Moves ⟨0, []⟩ (Pure.pure a : Exec α) := fun _ hs => .refl hs

theorem throw (fault : Fault) : Moves effect (MonadExcept.throw fault : Exec α) :=
  fun _ _ => trivial

theorem ofExcept (answer : Except Fault α) : Moves ⟨0, []⟩ (Action.ofExcept answer : Exec α) :=
  fun _ hs => (ends_ofExcept answer).mpr ⟨fun _ _ => .refl hs, fun _ _ => trivial⟩

/-- First one part of the operands is taken, then another. -/
theorem bind {first second : Nat} {leaves : List ValueType} {action : Exec α}
    {next : α → Exec β} (h : Moves ⟨first, []⟩ action)
    (hnext : ∀ a, Moves ⟨second, leaves⟩ (next a)) :
    Moves ⟨second + first, leaves⟩ (action >>= next) := by
  intro s hs
  rw [ends_bind]
  refine (h s hs).mono (fun a s' hs' => ?_) (fun _ _ => id)
  exact (hnext a s' hs'.base_le).mono (fun _ _ hs'' => hs'.trans hs'') (fun _ _ => id)

theorem get {next : Machine → Exec β} (hnext : ∀ s, Moves effect (next s)) :
    Moves effect (MonadState.get >>= next) := fun s hs => hnext s s hs

theorem discard {action : Exec α} (h : Moves ⟨1, []⟩ action) :
    Moves ⟨1, []⟩ (Functor.discard action) := .bind h fun _ => .pure _

theorem update {f : Machine → Machine} (hframe : ∀ s, (f s).frame = s.frame)
    (hstack : ∀ s, (f s).stack = s.stack) : Moves ⟨0, []⟩ (modify f : Exec Unit) := by
  intro s hs
  have hsame := Shifts.refl hs
  exact ⟨hframe s, hsame.enough, by rw [hstack s]; exact hsame.types⟩

theorem ite {c : Prop} [Decidable c] {action other : Exec α} (h : c → Moves effect action)
    (hother : ¬ c → Moves effect other) : Moves effect (if c then action else other) := by
  split
  · exact h ‹_›
  · exact hother ‹_›

end Moves

theorem moves_push (value : Value) : Moves ⟨0, [value.type]⟩ (push value) := by
  intro s hs
  unfold Ends
  rw [push_run]
  split
  · rename_i hrun
    split at hrun
    · rename_i hlt
      cases hrun
      refine ⟨rfl, hs, ?_⟩
      show (s.stack.put value).types = _
      rw [types_put hlt, Effect.apply, Nat.sub_zero, List.take_length]
    · cases hrun
  · trivial

theorem shifts_pop (h : s.frame.stackBase < s.stack.length) :
    Shifts ⟨1, []⟩ s { s with stack := s.stack.pop } := by
  refine ⟨rfl, h, ?_⟩
  show s.stack.pop.types = _
  rw [types_pop, Effect.apply, List.append_nil]

theorem moves_pop : Moves ⟨1, []⟩ pop := by
  intro s hs
  refine (pop_ends s).mono (fun _ _ h => ?_) (fun _ _ _ => trivial)
  obtain ⟨hlt, rfl⟩ := h
  exact shifts_pop hlt

theorem moves_popAs (read : Value → Except Fault α) : Moves ⟨1, []⟩ (popAs read) := by
  intro s hs
  unfold popAs
  rw [ends_bind]
  refine (top_ends s).mono (fun value s' h => ?_) (fun _ _ _ => trivial)
  obtain ⟨rfl, hlt, -⟩ := h
  rw [ends_bind, ends_ofExcept]
  exact ⟨fun _ _ => shifts_pop hlt, fun _ _ => trivial⟩

/-! ### Operand patterns -/

theorem moves_unary (eval : BitVec 32 → BitVec 32) : Moves ⟨1, [.i32]⟩ (unary eval) :=
  .bind (moves_popAs _) fun _ => moves_push (.i32 _)

theorem moves_binary (eval : BitVec 32 → BitVec 32 → Except Fault (BitVec 32)) :
    Moves ⟨2, [.i32]⟩ (binary eval) :=
  .bind (moves_popAs _) fun _ => .bind (moves_popAs _) fun _ =>
    .bind (.ofExcept _) fun _ => moves_push (.i32 _)

theorem moves_compare (holds : BitVec 32 → BitVec 32 → Bool) :
    Moves ⟨2, [.i32]⟩ (compare holds) :=
  .bind (moves_popAs _) fun _ => .bind (moves_popAs _) fun _ => moves_push (.i32 _)

theorem moves_unaryF32 (eval : BitVec 32 → BitVec 32) : Moves ⟨1, [.f32]⟩ (unaryF32 eval) :=
  .bind (moves_popAs _) fun _ => moves_push (.f32 _)

theorem moves_binaryF32 (eval : BitVec 32 → BitVec 32 → BitVec 32) :
    Moves ⟨2, [.f32]⟩ (binaryF32 eval) :=
  .bind (moves_popAs _) fun _ => .bind (moves_popAs _) fun _ => moves_push (.f32 _)

theorem moves_compareF32 (holds : BitVec 32 → BitVec 32 → Bool) :
    Moves ⟨2, [.i32]⟩ (compareF32 holds) :=
  .bind (moves_popAs _) fun _ => .bind (moves_popAs _) fun _ => moves_push (.i32 _)

theorem moves_fromF32 (eval : BitVec 32 → Except Fault (BitVec 32)) :
    Moves ⟨1, [.i32]⟩ (fromF32 eval) :=
  .bind (moves_popAs _) fun _ => .bind (.ofExcept _) fun _ => moves_push (.i32 _)

theorem moves_toF32 (eval : BitVec 32 → BitVec 32) : Moves ⟨1, [.f32]⟩ (toF32 eval) :=
  .bind (moves_popAs _) fun _ => moves_push (.f32 _)

/-! ### Memory -/

theorem moves_memorySize : Moves ⟨0, [.i32]⟩ memorySize := .get fun _ => moves_push (.i32 _)

theorem moves_memoryGrow : Moves ⟨1, [.i32]⟩ memoryGrow :=
  .bind (moves_popAs _) fun _ => moves_push (.i32 _)

theorem moves_loadNumber (i : Instruction) (width : Nat) : Moves ⟨1, []⟩ (loadNumber i width) :=
  .bind (.ofExcept _) fun _ => .bind (moves_popAs _) fun _ => .get fun _ =>
    .bind (.ofExcept _) fun _ => .pure _

theorem moves_storeNumber (i : Instruction) (width n : Nat) :
    Moves ⟨1, []⟩ (storeNumber i width n) :=
  .bind (.ofExcept _) fun _ => .bind (moves_popAs _) fun _ => .get fun _ =>
    .bind (.ofExcept _) fun _ => .update (fun _ => rfl) fun _ => rfl

theorem moves_loadNarrow (i : Instruction) (part : Narrow32) (sign : Sign) :
    Moves ⟨1, [.i32]⟩ (loadNarrow i part sign) :=
  .bind (moves_loadNumber i _) fun _ => moves_push (.i32 _)

theorem moves_storeNarrow (i : Instruction) (part : Narrow32) :
    Moves ⟨2, []⟩ (storeNarrow i part) := by
  refine .bind (moves_popAs _) fun _ => ?_
  cases part with
  | bits8 => exact moves_storeNumber i 1 _
  | bits16 => exact moves_storeNumber i 2 _

/-! ### Variables -/

theorem moves_setLocal (index : UInt32) (value : Value) : Moves ⟨0, []⟩ (setLocal index value) := by
  intro s hs
  refine (setLocal_ends index value s).mono ?_ (fun _ _ _ => trivial)
  rintro _ s' ⟨locals, rfl⟩
  have hsame := Shifts.refl hs
  exact ⟨rfl, hs, hsame.types⟩

theorem moves_localSet (i : Instruction) : Moves ⟨1, []⟩ (localSet i) :=
  .bind moves_pop fun _ => .bind (.ofExcept _) fun _ => .bind (moves_setLocal _ _) fun _ => .pure _

theorem moves_setGlobal (m : Module) (index : UInt32) (value : Value) :
    Moves ⟨0, []⟩ (setGlobal m index value) := by
  unfold setGlobal
  split
  · exact .throw _
  · split
    · exact .throw _
    · split
      · exact .throw _
      · exact .get fun _ => .ite (fun _ => .update (fun _ => rfl) fun _ => rfl) fun _ => .throw _
  · split
    · exact .throw _
    · split
      · exact .bind (.ofExcept _) fun _ => .update (fun _ => rfl) fun _ => rfl
      · exact .throw _

theorem moves_globalSet (m : Module) (i : Instruction) : Moves ⟨1, []⟩ (globalSet m i) :=
  .bind moves_pop fun _ => .bind (.ofExcept _) fun _ => moves_setGlobal m _ _

/-! ### Values that come from somewhere -/

theorem pop_answers (s : Machine) :
    pop.Ends s (fun value s' => Shifts ⟨1, []⟩ s s' ∧
      s.stack.types = s'.stack.types ++ [value.type]) (fun _ _ => True) := by
  unfold pop
  rw [ends_bind]
  refine (top_ends s).mono (fun value s' h => ?_) (fun _ _ _ => trivial)
  obtain ⟨rfl, hlt, hlast⟩ := h
  refine ⟨shifts_pop hlt, ?_⟩
  rw [FixedVec.last?_eq] at hlast
  obtain ⟨below, hbelow⟩ := List.getLast?_eq_some_iff.mp hlast
  show s'.stack.types = s'.stack.pop.types ++ [value.type]
  rw [FixedVec.types, FixedVec.types, FixedVec.toList_pop, hbelow, List.dropLast_concat,
    List.map_append]
  rfl

/-- A value is popped, and one of its type is pushed. -/
theorem Moves.putBack {next : Value → Exec β}
    (hnext : ∀ value, Moves ⟨0, [value.type]⟩ (next value)) : Moves ⟨0, []⟩ (pop >>= next) := by
  intro s hs
  rw [ends_bind]
  refine (pop_answers s).mono (fun value s' h => ?_) (fun _ _ => id)
  obtain ⟨hpopped, htypes⟩ := h
  refine (hnext value s' hpopped.base_le).mono (fun _ s'' hpushed => ?_) (fun _ _ => id)
  have hpushedTypes := hpushed.types
  rw [Effect.apply, Nat.sub_zero, List.take_length, ← htypes] at hpushedTypes
  have hsame := Shifts.refl hs
  exact ⟨hpushed.frame.trans hpopped.frame, hsame.enough, hpushedTypes.trans hsame.types⟩

theorem moves_select : Moves ⟨2, []⟩ select := by
  refine .bind (moves_popAs _) fun condition => .bind moves_pop fun second =>
    .putBack fun first => .ite (fun _ => .throw _) fun htypes => ?_
  have htype : (if condition ≠ 0 then first else second).type = first.type := by
    split
    · rfl
    · exact (Decidable.not_not.mp htypes).symm
  rw [← htype]
  exact moves_push _

theorem moves_localTee (i : Instruction) : Moves ⟨0, []⟩ (localSet i >>= push) := by
  unfold localSet
  simp only [bind_assoc, pure_bind]
  exact .putBack fun value => .bind (.ofExcept _) fun _ => .bind (moves_setLocal _ _) fun _ =>
    moves_push value

theorem pushed_ends (answer : Except Fault Value) (hs : s.frame.stackBase ≤ s.stack.length) :
    (Action.ofExcept answer >>= push : Exec Unit).Ends s
      (fun _ s' => ∃ value, answer = .ok value ∧ Shifts ⟨0, [value.type]⟩ s s')
      (fun _ _ => True) := by
  rw [ends_bind, ends_ofExcept]
  refine ⟨fun value hvalue => ?_, fun _ _ => trivial⟩
  exact (moves_push value s hs).mono (fun _ _ hpushed => ⟨value, hvalue, hpushed⟩) (fun _ _ => id)

/-- The value that an index refers to is pushed. -/
theorem indexed_ends (read : Machine → UInt32 → Except Fault Value) (i : Instruction)
    (hs : s.frame.stackBase ≤ s.stack.length) :
    (do
      let index ← Action.ofExcept i.index
      push (← Action.ofExcept (read (← get) index)) : Exec Unit).Ends s
      (fun _ s' => ∃ index value, i.index = .ok index ∧ read s index = .ok value ∧
        Shifts ⟨0, [value.type]⟩ s s') (fun _ _ => True) := by
  rw [ends_bind, ends_ofExcept]
  refine ⟨fun index hindex => ?_, fun _ _ => trivial⟩
  rw [ends_bind, ends_get]
  refine (pushed_ends _ hs).mono (fun _ s' h => ?_) (fun _ _ => id)
  obtain ⟨value, hvalue, hpushed⟩ := h
  exact ⟨index, value, hindex, hvalue, hpushed⟩

/-! ### Instructions -/

/-- The running activation is in its frame, its locals have the given types, and so have the globals
those of the module. -/
structure Runs (m : Module) (localTypes : List ValueType) (s : Machine) : Prop where
  framed : s.Framed
  globals : s.HoldsGlobals m
  window : s.locals.types.drop s.frame.localsBase = localTypes

variable {localTypes : List ValueType}

theorem Runs.localType (hs : Runs m localTypes s) {index : UInt32} {value : Value}
    (h : s.localValue index = .ok value) : localTypes[index.toNat]? = some value.type := by
  unfold localValue at h
  split at h
  · rename_i found hfound
    cases h
    obtain ⟨slot, hslot, hvalue⟩ := Option.bind_eq_some_iff.mp hfound
    obtain ⟨rfl, -⟩ := localSlot?_eq_some hs.framed hslot
    rw [FixedVec.get?_eq] at hvalue
    rw [← hs.window, List.getElem?_drop, FixedVec.types, List.getElem?_map, hvalue]
    rfl
  · cases h

theorem exists_global {index : UInt32} {position : Nat}
    (h : m.global? index = some (.defined position)) :
    ∃ entry, m.globals.get? position = some entry := by
  unfold Module.global? at h
  split at h
  · cases h
  · split at h
    · cases h
      exact ⟨_, dif_pos ‹_›⟩
    · cases h

theorem Runs.globalType (hs : Runs m localTypes s) {index : UInt32} {value : Value}
    (h : s.globalValue m index = .ok value) : m.globalType? index = some value.type := by
  unfold globalValue at h
  split at h
  · cases h
  · rename_i position hglobal
    have htype : m.globalType? index
        = (m.globals.get? position).map fun entry => entry.type.valueType := by
      rw [Module.globalType?, hglobal]
    split at h
    · rename_i found hfound
      cases h
      obtain ⟨entry, hentry⟩ := exists_global hglobal
      obtain ⟨held, hheld, hholds, -⟩ := hs.globals position entry hentry
      cases hfound.symm.trans hheld
      rw [htype, hentry, hholds]
      rfl
    · cases h
  · rename_i position type hglobal
    have htype : m.globalType? index = some type.valueType := by
      rw [Module.globalType?, hglobal]
    split at h
    · rw [htype, Value.type_of_ofWord h]
    · cases h

/-- From `s` to `s'` the operands change as the type of the function says. -/
def ShiftsTyped (m : Module) (index : UInt32) (s s' : Machine) : Prop :=
  ∃ type, m.functionType? index = some type ∧
    Shifts ⟨type.params.length, type.results.toList⟩ s s'

/-- What an instruction does to the types of the operands can be read off it. -/
theorem work?_shifts (hs : Runs m localTypes s) {enter : UInt32 → Exec Unit} {opcode : Opcode}
    {i : Instruction} (henter : ∀ index s', opcode = .call → i.index = .ok index →
      enter index s = .ok () s' → ShiftsTyped m index s s')
    {work : Instruction → Exec Unit} (h : work? m enter opcode = some work) :
    (work i).Ends s
      (fun _ s' => ∃ effect, opcode.effect? m localTypes i = some effect ∧ Shifts effect s s')
      (fun _ _ => True) := by
  have hbase := hs.framed.stackBase_le
  have hmoves : ∀ {effect : Effect} {action : Exec Unit}, Moves effect action →
      opcode.effect? m localTypes i = some effect → action.Ends s
        (fun _ s' => ∃ effect, opcode.effect? m localTypes i = some effect ∧ Shifts effect s s')
        (fun _ _ => True) := fun haction heffect =>
    (haction s hbase).mono (fun _ _ hshifts => ⟨_, heffect, hshifts⟩) (fun _ _ => id)
  unfold work? at h
  split at h
  -- one case for each line of the table
  · cases h
    trivial
  · cases h
    exact hmoves (.pure _) rfl
  · cases h
    exact hmoves (.pure _) rfl
  · cases h
    exact hmoves (.pure _) rfl
  · cases h
    rw [ends_bind, ends_ofExcept]
    refine ⟨fun index hindex => ends_of (fun _ s' hrun => ?_) (fun _ _ _ => trivial),
      fun _ _ => trivial⟩
    obtain ⟨type, htype, hshifts⟩ := henter index s' rfl hindex hrun
    refine ⟨_, ?_, hshifts⟩
    show Option.map _ (i.index.toOption.bind m.functionType?) = _
    rw [hindex]
    exact congrArg (Option.map _) htype
  · cases h
    exact hmoves (.discard moves_pop) rfl
  · cases h
    exact hmoves moves_select rfl
  · cases h
    refine (indexed_ends localValue i hbase).mono (fun _ s' hpushed => ?_) (fun _ _ => id)
    obtain ⟨index, value, hindex, hvalue, hshifts⟩ := hpushed
    refine ⟨_, ?_, hshifts⟩
    show Option.map _ (i.index.toOption.bind fun index => localTypes[index.toNat]?) = _
    rw [hindex]
    exact congrArg (Option.map _) (hs.localType hvalue)
  · cases h
    exact hmoves (.discard (moves_localSet i)) rfl
  · cases h
    exact hmoves (moves_localTee i) rfl
  · cases h
    refine (indexed_ends (globalValue m) i hbase).mono (fun _ s' hpushed => ?_) (fun _ _ => id)
    obtain ⟨index, value, hindex, hvalue, hshifts⟩ := hpushed
    refine ⟨_, ?_, hshifts⟩
    show Option.map _ (i.index.toOption.bind m.globalType?) = _
    rw [hindex]
    exact congrArg (Option.map _) (hs.globalType hvalue)
  · cases h
    exact hmoves (moves_globalSet m i) rfl
  · cases h
    exact hmoves (.bind (moves_loadNumber i 4) fun _ => moves_push (.i32 _)) rfl
  · cases h
    exact hmoves (.bind (moves_loadNumber i 4) fun _ => moves_push (.f32 _)) rfl
  · cases h
    exact hmoves (moves_loadNarrow i _ _) rfl
  · cases h
    exact hmoves (.bind (moves_popAs _) fun _ => moves_storeNumber i 4 _) rfl
  · cases h
    exact hmoves (.bind (moves_popAs _) fun _ => moves_storeNumber i 4 _) rfl
  · cases h
    exact hmoves (moves_storeNarrow i _) rfl
  · cases h
    exact hmoves moves_memorySize rfl
  · cases h
    exact hmoves moves_memoryGrow rfl
  · cases h
    refine (pushed_ends _ hbase).mono (fun _ s' hpushed => ?_) (fun _ _ => id)
    obtain ⟨value, hvalue, hshifts⟩ := hpushed
    refine ⟨_, ?_, hshifts⟩
    show Option.map _ (constant i).toOption = _
    rw [hvalue]
    rfl
  · cases h
    exact hmoves (.bind (moves_popAs _) fun _ => moves_push (.i32 _)) rfl
  · cases h
    exact hmoves (moves_compare _) rfl
  · cases h
    exact hmoves (moves_unary _) rfl
  · cases h
    exact hmoves (moves_binary _) rfl
  · cases h
    exact hmoves (moves_compareF32 _) rfl
  · obtain ⟨eval, -, rfl⟩ := Option.map_eq_some_iff.mp h
    exact hmoves (moves_unaryF32 eval) rfl
  · obtain ⟨eval, -, rfl⟩ := Option.map_eq_some_iff.mp h
    exact hmoves (moves_binaryF32 eval) rfl
  · cases h
    exact hmoves (moves_fromF32 _) rfl
  · cases h
    exact hmoves (moves_toF32 _) rfl
  · cases h
    exact hmoves (moves_fromF32 _) rfl
  · cases h
    exact hmoves (moves_toF32 _) rfl
  · cases h
    exact hmoves (moves_fromF32 _) rfl
  · cases h

/-! ### Bodies -/

theorem Effect.apply_append {below types : List ValueType} (h : effect.takes ≤ types.length) :
    effect.apply (below ++ types) = below ++ effect.apply types := by
  rw [Effect.apply, Effect.apply, List.length_append, Nat.add_sub_assoc h,
    List.take_length_add_append, List.append_assoc]

theorem Runs.work (hm : m.Prepared) (hs : Runs m localTypes s) {opcode : Opcode}
    {work : Instruction → Exec Unit} (hwork : work? m (invoke m) opcode = some work)
    {i : Instruction} (hrun : work i s = .ok () s') : Runs m localTypes s' := by
  have hR := shared_holdsGlobals m
  obtain ⟨hstays, htypes⟩ := (work?_keeps (covers_retypes m) (keeps_retypes_invoke hm) hwork i
    s).of_ok hrun hs.framed
  refine ⟨hstays.framed, (work?_keeps hR.toCovers hR.keeps_invoke hwork i s).of_ok hrun hs.globals,
    ?_⟩
  rw [htypes, hstays.frame]
  exact hs.window

/-- In the run from the moment on, native functions take their parameters, and answer values of the
result types of their imports. -/
def AnswersTyped (m : Module) (moment : Moment) : Prop :=
  ∀ reached index position typeIndex type s', Moment.Reaches m moment reached →
    reached.stage = .calling index → m.function? index = some (.imported position typeIndex) →
    m.types.get? typeIndex.toNat = some type →
    callNative m position reached.machine = .ok () s' →
    s'.stack.types
      = (Effect.mk type.params.length type.results.toList).apply reached.machine.stack.types

theorem AnswersTyped.step {moment next : Moment} (h : AnswersTyped m moment)
    (hstep : Moment.Step m moment next) : AnswersTyped m next :=
  fun reached _ _ _ _ _ hreaches => h reached _ _ _ _ _ (.head hstep hreaches)

/-- The functions that are called at a depth answer values of their result types, in runs in which
the native functions do. -/
def CallsTypedAt (m : Module) (depth : Nat) : Prop :=
  ∀ (s : Machine) (callers : List Frame) (index : UInt32) (s' : Machine), s.depth = depth →
    s.Framed → s.HoldsGlobals m → AnswersTyped m ⟨.calling index, s, callers⟩ →
    invoke m index s = .ok () s' → ShiftsTyped m index s s'

/-- An instruction that is worked off leads to those behind it. -/
theorem step_of_work {i : Instruction} {rest : List Instruction} {callers : List Frame}
    (hret : i.opcode ≠ .ret) {work : Instruction → Exec Unit}
    (hwork : work? m (invoke m) i.opcode = some work) (hrun : work i s = .ok () s') :
    Moment.Step m ⟨.body (i :: rest), s, callers⟩ ⟨.body rest, s', callers⟩ := by
  have hhandler := handler?_of_ne_ret hret (m := m) (invoke m)
  rw [hwork, Option.map_some] at hhandler
  refine .next hhandler ?_
  rw [bind_run, hrun]
  rfl

/-- A body that is left has the operands that were read off its instructions. -/
theorem types_of_runBody (hm : m.Prepared) {depth : Nat} (hcalls : CallsTypedAt m depth)
    {below types results : List ValueType} {body : List Instruction}
    (hleaves : m.leavesFrom localTypes results body types = true) (hs : Runs m localTypes s)
    (hdepth : s.depth = depth) {callers : List Frame}
    (hanswers : AnswersTyped m ⟨.body body, s, callers⟩)
    (hbelow : below.length = s.frame.stackBase) (htypes : s.stack.types = below ++ types)
    (hrun : runBody m (invoke m) body s = .ok () s') :
    ∃ left, s'.stack.types = below ++ left ∧ results <:+ left := by
  induction body generalizing s types with
  | nil =>
    cases hrun
    exact ⟨types, htypes, List.isSuffixOf_iff_suffix.mp hleaves⟩
  | cons i rest ih =>
    unfold Module.leavesFrom at hleaves
    by_cases hret : i.opcode = .ret
    · rw [runBody_ret hret] at hrun
      rw [if_pos hret] at hleaves
      cases hrun
      exact ⟨types, htypes, List.isSuffixOf_iff_suffix.mp hleaves⟩
    rw [if_neg hret] at hleaves
    rw [runBody_work hret] at hrun
    cases hwork : work? m (invoke m) i.opcode with
    | none =>
      rw [hwork] at hrun
      cases hrun
    | some work =>
      rw [hwork] at hrun
      cases hstep : work i s with
      | error fault s₁ =>
        simp only [hstep] at hrun
        cases hrun
      | ok _ s₁ =>
        simp only [hstep] at hrun
        have hcall : ∀ index s', i.opcode = .call → i.index = .ok index →
            invoke m index s = .ok () s' → ShiftsTyped m index s s' :=
          fun index s' hopcode hindex => hcalls s callers index s' hdepth hs.framed hs.globals
            (hanswers.step (.call hopcode hindex))
        obtain ⟨effect, heffect, hshifts⟩ := (work?_shifts hs hcall hwork).of_ok hstep
        rw [heffect] at hleaves
        have henough := hshifts.enough
        have hlength := congrArg List.length htypes
        rw [FixedVec.length_types, List.length_append] at hlength
        have hlater := hanswers.step (step_of_work hret hwork hstep)
        refine ih hleaves (hs.work hm hwork hstep) ?_ hlater ?_ ?_ hrun
        · have hsame := (work?_keeps (covers_depth m) keepsDepth_invoke hwork i s).of_ok hstep
          exact hsame.trans hdepth
        · rw [hshifts.frame, hbelow]
        · rw [hshifts.types, htypes, Effect.apply_append (by omega)]

end Machine

end BoundedWasm
