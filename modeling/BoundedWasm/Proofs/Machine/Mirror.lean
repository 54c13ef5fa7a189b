import BoundedWasm.Proofs.Machine.Frame
import BoundedWasm.Proofs.Machine.Plain

/-!
# BoundedWasm.Proofs.Machine.Mirror — one activation, on shared and on private stacks

A machine mirrors an activation of the plain evaluator when the operands above the base of its frame
and the locals in its window are those of the activation, and everything that is shared is equal
(`Mirrors`).  An operation on the machine follows its plain counterpart (`Follows`) when it keeps
them mirrored and fails with the same fault, as long as it finds room for what it pushes.
-/

namespace BoundedWasm

open BoundedWasm.Action Limits

/-- The running activation of `s` is `r`; `below` are the operands and `lower` the locals of all
other activations. -/
structure Mirrors (below lower : List Value) (s : Machine) (r : Plain) : Prop where
  stack : s.stack.toList = below ++ r.operands
  stackBase : s.frame.stackBase = below.length
  locals : s.locals.toList = lower ++ r.locals
  localsBase : s.frame.localsBase = lower.length
  numLocals : s.frame.numLocals = r.locals.length
  globals : s.globals.toList = r.globals
  memory : s.memory = r.memory
  cells : s.host.cells = r.cells
  reports : s.host.reports = r.reports

section

variable {below lower : List Value} {s : Machine} {r : Plain}

theorem Mirrors.height (h : Mirrors below lower s r) :
    s.stack.length = below.length + r.operands.length := by
  rw [← FixedVec.length_toList, h.stack, List.length_append]

theorem Mirrors.length_locals (h : Mirrors below lower s r) :
    s.locals.length = lower.length + r.locals.length := by
  rw [← FixedVec.length_toList, h.locals, List.length_append]

theorem Mirrors.framed (h : Mirrors below lower s r) : s.Framed := by
  have hheight := h.height
  have hlocals := h.length_locals
  refine ⟨?_, ?_⟩
  · rw [h.stackBase]
    omega
  · rw [h.localsBase, h.numLocals, hlocals]

end

/-! ### Following -/

/-- From `s` and `r`, the machine's work ends as the plain work does, unless it met a full stack. -/
def FollowsAt {α : Type} (below lower : List Value) (s : Machine) (r : Plain) (work : Exec α)
    (plain : Plain.Work α) : Prop :=
  work.Ends s (fun a s' => ∃ r', plain r = .ok a r' ∧ Mirrors below lower s' r')
    (fun fault s' => (fault = .stackOverflow ∧ s'.stack.length = maxOperandStack) ∨
      ∃ r', plain r = .error fault r')

def Follows {α : Type} (work : Exec α) (plain : Plain.Work α) : Prop :=
  ∀ below lower s r, Mirrors below lower s r → FollowsAt below lower s r work plain

namespace Follows

variable {α β : Type}

theorem pure (a : α) : Follows (Pure.pure a) (Pure.pure a) :=
  fun _ _ _ r h => ⟨r, rfl, h⟩

theorem throw (fault : Fault) :
    Follows (MonadExcept.throw fault : Exec α) (MonadExcept.throw fault) :=
  fun _ _ _ r _ => .inr ⟨r, rfl⟩

theorem ofExcept (answer : Except Fault α) :
    Follows (Action.ofExcept answer) (Action.ofExcept answer) := by
  cases answer with
  | ok a => exact .pure a
  | error fault => exact .throw fault

theorem bind {work : Exec α} {plain : Plain.Work α} {next : α → Exec β} {next' : α → Plain.Work β}
    (h : Follows work plain) (hnext : ∀ a, Follows (next a) (next' a)) :
    Follows (work >>= next) (plain >>= next') := by
  intro below lower s r hs
  unfold FollowsAt
  rw [ends_bind]
  refine (h below lower s r hs).mono (fun a s₁ h₁ => ?_) (fun fault s₁ h₁ => ?_)
  · obtain ⟨r₁, hrun, hs₁⟩ := h₁
    refine (hnext a below lower s₁ r₁ hs₁).mono (fun b s₂ h₂ => ?_) (fun fault s₂ h₂ => ?_)
    · obtain ⟨r₂, hrun', hs₂⟩ := h₂
      refine ⟨r₂, ?_, hs₂⟩
      rw [bind_run, hrun]
      exact hrun'
    · refine h₂.imp id fun ⟨r₂, hrun'⟩ => ⟨r₂, ?_⟩
      rw [bind_run, hrun]
      exact hrun'
  · refine h₁.imp id fun ⟨r₁, hrun⟩ => ⟨r₁, ?_⟩
    rw [bind_run, hrun]

theorem get {next : Machine → Exec β} {next' : Plain → Plain.Work β}
    (h : ∀ below lower s r, Mirrors below lower s r →
      FollowsAt below lower s r (next s) (next' r)) :
    Follows (MonadState.get >>= next) (MonadState.get >>= next') :=
  h

theorem discard {work : Exec α} {plain : Plain.Work α} (h : Follows work plain) :
    Follows (Functor.discard work) (Functor.discard plain) :=
  bind h fun _ => pure _

theorem ite {c : Prop} [Decidable c] {work other : Exec α} {plain plain' : Plain.Work α}
    (h : Follows work plain) (hother : Follows other plain') :
    Follows (if c then work else other) (if c then plain else plain') := by
  split
  · exact h
  · exact hother

end Follows

/-! ### Operands -/

theorem follows_push (value : Value) : Follows (Machine.push value) (Plain.push value) := by
  intro below lower s r h
  unfold FollowsAt Ends Machine.push
  by_cases hlt : s.stack.length < maxOperandStack
  · rw [if_pos hlt]
    refine ⟨_, rfl, { h with stack := ?_ }⟩
    show (s.stack.put value).toList = below ++ (r.operands ++ [value])
    rw [FixedVec.toList_put_of_lt hlt, h.stack, List.append_assoc]
  · rw [if_neg hlt]
    exact .inl ⟨rfl, Nat.le_antisymm s.stack.length_le (Nat.le_of_not_lt hlt)⟩

/-- Both sides have the same value on top, or none. -/
theorem Mirrors.top_ends {below lower : List Value} {s : Machine} {r : Plain}
    (h : Mirrors below lower s r) :
    Machine.top.Ends s (fun value s' => s' = s ∧ r.operands.getLast? = some value ∧
        Mirrors below lower { s with stack := s.stack.pop }
          { r with operands := r.operands.dropLast })
      (fun fault s' => s' = s ∧ fault = .stackUnderflow ∧ r.operands.getLast? = none) := by
  have hheight := h.height
  refine (Machine.top_ends s).mono (fun value s' htop => ?_) (fun fault s' htop => ?_)
  · obtain ⟨rfl, hlt, hlast⟩ := htop
    rw [h.stackBase] at hlt
    have hne : r.operands ≠ [] := by
      intro hnil
      rw [hnil, List.length_nil] at hheight
      omega
    obtain ⟨last, hlast'⟩ := Option.isSome_iff_exists.mp (List.getLast?_isSome.mpr hne)
    rw [FixedVec.last?_eq, h.stack, List.getLast?_append, hlast', Option.some_or] at hlast
    rw [hlast] at hlast'
    refine ⟨rfl, hlast', { h with stack := ?_ }⟩
    show s'.stack.pop.toList = below ++ r.operands.dropLast
    rw [FixedVec.toList_pop, h.stack, List.dropLast_append_of_ne_nil hne]
  · obtain ⟨rfl, hfault, hle⟩ := htop
    rw [h.stackBase] at hle
    have hnil : r.operands = [] := List.length_eq_zero_iff.mp (by omega)
    exact ⟨rfl, hfault, by rw [hnil]; rfl⟩

theorem follows_pop : Follows Machine.pop Plain.pop := by
  intro below lower s r h
  unfold FollowsAt Machine.pop
  rw [ends_bind]
  refine h.top_ends.mono (fun value s' htop => ?_) (fun fault s' htop => ?_)
  · obtain ⟨rfl, hlast, hpopped⟩ := htop
    refine ⟨_, ?_, hpopped⟩
    unfold Plain.pop
    rw [hlast]
  · obtain ⟨rfl, rfl, hlast⟩ := htop
    refine .inr ⟨r, ?_⟩
    unfold Plain.pop
    rw [hlast]

theorem follows_popAs {α : Type} (read : Value → Except Fault α) :
    Follows (Machine.popAs read) (Plain.popAs read) := by
  intro below lower s r h
  unfold FollowsAt Machine.popAs
  rw [ends_bind]
  refine h.top_ends.mono (fun value s' htop => ?_) (fun fault s' htop => ?_)
  · obtain ⟨rfl, hlast, hpopped⟩ := htop
    rw [ends_bind, ends_ofExcept]
    refine ⟨fun a ha => ⟨_, ?_, hpopped⟩, fun fault hfault => .inr ⟨r, ?_⟩⟩
    · unfold Plain.popAs
      rw [hlast]
      simp only [ha]
    · unfold Plain.popAs
      rw [hlast]
      simp only [hfault]
  · obtain ⟨rfl, rfl, hlast⟩ := htop
    refine .inr ⟨r, ?_⟩
    unfold Plain.popAs
    rw [hlast]

/-! ### Operand patterns -/

theorem follows_one {α : Type} (read : Value → Except Fault α) {eval : α → Except Fault Value}
    {next : α → Exec Unit}
    (h : ∀ a, Follows (next a) (Action.ofExcept (eval a) >>= Plain.push)) :
    Follows (Machine.popAs read >>= next) (Plain.one read eval) :=
  .bind (follows_popAs read) h

theorem follows_two {α : Type} (read : Value → Except Fault α) {eval : α → α → Except Fault Value}
    {next : α → α → Exec Unit}
    (h : ∀ b a, Follows (next b a) (Action.ofExcept (eval a b) >>= Plain.push)) :
    Follows (do
      let b ← Machine.popAs read
      let a ← Machine.popAs read
      next b a) (Plain.two read eval) :=
  .bind (follows_popAs read) fun b => .bind (follows_popAs read) fun a => h b a

/-- A result that is computed and pushed. -/
theorem follows_pushResult {α : Type} (answer : Except Fault α) (value : α → Value) :
    Follows (Action.ofExcept answer >>= fun a => Machine.push (value a))
      (Action.ofExcept (value <$> answer) >>= Plain.push) := by
  cases answer with
  | ok a => exact follows_push (value a)
  | error fault => exact .throw fault

theorem follows_select : Follows Machine.select Plain.select := by
  refine .bind (follows_popAs _) fun condition => ?_
  refine .bind follows_pop fun second => .bind follows_pop fun first => ?_
  exact .ite (.throw _) (follows_push _)

/-! ### Memory -/

theorem follows_loadNumber (i : Instruction) (width : Nat) :
    Follows (Machine.loadNumber i width) (Plain.loadNumber i width) := by
  refine .bind (.ofExcept _) fun offset => .bind (follows_popAs _) fun address => ?_
  refine .get fun below lower s r h => ?_
  rw [h.memory]
  exact Follows.bind (.ofExcept _) (fun bytes => .pure _) below lower s r h

theorem follows_load (i : Instruction) (width : Nat) (value : Nat → Value) :
    Follows (Machine.loadNumber i width >>= fun n => Machine.push (value n))
      (Plain.load i width value) :=
  .bind (follows_loadNumber i width) fun n => follows_push (value n)

theorem follows_store {α : Type} (i : Instruction) (width : Nat) (read : Value → Except Fault α)
    (number : α → Nat) :
    Follows (Machine.popAs read >>= fun a => Machine.storeNumber i width (number a))
      (Plain.store i width read number) := by
  refine .bind (follows_popAs read) fun a => .bind (.ofExcept _) fun offset => ?_
  refine .bind (follows_popAs _) fun address => .get fun below lower s r h => ?_
  rw [h.memory]
  refine Follows.bind (.ofExcept _) (fun memory => ?_) below lower s r h
  exact fun below lower s r h => ⟨{ r with memory }, rfl, { h with memory := rfl }⟩

/-! ### Variables -/

section

variable {below lower : List Value} {s : Machine} {r : Plain}

/-- The window of the running activation is what lies above the locals of the others. -/
theorem Mirrors.localSlot? (h : Mirrors below lower s r) (index : UInt32) :
    s.frame.localSlot? index =
      if index.toNat < r.locals.length then some (lower.length + index.toNat) else none := by
  have hlength := h.length_locals
  have hcap : s.locals.length ≤ 1024 := s.locals.length_le
  unfold Frame.localSlot?
  rw [h.numLocals, h.localsBase]
  split
  · rename_i hlt
    have hsize : lower.length + index.toNat < UInt64.size :=
      Nat.lt_of_lt_of_le (by omega) (by decide : 1024 ≤ UInt64.size)
    rw [Nat.mod_eq_of_lt hsize]
  · rfl

theorem Mirrors.get?_locals (h : Mirrors below lower s r) (i : Nat) :
    s.locals.get? (lower.length + i) = r.locals[i]? := by
  rw [FixedVec.get?_eq, h.locals, List.getElem?_append_right (Nat.le_add_right _ _),
    Nat.add_sub_cancel_left]

theorem Mirrors.localValue (h : Mirrors below lower s r) (index : UInt32) :
    s.localValue index = match r.locals[index.toNat]? with
      | none => .error .localOutOfRange
      | some value => .ok value := by
  unfold Machine.localValue
  rw [h.localSlot? index]
  by_cases hlt : index.toNat < r.locals.length
  · rw [if_pos hlt, Option.bind_some, h.get?_locals]
    cases r.locals[index.toNat]? <;> rfl
  · rw [if_neg hlt, List.getElem?_eq_none (Nat.le_of_not_lt hlt)]
    rfl

theorem Mirrors.globalValue (h : Mirrors below lower s r) (m : Module) (index : UInt32) :
    Machine.globalValue m s index = r.globalValue m index := by
  unfold Machine.globalValue Plain.globalValue
  rw [h.cells, ← h.globals]
  cases m.global? index with
  | none => rfl
  | some global =>
    cases global with
    | defined position =>
      simp only [FixedVec.get?_eq]
      cases s.globals.toList[position]? <;> rfl
    | imported position type => rfl

end

theorem follows_getLocal (i : Instruction) : Follows (Machine.localGet i) (Plain.getLocal i) := by
  refine .bind (.ofExcept _) fun index => .get fun below lower s r h => ?_
  rw [h.localValue index]
  cases r.locals[index.toNat]? with
  | none => exact Follows.throw _ below lower s r h
  | some value => exact follows_push value below lower s r h

theorem follows_writeLocal (index : UInt32) (value : Value) :
    Follows (Machine.setLocal index value) (Plain.writeLocal index value) := by
  intro below lower s r h
  have hget := h.get?_locals index.toNat
  unfold FollowsAt Ends Machine.setLocal
  rw [h.localSlot? index]
  by_cases hlt : index.toNat < r.locals.length
  · have hold : r.locals[index.toNat]? = some r.locals[index.toNat] := List.getElem?_eq_getElem hlt
    rw [hold] at hget
    rw [if_pos hlt]
    simp only [hget]
    by_cases htype : r.locals[index.toNat].type = value.type
    · rw [if_pos htype]
      refine ⟨{ r with locals := r.locals.set index.toNat value }, ?_,
        { h with locals := ?_, numLocals := ?_ }⟩
      · unfold Plain.writeLocal
        rw [hold]
        exact if_pos htype
      · show (s.locals.set _ value).toList = lower ++ r.locals.set index.toNat value
        rw [FixedVec.toList_set, h.locals, List.set_append_right _ _ (Nat.le_add_right _ _),
          Nat.add_sub_cancel_left]
      · rw [List.length_set]
        exact h.numLocals
    · rw [if_neg htype]
      refine .inr ⟨r, ?_⟩
      unfold Plain.writeLocal
      rw [hold]
      exact if_neg htype
  · rw [if_neg hlt]
    refine .inr ⟨r, ?_⟩
    unfold Plain.writeLocal
    rw [List.getElem?_eq_none (Nat.le_of_not_lt hlt)]

theorem follows_setLocal (i : Instruction) : Follows (Machine.localSet i) (Plain.setLocal i) :=
  .bind follows_pop fun value => .bind (.ofExcept _) fun index =>
    .bind (follows_writeLocal index value) fun _ => .pure value

theorem follows_getGlobal (m : Module) (i : Instruction) :
    Follows (Machine.globalGet m i) (Plain.getGlobal m i) := by
  refine .bind (.ofExcept _) fun index => .get fun below lower s r h => ?_
  rw [h.globalValue m index]
  exact Follows.bind (.ofExcept _) follows_push below lower s r h

theorem follows_writeGlobal (m : Module) (index : UInt32) (value : Value) :
    Follows (Machine.setGlobal m index value) (Plain.writeGlobal m index value) := by
  unfold Machine.setGlobal Plain.writeGlobal
  cases m.global? index with
  | none => exact .throw _
  | some global =>
    cases global with
    | defined position =>
      cases hentry : m.globals.get? position with
      | none =>
        simp only [hentry]
        exact .throw _
      | some entry =>
        cases hfault : Machine.globalFault? entry.type value with
        | some fault =>
          simp only [hentry, hfault]
          exact .throw _
        | none =>
          simp only [hentry, hfault]
          refine .get fun below lower s r h => ?_
          have hlength : s.globals.length = r.globals.length := by
            rw [← h.globals, FixedVec.length_toList]
          rw [hlength]
          refine Follows.ite (fun below lower s r h => ?_) (.throw _) below lower s r h
          refine ⟨{ r with globals := r.globals.set position value }, rfl,
            { h with globals := ?_ }⟩
          show (s.globals.set position value).toList = _
          rw [FixedVec.toList_set, h.globals]
    | imported position type =>
      cases hfault : Machine.globalFault? type value with
      | some fault =>
        simp only [hfault]
        exact .throw _
      | none =>
        simp only [hfault]
        cases m.bindings.get? position with
        | none => exact .throw _
        | some binding =>
          cases binding with
          | unbound => exact .throw _
          | function binding => exact .throw _
          | cell id =>
            refine .bind (.ofExcept _) fun bits below lower s r h => ?_
            refine ⟨{ r with cells := r.cells.write id bits }, rfl, { h with cells := ?_ }⟩
            show s.host.cells.write id bits = _
            rw [h.cells]

theorem follows_setGlobal (m : Module) (i : Instruction) :
    Follows (Machine.globalSet m i) (Plain.setGlobal m i) :=
  .bind follows_pop fun value => .bind (.ofExcept _) fun index => follows_writeGlobal m index value

/-! ### Operations -/

theorem follows_loadNarrow (i : Instruction) (sign : Sign) :
    Follows (Machine.loadNarrow i .bits8 sign) (Plain.load i 1 (Plain.extended sign 1)) ∧
      Follows (Machine.loadNarrow i .bits16 sign) (Plain.load i 2 (Plain.extended sign 2)) := by
  cases sign with
  | signed => exact ⟨follows_load i 1 _, follows_load i 2 _⟩
  | unsigned => exact ⟨follows_load i 1 _, follows_load i 2 _⟩

theorem work?_follows (m : Module) (enter : UInt32 → Exec Unit) {opcode : Opcode}
    (hcall : opcode ≠ .call) :
    Option.Rel (fun work plain => ∀ i, Follows (work i) (plain i))
      (Machine.work? m enter opcode) (Plain.work? m opcode) := by
  unfold Machine.work?
  split
  -- one case for each line of the table
  · exact .some fun i => .throw _
  · exact .some fun i => .pure _
  · exact .some fun i => .pure _
  · exact .some fun i => .pure _
  · exact absurd rfl hcall
  · exact .some fun i => .discard follows_pop
  · exact .some fun i => follows_select
  · exact .some follows_getLocal
  · exact .some fun i => .discard (follows_setLocal i)
  · exact .some fun i => .bind (follows_setLocal i) follows_push
  · exact .some (follows_getGlobal m)
  · exact .some (follows_setGlobal m)
  · exact .some fun i => follows_load i 4 _
  · exact .some fun i => follows_load i 4 _
  · rename_i part sign
    cases part with
    | bits8 => exact .some fun i => (follows_loadNarrow i sign).1
    | bits16 => exact .some fun i => (follows_loadNarrow i sign).2
  · exact .some fun i => follows_store i 4 _ _
  · exact .some fun i => follows_store i 4 _ _
  · rename_i part
    cases part with
    | bits8 => exact .some fun i => follows_store i 1 _ _
    | bits16 => exact .some fun i => follows_store i 2 _ _
  · refine .some fun i => .get fun below lower s r h => ?_
    rw [h.memory]
    exact follows_push _ below lower s r h
  · exact .some fun i => follows_one _ fun a => follows_push _
  · exact .some fun i => .bind (.ofExcept _) follows_push
  · exact .some fun i => follows_one _ fun a => follows_push _
  · exact .some fun i => follows_two _ fun b a => follows_push _
  · exact .some fun i => follows_one _ fun a => follows_push _
  · exact .some fun i => follows_two _ fun b a => follows_pushResult _ _
  · exact .some fun i => follows_two _ fun b a => follows_push _
  · rename_i operator
    show Option.Rel _ (operator.eval?.map _) (operator.eval?.map _)
    cases operator.eval? with
    | none => exact .none
    | some eval => exact .some fun i => follows_one _ fun a => follows_push _
  · rename_i operator
    show Option.Rel _ (operator.eval?.map _) (operator.eval?.map _)
    cases operator.eval? with
    | none => exact .none
    | some eval => exact .some fun i => follows_two _ fun b a => follows_push _
  · exact .some fun i => follows_one _ fun a => follows_pushResult _ _
  · exact .some fun i => follows_one _ fun a => follows_push _
  · exact .some fun i => follows_one _ fun a => follows_push _
  · exact .some fun i => follows_one _ fun a => follows_push _
  · exact .some fun i => follows_one _ fun a => follows_push _
  -- the plain table has no line for any other operation either
  · unfold Plain.work?
    split
    all_goals first | exact .none | (exfalso; simp at *)

end BoundedWasm
