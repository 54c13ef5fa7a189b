import BoundedWasm.Proofs.Machine.Change
import BoundedWasm.Proofs.Machine.Session

/-!
# BoundedWasm.Proofs.Machine.TypedPops — one interface, two ways to pop at a type

A host pops integers and floats from a machine, and so does a native function while it runs.  The
machine looks at the top value first and takes it only if it has the type that was asked for; the
native function takes the value and then reads it.  Both give the same answer, always, and both fail
without an effect when the running activation has no operand.  They differ where the top value is of
another type (`Mistyped`): the machine leaves it where it is, and for the native function it is gone
(`typed_pops_agree_unless_mistyped`).
-/

namespace BoundedWasm

open BoundedWasm.Action Limits

/-- The pops at a type that a machine and the context of a native function both have. -/
inductive TypedPop where
  | i32
  | u32
  | f32

namespace TypedPop

/-- Bits, or a number where these are read as unsigned. -/
def Answer : TypedPop → Type
  | i32 | f32 => BitVec 32
  | u32 => UInt32

/-- The type of the value that is popped. -/
def type : TypedPop → ValueType
  | i32 | u32 => .i32
  | f32 => .f32

/-- What is made of the value. -/
def read : (pop : TypedPop) → Value → Except Fault pop.Answer
  | i32 => Value.asI32
  | u32 => fun value => value.asI32.map UInt32.ofBitVec
  | f32 => Value.asF32

/-- The pop of a machine. -/
def machine : (pop : TypedPop) → Exec pop.Answer
  | i32 => Machine.popI32
  | u32 => Machine.popU32
  | f32 => Machine.popF32

/-- The pop of a native function, which then goes on. -/
def native : (pop : TypedPop) → (next : Except Fault pop.Answer → Native) → Native
  | i32, next => Native.popI32 next
  | u32, next => Native.popU32 next
  | f32, next => Native.popF32 next

/-- A value is read exactly when it has the type, and there is one way not to read it. -/
theorem read_cases (pop : TypedPop) (value : Value) :
    (value.type = pop.type ∧ ∃ answer, pop.read value = .ok answer) ∨
      (value.type ≠ pop.type ∧ pop.read value = .error .unexpectedType) := by
  cases pop <;> cases value <;>
    first
      | exact .inl ⟨rfl, _, rfl⟩
      | exact .inr ⟨by simp [Value.type, type], rfl⟩

end TypedPop

namespace Machine

variable {s : Machine} {pop : TypedPop}

/-- The machine when the top value is gone. -/
def dropped (s : Machine) : Machine := { s with stack := s.stack.pop }

/-- The running activation has an operand, and the top one is of another type. -/
def Mistyped (pop : TypedPop) (s : Machine) : Prop :=
  s.frame.stackBase < s.stack.length ∧
    ∃ value, s.stack.last? = some value ∧ value.type ≠ pop.type

theorem not_mistyped {value : Value} (hlast : s.stack.last? = some value)
    (htype : value.type = pop.type) : ¬ Mistyped pop s := by
  rintro ⟨-, found, hfound, hne⟩
  have hsame : value = found := Option.some.inj (hlast.symm.trans hfound)
  exact hne (hsame ▸ htype)

/-! ### The two runs -/

/-- The running activation has no operand, or the top one is the last of the stack. -/
theorem top_cases (s : Machine) :
    (s.stack.length ≤ s.frame.stackBase ∧ top s = .error .stackUnderflow s) ∨
      (s.frame.stackBase < s.stack.length ∧
        ∃ value, s.stack.last? = some value ∧ top s = .ok value s) := by
  cases hrun : top s with
  | ok value s' =>
    obtain ⟨rfl, hlt, hlast⟩ := (top_ends s).of_ok hrun
    exact .inr ⟨hlt, value, hlast, rfl⟩
  | error fault s' =>
    obtain ⟨rfl, rfl, hle⟩ := (top_ends s).of_error hrun
    exact .inl ⟨hle, rfl⟩

theorem pop_run (s : Machine) :
    Machine.pop s = match top s with
      | .ok value s' => .ok value (dropped s')
      | .error fault s' => .error fault s' := by
  rw [Machine.pop, bind_run]
  cases top s <;> rfl

theorem popAs_run {α : Type} (read : Value → Except Fault α) (s : Machine) :
    popAs read s = match top s with
      | .ok value s' =>
        match read value with
        | .ok answer => .ok answer (dropped s')
        | .error fault => .error fault s'
      | .error fault s' => .error fault s' := by
  rw [popAs, bind_run]
  cases top s with
  | error fault s' => rfl
  | ok value s' =>
    simp only [bind_run]
    cases read value <;> rfl

theorem machine_run (pop : TypedPop) (s : Machine) : pop.machine s = popAs pop.read s := by
  cases pop with
  | i32 => rfl
  | f32 => rfl
  | u32 =>
    show (UInt32.ofBitVec <$> popAs Value.asI32) s = _
    rw [map_run, popAs_run, popAs_run]
    cases top s with
    | error fault s' => rfl
    | ok value s' => cases value <;> rfl

theorem native_run (pop : TypedPop) (next : Except Fault pop.Answer → Native) (s : Machine) :
    (pop.native next).run s = match top s with
      | .ok value s' => (next (pop.read value)).run (dropped s')
      | .error fault s' => (next (.error fault)).run s' := by
  have hpop {after : Except Fault Value → Native} : (Native.pop after).run s = match top s with
      | .ok value s' => (after (.ok value)).run (dropped s')
      | .error fault s' => (after (.error fault)).run s' := by
    rw [Native.run, bind_run, observe, pop_run]
    cases top s <;> rfl
  cases pop with
  | i32 | u32 | f32 => exact hpop

/-! ### Where they agree -/

/-- For every machine a typed pop gives a native function and the host the same answer, and leaves
them the same machine exactly when the top value is not of another type; a failing pop then leaves
the machine as it was.  A value of another type stays for the host, and is taken from the native
function. -/
theorem typed_pops_agree_unless_mistyped (pop : TypedPop) (s : Machine) :
    ∃ answer left kept, (∀ next, (pop.native next).run s = (next answer).run left) ∧
      observe pop.machine s = .ok answer kept ∧
      (left.stack.toList = kept.stack.toList ↔ ¬ Mistyped pop s) ∧
      (¬ Mistyped pop s → left = kept ∧ ∀ fault, answer = .error fault → left = s) ∧
      (Mistyped pop s → answer = .error .unexpectedType ∧ kept = s ∧ left = dropped s) := by
  rcases top_cases s with ⟨hle, htop⟩ | ⟨hlt, value, hlast, htop⟩
  · have hnot : ¬ Mistyped pop s := fun h => absurd h.1 (by omega)
    refine ⟨.error .stackUnderflow, s, s, fun next => by rw [native_run, htop], ?_,
      ⟨fun _ => hnot, fun _ => rfl⟩, fun _ => ⟨rfl, fun _ _ => rfl⟩, fun h => absurd h hnot⟩
    rw [observe, machine_run, popAs_run, htop]
  · rcases pop.read_cases value with ⟨htype, answer, hread⟩ | ⟨htype, hread⟩
    · have hnot : ¬ Mistyped pop s := not_mistyped hlast htype
      refine ⟨.ok answer, dropped s, dropped s, fun next => by simp only [native_run, htop, hread],
        ?_,
        ⟨fun _ => hnot, fun _ => rfl⟩, fun _ => ⟨rfl, fun _ h => by cases h⟩,
        fun h => absurd h hnot⟩
      simp only [observe, machine_run, popAs_run, htop, hread]
    · have hmistyped : Mistyped pop s := ⟨hlt, value, hlast, htype⟩
      refine ⟨.error .unexpectedType, dropped s, s,
        fun next => by simp only [native_run, htop, hread], ?_,
        ⟨fun hsame => ?_, fun h => absurd hmistyped h⟩, fun h => absurd hmistyped h,
        fun _ => ⟨rfl, rfl, rfl⟩⟩
      · simp only [observe, machine_run, popAs_run, htop, hread]
      · have hlength : s.stack.pop.length = s.stack.length :=
          FixedVec.length_eq_of_toList hsame
        rw [FixedVec.length_pop] at hlength
        omega

/-- A native function that asks for a float and reports why there was none. -/
def floatOrFail : Native :=
  TypedPop.f32.native fun answer => .finish (answer.map fun _ => ())

/-- Asked for a float with an integer on the stack, machine and native function fail in the same
way.  The integer can still be popped from the machine, and from the native function it is gone. -/
theorem mistyped_pop_consumes : ∃ s kept left, Reachable .adder s ∧ s.stack.toList = [.i32 5] ∧
    TypedPop.f32.machine s = .error .unexpectedType kept ∧
    floatOrFail.run s = .error .unexpectedType left ∧
    kept.stack.toList = [.i32 5] ∧ TypedPop.i32.machine.fault? kept = none ∧
    left.stack.toList = [] ∧ TypedPop.i32.machine.fault? left = some .stackUnderflow := by
  have hstack : adderMachine.stack.toList = [.i32 5] := by decide +kernel
  have hmachine : TypedPop.f32.machine.fault? adderMachine = some .unexpectedType := by
    decide +kernel
  have hnative : floatOrFail.run.fault? adderMachine = some .unexpectedType := by decide +kernel
  exact ⟨adderMachine, _, _, adderMachine_reachable, hstack, Action.run_of_fault?_some hmachine,
    Action.run_of_fault?_some hnative, by decide +kernel, by decide +kernel, by decide +kernel,
    by decide +kernel⟩

end Machine

end BoundedWasm
