import BoundedWasm.Proofs.Machine.MemoryAccess
import BoundedWasm.Proofs.Numeric.Words
import Mathlib.Data.List.Basic

/-!
# BoundedWasm.Proofs.Machine.Operators — instructions that compute on the operand stack

An operator takes its operands off the stack and leaves its result there, or its fault
(`Machine.Settles`); nothing else of the machine changes.  The integer instructions settle to what
they are defined to give (`Opcode.Gives`), which is one outcome for all operands.
-/

namespace BoundedWasm

open BoundedWasm.Action Limits

/-! ### Definitions -/

/-- The word is one if the statement holds, and zero if not. -/
def Reports (statement : Prop) (r : BitVec 32) : Prop :=
  statement ∧ r = 1 ∨ ¬ statement ∧ r = 0

namespace Opcode

/-- The instructions on 32-bit integers, and how many operands they take. -/
inductive Takes : Opcode → Nat → Prop
  | eqz : Takes (.eqz .w32) 1
  | compare (operator : IntCompare) : Takes (.intCompare .w32 operator) 2
  | unary (operator : IntUnary) : Takes (.intUnary .w32 operator) 1
  | binary (operator : IntBinary) : Takes (.intBinary .w32 operator) 2

/-- What these instructions are defined to make of their operands; the first was pushed first. -/
inductive Gives : Opcode → List (BitVec 32) → Except Fault (BitVec 32) → Prop
  | eqz {a r : BitVec 32} (h : Reports (a.toNat = 0) r) : Gives (.eqz .w32) [a] (.ok r)
  | compare {operator : IntCompare} {a b r : BitVec 32} (h : Reports (operator.Means a b) r) :
    Gives (.intCompare .w32 operator) [a, b] (.ok r)
  | unary {operator : IntUnary} {a r : BitVec 32} (h : operator.Means a r) :
    Gives (.intUnary .w32 operator) [a] (.ok r)
  | binary {operator : IntBinary} {a b r : BitVec 32}
    (hsafe : ∀ fault, ¬ operator.Traps a b fault) (h : operator.Means a b r) :
    Gives (.intBinary .w32 operator) [a, b] (.ok r)
  | trap {operator : IntBinary} {a b : BitVec 32} {fault : Fault}
    (h : operator.Traps a b fault) : Gives (.intBinary .w32 operator) [a, b] (.error fault)

end Opcode

theorem reports_ite {statement : Prop} {b : Bool} (h : b = true ↔ statement) :
    Reports statement (if b then 1 else 0) := by
  cases b
  · exact .inr ⟨fun hs => Bool.false_ne_true (h.mpr hs), rfl⟩
  · exact .inl ⟨h.mp rfl, rfl⟩

theorem Reports.unique {statement : Prop} {r r' : BitVec 32} (h : Reports statement r)
    (h' : Reports statement r') : r = r' := by
  rcases h with ⟨h, rfl⟩ | ⟨h, rfl⟩ <;> rcases h' with ⟨h', rfl⟩ | ⟨h', rfl⟩
  · rfl
  · exact absurd h h'
  · exact absurd h' h
  · rfl

/-- The definition leaves no choice. -/
theorem Opcode.Gives.unique {opcode : Opcode} {operands : List (BitVec 32)}
    {outcome outcome' : Except Fault (BitVec 32)} (h : opcode.Gives operands outcome)
    (h' : opcode.Gives operands outcome') : outcome = outcome' := by
  rcases h with h | h | h | ⟨hsafe, h⟩ | h
  · rcases h' with h' | _ | _ | _ | _
    rw [h.unique h']
  · rcases h' with _ | h' | _ | _ | _
    rw [h.unique h']
  · rcases h' with _ | _ | h' | _ | _
    rw [h.unique h']
  · rcases h' with _ | _ | _ | ⟨-, h'⟩ | h'
    · rw [h.unique h']
    · exact absurd h' (hsafe _)
  · rcases h' with _ | _ | _ | ⟨hsafe, -⟩ | h'
    · exact absurd h (hsafe _)
    · exact (IntBinary.eval_of_traps h).symm.trans (IntBinary.eval_of_traps h')

namespace Machine

/-- The instruction replaces the operands above `below` by a value, or takes them off and ends its
body in a fault. -/
def Settles (m : Module) (enter : UInt32 → Exec Unit) (i : Instruction) (s : Machine)
    (below : List Value) : Except Fault Value → Prop
  | .ok value => ∃ stack, stack.toList = below ++ [value] ∧ Executes m enter i s { s with stack }
  | .error fault => ∃ stack, stack.toList = below ∧ Faults m enter i s fault { s with stack }

/-! ### Operand patterns -/

section Work

variable {m : Module} {enter : UInt32 → Exec Unit} {i : Instruction} {s : Machine}
  {below : List Value} {α : Type} (read : Value → Except Fault α)

/-- Once the operands are off the stack, there is room for the result. -/
theorem settles_of_run {work : Instruction → Exec Unit}
    (hwork : work? m enter i.opcode = some work) {stack : FixedVec Value maxOperandStack}
    (h : { s with stack }.Holds below []) (hroom : below.length < maxOperandStack)
    {outcome : Except Fault Value}
    (hrun : work i s = (Action.ofExcept outcome >>= push) { s with stack }) :
    Settles m enter i s below outcome := by
  have hstack : stack.toList = below := h.stack.trans (List.append_nil below)
  rcases outcome with fault | value
  · exact ⟨stack, hstack, faults_of_work hwork hrun⟩
  · have hlength : stack.length < maxOperandStack := by
      rwa [← FixedVec.length_toList, hstack]
    obtain ⟨hpush, hholds⟩ := h.push hlength value
    exact ⟨stack.put value, hholds.stack, executes_of_work hwork (hrun.trans hpush)⟩

theorem settles_one (eval : α → Except Fault Value) {value : Value} {a : α}
    (hwork : work? m enter i.opcode
      = some fun _ => popAs read >>= fun a => Action.ofExcept (eval a) >>= push)
    (h : s.Holds below [value]) (hread : read value = .ok a) :
    Settles m enter i s below (eval a) := by
  obtain ⟨hpop, hrest⟩ := Holds.popAs [] h hread
  exact settles_of_run hwork hrest h.room (by rw [bind_run, hpop])

theorem settles_two (eval : α → α → Except Fault Value) {first second : Value} {a b : α}
    (hwork : work? m enter i.opcode = some fun _ =>
      popAs read >>= fun b => popAs read >>= fun a => Action.ofExcept (eval a b) >>= push)
    (h : s.Holds below [first, second]) (hfirst : read first = .ok a)
    (hsecond : read second = .ok b) : Settles m enter i s below (eval a b) := by
  obtain ⟨hpop, hrest⟩ := Holds.popAs [first] h hsecond
  obtain ⟨hpop', hrest'⟩ := Holds.popAs [] hrest hfirst
  refine settles_of_run (s := s) hwork hrest' h.room ?_
  simp only [bind_run, hpop, hpop']

end Work

/-! ### The integer instructions -/

section Integer

variable {m : Module} {enter : UInt32 → Exec Unit} {i : Instruction} {s : Machine}
  {below : List Value} {a b : BitVec 32}

theorem settles_eqz (hi : i.opcode = .eqz .w32) (h : s.Holds below [.i32 a]) :
    Settles m enter i s below (.ok (.i32 (if a == 0 then 1 else 0))) := by
  refine settles_one Value.asI32 (fun a => .ok (.i32 (if a == 0 then 1 else 0))) ?_ h rfl
  rw [hi]
  rfl

theorem settles_unary {operator : IntUnary} (hi : i.opcode = .intUnary .w32 operator)
    (h : s.Holds below [.i32 a]) :
    Settles m enter i s below (.ok (.i32 (operator.eval a))) := by
  refine settles_one Value.asI32 (fun a => .ok (.i32 (operator.eval a))) ?_ h rfl
  rw [hi]
  rfl

theorem settles_compare {operator : IntCompare} (hi : i.opcode = .intCompare .w32 operator)
    (h : s.Holds below [.i32 a, .i32 b]) :
    Settles m enter i s below (.ok (.i32 (if operator.holds a b then 1 else 0))) := by
  refine settles_two Value.asI32
    (fun a b => .ok (.i32 (if operator.holds a b then 1 else 0))) ?_ h rfl rfl
  rw [hi]
  rfl

theorem settles_binary {operator : IntBinary} (hi : i.opcode = .intBinary .w32 operator)
    (h : s.Holds below [.i32 a, .i32 b]) :
    Settles m enter i s below ((operator.eval a b).map .i32) := by
  refine settles_two Value.asI32 (fun a b => (operator.eval a b).map .i32) ?_ h rfl rfl
  rw [hi]
  simp only [ofExcept_map_bind]
  rfl

theorem gives_binary (operator : IntBinary) (a b : BitVec 32) :
    Opcode.Gives (.intBinary .w32 operator) [a, b] (operator.eval a b) := by
  rcases h : operator.eval a b with fault | r
  · exact .trap (IntBinary.traps_of_eval h)
  · refine .binary (fun fault htraps => ?_) (IntBinary.means_of_eval h)
    rw [IntBinary.eval_of_traps htraps] at h
    cases h

/-- An integer instruction settles to an outcome that it is defined to give. -/
theorem exists_gives_settles {operands : List (BitVec 32)}
    (htakes : i.opcode.Takes operands.length) :
    ∃ outcome, i.opcode.Gives operands outcome ∧
      ∀ (m : Module) (enter : UInt32 → Exec Unit) (s : Machine) (below : List Value),
        s.Holds below (operands.map .i32) → Settles m enter i s below (outcome.map .i32) := by
  generalize hi : i.opcode = opcode, hn : operands.length = count at htakes
  rcases htakes with _ | operator | operator | operator
  · obtain ⟨a, rfl⟩ := List.length_eq_one_iff.mp hn
    exact ⟨_, .eqz (reports_ite (by simp [IntBinary.toNat_eq_zero_iff])),
      fun m enter s below h => settles_eqz hi h⟩
  · obtain ⟨a, b, rfl⟩ := List.length_eq_two.mp hn
    exact ⟨_, .compare (reports_ite (operator.holds_iff a b)),
      fun m enter s below h => settles_compare hi h⟩
  · obtain ⟨a, rfl⟩ := List.length_eq_one_iff.mp hn
    exact ⟨_, .unary (operator.eval_means a), fun m enter s below h => settles_unary hi h⟩
  · obtain ⟨a, b, rfl⟩ := List.length_eq_two.mp hn
    exact ⟨_, gives_binary operator a b, fun m enter s below h => settles_binary hi h⟩

end Integer

/-- An integer instruction computes what it is defined to: of whatever operands, one outcome is
defined, and with this the instruction settles on any machine that holds them.  Division and
remainder of the same words belong together whenever there are both, and the rotations undo each
other. -/
theorem integer_instructions_exact :
    (∀ (i : Instruction) (operands : List (BitVec 32)), i.opcode.Takes operands.length →
      ∃ outcome, (∀ outcome', i.opcode.Gives operands outcome' ↔ outcome' = outcome) ∧
        ∀ (m : Module) (enter : UInt32 → Exec Unit) (s : Machine) (below : List Value),
          s.Holds below (operands.map .i32) → Settles m enter i s below (outcome.map .i32)) ∧
    (∀ (sign : Sign) (a b q r : BitVec 32), (IntBinary.div sign).eval a b = .ok q →
      (IntBinary.rem sign).eval a b = .ok r →
      sign.value a = sign.value b * sign.value q + sign.value r ∧
        (sign.value r).natAbs < (sign.value b).natAbs ∧
        (0 ≤ sign.value a → 0 ≤ sign.value r) ∧ (sign.value a ≤ 0 → sign.value r ≤ 0)) ∧
    ∀ a b r : BitVec 32, IntBinary.rotl.eval a b = .ok r ↔ IntBinary.rotr.eval r b = .ok a := by
  refine ⟨fun i operands htakes => ?_, fun sign a b q r hq hr => ?_,
    fun _ _ _ => IntBinary.eval_rotl_iff_eval_rotr⟩
  · obtain ⟨outcome, hgives, hsettles⟩ := exists_gives_settles htakes
    refine ⟨outcome, fun outcome' => ⟨fun h => h.unique hgives, ?_⟩, hsettles⟩
    rintro rfl
    exact hgives
  · refine (IntBinary.means_of_eval hq).division (fun hb => ?_) (IntBinary.means_of_eval hr)
    rw [IntBinary.eval_of_traps (.div sign hb)] at hq
    cases hq

/-- A machine without memory that holds these values. -/
def holding (operands : List Value) : Machine where
  memory := ⟨#[], 0, Nat.zero_le _⟩
  globals := .empty
  stack := FixedVec.empty.putAll operands

theorem holds_holding {operands : List Value} (h : operands.length ≤ maxOperandStack) :
    (holding operands).Holds [] operands where
  stack := FixedVec.toList_putAll_empty h
  base := Nat.zero_le _

/-- The quotient goes toward zero, and seven is the dividend. -/
theorem dividing_settles : Settles .empty (fun _ => pure ())
    (.simple (.intBinary .w32 (.div .signed))) (holding [.i32 7, .i32 0xFFFFFFFE]) []
    (.ok (.i32 0xFFFFFFFD)) := by
  obtain ⟨hcomputed, -⟩ := integer_instructions_exact
  obtain ⟨outcome, hgives, hsettles⟩ := hcomputed
    (.simple (.intBinary .w32 (.div .signed))) [7, 0xFFFFFFFE] (.binary (.div .signed))
  have hsafe : ∀ fault, ¬ (IntBinary.div .signed).Traps (7 : BitVec 32) 0xFFFFFFFE fault := by
    rintro fault (_ | _ | ⟨ha, -⟩)
    all_goals contradiction
  have hmeans : (IntBinary.div .signed).Means (7 : BitVec 32) 0xFFFFFFFE 0xFFFFFFFD := by
    show (0xFFFFFFFD : BitVec 32).toInt = _
    decide
  obtain rfl := (hgives (.ok 0xFFFFFFFD)).mp (.binary hsafe hmeans)
  exact hsettles .empty (fun _ => pure ()) _ [] (holds_holding (by decide))

/-- The least number has no quotient by minus one, but a remainder. -/
example : (IntBinary.div .signed).eval (0x80000000 : BitVec 32) 0xFFFFFFFF
      = .error .integerOverflow ∧
    (IntBinary.rem .signed).eval (0x80000000 : BitVec 32) 0xFFFFFFFF = .ok 0 := by
  decide

end Machine

end BoundedWasm
