import BoundedWasm.Proofs.Machine.Operators
import BoundedWasm.Proofs.Numeric.Ordering

/-!
# BoundedWasm.Proofs.Machine.Extremes — least and greatest, and the comparisons

On the patterns of numbers the operators `min` and `max` are those of the order by exact value in
which the negative zero comes before the positive one; whatever else there is among the operands
gives the one quiet pattern.  They take the side of the comparisons, which do not tell the zeros
apart.
-/

namespace BoundedWasm.Machine

open BoundedWasm.Action Single

section Instructions

variable {m : Module} {enter : UInt32 → Exec Unit} {i : Instruction} {s : Machine}
  {below : List Value} {a b : BitVec 32}

theorem settles_binaryF32 {operator : FloatBinary} {eval : BitVec 32 → BitVec 32 → BitVec 32}
    (hi : i.opcode = .floatBinary .w32 operator) (heval : operator.eval? = some eval)
    (h : s.Holds below [.f32 a, .f32 b]) :
    Settles m enter i s below (.ok (.f32 (eval a b))) := by
  refine settles_two Value.asF32 (fun a b => .ok (.f32 (eval a b))) ?_ h rfl rfl
  rw [hi]
  simp only [work?, heval, Option.map_some]
  rfl

theorem settles_compareF32 {operator : FloatCompare}
    (hi : i.opcode = .floatCompare .w32 operator) (h : s.Holds below [.f32 a, .f32 b]) :
    Settles m enter i s below (.ok (.i32 (if operator.holds a b then 1 else 0))) := by
  refine settles_two Value.asF32
    (fun a b => .ok (.i32 (if operator.holds a b then 1 else 0))) ?_ h rfl rfl
  rw [hi]
  rfl

end Instructions

/-- The patterns that denote a number or an infinity stand in a total order, by exact value and, of
the two zeros, with the negative one first.  The operators `min` and `max` give the least and the
greatest in this order, and one quiet pattern if either operand denotes no number, so that they obey
the laws of a lattice.  The comparisons decide the relation of exact values, and what they say is
less is the lesser.  The instructions settle to that on any machine that holds the operands. -/
theorem extremes_exact :
    (FloatBinary.min.eval? = some lesser ∧ FloatBinary.max.eval? = some greater) ∧
    (∀ a, reading a = .nan ∨ ∃ x : Number, x.pattern = a) ∧
    (∀ x y : Number,
      (x ≤ y ↔ x.value < y.value ∨
        x.value = y.value ∧ (y.pattern.msb = true → x.pattern.msb = true)) ∧
      (x.value = y.value ↔
        x = y ∨ x.value = ((0 : ℚ) : WithTop ℚ) ∧ y.value = ((0 : ℚ) : WithTop ℚ))) ∧
    (Lifts min lesser ∧ Semilattice lesser) ∧
    (Lifts max greater ∧ Semilattice greater) ∧
    (∀ (operator : FloatCompare) (a b : BitVec 32),
      operator.holds a b = true ↔ operator.Means a b) ∧
    (∀ a b, FloatCompare.lt.holds a b = true → lesser a b = a ∧ greater a b = b) ∧
    ∀ (m : Module) (enter : UInt32 → Exec Unit) (i : Instruction) (s : Machine)
      (below : List Value) (a b : BitVec 32), s.Holds below [.f32 a, .f32 b] →
      (i.opcode = .floatBinary .w32 .min → Settles m enter i s below (.ok (.f32 (lesser a b)))) ∧
      (i.opcode = .floatBinary .w32 .max → Settles m enter i s below (.ok (.f32 (greater a b)))) ∧
      ∀ operator, i.opcode = .floatCompare .w32 operator →
        Settles m enter i s below (.ok (.i32 (if operator.holds a b then 1 else 0))) :=
  ⟨⟨rfl, rfl⟩, nan_or_exists_number,
    fun _ _ => ⟨Number.le_iff, Number.value_eq_iff_eq_or_zero⟩,
    ⟨lifts_min, lifts_min.semilattice min_comm min_assoc min_self⟩,
    ⟨lifts_max, lifts_max.semilattice max_comm max_assoc max_self⟩,
    holds_iff_means, fun _ _ => lesser_greater_of_lt,
    fun _ _ _ _ _ _ _ h => ⟨fun hi => settles_binaryF32 hi rfl h,
      fun hi => settles_binaryF32 hi rfl h, fun _ hi => settles_compareF32 hi h⟩⟩

/-- The least of the two zeros is the negative one, although neither is less than the other. -/
theorem zeros_settle :
    Settles .empty (fun _ => pure ()) (.simple (.floatBinary .w32 .min))
      (holding [.f32 0, .f32 0x80000000]) [] (.ok (.f32 0x80000000)) ∧
    Settles .empty (fun _ => pure ()) (.simple (.floatCompare .w32 .lt))
      (holding [.f32 0x80000000, .f32 0]) [] (.ok (.i32 0)) := by
  obtain ⟨-, -, -, -, -, -, -, hsettles⟩ := extremes_exact
  have hlesser : lesser 0 0x80000000 = 0x80000000 := by decide +kernel
  have hcompare : FloatCompare.lt.holds 0x80000000 0 = false := by decide +kernel
  have hmin := (hsettles .empty (fun _ => pure ()) (.simple (.floatBinary .w32 .min)) _ [] 0
    0x80000000 (holds_holding (by decide))).1 rfl
  have hlt := (hsettles .empty (fun _ => pure ()) (.simple (.floatCompare .w32 .lt)) _ [] 0x80000000
    0 (holds_holding (by decide))).2.2 .lt rfl
  rw [hlesser] at hmin
  rw [hcompare] at hlt
  exact ⟨hmin, hlt⟩

end BoundedWasm.Machine
