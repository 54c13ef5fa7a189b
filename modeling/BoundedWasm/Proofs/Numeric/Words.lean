import BoundedWasm.Numeric.Integer
import Mathlib.Data.Nat.ModEq

/-!
# BoundedWasm.Proofs.Numeric.Words — integer operators in whole numbers and bit positions

What an integer operator makes of words, said without any operation on words: by the whole numbers
that the words stand for (`Sign.value`), or by the bits at their positions.  `Means` holds of the
one word that is the result, `IntBinary.Traps` of the faults of a division.
-/

namespace BoundedWasm

variable {w : Nat}

/-- The whole number that a word stands for. -/
def Sign.value : Sign → BitVec w → Int
  | .signed, a => a.toInt
  | .unsigned, a => a.toNat

/-- Of the positions below `count`, the first that holds a one is `n`, or none does and `n` is
`count`. -/
structure FirstOne (bit : Nat → Bool) (count n : Nat) : Prop where
  bound : n ≤ count
  zeros : ∀ k < n, bit k = false
  one : n < count → bit n = true

/-- The relation of whole numbers that an operator decides. -/
def IntCompare.Means : IntCompare → (a b : BitVec w) → Prop
  | .eq, a, b => a.toNat = b.toNat
  | .ne, a, b => a.toNat ≠ b.toNat
  | .lt sign, a, b => sign.value a < sign.value b
  | .gt sign, a, b => sign.value a > sign.value b
  | .le sign, a, b => sign.value a ≤ sign.value b
  | .ge sign, a, b => sign.value a ≥ sign.value b

/-- The word `r` counts the bits of `a`: zeros from the top, zeros from the bottom, or ones. -/
def IntUnary.Means : IntUnary → (a r : BitVec w) → Prop
  | .clz, a, r => FirstOne a.getMsbD w r.toNat
  | .ctz, a, r => FirstOne a.getLsbD w r.toNat
  | .popcnt, a, r => r.toNat = (List.range w).countP a.getLsbD

namespace IntBinary

/-- The word `r` is the result, unless the operator traps.  Quotients go toward zero, shifts to the
right toward minus infinity, and a rotation moves the bit at each position. -/
def Means : IntBinary → (a b r : BitVec w) → Prop
  | add, a, b, r => (r.toNat : Int) = ((a.toNat : Int) + b.toNat) % 2 ^ w
  | sub, a, b, r => (r.toNat : Int) = ((a.toNat : Int) - b.toNat) % 2 ^ w
  | mul, a, b, r => (r.toNat : Int) = ((a.toNat : Int) * b.toNat) % 2 ^ w
  | div sign, a, b, r => sign.value r = (sign.value a).tdiv (sign.value b)
  | rem sign, a, b, r => sign.value r = (sign.value a).tmod (sign.value b)
  | and, a, b, r => ∀ k < w, r.getLsbD k = (a.getLsbD k && b.getLsbD k)
  | or, a, b, r => ∀ k < w, r.getLsbD k = (a.getLsbD k || b.getLsbD k)
  | xor, a, b, r => ∀ k < w, r.getLsbD k = (a.getLsbD k ^^ b.getLsbD k)
  | shl, a, b, r => (r.toNat : Int) = ((a.toNat : Int) * 2 ^ (b.toNat % w)) % 2 ^ w
  | shr sign, a, b, r => sign.value r = (sign.value a).fdiv (2 ^ (b.toNat % w))
  | rotl, a, b, r => ∀ k < w, r.getLsbD ((k + b.toNat) % w) = a.getLsbD k
  | rotr, a, b, r => ∀ k < w, r.getLsbD k = a.getLsbD ((k + b.toNat) % w)

/-- Nothing can be divided by zero, and one signed quotient is too large. -/
inductive Traps : IntBinary → (a b : BitVec w) → Fault → Prop
  | div (sign : Sign) {a b : BitVec w} (h : b.toNat = 0) : Traps (.div sign) a b .divideByZero
  | rem (sign : Sign) {a b : BitVec w} (h : b.toNat = 0) : Traps (.rem sign) a b .divideByZero
  | overflow {a b : BitVec w} (ha : a.toInt = -2 ^ (w - 1)) (hb : b.toInt = -1) :
    Traps (.div .signed) a b .integerOverflow

end IntBinary

/-! ### Words are determined by what is said of them -/

theorem Sign.value_inj (sign : Sign) {a b : BitVec w} : sign.value a = sign.value b ↔ a = b := by
  cases sign
  · exact BitVec.toInt_inj
  · exact Int.ofNat_inj.trans BitVec.toNat_inj

theorem FirstOne.unique {bit : Nat → Bool} {count n n' : Nat} (h : FirstOne bit count n)
    (h' : FirstOne bit count n') : n = n' := by
  rcases Nat.lt_trichotomy n n' with hlt | heq | hgt
  · have hone := h.one (by have := h'.bound; omega)
    rw [h'.zeros n hlt] at hone
    cases hone
  · exact heq
  · have hone := h'.one (by have := h.bound; omega)
    rw [h.zeros n' hgt] at hone
    cases hone

theorem IntUnary.Means.unique {op : IntUnary} {a r r' : BitVec w} (h : op.Means a r)
    (h' : op.Means a r') : r = r' := by
  cases op
  · exact BitVec.eq_of_toNat_eq (FirstOne.unique h h')
  · exact BitVec.eq_of_toNat_eq (FirstOne.unique h h')
  · exact BitVec.eq_of_toNat_eq (Eq.trans h (Eq.symm h'))

/-- Each position is where a rotation puts some bit. -/
theorem exists_add_mod_eq (c : Nat) {j : Nat} (hj : j < w) : ∃ k < w, (k + c) % w = j := by
  have hc : c % w < w := Nat.mod_lt c (by omega)
  by_cases hle : c % w ≤ j
  · refine ⟨j - c % w, by omega, ?_⟩
    rw [← Nat.add_mod_mod, Nat.sub_add_cancel hle, Nat.mod_eq_of_lt hj]
  · refine ⟨j + w - c % w, by omega, ?_⟩
    rw [← Nat.add_mod_mod, Nat.sub_add_cancel (by omega), Nat.add_mod_right, Nat.mod_eq_of_lt hj]

theorem IntBinary.Means.unique {op : IntBinary} {a b r r' : BitVec w} (h : op.Means a b r)
    (h' : op.Means a b r') : r = r' := by
  cases op with
  | add | sub | mul | shl => exact BitVec.eq_of_toNat_eq (Int.ofNat_inj.mp (h.trans h'.symm))
  | div sign | rem sign | shr sign => exact sign.value_inj.mp (h.trans h'.symm)
  | and | or | xor | rotr =>
    exact BitVec.eq_of_getLsbD_eq fun k hk => (h k hk).trans (h' k hk).symm
  | rotl =>
    refine BitVec.eq_of_getLsbD_eq fun j hj => ?_
    obtain ⟨k, hk, rfl⟩ := exists_add_mod_eq b.toNat hj
    exact (h k hk).trans (h' k hk).symm

/-! ### Comparisons and counts -/

theorem IntCompare.holds_iff (op : IntCompare) (a b : BitVec w) :
    op.holds a b = true ↔ op.Means a b := by
  cases op with
  | eq => simp [holds, Means, BitVec.toNat_inj]
  | ne => simp [holds, Means, BitVec.toNat_inj]
  | lt sign | gt sign | le sign | ge sign =>
    cases sign <;> simp [holds, Means, Sign.value, BitVec.slt_iff_toInt_lt, BitVec.sle_iff_toInt_le,
      BitVec.ult_iff_toNat_lt, BitVec.ule_iff_toNat_le]

theorem firstOne_ctz (a : BitVec w) : FirstOne a.getLsbD w a.ctz.toNat := by
  have hle : a.ctz.toNat ≤ w := by
    rw [BitVec.ctz_eq_reverse_clz]
    simpa [BitVec.le_def, Nat.mod_eq_of_lt Nat.lt_two_pow_self] using
      BitVec.clz_le (x := a.reverse)
  refine ⟨hle, fun k hk => BitVec.getLsbD_false_of_lt_ctz hk, fun hlt => ?_⟩
  refine BitVec.getLsbD_true_ctz_of_ne_zero (BitVec.ctz_lt_iff_ne_zero.mp ?_)
  simpa [BitVec.lt_def, Nat.mod_eq_of_lt Nat.lt_two_pow_self] using hlt

/-- The ones among the lowest `count` bits. -/
theorem cpopNatRec_eq_countP (a : BitVec w) (count : Nat) :
    a.cpopNatRec count 0 = (List.range count).countP a.getLsbD := by
  induction count with
  | zero => rfl
  | succ count ih =>
    rw [BitVec.cpopNatRec_succ, BitVec.cpopNatRec_add, ih, List.range_succ, List.countP_append,
      List.countP_singleton]
    cases a.getLsbD count <;> rfl

theorem IntUnary.eval_means (op : IntUnary) (a : BitVec w) : op.Means a (op.eval a) := by
  cases op with
  | clz =>
    -- from the top is from the bottom of the reversed word
    have h := firstOne_ctz a.reverse
    rw [← BitVec.clz_eq_reverse_ctz] at h
    have hbits : a.reverse.getLsbD = a.getMsbD := funext fun _ => BitVec.getLsbD_reverse
    rwa [hbits] at h
  | ctz => exact firstOne_ctz a
  | popcnt => exact (BitVec.toNat_cpop a).trans (cpopNatRec_eq_countP a w)

/-! ### Operators on two words -/

namespace IntBinary

variable {a b r : BitVec w}

theorem toInt_eq_neg_one_iff : b.toInt = -1 ↔ 0 < w ∧ b = -1 := by
  rcases Nat.eq_zero_or_pos w with rfl | hw
  · simp [BitVec.eq_nil b]
  · have hminus : (-1 : BitVec w).toInt = -1 := by
      show (-1#w).toInt = -1
      rw [BitVec.neg_one_eq_allOnes, BitVec.toInt_allOnes, if_pos hw]
    constructor
    · intro h
      exact ⟨hw, BitVec.toInt_inj.mp (h.trans hminus.symm)⟩
    · rintro ⟨-, rfl⟩
      exact hminus

theorem toInt_eq_least_iff (hw : 0 < w) : a.toInt = -2 ^ (w - 1) ↔ a = BitVec.intMin w := by
  rw [← BitVec.toInt_intMin_of_pos hw, BitVec.toInt_inj]

theorem toNat_eq_zero_iff : b.toNat = 0 ↔ b = 0 := by
  rw [← BitVec.toNat_inj]
  simp

/-- A rotation to the left puts the bit at a place `count` places up, around the end. -/
theorem getLsbD_rotateLeft_add (a : BitVec w) (count : Nat) {k : Nat} (hk : k < w) :
    (a.rotateLeft (count % w)).getLsbD ((k + count) % w) = a.getLsbD k := by
  have hcount : count % w < w := Nat.mod_lt count (by omega)
  rw [BitVec.getLsbD_rotateLeft, Nat.mod_mod, ← Nat.add_mod_mod]
  by_cases hlt : k + count % w < w
  · have hplace : ¬ k + count % w < count % w := by omega
    simp [Nat.mod_eq_of_lt hlt, hlt, hplace]
  · have hplace : (k + count % w) % w = k + count % w - w := by
      rw [Nat.mod_eq_sub_mod (by omega), Nat.mod_eq_of_lt (by omega)]
    have hback : w - count % w + (k + count % w - w) = k := by omega
    have hsmall : k + count % w - w < count % w := by omega
    simp [hplace, hback, hsmall]

theorem getLsbD_rotateRight_eq (a : BitVec w) (count : Nat) {k : Nat} (hk : k < w) :
    (a.rotateRight (count % w)).getLsbD k = a.getLsbD ((k + count) % w) := by
  have hcount : count % w < w := Nat.mod_lt count (by omega)
  rw [BitVec.getLsbD_rotateRight, Nat.mod_mod, ← Nat.add_mod_mod]
  by_cases hlt : k < w - count % w
  · have hplace : (k + count % w) % w = count % w + k := by
      rw [Nat.mod_eq_of_lt (by omega), Nat.add_comm]
    simp [hlt, hplace]
  · have hplace : (k + count % w) % w = k - (w - count % w) := by
      rw [Nat.mod_eq_sub_mod (by omega), Nat.mod_eq_of_lt (by omega)]
      omega
    simp [hlt, hplace, hk]

theorem eval_of_traps {op : IntBinary} {fault : Fault} (h : op.Traps a b fault) :
    op.eval a b = .error fault := by
  rcases h with @⟨sign, _, _, hb⟩ | @⟨sign, _, _, hb⟩ | ⟨ha, hb⟩
  · cases sign <;> exact if_pos (toNat_eq_zero_iff.mp hb)
  · cases sign <;> exact if_pos (toNat_eq_zero_iff.mp hb)
  · obtain ⟨hw, hminus⟩ := toInt_eq_neg_one_iff.mp hb
    have hne : b ≠ 0 := by
      rintro rfl
      simp at hb
    exact (if_neg hne).trans (if_pos ⟨(toInt_eq_least_iff hw).mp ha, hminus⟩)

/-- Every division tests its divisor first. -/
theorem divisor_cases {outcome otherwise : Except Fault (BitVec w)}
    (h : (if b = 0 then .error .divideByZero else otherwise) = outcome) :
    (b.toNat = 0 ∧ outcome = .error .divideByZero) ∨ (b.toNat ≠ 0 ∧ otherwise = outcome) := by
  by_cases hb : b = 0
  · rw [if_pos hb] at h
    exact .inl ⟨toNat_eq_zero_iff.mpr hb, h.symm⟩
  · rw [if_neg hb] at h
    exact .inr ⟨mt toNat_eq_zero_iff.mp hb, h⟩

theorem traps_of_eval {op : IntBinary} {fault : Fault} (h : op.eval a b = .error fault) :
    op.Traps a b fault := by
  cases op with
  | div sign =>
    cases sign
    · obtain ⟨hb, hfault⟩ | ⟨hb, hquotient⟩ := divisor_cases h
      · cases hfault
        exact .div .signed hb
      · split_ifs at hquotient with hover
        cases hquotient
        have hw : 0 < w := Nat.pos_of_ne_zero fun h0 => hb (by subst h0; omega)
        exact .overflow ((toInt_eq_least_iff hw).mpr hover.1)
          (toInt_eq_neg_one_iff.mpr ⟨hw, hover.2⟩)
    · obtain ⟨hb, hfault⟩ | ⟨-, hquotient⟩ := divisor_cases h
      · cases hfault
        exact .div .unsigned hb
      · cases hquotient
  | rem sign =>
    cases sign
    all_goals
      obtain ⟨hb, hfault⟩ | ⟨-, hremainder⟩ := divisor_cases h
      · cases hfault
        exact .rem _ hb
      · cases hremainder
  | shr sign => cases sign <;> cases h
  | _ => cases h

theorem natCast_toNat_sub (a b : BitVec w) :
    ((a - b).toNat : Int) = ((a.toNat : Int) - b.toNat) % 2 ^ w := by
  have hborrow :
      ((2 ^ w - b.toNat + a.toNat : Nat) : Int) = (a.toNat : Int) - b.toNat + 2 ^ w := by
    have hlt := b.isLt
    rw [Int.natCast_add, Int.ofNat_sub (Nat.le_of_lt hlt)]
    simp only [Int.natCast_pow, Nat.cast_ofNat]
    omega
  rw [BitVec.toNat_sub, Int.natCast_mod, hborrow]
  simp

theorem toInt_divSigned (h : divSigned a b = .ok r) : r.toInt = a.toInt.tdiv b.toInt := by
  obtain ⟨-, hfault⟩ | ⟨-, hquotient⟩ := divisor_cases h
  · cases hfault
  split_ifs at hquotient with hover
  cases hquotient
  refine BitVec.toInt_sdiv_of_ne_or_ne a b ?_
  rw [← not_and_or]
  exact hover

/-- A shift to the right divides toward minus infinity, under either sign. -/
theorem value_shr (sign : Sign) {count : Nat} (h : (shr sign).eval a b = .ok r)
    (hcount : b.toNat % w = count) : sign.value r = (sign.value a).fdiv (2 ^ count) := by
  have hpositive : (0 : Int) ≤ 2 ^ count := Int.le_of_lt (Int.pow_pos (by decide))
  rw [Int.fdiv_eq_ediv_of_nonneg _ hpositive]
  cases sign <;> cases h
  · simp [Sign.value, hcount, BitVec.toInt_sshiftRight, Int.shiftRight_eq_div_pow]
  · simp [Sign.value, hcount, Nat.shiftRight_eq_div_pow]

/-- The result is the word that the operator is defined to give. -/
theorem means_of_eval {op : IntBinary} (h : op.eval a b = .ok r) : op.Means a b r := by
  cases op with
  | add =>
    cases h
    simp [Means, BitVec.toNat_add]
  | sub =>
    cases h
    exact natCast_toNat_sub a b
  | mul =>
    cases h
    simp [Means, BitVec.toNat_mul]
  | div sign =>
    cases sign
    · exact toInt_divSigned h
    · obtain ⟨-, hfault⟩ | ⟨-, hquotient⟩ := divisor_cases h
      · cases hfault
      · cases hquotient
        exact Int.ofNat_tdiv a.toNat b.toNat
  | rem sign =>
    cases sign
    · obtain ⟨-, hfault⟩ | ⟨-, hremainder⟩ := divisor_cases h
      · cases hfault
      · cases hremainder
        exact BitVec.toInt_srem a b
    · obtain ⟨-, hfault⟩ | ⟨-, hremainder⟩ := divisor_cases h
      · cases hfault
      · cases hremainder
        exact Int.ofNat_tmod a.toNat b.toNat
  | and | or | xor =>
    cases h
    simp [Means]
  | shl =>
    cases h
    simp [Means, BitVec.toNat_shiftLeft, Nat.shiftLeft_eq]
  | shr sign => exact value_shr sign h rfl
  | rotl =>
    cases h
    exact fun k hk => getLsbD_rotateLeft_add a b.toNat hk
  | rotr =>
    cases h
    exact fun k hk => getLsbD_rotateRight_eq a b.toNat hk

/-! ### Operators together -/

theorem value_eq_zero_iff (sign : Sign) : sign.value b = 0 ↔ b.toNat = 0 := by
  have hzero : sign.value (0 : BitVec w) = 0 := by cases sign <;> simp [Sign.value]
  rw [← hzero, sign.value_inj, toNat_eq_zero_iff]

/-- Quotient and remainder make up the dividend; the remainder is smaller than the divisor, and on
the side of the dividend. -/
theorem Means.division {sign : Sign} {q : BitVec w} (hq : (div sign).Means a b q)
    (hb : b.toNat ≠ 0) (hr : (rem sign).Means a b r) :
    sign.value a = sign.value b * sign.value q + sign.value r ∧
      (sign.value r).natAbs < (sign.value b).natAbs ∧
      (0 ≤ sign.value a → 0 ≤ sign.value r) ∧ (sign.value a ≤ 0 → sign.value r ≤ 0) := by
  have hquotient : sign.value q = (sign.value a).tdiv (sign.value b) := hq
  have hremainder : sign.value r = (sign.value a).tmod (sign.value b) := hr
  have hdivisor : (sign.value b).natAbs ≠ 0 := by
    rw [Int.natAbs_ne_zero]
    exact fun h => hb ((value_eq_zero_iff sign).mp h)
  rw [hquotient, hremainder]
  refine ⟨(Int.mul_tdiv_add_tmod _ _).symm, ?_, Int.tmod_nonneg _, fun hside => ?_⟩
  · rw [Int.natAbs_tmod]
    exact Nat.mod_lt _ (Nat.pos_of_ne_zero hdivisor)
  · have hopposite := Int.tmod_nonneg (sign.value b) (Int.neg_nonneg_of_nonpos hside)
    rw [Int.neg_tmod] at hopposite
    omega

/-- Either rotation undoes the other. -/
theorem eval_rotl_iff_eval_rotr : rotl.eval a b = .ok r ↔ rotr.eval r b = .ok a := by
  have hleft : rotl.Means a b (a.rotateLeft (b.toNat % w)) := means_of_eval rfl
  have hright : rotr.Means r b (r.rotateRight (b.toNat % w)) := means_of_eval rfl
  constructor
  · intro h
    have hback : rotr.Means r b a := fun k hk => (means_of_eval h k hk).symm
    exact congrArg Except.ok (hright.unique hback)
  · intro h
    have hforth : rotl.Means a b r := fun k hk => (means_of_eval h k hk).symm
    exact congrArg Except.ok (hleft.unique hforth)

end IntBinary

end BoundedWasm
