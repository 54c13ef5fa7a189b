import BoundedWasm.Proofs.Numeric.Reading
import Mathlib.Algebra.Order.Monoid.Unbundled.WithTop
import Mathlib.Data.Prod.Lex

/-!
# BoundedWasm.Proofs.Numeric.Ordering — the patterns of numbers in order

A pattern that denotes a number or an infinity is put in order by its exact value, and of the two
zeros the negative one is the lesser (`Single.Number`).  Within a sign the order of values is that
of the bits below the sign, infinity included, so that a pattern is known by its rank and its sign
(`Single.eq_of_signedUnits`) and the order is total.
-/

namespace BoundedWasm

open Binary (Format Datum)

namespace Single

/-- The rational numbers between two infinities. -/
abbrev Extended : Type := WithBot (WithTop ℚ)

/-- The exact value that is read, if there is one. -/
def Reading.value? : Reading → Option Extended
  | .nan => none
  | .infinite negative => some (if negative then ⊥ else ⊤)
  | .number q => some (q : WithTop ℚ)

/-- A pattern with an exact value. -/
structure Number where
  pattern : BitVec 32
  value : Extended
  value_eq : (reading pattern).value? = some value

end Single

namespace FloatCompare

/-- The relation of exact values that an operator decides. -/
def Relates : FloatCompare → (p q : Single.Extended) → Prop
  | .eq, p, q => p = q
  | .ne, p, q => p ≠ q
  | .lt, p, q => p < q
  | .gt, p, q => p > q
  | .le, p, q => p ≤ q
  | .ge, p, q => p ≥ q

/-- The exact values of the patterns are so related; a pattern without a value differs from all. -/
def Means (operator : FloatCompare) (a b : BitVec 32) : Prop :=
  match (Single.reading a).value?, (Single.reading b).value? with
  | some p, some q => operator.Relates p q
  | _, _ => operator = .ne

end FloatCompare

namespace Single

/-! ### Units, within a sign -/

section Units

variable {x y : BitVec 32}

theorem fields_eq (x : BitVec 32) :
    exponentField x * 2 ^ 23 + fractionField x = x.toNat % 2 ^ 31 := by
  rw [exponentField, fractionField]
  omega

theorem magnitudeUnits_lt_next (x : BitVec 32) :
    magnitudeUnits x < 2 ^ 23 * 2 ^ exponentField x := by
  have hfraction : fractionField x < 2 ^ 23 := Nat.mod_lt _ (by decide)
  unfold magnitudeUnits
  by_cases he : exponentField x = 0
  · rw [if_pos he, he]
    omega
  · obtain ⟨k, hk⟩ := Nat.exists_eq_succ_of_ne_zero he
    rw [if_neg he, hk, Nat.succ_sub_one, Nat.pow_succ 2 k, Nat.mul_comm (2 ^ k), ← Nat.mul_assoc]
    exact Nat.mul_lt_mul_of_pos_right (by omega) (Nat.two_pow_pos k)

theorem le_magnitudeUnits (h : exponentField x ≠ 0) :
    2 ^ 23 * 2 ^ (exponentField x - 1) ≤ magnitudeUnits x := by
  rw [magnitudeUnits, if_neg h]
  exact Nat.mul_le_mul_right _ (Nat.le_add_right _ _)

/-- The bits below the sign order the magnitudes. -/
theorem magnitudeUnits_lt (h : x.toNat % 2 ^ 31 < y.toNat % 2 ^ 31) :
    magnitudeUnits x < magnitudeUnits y := by
  have hx := fields_eq x
  have hy := fields_eq y
  have hfraction : fractionField y < 2 ^ 23 := Nat.mod_lt _ (by decide)
  by_cases he : exponentField x = exponentField y
  · unfold magnitudeUnits
    rw [he]
    split
    · omega
    · exact Nat.mul_lt_mul_of_pos_right (by omega) (Nat.two_pow_pos _)
  · -- the binade of the greater exponent begins where that of the lesser has ended
    have hlt : exponentField x < exponentField y := by omega
    calc magnitudeUnits x < 2 ^ 23 * 2 ^ exponentField x := magnitudeUnits_lt_next x
      _ ≤ 2 ^ 23 * 2 ^ (exponentField y - 1) :=
        Nat.mul_le_mul_left _ (Nat.pow_le_pow_right (by decide) (by omega))
      _ ≤ magnitudeUnits y := le_magnitudeUnits (by omega)

theorem magnitudeUnits_inj (h : magnitudeUnits x = magnitudeUnits y) :
    x.toNat % 2 ^ 31 = y.toNat % 2 ^ 31 := by
  rcases Nat.lt_trichotomy (x.toNat % 2 ^ 31) (y.toNat % 2 ^ 31) with hlt | heq | hlt
  · exact absurd h (Nat.ne_of_lt (magnitudeUnits_lt hlt))
  · exact heq
  · exact absurd h.symm (Nat.ne_of_lt (magnitudeUnits_lt hlt))

/-- Beside the two zeros there are no two patterns of the same number. -/
theorem eq_of_signedUnits (h : signedUnits x = signedUnits y) (hsign : x.msb = y.msb) : x = y := by
  have hmagnitude : magnitudeUnits x = magnitudeUnits y := by
    rw [signedUnits, signedUnits, hsign] at h
    unfold Datum.signed at h
    split at h <;> omega
  have hlow := magnitudeUnits_inj hmagnitude
  have hx := x.isLt
  have hy := y.isLt
  rw [BitVec.msb_eq_decide, BitVec.msb_eq_decide, decide_eq_decide] at hsign
  exact BitVec.eq_of_toNat_eq (by omega)

theorem signedUnits_nonpos (h : x.msb = true) : signedUnits x ≤ 0 := by
  rw [signedUnits, Datum.signed, if_pos h]
  omega

theorem signedUnits_nonneg (h : x.msb = false) : 0 ≤ signedUnits x := by
  rw [signedUnits, Datum.signed, h]
  exact Int.natCast_nonneg _

/-- An infinity has the units of the power of two beyond all numbers. -/
theorem magnitudeUnits_of_infinite {negative : Bool} (h : reading x = .infinite negative) :
    magnitudeUnits x = Format.single.limit := by
  have hlt : exponentField x < 2 ^ 8 := Nat.mod_lt _ (by decide)
  unfold reading at h
  split at h
  · cases h
  rename_i hexponent
  split at h
  · rename_i hfraction
    have htop : exponentField x = 255 := by omega
    rw [magnitudeUnits, htop, hfraction]
    rfl
  · cases h

theorem magnitudeUnits_of_number {q : ℚ} (h : reading x = .number q) :
    magnitudeUnits x < Format.single.limit := by
  unfold reading at h
  split at h
  · calc magnitudeUnits x < 2 ^ 23 * 2 ^ exponentField x := magnitudeUnits_lt_next x
      _ ≤ 2 ^ 23 * 2 ^ 254 :=
        Nat.mul_le_mul_left _ (Nat.pow_le_pow_right (by decide) (by omega))
  · split at h <;> cases h

end Units

/-! ### The order of values -/

namespace Number

/-- The number in units; an infinity has those beyond all numbers. -/
def units (x : Number) : Int := signedUnits x.pattern

variable (x y : Number)

/-- A number is one of the infinities or a fraction, and its rank is in units. -/
theorem cases : rank? x.pattern = some x.units ∧
    ((x.value = ⊥ ∧ x.units = -Format.single.limit) ∨
      (x.value = ⊤ ∧ x.units = Format.single.limit) ∨
      (x.value = (((x.units : ℚ) / 2 ^ 149 : ℚ) : WithTop ℚ) ∧
        -Format.single.limit < x.units ∧ x.units < Format.single.limit)) := by
  obtain ⟨pattern, value, hvalue⟩ := x
  unfold units
  simp only
  obtain ⟨hreading, -⟩ | ⟨hreading, hrank⟩ | ⟨hreading, hrank⟩ := reading_cases pattern
  · rw [hreading] at hvalue
    cases hvalue
  · have hunits := magnitudeUnits_of_infinite hreading
    rw [hreading] at hvalue
    cases hvalue
    rw [hrank, signedUnits, hunits, Datum.signed]
    cases pattern.msb
    · exact ⟨rfl, .inr (.inl ⟨rfl, rfl⟩)⟩
    · exact ⟨rfl, .inl ⟨rfl, rfl⟩⟩
  · have hunits := magnitudeUnits_of_number hreading
    rw [hreading] at hvalue
    cases hvalue
    refine ⟨hrank, .inr (.inr ⟨rfl, ?_⟩)⟩
    rw [signedUnits, Datum.signed]
    split <;> omega

/-- Values are compared as units are. -/
theorem value_lt_iff : x.value < y.value ↔ x.units < y.units := by
  have hlimit : (0 : Int) < Format.single.limit := by decide
  have htop (q : ℚ) : ((q : WithTop ℚ) : Extended) < ⊤ :=
    WithBot.coe_lt_coe.mpr (WithTop.coe_lt_top q)
  obtain ⟨-, ⟨hx, hux⟩ | ⟨hx, hux⟩ | ⟨hx, hlx, hux⟩⟩ := x.cases <;>
    obtain ⟨-, ⟨hy, huy⟩ | ⟨hy, huy⟩ | ⟨hy, hly, huy⟩⟩ := y.cases <;> rw [hx, hy]
  case inr.inr.inr.inr =>
    rw [WithBot.coe_lt_coe, WithTop.coe_lt_coe, div_lt_div_iff_of_pos_right (by positivity),
      Int.cast_lt]
  -- an infinity is on one of the sides, and it is no number
  all_goals
    simp only [lt_self_iff_false, not_lt_bot, not_top_lt, bot_lt_top, WithBot.bot_lt_coe, htop,
      true_iff, false_iff]
    omega

theorem value_eq_iff : x.value = y.value ↔ x.units = y.units := by
  rw [le_antisymm_iff, ← not_lt, ← not_lt, value_lt_iff, value_lt_iff]
  omega

variable {x y}

/-- The pattern says all of a number. -/
theorem eq_of_pattern (h : x.pattern = y.pattern) : x = y := by
  obtain ⟨pattern, value, hvalue⟩ := x
  obtain ⟨pattern', value', hvalue'⟩ := y
  obtain rfl : pattern = pattern' := h
  obtain rfl : value = value' := Option.some.inj (hvalue.symm.trans hvalue')
  rfl

theorem eq_of_value (h : x.value = y.value) (hsign : x.pattern.msb = y.pattern.msb) : x = y :=
  eq_of_pattern (eq_of_signedUnits ((value_eq_iff x y).mp h) hsign)

theorem value_eq_zero_iff : x.value = ((0 : ℚ) : WithTop ℚ) ↔ x.units = 0 := by
  have hlimit : (0 : Int) < Format.single.limit := by decide
  obtain ⟨-, ⟨hx, hux⟩ | ⟨hx, hux⟩ | ⟨hx, -, -⟩⟩ := x.cases <;> rw [hx]
  · simp only [WithBot.bot_ne_coe, false_iff]
    omega
  · rw [← WithBot.coe_top, WithBot.coe_inj]
    simp only [WithTop.top_ne_coe, false_iff]
    omega
  · rw [WithBot.coe_inj, WithTop.coe_inj, div_eq_zero_iff, Int.cast_eq_zero]
    norm_num

/-- The zeros are the only two numbers of one value. -/
theorem value_eq_iff_eq_or_zero : x.value = y.value ↔
    x = y ∨ x.value = ((0 : ℚ) : WithTop ℚ) ∧ y.value = ((0 : ℚ) : WithTop ℚ) := by
  constructor
  · intro h
    by_cases hsign : x.pattern.msb = y.pattern.msb
    · exact .inl (eq_of_value h hsign)
    · -- the units are on both sides of zero
      rw [value_eq_zero_iff, value_eq_zero_iff]
      have hunits := (value_eq_iff x y).mp h
      refine .inr ?_
      cases hx : x.pattern.msb <;> cases hy : y.pattern.msb
      · exact absurd (hx.trans hy.symm) hsign
      · have hnonneg : 0 ≤ x.units := signedUnits_nonneg hx
        have hnonpos : y.units ≤ 0 := signedUnits_nonpos hy
        omega
      · have hnonpos : x.units ≤ 0 := signedUnits_nonpos hx
        have hnonneg : 0 ≤ y.units := signedUnits_nonneg hy
        omega
      · exact absurd (hx.trans hy.symm) hsign
  · rintro (rfl | ⟨hx, hy⟩)
    · rfl
    · rw [hx, hy]

/-- The value, and then the sign. -/
def key (x : Number) : Extended ×ₗ Bool := toLex (x.value, !x.pattern.msb)

theorem key_injective : Function.Injective key := by
  intro x y h
  obtain ⟨hvalue, hsign⟩ := Prod.ext_iff.mp (toLex.injective h)
  exact eq_of_value hvalue (Bool.not_inj hsign)

instance : LinearOrder Number := LinearOrder.lift' key key_injective

/-- Numbers are in the order of their values, and a negative zero is below a positive one. -/
theorem le_iff : x ≤ y ↔ x.value < y.value ∨
    x.value = y.value ∧ (y.pattern.msb = true → x.pattern.msb = true) := by
  have hkey : x ≤ y ↔ x.key ≤ y.key := Iff.rfl
  have hsign : (!x.pattern.msb) ≤ (!y.pattern.msb) ↔
      (y.pattern.msb = true → x.pattern.msb = true) := by
    cases x.pattern.msb <;> cases y.pattern.msb <;> decide
  rw [hkey, key, key, Prod.Lex.toLex_le_toLex, hsign]

theorem le_iff_units : x ≤ y ↔ x.units < y.units ∨
    x.units = y.units ∧ (y.pattern.msb = true → x.pattern.msb = true) := by
  rw [le_iff, value_lt_iff, value_eq_iff]

/-- Numbers that are not zero have the sign of their units. -/
theorem le_of_not_lt (h : ¬ x.units < y.units) (hzero : ¬ (x.units = 0 ∧ y.units = 0)) :
    y ≤ x := by
  refine le_iff_units.mpr ?_
  by_cases heq : y.units = x.units
  · refine .inr ⟨heq, fun hx => ?_⟩
    have hnonpos : x.units ≤ 0 := signedUnits_nonpos hx
    by_contra hy
    have hnonneg : 0 ≤ y.units := signedUnits_nonneg (Bool.eq_false_of_not_eq_true hy)
    omega
  · exact .inl (by omega)

/-- The sign of one zero tells where it stands to the other. -/
theorem le_or_ge_of_zero (hzero : x.units = 0 ∧ y.units = 0) :
    if x.pattern.msb then x ≤ y else y ≤ x := by
  obtain ⟨hx, hy⟩ := hzero
  cases hsign : x.pattern.msb
  · exact le_iff_units.mpr (.inr ⟨hy.trans hx.symm, fun h => by rw [hsign] at h; cases h⟩)
  · exact le_iff_units.mpr (.inr ⟨hx.trans hy.symm, fun _ => hsign⟩)

end Number

/-! ### The lesser and the greater -/

/-- The lesser of two patterns. -/
def lesser (a b : BitVec 32) : BitVec 32 := singleOf (Format.single.lesser a.toNat b.toNat)

/-- The greater of two patterns. -/
def greater (a b : BitVec 32) : BitVec 32 := singleOf (Format.single.greater a.toNat b.toNat)

/-- The operation chooses between two numbers, and is the one quiet pattern where there are not
two. -/
structure Lifts (choose : Number → Number → Number)
    (operation : BitVec 32 → BitVec 32 → BitVec 32) : Prop where
  number : ∀ x y : Number, operation x.pattern y.pattern = (choose x y).pattern
  nan : ∀ a b, reading a = .nan ∨ reading b = .nan → operation a b = 0x7FC00000

/-- On all patterns the order and the grouping of the operands do not matter, and a number beside
itself gives itself. -/
structure Semilattice (operation : BitVec 32 → BitVec 32 → BitVec 32) : Prop where
  comm : ∀ a b, operation a b = operation b a
  assoc : ∀ a b c, operation (operation a b) c = operation a (operation b c)
  idem : ∀ a, reading a ≠ .nan → operation a a = a

variable {a b : BitVec 32}

theorem rank?_of_nan (h : reading a = .nan) : rank? a = none := by
  obtain ⟨-, hrank⟩ | ⟨hreading, -⟩ | ⟨hreading, -⟩ := reading_cases a
  · exact hrank
  · cases h.symm.trans hreading
  · cases h.symm.trans hreading

theorem ranks_of_nan (h : reading a = .nan ∨ reading b = .nan) :
    Format.single.rank? (Format.single.read a.toNat) = none ∨
      Format.single.rank? (Format.single.read b.toNat) = none :=
  h.imp rank?_of_nan rank?_of_nan

theorem nan_or_exists_number (a : BitVec 32) : reading a = .nan ∨ ∃ x : Number, x.pattern = a := by
  cases hreading : reading a with
  | nan => exact .inl rfl
  | infinite negative => exact .inr ⟨⟨a, _, congrArg Reading.value? hreading⟩, rfl⟩
  | number q => exact .inr ⟨⟨a, _, congrArg Reading.value? hreading⟩, rfl⟩

theorem Number.rank?_read (x : Number) :
    Format.single.rank? (Format.single.read x.pattern.toNat) = some x.units := x.cases.1

theorem isNegative_of_rank? (h : rank? a ≠ none) :
    (Format.single.read a.toNat).isNegative = a.msb := by
  unfold rank? at h
  rw [read_eq] at h ⊢
  split
  · rfl
  · rename_i hexponent
    rw [if_neg hexponent] at h
    split
    · rfl
    · rename_i hfraction
      rw [if_neg hfraction] at h
      exact absurd rfl h

theorem Number.isNegative_read (x : Number) :
    (Format.single.read x.pattern.toNat).isNegative = x.pattern.msb :=
  isNegative_of_rank? (by rw [x.cases.1]; exact Option.some_ne_none _)

theorem singleOf_toNat (a : BitVec 32) : singleOf a.toNat = a := by
  rw [singleOf, BitVec.ofNat_toNat, BitVec.setWidth_eq]

theorem lesser_run (x y : Number) : lesser x.pattern y.pattern =
    if x.units = 0 ∧ y.units = 0 then if x.pattern.msb then x.pattern else y.pattern
    else if x.units < y.units then x.pattern else y.pattern := by
  unfold lesser Format.lesser
  rw [x.rank?_read, y.rank?_read]
  simp only [x.isNegative_read]
  split_ifs <;> exact singleOf_toNat _

theorem greater_run (x y : Number) : greater x.pattern y.pattern =
    if x.units = 0 ∧ y.units = 0 then if x.pattern.msb then y.pattern else x.pattern
    else if y.units < x.units then x.pattern else y.pattern := by
  unfold greater Format.greater
  rw [x.rank?_read, y.rank?_read]
  simp only [x.isNegative_read]
  split_ifs <;> exact singleOf_toNat _

theorem lifts_min : Lifts min lesser where
  number x y := by
    rw [lesser_run]
    by_cases hzero : x.units = 0 ∧ y.units = 0
    · have hle := Number.le_or_ge_of_zero hzero
      rw [if_pos hzero]
      cases hsign : x.pattern.msb <;> rw [hsign] at hle
      · rw [min_eq_right hle]
        rfl
      · rw [min_eq_left hle]
        rfl
    · rw [if_neg hzero]
      by_cases hlt : x.units < y.units
      · rw [if_pos hlt, min_eq_left (Number.le_iff_units.mpr (.inl hlt))]
      · rw [if_neg hlt, min_eq_right (Number.le_of_not_lt hlt hzero)]
  nan a b h := by
    unfold lesser Format.lesser
    rcases ranks_of_nan h with ha | hb
    · rw [ha]
      rfl
    · rw [hb]
      cases Format.single.rank? (Format.single.read a.toNat) <;> rfl

theorem lifts_max : Lifts max greater where
  number x y := by
    rw [greater_run]
    by_cases hzero : x.units = 0 ∧ y.units = 0
    · have hle := Number.le_or_ge_of_zero hzero
      rw [if_pos hzero]
      cases hsign : x.pattern.msb <;> rw [hsign] at hle
      · rw [max_eq_left hle]
        rfl
      · rw [max_eq_right hle]
        rfl
    · rw [if_neg hzero]
      by_cases hlt : y.units < x.units
      · rw [if_pos hlt, max_eq_left (Number.le_iff_units.mpr (.inl hlt))]
      · rw [if_neg hlt, max_eq_right (Number.le_of_not_lt hlt fun h => hzero h.symm)]
  nan a b h := by
    unfold greater Format.greater
    rcases ranks_of_nan h with ha | hb
    · rw [ha]
      rfl
    · rw [hb]
      cases Format.single.rank? (Format.single.read a.toNat) <;> rfl

/-! ### Laws on all patterns -/

theorem reading_canonicalNaN : reading 0x7FC00000 = .nan := by
  have hexponent : exponentField 0x7FC00000 = 255 := by decide
  have hfraction : fractionField 0x7FC00000 ≠ 0 := by decide
  rw [reading, hexponent, if_neg (by decide), if_neg hfraction]

/-- The laws of a choice between numbers hold on all patterns. -/
theorem Lifts.semilattice {choose : Number → Number → Number}
    {operation : BitVec 32 → BitVec 32 → BitVec 32} (h : Lifts choose operation)
    (hcomm : ∀ x y, choose x y = choose y x)
    (hassoc : ∀ x y z, choose (choose x y) z = choose x (choose y z))
    (hidem : ∀ x, choose x x = x) : Semilattice operation where
  comm a b := by
    rcases nan_or_exists_number a with ha | ⟨x, rfl⟩
    · rw [h.nan a b (.inl ha), h.nan b a (.inr ha)]
    rcases nan_or_exists_number b with hb | ⟨y, rfl⟩
    · rw [h.nan _ b (.inr hb), h.nan b _ (.inl hb)]
    · rw [h.number, h.number, hcomm]
  assoc a b c := by
    have hleft (b : BitVec 32) := h.nan 0x7FC00000 b (.inl reading_canonicalNaN)
    have hright (a : BitVec 32) := h.nan a 0x7FC00000 (.inr reading_canonicalNaN)
    rcases nan_or_exists_number a with ha | ⟨x, rfl⟩
    · rw [h.nan a b (.inl ha), h.nan a _ (.inl ha), hleft]
    rcases nan_or_exists_number b with hb | ⟨y, rfl⟩
    · rw [h.nan _ b (.inr hb), h.nan b c (.inl hb), hleft, hright]
    rcases nan_or_exists_number c with hc | ⟨z, rfl⟩
    · rw [h.nan _ c (.inr hc), h.nan _ c (.inr hc), hright]
    · rw [h.number, h.number, h.number, h.number, hassoc]
  idem a ha := by
    obtain ⟨x, rfl⟩ := (nan_or_exists_number a).resolve_left ha
    rw [h.number, hidem]

/-! ### Comparison -/

theorem related_eq_of_nan (h : reading a = .nan ∨ reading b = .nan) (relation : Int → Int → Bool) :
    Format.single.related relation a.toNat b.toNat = false := by
  unfold Format.related
  rcases ranks_of_nan h with ha | hb
  · rw [ha]
  · rw [hb]
    cases Format.single.rank? (Format.single.read a.toNat) <;> rfl

theorem related_eq_of_number (x y : Number) (relation : Int → Int → Bool) :
    Format.single.related relation x.pattern.toNat y.pattern.toNat
      = relation x.units y.units := by
  rw [Format.related, x.rank?_read, y.rank?_read]

theorem compare_number (operator : FloatCompare) (x y : Number) :
    operator.holds x.pattern y.pattern = true ↔ operator.Relates x.value y.value := by
  have hle (x y : Number) : x.value ≤ y.value ↔ x.units ≤ y.units := by
    rw [← not_lt, Number.value_lt_iff, not_lt]
  cases operator <;>
    simp only [FloatCompare.holds, FloatCompare.Relates, Format.eq, Format.lt, Format.le,
      related_eq_of_number, Number.value_lt_iff, Number.value_eq_iff, hle, ne_eq, gt_iff_lt,
      decide_eq_true_iff, beq_iff_eq, Bool.not_eq_true', beq_eq_false_iff_ne]

theorem compare_nan (operator : FloatCompare) (h : reading a = .nan ∨ reading b = .nan) :
    operator.holds a b = true ↔ operator = .ne := by
  have hrelated := related_eq_of_nan h
  have hrelated' := related_eq_of_nan h.symm
  cases operator <;>
    simp [FloatCompare.holds, Format.eq, Format.lt, Format.le, hrelated, hrelated']

/-- A comparison decides the relation of exact values. -/
theorem holds_iff_means (operator : FloatCompare) (a b : BitVec 32) :
    operator.holds a b = true ↔ operator.Means a b := by
  unfold FloatCompare.Means
  rcases nan_or_exists_number a with ha | ⟨x, rfl⟩
  · rw [compare_nan operator (.inl ha), ha]
    rfl
  rcases nan_or_exists_number b with hb | ⟨y, rfl⟩
  · rw [compare_nan operator (.inr hb), x.value_eq, hb]
    rfl
  · rw [compare_number operator x y, x.value_eq, y.value_eq]

/-- Of two patterns that a comparison tells apart, the lesser is the one that it says is less. -/
theorem lesser_greater_of_lt (h : FloatCompare.lt.holds a b = true) :
    lesser a b = a ∧ greater a b = b := by
  rcases nan_or_exists_number a with ha | ⟨x, rfl⟩
  · cases (compare_nan .lt (.inl ha)).mp h
  rcases nan_or_exists_number b with hb | ⟨y, rfl⟩
  · cases (compare_nan .lt (.inr hb)).mp h
  have hle : x ≤ y := Number.le_iff.mpr (.inl ((compare_number .lt x y).mp h))
  rw [lifts_min.number, lifts_max.number, min_eq_left hle, max_eq_right hle]
  exact ⟨rfl, rfl⟩

end Single

end BoundedWasm
