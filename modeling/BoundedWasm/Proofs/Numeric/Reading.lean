import BoundedWasm.Numeric.Single
import Mathlib.Data.Rat.Floor
import Mathlib.Tactic.FieldSimp
import Mathlib.Tactic.Ring
import Mathlib.Tactic.NormNum

/-!
# BoundedWasm.Proofs.Numeric.Reading — the exact number that a pattern denotes

A pattern of 32 bits read field by field, as a rational number or as what is none
(`Single.reading`).  The rank of a pattern is this number in units (`Single.reading_cases`), and the
numbers thin out: beyond `2 ^ 31` the next one is at least one away.
-/

namespace BoundedWasm.Single

open Binary (Format Datum)

/-- What a pattern denotes. -/
inductive Reading where
  | nan
  | infinite (negative : Bool)
  | number (q : ℚ)

/-- The eight bits below the sign. -/
def exponentField (x : BitVec 32) : Nat := x.toNat / 2 ^ 23 % 2 ^ 8

/-- The lowest 23 bits. -/
def fractionField (x : BitVec 32) : Nat := x.toNat % 2 ^ 23

/-- The number without its sign: a fraction below the least power of two, or else a power of two
with the fraction behind a leading one. -/
def magnitude (x : BitVec 32) : ℚ :=
  if exponentField x = 0 then fractionField x / 2 ^ 149
  else (1 + fractionField x / 2 ^ 23) * 2 ^ ((exponentField x : ℤ) - 127)

def reading (x : BitVec 32) : Reading :=
  if exponentField x < 255 then .number (if x.msb then -magnitude x else magnitude x)
  else if fractionField x = 0 then .infinite x.msb
  else .nan

/-! ### In units -/

/-- The magnitude in units of `2 ^ -149`. -/
def magnitudeUnits (x : BitVec 32) : Nat :=
  if exponentField x = 0 then fractionField x
  else (2 ^ 23 + fractionField x) * 2 ^ (exponentField x - 1)

/-- The number in units. -/
def signedUnits (x : BitVec 32) : Int := Datum.signed x.msb (magnitudeUnits x)

theorem magnitude_eq (x : BitVec 32) : magnitude x = magnitudeUnits x / 2 ^ 149 := by
  unfold magnitude magnitudeUnits
  by_cases he : exponentField x = 0
  · rw [if_pos he, if_pos he]
  · obtain ⟨k, hk⟩ := Nat.exists_eq_succ_of_ne_zero he
    have hpower : (2 : ℚ) ^ ((exponentField x : ℤ) - 127) = 2 ^ k / 2 ^ 126 := by
      rw [hk, ← zpow_natCast, ← zpow_natCast, ← zpow_sub₀ (by norm_num)]
      congr 1
      push_cast
      ring
    rw [if_neg he, if_neg he, hpower, hk, Nat.succ_sub_one]
    push_cast
    field_simp
    ring

/-- A magnitude is a number of 24 bits times a power of two. -/
theorem exists_magnitudeUnits_eq (x : BitVec 32) :
    ∃ m k, magnitudeUnits x = m * 2 ^ k ∧ m < 2 ^ 24 := by
  have hfraction : fractionField x < 2 ^ 23 := Nat.mod_lt _ (by decide)
  unfold magnitudeUnits
  by_cases he : exponentField x = 0
  · exact ⟨fractionField x, 0, by simp [he], by omega⟩
  · exact ⟨2 ^ 23 + fractionField x, exponentField x - 1, if_neg he, by omega⟩

/-- No number lies less than one above `2 ^ 31`. -/
theorem gap_above {x : BitVec 32} (h : 2 ^ 180 < magnitudeUnits x) :
    2 ^ 180 + 2 ^ 149 ≤ magnitudeUnits x := by
  obtain ⟨m, k, heq, hm⟩ := exists_magnitudeUnits_eq x
  rw [heq] at h ⊢
  -- the factor of 24 bits is too small for a lower power
  have hk : 157 ≤ k := by
    by_contra hlow
    have hpower : 2 ^ k ≤ 2 ^ 156 := Nat.pow_le_pow_right (by decide) (by omega)
    have hle : m * 2 ^ k ≤ 2 ^ 24 * 2 ^ 156 := Nat.mul_le_mul hm.le hpower
    omega
  obtain ⟨j, rfl⟩ := Nat.exists_eq_add_of_le hk
  rw [Nat.pow_add, Nat.mul_left_comm] at h ⊢
  omega

theorem gap_below {x : BitVec 32} (h : signedUnits x < -2 ^ 180) :
    signedUnits x ≤ -2 ^ 180 - 2 ^ 149 := by
  rw [signedUnits, Datum.signed] at h ⊢
  by_cases hsign : x.msb = true
  · rw [if_pos hsign] at h ⊢
    have hgap : 2 ^ 180 + 2 ^ 149 ≤ magnitudeUnits x := gap_above (by omega)
    omega
  · rw [if_neg hsign] at h
    omega

theorem unitsOf_eq (x : BitVec 32) :
    Format.single.unitsOf (x.toNat % 2 ^ 31) = magnitudeUnits x := by
  have hfield : (x.toNat % 2 ^ 31) >>> 23 = exponentField x := by
    rw [Nat.shiftRight_eq_div_pow, exponentField]
    omega
  have hfraction : x.toNat % 2 ^ 31 % (1 <<< 23) = fractionField x := by
    show x.toNat % 2 ^ 31 % 2 ^ 23 = x.toNat % 2 ^ 23
    omega
  show (if (x.toNat % 2 ^ 31) >>> 23 = 0 then x.toNat % 2 ^ 31 % (1 <<< 23)
    else (1 <<< 23 + x.toNat % 2 ^ 31 % (1 <<< 23)) <<< ((x.toNat % 2 ^ 31) >>> 23 - 1)) = _
  rw [hfield, hfraction, Nat.shiftLeft_eq _ (exponentField x - 1)]
  rfl

theorem read_eq (x : BitVec 32) : Format.single.read x.toNat =
    if exponentField x < 255 then .finite x.msb (magnitudeUnits x)
    else if fractionField x = 0 then .infinite x.msb
    else .nan := by
  have hsign : (x.toNat / 2 ^ 31 % 2 == 1) = x.msb := by
    have hlt := x.isLt
    rw [BitVec.msb_eq_decide, Bool.eq_iff_iff, beq_iff_eq, decide_eq_true_iff]
    omega
  have hfinite : x.toNat % 2 ^ 31 < 255 * 2 ^ 23 ↔ exponentField x < 255 := by
    rw [exponentField]
    omega
  have hinfinite (he : ¬ exponentField x < 255) :
      x.toNat % 2 ^ 31 = 255 * 2 ^ 23 ↔ fractionField x = 0 := by
    rw [exponentField] at he
    rw [fractionField]
    omega
  show (if x.toNat % 2 ^ 31 < 255 * 2 ^ 23 then
      Datum.finite (x.toNat / 2 ^ 31 % 2 == 1) (Format.single.unitsOf (x.toNat % 2 ^ 31))
    else if x.toNat % 2 ^ 31 = 255 * 2 ^ 23 then .infinite (x.toNat / 2 ^ 31 % 2 == 1)
    else .nan) = _
  rw [hsign, unitsOf_eq]
  simp only [hfinite]
  by_cases he : exponentField x < 255
  · rw [if_pos he, if_pos he]
  · rw [if_neg he, if_neg he]
    simp only [hinfinite he]

/-- A pattern is read as what its rank says. -/
theorem reading_cases (x : BitVec 32) :
    (reading x = .nan ∧ rank? x = none) ∨
    (reading x = .infinite x.msb ∧ rank? x = some (Datum.signed x.msb Format.single.limit)) ∨
    (reading x = .number (signedUnits x / 2 ^ 149) ∧ rank? x = some (signedUnits x)) := by
  have hnumber : (if x.msb then -magnitude x else magnitude x) = (signedUnits x : ℚ) / 2 ^ 149 := by
    rw [magnitude_eq, signedUnits, Datum.signed]
    cases x.msb
    · simp
    · simp [neg_div]
  unfold reading rank?
  rw [read_eq, hnumber]
  by_cases he : exponentField x < 255
  · rw [if_pos he, if_pos he]
    exact .inr (.inr ⟨rfl, rfl⟩)
  · rw [if_neg he, if_neg he]
    by_cases hf : fractionField x = 0
    · rw [if_pos hf, if_pos hf]
      exact .inr (.inl ⟨rfl, rfl⟩)
    · rw [if_neg hf, if_neg hf]
      exact .inl ⟨rfl, rfl⟩

end BoundedWasm.Single
