import BoundedWasm.Proofs.Machine.Operators
import BoundedWasm.Proofs.Numeric.Reading

/-!
# BoundedWasm.Proofs.Machine.Truncation — from the exact number to the integer

A pattern is truncated by the number that it denotes: toward zero, and into the range of the 32-bit
integers of a sign (`Sign.Covers`).  The trapping form refuses whatever lies outside
(`Single.Truncates`), the saturating form takes the end of the range on that side
(`Single.Saturates`).  The bounds that are tested before truncation come to the same as the range
after it.
-/

namespace BoundedWasm

open BoundedWasm.Action
open Binary (Format Datum)

/-! ### Definitions -/

/-- The least integer of 32 bits. -/
def Sign.least : Sign → Int
  | .signed => -2 ^ 31
  | .unsigned => 0

/-- The greatest integer of 32 bits. -/
def Sign.greatest : Sign → Int
  | .signed => 2 ^ 31 - 1
  | .unsigned => 2 ^ 32 - 1

/-- The integer is in range. -/
def Sign.Covers (sign : Sign) (n : Int) : Prop := sign.least ≤ n ∧ n ≤ sign.greatest

instance (sign : Sign) (n : Int) : Decidable (sign.Covers n) := inferInstanceAs (Decidable (_ ∧ _))

namespace Single

/-- The integer that a number reaches toward zero. -/
def towardZero (q : ℚ) : ℤ := if 0 ≤ q then ⌊q⌋ else ⌈q⌉

/-- What trapping truncation is defined to make of what it reads. -/
inductive Truncates (sign : Sign) : Reading → Except Fault (BitVec 32) → Prop
  | nan : Truncates sign .nan (.error .invalidConversion)
  | infinite {negative : Bool} : Truncates sign (.infinite negative) (.error .integerOverflow)
  | outside {q : ℚ} (h : ¬ sign.Covers (towardZero q)) :
    Truncates sign (.number q) (.error .integerOverflow)
  | inside {q : ℚ} {r : BitVec 32} (h : sign.Covers (towardZero q))
    (hr : sign.value r = towardZero q) : Truncates sign (.number q) (.ok r)

/-- What saturating truncation is defined to make of what it reads. -/
inductive Saturates (sign : Sign) : Reading → BitVec 32 → Prop
  | nan : Saturates sign .nan 0
  | infinite {negative : Bool} {r : BitVec 32}
    (hr : sign.value r = if negative then sign.least else sign.greatest) :
    Saturates sign (.infinite negative) r
  | inside {q : ℚ} {r : BitVec 32} (h : sign.Covers (towardZero q))
    (hr : sign.value r = towardZero q) : Saturates sign (.number q) r
  | below {q : ℚ} {r : BitVec 32} (h : towardZero q < sign.least)
    (hr : sign.value r = sign.least) : Saturates sign (.number q) r
  | above {q : ℚ} {r : BitVec 32} (h : sign.greatest < towardZero q)
    (hr : sign.value r = sign.greatest) : Saturates sign (.number q) r

end Single

/-! ### Integers in range -/

theorem Sign.least_le_greatest (sign : Sign) : sign.least ≤ sign.greatest := by
  cases sign <;> decide

/-- An integer in range survives in a word. -/
theorem Sign.value_ofInt {sign : Sign} {n : Int} (h : sign.Covers n) :
    sign.value (BitVec.ofInt 32 n) = n := by
  obtain ⟨hleast, hgreatest⟩ := h
  cases sign
  · simp only [least, greatest] at hleast hgreatest
    show (BitVec.ofInt 32 n).toInt = n
    rw [BitVec.toInt_ofInt]
    exact Int.bmod_eq_of_le (by omega) (by omega)
  · simp only [least, greatest] at hleast hgreatest
    show ((BitVec.ofInt 32 n).toNat : Int) = n
    rw [BitVec.toNat_ofInt]
    omega

/-- An integer out of range is moved to the end of the range on its side. -/
theorem Sign.value_clamp (sign : Sign) (n : Int) :
    sign.value (BitVec.ofInt 32 (max sign.least (min sign.greatest n)))
      = max sign.least (min sign.greatest n) := by
  have hle := sign.least_le_greatest
  exact Sign.value_ofInt ⟨by omega, by omega⟩

namespace Single

theorem range_eq (sign : Sign) : range sign = (sign.least, sign.greatest) := by
  cases sign <;> rfl

/-! ### The definitions leave no choice -/

variable {sign : Sign} {denoted : Reading}

theorem Truncates.unique {outcome outcome' : Except Fault (BitVec 32)}
    (h : Truncates sign denoted outcome) (h' : Truncates sign denoted outcome') :
    outcome = outcome' := by
  rcases h with _ | _ | h | ⟨h, hr⟩ <;> rcases h' with _ | _ | h' | ⟨h', hr'⟩
  · rfl
  · rfl
  · rfl
  · exact absurd h' h
  · exact absurd h h'
  · rw [sign.value_inj.mp (hr.trans hr'.symm)]

theorem Saturates.unique {r r' : BitVec 32} (h : Saturates sign denoted r)
    (h' : Saturates sign denoted r') : r = r' := by
  have hle := sign.least_le_greatest
  rcases h with _ | hr | ⟨h, hr⟩ | ⟨h, hr⟩ | ⟨h, hr⟩
  · rcases h' with _ | _
    rfl
  · rcases h' with _ | hr'
    exact sign.value_inj.mp (hr.trans hr'.symm)
  all_goals
    rcases h' with _ | _ | ⟨h', hr'⟩ | ⟨h', hr'⟩ | ⟨h', hr'⟩
    all_goals
      unfold Sign.Covers at *
      exact sign.value_inj.mp (by omega)

/-- Where the trapping form has a result, the saturating form has the same. -/
theorem Truncates.saturates {r : BitVec 32} (h : Truncates sign denoted (.ok r)) :
    Saturates sign denoted r := by
  rcases h with _ | _ | _ | ⟨h, hr⟩
  exact .inside h hr

/-! ### Truncation of ranks -/

theorem truncate_eq (rank : Int) : Format.single.truncate rank
    = if 0 ≤ rank then rank / 2 ^ 149 else -(-rank / 2 ^ 149) := by
  show rank.tdiv (2 ^ 149) = _
  by_cases h : 0 ≤ rank
  · rw [if_pos h, Int.tdiv_eq_ediv_of_nonneg h]
  · rw [if_neg h, ← Int.tdiv_eq_ediv_of_nonneg (by omega), Int.neg_tdiv, Int.neg_neg]

/-- Units are cut off toward zero. -/
theorem towardZero_rank (rank : Int) :
    towardZero ((rank : ℚ) / 2 ^ 149) = Format.single.truncate rank := by
  have hcast : (rank : ℚ) / 2 ^ 149 = (rank : ℚ) / ((2 ^ 149 : ℕ) : ℚ) := by norm_num
  have hsign : 0 ≤ (rank : ℚ) / 2 ^ 149 ↔ 0 ≤ rank := by
    rw [le_div_iff₀ (by norm_num), zero_mul]
    exact Int.cast_nonneg_iff
  rw [towardZero, truncate_eq]
  by_cases h : 0 ≤ rank
  · rw [if_pos (hsign.mpr h), if_pos h, hcast, Rat.floor_intCast_div_natCast]
    rfl
  · rw [if_neg (mt hsign.mp h), if_neg h, hcast, Rat.ceil_intCast_div_natCast]
    rfl

/-- The test before truncation is the range after it: no signed number that truncates into the range
lies below its least integer, because there are none just below. -/
theorem fits_iff (sign : Sign) (x : BitVec 32) :
    fits sign (signedUnits x) = true ↔ sign.Covers (Format.single.truncate (signedUnits x)) := by
  have hunits (n : Int) : units n = n * 2 ^ 149 := rfl
  have hgap := gap_below (x := x)
  rw [truncate_eq]
  cases sign <;> simp only [fits, hunits, Sign.Covers, Sign.least, Sign.greatest, Bool.and_eq_true,
    decide_eq_true_iff]
  · omega
  · omega

theorem truncates_truncate (sign : Sign) (x : BitVec 32) :
    Truncates sign (reading x) (truncate sign x) := by
  unfold truncate
  obtain ⟨hreading, hrank⟩ | ⟨hreading, hrank⟩ | ⟨hreading, hrank⟩ := reading_cases x
  · rw [hreading, hrank]
    exact .nan
  · rw [hreading, hrank]
    have hfits : fits sign (Datum.signed x.msb Format.single.limit) = false := by
      cases sign <;> cases x.msb <;> decide
    simp only [hfits]
    exact .infinite
  · rw [hreading, hrank]
    have hinteger := towardZero_rank (signedUnits x)
    by_cases hfits : fits sign (signedUnits x) = true
    · have hcovers := (fits_iff sign x).mp hfits
      simp only [hfits]
      rw [← hinteger] at hcovers ⊢
      exact .inside hcovers (Sign.value_ofInt hcovers)
    · simp only [hfits]
      rw [fits_iff, ← hinteger] at hfits
      exact .outside hfits

theorem saturates_truncateSaturating (sign : Sign) (x : BitVec 32) :
    Saturates sign (reading x) (truncateSaturating sign x) := by
  have hle := sign.least_le_greatest
  unfold truncateSaturating
  rw [range_eq]
  obtain ⟨hreading, hrank⟩ | ⟨hreading, hrank⟩ | ⟨hreading, hrank⟩ := reading_cases x
  · rw [hreading, hrank]
    exact .nan
  · rw [hreading, hrank]
    refine .infinite ?_
    cases sign <;> cases x.msb <;> decide
  · rw [hreading, hrank]
    have hinteger := towardZero_rank (signedUnits x)
    have hvalue := sign.value_clamp (towardZero (signedUnits x / 2 ^ 149))
    simp only
    rw [← hinteger]
    by_cases hbelow : towardZero (signedUnits x / 2 ^ 149) < sign.least
    · exact .below hbelow (hvalue.trans (by omega))
    · by_cases habove : sign.greatest < towardZero (signedUnits x / 2 ^ 149)
      · exact .above habove (hvalue.trans (by omega))
      · exact .inside ⟨by omega, by omega⟩ (hvalue.trans (by omega))

/-- A number between minus one and zero is cut off to zero. -/
theorem towardZero_of_small {q : ℚ} (hlow : -1 < q) (hhigh : q < 0) : towardZero q = 0 := by
  rw [towardZero, if_neg (not_le.mpr hhigh), Int.ceil_eq_iff]
  constructor
  · simpa using hlow
  · simpa using hhigh.le

end Single

/-! ### The instructions -/

namespace Machine

open Single

variable {m : Module} {enter : UInt32 → Exec Unit} {i : Instruction} {s : Machine}
  {below : List Value} {sign : Sign} {x : BitVec 32}

theorem settles_truncate (hi : i.opcode = .conversion (.truncate .w32 .w32 sign))
    (h : s.Holds below [.f32 x]) :
    Settles m enter i s below ((truncate sign x).map .i32) := by
  refine settles_one Value.asF32 (fun x => (truncate sign x).map .i32) ?_ h rfl
  rw [hi]
  simp only [ofExcept_map_bind]
  rfl

theorem settles_truncateSaturating (hi : i.opcode = .truncateSaturating .w32 .w32 sign)
    (h : s.Holds below [.f32 x]) :
    Settles m enter i s below (.ok (.i32 (truncateSaturating sign x))) := by
  refine settles_one Value.asF32 (fun x => .ok (.i32 (truncateSaturating sign x))) ?_ h rfl
  rw [hi]
  rfl

/-- Both forms of truncation give what they are defined to give, of every pattern; where the
trapping form has a result, the saturating form has the same.  The instructions settle to that on
any machine that holds the pattern. -/
theorem truncation_exact :
    (∀ (sign : Sign) (x : BitVec 32) (outcome : Except Fault (BitVec 32)),
      truncate sign x = outcome ↔ Truncates sign (reading x) outcome) ∧
    (∀ (sign : Sign) (x r : BitVec 32),
      truncateSaturating sign x = r ↔ Saturates sign (reading x) r) ∧
    (∀ (sign : Sign) (x r : BitVec 32),
      truncate sign x = .ok r → truncateSaturating sign x = r) ∧
    (∀ (x : BitVec 32) (q : ℚ), reading x = .number q → -1 < q → q < 0 →
      truncate .unsigned x = .ok 0) ∧
    ∀ (m : Module) (enter : UInt32 → Exec Unit) (i : Instruction) (s : Machine)
      (below : List Value) (sign : Sign) (x : BitVec 32), s.Holds below [.f32 x] →
      (i.opcode = .conversion (.truncate .w32 .w32 sign) →
        Settles m enter i s below ((truncate sign x).map .i32)) ∧
      (i.opcode = .truncateSaturating .w32 .w32 sign →
        Settles m enter i s below (.ok (.i32 (truncateSaturating sign x)))) := by
  have htruncates := truncates_truncate
  have hsaturates := saturates_truncateSaturating
  refine ⟨fun sign x outcome => ⟨?_, (htruncates sign x).unique⟩,
    fun sign x r => ⟨?_, (hsaturates sign x).unique⟩, fun sign x r h => ?_,
    fun x q hreading hlow hhigh => ?_,
    fun m enter i s below sign x h =>
      ⟨fun hi => settles_truncate hi h, fun hi => settles_truncateSaturating hi h⟩⟩
  · rintro rfl
    exact htruncates sign x
  · rintro rfl
    exact hsaturates sign x
  · have hresult := htruncates sign x
    rw [h] at hresult
    exact (hsaturates sign x).unique hresult.saturates
  · have hzero := towardZero_of_small hlow hhigh
    refine (htruncates .unsigned x).unique ?_
    rw [hreading]
    exact .inside (by rw [hzero]; decide) (by rw [hzero]; rfl)

/-- Minus one half is cut off to zero, which is a number without sign. -/
theorem halving_settles : Settles .empty (fun _ => pure ())
    (.simple (.conversion (.truncate .w32 .w32 .unsigned))) (holding [.f32 0xBF000000]) []
    (.ok (.i32 0)) := by
  obtain ⟨-, -, -, hsmall, hsettles⟩ := truncation_exact
  have hreading : reading 0xBF000000 = .number (-1 / 2) := by
    have hexponent : exponentField 0xBF000000 = 126 := by decide
    have hfraction : fractionField 0xBF000000 = 0 := by decide
    have hsign : (0xBF000000 : BitVec 32).msb = true := by decide
    norm_num [reading, magnitude, hexponent, hfraction, hsign]
  have hzero := hsmall 0xBF000000 (-1 / 2) hreading (by norm_num) (by norm_num)
  have hrun := (hsettles .empty (fun _ => pure ())
    (.simple (.conversion (.truncate .w32 .w32 .unsigned))) _ [] .unsigned 0xBF000000
    (holds_holding (by decide))).1 rfl
  rwa [hzero] at hrun

end Machine

end BoundedWasm
