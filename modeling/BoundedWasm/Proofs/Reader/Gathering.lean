import BoundedWasm.Reader.Leb128
import Mathlib.Tactic.IntervalCases
import Mathlib.Tactic.Ring

/-!
# BoundedWasm.Proofs.Reader.Gathering — integers of variable length, digit by digit

The bytes of one integer are those up to the first without its high bit (`Leb128.Terminated`), and
what they spell depends on what the last digit stands for (`Leb128.spelled`).  A form of integers
stands for a range (`Leb128.Form.Means`) when a last digit is allowed exactly if the whole integer
is in the range, wherever that digit comes to stand.  Digit by digit the word is the integer that
has been spelled so far, and so the word that is gathered from a terminated stretch is the integer
that the stretch spells, and nothing but the range decides whether it is answered (`Means.gather`).
-/

namespace BoundedWasm

namespace Leb128

/-- The bytes of one integer: every one but the last has its high bit set. -/
inductive Terminated : List UInt8 → Prop
  | last {b : UInt8} (hlast : b.toNat < 128) : Terminated [b]
  | more {b : UInt8} {bytes : List UInt8} (hmore : 128 ≤ b.toNat) (h : Terminated bytes) :
    Terminated (b :: bytes)

theorem Terminated.length_pos {bytes : List UInt8} (h : Terminated bytes) : 0 < bytes.length := by
  cases h <;> simp

/-- Not every byte of a terminated stretch says that more follow. -/
theorem Terminated.exists_last {number : List UInt8} (h : Terminated number) :
    ∃ b ∈ number, b.toNat < 128 := by
  induction h with
  | last hlast => exact ⟨_, List.mem_singleton_self _, hlast⟩
  | more _ _ ih =>
    obtain ⟨b, hb, hlast⟩ := ih
    exact ⟨b, List.mem_cons_of_mem _ hb, hlast⟩

/-- The integer that bytes spell, the first digit lowest, if the last one stands for `last`. -/
def spelled (last : Nat → Int) : List UInt8 → Int
  | [] => 0
  | [b] => last (b.toNat % 128)
  | b :: bytes => (b.toNat % 128 : Nat) + 128 * spelled last bytes

theorem spelled_cons (last : Nat → Int) (b : UInt8) {bytes : List UInt8} (h : bytes ≠ []) :
    spelled last (b :: bytes) = (b.toNat % 128 : Nat) + 128 * spelled last bytes := by
  obtain ⟨c, bytes, rfl⟩ := List.exists_cons_of_ne_nil h
  rfl

theorem maxDigits_pos {bits : Nat} (hbits : 0 < bits) : 0 < maxDigits bits := by
  unfold maxDigits
  omega

theorem le_maxDigits (bits : Nat) : bits ≤ 7 * maxDigits bits := by
  unfold maxDigits
  omega

theorem maxDigits_lt (bits : Nat) : 7 * maxDigits bits < bits + 7 := by
  unfold maxDigits
  omega

/-! ### What is gathered -/

section Outcomes

variable (form : Form) (bits : Nat)

/-- Bytes are gathered up to the end of the first terminated stretch, unless there is none or it is
too long. -/
theorem gather_cases (room shift : Nat) (word : BitVec 64) (bytes : List UInt8) :
    (∃ number rest, bytes = number ++ rest ∧ Terminated number ∧ number.length ≤ room ∧
      (gather form bits room shift word bytes = .error .leb128TooLarge ∨
        ∃ found, gather form bits room shift word bytes = .ok (found, number.length))) ∨
    (gather form bits room shift word bytes = .error .unexpectedEnd ∧ bytes.length < room ∧
      ∀ b ∈ bytes, 128 ≤ b.toNat) ∨
    (gather form bits room shift word bytes = .error .leb128TooLong ∧ room ≤ bytes.length) := by
  induction room generalizing shift word bytes with
  | zero => exact .inr (.inr ⟨rfl, Nat.zero_le _⟩)
  | succ room ih =>
    cases bytes with
    | nil => exact .inr (.inl ⟨rfl, Nat.succ_pos _, by simp⟩)
    | cons b bytes =>
      rw [gather]
      by_cases hlast : b.toNat < 128
      · refine .inl ⟨[b], bytes, rfl, .last hlast, by simp, ?_⟩
        rw [if_neg (by omega)]
        split_ifs
        · exact .inl rfl
        · exact .inr ⟨_, rfl⟩
      by_cases hroom : room = 0
      · rw [if_pos ⟨hroom, by omega⟩]
        exact .inr (.inr ⟨rfl, by simp [hroom]⟩)
      simp only [hroom, false_and, if_false, if_neg hlast]
      rcases ih (shift + 7) (word ||| (BitVec.ofNat 64 (b.toNat % 128) <<< shift)) bytes with
        ⟨number, rest, rfl, hnumber, hle, hend⟩ | ⟨herror, hlt, hhigh⟩ | ⟨herror, hle⟩
      · refine .inl ⟨b :: number, rest, rfl, .more (by omega) hnumber, by simpa using hle, ?_⟩
        obtain herror | ⟨found, hfound⟩ := hend
        · exact .inl (by rw [herror]; rfl)
        · exact .inr ⟨found, by rw [hfound]; rfl⟩
      · refine .inr (.inl ⟨by rw [herror]; rfl, by simpa using hlt, ?_⟩)
        rw [List.forall_mem_cons]
        exact ⟨by omega, hhigh⟩
      · exact .inr (.inr ⟨by rw [herror]; rfl, by simpa using hle⟩)

variable {form bits}

/-- There are no more digits than bytes. -/
theorem count_le_of_gather {room shift count : Nat} {word found : BitVec 64} {bytes : List UInt8}
    (h : gather form bits room shift word bytes = .ok (found, count)) : count ≤ bytes.length := by
  rcases gather_cases form bits room shift word bytes with
    ⟨number, rest, rfl, -, -, herror | ⟨_, hfound⟩⟩ | ⟨herror, -⟩ | ⟨herror, -⟩
  · cases herror.symm.trans h
  · cases hfound.symm.trans h
    simp
  · cases herror.symm.trans h
  · cases herror.symm.trans h

end Outcomes

/-! ### Words -/

theorem ofInt_two_pow (width shift : Nat) :
    BitVec.ofInt width (2 ^ shift) = BitVec.twoPow width shift := by
  apply BitVec.eq_of_toNat_eq
  rw [BitVec.toNat_twoPow, show (2 ^ shift : Int) = (2 ^ shift : Nat) by simp, BitVec.ofInt_natCast,
    BitVec.toNat_ofNat]

/-- What is put in above the bits that are there is added to them. -/
theorem or_shiftLeft {word : BitVec 64} {shift : Nat} (h : word.toNat < 2 ^ shift) (z : Int) :
    word ||| (BitVec.ofInt 64 z <<< shift) = BitVec.ofInt 64 (word.toNat + 2 ^ shift * z) := by
  have hapart : word &&& (BitVec.ofInt 64 z <<< shift) = 0#64 := by
    refine BitVec.eq_of_getLsbD_eq fun i hi => ?_
    rw [BitVec.getLsbD_and, BitVec.getLsbD_shiftLeft, BitVec.getLsbD_zero]
    by_cases hlt : i < shift
    · simp [hlt]
    · have hhigh : word.toNat < 2 ^ i :=
        Nat.lt_of_lt_of_le h (Nat.pow_le_pow_right Nat.two_pos (Nat.le_of_not_lt hlt))
      rw [BitVec.getLsbD, Nat.testBit_lt_two_pow hhigh, Bool.false_and]
  rw [← BitVec.add_eq_or_of_and_eq_zero _ _ hapart, BitVec.shiftLeft_eq_mul_twoPow,
    BitVec.ofInt_add, BitVec.ofInt_mul, BitVec.ofInt_natCast, BitVec.ofNat_toNat,
    BitVec.setWidth_eq, ofInt_two_pow, BitVec.mul_comm]

/-- Ones above the bits that are there make the word negative. -/
theorem or_ones {word : BitVec 64} {width : Nat} (h : word.toNat < 2 ^ width) :
    word ||| (BitVec.allOnes 64 <<< width) = BitVec.ofInt 64 (word.toNat + 2 ^ width * -1) := by
  rw [← or_shiftLeft h]
  rfl

/-- The word has no room for ones above its bits. -/
theorem ofInt_beyond {width : Nat} (h : 64 ≤ width) (low z : Int) :
    BitVec.ofInt 64 (low + 2 ^ width * z) = BitVec.ofInt 64 low := by
  have hzero : BitVec.ofInt 64 (2 ^ width) = 0#64 := by
    rw [ofInt_two_pow]
    exact BitVec.eq_of_toNat_eq (BitVec.toNat_twoPow_of_le h)
  rw [BitVec.ofInt_add, BitVec.ofInt_mul, hzero, BitVec.zero_mul, BitVec.add_zero]

theorem or_digit {word : BitVec 64} {shift : Nat} (h : word.toNat < 2 ^ shift) (digit : Nat) :
    word ||| (BitVec.ofNat 64 digit <<< shift)
      = BitVec.ofNat 64 (word.toNat + 2 ^ shift * digit) := by
  rw [← BitVec.ofInt_natCast, or_shiftLeft h, ← BitVec.ofInt_natCast]
  push_cast
  rfl

theorem add_digit_lt {low shift digit : Nat} (h : low < 2 ^ shift) (hdigit : digit < 128) :
    low + 2 ^ shift * digit < 2 ^ (shift + 7) := by
  have hmul : 2 ^ shift * (digit + 1) ≤ 2 ^ shift * 128 := Nat.mul_le_mul_left _ hdigit
  rw [Nat.mul_add, Nat.mul_one] at hmul
  rw [Nat.pow_add]
  omega

theorem toNat_ofNat_of_lt {n width : Nat} (h : n < 2 ^ width) (hwidth : width ≤ 64) :
    (BitVec.ofNat 64 n).toNat = n := by
  rw [BitVec.toNat_ofNat]
  exact Nat.mod_eq_of_lt (Nat.lt_of_lt_of_le h (Nat.pow_le_pow_right Nat.two_pos hwidth))

/-- Of a number below `m` and multiples of `m` the multiples decide. -/
theorem add_mul_lt_iff {low m z p : Int} (hlow : 0 ≤ low) (hlt : low < m) :
    low + m * z < m * p ↔ z < p := by
  have hm : 0 ≤ m := Int.le_of_lt (Int.lt_of_le_of_lt hlow hlt)
  constructor
  · intro h
    by_contra hle
    have hmul := Int.mul_le_mul_of_nonneg_left (Int.le_of_not_gt hle) hm
    omega
  · intro h
    have hmul : m * (z + 1) ≤ m * p := Int.mul_le_mul_of_nonneg_left h hm
    rw [Int.mul_add, Int.mul_one] at hmul
    omega

/-! ### Forms -/

/-- The integers of the form are those in a range, for each number of bits, and the last digit
stands for `last`.  Digits below the last one do not decide whether an integer is in range. -/
structure Form.Means (form : Form) (last : Nat → Int) (InRange : Nat → Int → Prop) : Prop where
  allows : ∀ used digit, 0 < used → used ≤ 7 → digit < 128 →
    (form.allows used digit = true ↔ InRange used (last digit))
  inside : ∀ bits digit, 7 ≤ bits → digit < 128 → InRange bits (last digit)
  above : ∀ used shift (low z : Int), 0 < used → 0 ≤ low → low < 2 ^ shift →
    (InRange (shift + used) (low + 2 ^ shift * z) ↔ InRange used z)
  close : ∀ shift digit (low : Nat), shift < 64 → low < 2 ^ shift → digit < 128 →
    form.close (shift + 7) digit (BitVec.ofNat 64 (low + 2 ^ shift * digit))
      = BitVec.ofInt 64 (low + 2 ^ shift * last digit)

namespace Form

variable {form : Form} {last : Nat → Int} {InRange : Nat → Int → Prop} {bits room shift : Nat}
  {word : BitVec 64}

/-- The last digit is put in if the whole integer is in range. -/
theorem Means.gather_last (hform : form.Means last InRange) (hbits : bits ≤ 64) {b : UInt8}
    (hlast : b.toNat < 128) (hword : word.toNat < 2 ^ shift) (hshift : shift < bits)
    (hle : bits ≤ shift + 7 * (room + 1)) (hlt : shift + 7 * (room + 1) < bits + 7)
    {z : Int} (hz : z = word.toNat + 2 ^ shift * last (b.toNat % 128)) (rest : List UInt8) :
    (InRange bits z →
      gather form bits (room + 1) shift word (b :: rest) = .ok (BitVec.ofInt 64 z, 1)) ∧
    (¬ InRange bits z →
      gather form bits (room + 1) shift word (b :: rest) = .error .leb128TooLarge) := by
  have hdigit : b.toNat % 128 < 128 := Nat.mod_lt _ (by decide)
  have hrange : InRange bits z ↔ InRange (bits - shift) (last (b.toNat % 128)) := by
    have habove := hform.above (bits - shift) shift word.toNat (last (b.toNat % 128)) (by omega)
      (Int.natCast_nonneg _) (by exact_mod_cast hword)
    rwa [show shift + (bits - shift) = bits by omega, ← hz] at habove
  have hrefused : (room = 0 ∧ form.allows (bits - shift) (b.toNat % 128) = false)
      ↔ ¬ InRange (bits - shift) (last (b.toNat % 128)) := by
    by_cases hroom : room = 0
    · rw [← hform.allows _ _ (by omega) (by omega) hdigit]
      simp [hroom]
    · -- where more digits are allowed, all bits of this one belong to the integer
      have hinside := hform.inside (bits - shift) _ (by omega) hdigit
      simp [hroom, hinside]
  have hclose := hform.close shift _ word.toNat (by omega) hword hdigit
  rw [← hz] at hclose
  rw [hrange, gather, if_neg (by omega), or_digit hword]
  simp only [if_pos hlast, hclose]
  exact ⟨fun hin => if_neg fun h => hrefused.mp h hin, fun hout => if_pos (hrefused.mpr hout)⟩

/-- The word that is gathered from a terminated stretch, on top of what has been gathered before it,
is the integer that has been spelled; if that is not in range, the stretch is refused. -/
theorem Means.gather (hform : form.Means last InRange) (hbits : bits ≤ 64) {number : List UInt8}
    (h : Terminated number) (hword : word.toNat < 2 ^ shift) (hshift : shift < bits)
    (hlength : number.length ≤ room) (hle : bits ≤ shift + 7 * room)
    (hlt : shift + 7 * room < bits + 7)
    {z : Int} (hz : z = word.toNat + 2 ^ shift * spelled last number) (rest : List UInt8) :
    (InRange bits z → Leb128.gather form bits room shift word (number ++ rest)
        = .ok (BitVec.ofInt 64 z, number.length)) ∧
    (¬ InRange bits z →
      Leb128.gather form bits room shift word (number ++ rest) = .error .leb128TooLarge) := by
  induction h generalizing room shift word with
  | last hlast =>
    obtain ⟨room, rfl⟩ := Nat.exists_eq_add_of_le' hlength
    exact hform.gather_last hbits hlast hword hshift hle hlt hz rest
  | @more b bytes hmore hbytes ih =>
    have hpos := hbytes.length_pos
    obtain ⟨room, rfl⟩ := Nat.exists_eq_add_of_le' (Nat.le_trans (Nat.succ_pos _) hlength)
    have hshort : bytes.length ≤ room := Nat.le_of_succ_le_succ hlength
    have hdigit : b.toNat % 128 < 128 := Nat.mod_lt _ (by decide)
    have hnext := add_digit_lt hword hdigit
    have hput := toNat_ofNat_of_lt hnext (by omega)
    have hspelled : z = (BitVec.ofNat 64 (word.toNat + 2 ^ shift * (b.toNat % 128))).toNat
        + 2 ^ (shift + 7) * spelled last bytes := by
      rw [hz, spelled_cons last b (List.ne_nil_of_length_pos hpos), hput]
      push_cast
      ring
    rw [← hput] at hnext
    obtain ⟨hin, hout⟩ := ih hnext (by omega) hshort (by omega) (by omega) hspelled
    rw [List.cons_append, Leb128.gather, if_neg (by omega), if_neg (by omega), or_digit hword]
    simp only [if_neg (Nat.not_lt.mpr hmore)]
    exact ⟨fun h => by rw [hin h]; rfl, fun h => by rw [hout h]; rfl⟩

end Form

/-! ### Integers with and without a sign -/

/-- The integer has a place among those of `bits` bits without a sign. -/
def FitsUnsigned (bits : Nat) (v : Int) : Prop := 0 ≤ v ∧ v < (1 <<< bits : Nat)

/-- The integer has a place among those of `bits` bits in two's complement. -/
def Fits (bits : Nat) (v : Int) : Prop :=
  -((1 <<< (bits - 1) : Nat) : Int) ≤ v ∧ v < (1 <<< (bits - 1) : Nat)

instance (bits : Nat) (v : Int) : Decidable (Fits bits v) := inferInstanceAs (Decidable (_ ∧ _))

theorem Fits.mono {bits more : Nat} {v : Int} (h : Fits bits v) (hle : bits ≤ more) :
    Fits more v := by
  have hshift : 1 <<< (bits - 1) ≤ 1 <<< (more - 1) := by
    simp only [Nat.one_shiftLeft]
    exact Nat.pow_le_pow_right Nat.two_pos (by omega)
  unfold Fits at *
  omega

theorem toInt_ofInt_of_fits {width : Nat} (hwidth : 0 < width) {v : Int} (h : Fits width v) :
    (BitVec.ofInt width v).toInt = v := by
  unfold Fits at h
  simp only [Nat.one_shiftLeft, Int.natCast_pow] at h
  exact BitVec.toInt_ofInt_eq_self hwidth h.1 h.2

/-- An integer in range is a word, which stands for it. -/
theorem toInt_word {bits : Nat} (hbits : bits ≤ 64) {v : Int} (h : Fits bits v) :
    (BitVec.ofInt 64 v).toInt = v :=
  toInt_ofInt_of_fits (by decide) (h.mono hbits)

/-- What the last digit of an integer with a sign stands for. -/
def signedDigit (digit : Nat) : Int := if digit < 64 then digit else digit - 128

theorem unsigned_means : Form.unsigned.Means Nat.cast FitsUnsigned where
  allows used digit hpos hle hdigit := by
    interval_cases used
    all_goals simp [Form.unsigned, FitsUnsigned, Nat.shiftRight_eq_div_pow]
    all_goals omega
  inside bits digit hbits hdigit := by
    have hpow : 2 ^ 7 ≤ 2 ^ bits := Nat.pow_le_pow_right Nat.two_pos hbits
    rw [FitsUnsigned, Nat.one_shiftLeft]
    omega
  above used shift low z hpos hlow hlt := by
    have hupper := add_mul_lt_iff (z := z) (p := 2 ^ used) hlow hlt
    have hlower := add_mul_lt_iff (z := z) (p := 0) hlow hlt
    simp only [FitsUnsigned, Nat.one_shiftLeft]
    push_cast
    rw [pow_add, hupper]
    omega
  close _ _ _ _ _ _ := rfl

theorem signed_means : Form.signed.Means signedDigit Fits where
  allows used digit hpos hle hdigit := by
    interval_cases used
    all_goals simp [Form.signed, Fits, signedDigit, Nat.shiftRight_eq_div_pow]
    all_goals split <;> omega
  inside bits digit hbits hdigit := by
    have hpow : 2 ^ 6 ≤ 2 ^ (bits - 1) := Nat.pow_le_pow_right Nat.two_pos (by omega)
    rw [Fits, Nat.one_shiftLeft, signedDigit]
    split <;> omega
  above used shift low z hpos hlow hlt := by
    have hupper := add_mul_lt_iff (z := z) (p := 2 ^ (used - 1)) hlow hlt
    have hlower := add_mul_lt_iff (z := z) (p := -2 ^ (used - 1)) hlow hlt
    simp only [Fits, Nat.one_shiftLeft, show shift + used - 1 = shift + (used - 1) by omega]
    push_cast
    rw [pow_add, hupper, ← Int.mul_neg]
    omega
  close shift digit low hshift hlow hdigit := by
    have hborrow : (low + 2 ^ shift * (digit - 128) : Int)
        = (low + 2 ^ shift * digit : Nat) + 2 ^ (shift + 7) * -1 := by
      push_cast
      ring
    by_cases hsign : 64 ≤ digit
    · rw [signedDigit, if_neg (Nat.not_lt.mpr hsign), hborrow]
      by_cases hwidth : shift + 7 < 64
      · have hword := toNat_ofNat_of_lt (add_digit_lt hlow hdigit) (Nat.le_of_lt hwidth)
        simp only [Form.signed, if_pos (And.intro hwidth hsign)]
        rw [or_ones (by rw [hword]; exact add_digit_lt hlow hdigit), hword]
      · simp only [Form.signed, if_neg (not_and.mpr fun h => absurd h hwidth)]
        rw [ofInt_beyond (Nat.le_of_not_lt hwidth), BitVec.ofInt_natCast]
    · simp only [Form.signed, if_neg (not_and.mpr fun _ => hsign)]
      rw [signedDigit, if_pos (Nat.lt_of_not_le hsign), ← BitVec.ofInt_natCast]
      push_cast
      rfl

end Leb128

/-! ### Parsers -/

namespace Parser

open Leb128

variable {form : Form} {bits : Nat} {r r' : Reader} {word : BitVec 64} {fault : Fault}

/-- What is stepped over is a terminated stretch. -/
theorem leb128_ok (h : leb128 form bits r = .ok word r') : ∃ number rest, r.rest = number ++ rest ∧
    Terminated number ∧ number.length ≤ maxDigits bits ∧
      r' = ⟨r.position + number.length, rest⟩ := by
  unfold leb128 at h
  rcases gather_cases form bits (maxDigits bits) 0 0#64 r.rest with
    ⟨number, rest, hrest, hnumber, hlength, herror | ⟨found, hfound⟩⟩ | ⟨herror, -⟩ | ⟨herror, -⟩
  · simp [herror] at h
  · rw [hfound] at h
    cases h
    exact ⟨number, rest, hrest, hnumber, hlength, by simp [Reader.advance, hrest]⟩
  · simp [herror] at h
  · simp [herror] at h

/-- The ways in which reading digits may fail, each under its condition on the bytes ahead. -/
theorem leb128_error (h : leb128 form bits r = .error fault r') : r' = r ∧
    (fault = .unexpectedEnd ∧ r.rest.length < maxDigits bits ∧ (∀ b ∈ r.rest, 128 ≤ b.toNat) ∨
      fault = .leb128TooLarge ∨ fault = .leb128TooLong) := by
  unfold leb128 at h
  rcases gather_cases form bits (maxDigits bits) 0 0#64 r.rest with
    ⟨number, rest, hrest, hnumber, hlength, herror | ⟨found, hfound⟩⟩ | ⟨herror, hlt, hhigh⟩ |
      ⟨herror, hle⟩
  · simp only [herror] at h
    cases h
    exact ⟨rfl, .inr (.inl rfl)⟩
  · simp [hfound] at h
  · simp only [herror] at h
    cases h
    exact ⟨rfl, .inl ⟨rfl, hlt, hhigh⟩⟩
  · simp only [herror] at h
    cases h
    exact ⟨rfl, .inr (.inr rfl)⟩

/-- Bytes that all say that more follow, and that are too few, are an unexpected end. -/
theorem leb128_endsEarly (hlt : r.rest.length < maxDigits bits)
    (hhigh : ∀ b ∈ r.rest, 128 ≤ b.toNat) : leb128 form bits r = .error .unexpectedEnd r := by
  unfold leb128
  rcases gather_cases form bits (maxDigits bits) 0 0#64 r.rest with
    ⟨number, rest, hrest, hnumber, -⟩ | ⟨herror, -⟩ | ⟨-, hle⟩
  · obtain ⟨b, hb, hlast⟩ := hnumber.exists_last
    have := hhigh b (hrest ▸ List.mem_append_left _ hb)
    omega
  · simp [herror]
  · omega

end Parser

namespace Leb128.Form

variable {form : Form} {last : Nat → Int} {InRange : Nat → Int → Prop} {bits : Nat}

/-- On a terminated stretch that is not too long it is the range of the integer that decides. -/
theorem Means.leb128 (hform : form.Means last InRange) (hpos : 0 < bits) (hbits : bits ≤ 64)
    {number : List UInt8} (h : Terminated number) (hlength : number.length ≤ maxDigits bits)
    (position : Nat) (rest : List UInt8) :
    (InRange bits (spelled last number) → Parser.leb128 form bits ⟨position, number ++ rest⟩
        = .ok (BitVec.ofInt 64 (spelled last number)) ⟨position + number.length, rest⟩) ∧
    (¬ InRange bits (spelled last number) → Parser.leb128 form bits ⟨position, number ++ rest⟩
        = .error .leb128TooLarge ⟨position, number ++ rest⟩) := by
  have hzero : (0#64).toNat < 2 ^ 0 := Nat.one_pos
  have hle := le_maxDigits bits
  have hlt := maxDigits_lt bits
  obtain ⟨hin, hout⟩ := hform.gather hbits h hzero hpos hlength (by omega) (by omega)
    (z := spelled last number) (by simp) rest
  unfold Parser.leb128
  refine ⟨fun hrange => ?_, fun hrange => ?_⟩
  · rw [hin hrange]
    simp [Reader.advance]
  · rw [hout hrange]

/-- What is answered is what a terminated stretch in range spells. -/
theorem Means.leb128_ok_iff (hform : form.Means last InRange) (hpos : 0 < bits) (hbits : bits ≤ 64)
    {r r' : Reader} {word : BitVec 64} : Parser.leb128 form bits r = .ok word r' ↔ ∃ number rest,
      r.rest = number ++ rest ∧ Terminated number ∧ number.length ≤ maxDigits bits ∧
        InRange bits (spelled last number) ∧ word = BitVec.ofInt 64 (spelled last number) ∧
        r' = ⟨r.position + number.length, rest⟩ := by
  constructor
  · intro hrun
    obtain ⟨number, rest, hrest, hnumber, hlength, hr'⟩ := Parser.leb128_ok hrun
    obtain ⟨position, bytes⟩ := r
    obtain rfl : bytes = number ++ rest := hrest
    obtain ⟨hin, hout⟩ := hform.leb128 hpos hbits hnumber hlength position rest
    have hrange : InRange bits (spelled last number) := by
      by_contra hrange
      rw [hout hrange] at hrun
      cases hrun
    rw [hin hrange] at hrun
    cases hrun
    exact ⟨number, rest, rfl, hnumber, hlength, hrange, rfl, rfl⟩
  · rintro ⟨number, rest, hrest, hnumber, hlength, hrange, rfl, rfl⟩
    obtain ⟨position, bytes⟩ := r
    obtain rfl : bytes = number ++ rest := hrest
    exact (hform.leb128 hpos hbits hnumber hlength position rest).1 hrange

end Leb128.Form

end BoundedWasm
