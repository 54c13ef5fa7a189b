import BoundedWasm.Proofs.Reader.Leb128
import Mathlib.Data.Nat.Digits.Defs

/-!
# BoundedWasm.Proofs.Reader.Unsigned — which bytes are an integer without a sign

The seven low bits of each byte are a digit in base 128, the first byte having the lowest, so a
terminated stretch spells the number `Nat.ofDigits 128` of its digits (`Leb128.number`).  The
parsers of 32 and of 64 bits read exactly the terminated stretches that are short enough and whose
number has so many bits (`Parser.ReadsUnsigned`).
-/

namespace BoundedWasm

namespace Leb128

/-- The number that the seven low bits of the bytes spell, those of the first byte lowest. -/
def number (bytes : List UInt8) : Nat := Nat.ofDigits 128 (bytes.map fun b => b.toNat % 128)

theorem number_cons (b : UInt8) (bytes : List UInt8) :
    number (b :: bytes) = b.toNat % 128 + 128 * number bytes := by
  rw [number, List.map_cons, Nat.ofDigits_cons, number]

/-- What bytes spell without a sign is the number of their digits. -/
theorem Terminated.unsigned_eq {bytes : List UInt8} (h : Terminated bytes) :
    spelled Nat.cast bytes = number bytes := by
  induction h with
  | last hlast => simp [spelled, number]
  | more _ hbytes ih =>
    rw [spelled_cons _ _ (List.ne_nil_of_length_pos hbytes.length_pos), ih, number_cons]
    push_cast
    rfl

/-- What is written for a number of so many digits spells it. -/
theorem number_written {count n : Nat} (h : n < 1 <<< (7 * (count + 1))) :
    number (written (count + 1) n) = n := by
  induction count generalizing n with
  | zero =>
    simp only [Nat.zero_add, Nat.mul_one, Nat.reduceShiftLeft] at h
    have hb : ((n : Int) % 128).toNat % 128 = n := by omega
    have hbyte : ((n : Int) % 128).toNat < 256 := by omega
    simp [number, written, UInt8.toNat_ofNat_of_lt' hbyte, hb]
  | succ count ih =>
    have hb : (UInt8.ofNat (128 + ((n : Int) % 128).toNat)).toNat % 128 = n % 128 := by
      rw [UInt8.toNat_ofNat_of_lt' (show 128 + ((n : Int) % 128).toNat < 256 by omega)]
      omega
    have hdiv : (n : Int) / 128 = (n / 128 : Nat) := by simp
    have hlt : n / 128 < 1 <<< (7 * (count + 1)) := by
      rw [one_shiftLeft (show 7 ≤ 7 * (count + 1 + 1) by omega),
        show 7 * (count + 1 + 1) - 7 = 7 * (count + 1) by omega] at h
      omega
    rw [written, number_cons, hb, hdiv, ih hlt]
    omega

end Leb128

namespace Parser

open Leb128

variable {α : Type} {bits : Nat}

/-- The parser reads numbers of `bits` bits, and its answers stand for them as `value` says.  Every
number of so many bits is read back from what is written for it, with as few bytes as it takes and
with more, up to `⌈bits / 7⌉` of them. -/
structure ReadsUnsigned (bits : Nat) (p : Parser α) (value : α → Nat) : Prop
    extends ReadsNumbers bits number (· < 1 <<< bits) p value where
  reads_written : ∀ n count : Nat, n < 1 <<< bits → 0 < count → count ≤ maxDigits bits →
    n < 1 <<< (7 * count) → ∃ a, value a = n ∧ Reads p (written count n) a
  shortest : ∀ n : Nat, n < 1 <<< bits → ∃ count, 0 < count ∧ count ≤ maxDigits bits ∧
    n < 1 <<< (7 * count) ∧ ∀ fewer, 0 < fewer → n < 1 <<< (7 * fewer) → count ≤ fewer

/-- Of a parser that reads numbers up to `bits` bits and has an answer for each of them. -/
theorem ReadsNumbers.readsUnsigned (hbits : 0 < bits) {p : Parser α} {value : α → Nat}
    (h : ReadsNumbers bits number (· < 1 <<< bits) p value)
    (hvalue : ∀ n, n < 1 <<< bits → ∃ a, value a = n) : ReadsUnsigned bits p value where
  toReadsNumbers := h
  reads_written n count hn hpos hle hcount := by
    obtain ⟨count, rfl⟩ := Nat.exists_eq_add_of_le' hpos
    obtain ⟨a, rfl⟩ := hvalue n hn
    have hlength : (written (count + 1) (value a)).length ≤ maxDigits bits := by
      rwa [length_written]
    exact ⟨a, rfl, h.reads (terminated_written count _) hlength (number_written hcount).symm hn⟩
  shortest n hn := by
    refine exists_least (maxDigits_pos hbits) (Nat.lt_of_lt_of_le hn ?_)
    simp only [Nat.one_shiftLeft]
    exact Nat.pow_le_pow_right Nat.two_pos (le_maxDigits bits)

theorem uleb_readsNumbers (hpos : 0 < bits) (hbits : bits ≤ 64) :
    ReadsNumbers bits number (· < 1 <<< bits) (uleb bits) BitVec.toNat := by
  have hpow : 2 ^ bits ≤ 2 ^ 64 := Nat.pow_le_pow_right Nat.two_pos hbits
  refine leb128_readsNumbers unsigned_means hpos hbits fun bytes word hbytes => ?_
  rw [hbytes.unsigned_eq, FitsUnsigned, BitVec.ofInt_natCast]
  constructor
  · rintro ⟨hword, hlt⟩
    rw [← hword, BitVec.ofNat_toNat, BitVec.setWidth_eq]
    exact ⟨⟨Int.natCast_nonneg _, by exact_mod_cast hlt⟩, rfl⟩
  · rintro ⟨⟨-, hlt⟩, rfl⟩
    have hnumber : number bytes < 1 <<< bits := by exact_mod_cast hlt
    rw [Nat.one_shiftLeft] at hnumber
    rw [toNat_ofNat_of_lt hnumber hbits, Nat.one_shiftLeft]
    exact ⟨rfl, hnumber⟩

theorem uleb32_readsNumbers : ReadsNumbers 32 number (· < 1 <<< 32) uleb32 UInt32.toNat :=
  (uleb_readsNumbers (by decide) (by decide)).map
    (fun word hlt => (BitVec.toNat_setWidth 32 word).trans (Nat.mod_eq_of_lt hlt))
    fun n _ => ⟨n.toBitVec.setWidth 64, BitVec.toNat_setWidth_of_le (by decide), by simp⟩

theorem uleb64_readsNumbers : ReadsNumbers 64 number (· < 1 <<< 64) uleb64 UInt64.toNat :=
  (uleb_readsNumbers (by decide) (by decide)).map (fun _ _ => rfl) fun n _ => ⟨n.toBitVec, rfl, rfl⟩

/-- The unsigned integers of each width are read exactly: what is answered, how far the reader is
moved, and which fault stands in the place of an answer follow from the bytes ahead, and every
number of the width is read back from its shortest form and from every longer one. -/
theorem unsigned_integers_exact :
    ReadsUnsigned 32 uleb32 UInt32.toNat ∧ ReadsUnsigned 64 uleb64 UInt64.toNat := by
  refine ⟨uleb32_readsNumbers.readsUnsigned (by decide) fun n hn => ?_,
    uleb64_readsNumbers.readsUnsigned (by decide) fun n hn => ?_⟩
  · exact ⟨UInt32.ofNat n, UInt32.toNat_ofNat_of_lt' hn⟩
  · exact ⟨UInt64.ofNat n, UInt64.toNat_ofNat_of_lt' hn⟩

end Parser

end BoundedWasm
