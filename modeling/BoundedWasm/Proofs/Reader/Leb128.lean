import BoundedWasm.Proofs.Encoding.Integers
import Mathlib.Data.Nat.Find

/-!
# BoundedWasm.Proofs.Reader.Leb128 — which bytes are an integer of variable length

The seven low bits of the bytes of one integer together are the integer in two's complement
(`Leb128.payload`), or without a sign.  A parser of integers reads exactly the terminated stretches
that are short enough and spell one in range, and names what is missing in all other cases
(`Parser.ReadsNumbers`).  Of signed integers the range is that of two's complement, and every one of
them is read back from what is written for it (`Parser.ReadsSigned`).
-/

namespace BoundedWasm

open BoundedWasm.Action

namespace Leb128

/-- The seven low bits of every byte together, those of the first byte lowest. -/
def payload : (bytes : List UInt8) → BitVec (7 * bytes.length)
  | [] => 0#0
  | b :: bytes => payload bytes ++ b.toBitVec.setWidth 7

/-- An integer written in `count` bytes, the lowest seven bits first. -/
def written : (count : Nat) → (v : Int) → List UInt8
  | 0, _ => []
  | 1, v => [UInt8.ofNat (v % 128).toNat]
  | count + 2, v => UInt8.ofNat (128 + (v % 128).toNat) :: written (count + 1) (v / 128)

/-! ### The integer that is spelled -/

theorem toInt_seven (b : UInt8) (h : b.toNat < 128) :
    (b.toBitVec.setWidth 7).toInt = if b.toNat < 64 then (b.toNat : Int) else b.toNat - 128 := by
  have hb : (b.toBitVec.setWidth 7).toNat = b.toNat := by
    simpa using Nat.mod_eq_of_lt h
  rw [BitVec.toInt_eq_toNat_cond, hb]
  split <;> split <;> omega

/-- What bytes spell with a sign is the integer whose bits they are. -/
theorem Terminated.signed_eq {number : List UInt8} (h : Terminated number) :
    spelled signedDigit number = (payload number).toInt := by
  induction h with
  | @last b hlast =>
    have hpayload : payload [b] = 0#0 ++ b.toBitVec.setWidth 7 := rfl
    rw [hpayload, BitVec.toInt_append, spelled, signedDigit, Nat.mod_eq_of_lt hlast]
    exact (toInt_seven b hlast).symm
  | @more b bytes _ hbytes ih =>
    have hne := List.ne_nil_of_length_pos hbytes.length_pos
    have hpayload : payload (b :: bytes) = payload bytes ++ b.toBitVec.setWidth 7 := rfl
    have hb : (b.toBitVec.setWidth 7).toNat = b.toNat % 128 := by simp
    rw [spelled_cons _ _ hne, hpayload, BitVec.toInt_append, ← ih, hb, if_neg (by simpa using hne)]
    omega

/-! ### Writing -/

/-- An integer of `count + 1` digits, without its lowest. -/
theorem Fits.div {count : Nat} {v : Int} (h : Fits (7 * (count + 1 + 1)) v) :
    Fits (7 * (count + 1)) (v / 128) := by
  unfold Fits at *
  have hshift := one_shiftLeft (show 7 ≤ 7 * (count + 1 + 1) - 1 by omega)
  rw [show 7 * (count + 1 + 1) - 1 - 7 = 7 * (count + 1) - 1 by omega] at hshift
  omega

theorem length_written (count : Nat) (v : Int) : (written count v).length = count := by
  induction count generalizing v with
  | zero => rfl
  | succ count ih =>
    cases count with
    | zero => rfl
    | succ count => rw [written, List.length_cons, ih]

theorem terminated_written (count : Nat) (v : Int) : Terminated (written (count + 1) v) := by
  induction count generalizing v with
  | zero =>
    refine .last ?_
    rw [UInt8.toNat_ofNat_of_lt' (show (v % 128).toNat < 256 by omega)]
    omega
  | succ count ih =>
    refine .more ?_ (ih (v / 128))
    rw [UInt8.toNat_ofNat_of_lt' (show 128 + (v % 128).toNat < 256 by omega)]
    omega

/-- What is written for an integer of so many digits spells it. -/
theorem signed_written {count : Nat} {v : Int} (h : Fits (7 * (count + 1)) v) :
    spelled signedDigit (written (count + 1) v) = v := by
  induction count generalizing v with
  | zero =>
    have hb : (UInt8.ofNat (v % 128).toNat).toNat % 128 = (v % 128).toNat := by
      rw [UInt8.toNat_ofNat_of_lt' (show (v % 128).toNat < 256 by omega)]
      omega
    simp only [written, spelled, hb, signedDigit]
    simp only [Fits, Nat.reduceAdd, Nat.reduceMul, Nat.reduceSub, Nat.reduceShiftLeft] at h
    split <;> omega
  | succ count ih =>
    have hb : (UInt8.ofNat (128 + (v % 128).toNat)).toNat % 128 = (v % 128).toNat := by
      rw [UInt8.toNat_ofNat_of_lt' (show 128 + (v % 128).toNat < 256 by omega)]
      omega
    have hne : written (count + 1) (v / 128) ≠ [] := by
      rw [Ne, ← List.length_eq_zero_iff, length_written]
      omega
    rw [written, spelled_cons _ _ hne, hb, ih h.div]
    omega

theorem toInt_payload_written {count : Nat} {v : Int} (h : Fits (7 * (count + 1)) v) :
    (payload (written (count + 1) v)).toInt = v := by
  rw [← (terminated_written count v).signed_eq, signed_written h]

example : written 3 (-123456) = [0xC0, 0xBB, 0x78] := by decide

/-- The least number of digits that is enough. -/
theorem exists_least {Suffices : Nat → Prop} [DecidablePred Suffices] {most : Nat} (hpos : 0 < most)
    (hmost : Suffices most) : ∃ count, 0 < count ∧ count ≤ most ∧ Suffices count ∧
      ∀ fewer, 0 < fewer → Suffices fewer → count ≤ fewer := by
  have hexists : ∃ count, 0 < count ∧ Suffices count := ⟨most, hpos, hmost⟩
  obtain ⟨hfound, hsuffices⟩ := Nat.find_spec hexists
  exact ⟨Nat.find hexists, hfound, Nat.find_min' hexists ⟨hpos, hmost⟩, hsuffices,
    fun fewer hpos' hfewer => Nat.find_min' hexists ⟨hpos', hfewer⟩⟩

end Leb128

/-! ### Parsers of integers -/

namespace Parser

open Leb128

variable {α β ν : Type} {bits : Nat}

/-- The parser reads the numbers in a range, and its answers stand for them as `value` says.  It
answers exactly when a terminated stretch of at most `⌈bits / 7⌉` bytes lies ahead that spells a
number in range, and steps over it; otherwise it stays where it is, and the fault says whether the
bytes ended too early. -/
structure ReadsNumbers (bits : Nat) (spelled : List UInt8 → ν) (InRange : ν → Prop) (p : Parser α)
    (value : α → ν) : Prop where
  answers : ∀ (r r' : Reader) (a : α), p r = .ok a r' ↔ ∃ number rest,
    r.rest = number ++ rest ∧ Terminated number ∧ number.length ≤ maxDigits bits ∧
      value a = spelled number ∧ InRange (value a) ∧ r' = ⟨r.position + number.length, rest⟩
  stays : ∀ (r r' : Reader) (fault : Fault), p r = .error fault r' → r' = r
  endsEarly : ∀ r : Reader, p r = .error .unexpectedEnd r ↔
    r.rest.length < maxDigits bits ∧ ∀ b ∈ r.rest, 128 ≤ b.toNat
  invalid : ∀ (r r' : Reader) (fault : Fault), p r = .error fault r' →
    fault ≠ .unexpectedEnd → ∃ message, fault = .invalidLeb128 message

/-- What is gathered stands for what the stretch spells. -/
theorem leb128_readsNumbers {form : Form} {last : Nat → Int} {Inside : Nat → Int → Prop}
    (hform : form.Means last Inside) (hpos : 0 < bits) (hbits : bits ≤ 64)
    {spells : List UInt8 → ν} {InRange : ν → Prop} {value : BitVec 64 → ν}
    (hvalue : ∀ number word, Terminated number →
      (value word = spells number ∧ InRange (value word) ↔
        Inside bits (spelled last number) ∧ word = BitVec.ofInt 64 (spelled last number))) :
    ReadsNumbers bits spells InRange (leb128 form bits) value where
  answers r r' word := by
    rw [hform.leb128_ok_iff hpos hbits]
    constructor
    · rintro ⟨number, rest, hrest, hnumber, hlength, hinside, hword, hr'⟩
      obtain ⟨hspells, hin⟩ := (hvalue number word hnumber).mpr ⟨hinside, hword⟩
      exact ⟨number, rest, hrest, hnumber, hlength, hspells, hin, hr'⟩
    · rintro ⟨number, rest, hrest, hnumber, hlength, hspells, hin, hr'⟩
      obtain ⟨hinside, hword⟩ := (hvalue number word hnumber).mp ⟨hspells, hin⟩
      exact ⟨number, rest, hrest, hnumber, hlength, hinside, hword, hr'⟩
  stays r r' fault hrun := (leb128_error hrun).1
  endsEarly r := by
    refine ⟨fun hrun => ?_, fun ⟨hlt, hhigh⟩ => leb128_endsEarly hlt hhigh⟩
    obtain ⟨-, ⟨-, hends⟩ | hfault | hfault⟩ := leb128_error hrun
    · exact hends
    · exact absurd hfault (by decide)
    · exact absurd hfault (by decide)
  invalid r r' fault hrun hfault := by
    obtain ⟨-, ⟨rfl, -⟩ | rfl | rfl⟩ := leb128_error hrun
    · exact absurd rfl hfault
    · exact ⟨_, rfl⟩
    · exact ⟨_, rfl⟩

theorem map_ok_iff {p : Parser β} {f : β → α} {r r' : Reader} {a : α} :
    (f <$> p) r = .ok a r' ↔ ∃ b, p r = .ok b r' ∧ f b = a := by
  rw [map_run]
  cases p r with
  | ok b s =>
    constructor
    · rintro ⟨⟩
      exact ⟨b, rfl, rfl⟩
    · rintro ⟨_, ⟨⟩, rfl⟩
      rfl
  | error fault s => simp

theorem map_error_iff {p : Parser β} {f : β → α} {r r' : Reader} {fault : Fault} :
    (f <$> p) r = .error fault r' ↔ p r = .error fault r' := by
  rw [map_run]
  cases p r <;> simp

namespace ReadsNumbers

variable {spelled : List UInt8 → ν} {InRange : ν → Prop}

/-- The same numbers in another type. -/
theorem map {p : Parser β} {found : β → ν} (h : ReadsNumbers bits spelled InRange p found)
    {f : β → α} {value : α → ν} (hvalue : ∀ b, InRange (found b) → value (f b) = found b)
    (hf : ∀ a, InRange (value a) → ∃ b, found b = value a ∧ f b = a) :
    ReadsNumbers bits spelled InRange (f <$> p) value where
  answers r r' a := by
    rw [map_ok_iff]
    constructor
    · rintro ⟨b, hrun, rfl⟩
      obtain ⟨number, rest, hrest, hnumber, hlength, hb, hin, hr'⟩ := (h.answers r r' b).mp hrun
      have hsame := hvalue b hin
      exact ⟨number, rest, hrest, hnumber, hlength, hsame.trans hb, hsame.symm ▸ hin, hr'⟩
    · rintro ⟨number, rest, hrest, hnumber, hlength, ha, hin, hr'⟩
      obtain ⟨b, hb, rfl⟩ := hf a hin
      rw [← hb] at ha hin
      exact ⟨b, (h.answers r r' b).mpr ⟨number, rest, hrest, hnumber, hlength, ha, hin, hr'⟩, rfl⟩
  stays r r' fault hrun := h.stays r r' fault (map_error_iff.mp hrun)
  endsEarly r := map_error_iff.trans (h.endsEarly r)
  invalid r r' fault hrun := h.invalid r r' fault (map_error_iff.mp hrun)

/-- Every stretch that spells a number in range is read, whatever follows it. -/
theorem reads {p : Parser α} {value : α → ν} (h : ReadsNumbers bits spelled InRange p value)
    {number : List UInt8} (hnumber : Terminated number) (hlength : number.length ≤ maxDigits bits)
    {a : α} (ha : value a = spelled number) (hin : InRange (value a)) : Reads p number a :=
  fun _ rest => (h.answers _ _ a).mpr ⟨number, rest, rfl, hnumber, hlength, ha, hin, rfl⟩

end ReadsNumbers

/-! ### Signed integers -/

/-- The parser reads integers of `bits` bits in two's complement, and its answers stand for them as
`value` says.  It answers exactly when a terminated stretch of at most `⌈bits / 7⌉` bytes lies ahead
whose integer fits, and steps over it; otherwise it stays where it is, and the fault says whether
the bytes ended too early. -/
structure ReadsSigned (bits : Nat) (p : Parser α) (value : α → Int) : Prop where
  answers : ∀ (r r' : Reader) (a : α), p r = .ok a r' ↔ ∃ number rest,
    r.rest = number ++ rest ∧ Terminated number ∧ number.length ≤ maxDigits bits ∧
      value a = (payload number).toInt ∧ Fits bits (value a) ∧
      r' = ⟨r.position + number.length, rest⟩
  stays : ∀ (r r' : Reader) (fault : Fault), p r = .error fault r' → r' = r
  endsEarly : ∀ r : Reader, p r = .error .unexpectedEnd r ↔
    r.rest.length < maxDigits bits ∧ ∀ b ∈ r.rest, 128 ≤ b.toNat
  invalid : ∀ (r r' : Reader) (fault : Fault), p r = .error fault r' →
    fault ≠ .unexpectedEnd → ∃ message, fault = .invalidLeb128 message
  reads_written : ∀ (v : Int) (count : Nat), Fits bits v → 0 < count → count ≤ maxDigits bits →
    Fits (7 * count) v → ∃ a, value a = v ∧ Reads p (written count v) a
  shortest : ∀ v : Int, Fits bits v → ∃ count, 0 < count ∧ count ≤ maxDigits bits ∧
    Fits (7 * count) v ∧ ∀ fewer, 0 < fewer → Fits (7 * fewer) v → count ≤ fewer

/-- Of a parser that reads integers of `bits` bits and has an answer for each of them. -/
theorem ReadsNumbers.readsSigned (hbits : 0 < bits) {p : Parser α} {value : α → Int}
    (h : ReadsNumbers bits (fun number => (payload number).toInt) (Fits bits) p value)
    (hvalue : ∀ v, Fits bits v → ∃ a, value a = v) : ReadsSigned bits p value where
  answers := h.answers
  stays := h.stays
  endsEarly := h.endsEarly
  invalid := h.invalid
  reads_written v count hfits hpos hle hcount := by
    obtain ⟨count, rfl⟩ := Nat.exists_eq_add_of_le' hpos
    obtain ⟨a, rfl⟩ := hvalue v hfits
    have hlength : (written (count + 1) (value a)).length ≤ maxDigits bits := by
      rwa [length_written]
    exact ⟨a, rfl, h.reads (terminated_written count _) hlength
      (toInt_payload_written hcount).symm hfits⟩
  shortest _ hfits := exists_least (maxDigits_pos hbits) (hfits.mono (le_maxDigits bits))

theorem sleb_readsNumbers (hpos : 0 < bits) (hbits : bits ≤ 64) :
    ReadsNumbers bits (fun number => (payload number).toInt) (Fits bits) (sleb bits)
      BitVec.toInt := by
  refine leb128_readsNumbers signed_means hpos hbits fun number word hnumber => ?_
  rw [hnumber.signed_eq]
  constructor
  · rintro ⟨hword, hfits⟩
    rw [← hword]
    exact ⟨hfits, BitVec.ofInt_toInt.symm⟩
  · rintro ⟨hfits, rfl⟩
    have hword := toInt_word hbits hfits
    exact ⟨hword, hword.symm ▸ hfits⟩

/-- The word is cut to half its width without loss. -/
theorem toInt_setWidth_of_fits {word : BitVec 64} (h : Fits 32 word.toInt) :
    (word.setWidth 32).toInt = word.toInt := by
  have hword := setWidth_ofInt word.toInt
  rw [BitVec.ofInt_toInt] at hword
  rw [hword, toInt_ofInt_of_fits (by decide) h]

theorem sleb32_readsNumbers :
    ReadsNumbers 32 (fun number => (payload number).toInt) (Fits 32) sleb32 BitVec.toInt :=
  (sleb_readsNumbers (by decide) (by decide)).map (fun _ => toInt_setWidth_of_fits)
    fun bits hfits => ⟨BitVec.ofInt 64 bits.toInt, toInt_word (by decide) hfits, by
      rw [setWidth_ofInt, BitVec.ofInt_toInt]⟩

theorem sleb33_readsNumbers :
    ReadsNumbers 33 (fun number => (payload number).toInt) (Fits 33) sleb33 id :=
  (sleb_readsNumbers (by decide) (by decide)).map (fun _ _ => rfl)
    fun _ hfits => ⟨_, toInt_word (by decide) hfits, toInt_word (by decide) hfits⟩

theorem sleb64_readsNumbers :
    ReadsNumbers 64 (fun number => (payload number).toInt) (Fits 64) sleb64 BitVec.toInt :=
  sleb_readsNumbers (by decide) (by decide)

/-- The signed integers of each width are read exactly: what is answered, how far the reader is
moved, and which fault stands in the place of an answer follow from the bytes ahead, and every
integer of the width is read back from its shortest form and from every longer one. -/
theorem signed_integers_exact : ReadsSigned 32 sleb32 BitVec.toInt ∧ ReadsSigned 33 sleb33 id ∧
    ReadsSigned 64 sleb64 BitVec.toInt := by
  refine ⟨sleb32_readsNumbers.readsSigned (by decide) fun v hfits => ?_,
    sleb33_readsNumbers.readsSigned (by decide) fun v _ => ⟨v, rfl⟩,
    sleb64_readsNumbers.readsSigned (by decide) fun v hfits => ?_⟩
  · exact ⟨BitVec.ofInt 32 v, toInt_ofInt_of_fits (by decide) hfits⟩
  · exact ⟨BitVec.ofInt 64 v, toInt_ofInt_of_fits (by decide) hfits⟩

end Parser

end BoundedWasm
