import BoundedWasm.Bytes.Lemmas
import BoundedWasm.Proofs.ActionLogic
import BoundedWasm.Proofs.Encoding.Grammar
import BoundedWasm.Proofs.Reader.Gathering

/-!
# BoundedWasm.Proofs.Encoding.Integers — readers read what was written, integers first

`Reads p bytes a` says that the parser `p` reads `a` from `bytes`, whatever follows them, and steps
over them exactly.  It passes through sequences of parsers as bytes are put one behind the other
(`Reads.bind`), so that each parser of the decoder is shown to read what the grammar writes.
-/

namespace BoundedWasm

open BoundedWasm.Action

/-- The parser reads `a` from `bytes`, and leaves what follows them. -/
def Reads {α : Type} (p : Parser α) (bytes : List UInt8) (a : α) : Prop :=
  ∀ position rest, p ⟨position, bytes ++ rest⟩ = .ok a ⟨position + bytes.length, rest⟩

section Rules

variable {α β : Type} {p : Parser α} {bytes more : List UInt8} {a : α}

theorem reads_pure (a : α) : Reads (pure a : Parser α) [] a := fun _ _ => rfl

theorem Reads.bind (h : Reads p bytes a) {next : α → Parser β} {b : β}
    (hnext : Reads (next a) more b) : Reads (p >>= next) (bytes ++ more) b := by
  intro position rest
  rw [bind_run, List.append_assoc, h]
  simp only
  rw [hnext, List.length_append, Nat.add_assoc]

/-- The last of several parsers. -/
theorem Reads.then (h : Reads p bytes a) {next : α → Parser β} {b : β}
    (hnext : Reads (next a) [] b) : Reads (p >>= next) bytes b := by
  have hbind := h.bind hnext
  rwa [List.append_nil] at hbind

theorem Reads.map (h : Reads p bytes a) (f : α → β) : Reads (f <$> p) bytes (f a) := by
  intro position rest
  rw [map_run, h]

theorem reads_ofExcept {answer : Except Fault α} (h : answer = .ok a) :
    Reads (Action.ofExcept answer : Parser α) [] a := by
  subst h
  exact reads_pure a

/-- A check that succeeds. -/
theorem Reads.unless {c : Prop} [Decidable c] {fault : Fault} (hc : ¬ c) (h : Reads p bytes a) :
    Reads (if c then throw fault else p) bytes a := by
  rwa [if_neg hc]

theorem Reads.atomic (h : Reads p bytes a) : Reads p.atomic bytes a := by
  intro position rest
  rw [Action.atomic, h]

end Rules

/-! ### Bytes -/

namespace Parser

theorem reads_byte (b : UInt8) : Reads byte [b] b := fun _ _ => rfl

/-- A look at the next bytes gives what `f` makes of them. -/
theorem reads_take {α : Type} {look : Reader → Option α} {width : Nat} {f : List UInt8 → α}
    (hlook : ∀ r, look r = (r.peekBytes? width).map f) {bytes : List UInt8}
    (h : bytes.length = width) : Reads (take look width) bytes (f bytes) := by
  subst h
  intro position rest
  have hpeek : (⟨position, bytes ++ rest⟩ : Reader).peekBytes? bytes.length = some bytes := by
    rw [Reader.peekBytes?, if_pos, List.take_left]
    rw [Reader.remaining, List.length_append]
    exact Nat.le_add_right _ _
  rw [take, hlook, hpeek]
  simp only [Option.map_some, Reader.advance, List.drop_left]

theorem reads_bytes (bytes : List UInt8) : Reads (Parser.bytes bytes.length) bytes bytes :=
  reads_take (f := id) (fun _ => Option.map_id_apply.symm) rfl

theorem reads_little {width : Nat} {bytes : List UInt8} (h : bytes.length = width) :
    Reads (little width) bytes (Bytes.ofLittleEndian bytes) :=
  reads_take (fun _ => rfl) h

theorem reads_word32 (bits : BitVec 32) :
    Reads word32 (Bytes.toLittleEndian 4 bits.toNat) bits := by
  have h := (reads_little (Bytes.length_toLittleEndian 4 bits.toNat)).map (BitVec.ofNat 32)
  have hbits : Bytes.ofLittleEndian (Bytes.toLittleEndian 4 bits.toNat) = bits.toNat := by
    rw [Bytes.ofLittleEndian_toLittleEndian]
    exact Nat.mod_eq_of_lt bits.isLt
  rwa [hbits, BitVec.ofNat_toNat, BitVec.setWidth_eq] at h

theorem reads_word64 (bits : BitVec 64) :
    Reads word64 (Bytes.toLittleEndian 8 bits.toNat) bits := by
  have h := (reads_little (Bytes.length_toLittleEndian 8 bits.toNat)).map (BitVec.ofNat 64)
  have hbits : Bytes.ofLittleEndian (Bytes.toLittleEndian 8 bits.toNat) = bits.toNat := by
    rw [Bytes.ofLittleEndian_toLittleEndian]
    exact Nat.mod_eq_of_lt bits.isLt
  rwa [hbits, BitVec.ofNat_toNat, BitVec.setWidth_eq] at h

end Parser

/-! ### Integers -/

namespace Leb128

/-- A further digit takes up seven bits. -/
theorem one_shiftLeft {bits : Nat} (h : 7 ≤ bits) : 1 <<< bits = 128 * 1 <<< (bits - 7) := by
  obtain ⟨k, rfl⟩ := Nat.exists_eq_add_of_le h
  rw [Nat.add_sub_cancel_left, Nat.shiftLeft_add]
  simp only [Nat.shiftLeft_eq]
  omega

theorem maxDigits_more {bits : Nat} (h : 7 < bits) :
    maxDigits bits = maxDigits (bits - 7) + 1 := by
  unfold maxDigits
  omega

/-- The high bit is no part of a digit. -/
theorem mod_of_more {b : UInt8} (h : 128 ≤ b.toNat) : b.toNat % 128 = b.toNat - 128 := by
  have := b.toNat_lt
  omega

/-- What was written is a terminated stretch that spells the number, which is in range. -/
theorem Unsigned.spells {bits n : Nat} {bytes : List UInt8} (h : Unsigned bits n bytes)
    (hbits : 0 < bits) : Terminated bytes ∧ bytes.length ≤ maxDigits bits ∧
      spelled Nat.cast bytes = n ∧ FitsUnsigned bits n := by
  induction h with
  | @last bits b hlast hfits =>
    refine ⟨.last hlast, maxDigits_pos hbits, ?_, Int.natCast_nonneg _, by omega⟩
    rw [spelled, Nat.mod_eq_of_lt hlast]
  | @more bits n b bytes hmore hlong _ ih =>
    obtain ⟨hbytes, hlength, hvalue, hfits⟩ := ih (by omega)
    have hb : b.toNat < 256 := b.toNat_lt
    have hshift := one_shiftLeft (Nat.le_of_lt hlong)
    refine ⟨.more hmore hbytes, ?_, ?_, Int.natCast_nonneg _, ?_⟩
    · rw [maxDigits_more hlong, List.length_cons]
      exact Nat.succ_le_succ hlength
    · rw [spelled_cons _ _ (List.ne_nil_of_length_pos hbytes.length_pos), hvalue, mod_of_more hmore]
      push_cast
      rfl
    · have := hfits.2
      omega

theorem Signed.spells {bits : Nat} {z : Int} {bytes : List UInt8} (h : Signed bits z bytes)
    (hbits : 0 < bits) : Terminated bytes ∧ bytes.length ≤ maxDigits bits ∧
      spelled signedDigit bytes = z ∧ Fits bits z := by
  induction h with
  | @nonneg bits b hlast hfits =>
    refine ⟨.last (by omega), maxDigits_pos hbits, ?_, by omega, by omega⟩
    rw [spelled, Nat.mod_eq_of_lt (by omega), signedDigit, if_pos hlast]
  | @neg bits b hsign hlast hfits =>
    refine ⟨.last hlast, maxDigits_pos hbits, ?_, by omega, by omega⟩
    rw [spelled, Nat.mod_eq_of_lt hlast, signedDigit, if_neg (by omega)]
  | @more bits z b bytes hmore hlong _ ih =>
    obtain ⟨hbytes, hlength, hvalue, hle, hlt⟩ := ih (by omega)
    have hb : b.toNat < 256 := b.toNat_lt
    have hshift := one_shiftLeft (show 7 ≤ bits - 1 by omega)
    rw [show bits - 1 - 7 = bits - 7 - 1 by omega] at hshift
    refine ⟨.more hmore hbytes, ?_, ?_, by omega, by omega⟩
    · rw [maxDigits_more hlong, List.length_cons]
      exact Nat.succ_le_succ hlength
    · rw [spelled_cons _ _ (List.ne_nil_of_length_pos hbytes.length_pos), hvalue, mod_of_more hmore]
      omega

end Leb128

namespace Parser

open Leb128

theorem reads_leb128 {form : Form} {last : Nat → Int} {InRange : Nat → Int → Prop}
    (hform : form.Means last InRange) {bits : Nat} (hpos : 0 < bits) (hbits : bits ≤ 64) {z : Int}
    {bytes : List UInt8} (h : Terminated bytes ∧ bytes.length ≤ maxDigits bits ∧
      spelled last bytes = z ∧ InRange bits z) :
    Reads (leb128 form bits) bytes (BitVec.ofInt 64 z) := by
  intro position rest
  obtain ⟨hbytes, hlength, rfl, hrange⟩ := h
  exact (hform.leb128 hpos hbits hbytes hlength position rest).1 hrange

theorem reads_uleb {bits n : Nat} {bytes : List UInt8} (h : Unsigned bits n bytes)
    (hpos : 0 < bits) (hbits : bits ≤ 64) : Reads (uleb bits) bytes (BitVec.ofNat 64 n) := by
  rw [← BitVec.ofInt_natCast]
  exact reads_leb128 unsigned_means hpos hbits (h.spells hpos)

theorem reads_sleb {bits : Nat} {z : Int} {bytes : List UInt8} (h : Signed bits z bytes)
    (hpos : 0 < bits) (hbits : bits ≤ 64) : Reads (sleb bits) bytes (BitVec.ofInt 64 z) :=
  reads_leb128 signed_means hpos hbits (h.spells hpos)

theorem reads_uleb32 {n : UInt32} {bytes : List UInt8}
    (h : Leb128.Unsigned 32 n.toNat bytes) : Reads uleb32 bytes n := by
  have hmap := (reads_uleb h (by decide) (by decide)).map
    fun word => UInt32.ofBitVec (word.setWidth 32)
  rwa [BitVec.setWidth_ofNat_of_le (by decide), ← UInt32.ofNat, UInt32.ofNat_toNat] at hmap

theorem reads_uleb64 {n : UInt64} {bytes : List UInt8}
    (h : Leb128.Unsigned 64 n.toNat bytes) : Reads uleb64 bytes n := by
  have hmap := (reads_uleb h (by decide) (by decide)).map UInt64.ofBitVec
  rwa [← UInt64.ofNat, UInt64.ofNat_toNat] at hmap

/-- A number that is written in 32 bits is one. -/
theorem exists_uleb32 {n : Nat} {bytes : List UInt8} (h : Leb128.Unsigned 32 n bytes) :
    ∃ m : UInt32, m.toNat = n ∧ Reads uleb32 bytes m := by
  obtain ⟨-, -, -, -, hlt⟩ := h.spells (by decide)
  have hn : (UInt32.ofNat n).toNat = n := UInt32.toNat_ofNat_of_lt' (by exact_mod_cast hlt)
  exact ⟨UInt32.ofNat n, hn, reads_uleb32 (hn.symm ▸ h)⟩

theorem setWidth_ofInt (z : Int) : (BitVec.ofInt 64 z).setWidth 32 = BitVec.ofInt 32 z := by
  apply BitVec.eq_of_toNat_eq
  rw [BitVec.toNat_setWidth, BitVec.toNat_ofInt, BitVec.toNat_ofInt]
  omega

theorem reads_sleb32 {bits : BitVec 32} {bytes : List UInt8}
    (h : Leb128.Signed 32 bits.toInt bytes) : Reads sleb32 bytes bits := by
  have hmap := (reads_sleb h (by decide) (by decide)).map (BitVec.setWidth 32)
  rwa [setWidth_ofInt, BitVec.ofInt_toInt] at hmap

theorem reads_sleb33 {z : Int} {bytes : List UInt8} (h : Leb128.Signed 33 z bytes) :
    Reads sleb33 bytes z := by
  obtain ⟨-, -, -, hfits⟩ := h.spells (by decide)
  have hmap := (reads_sleb h (by decide) (by decide)).map BitVec.toInt
  rwa [toInt_word (by decide) hfits] at hmap

theorem reads_sleb64 {bits : BitVec 64} {bytes : List UInt8}
    (h : Leb128.Signed 64 bits.toInt bytes) : Reads sleb64 bytes bits := by
  have hreads := reads_sleb h (by decide) (by decide)
  rwa [BitVec.ofInt_toInt] at hreads

/-! ### Text -/

/-- The bytes of a text spell it. -/
theorem text?_toUTF8 (s : String) : Bytes.text? s.toUTF8.data.toList = some s := by
  have hbytes : s.toUTF8.data.toList.toByteArray = s.toByteArray := by
    apply ByteArray.ext
    rw [List.data_toByteArray, Array.toArray_toList]
    rfl
  rw [Bytes.text?, hbytes, String.fromUTF8?, dif_pos s.isValidUTF8]
  rfl

theorem reads_text (s : String) : Reads (text s.utf8ByteSize) s.toUTF8.data.toList s := by
  have hlength : s.utf8ByteSize = s.toUTF8.data.toList.length := rfl
  rw [text, hlength]
  refine Reads.atomic ((reads_bytes _).then ?_)
  rw [text?_toUTF8]
  exact reads_pure s

theorem reads_name {s : String} {bytes : List UInt8} (h : NameBy s bytes) {maxLength : Nat}
    (hle : s.utf8ByteSize ≤ maxLength) : Reads (name maxLength) bytes s := by
  obtain ⟨hsize⟩ := h
  obtain ⟨n, hn, hreads⟩ := exists_uleb32 hsize
  refine Reads.atomic (hreads.bind (Reads.unless (by omega) ?_))
  rw [hn]
  exact reads_text s

end Parser

end BoundedWasm
