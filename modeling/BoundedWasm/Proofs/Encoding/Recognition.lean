import BoundedWasm.Proofs.Encoding.Bodies
import BoundedWasm.Proofs.Reader.Unsigned

/-!
# BoundedWasm.Proofs.Encoding.Recognition — what is read was written

The converse of `Reads`: `Recognizes p E` says that whatever the parser `p` answers stands in the
bytes that it steps over as `E` writes it.  It passes through sequences of parsers as bytes are put
one behind the other (`Recognizes.bind`), up to whole instructions, so that the decoder accepts no
instruction that the grammar does not have.
-/

namespace BoundedWasm

open BoundedWasm.Action

/-- The reader `r'` stands behind `bytes`, which lie ahead of `r`. -/
structure Reader.StepsOver (r : Reader) (bytes : List UInt8) (r' : Reader) : Prop where
  rest_eq : r.rest = bytes ++ r'.rest
  position_eq : r'.position = r.position + bytes.length

namespace Reader

theorem stepsOver_refl (r : Reader) : r.StepsOver [] r := ⟨rfl, rfl⟩

theorem StepsOver.trans {r r' r'' : Reader} {bytes more : List UInt8} (h : r.StepsOver bytes r')
    (h' : r'.StepsOver more r'') : r.StepsOver (bytes ++ more) r'' where
  rest_eq := by rw [h.rest_eq, h'.rest_eq, List.append_assoc]
  position_eq := by rw [h'.position_eq, h.position_eq, List.length_append, Nat.add_assoc]

/-- A reader is known by the bytes that it steps over. -/
theorem StepsOver.eq {r r' : Reader} {bytes : List UInt8} (h : r.StepsOver bytes r') :
    r = ⟨r.position, bytes ++ r'.rest⟩ ∧ r' = ⟨r.position + bytes.length, r'.rest⟩ := by
  obtain ⟨hrest, hposition⟩ := h
  rw [← hrest, ← hposition]
  exact ⟨rfl, rfl⟩

end Reader

/-- The parser answers only what stands in the bytes that it steps over, written as `E` says. -/
def Recognizes {α : Type} (p : Parser α) (E : α → List UInt8 → Prop) : Prop :=
  ∀ (r r' : Reader) (a : α), p r = .ok a r' → ∃ bytes, E a bytes ∧ r.StepsOver bytes r'

section Rules

variable {α β : Type} {p : Parser α} {E : α → List UInt8 → Prop} {F : β → List UInt8 → Prop}

theorem recognizes_pure {a : α} (h : E a []) : Recognizes (pure a : Parser α) E := by
  rintro r r' a' ⟨⟩
  exact ⟨[], h, r.stepsOver_refl⟩

theorem recognizes_throw (fault : Fault) : Recognizes (throw fault : Parser α) E := by
  rintro r r' a ⟨⟩

theorem Recognizes.bind (h : Recognizes p E) {next : α → Parser β}
    (hnext : ∀ a bytes, E a bytes → Recognizes (next a) fun b more => F b (bytes ++ more)) :
    Recognizes (p >>= next) F := by
  intro r r'' b hrun
  rw [bind_run] at hrun
  split at hrun
  · rename_i a r' hp
    obtain ⟨bytes, ha, hover⟩ := h r r' a hp
    obtain ⟨more, hb, hover'⟩ := hnext a bytes ha r' r'' b hrun
    exact ⟨bytes ++ more, hb, hover.trans hover'⟩
  · cases hrun

/-- The last of several parsers. -/
theorem Recognizes.then (h : Recognizes p E) {next : α → β}
    (hnext : ∀ a bytes, E a bytes → F (next a) bytes) :
    Recognizes (p >>= fun a => pure (next a)) F :=
  h.bind fun a bytes ha => recognizes_pure (by rw [List.append_nil]; exact hnext a bytes ha)

theorem Recognizes.map (h : Recognizes p E) {f : α → β}
    (hf : ∀ a bytes, E a bytes → F (f a) bytes) : Recognizes (f <$> p) F := by
  intro r r' b hrun
  rw [map_run] at hrun
  split at hrun
  · rename_i a r'' hp
    cases hrun
    obtain ⟨bytes, ha, hover⟩ := h r r' a hp
    exact ⟨bytes, hf a bytes ha, hover⟩
  · cases hrun

theorem Recognizes.ite {c : Prop} [Decidable c] {q : Parser α} (h : c → Recognizes p E)
    (hq : ¬ c → Recognizes q E) : Recognizes (if c then p else q) E := by
  split
  · exact h ‹_›
  · exact hq ‹_›

/-- Of what a parser answers the bytes are known, and so is what it answers to them. -/
theorem Recognizes.reads (h : Recognizes p E) {written : α → α}
    (hreads : ∀ a bytes, E a bytes → Reads p bytes (written a)) {r r' : Reader} {a : α}
    (hrun : p r = .ok a r') : ∃ bytes, E a bytes ∧ written a = a ∧ r.StepsOver bytes r' := by
  obtain ⟨bytes, ha, hover⟩ := h r r' a hrun
  refine ⟨bytes, ha, ?_, hover⟩
  rw [hover.eq.1, hreads a bytes ha] at hrun
  injection hrun

end Rules

/-! ### Integers -/

namespace Leb128

/-- Behind a byte that says that more follow there are seven bits less. -/
theorem Terminated.room_of_more {bytes : List UInt8} (h : Terminated bytes) {b : UInt8} {bits : Nat}
    (hlength : (b :: bytes).length ≤ maxDigits bits) :
    7 < bits ∧ bytes.length ≤ maxDigits (bits - 7) := by
  have hpos := h.length_pos
  rw [List.length_cons] at hlength
  unfold maxDigits at *
  omega

/-- A terminated stretch whose number has `bits` bits is one of its encodings. -/
theorem Terminated.unsigned_encoded {bytes : List UInt8} (h : Terminated bytes) {bits : Nat}
    (hlength : bytes.length ≤ maxDigits bits) (hlt : number bytes < 1 <<< bits) :
    Unsigned bits (number bytes) bytes := by
  induction h generalizing bits with
  | @last b hlast =>
    have hvalue : number [b] = b.toNat := Nat.mod_eq_of_lt hlast
    rw [hvalue] at hlt ⊢
    exact .last hlast hlt
  | @more b bytes hmore hbytes ih =>
    obtain ⟨hlong, hroom⟩ := hbytes.room_of_more hlength
    rw [number_cons, one_shiftLeft (Nat.le_of_lt hlong)] at hlt
    rw [number_cons, mod_of_more hmore]
    exact .more hmore hlong (ih hroom (by omega))

/-- A terminated stretch that spells an integer of `bits` bits is one of its encodings. -/
theorem Terminated.signed_encoded {bytes : List UInt8} (h : Terminated bytes) {bits : Nat}
    (hlength : bytes.length ≤ maxDigits bits) (hfits : Fits bits (spelled signedDigit bytes)) :
    Signed bits (spelled signedDigit bytes) bytes := by
  induction h generalizing bits with
  | @last b hlast =>
    simp only [spelled, signedDigit, Nat.mod_eq_of_lt hlast, Fits] at hfits ⊢
    split at hfits
    · rename_i hnonneg
      rw [if_pos hnonneg]
      exact .nonneg hnonneg (by omega)
    · rename_i hneg
      rw [if_neg hneg]
      exact .neg (by omega) hlast (by omega)
  | @more b bytes hmore hbytes ih =>
    obtain ⟨hlong, hroom⟩ := hbytes.room_of_more hlength
    have hb : ((b.toNat % 128 : Nat) : Int) = (b.toNat : Int) - 128 := by
      rw [mod_of_more hmore, Int.ofNat_sub hmore]
      rfl
    rw [spelled_cons _ _ (List.ne_nil_of_length_pos hbytes.length_pos), hb] at hfits ⊢
    have hrest : Fits (bits - 7) (spelled signedDigit bytes) := by
      have hshift := one_shiftLeft (show 7 ≤ bits - 1 by omega)
      rw [show bits - 1 - 7 = bits - 7 - 1 by omega] at hshift
      have hlt := b.toNat_lt
      unfold Fits at hfits ⊢
      omega
    exact .more hmore hlong (ih hroom hrest)

end Leb128

namespace Parser

open Leb128

section Integers

variable {α : Type} {p : Parser α} {bits : Nat}

theorem recognizes_unsigned {value : α → Nat}
    (h : ReadsNumbers bits number (· < 1 <<< bits) p value) :
    Recognizes p fun a bytes => Unsigned bits (value a) bytes := by
  intro r r' a hrun
  obtain ⟨bytes, rest, hrest, hbytes, hlength, ha, hlt, rfl⟩ := (h.answers r r' a).mp hrun
  rw [ha] at hlt
  have hencoded := hbytes.unsigned_encoded hlength hlt
  rw [← ha] at hencoded
  exact ⟨bytes, hencoded, hrest, rfl⟩

theorem recognizes_signed {value : α → Int}
    (h : ReadsNumbers bits (fun bytes => (payload bytes).toInt) (Fits bits) p value) :
    Recognizes p fun a bytes => Signed bits (value a) bytes := by
  intro r r' a hrun
  obtain ⟨bytes, rest, hrest, hbytes, hlength, ha, hfits, rfl⟩ := (h.answers r r' a).mp hrun
  rw [ha, ← hbytes.signed_eq] at hfits
  have hencoded := hbytes.signed_encoded hlength hfits
  rw [hbytes.signed_eq, ← ha] at hencoded
  exact ⟨bytes, hencoded, hrest, rfl⟩

theorem recognizes_uleb32 : Recognizes uleb32 fun n bytes => Unsigned 32 n.toNat bytes :=
  recognizes_unsigned uleb32_readsNumbers

theorem recognizes_uleb64 : Recognizes uleb64 fun n bytes => Unsigned 64 n.toNat bytes :=
  recognizes_unsigned uleb64_readsNumbers

theorem recognizes_sleb32 : Recognizes sleb32 fun bits bytes => Signed 32 bits.toInt bytes :=
  recognizes_signed sleb32_readsNumbers

theorem recognizes_sleb33 : Recognizes sleb33 fun z bytes => Signed 33 z bytes :=
  recognizes_signed sleb33_readsNumbers

theorem recognizes_sleb64 : Recognizes sleb64 fun bits bytes => Signed 64 bits.toInt bytes :=
  recognizes_signed sleb64_readsNumbers

end Integers

/-! ### Bytes and words -/

theorem recognizes_byte : Recognizes byte fun b bytes => bytes = [b] := by
  rintro ⟨position, ahead⟩ r' b hrun
  cases ahead with
  | nil => cases hrun
  | cons first rest =>
    cases hrun
    exact ⟨_, rfl, rfl, rfl⟩

/-- What is made of the next bytes is made of those that are stepped over. -/
theorem recognizes_take {α : Type} {look : Reader → Option α} {width : Nat} {f : List UInt8 → α}
    (hlook : ∀ r, look r = (r.peekBytes? width).map f) :
    Recognizes (take look width) fun a bytes => bytes.length = width ∧ a = f bytes := by
  intro r r' a hrun
  rw [take, hlook, Reader.peekBytes?] at hrun
  by_cases hle : width ≤ r.remaining
  · have hlength : (r.rest.take width).length = width := by
      rw [List.length_take]
      exact Nat.min_eq_left hle
    rw [if_pos hle] at hrun
    cases hrun
    exact ⟨_, ⟨hlength, rfl⟩, (List.take_append_drop _ _).symm, by rw [hlength]; rfl⟩
  · rw [if_neg hle] at hrun
    cases hrun

theorem recognizes_little (width : Nat) : Recognizes (little width) fun n bytes =>
    bytes.length = width ∧ n = Bytes.ofLittleEndian bytes :=
  recognizes_take fun _ => rfl

end Parser

/-- What bytes spell is written in them again. -/
theorem Bytes.toLittleEndian_ofLittleEndian (bytes : List UInt8) :
    toLittleEndian bytes.length (ofLittleEndian bytes) = bytes := by
  induction bytes with
  | nil => rfl
  | cons b bytes ih =>
    have hb := b.toNat_lt
    have hfirst : UInt8.ofNat (b.toNat + 256 * ofLittleEndian bytes) = b := by
      apply UInt8.toNat_inj.mp
      rw [UInt8.toNat_ofNat']
      omega
    rw [List.length_cons, ofLittleEndian, toLittleEndian, hfirst,
      show (b.toNat + 256 * ofLittleEndian bytes) / 256 = ofLittleEndian bytes by omega, ih]

namespace Parser

/-- A word has eight bits for each of its bytes. -/
theorem recognizes_word (width : Nat) : Recognizes (BitVec.ofNat (8 * width) <$> little width)
    fun bits bytes => bytes = Bytes.toLittleEndian width bits.toNat :=
  (recognizes_little width).map fun n bytes ⟨hlength, hn⟩ => by
    have hlt := Bytes.ofLittleEndian_lt bytes
    rw [Nat.one_shiftLeft, hlength] at hlt
    rw [hn, BitVec.toNat_ofNat, Nat.mod_eq_of_lt hlt, ← hlength,
      Bytes.toLittleEndian_ofLittleEndian]

end Parser

/-! ### Instructions -/

namespace Opcode

theorem table_opcodes : ∀ entry ∈ table, code entry.2 = entry.1 := by decide +kernel

theorem code_of_ofCode? {n : Nat} {opcode : Opcode} (h : ofCode? n = some opcode) :
    opcode.code = n := by
  obtain ⟨entry, hentry, rfl⟩ := Option.map_eq_some_iff.mp h
  have hn : entry.1 = n := by simpa using List.find?_some hentry
  rw [← hn]
  exact table_opcodes entry (List.mem_of_find?_eq_some hentry)

end Opcode

namespace Parser

theorem recognizes_opcode : Recognizes opcode Opcode.EncodedBy := by
  refine recognizes_byte.bind fun first bytes hbytes => ?_
  subst hbytes
  have hfrom : Recognizes (opcodeFrom? first) fun found? more =>
      ∀ found, found? = some found → found.EncodedBy ([first] ++ more) := by
    refine Recognizes.ite (fun hfirst => ?_) fun _ => recognizes_pure fun found hfound => ?_
    · refine recognizes_uleb32.map fun n more hn found hfound => ?_
      rw [hfirst]
      exact .extended (Opcode.code_of_ofCode? hfound) hn
    · have hcode := Opcode.code_of_ofCode? hfound
      have hencoded := Opcode.EncodedBy.byte (hcode ▸ first.toNat_lt : found.code < 256)
      rwa [hcode, UInt8.ofNat_toNat] at hencoded
  refine hfrom.bind fun found? more hfound => ?_
  cases found? with
  | none => exact recognizes_throw _
  | some found => exact recognizes_pure (by rw [List.append_nil]; exact hfound found rfl)

theorem recognizes_blockType : Recognizes blockType BlockType.EncodedBy := by
  -- unless the next byte stands for a block type of its own, there is an index
  have hindex : Recognizes (sleb33 >>= fun index =>
      if 0 ≤ index ∧ index < UInt32.size then
        pure (BlockType.typeIndex (UInt32.ofNat index.toNat))
      else throw .invalidBlockType) BlockType.EncodedBy := by
    refine recognizes_sleb33.bind fun index bytes hbytes =>
      Recognizes.ite (fun hrange => recognizes_pure ?_) fun _ => recognizes_throw _
    have hlt : index.toNat < UInt32.size := by omega
    have hsame : ((UInt32.ofNat index.toNat).toNat : Int) = index := by
      rw [UInt32.toNat_ofNat_of_lt' hlt]
      exact Int.toNat_of_nonneg hrange.1
    rw [List.append_nil]
    exact .typeIndex (hsame.symm ▸ hbytes)
  intro r r' type hrun
  rw [blockType, bind_run, get_run] at hrun
  cases hpeek : r.peek? with
  | none => exact hindex r r' type (by simpa [hpeek] using hrun)
  | some b =>
    obtain ⟨rest, hrest⟩ := List.head?_eq_some_iff.mp hpeek
    have hskip : skip 1 r = .ok () ⟨r.position + 1, rest⟩ := by
      obtain ⟨position, ahead⟩ := r
      subst hrest
      rfl
    by_cases hempty : b = emptyBlock
    · simp only [hpeek, hempty, if_true, bind_run, hskip] at hrun
      cases hrun
      subst hempty
      exact ⟨[emptyBlock], .empty, hrest, rfl⟩
    · have hne : ¬ some b = some emptyBlock := by simpa using hempty
      simp only [hpeek, if_neg hne, Option.bind_some] at hrun
      cases htype : ValueType.ofByte? b with
      | none =>
        rw [htype] at hrun
        exact hindex r r' type hrun
      | some found =>
        have hb : found.toByte = b := by simpa using List.find?_some htype
        simp only [htype, bind_run, hskip] at hrun
        cases hrun
        exact ⟨[b], hb ▸ .value found, hrest, rfl⟩

theorem recognizes_labels (count : Nat) : Recognizes (Action.times (discard uleb32) count)
    fun _ bytes => ∃ labels, labels.length = count ∧ EachBy IndexBy labels bytes := by
  induction count with
  | zero => exact recognizes_pure ⟨[], rfl, .nil⟩
  | succ count ih =>
    refine (recognizes_uleb32.map (F := fun _ bytes => ∃ label, IndexBy label bytes)
      fun n bytes hn => ⟨n, .mk hn⟩).bind fun _ bytes ⟨label, hlabel⟩ => ?_
    intro r r' _ hrun
    obtain ⟨more, ⟨labels, hlength, hlabels⟩, hover⟩ := ih r r' _ hrun
    exact ⟨more, ⟨label :: labels, by rw [List.length_cons, hlength], .cons hlabel hlabels⟩, hover⟩

theorem recognizes_immediates (opcode : Opcode) : Recognizes (immediates opcode)
    fun pair bytes => opcode.immediates.EncodedBy pair.1 pair.2 bytes := by
  unfold immediates
  generalize opcode.immediates = kind
  cases kind with
  | none => exact recognizes_pure .none
  | index => exact recognizes_uleb32.then fun _ _ hn => .index hn
  | i32 => exact recognizes_sleb32.then fun _ _ hn => .i32 hn
  | i64 => exact recognizes_sleb64.then fun _ _ hn => .i64 hn
  | f32 =>
    refine (recognizes_word 4).then fun bits bytes hbytes => ?_
    subst hbytes
    exact .f32 bits
  | f64 =>
    refine (recognizes_word 8).then fun bits bytes hbytes => ?_
    subst hbytes
    exact .f64 bits
  | block => exact recognizes_blockType.then fun _ _ htype => .block 0 htype
  | memArg =>
    exact recognizes_uleb32.bind fun _ _ halign =>
      recognizes_uleb32.then fun _ _ hoffset => .memArg halign hoffset
  | callIndirect =>
    exact recognizes_uleb32.bind fun _ _ htype =>
      recognizes_uleb32.then fun _ _ htable => .callIndirect htype htable
  | brTable =>
    refine recognizes_uleb32.bind fun count number hnumber =>
      (recognizes_labels count.toNat).bind fun _ bytes ⟨labels, hlength, hlabels⟩ =>
        recognizes_uleb32.then fun default last hdefault => ?_
    rw [← List.append_assoc]
    exact .brTable hlength (.mk (hlength ▸ hnumber) hlabels) hdefault
  | reserved =>
    refine recognizes_byte.bind fun b bytes hbytes =>
      Recognizes.ite (fun _ => ?_) fun hzero => ?_
    · exact recognizes_throw _
    · subst hbytes
      rw [not_not] at hzero
      subst hzero
      exact recognizes_pure .reserved

theorem recognizes_instruction : Recognizes instruction Instruction.EncodedBy := by
  refine recognizes_opcode.bind fun opcode code hcode => ?_
  exact (recognizes_immediates opcode).then fun _ _ himmediates => .mk hcode himmediates

end Parser

end BoundedWasm
