import BoundedWasm.Proofs.Encoding.Recognition

/-!
# BoundedWasm.Proofs.Reader.Operations — what can be asked of a reader, and what it answers

Everything that can be asked of a reader is one `Reader.Operation`, and what it answers is told by
the bytes that it steps over (`Operation.Takes`).  An operation that succeeds moves the reader
behind exactly these bytes, and one that fails does not move it (`Operation.Exact`).
-/

namespace BoundedWasm

open BoundedWasm.Action

/-- Which byte of a number comes first. -/
inductive ByteOrder where
  | little
  | big
  deriving DecidableEq

/-- The number that bytes spell in an order. -/
def ByteOrder.number : ByteOrder → List UInt8 → Nat
  | little, bytes => Bytes.ofLittleEndian bytes
  | big, bytes => Bytes.ofBigEndian bytes

namespace Reader

/-- What can be asked of a reader, with the type of the answer. -/
inductive Operation : Type → Type
  | peekByte : Operation (Option UInt8)
  | peek (order : ByteOrder) (width : Nat) : Operation (Option Nat)
  | byte : Operation UInt8
  | fixed (order : ByteOrder) (width : Nat) : Operation Nat
  | word32 : Operation (BitVec 32)
  | word64 : Operation (BitVec 64)
  | uleb32 : Operation UInt32
  | uleb64 : Operation UInt64
  | sleb32 : Operation (BitVec 32)
  | sleb33 : Operation Int
  | sleb64 : Operation (BitVec 64)
  | bytes (count : Nat) : Operation (List UInt8)
  | text (length : Nat) : Operation String
  | name (maxLength : Nat) : Operation String
  | skip (count : Nat) : Operation Unit
  | sub (count : Nat) : Operation Reader

namespace Operation

/-- What a look at the reader shows, which does not move it. -/
def looking {α : Type} (look : Reader → α) : Parser α := fun r => .ok (look r) r

def run {α : Type} : Operation α → Parser α
  | peekByte => looking peek?
  | peek .little width => looking fun r => r.peekLittle? width
  | peek .big width => looking fun r => r.peekBig? width
  | byte => Parser.byte
  | fixed .little width => Parser.little width
  | fixed .big width => Parser.big width
  | word32 => Parser.word32
  | word64 => Parser.word64
  | uleb32 => Parser.uleb32
  | uleb64 => Parser.uleb64
  | sleb32 => Parser.sleb32
  | sleb33 => Parser.sleb33
  | sleb64 => Parser.sleb64
  | bytes count => Parser.bytes count
  | text length => Parser.text length
  | name maxLength => Parser.name maxLength
  | skip count => Parser.skip count
  | sub count => Parser.sub count

/-- Which bytes an operation steps over for an answer, with others behind them. -/
def Takes {α : Type} : Operation α → (taken behind : List UInt8) → α → Prop
  | peekByte, taken, behind, found => taken = [] ∧ found = behind.head?
  | peek order width, taken, behind, found => taken = [] ∧
    found = if width ≤ behind.length then some (order.number (behind.take width)) else none
  | byte, taken, _, b => taken = [b]
  | fixed order width, taken, _, n => taken.length = width ∧ n = order.number taken
  | word32, taken, _, bits => taken.length = 4 ∧ bits.toNat = Bytes.ofLittleEndian taken
  | word64, taken, _, bits => taken.length = 8 ∧ bits.toNat = Bytes.ofLittleEndian taken
  | uleb32, taken, _, n => Leb128.Unsigned 32 n.toNat taken
  | uleb64, taken, _, n => Leb128.Unsigned 64 n.toNat taken
  | sleb32, taken, _, n => Leb128.Signed 32 n.toInt taken
  | sleb33, taken, _, n => Leb128.Signed 33 n taken
  | sleb64, taken, _, n => Leb128.Signed 64 n.toInt taken
  | bytes count, taken, _, found => taken.length = count ∧ found = taken
  | text length, taken, _, found => taken.length = length ∧ taken = found.toUTF8.data.toList
  | name maxLength, taken, _, found => NameBy found taken ∧ found.utf8ByteSize ≤ maxLength
  | skip count, taken, _, _ => taken.length = count
  | sub count, taken, _, inner => taken.length = count ∧ inner = ofBytes taken

/-- How many bytes an operation needs, where that is known beforehand. -/
def width? {α : Type} : Operation α → Option Nat
  | byte => some 1
  | fixed _ width => some width
  | word32 => some 4
  | word64 => some 8
  | bytes count | text count | skip count | sub count => some count
  | _ => none

/-- An operation succeeds exactly where bytes lie ahead that it takes, and then the reader stands
behind them; otherwise the reader stays where it is.  An operation that needs a number of bytes
misses some exactly when fewer are left. -/
structure Exact {α : Type} (op : Operation α) : Prop where
  answers : ∀ (r r' : Reader) (a : α), op.run r = .ok a r' ↔
    ∃ taken, r.StepsOver taken r' ∧ op.Takes taken r'.rest a
  stays : ∀ (r r' : Reader) (fault : Fault), op.run r = .error fault r' → r' = r
  endsEarly : ∀ (width : Nat), op.width? = some width → ∀ r : Reader,
    op.run r = .error .unexpectedEnd r ↔ r.remaining < width

end Operation

end Reader

/-! ### Failing without a move -/

namespace Parser

variable {α β : Type} {p : Parser α}

/-- A parser that fails leaves the reader where it was. -/
def Stays (p : Parser α) : Prop := ∀ (r r' : Reader) (fault : Fault), p r = .error fault r' → r' = r

theorem Stays.map (h : Stays p) (f : α → β) : Stays (f <$> p) := fun r r' fault hrun =>
  h r r' fault (map_error_iff.mp hrun)

theorem stays_atomic (p : Parser α) : Stays p.atomic := by
  intro r r' fault hrun
  unfold Action.atomic at hrun
  split at hrun <;> cases hrun
  rfl

theorem stays_take (look : Reader → Option α) (width : Nat) : Stays (take look width) := by
  intro r r' fault hrun
  unfold take at hrun
  split at hrun <;> cases hrun
  rfl

theorem stays_leb128 (form : Leb128.Form) (bits : Nat) : Stays (leb128 form bits) :=
  fun _ _ _ hrun => (leb128_error hrun).1

/-! ### So many bytes -/

/-- Reads the next bytes, and answers what `f` makes of them. -/
def taking (width : Nat) (f : List UInt8 → α) : Parser α :=
  take (fun r => (r.peekBytes? width).map f) width

theorem taking_run (width : Nat) (f : List UInt8 → α) (r : Reader) :
    taking width f r = if width ≤ r.remaining then .ok (f (r.rest.take width)) (r.advance width)
      else .error .unexpectedEnd r := by
  unfold taking take Reader.peekBytes?
  by_cases hle : width ≤ r.remaining <;> simp [hle]

theorem map_taking (width : Nat) (f : List UInt8 → α) (g : α → β) :
    g <$> taking width f = taking width fun bytes => g (f bytes) := by
  funext r
  rw [map_run, taking_run, taking_run]
  by_cases hle : width ≤ r.remaining <;> simp [hle]

theorem bytes_eq (count : Nat) : bytes count = taking count id := by
  simp [bytes, taking]

theorem byte_eq : byte = taking 1 fun bytes => bytes.headD 0 := by
  funext ⟨position, rest⟩
  cases rest <;> simp [byte, taking, take, Reader.peek?, Reader.peekBytes?, Reader.remaining]

theorem skip_eq (count : Nat) : skip count = taking count fun _ => () := by
  have hmap : skip count = (fun _ => ()) <$> bytes count := by
    funext r
    rw [map_run, skip, bind_run]
    cases bytes count r <;> rfl
  rw [hmap, bytes_eq, map_taking]

theorem taking_endsEarly (width : Nat) (f : List UInt8 → α) (r : Reader) :
    taking width f r = .error .unexpectedEnd r ↔ r.remaining < width := by
  rw [taking_run]
  by_cases hle : width ≤ r.remaining
  · simp [hle]
  · simp [hle, Nat.lt_of_not_le hle]

/-! ### Text -/

theorem text_run (length : Nat) (r : Reader) :
    text length r = match r.peekBytes? length with
      | none => .error .unexpectedEnd r
      | some found => match Bytes.text? found with
        | none => .error .invalidUtf8 r
        | some s => .ok s (r.advance length) := by
  unfold text Action.atomic
  rw [bind_run, bytes, take]
  cases r.peekBytes? length with
  | none => rfl
  | some found =>
    simp only
    cases Bytes.text? found <;> rfl

theorem toUTF8_of_text? {bytes : List UInt8} {s : String} (h : Bytes.text? bytes = some s) :
    s.toUTF8.data.toList = bytes := by
  unfold Bytes.text? String.fromUTF8? at h
  split at h
  · cases h
    show bytes.toByteArray.data.toList = bytes
    rw [List.data_toByteArray]
  · cases h

theorem Recognizes.atomic {E : α → List UInt8 → Prop} (h : Recognizes p E) :
    Recognizes p.atomic E := by
  intro r r' a hrun
  unfold Action.atomic at hrun
  split at hrun
  · cases hrun
    exact h r _ a ‹_›
  · cases hrun

theorem recognizes_text (length : Nat) : Recognizes (text length) fun s bytes =>
    bytes.length = length ∧ bytes = s.toUTF8.data.toList := by
  intro r r' s hrun
  rw [text_run, Reader.peekBytes?] at hrun
  by_cases hle : length ≤ r.remaining
  · simp only [if_pos hle] at hrun
    cases htext : Bytes.text? (r.rest.take length) with
    | none =>
      rw [htext] at hrun
      cases hrun
    | some found =>
      rw [htext] at hrun
      cases hrun
      have hlength : (r.rest.take length).length = length := by
        rw [List.length_take]
        exact Nat.min_eq_left hle
      refine ⟨_, ⟨hlength, (toUTF8_of_text? htext).symm⟩, (List.take_append_drop _ _).symm, ?_⟩
      rw [hlength]
      rfl
  · simp only [if_neg hle] at hrun
    cases hrun

theorem text_error {length : Nat} {r r' : Reader} {fault : Fault}
    (h : text length r = .error fault r') : fault = .unexpectedEnd ∨ fault = .invalidUtf8 := by
  rw [text_run] at h
  split at h
  · cases h
    exact .inl rfl
  · split at h <;> cases h
    exact .inr rfl

theorem text_endsEarly (length : Nat) (r : Reader) :
    text length r = .error .unexpectedEnd r ↔ r.remaining < length := by
  rw [text_run, Reader.peekBytes?]
  by_cases hle : length ≤ r.remaining
  · simp only [if_pos hle]
    constructor
    · intro h
      split at h <;> cases h
    · intro hlt
      omega
  · simp [hle, Nat.lt_of_not_le hle]

/-- A name, before the reader is moved back where it fails. -/
theorem name_eq (maxLength : Nat) : name maxLength = (uleb32 >>= fun length =>
    if maxLength < length.toNat then throw .nameTooLong else text length.toNat).atomic := rfl

theorem recognizes_name (maxLength : Nat) : Recognizes (name maxLength) fun s bytes =>
    NameBy s bytes ∧ s.utf8ByteSize ≤ maxLength := by
  rw [name_eq]
  refine Recognizes.atomic (recognizes_uleb32.bind fun length size hsize => Recognizes.ite
    (fun _ => recognizes_throw _) fun hle => ?_)
  intro r r' s hrun
  obtain ⟨bytes, ⟨hlength, rfl⟩, hover⟩ := recognizes_text length.toNat r r' s hrun
  have hsame : s.utf8ByteSize = length.toNat := hlength
  exact ⟨_, ⟨.mk (hsame ▸ hsize), by omega⟩, hover⟩

/-- A name is too long by the length in front of it, however many bytes follow. -/
theorem name_tooLong_iff {maxLength : Nat} {r : Reader} :
    name maxLength r = .error .nameTooLong r ↔ ∃ length size rest,
      r.rest = size ++ rest ∧ Leb128.Unsigned 32 length size ∧ maxLength < length := by
  constructor
  · intro h
    rw [name_eq, Action.atomic, bind_run] at h
    cases hsize : uleb32 r with
    | error fault r' =>
      rw [hsize] at h
      cases h
      obtain ⟨-, ⟨hfault, -⟩ | hfault | hfault⟩ := leb128_error (map_error_iff.mp hsize) <;>
        exact absurd hfault (by decide)
    | ok length r' =>
      obtain ⟨size, hencoded, hover⟩ := recognizes_uleb32 r r' length hsize
      refine ⟨length.toNat, size, r'.rest, hover.rest_eq, hencoded, ?_⟩
      by_contra hle
      simp only [hsize, if_neg hle] at h
      cases htext : text length.toNat r' with
      | ok s r'' => simp [htext] at h
      | error fault r'' =>
        simp only [htext] at h
        cases h
        obtain hfault | hfault := text_error htext <;> exact absurd hfault (by decide)
  · rintro ⟨length, size, rest, hrest, hsize, hlt⟩
    obtain ⟨n, rfl, hreads⟩ := exists_uleb32 hsize
    obtain ⟨position, ahead⟩ := r
    obtain rfl : ahead = size ++ rest := hrest
    rw [name_eq, Action.atomic, bind_run, hreads position rest]
    simp only [if_pos hlt]
    rfl

end Parser

namespace Reader.Operation

variable {α : Type} {op : Operation α}

/-- What is read from bytes and recognized in them is taken. -/
theorem answers_of {E : α → List UInt8 → Prop}
    (hreads : ∀ a bytes, E a bytes → Reads op.run bytes a) (hrecognizes : Recognizes op.run E)
    (htakes : ∀ taken behind a, op.Takes taken behind a ↔ E a taken) (r r' : Reader) (a : α) :
    op.run r = .ok a r' ↔ ∃ taken, r.StepsOver taken r' ∧ op.Takes taken r'.rest a := by
  constructor
  · intro hrun
    obtain ⟨taken, ha, hover⟩ := hrecognizes r r' a hrun
    exact ⟨taken, hover, (htakes _ _ _).mpr ha⟩
  · rintro ⟨taken, hover, ha⟩
    obtain ⟨hr, hr'⟩ := hover.eq
    rw [hr, hr']
    exact hreads a taken ((htakes _ _ _).mp ha) _ _

theorem exact_looking {look : Reader → α} (hrun : op.run = looking look)
    (htakes : ∀ (r : Reader) taken a, op.Takes taken r.rest a ↔ taken = [] ∧ a = look r)
    (hwidth : op.width? = none) : op.Exact := by
  refine ⟨fun r r' a => ?_, fun r r' fault h => ?_, fun width h => ?_⟩
  · rw [hrun]
    constructor
    · rintro ⟨⟩
      exact ⟨[], r.stepsOver_refl, (htakes r _ _).mpr ⟨rfl, rfl⟩⟩
    · rintro ⟨taken, hover, htaken⟩
      obtain ⟨rfl, rfl⟩ := (htakes r' _ _).mp htaken
      obtain rfl : r = r' := hover.eq.1.trans hover.eq.2.symm
      rfl
  · rw [hrun] at h
    cases h
  · cases hwidth.symm.trans h

theorem exact_taking {width : Nat} {f : List UInt8 → α} (hrun : op.run = Parser.taking width f)
    (htakes : ∀ taken behind a, op.Takes taken behind a ↔ taken.length = width ∧ a = f taken)
    (hwidth : op.width? = some width) : op.Exact where
  answers := by
    refine answers_of (fun a bytes => ?_) ?_ htakes
    · rintro ⟨hlength, rfl⟩
      rw [hrun]
      exact Parser.reads_take (fun _ => rfl) hlength
    · rw [hrun]
      exact Parser.recognizes_take fun _ => rfl
  stays := by
    rw [hrun]
    exact Parser.stays_take _ _
  endsEarly := by
    rintro width' hwidth' r
    cases hwidth.symm.trans hwidth'
    rw [hrun]
    exact Parser.taking_endsEarly width f r

/-- An operation that finds out how many bytes it needs while it reads. -/
theorem exact_of {E : α → List UInt8 → Prop}
    (hreads : ∀ a bytes, E a bytes → Reads op.run bytes a) (hrecognizes : Recognizes op.run E)
    (htakes : ∀ taken behind a, op.Takes taken behind a ↔ E a taken)
    (hstays : Parser.Stays op.run) (hwidth : op.width? = none) : op.Exact where
  answers := answers_of hreads hrecognizes htakes
  stays := hstays
  endsEarly width h := by
    cases hwidth.symm.trans h

theorem word_iff (width : Nat) {taken : List UInt8} {bits : BitVec (8 * width)} :
    taken.length = width ∧ bits.toNat = Bytes.ofLittleEndian taken ↔
      taken.length = width ∧ bits = BitVec.ofNat (8 * width) (Bytes.ofLittleEndian taken) := by
  constructor
  · rintro ⟨hlength, hbits⟩
    exact ⟨hlength, by rw [← hbits, BitVec.ofNat_toNat, BitVec.setWidth_eq]⟩
  · rintro ⟨rfl, rfl⟩
    have hlt := Bytes.ofLittleEndian_lt taken
    rw [Nat.one_shiftLeft] at hlt
    exact ⟨rfl, by rw [BitVec.toNat_ofNat, Nat.mod_eq_of_lt hlt]⟩

/-- Every operation is exact. -/
theorem exact (op : Operation α) : op.Exact := by
  cases op with
  | peekByte => exact exact_looking rfl (fun _ _ _ => Iff.rfl) rfl
  | peek order width =>
    have hlook : ∀ (r : Reader) (taken : List UInt8) (a : Option Nat),
        (peek order width).Takes taken r.rest a ↔
          taken = [] ∧ a = (r.peekBytes? width).map order.number := by
      intro r taken a
      by_cases hle : width ≤ r.rest.length <;> simp [Takes, peekBytes?, remaining, hle]
    cases order with
    | little => exact exact_looking rfl hlook rfl
    | big => exact exact_looking rfl hlook rfl
  | byte =>
    refine exact_taking Parser.byte_eq (fun taken _ b => ?_) rfl
    rw [List.length_eq_one_iff]
    constructor
    · rintro rfl
      exact ⟨⟨b, rfl⟩, rfl⟩
    · rintro ⟨⟨_, rfl⟩, rfl⟩
      rfl
  | fixed order width =>
    cases order with
    | little => exact exact_taking rfl (fun _ _ _ => Iff.rfl) rfl
    | big => exact exact_taking rfl (fun _ _ _ => Iff.rfl) rfl
  | word32 =>
    exact exact_taking (Parser.map_taking 4 _ _) (fun _ _ _ => word_iff 4) rfl
  | word64 =>
    exact exact_taking (Parser.map_taking 8 _ _) (fun _ _ _ => word_iff 8) rfl
  | uleb32 =>
    exact exact_of (fun _ _ h => Parser.reads_uleb32 h) Parser.recognizes_uleb32
      (fun _ _ _ => Iff.rfl) ((Parser.stays_leb128 _ 32).map _) rfl
  | uleb64 =>
    exact exact_of (fun _ _ h => Parser.reads_uleb64 h) Parser.recognizes_uleb64
      (fun _ _ _ => Iff.rfl) ((Parser.stays_leb128 _ 64).map _) rfl
  | sleb32 =>
    exact exact_of (fun _ _ h => Parser.reads_sleb32 h) Parser.recognizes_sleb32
      (fun _ _ _ => Iff.rfl) ((Parser.stays_leb128 _ 32).map _) rfl
  | sleb33 =>
    exact exact_of (fun _ _ h => Parser.reads_sleb33 h) Parser.recognizes_sleb33
      (fun _ _ _ => Iff.rfl) ((Parser.stays_leb128 _ 33).map _) rfl
  | sleb64 =>
    exact exact_of (fun _ _ h => Parser.reads_sleb64 h) Parser.recognizes_sleb64
      (fun _ _ _ => Iff.rfl) (Parser.stays_leb128 _ 64) rfl
  | bytes count => exact exact_taking (Parser.bytes_eq count) (fun _ _ _ => Iff.rfl) rfl
  | text length =>
    refine ⟨answers_of (fun s bytes => ?_) (Parser.recognizes_text length) fun _ _ _ => Iff.rfl,
      Parser.stays_atomic _, fun width h => ?_⟩
    · rintro ⟨hlength, rfl⟩
      obtain rfl : s.utf8ByteSize = length := hlength
      exact Parser.reads_text s
    · cases h
      exact Parser.text_endsEarly length
  | name maxLength =>
    exact exact_of (fun _ _ h => Parser.reads_name h.1 h.2) (Parser.recognizes_name maxLength)
      (fun _ _ _ => Iff.rfl) (Parser.stays_atomic _) rfl
  | skip count =>
    exact exact_taking (Parser.skip_eq count) (fun _ _ _ => (and_iff_left rfl).symm) rfl
  | sub count =>
    have hrun : Parser.sub count = Parser.taking count ofBytes := by
      rw [Parser.sub, Parser.bytes_eq, Parser.map_taking]
      rfl
    exact exact_taking hrun (fun _ _ _ => Iff.rfl) rfl

end Reader.Operation

end BoundedWasm
