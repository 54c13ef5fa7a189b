import BoundedWasm.Bytes.Lemmas
import BoundedWasm.Proofs.Machine.Creation

/-!
# BoundedWasm.Proofs.Machine.MemoryAccess — memory is an array of bytes

An access that fits into the memory reads and writes as if the memory were a list of bytes: a later
load has the stored bytes where the two accesses overlap, and the old bytes elsewhere
(`LinearMemory.Remembers`).  An instruction that stores the low bytes of a value and one that loads
as many from the same place give these bytes back, extended as the second says
(`Machine.RoundTrips`).
-/

namespace BoundedWasm

open BoundedWasm.Action Limits

/-! ### Bytes -/

/-- What a place holds once bytes have been put over old ones from `start` on. -/
def overlaid (start : Nat) (bytes old : List UInt8) (place : Nat) : Option UInt8 :=
  if start ≤ place ∧ place < start + bytes.length then bytes[place - start]? else old[place]?

namespace LinearMemory

/-- The access lies in the memory. -/
def Fits (memory : LinearMemory) (address offset : UInt32) (width : Nat) : Prop :=
  address.toNat + offset.toNat + width ≤ memory.size

instance (memory : LinearMemory) (address offset : UInt32) (width : Nat) :
    Decidable (memory.Fits address offset width) := inferInstanceAs (Decidable (_ ≤ _))

/-- What storing bytes does to a memory, and what is loaded from it afterwards. -/
structure Remembers (memory : LinearMemory) (address offset : UInt32) (bytes : List UInt8) :
    Prop where
  succeeds : (∃ memory', memory.store address offset bytes = .ok memory') ↔
    memory.Fits address offset bytes.length
  fails : ¬ memory.Fits address offset bytes.length →
    memory.store address offset bytes = .error .accessOutOfBounds
  changes : ∀ memory', memory.store address offset bytes = .ok memory' →
    memory.Within memory' ∧ ∀ place, memory'.toList[place]?
      = overlaid (address.toNat + offset.toNat) bytes memory.toList place
  loads : ∀ memory', memory.store address offset bytes = .ok memory' →
    ∀ (address' offset' : UInt32) (width : Nat), width < 1 <<< 63 →
      if memory.Fits address' offset' width then
        ∃ found, memory'.load width address' offset' = .ok found ∧ found.length = width ∧
          ∀ k < width, found[k]? = overlaid (address.toNat + offset.toNat) bytes memory.toList
            (address'.toNat + offset'.toNat + k)
      else memory'.load width address' offset' = .error .accessOutOfBounds

variable {memory memory' : LinearMemory}

theorem getElem?_toList (memory : LinearMemory) (place : Nat) :
    memory.toList[place]? = if place < memory.size then memory.buffer[place]? else none := by
  rw [toList_eq_take, List.getElem?_take, Array.getElem?_toList]

theorem fits_write {address offset : UInt32} {start width : Nat} {bytes : List UInt8} :
    (memory.write start bytes).Fits address offset width ↔ memory.Fits address offset width :=
  Iff.rfl

theorem getElem?_toList_write {start : Nat} {bytes : List UInt8}
    (h : start + bytes.length ≤ memory.size) (place : Nat) :
    (memory.write start bytes).toList[place]? = overlaid start bytes memory.toList place := by
  have hsize := memory.size_le
  rw [getElem?_toList, overlaid, getElem?_toList]
  show (if place < memory.size then (writeBytes memory.buffer start bytes)[place]? else none) = _
  rw [getElem?_writeBytes (by omega)]
  -- in the range, or else before it or behind it, where nothing is written
  by_cases hover : start ≤ place ∧ place < start + bytes.length
  · rw [if_pos (by omega), if_pos hover.1, if_pos hover, List.getElem?_eq_getElem (by omega)]
    rfl
  · rw [if_neg hover]
    by_cases hstart : start ≤ place
    · rw [if_pos hstart, List.getElem?_eq_none (by omega), Option.none_or]
    · rw [if_neg hstart, Option.none_or]

theorem store_of_fits {address offset : UInt32} {bytes : List UInt8}
    (hlength : bytes.length < 1 <<< 63) (h : memory.Fits address offset bytes.length) :
    memory.store address offset bytes
      = .ok (memory.write (address.toNat + offset.toNat) bytes) :=
  (store_eq memory address offset hlength).trans (if_pos h)

theorem store_of_not_fits {address offset : UInt32} {bytes : List UInt8}
    (hlength : bytes.length < 1 <<< 63) (h : ¬ memory.Fits address offset bytes.length) :
    memory.store address offset bytes = .error .accessOutOfBounds :=
  (store_eq memory address offset hlength).trans (if_neg h)

/-- A load gives a stretch of the contents. -/
theorem load_of_fits {address offset : UInt32} {width : Nat} (hwidth : width < 1 <<< 63)
    (h : memory.Fits address offset width) : memory.load width address offset
      = .ok ((memory.toList.drop (address.toNat + offset.toNat)).take width) := by
  have hstop : address.toNat + offset.toNat + width ≤ memory.size := h
  rw [load, effectiveRange_eq memory.size address offset hwidth, if_pos hstop, toList_eq_take,
    List.drop_take, List.take_take, Nat.min_eq_left (by omega)]
  show Except.ok (memory.buffer.extract _ _).toList = _
  rw [Array.toList_extract, List.extract_eq_take_drop, Nat.add_sub_cancel_left]

theorem load_of_not_fits {address offset : UInt32} {width : Nat} (hwidth : width < 1 <<< 63)
    (h : ¬ memory.Fits address offset width) :
    memory.load width address offset = .error .accessOutOfBounds := by
  rw [load, effectiveRange_eq memory.size address offset hwidth]
  exact congrArg (· >>= _) (if_neg h)

theorem remembers (memory : LinearMemory) (address offset : UInt32) {bytes : List UInt8}
    (hlength : bytes.length < 1 <<< 63) : memory.Remembers address offset bytes := by
  by_cases hfits : memory.Fits address offset bytes.length
  · have hstore := store_of_fits hlength hfits
    have hwritten := fun place => getElem?_toList_write hfits place
    refine ⟨by simp [hstore, hfits], fun hnot => absurd hfits hnot, ?_, ?_⟩
    · intro memory' h
      cases hstore.symm.trans h
      exact ⟨within_write hfits, hwritten⟩
    · intro memory' h address' offset' width hwidth
      cases hstore.symm.trans h
      by_cases hfits' : memory.Fits address' offset' width
      · rw [if_pos hfits']
        refine ⟨_, load_of_fits hwidth (fits_write.mpr hfits'), ?_, fun k hk => ?_⟩
        · have hstop : address'.toNat + offset'.toNat + width ≤ memory.size := hfits'
          rw [List.length_take, List.length_drop, length_toList]
          show min width (memory.size - (address'.toNat + offset'.toNat)) = width
          omega
        · rw [List.getElem?_take, if_pos hk, List.getElem?_drop, hwritten]
      · rw [if_neg hfits']
        exact load_of_not_fits hwidth fun h => hfits' (fits_write.mp h)
  · have hstore := store_of_not_fits hlength hfits
    refine ⟨by simp [hstore, hfits], fun _ => hstore, ?_, ?_⟩
    all_goals
      intro memory' h
      cases hstore.symm.trans h

/-- What was stored at a place is loaded from it, however the place is given. -/
theorem load_write_same {address offset : UInt32} {start : Nat} {bytes : List UInt8}
    (hlength : bytes.length < 1 <<< 63) (hfits : start + bytes.length ≤ memory.size)
    (hstart : address.toNat + offset.toNat = start) :
    (memory.write start bytes).load bytes.length address offset = .ok bytes := by
  subst hstart
  refine (load_of_fits hlength (fits_write.mpr hfits)).trans (congrArg Except.ok ?_)
  refine List.ext_getElem? fun k => ?_
  rw [List.getElem?_take, List.getElem?_drop, getElem?_toList_write hfits, overlaid,
    Nat.add_sub_cancel_left]
  by_cases hk : k < bytes.length
  · rw [if_pos hk, if_pos (by omega)]
  · rw [if_neg hk, List.getElem?_eq_none (by omega)]

end LinearMemory

/-! ### Instructions -/

/-- How many bytes a narrow access moves. -/
def Narrow32.bytes : Narrow32 → Nat
  | .bits8 => 1
  | .bits16 => 2

/-- A store and a load of one width: what the store takes for a word, and what the load makes of the
bytes of that word. -/
inductive Opcode.Pairs : Opcode → Opcode → Nat → (BitVec 32 → Value) → (BitVec 32 → Value) → Prop
  | i32 : Pairs (.store .i32) (.load .i32) 4 .i32 .i32
  | f32 : Pairs (.store .f32) (.load .f32) 4 .f32 .f32
  | signed (part : Narrow32) : Pairs (.store32 part) (.load32 part .signed) part.bytes .i32
    fun word => .i32 ((word.setWidth (8 * part.bytes)).signExtend 32)
  | unsigned (part : Narrow32) : Pairs (.store32 part) (.load32 part .unsigned) part.bytes .i32
    fun word => .i32 ((word.setWidth (8 * part.bytes)).setWidth 32)

namespace Machine

/-- The running activation has the operands on top, over others that may be its own or not. -/
structure Holds (s : Machine) (below top : List Value) : Prop where
  stack : s.stack.toList = below ++ top
  base : s.frame.stackBase ≤ below.length

/-- The instruction is carried out, and its body goes on. -/
def Executes (m : Module) (enter : UInt32 → Exec Unit) (i : Instruction) (s s' : Machine) : Prop :=
  ∀ rest, runBody m enter (i :: rest) s = runBody m enter rest s'

/-- The instruction ends its body in a fault. -/
def Faults (m : Module) (enter : UInt32 → Exec Unit) (i : Instruction) (s : Machine) (fault : Fault)
    (s' : Machine) : Prop :=
  ∀ rest, runBody m enter (i :: rest) s = .error fault s'

/-- What a store does to a machine, and what the load makes of it, on any machine with that memory
and at any address that comes to the same place with the offset of the load. -/
structure RoundTrips (m : Module) (enter : UInt32 → Exec Unit) (store load : Instruction)
    (width : Nat) (value seen : BitVec 32 → Value) (offset offset' : UInt32) : Prop where
  stores : ∀ (s : Machine) (below : List Value) (address word : BitVec 32),
    s.Holds below [.i32 address, value word] → s.memory.Fits (.ofBitVec address) offset width →
    ∃ stored, Executes m enter store s stored ∧ stored.stack.toList = below ∧
      s.memory.store (.ofBitVec address) offset (Bytes.toLittleEndian width word.toNat)
        = .ok stored.memory ∧
      stored = { s with stack := stored.stack, memory := stored.memory } ∧
      ∀ (t : Machine) (below' : List Value) (address' : BitVec 32), t.memory = stored.memory →
        t.Holds below' [.i32 address'] →
        address'.toNat + offset'.toNat = address.toNat + offset.toNat →
        ∃ loaded, Executes m enter load t loaded ∧
          loaded.stack.toList = below' ++ [seen word] ∧
          loaded = { t with stack := loaded.stack }
  refuses : ∀ (s : Machine) (below : List Value) (address word : BitVec 32),
    s.Holds below [.i32 address, value word] → ¬ s.memory.Fits (.ofBitVec address) offset width →
    ∃ refused, Faults m enter store s .accessOutOfBounds refused ∧ refused.memory = s.memory

variable {m : Module} {enter : UInt32 → Exec Unit} {s : Machine} {below top : List Value}

theorem Holds.popAs {α : Type} {read : Value → Except Fault α} {value : Value} {a : α}
    (top : List Value) (h : s.Holds below (top ++ [value])) (hread : read value = .ok a) :
    popAs read s = .ok a { s with stack := s.stack.pop } ∧
      { s with stack := s.stack.pop }.Holds below top := by
  have hlength : s.stack.length = below.length + (top.length + 1) := by
    rw [← FixedVec.length_toList, h.stack]
    simp
  have htop : Machine.top s = .ok value s := by
    have hbase := h.base
    have hlast : s.stack.last? = some value := by
      rw [FixedVec.last?_eq, h.stack, ← List.append_assoc, List.getLast?_concat]
    unfold Machine.top
    rw [if_neg (by omega), hlast]
  refine ⟨?_, ?_, h.base⟩
  · unfold Machine.popAs
    simp only [bind_run, htop, hread, ofExcept_ok_run]
    rfl
  · show s.stack.pop.toList = below ++ top
    rw [FixedVec.toList_pop, h.stack, ← List.append_assoc, List.dropLast_concat]

theorem Holds.popI32 {address : BitVec 32} (h : s.Holds below [.i32 address]) :
    popI32 s = .ok address { s with stack := s.stack.pop } ∧
      { s with stack := s.stack.pop }.Holds below [] :=
  Holds.popAs [] h rfl

/-- Where a value was popped, there is room for another. -/
theorem Holds.room {value : Value} (h : s.Holds below (value :: top)) :
    below.length < maxOperandStack := by
  have hle := s.stack.length_le
  rw [← FixedVec.length_toList, h.stack, List.length_append, List.length_cons] at hle
  omega

theorem Holds.push (h : s.Holds below top) (hlt : s.stack.length < maxOperandStack)
    (value : Value) : push value s = .ok () { s with stack := s.stack.put value } ∧
      { s with stack := s.stack.put value }.Holds below (top ++ [value]) := by
  refine ⟨if_pos hlt, ?_, h.base⟩
  rw [FixedVec.toList_put_of_lt hlt, h.stack, List.append_assoc]

section Number

variable {i : Instruction} {offset : UInt32} {address : BitVec 32} {width n : Nat}
  (hoffset : i.memoryOffset = .ok offset)

include hoffset

theorem loadNumber_run (h : s.Holds below [.i32 address]) {bytes : List UInt8}
    (hload : s.memory.load width (.ofBitVec address) offset = .ok bytes) :
    loadNumber i width s
      = .ok (Bytes.ofLittleEndian bytes) { s with stack := s.stack.pop } ∧
      { s with stack := s.stack.pop }.Holds below [] := by
  obtain ⟨hpop, hrest⟩ := h.popI32
  refine ⟨?_, hrest⟩
  unfold loadNumber
  simp only [bind_run, hoffset, ofExcept_ok_run, hpop, get_run, hload]
  rfl

theorem storeNumber_run (h : s.Holds below [.i32 address])
    (hwidth : (Bytes.toLittleEndian width n).length < 1 <<< 63) :
    storeNumber i width n s =
      if s.memory.Fits (.ofBitVec address) offset width then
        .ok () { s with
          stack := s.stack.pop
          memory := s.memory.write (address.toNat + offset.toNat) (Bytes.toLittleEndian width n) }
      else .error .accessOutOfBounds { s with stack := s.stack.pop } := by
  obtain ⟨hpop, -⟩ := h.popI32
  unfold storeNumber
  simp only [bind_run, hoffset, ofExcept_ok_run, hpop, get_run]
  by_cases hfits : s.memory.Fits (.ofBitVec address) offset width
  · rw [if_pos hfits, LinearMemory.store_of_fits hwidth (by simpa using hfits)]
    rfl
  · rw [if_neg hfits, LinearMemory.store_of_not_fits hwidth (by simpa using hfits)]
    rfl

end Number

section Work

variable {i : Instruction} {work : Instruction → Exec Unit} {s' : Machine}
  (hwork : work? m enter i.opcode = some work)

include hwork

theorem ne_ret_of_work : i.opcode ≠ .ret := fun h => by
  rw [h] at hwork
  cases hwork

theorem executes_of_work (hrun : work i s = .ok () s') : Executes m enter i s s' := by
  intro rest
  rw [runBody_work (ne_ret_of_work hwork), hwork]
  simp only [hrun]

theorem faults_of_work {fault : Fault} (hrun : work i s = .error fault s') :
    Faults m enter i s fault s' := by
  intro rest
  rw [runBody_work (ne_ret_of_work hwork), hwork]
  simp only [hrun]

end Work

end Machine

namespace Opcode.Pairs

open Machine

variable {store load : Opcode} {width : Nat} {value seen : BitVec 32 → Value}
  (h : Pairs store load width value seen) (m : Module) (enter : UInt32 → Exec Unit)

include h

theorem width_lt : width < 1 <<< 63 := by
  cases h with
  | i32 => decide
  | f32 => decide
  | signed part => cases part <;> decide
  | unsigned part => cases part <;> decide

/-- The store takes a word off the stack, and puts its lowest bytes at the address below. -/
theorem work_store : ∃ read : Value → Except Fault (BitVec 32),
    (∀ word, read (value word) = .ok word) ∧
    work? m enter store
      = some fun i => popAs read >>= fun word => storeNumber i width word.toNat := by
  cases h with
  | i32 => exact ⟨Value.asI32, fun _ => rfl, rfl⟩
  | f32 => exact ⟨Value.asF32, fun _ => rfl, rfl⟩
  | signed part => cases part <;> exact ⟨Value.asI32, fun _ => rfl, rfl⟩
  | unsigned part => cases part <;> exact ⟨Value.asI32, fun _ => rfl, rfl⟩

/-- The load pushes what it makes of the number that it finds. -/
theorem work_load : ∃ result : Nat → Value,
    (∀ word, result (word.toNat % 1 <<< (8 * width)) = seen word) ∧
    work? m enter load = some fun i => loadNumber i width >>= fun n => push (result n) := by
  have hlow : ∀ (width : Nat) (word : BitVec 32),
      BitVec.ofNat width (word.toNat % 1 <<< width) = word.setWidth width := by
    intro width word
    rw [Nat.one_shiftLeft]
    exact BitVec.eq_of_toNat_eq (by simp)
  have hword : ∀ word : BitVec 32, BitVec.ofNat 32 (word.toNat % 1 <<< (8 * 4)) = word :=
    fun word => (hlow 32 word).trans (BitVec.setWidth_eq word)
  cases h with
  | i32 => exact ⟨_, fun word => congrArg Value.i32 (hword word), rfl⟩
  | f32 => exact ⟨_, fun word => congrArg Value.f32 (hword word), rfl⟩
  | signed part =>
    refine ⟨fun n => .i32 ((BitVec.ofNat (8 * part.bytes) n).signExtend 32), fun word => ?_, ?_⟩
    · simp only [hlow]
    · cases part <;> rfl
  | unsigned part =>
    refine ⟨fun n => .i32 ((BitVec.ofNat (8 * part.bytes) n).setWidth 32), fun word => ?_, ?_⟩
    · simp only [hlow]
    · cases part <;> rfl

theorem length_stored (n : Nat) : (Bytes.toLittleEndian width n).length < 1 <<< 63 := by
  rw [Bytes.length_toLittleEndian]
  exact h.width_lt

theorem store_run {i : Instruction} (hi : i.opcode = store) {offset : UInt32}
    (hoffset : i.memoryOffset = .ok offset) {s : Machine} {below : List Value}
    {address word : BitVec 32} (hs : s.Holds below [.i32 address, value word]) :
    ∃ popped : FixedVec Value maxOperandStack, popped.toList = below ∧
      if s.memory.Fits (.ofBitVec address) offset width then
        Executes m enter i s { s with
          stack := popped
          memory := s.memory.write (address.toNat + offset.toNat)
            (Bytes.toLittleEndian width word.toNat) }
      else Faults m enter i s .accessOutOfBounds { s with stack := s.stack.pop.pop } := by
  obtain ⟨read, hread, hwork⟩ := h.work_store m enter
  rw [← hi] at hwork
  obtain ⟨hpop, hrest⟩ := Holds.popAs [.i32 address] hs (hread word)
  obtain ⟨-, hdone⟩ := hrest.popI32
  have hput := storeNumber_run hoffset hrest (h.length_stored word.toNat)
  refine ⟨s.stack.pop.pop, hdone.stack.trans (List.append_nil _), ?_⟩
  by_cases hfits : s.memory.Fits (.ofBitVec address) offset width
  · rw [if_pos hfits] at hput ⊢
    exact executes_of_work hwork (by simp only [bind_run, hpop, hput])
  · rw [if_neg hfits] at hput ⊢
    exact faults_of_work hwork (by simp only [bind_run, hpop, hput])

/-- The load finds the bytes of a word. -/
theorem load_run {i : Instruction} (hi : i.opcode = load) {offset : UInt32}
    (hoffset : i.memoryOffset = .ok offset) {s : Machine} {below : List Value}
    {address word : BitVec 32} (hs : s.Holds below [.i32 address])
    (hload : s.memory.load width (.ofBitVec address) offset
      = .ok (Bytes.toLittleEndian width word.toNat)) :
    ∃ stack, Executes m enter i s { s with stack } ∧ stack.toList = below ++ [seen word] := by
  obtain ⟨result, hresult, hwork⟩ := h.work_load m enter
  rw [← hi] at hwork
  obtain ⟨hget, hrest⟩ := loadNumber_run hoffset hs hload
  rw [Bytes.ofLittleEndian_toLittleEndian] at hget
  have hroom : s.stack.pop.length < maxOperandStack := by
    rw [← FixedVec.length_toList, hrest.stack, List.append_nil]
    exact hs.room
  obtain ⟨hpush, hholds⟩ := hrest.push hroom (seen word)
  refine ⟨s.stack.pop.put (seen word), executes_of_work hwork ?_, hholds.stack⟩
  simp only [bind_run, hget, hresult, hpush]

end Opcode.Pairs

namespace Machine

variable {m : Module} {enter : UInt32 → Exec Unit}

theorem roundTrips {store load : Instruction} {width : Nat} {value seen : BitVec 32 → Value}
    {offset offset' : UInt32} (h : Opcode.Pairs store.opcode load.opcode width value seen)
    (hoffset : store.memoryOffset = .ok offset) (hoffset' : load.memoryOffset = .ok offset') :
    RoundTrips m enter store load width value seen offset offset' := by
  refine ⟨fun s below address word hs hfits => ?_, fun s below address word hs hfits => ?_⟩
  · have hstored : s.memory.Fits (.ofBitVec address) offset
        (Bytes.toLittleEndian width word.toNat).length := by
      rwa [Bytes.length_toLittleEndian]
    obtain ⟨popped, hpopped, hrun⟩ := h.store_run m enter rfl hoffset hs
    rw [if_pos hfits] at hrun
    refine ⟨_, hrun, hpopped, LinearMemory.store_of_fits (h.length_stored _) hstored, rfl, ?_⟩
    intro t below' address' hsame ht hplace
    -- the range of the load is the one of the store, so the bytes of the word are found as a whole
    have hfound := LinearMemory.load_write_same (h.length_stored _) hstored hplace
    rw [Bytes.length_toLittleEndian] at hfound
    obtain ⟨stack, hload, hstack⟩ :=
      h.load_run m enter rfl hoffset' ht (by rw [hsame]; exact hfound)
    exact ⟨_, hload, hstack, rfl⟩
  · obtain ⟨popped, -, hrun⟩ := h.store_run m enter rfl hoffset hs
    rw [if_neg hfits] at hrun
    exact ⟨_, hrun, rfl⟩

/-- Linear memory is an array of bytes: an access succeeds if it ends in the memory, a store changes
the bytes of its range and no others, and a load sees the bytes of the store before it where the two
overlap.  (The width is the length of an array, so it is a signed number of 64 bits.)  The
instructions that store and load the same width give back the low bytes of a value, whichever way
address and offset make up the place. -/
theorem memory_is_byte_array :
    (∀ (memory : LinearMemory) (address offset : UInt32) (bytes : List UInt8),
      bytes.length < 1 <<< 63 → memory.Remembers address offset bytes) ∧
    ∀ (m : Module) (enter : UInt32 → Exec Unit) (store load : Instruction) (width : Nat)
      (value seen : BitVec 32 → Value) (offset offset' : UInt32),
      Opcode.Pairs store.opcode load.opcode width value seen →
      store.memoryOffset = .ok offset → load.memoryOffset = .ok offset' →
      RoundTrips m enter store load width value seen offset offset' :=
  ⟨fun memory address offset _ => memory.remembers address offset,
    fun _ _ _ _ _ _ _ _ _ => roundTrips⟩

/-- A machine with sixteen bytes of memory, about to store a number at the address three. -/
@[irreducible] def storing : Machine where
  memory := ⟨Array.replicate 16 0, 16, by simp⟩
  globals := .empty
  stack := (FixedVec.empty.put (.i32 3)).put (.i32 0x1234FF80)

/-- Two bytes of the number are stored, with an offset of four.  A wider load across the first of
them sees it behind old bytes, and a narrow load at the address seven extends its sign.  Nothing is
stored at an address beyond 32 bits. -/
theorem storing_seen : ∃ stored,
    Executes .empty (fun _ => pure ()) ⟨.store32 .bits16, .u32 1, .u32 4⟩ storing stored ∧
    (∃ found, stored.memory.load 4 5 0 = .ok found ∧ found[1]? = some 0 ∧
      found[2]? = some 0x80) ∧
    (∃ loaded, Executes .empty (fun _ => pure ()) ⟨.load32 .bits16 .signed, .u32 1, .u32 0⟩
      { stored with stack := FixedVec.empty.put (.i32 7) } loaded ∧
      loaded.stack.toList = [.i32 0xFFFFFF80]) ∧
    storing.memory.store 0xFFFFFFFF 2 [1] = .error .accessOutOfBounds := by
  obtain ⟨hbytes, hinstructions⟩ := memory_is_byte_array
  have hholds : storing.Holds [] [.i32 3, .i32 0x1234FF80] :=
    ⟨by decide +kernel, by decide +kernel⟩
  have hpairs := hinstructions .empty (fun _ => pure ()) ⟨.store32 .bits16, .u32 1, .u32 4⟩
    ⟨.load32 .bits16 .signed, .u32 1, .u32 0⟩ 2 .i32 _ 4 0 (.signed .bits16) rfl rfl
  obtain ⟨stored, hstored, -, hstore, hsame, hload⟩ :=
    hpairs.stores storing [] 3 0x1234FF80 hholds (by decide +kernel)
  refine ⟨stored, hstored, ?_, ?_, ?_⟩
  · have hloads :=
      (hbytes storing.memory (.ofBitVec 3) 4 _ (by decide)).loads _ hstore 5 0 4 (by decide)
    rw [if_pos (by decide +kernel)] at hloads
    obtain ⟨found, hfound, -, hplaces⟩ := hloads
    refine ⟨found, hfound, ?_, ?_⟩
    · rw [hplaces 1 (by decide)]
      decide +kernel
    · rw [hplaces 2 (by decide)]
      decide +kernel
  · have hbase : stored.frame.stackBase ≤ 0 := by
      rw [hsame]
      exact hholds.base
    have haddress : (FixedVec.empty.put (.i32 7) : FixedVec Value maxOperandStack).toList
        = [.i32 7] := by decide +kernel
    obtain ⟨loaded, hloaded, hstack, -⟩ :=
      hload { stored with stack := FixedVec.empty.put (.i32 7) } [] 7 rfl ⟨haddress, hbase⟩ rfl
    exact ⟨loaded, hloaded, hstack⟩
  · exact (hbytes storing.memory 0xFFFFFFFF 2 [1] (by decide)).fails (by decide +kernel)

end Machine

end BoundedWasm
