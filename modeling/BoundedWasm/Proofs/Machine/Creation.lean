import BoundedWasm.Proofs.Machine.Alike
import BoundedWasm.Proofs.Machine.Stored

/-!
# BoundedWasm.Proofs.Machine.Creation — when there is a machine, and what its memory holds at first

A machine takes as many bytes of the buffer as its memory has at least (`Module.memorySize`), fills
them with zeros and writes the data segments over them, the later over the earlier.  So a byte is at
first the one of the last segment that covers it (`Module.firstByte`), and there is a machine
exactly when nothing stands in the way of this (`create_exact`).  The bytes of the buffer behind the
memory are none of the machine's, neither when it is made nor later (`SameFrom`).
-/

namespace BoundedWasm

open BoundedWasm.Action Limits

/-! ### What a module asks for -/

namespace DataSegment

/-- The byte that the segment has for a place of the memory, if it covers the place. -/
def byteAt? (segment : DataSegment) (place : Nat) : Option UInt8 :=
  if segment.offset.toNat ≤ place then segment.bytes[place - segment.offset.toNat]? else none

/-- The segment lies in a memory of `size` bytes. -/
def FitsIn (segment : DataSegment) (size : Nat) : Prop :=
  segment.offset.toNat + segment.bytes.length ≤ size

instance (segment : DataSegment) (size : Nat) : Decidable (segment.FitsIn size) :=
  inferInstanceAs (Decidable (_ ≤ _))

end DataSegment

/-- The byte that the last segment that covers a place has for it. -/
def lastByte? (segments : List DataSegment) (place : Nat) : Option UInt8 :=
  segments.reverse.findSome? fun segment => segment.byteAt? place

theorem lastByte?_cons (segment : DataSegment) (segments : List DataSegment) (place : Nat) :
    lastByte? (segment :: segments) place
      = (lastByte? segments place).or (segment.byteAt? place) := by
  simp [lastByte?, List.findSome?_append]

namespace Module

/-- The least number of pages of the first memory, in bytes. -/
def memorySize (m : Module) : Nat :=
  match m.memories.get? 0 with
  | some limits => pageSize * limits.min.toNat
  | none => 0

/-- What a place of the memory holds at first. -/
def firstByte (m : Module) (place : Nat) : UInt8 := (lastByte? m.data.toList place).getD 0

def ImportsNoMemory (m : Module) : Prop :=
  ∀ entry ∈ m.imports.toList, ∀ limits, entry.desc ≠ .memory limits

def SegmentsFit (m : Module) : Prop :=
  ∀ segment ∈ m.data.toList, segment.FitsIn m.memorySize

/-- The bytes of every segment are a slice: their number is a signed number of 64 bits. -/
def HasSlices (m : Module) : Prop :=
  ∀ segment ∈ m.data.toList, segment.bytes.length < 1 <<< 63

end Module

/-- Two buffers of one size that hold the same from `start` on. -/
structure SameFrom (start : Nat) (old new : Array UInt8) : Prop where
  size_eq : new.size = old.size
  getElem?_eq : ∀ place, start ≤ place → new[place]? = old[place]?

namespace SameFrom

variable {start : Nat} {a b c : Array UInt8}

theorem refl (a : Array UInt8) : SameFrom start a a := ⟨rfl, fun _ _ => rfl⟩

theorem trans (h : SameFrom start a b) (h' : SameFrom start b c) : SameFrom start a c :=
  ⟨h'.size_eq.trans h.size_eq, fun place hle =>
    (h'.getElem?_eq place hle).trans (h.getElem?_eq place hle)⟩

end SameFrom

/-! ### Writing bytes -/

/-- Bytes that end inside the buffer are read back, and the others are as before. -/
theorem getElem?_writeBytes {buffer : Array UInt8} {start : Nat} {bytes : List UInt8}
    (h : start + bytes.length ≤ buffer.size) (place : Nat) :
    (writeBytes buffer start bytes)[place]?
      = (if start ≤ place then bytes[place - start]? else none).or buffer[place]? := by
  induction bytes generalizing buffer start with
  | nil => simp [writeBytes]
  | cons b bytes ih =>
    rw [List.length_cons] at h
    rw [writeBytes, ih (by rw [Array.size_setIfInBounds]; omega)]
    rw [Array.getElem?_setIfInBounds]
    rcases Nat.lt_trichotomy place start with hlt | rfl | hlt
    · rw [if_neg (by omega), if_neg (by omega), if_neg (by omega)]
    · rw [if_neg (by omega), if_pos rfl, if_pos (by omega), if_pos (Nat.le_refl _), Nat.sub_self]
      rfl
    · obtain ⟨k, rfl⟩ := Nat.exists_eq_add_of_le hlt
      rw [if_pos (Nat.succ_le_of_lt hlt), if_neg (by omega), if_pos (by omega),
        show start.succ + k - (start + 1) = k by omega,
        show start.succ + k - start = k + 1 by omega, List.getElem?_cons_succ]

theorem sameFrom_writeBytes {buffer : Array UInt8} {start size : Nat} {bytes : List UInt8}
    (hstop : start + bytes.length ≤ size) (hsize : size ≤ buffer.size) :
    SameFrom size buffer (writeBytes buffer start bytes) := by
  refine ⟨size_writeBytes buffer start bytes, fun place hle => ?_⟩
  rw [getElem?_writeBytes (by omega), if_pos (by omega), List.getElem?_eq_none (by omega)]
  rfl

namespace LinearMemory

variable {memory memory' : LinearMemory}

/-- The start of an access is exact, and its end is computed in 64 bits. -/
theorem effectiveRange_run (size : Nat) (address offset : UInt32) (width : UInt64) :
    effectiveRange size address offset width =
      if (address.toNat + offset.toNat + width.toNat) % (1 <<< 64) ≤ size then
        .ok (address.toNat + offset.toNat,
          (address.toNat + offset.toNat + width.toNat) % (1 <<< 64))
      else .error .accessOutOfBounds := by
  have haddress := address.toNat_lt
  have hoffset := offset.toNat_lt
  have hstart : (address.toUInt64 + offset.toUInt64).toNat = address.toNat + offset.toNat := by
    rw [UInt64.toNat_add, UInt32.toNat_toUInt64, UInt32.toNat_toUInt64]
    exact Nat.mod_eq_of_lt (by omega)
  have hstop : (address.toUInt64 + offset.toUInt64 + width).toNat
      = (address.toNat + offset.toNat + width.toNat) % (1 <<< 64) := by
    rw [UInt64.toNat_add, hstart]
    rfl
  simp only [effectiveRange, hstop, hstart, ← Nat.not_le, ite_not]

/-- As long as the width is a signed number of 64 bits the end of an access is computed without
overflow. -/
theorem effectiveRange_eq (size : Nat) (address offset : UInt32) {width : Nat}
    (hwidth : width < 1 <<< 63) :
    effectiveRange size address offset (UInt64.ofNat width) =
      if address.toNat + offset.toNat + width ≤ size then
        .ok (address.toNat + offset.toNat, address.toNat + offset.toNat + width)
      else .error .accessOutOfBounds := by
  have haddress := address.toNat_lt
  have hoffset := offset.toNat_lt
  have hlt : width < 2 ^ 63 := hwidth
  have hstop : address.toNat + offset.toNat + width < 2 ^ 64 := by omega
  have hexact : (address.toNat + offset.toNat + width) % (1 <<< 64)
      = address.toNat + offset.toNat + width := Nat.mod_eq_of_lt hstop
  rw [effectiveRange_run, UInt64.toNat_ofNat_of_lt' (show width < 2 ^ 64 by omega), hexact]

theorem store_eq (memory : LinearMemory) (address offset : UInt32) {bytes : List UInt8}
    (hlength : bytes.length < 1 <<< 63) : memory.store address offset bytes =
      if address.toNat + offset.toNat + bytes.length ≤ memory.size then
        .ok (memory.write (address.toNat + offset.toNat) bytes)
      else .error .accessOutOfBounds := by
  rw [store, effectiveRange_eq memory.size address offset hlength]
  split <;> rfl

/-- A memory of the same size, in a buffer that holds the same behind it. -/
structure Within (memory memory' : LinearMemory) : Prop where
  size_eq : memory'.size = memory.size
  sameFrom : SameFrom memory.size memory.buffer memory'.buffer

theorem Within.refl (memory : LinearMemory) : memory.Within memory := ⟨rfl, .refl _⟩

theorem Within.trans {memory'' : LinearMemory} (h : memory.Within memory')
    (h' : memory'.Within memory'') : memory.Within memory'' :=
  ⟨h'.size_eq.trans h.size_eq, h.sameFrom.trans (h.size_eq ▸ h'.sameFrom)⟩

theorem within_write {start : Nat} {bytes : List UInt8} (h : start + bytes.length ≤ memory.size) :
    memory.Within (memory.write start bytes) :=
  ⟨rfl, sameFrom_writeBytes h memory.size_le⟩

theorem within_store {address offset : UInt32} {bytes : List UInt8}
    (hlength : bytes.length < 1 <<< 63) (h : memory.store address offset bytes = .ok memory') :
    memory.Within memory' := by
  rw [store_eq memory address offset hlength] at h
  split at h
  · cases h
    exact within_write ‹_›
  · cases h

theorem within_overwrite? {start : Nat} {bytes : List UInt8}
    (h : memory.overwrite? start bytes = some memory') : memory.Within memory' := by
  unfold overwrite? at h
  split at h
  · cases h
    exact within_write ‹_›
  · cases h

theorem getElem?_zero (memory : LinearMemory) (place : Nat) : memory.zero.buffer[place]? =
    if place < memory.size then some 0 else memory.buffer[place]? := by
  have hle := memory.size_le
  unfold zero
  rw [Array.getElem?_append, Array.size_replicate]
  split
  · rw [Array.getElem?_replicate, if_pos ‹_›]
  · rename_i hplace
    rw [Array.getElem?_extract, Nat.min_self, Nat.add_sub_cancel' (Nat.le_of_not_lt hplace)]
    split
    · rfl
    · rw [Array.getElem?_eq_none (by omega)]

theorem within_zero (memory : LinearMemory) : memory.Within memory.zero := by
  refine ⟨rfl, ?_, fun place hle => ?_⟩
  · have hle := memory.size_le
    simp only [zero, Array.size_append, Array.size_replicate, Array.size_extract]
    omega
  · rw [getElem?_zero, if_neg (by omega)]

/-! ### Data segments -/

/-- A segment that does not fit is the last that is looked at. -/
theorem place_cons {segment : DataSegment} (hslice : segment.bytes.length < 1 <<< 63)
    (segments : List DataSegment) (memory : LinearMemory) :
    memory.place (segment :: segments) = if segment.FitsIn memory.size then
        (memory.write segment.offset.toNat segment.bytes).place segments
      else (false, memory) := by
  have hstore := store_eq memory segment.offset 0 hslice
  rw [show (0 : UInt32).toNat = 0 from rfl, Nat.add_zero] at hstore
  rw [place, hstore]
  by_cases hfits : segment.FitsIn memory.size
  · rw [if_pos hfits]
    simp only [if_pos (show segment.offset.toNat + segment.bytes.length ≤ memory.size from hfits)]
  · rw [if_neg hfits]
    simp only [if_neg (show ¬ segment.offset.toNat + segment.bytes.length ≤ memory.size from hfits)]

section Place

variable {segments : List DataSegment}
  (hslices : ∀ segment ∈ segments, segment.bytes.length < 1 <<< 63)

include hslices

theorem within_place (memory : LinearMemory) : memory.Within (memory.place segments).2 := by
  induction segments generalizing memory with
  | nil => exact .refl _
  | cons segment segments ih =>
    rw [List.forall_mem_cons] at hslices
    rw [place_cons hslices.1]
    split
    · exact (within_write ‹_›).trans (ih hslices.2 _)
    · exact .refl _

theorem place_iff (memory : LinearMemory) : (memory.place segments).1 = true ↔
    ∀ segment ∈ segments, segment.FitsIn memory.size := by
  induction segments generalizing memory with
  | nil => simp [place]
  | cons segment segments ih =>
    rw [List.forall_mem_cons] at hslices ⊢
    rw [place_cons hslices.1]
    split
    · rename_i hfits
      rw [ih hslices.2]
      exact (and_iff_right hfits).symm
    · rename_i hfits
      simp [hfits]

/-- The later segment is written over the earlier. -/
theorem getElem?_place (memory : LinearMemory)
    (hfits : ∀ segment ∈ segments, segment.FitsIn memory.size) (k : Nat) :
    (memory.place segments).2.buffer[k]? = (lastByte? segments k).or memory.buffer[k]? := by
  induction segments generalizing memory with
  | nil => rfl
  | cons segment segments ih =>
    rw [List.forall_mem_cons] at hslices hfits
    obtain ⟨hfirst, hothers⟩ := hfits
    have hbuffer : segment.offset.toNat + segment.bytes.length ≤ memory.buffer.size :=
      Nat.le_trans hfirst memory.size_le
    have hothers' : ∀ other ∈ segments,
        other.FitsIn (memory.write segment.offset.toNat segment.bytes).size := hothers
    rw [place_cons hslices.1, if_pos hfirst, ih hslices.2 _ hothers', lastByte?_cons,
      Option.or_assoc]
    exact congrArg _ (getElem?_writeBytes hbuffer k)

end Place

end LinearMemory

/-! ### Creation -/

namespace Module

variable {m : Module}

theorem importsNoMemory_iff : m.ImportsNoMemory ↔ ¬ 0 < m.importedMemoryCount := by
  unfold ImportsNoMemory importedMemoryCount countImports
  rw [List.countP_pos_iff]
  constructor
  · rintro h ⟨entry, hentry, hmemory⟩
    cases hdesc : entry.desc with
    | memory limits => exact h entry hentry limits hdesc
    | _ =>
      rw [hdesc] at hmemory
      cases hmemory
  · intro h entry hentry limits hdesc
    exact h ⟨entry, hentry, by rw [hdesc]; rfl⟩

theorem requiredMemory_eq (h : m.ImportsNoMemory) : m.requiredMemory = .ok m.memorySize := by
  rw [requiredMemory, if_neg (importsNoMemory_iff.mp h), memorySize]
  cases m.memories.get? 0 with
  | none => rfl
  | some limits => exact congrArg Except.ok (Nat.mul_comm _ _)

theorem requiredMemory_error (h : ¬ m.ImportsNoMemory) :
    m.requiredMemory = .error .importedMemory := by
  rw [importsNoMemory_iff, Decidable.not_not] at h
  rw [requiredMemory, if_pos h]

theorem memorySize_of_requiredMemory {size : Nat} (h : m.requiredMemory = .ok size) :
    m.ImportsNoMemory ∧ size = m.memorySize := by
  by_cases himports : m.ImportsNoMemory
  · rw [requiredMemory_eq himports] at h
    cases h
    exact ⟨himports, rfl⟩
  · rw [requiredMemory_error himports] at h
    cases h

end Module

namespace Machine

variable {m : Module} {host : Host} {buffer : Array UInt8} {s : Machine}

/-- A machine as it is made: its memory holds the first bytes, its globals the first values, and the
rest of the buffer is as it was. -/
structure Fresh (m : Module) (buffer : Array UInt8) (s : Machine) : Prop where
  size : s.memory.size = m.memorySize
  bytes : s.memory.toList = (List.range m.memorySize).map m.firstByte
  globals : s.globals.toList = m.globals.toList.map Global.init
  sameFrom : SameFrom m.memorySize buffer s.memory.buffer

/-- Why there is no machine, the first of three reasons, and the buffer as it is left. -/
inductive Refused (m : Module) (buffer : Array UInt8) : Refusal → Prop
  | importsMemory (himports : ¬ m.ImportsNoMemory) : Refused m buffer ⟨.importedMemory, buffer⟩
  | tooSmall (himports : m.ImportsNoMemory) (hsize : buffer.size < m.memorySize) :
    Refused m buffer ⟨.bufferTooSmall, buffer⟩
  | misplaced {left : Array UInt8} (himports : m.ImportsNoMemory)
    (hsize : m.memorySize ≤ buffer.size) (hfits : ¬ m.SegmentsFit)
    (hleft : SameFrom m.memorySize buffer left) : Refused m buffer ⟨.segmentOutOfBounds, left⟩

/-- What a machine does to its memory stays inside it. -/
theorem shared_within (m : Module) : Shared m fun s s' => s.memory.Within s'.memory where
  refl _ := .refl _
  fails _ := .refl _
  trans h h' := h.trans h'
  trans_fails h h' := h.trans h'
  change h := by
    cases h with
    | store hwidth hstore =>
      exact LinearMemory.within_store (Nat.lt_of_le_of_lt hwidth (by decide)) hstore
    | overwrite hwrite => exact LinearMemory.within_overwrite? hwrite
    | _ => exact .refl _
  shell hmemory _ _ := by
    rw [hmemory]
    exact .refl _

theorem within_operate (operations : List Operation) (s : Machine) :
    s.memory.Within (operate m operations s).memory := by
  induction operations generalizing s with
  | nil => exact .refl _
  | cons operation operations ih =>
    have hR := shared_within m
    exact ((keeps_operation hR.toCovers hR.keeps_call operation).after s).trans (ih _)

section Zeroed

variable (hslices : m.HasSlices) (hle : m.memorySize ≤ buffer.size) {placed : Bool}
  {memory : LinearMemory} (hplace : (LinearMemory.zero ⟨buffer, m.memorySize, hle⟩).place
    m.data.toList = (placed, memory))

include hslices hplace

theorem within_first : memory.size = m.memorySize ∧ SameFrom m.memorySize buffer memory.buffer := by
  have hzero := LinearMemory.within_zero ⟨buffer, m.memorySize, hle⟩
  have hplaced := LinearMemory.within_place hslices (LinearMemory.zero ⟨buffer, m.memorySize, hle⟩)
  rw [hplace] at hplaced
  exact ⟨(hzero.trans hplaced).size_eq, (hzero.trans hplaced).sameFrom⟩

theorem placed_iff : placed = true ↔ m.SegmentsFit := by
  have hiff := LinearMemory.place_iff hslices (LinearMemory.zero ⟨buffer, m.memorySize, hle⟩)
  rwa [hplace] at hiff

/-- Where no segment covers a place the zero is left. -/
theorem toList_first (hfits : m.SegmentsFit) :
    memory.toList = (List.range m.memorySize).map m.firstByte := by
  obtain ⟨hsize, -⟩ := within_first hslices hle hplace
  rw [LinearMemory.toList_eq_take, hsize]
  refine List.ext_getElem? fun k => ?_
  by_cases hk : k < m.memorySize
  · have hbyte := LinearMemory.getElem?_place hslices
      (LinearMemory.zero ⟨buffer, m.memorySize, hle⟩) hfits k
    rw [hplace, LinearMemory.getElem?_zero, if_pos hk] at hbyte
    rw [List.getElem?_take_of_lt hk, Array.getElem?_toList, hbyte, List.getElem?_map,
      List.getElem?_range hk, Option.map_some, Module.firstByte]
    cases lastByte? m.data.toList k <;> rfl
  · rw [List.getElem?_eq_none (by rw [List.length_take]; omega),
      List.getElem?_eq_none (by rw [List.length_map, List.length_range]; omega)]

end Zeroed

theorem refused_of_create (hslices : m.HasSlices) {refusal : Refusal}
    (h : create m host buffer = .error refusal) : Refused m buffer refusal := by
  have hcases := create_cases m host buffer
  rw [h] at hcases
  cases hcases with
  | unmet hsize =>
    have himports : ¬ m.ImportsNoMemory := fun himports => by
      rw [Module.requiredMemory_eq himports] at hsize
      cases hsize
    rw [Module.requiredMemory_error himports] at hsize
    cases hsize
    exact .importsMemory himports
  | small hsize hlt =>
    obtain ⟨himports, rfl⟩ := Module.memorySize_of_requiredMemory hsize
    exact .tooSmall himports hlt
  | misplaced hsize hle hplace =>
    obtain ⟨himports, rfl⟩ := Module.memorySize_of_requiredMemory hsize
    have hfits : ¬ m.SegmentsFit := fun hfits => by
      cases (placed_iff hslices hle hplace).mpr hfits
    exact .misplaced himports hle hfits (within_first hslices hle hplace).2

theorem fresh_of_create (hslices : m.HasSlices) (h : create m host buffer = .ok s) :
    (m.ImportsNoMemory ∧ m.memorySize ≤ buffer.size ∧ m.SegmentsFit) ∧ Fresh m buffer s := by
  have hglobals := create_globals h
  have hcases := create_cases m host buffer
  rw [h] at hcases
  cases hcases with
  | made hsize hle hplace =>
    obtain ⟨himports, rfl⟩ := Module.memorySize_of_requiredMemory hsize
    have hfits : m.SegmentsFit := (placed_iff hslices hle hplace).mp rfl
    obtain ⟨hsize, hsame⟩ := within_first hslices hle hplace
    exact ⟨⟨himports, hle, hfits⟩, hsize, toList_first hslices hle hplace hfits, hglobals, hsame⟩

/-- Nothing that is done with a new machine reaches the buffer behind its memory. -/
theorem Fresh.sameFrom_operate (h : Fresh m buffer s) (operations : List Operation) :
    SameFrom m.memorySize buffer (operate m operations s).memory.buffer ∧
      ∀ index moment, Moment.Reaches m (Moment.start index (operate m operations s)) moment →
        SameFrom m.memorySize buffer moment.machine.memory.buffer := by
  have hoperated := within_operate (m := m) operations s
  refine ⟨h.sameFrom.trans (h.size ▸ hoperated.sameFrom), fun index moment hreaches => ?_⟩
  have hrun := hoperated.trans ((shared_within m).of_reaches hreaches)
  exact h.sameFrom.trans (h.size ▸ hrun.sameFrom)

/-- There is a machine exactly when no memory is imported, the buffer is large enough and every
segment lies in the memory; otherwise the first of these that fails is named, and one of the first
two leaves the buffer alone.  A new machine has the first bytes and the first globals, and whatever
its host does with it, at every moment of every run, the buffer behind the memory is as it was. -/
theorem create_exact (hslices : m.HasSlices) (host : Host) (buffer : Array UInt8) :
    ((∃ s, create m host buffer = .ok s) ↔
      m.ImportsNoMemory ∧ m.memorySize ≤ buffer.size ∧ m.SegmentsFit) ∧
    (∀ refusal, create m host buffer = .error refusal → Refused m buffer refusal) ∧
    ∀ s, create m host buffer = .ok s → Fresh m buffer s ∧ ∀ operations,
      SameFrom m.memorySize buffer (operate m operations s).memory.buffer ∧
      ∀ index moment, Moment.Reaches m (Moment.start index (operate m operations s)) moment →
        SameFrom m.memorySize buffer moment.machine.memory.buffer := by
  refine ⟨⟨?_, ?_⟩, fun refusal h => refused_of_create hslices h, fun s h => ?_⟩
  · rintro ⟨s, h⟩
    exact (fresh_of_create hslices h).1
  · rintro ⟨himports, hsize, hfits⟩
    cases h : create m host buffer with
    | ok s => exact ⟨s, rfl⟩
    | error refusal =>
      cases refused_of_create hslices h with
      | importsMemory hnot => exact absurd himports hnot
      | tooSmall _ hlt => exact absurd hsize (Nat.not_le_of_lt hlt)
      | misplaced _ _ hnot => exact absurd hfits hnot
  · have hfresh := (fresh_of_create hslices h).2
    exact ⟨hfresh, hfresh.sameFrom_operate⟩

end Machine

/-- A memory of one page and two segments at its end, the second of them in the middle of the
first. -/
def Module.overlapping : Module where
  memories := FixedVec.empty.put ⟨1, none⟩
  data := (FixedVec.empty.put ⟨65533, [1, 2, 3]⟩).put ⟨65534, [9]⟩

namespace Machine

/-- In a larger buffer the second segment lies over the first, and what is behind the memory
stays. -/
theorem overlapping_created : Module.overlapping.HasSlices ∧
    ∃ s, create .overlapping {} (Array.replicate 65540 7) = .ok s ∧
      s.memory.toList.drop 65532 = [0, 1, 9, 3] ∧ s.memory.buffer[65536]? = some 7 := by
  have hdata : Module.overlapping.data.toList = [⟨65533, [1, 2, 3]⟩, ⟨65534, [9]⟩] := by
    decide +kernel
  have hmemory : Module.overlapping.memorySize = 65536 := by decide +kernel
  have hslices : Module.overlapping.HasSlices := by
    unfold Module.HasSlices
    rw [hdata]
    decide
  have himports : Module.overlapping.ImportsNoMemory := by
    rw [Module.importsNoMemory_iff]
    decide +kernel
  have hfits : Module.overlapping.SegmentsFit := by
    unfold Module.SegmentsFit
    rw [hdata, hmemory]
    decide
  obtain ⟨hmade, -, hcreated⟩ := create_exact hslices {} (Array.replicate 65540 7)
  obtain ⟨s, hs⟩ := hmade.mpr ⟨himports, by rw [hmemory, Array.size_replicate]; decide, hfits⟩
  obtain ⟨hfresh, -⟩ := hcreated s hs
  refine ⟨hslices, s, hs, ?_, ?_⟩
  · rw [hfresh.bytes, hmemory, ← List.map_drop, List.range_eq_range', List.drop_range']
    unfold Module.firstByte
    rw [hdata]
    decide
  · rw [hfresh.sameFrom.getElem?_eq 65536 (Nat.le_of_eq hmemory), Array.getElem?_replicate,
      if_pos (by decide)]

end Machine

end BoundedWasm
