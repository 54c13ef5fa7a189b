import BoundedWasm.Proofs.Decode.Entry
import BoundedWasm.Proofs.Encoding.Integers

/-!
# BoundedWasm.Proofs.Encoding.Entries — every entry is read as it was written

For each kind of entry that sections are made of, the parser of the decoder reads what the grammar
writes, provided the entry passes the checks that the parser makes.
-/

namespace BoundedWasm

open Limits

section Vectors

variable {α : Type} [Inhabited α] {cap : Nat}

/-- A list that fits into a vector of its own. -/
theorem FixedVec.exists_extend_empty {xs : List α} (h : xs.length ≤ cap) :
    ∃ v : FixedVec α cap, FixedVec.empty.extend xs = .ok v ∧ v.toList = xs :=
  ⟨FixedVec.empty.putAll xs, if_pos h, FixedVec.toList_putAll_empty h⟩

theorem FixedVec.length_toList_le (v : FixedVec α cap) : v.toList.length ≤ cap := by
  rw [FixedVec.length_toList]
  exact v.length_le

end Vectors

namespace Parser

/-! ### Types -/

theorem reads_valueType (type : ValueType) : Reads valueType [type.toByte] type := by
  refine (reads_byte _).then (reads_ofExcept ?_)
  rw [ValueType.ofByte, ValueType.ofByte?_toByte]

theorem reads_valueTypes {types : List ValueType} {bytes : List UInt8}
    (h : EachBy ValueType.EncodedBy types bytes) :
    Reads (valueTypes types.length) bytes types := by
  induction h with
  | nil => exact reads_pure []
  | @cons type types _ more htype _ ih =>
    obtain ⟨⟩ := htype
    exact (reads_valueType type).bind (ih.then (reads_pure _))

/-- The number of entries of a vector for which there is room. -/
theorem reads_count {n free : Nat} {bytes : List UInt8} (h : Leb128.Unsigned 32 n bytes)
    (hle : n ≤ free) : Reads (count free) bytes n := by
  obtain ⟨number, rfl, hreads⟩ := exists_uleb32 h
  exact hreads.then (Reads.unless (Nat.not_lt.mpr hle) (reads_pure _))

/-- A function type is read into vectors of its own, which hold the same. -/
theorem reads_functionType {type : FunctionType} {bytes : List UInt8} (h : type.EncodedBy bytes) :
    ∃ type' : FunctionType, Reads functionType bytes type' ∧
      type'.params.toList = type.params.toList ∧ type'.results.toList = type.results.toList := by
  obtain ⟨⟨hparamCount, hparams⟩, ⟨hresultCount, hresults⟩⟩ := h
  have hparams_le := type.params.length_toList_le
  have hresults_le := type.results.length_toList_le
  obtain ⟨params, hnewParams, hparamsEq⟩ := FixedVec.exists_extend_empty hparams_le
  obtain ⟨results, hnewResults, hresultsEq⟩ := FixedVec.exists_extend_empty hresults_le
  obtain ⟨resultCount, hresultCountEq, hresultCount⟩ := exists_uleb32 hresultCount
  refine ⟨⟨params, results⟩, ?_, hparamsEq, hresultsEq⟩
  rw [List.append_assoc]
  refine (reads_byte 0x60).bind (Reads.unless (by decide) ?_)
  refine (reads_count hparamCount hparams_le).bind ((reads_valueTypes hparams).bind ?_)
  refine hresultCount.bind (Reads.unless (by omega) ?_)
  rw [hresultCountEq]
  refine (reads_valueTypes hresults).then (reads_ofExcept ?_)
  rw [FunctionType.ofLists, hnewParams, hnewResults]
  rfl

theorem reads_globalType {type : GlobalType} {bytes : List UInt8} (h : type.EncodedBy bytes) :
    Reads globalType bytes type := by
  cases h with
  | immutable valueType =>
    exact (reads_valueType valueType).bind ((reads_byte 0x00).then (reads_pure _))
  | mutable valueType =>
    exact (reads_valueType valueType).bind ((reads_byte 0x01).then (reads_pure _))

theorem reads_sizeLimits {limits : SizeLimits} {bytes : List UInt8} (h : limits.EncodedBy bytes)
    (hordered : Ordered limits) : Reads sizeLimits bytes limits := by
  cases h with
  | unbounded hmin => exact (reads_byte 0x00).bind ((reads_uleb32 hmin).then (reads_pure _))
  | bounded hmin hmax =>
    refine (reads_byte 0x01).bind ((reads_uleb32 hmin).bind ((reads_uleb32 hmax).then ?_))
    exact Reads.unless (UInt32.not_lt.mpr (hordered _ rfl)) (reads_pure _)

theorem reads_memoryLimits {limits : SizeLimits} {bytes : List UInt8} (h : limits.EncodedBy bytes)
    (hpages : limits.InPages) : Reads memoryLimits bytes limits := by
  refine (reads_sizeLimits h fun max hmax => (hpages.max_le max hmax).1).then ?_
  refine Reads.unless ?_ (reads_pure _)
  rw [Bool.or_eq_true, not_or]
  refine ⟨by simpa using hpages.min_le, ?_⟩
  cases hmax : limits.max with
  | none => simp
  | some max => simpa using (hpages.max_le max hmax).2

/-! ### Imports and exports -/

theorem reads_typeIndex {index : UInt32} {bytes : List UInt8}
    (h : Leb128.Unsigned 32 index.toNat bytes) {types : Nat} (hlt : index.toNat < types) :
    Reads (typeIndex types) bytes index :=
  (reads_uleb32 h).then (Reads.unless (Nat.not_le.mpr hlt) (reads_pure _))

theorem reads_importDesc {desc : ImportDesc} {bytes : List UInt8} (h : desc.EncodedBy bytes)
    {types : Nat} (hfits : desc.FitsTypes types)
    (htable : ∀ limits, desc.tableLimits? = some limits → Ordered limits) :
    Reads (importDesc types) bytes desc := by
  cases h with
  | function hindex =>
    have hlt := hfits.typeIndex_lt _ rfl
    exact (reads_byte 0x00).bind ((reads_typeIndex hindex hlt).then (reads_pure _))
  | @table limits reference bounds hreference hlimits =>
    have hmem : reference ∈ referenceTypes := by simpa [referenceTypes] using hreference
    refine (reads_byte 0x01).bind ((reads_byte reference).bind ?_)
    refine Reads.unless (not_not_intro hmem) ?_
    exact (reads_sizeLimits hlimits (htable limits rfl)).then (reads_pure _)
  | memory hlimits =>
    have hpages := hfits.inPages _ rfl
    exact (reads_byte 0x02).bind ((reads_memoryLimits hlimits hpages).then (reads_pure _))
  | global htype =>
    exact (reads_byte 0x03).bind ((reads_globalType htype).then (reads_pure _))
  | tag hindex =>
    have hlt := hfits.typeIndex_lt _ rfl
    refine (reads_byte 0x04).bind ((reads_byte 0x00).bind (Reads.unless (by decide) ?_))
    exact (reads_typeIndex hindex hlt).then (reads_pure _)

theorem reads_importEntry {entry : Import} {bytes : List UInt8} (h : entry.EncodedBy bytes)
    {types : Nat} (hmodule : entry.moduleName.utf8ByteSize ≤ maxNameLength)
    (hfield : entry.field.utf8ByteSize ≤ maxNameLength) (hfits : entry.desc.FitsTypes types)
    (htable : ∀ limits, entry.desc.tableLimits? = some limits → Ordered limits) :
    Reads (importEntry types) bytes entry := by
  obtain ⟨hmoduleName, hfieldName, hdesc⟩ := h
  refine (reads_name hmoduleName hmodule).bind ((reads_name hfieldName hfield).bind ?_)
  exact (reads_importDesc hdesc hfits htable).then (reads_pure _)

theorem reads_exportEntry {entry : Export} {bytes : List UInt8} (h : entry.EncodedBy bytes)
    (hname : entry.name.utf8ByteSize ≤ maxNameLength) : Reads exportEntry bytes entry := by
  obtain ⟨hnameBytes, hindex⟩ := h
  refine (reads_name hnameBytes hname).bind ((reads_byte entry.desc.kind).bind ?_)
  refine (reads_uleb32 hindex).then ?_
  obtain ⟨name, desc⟩ := entry
  cases desc <;> exact reads_pure _

/-! ### Constants -/

theorem reads_constant {value : Value} {bytes : List UInt8} (h : value.EncodedBy bytes) :
    Reads (constant value.type) bytes value := by
  -- after the number comes `end`, and the type is the expected one
  have hclose : Reads (do
      if Opcode.ofByte? (← byte) ≠ some .endBlock then throw .constantUnterminated
      if value.type ≠ value.type then throw .constantTypeMismatch
      return value) [0x0B] value :=
    (reads_byte 0x0B).then
      (Reads.unless (by decide) (Reads.unless (not_not_intro rfl) (reads_pure value)))
  cases h with
  | i32 hnumber =>
    exact (reads_byte 0x41).bind (((reads_sleb32 hnumber).map Value.i32).bind hclose)
  | i64 hnumber =>
    exact (reads_byte 0x42).bind (((reads_sleb64 hnumber).map Value.i64).bind hclose)
  | f32 bits => exact (reads_byte 0x43).bind (((reads_word32 bits).map Value.f32).bind hclose)
  | f64 bits => exact (reads_byte 0x44).bind (((reads_word64 bits).map Value.f64).bind hclose)

theorem reads_globalEntry {entry : Global} {bytes : List UInt8} (h : entry.EncodedBy bytes)
    (htyped : entry.Typed) : Reads globalEntry bytes entry := by
  obtain ⟨htype, hinit⟩ := h
  have hconstant := reads_constant hinit
  rw [htyped] at hconstant
  exact (reads_globalType htype).bind (hconstant.then (reads_pure _))

/-! ### Locals and data -/

theorem reads_localGroups {groups : List LocalGroup} {bytes : List UInt8}
    (h : EachBy LocalGroup.EncodedBy groups bytes) {total : Nat}
    (hle : total + LocalGroup.total groups ≤ maxLocalsPerFunction) :
    Reads (localGroups groups.length total) bytes groups := by
  induction h generalizing total with
  | nil => exact reads_pure []
  | @cons group groups _ more hgroup _ ih =>
    obtain ⟨hcount⟩ := hgroup
    rw [LocalGroup.total] at hle
    rw [List.append_assoc]
    refine (reads_uleb32 hcount).bind ((reads_valueType group.valueType).bind ?_)
    exact Reads.unless (by omega) ((ih (by omega)).then (reads_pure _))

theorem reads_dataMode {bytes : List UInt8} (h : DataSegment.ModeBy bytes) :
    Reads dataMode bytes () := by
  cases h with
  | active hmode => exact (reads_uleb32 (n := 0) hmode).then (reads_pure ())
  | explicit hmode hmemory =>
    refine (reads_uleb32 (n := 2) hmode).bind ?_
    exact (reads_uleb32 (n := 0) hmemory).then (reads_pure ())

theorem reads_dataSegment {segment : DataSegment} {bytes : List UInt8}
    (h : segment.EncodedBy bytes) : Reads dataSegment bytes segment := by
  obtain ⟨hmode, hoffset, hsize⟩ := h
  obtain ⟨size, hsizeEq, hreads⟩ := exists_uleb32 hsize
  have hoffsetReads : Reads dataOffset _ segment.offset :=
    (reads_constant hoffset).then (reads_pure _)
  refine (reads_dataMode hmode).bind (hoffsetReads.bind (hreads.bind ?_))
  rw [hsizeEq]
  exact (reads_bytes _).then (reads_pure _)

end Parser

end BoundedWasm
