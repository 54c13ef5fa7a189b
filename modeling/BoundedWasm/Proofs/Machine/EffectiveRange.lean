import BoundedWasm.Proofs.Machine.MemoryAccess

/-!
# BoundedWasm.Proofs.Machine.EffectiveRange — where an access is taken to lie

The range of an access is computed in words of 64 bits.  Its start is exact, since an address and
an offset have 32 bits each, but the width may have all 64, and then the end can overflow; in a
release build it wraps around, and in a debug build there is no answer.  The check is exact unless
what is left of the end lies in the memory (`Wraps`): such an access is accepted, with a range that
ends before it starts (`effectiveRange_exact_unless_wraps`).  No access of an instruction and no
data segment is wide enough for that, so that each of them reads or writes the range of its place
and width, or nothing.
-/

namespace BoundedWasm.LinearMemory

/-- The range of an access in numbers without a bound. -/
def exactRange (size : Nat) (address offset : UInt32) (width : Nat) : Except Fault (Nat × Nat) :=
  if address.toNat + offset.toNat + width ≤ size then
    .ok (address.toNat + offset.toNat, address.toNat + offset.toNat + width)
  else .error .accessOutOfBounds

/-- The access ends beyond 64 bits, and what is left of its end lies in the memory. -/
def Wraps (size : Nat) (address offset : UInt32) (width : Nat) : Prop :=
  1 <<< 64 ≤ address.toNat + offset.toNat + width ∧
    address.toNat + offset.toNat + width - 1 <<< 64 ≤ size

instance (size : Nat) (address offset : UInt32) (width : Nat) :
    Decidable (Wraps size address offset width) := inferInstanceAs (Decidable (_ ∧ _))

/-- What is loaded, stored and placed lies in the range of the access, in numbers without a bound;
where that ends behind the memory there is no access. -/
structure AccessesExactly (memory : LinearMemory) : Prop where
  load_eq : ∀ (address offset : UInt32) (width : Nat), width < 1 <<< 63 →
    memory.load width address offset = (exactRange memory.size address offset width).map
      fun range => (memory.toList.drop range.1).take (range.2 - range.1)
  store_eq : ∀ (address offset : UInt32) (bytes : List UInt8), bytes.length < 1 <<< 63 →
    memory.store address offset bytes = (exactRange memory.size address offset bytes.length).map
      fun range => memory.write range.1 bytes
  place_eq : ∀ (segment : DataSegment) (segments : List DataSegment),
    segment.bytes.length < 1 <<< 63 → memory.place (segment :: segments)
      = match exactRange memory.size segment.offset 0 segment.bytes.length with
        | .ok range => (memory.write range.1 segment.bytes).place segments
        | .error _ => (false, memory)

variable {size : Nat} {address offset : UInt32}

/-! ### The check -/

/-- The end of an access overflows at most once, and what is left of it is before its start. -/
theorem mod_of_overflow {width : UInt64}
    (h : 1 <<< 64 ≤ address.toNat + offset.toNat + width.toNat) :
    (address.toNat + offset.toNat + width.toNat) % (1 <<< 64)
      = address.toNat + offset.toNat + width.toNat - 1 <<< 64 ∧
    address.toNat + offset.toNat + width.toNat - 1 <<< 64 < address.toNat + offset.toNat := by
  have haddress := address.toNat_lt
  have hoffset := offset.toNat_lt
  have hwidth := width.toNat_lt
  simp only [Nat.reduceShiftLeft] at h ⊢
  omega

theorem effectiveRange_of_wraps {width : UInt64} (h : Wraps size address offset width.toNat) :
    effectiveRange size address offset width = .ok (address.toNat + offset.toNat,
      address.toNat + offset.toNat + width.toNat - 1 <<< 64) := by
  rw [effectiveRange_run, (mod_of_overflow h.1).1, if_pos h.2]

theorem effectiveRange_of_not_wraps {width : UInt64}
    (h : ¬ Wraps size address offset width.toNat) :
    effectiveRange size address offset width = exactRange size address offset width.toNat := by
  rw [effectiveRange_run, exactRange]
  by_cases hover : 1 <<< 64 ≤ address.toNat + offset.toNat + width.toNat
  · obtain ⟨hmod, hlt⟩ := mod_of_overflow hover
    have hleft : ¬ address.toNat + offset.toNat + width.toNat - 1 <<< 64 ≤ size :=
      fun hle => h ⟨hover, hle⟩
    rw [hmod, if_neg hleft, if_neg fun hle => hleft (by omega)]
  · rw [Nat.mod_eq_of_lt (Nat.lt_of_not_le hover)]

theorem effectiveRange_ne_of_wraps {width : UInt64} (h : Wraps size address offset width.toNat) :
    effectiveRange size address offset width ≠ exactRange size address offset width.toNat := by
  have hlt := (mod_of_overflow h.1).2
  rw [effectiveRange_of_wraps h, exactRange]
  intro heq
  split at heq
  · simp only [Except.ok.injEq, Prod.mk.injEq] at heq
    omega
  · cases heq

theorem not_wraps_of_lt {width : Nat} (h : width < 1 <<< 63) :
    ¬ Wraps size address offset width := by
  have haddress := address.toNat_lt
  have hoffset := offset.toNat_lt
  rintro ⟨hover, -⟩
  simp only [Nat.reduceShiftLeft] at h hover
  omega

/-! ### Accesses -/

/-- A range starts at the place of the access, has its width, and ends in the memory. -/
theorem exactRange_ok {width start stop : Nat}
    (h : exactRange size address offset width = .ok (start, stop)) :
    start = address.toNat + offset.toNat ∧ stop = start + width ∧ stop ≤ size := by
  unfold exactRange at h
  split at h
  · cases h
    exact ⟨rfl, rfl, ‹_›⟩
  · cases h

theorem accessesExactly (memory : LinearMemory) : memory.AccessesExactly where
  load_eq address offset width hwidth := by
    unfold exactRange
    split
    · rename_i hfits
      rw [load_of_fits hwidth hfits]
      simp only [Except.map, Nat.add_sub_cancel_left]
    · rename_i hfits
      exact load_of_not_fits hwidth hfits
  store_eq address offset bytes hlength := by
    rw [LinearMemory.store_eq memory address offset hlength, exactRange]
    split <;> rfl
  place_eq segment segments hlength := by
    rw [place, LinearMemory.store_eq memory segment.offset 0 hlength, exactRange]
    by_cases hfits : segment.offset.toNat + (0 : UInt32).toNat + segment.bytes.length ≤ memory.size
    · simp only [if_pos hfits]
    · simp only [if_neg hfits]

/-- For every size, place and width of 64 bits the check answers as it would in numbers without a
bound, unless the end of the access wraps into the memory; then the range that is answered ends
before it starts.  No array is wide enough for its access to wrap, so that the range of what is
loaded, stored or placed as data is ordered and lies in the memory. -/
theorem effectiveRange_exact_unless_wraps (size : Nat) (address offset : UInt32) (width : UInt64) :
    (effectiveRange size address offset width = exactRange size address offset width.toNat ↔
      ¬ Wraps size address offset width.toNat) ∧
    (Wraps size address offset width.toNat → ∃ stop < address.toNat + offset.toNat,
      effectiveRange size address offset width = .ok (address.toNat + offset.toNat, stop)) ∧
    (width.toNat < 1 <<< 63 → ∀ start stop,
      effectiveRange size address offset width = .ok (start, stop) →
        start = address.toNat + offset.toNat ∧ stop = start + width.toNat ∧ stop ≤ size) ∧
    ∀ memory : LinearMemory, memory.AccessesExactly := by
  refine ⟨⟨fun hexact hwraps => ?_, effectiveRange_of_not_wraps⟩, fun hwraps => ?_,
    fun hwidth start stop hrange => ?_, accessesExactly⟩
  · exact effectiveRange_ne_of_wraps hwraps hexact
  · exact ⟨_, (mod_of_overflow hwraps.1).2, effectiveRange_of_wraps hwraps⟩
  · rw [effectiveRange_of_not_wraps (not_wraps_of_lt hwidth)] at hrange
    exact exactRange_ok hrange

/-- A memory of eight zeros. -/
def eightBytes : LinearMemory := ⟨Array.replicate 8 0, 8, by simp⟩

/-- The last four bytes of a memory are loaded, and the four from one further are not; the range of
the last four ends where the memory does.  An access of the greatest width is taken to end before it
starts. -/
theorem edges_checked : eightBytes.load 4 1 3 = .ok [0, 0, 0, 0] ∧
    eightBytes.load 4 2 3 = .error .accessOutOfBounds ∧
    (∀ start stop, effectiveRange 8 1 3 4 = .ok (start, stop) → stop = start + 4 ∧ stop ≤ 8) ∧
    ∃ stop < 1, effectiveRange 8 1 0 0xFFFFFFFFFFFFFFFF = .ok (1, stop) := by
  obtain ⟨-, -, hordered, haccesses⟩ := effectiveRange_exact_unless_wraps 8 1 3 4
  obtain ⟨-, hwraps, -⟩ := effectiveRange_exact_unless_wraps 8 1 0 0xFFFFFFFFFFFFFFFF
  refine ⟨?_, ?_, fun start stop h => ?_, ?_⟩
  · have hlast : (eightBytes.toList.drop 4).take 4 = [0, 0, 0, 0] := by decide +kernel
    exact ((haccesses eightBytes).load_eq 1 3 4 (by decide)).trans (congrArg Except.ok hlast)
  · exact ((haccesses eightBytes).load_eq 2 3 4 (by decide)).trans rfl
  · exact (hordered (by decide) start stop h).2
  · exact hwraps (by decide +kernel)

/-- A memory without any bytes is said to have the range from one to zero. -/
theorem widest_access_reversed :
    effectiveRange 0 1 0 0xFFFFFFFFFFFFFFFF = .ok (1, 0) ∧
    exactRange 0 1 0 (0xFFFFFFFFFFFFFFFF : UInt64).toNat = .error .accessOutOfBounds :=
  ⟨rfl, rfl⟩

end BoundedWasm.LinearMemory
