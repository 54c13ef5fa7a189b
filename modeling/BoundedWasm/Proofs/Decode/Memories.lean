import BoundedWasm.Proofs.Decode.Module
import BoundedWasm.Proofs.Decode.Tables

/-!
# BoundedWasm.Proofs.Decode.Memories — how many memories a decoded module has

The section of memories comes after that of imports and is there at most once.  It is refused beside
an imported memory, and the table that it goes to holds one memory, so that a decoded module defines
at most one and none if it imports any (`memories_of_decoded`).  Imported memories are not counted
among themselves: a module that imports two of them is accepted (`twin_decodes`).
-/

namespace BoundedWasm

open BoundedWasm.Action Limits

namespace Draft

variable {id : SectionId} {d d' : Draft}

theorem memories_of_touches (hid : id ≠ .memory) (h : Touches id d d') :
    d'.module.memories = d.module.memories := by
  have hsame := congrArg Module.memories h
  cases id with
  | memory => exact absurd rfl hid
  | _ => exact hsame

theorem importedMemoryCount_of_touches (hid : id ≠ .imports) (h : Touches id d d') :
    d'.module.importedMemoryCount = d.module.importedMemoryCount := by
  have hsame := congrArg Module.importedMemoryCount h
  cases id with
  | imports => exact absurd rfl hid
  | _ => exact hsame

/-- Beside an imported memory only an empty section of memories is read. -/
theorem memorySection_beside (d : Draft) :
    memorySection.Ends d
      (fun _ d' => 0 < d.module.importedMemoryCount → d'.module.memories = d.module.memories)
      (fun _ _ => True) := by
  unfold memorySection
  rw [ends_bind, ends_get, ends_bind]
  refine ends_reading (Parser.yields_any _) fun count r _ => ?_
  simp only
  split
  · trivial
  · rename_i hcount
    cases count with
    | zero => exact fun _ => rfl
    | succ count =>
      exact ends_of (fun _ _ _ himported => absurd ⟨Nat.succ_pos _, himported⟩ hcount)
        (fun _ _ _ => trivial)

end Draft

namespace Decoding

/-- No memory is defined before the section of memories, and none beside an imported one. -/
structure OneSource (lastOrder : Nat) (d : Decoding) : Prop where
  unread : lastOrder < SectionId.memory.order → d.module.memories.length = 0
  beside : 0 < d.module.importedMemoryCount → d.module.memories.length = 0

theorem oneSource_invariant : Invariant OneSource where
  of_module h hmodule _ := by
    refine ⟨?_, ?_⟩ <;> rw [hmodule]
    · exact h.unread
    · exact h.beside
  contents_ends {found lastOrder d} h hlt := by
    have htouches := Draft.contents_touches found.id ⟨.ofBytes found.payload, d.module⟩
    by_cases hid : found.id = .memory
    · refine ends_contents (P := fun m => 0 < m.importedMemoryCount → m.memories.length = 0) ?_
        fun _ m hm => ⟨⟨fun hlt' => ?_, hm⟩, rfl⟩
      · rw [hid] at htouches ⊢
        refine ((Draft.memorySection_beside _).and htouches).mono ?_ (fun _ _ _ => trivial)
        rintro _ d' ⟨hbeside, htouches⟩ himported
        rw [Draft.importedMemoryCount_of_touches (by decide) htouches] at himported
        rw [hbeside himported]
        exact h.beside himported
      · rw [hid] at hlt'
        omega
    · refine ends_contents (P := fun m => m.memories = d.module.memories ∧
        (found.id ≠ .imports → m.importedMemoryCount = d.module.importedMemoryCount)) ?_ ?_
      · refine htouches.mono (fun _ d' hd' => ?_) (fun _ _ _ => trivial)
        exact ⟨Draft.memories_of_touches hid hd',
          fun himports => Draft.importedMemoryCount_of_touches himports hd'⟩
      · rintro _ m ⟨hmemories, hcount⟩
        refine ⟨⟨fun hlt' => ?_, fun himported => ?_⟩, rfl⟩ <;>
          show m.memories.length = 0 <;> rw [hmemories]
        · exact h.unread (Nat.lt_trans hlt hlt')
        · by_cases himports : found.id = .imports
          · -- the imports come before the memories
            rw [himports] at hlt
            exact h.unread (Nat.lt_trans hlt (by decide))
          · exact h.beside (hcount himports ▸ himported)

end Decoding

namespace Module

/-- A decoded module defines at most one memory and none beside an imported one, so that it has at
most one memory unless it imports several. -/
theorem memories_of_decoded {bytes : List UInt8} {m : Module} (h : Module.ofBytes bytes = .ok m) :
    m.memories.length ≤ 1 ∧ (0 < m.importedMemoryCount → m.memories.length = 0) ∧
      (m.importedMemoryCount + m.memories.length ≤ 1 ↔ m.importedMemoryCount ≤ 1) := by
  have hempty : Module.empty.memories.length = 0 := rfl
  obtain ⟨_, d, hsource, -, rfl⟩ := Decoding.oneSource_invariant.of_decoded
    (fun _ => ⟨fun _ => hempty, fun _ => hempty⟩) h
  have hle : d.module.memories.length ≤ 1 := d.module.memories.length_le
  refine ⟨hle, hsource.beside, fun hall => by omega, fun himported => ?_⟩
  rcases Nat.eq_zero_or_pos d.module.importedMemoryCount with hnone | hsome
  · omega
  · rw [hsource.beside hsome]
    exact himported

theorem adder_memories : ∃ m, Module.ofBytes adderBytes = .ok m ∧ m.memories.length ≤ 1 ∧
    (0 < m.importedMemoryCount → m.memories.length = 0) ∧
      (m.importedMemoryCount + m.memories.length ≤ 1 ↔ m.importedMemoryCount ≤ 1) := by
  obtain ⟨m, hm⟩ := adder_decodes
  exact ⟨m, hm, memories_of_decoded hm⟩

/-- Two memories are imported, of one page each, and there is nothing else. -/
def twinBytes : List UInt8 :=
  [0x00, 0x61, 0x73, 0x6D, 0x01, 0x00, 0x00, 0x00,
    0x02, 0x0F, 0x02, 0x01, 0x61, 0x01, 0x62, 0x02, 0x00, 0x01,
    0x01, 0x61, 0x01, 0x63, 0x02, 0x00, 0x01]

/-- Both imported memories are accepted. -/
theorem twin_decodes :
    ∃ m, Module.ofBytes twinBytes = .ok m ∧ m.importedMemoryCount + m.memories.length = 2 := by
  have h : (Module.ofBytes twinBytes).toOption.map
      (fun m => m.importedMemoryCount + m.memories.length) = some 2 := by decide +kernel
  obtain ⟨m, hm, hcount⟩ := Option.map_eq_some_iff.mp h
  exact ⟨m, ok_of_mem_toOption hm, hcount⟩

end Module

end BoundedWasm
