import BoundedWasm.Proofs.Decode.Operands
import BoundedWasm.Proofs.Module.Slots

/-!
# BoundedWasm.Proofs.Module.Runnable — a prepared module has what its runs look up

A defined function has a code, the stretch of the code lies in the table of instructions, and every
instruction there has the immediates of its operation.
-/

namespace BoundedWasm.Module

variable {m : Module}

/-- Up to its bindings, a prepared module is well formed and shaped. -/
theorem Prepared.exists_wellFormed (h : m.Prepared) :
    ∃ decoded : Module, decoded.WellFormed ∧ decoded.Shaped ∧
      m = { decoded with bindings := m.bindings } := by
  obtain ⟨bytes, decoded, hdecoded, heq⟩ := h.exists_decoded
  have hshaped := shaped_of_decoded hdecoded
  obtain ⟨lastOrder, d, hsound, hfault, rfl⟩ := sound_of_decoded hdecoded
  exact ⟨d.module, wellFormed_of_sound hsound hfault, hshaped, heq⟩

theorem Prepared.globals_typed (h : m.Prepared) : ∀ entry ∈ m.globals.toList, entry.Typed := by
  obtain ⟨decoded, hwell, -, heq⟩ := h.exists_wellFormed
  rw [heq]
  exact hwell.globals

theorem Prepared.exists_code (h : m.Prepared) {index typeIndex : UInt32} {position : Nat}
    (hindex : m.function? index = some (.defined position typeIndex)) :
    ∃ code, m.codes.get? position = some code := by
  have hlength : m.codes.length = m.functions.length := by
    obtain ⟨decoded, hwell, -, heq⟩ := h.exists_wellFormed
    rw [heq]
    exact hwell.codes_length
  unfold function? at hindex
  split at hindex
  · cases hindex
  · obtain ⟨found, hfound, heq⟩ := Option.map_eq_some_iff.mp hindex
    cases heq
    rw [FixedVec.get?_eq] at hfound
    obtain ⟨hlt, -⟩ := List.getElem?_eq_some_iff.mp hfound
    rw [FixedVec.length_toList, ← hlength] at hlt
    exact ⟨_, dif_pos hlt⟩

/-- Bodies that tile a table lie inside it. -/
theorem stop_le_of_tiles {pool : List Instruction} {start : Nat} {codes : List Code}
    (h : Tiles pool start codes) :
    start ≤ pool.length ∧
      ∀ code ∈ codes, code.start.toNat + code.length.toNat ≤ pool.length := by
  induction codes generalizing start with
  | nil => exact ⟨Nat.le_of_eq h, fun _ hmem => by cases hmem⟩
  | cons first codes ih =>
    obtain ⟨hstart, -, -, hrest⟩ := h
    obtain ⟨hle, hcodes⟩ := ih hrest
    refine ⟨by omega, fun code hmem => ?_⟩
    rcases List.mem_cons.mp hmem with rfl | hmem
    · omega
    · exact hcodes code hmem

theorem Prepared.exists_body (h : m.Prepared) {position : Nat} {code : Code}
    (hcode : m.codes.get? position = some code) :
    ∃ body, m.body code = .ok body := by
  obtain ⟨decoded, hwell, -, heq⟩ := h.exists_wellFormed
  rw [heq] at hcode ⊢
  have hmem : code ∈ decoded.codes.toList := by
    rw [FixedVec.get?_eq] at hcode
    exact List.mem_of_getElem? hcode
  obtain ⟨-, hstop⟩ := stop_le_of_tiles hwell.bodies
  have hle := hstop code hmem
  rw [FixedVec.length_toList] at hle
  exact ⟨_, if_pos hle⟩

theorem Prepared.shaped_of_body (h : m.Prepared) {code : Code} {body : List Instruction}
    (hbody : m.body code = .ok body) : ∀ i ∈ body, i.Shaped := by
  obtain ⟨decoded, -, hshaped, heq⟩ := h.exists_wellFormed
  rw [heq] at hbody
  unfold Module.body at hbody
  simp only at hbody
  split at hbody
  · cases hbody
    intro i hi
    rw [FixedVec.toList_slice] at hi
    exact hshaped i (List.mem_of_mem_take (List.mem_of_mem_drop hi))
  · cases hbody

end BoundedWasm.Module
