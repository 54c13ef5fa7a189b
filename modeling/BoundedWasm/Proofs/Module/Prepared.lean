import BoundedWasm.Binding
import BoundedWasm.Proofs.Decode.Module
import BoundedWasm.Proofs.Machine.Frame

/-!
# BoundedWasm.Proofs.Module.Prepared — modules that are ready to run

A module is prepared when it was decoded and then had any number of natives bound to its imports.
Binding changes nothing but the bindings, so what decoding established about the rest still holds.
-/

namespace BoundedWasm.Module

/-- A decoded module, after any bindings. -/
inductive Prepared : Module → Prop
  | decoded {bytes : List UInt8} {m : Module} (h : Module.ofBytes bytes = .ok m) : Prepared m
  | bindFunction {m bound : Module} {moduleName field : String} {signature : Signature}
    {callback : Native} (hm : Prepared m)
    (h : m.bindFunction? moduleName field signature callback = .ok (some bound)) : Prepared bound
  | bindVariable {m bound : Module} {field : String} {cell : CellId} (hm : Prepared m)
    (h : m.bindVariable? field cell = .ok (some bound)) : Prepared bound

variable {m bound : Module}

theorem eq_of_bind? {select : Import → Bool} {fault? : Import → Option Fault}
    {binding : NativeBinding} (h : m.bind? select fault? binding = .ok (some bound)) :
    bound = { m with bindings := bound.bindings } := by
  simp only [bind?] at h
  split at h
  · cases h
  · split at h
    · cases h
    · cases h
      rfl

/-- Up to its bindings, a prepared module is one that was decoded. -/
theorem Prepared.exists_decoded (h : m.Prepared) :
    ∃ bytes decoded, Module.ofBytes bytes = .ok decoded ∧
      m = { decoded with bindings := m.bindings } := by
  induction h with
  | decoded h => exact ⟨_, _, h, rfl⟩
  | bindFunction hm h ih =>
    obtain ⟨bytes, decoded, hdecoded, heq⟩ := ih
    exact ⟨bytes, decoded, hdecoded, by rw [eq_of_bind? h, heq]⟩
  | bindVariable hm h ih =>
    obtain ⟨bytes, decoded, hdecoded, heq⟩ := ih
    exact ⟨bytes, decoded, hdecoded, by rw [eq_of_bind? h, heq]⟩

theorem Prepared.countsLocals (h : m.Prepared) : m.CountsLocals := by
  obtain ⟨bytes, decoded, hdecoded, heq⟩ := h.exists_decoded
  obtain ⟨lastOrder, d, hsound, -, rfl⟩ := sound_of_decoded hdecoded
  rw [heq]
  exact hsound.coherent.codes

theorem Prepared.functions_lt (h : m.Prepared) :
    ∀ index ∈ m.functions.toList, index.toNat < m.types.length := by
  obtain ⟨bytes, decoded, hdecoded, heq⟩ := h.exists_decoded
  obtain ⟨lastOrder, d, hsound, -, rfl⟩ := sound_of_decoded hdecoded
  rw [heq]
  exact hsound.coherent.functions

/-- The type of a defined function exists. -/
theorem Prepared.exists_type (h : m.Prepared) {index typeIndex : UInt32} {position : Nat}
    (hindex : m.function? index = some (.defined position typeIndex)) :
    ∃ type, m.types.get? typeIndex.toNat = some type := by
  unfold function? at hindex
  split at hindex
  · cases hindex
  · obtain ⟨found, hfound, heq⟩ := Option.map_eq_some_iff.mp hindex
    cases heq
    rw [FixedVec.get?_eq] at hfound
    have hlt := h.functions_lt typeIndex (List.mem_of_getElem? hfound)
    rw [FixedVec.get?, dif_pos hlt]
    exact ⟨_, rfl⟩

/-- The sample module. -/
def adder : Module :=
  match Module.ofBytes adderBytes with
  | .ok m => m
  | .error _ => .empty

theorem adder_prepared : adder.Prepared := by
  obtain ⟨m, hm⟩ := adder_decodes
  have hadder : adder = m := by
    unfold adder
    rw [hm]
  rw [hadder]
  exact .decoded hm

end BoundedWasm.Module
