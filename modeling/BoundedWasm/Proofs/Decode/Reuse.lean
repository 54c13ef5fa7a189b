import BoundedWasm.Decode.Module
import BoundedWasm.Proofs.ActionLogic

/-!
# BoundedWasm.Proofs.Decode.Reuse — decoding into storage that is used again

What decoding makes of its bytes does not depend on what stood in the storage before, be it a module
with bindings or the remains of a decoding that failed (`decode_eq`).  A decoding that fails leaves
nothing behind, and after any number of decodings the storage shows the last one only.
-/

namespace BoundedWasm.Assembly

open BoundedWasm.Action

/-- The storage after decoding several byte strings into it, one after the other, whatever the
answers. -/
def decodeEach (inputs : List (List UInt8)) (a : Assembly) : Assembly :=
  inputs.foldl (fun a bytes => (decode bytes).after a) a

theorem decodeEach_concat (inputs : List (List UInt8)) (bytes : List UInt8) (a : Assembly) :
    a.decodeEach (inputs ++ [bytes]) = (decode bytes).after (a.decodeEach inputs) := by
  simp [decodeEach, List.foldl_append]

/-- Decoding in used storage is decoding in new storage, except that the log goes on from where it
was. -/
theorem decode_eq (bytes : List UInt8) (a : Assembly) :
    decode bytes a = match decode bytes {} with
      | .ok _ fresh => .ok () ⟨fresh.module, a.log ++ fresh.log⟩
      | .error fault fresh => .error fault ⟨fresh.module, a.log ++ fresh.log⟩ := by
  have hstorage : ({} : Assembly).module.clear = a.module.clear :=
    (Module.clear_eq_empty _).trans (Module.clear_eq_empty _).symm
  unfold decode
  rw [hstorage]
  cases SectionReader.ofBytes bytes with
  | error fault => simp
  | ok sections =>
    cases hrun : Decoding.decodeAll ⟨sections, a.module.clear, false⟩ with
    | ok _ d => simp [hrun]
    | error fault d => simp [hrun]

/-- A decoding that fails leaves an empty module. -/
theorem module_of_decode_error {bytes : List UInt8} {a a' : Assembly} {fault : Fault}
    (h : decode bytes a = .error fault a') : a'.module = .empty := by
  unfold decode at h
  cases hsections : SectionReader.ofBytes bytes with
  | error fault =>
    rw [hsections] at h
    cases h
    exact Module.clear_eq_empty _
  | ok sections =>
    cases hrun : Decoding.decodeAll ⟨sections, a.module.clear, false⟩ with
    | ok _ d =>
      simp only [hsections, hrun] at h
      cases h
    | error fault d =>
      simp only [hsections, hrun] at h
      cases h
      exact Module.clear_eq_empty _

/-- Decoding into used storage gives the answer of decoding into new storage, and all or nothing of
the module. -/
theorem decode_ends (bytes : List UInt8) (a : Assembly) :
    (decode bytes).Ends a (fun _ a' => Module.ofBytes bytes = .ok a'.module)
      (fun fault a' => Module.ofBytes bytes = .error fault ∧ a'.module = .empty) := by
  apply ends_of
  · intro _ a' hrun
    rw [decode_eq] at hrun
    unfold Module.ofBytes
    cases hfresh : decode bytes {} with
    | ok _ fresh =>
      rw [hfresh] at hrun
      cases hrun
      rfl
    | error fault fresh =>
      rw [hfresh] at hrun
      cases hrun
  · intro fault a' hrun
    have hempty := module_of_decode_error hrun
    rw [decode_eq] at hrun
    unfold Module.ofBytes
    cases hfresh : decode bytes {} with
    | ok _ fresh =>
      rw [hfresh] at hrun
      cases hrun
    | error other fresh =>
      rw [hfresh] at hrun
      cases hrun
      exact ⟨rfl, hempty⟩

/-- After a decoding the storage holds the module that the bytes spell, or an empty one. -/
theorem module_after_decode (bytes : List UInt8) (a : Assembly) :
    ((decode bytes).after a).module
      = match Module.ofBytes bytes with
        | .ok m => m
        | .error _ => .empty := by
  have hends := decode_ends bytes a
  unfold after
  cases hrun : decode bytes a with
  | ok _ a' =>
    rw [hends.of_ok hrun]
  | error fault a' =>
    obtain ⟨hfault, hempty⟩ := hends.of_error hrun
    rw [hfault]
    exact hempty

/-- Decoding into storage that was used before, in whatever way, gives the same answer and the same
module as decoding into a new one, and an empty module when it fails; so after a series of decodings
only the last byte string matters. -/
theorem decode_independent_of_history (a : Assembly) (bytes : List UInt8) :
    (decode bytes).Ends a (fun _ a' => Module.ofBytes bytes = .ok a'.module)
        (fun fault a' => Module.ofBytes bytes = .error fault ∧ a'.module = .empty) ∧
      ∀ (other : Assembly) (earlier earlier' : List (List UInt8)),
        (a.decodeEach (earlier ++ [bytes])).module
          = (other.decodeEach (earlier' ++ [bytes])).module := by
  refine ⟨decode_ends bytes a, fun other earlier earlier' => ?_⟩
  rw [decodeEach_concat, decodeEach_concat, module_after_decode, module_after_decode]

end BoundedWasm.Assembly
