import BoundedWasm.Proofs.ActionLogic
import BoundedWasm.Proofs.Reader.Gathering
import BoundedWasm.Reader.Name

/-!
# BoundedWasm.Proofs.Reader.Advance — parsers step over what lies ahead of them

A reader that was made for some bytes stands somewhere in them, and what is still to be read are
those behind its position (`Reader.StandsIn`).  A parser `Advances` when it steps over some of these
bytes, whether it succeeds or fails, and when neither their number nor the outcome depends on its
position; integers of variable length are read so.
-/

namespace BoundedWasm

open BoundedWasm.Action

namespace Reader

/-- The reader stands in `bytes`: it is not past their end, and all of them behind its position are
still to be read. -/
structure StandsIn (bytes : List UInt8) (r : Reader) : Prop where
  position_le : r.position ≤ bytes.length
  rest_eq : r.rest = bytes.drop r.position

variable {bytes : List UInt8} {r : Reader}

theorem standsIn_ofBytes (bytes : List UInt8) : (ofBytes bytes).StandsIn bytes :=
  ⟨Nat.zero_le _, rfl⟩

theorem StandsIn.remaining_eq (h : r.StandsIn bytes) : r.remaining = bytes.length - r.position := by
  rw [remaining, h.rest_eq, List.length_drop]

theorem StandsIn.advance (h : r.StandsIn bytes) {count : Nat} (hcount : count ≤ r.remaining) :
    (r.advance count).StandsIn bytes := by
  have hle := h.position_le
  rw [h.remaining_eq] at hcount
  refine ⟨?_, ?_⟩
  · show r.position + count ≤ bytes.length
    omega
  · show r.rest.drop count = bytes.drop (r.position + count)
    rw [h.rest_eq, List.drop_drop]

/-- What is seen in the next bytes lies in what is still to be read. -/
theorem width_le_of_peekLittle? {width n : Nat} (h : r.peekLittle? width = some n) :
    width ≤ r.remaining := by
  unfold peekLittle? peekBytes? at h
  split at h
  · assumption
  · cases h

theorem advance_advance (r : Reader) (count more : Nat) :
    (r.advance count).advance more = r.advance (count + more) := by
  simp only [advance, List.drop_drop, Nat.add_assoc]

end Reader

namespace Parser

variable {α β : Type}

/-- Which bytes the parser steps over, and with what outcome, is settled by the bytes that are still
to be read. -/
def Advances (p : Parser α) : Prop :=
  ∀ rest, ∃ outcome count, count ≤ rest.length ∧
    ∀ position, p ⟨position, rest⟩
      = Action.ofExcept outcome ((⟨position, rest⟩ : Reader).advance count)

theorem Advances.map {p : Parser α} (hp : Advances p) (f : α → β) : Advances (f <$> p) := by
  intro rest
  obtain ⟨outcome, count, hcount, hrun⟩ := hp rest
  refine ⟨outcome.map f, count, hcount, fun position => ?_⟩
  rw [map_run, hrun]
  cases outcome <;> rfl

/-! ### Integers of variable length -/

theorem advances_leb128 (form : Leb128.Form) (bits : Nat) : Advances (leb128 form bits) := by
  intro rest
  cases hgather : Leb128.gather form bits (Leb128.maxDigits bits) 0 0#64 rest with
  | error fault =>
    refine ⟨.error fault, 0, Nat.zero_le _, fun position => ?_⟩
    simp only [leb128, hgather]
    rfl
  | ok gathered =>
    obtain ⟨word, count⟩ := gathered
    refine ⟨.ok word, count, Leb128.count_le_of_gather hgather, fun position => ?_⟩
    simp only [leb128, hgather]
    rfl

theorem advances_uleb32 : Advances uleb32 := (advances_leb128 _ _).map _

end Parser

end BoundedWasm
