import BoundedWasm.Native

/-!
# BoundedWasm.Cells — words of the host

Cells hold 32 bits each and are shared by all machines of a host. Every cell can be read and
written; one that was never written holds zero.
-/

namespace BoundedWasm

structure Cells where
  words : List (BitVec 32) := []
  deriving DecidableEq, Inhabited

namespace Cells

def read (cells : Cells) (id : CellId) : BitVec 32 := cells.words.getD id 0

/-- Writes a cell, after as many cells of zero as are missing before it. -/
def write (cells : Cells) (id : CellId) (bits : BitVec 32) : Cells :=
  ⟨(cells.words ++ List.replicate (id + 1 - cells.words.length) 0).set id bits⟩

theorem read_write (cells : Cells) (id other : Nat) (bits : BitVec 32) :
    (cells.write id bits).read other = if other = id then bits else cells.read other := by
  unfold read write
  simp only [List.getD_eq_getElem?_getD, List.getElem?_set, List.length_append,
    List.length_replicate]
  by_cases h : id = other
  · subst h
    have h1 : id < cells.words.length + (id + 1 - cells.words.length) := by omega
    simp [h1]
  · have h' : ¬ other = id := fun e => h e.symm
    simp only [h, h', if_false]
    by_cases h1 : other < cells.words.length
    · rw [List.getElem?_append_left h1]
    · rw [List.getElem?_append_right (Nat.le_of_not_lt h1),
        List.getElem?_eq_none (Nat.le_of_not_lt h1)]
      simp [List.getElem?_replicate]
      split <;> rfl

end Cells

end BoundedWasm
