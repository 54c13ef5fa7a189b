import BoundedWasm.Bytes

/-!
# BoundedWasm.Bytes.Lemmas — bytes spell numbers and numbers spell bytes

Writing a number in `width` bytes and reading them again keeps its lowest `8 * width` bits, and what
bytes spell fits in eight bits for each of them.
-/

namespace BoundedWasm.Bytes

theorem one_shiftLeft_succ (width : Nat) : 1 <<< (8 * (width + 1)) = 256 * 1 <<< (8 * width) := by
  rw [Nat.mul_succ, Nat.add_comm, Nat.shiftLeft_add]
  simp only [Nat.shiftLeft_eq]
  omega

theorem ofLittleEndian_toLittleEndian (width n : Nat) :
    ofLittleEndian (toLittleEndian width n) = n % (1 <<< (8 * width)) := by
  induction width generalizing n with
  | zero => simp [toLittleEndian, ofLittleEndian, Nat.mod_one]
  | succ width ih =>
    rw [one_shiftLeft_succ, Nat.mod_mul]
    simp [toLittleEndian, ofLittleEndian, ih]

theorem ofLittleEndian_lt (bytes : List UInt8) :
    ofLittleEndian bytes < 1 <<< (8 * bytes.length) := by
  induction bytes with
  | nil => simp [ofLittleEndian]
  | cons b bytes ih =>
    have hb : b.toNat < 256 := b.toNat_lt
    rw [List.length_cons, one_shiftLeft_succ, ofLittleEndian]
    omega

end BoundedWasm.Bytes
