/-!
# BoundedWasm.Bytes — numbers as bytes

The number that a list of bytes spells, least significant byte first (`ofLittleEndian`) or last
(`ofBigEndian`), and the bytes of a number (`toLittleEndian`).
-/

namespace BoundedWasm.Bytes

/-- The number whose base-256 digits are `bytes`, least significant first. -/
def ofLittleEndian : List UInt8 → Nat
  | [] => 0
  | b :: bytes => b.toNat + 256 * ofLittleEndian bytes

def ofBigEndian (bytes : List UInt8) : Nat := ofLittleEndian bytes.reverse

/-- The lowest `width` base-256 digits of `n`, least significant first. -/
def toLittleEndian : (width : Nat) → (n : Nat) → List UInt8
  | 0, _ => []
  | width + 1, n => UInt8.ofNat n :: toLittleEndian width (n / 256)

@[simp] theorem length_toLittleEndian (width n : Nat) :
    (toLittleEndian width n).length = width := by
  induction width generalizing n with
  | zero => rfl
  | succ width ih => simp [toLittleEndian, ih]

end BoundedWasm.Bytes
