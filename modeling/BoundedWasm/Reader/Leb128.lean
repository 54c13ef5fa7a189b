import BoundedWasm.Reader.Basic

/-!
# BoundedWasm.Reader.Leb128 — integers of variable length

An integer is written in base 128, least significant digit first, one digit to a byte; the high bit
says that another digit follows. An integer of `N` bits has at most `⌈N / 7⌉` digits. They are put
into a word of 64 bits one above the other. Of the last digit that is allowed only the low bits may
belong to the integer; those above them must be zeros, or all be like the sign (`Form.allows`).
-/

namespace BoundedWasm

namespace Leb128

/-- The most digits of an integer of `bits` bits. -/
def maxDigits (bits : Nat) : Nat := (bits + 6) / 7

/-- Whether a digit may be the last one that is allowed, when `used` of its bits belong to the
integer, and what the last digit makes of the word, which has `width` bits by then. -/
structure Form where
  allows : (used digit : Nat) → Bool
  close : (width digit : Nat) → (word : BitVec 64) → BitVec 64

namespace Form

def unsigned : Form where
  allows used digit := !(decide (used < 7) && digit >>> used != 0)
  close _ _ word := word

/-- In two's complement: the seventh bit of the last digit is the sign, and is repeated above it. -/
def signed : Form where
  allows used digit :=
    let high := digit >>> (used - 1)
    high == 0 || high == 127 >>> (used - 1)
  close width digit word :=
    if width < 64 ∧ 64 ≤ digit then word ||| (BitVec.allOnes 64 <<< width) else word

end Form

/-- Puts the digits at the head of `bytes` into a word that has `shift` bits already, and counts
them; there may be `room` of them. -/
def gather (form : Form) (bits : Nat) :
    (room shift : Nat) → (word : BitVec 64) → (bytes : List UInt8) → Except Fault (BitVec 64 × Nat)
  | 0, _, _, _ => .error .leb128TooLong
  | _ + 1, _, _, [] => .error .unexpectedEnd
  | room + 1, shift, word, b :: bytes =>
    let digit := b.toNat % 128
    if room = 0 ∧ 128 ≤ b.toNat then .error .leb128TooLong
    else if room = 0 ∧ form.allows (bits - shift) digit = false then .error .leb128TooLarge
    else
      let word := word ||| (BitVec.ofNat 64 digit <<< shift)
      if b.toNat < 128 then .ok (form.close (shift + 7) digit word, 1)
      else (gather form bits room (shift + 7) word bytes).map fun (word, count) => (word, count + 1)

end Leb128

namespace Parser

/-- Gathers the digits of an integer of `bits` bits, and steps over them. -/
def leb128 (form : Leb128.Form) (bits : Nat) : Parser (BitVec 64) := fun r =>
  match Leb128.gather form bits (Leb128.maxDigits bits) 0 0#64 r.rest with
  | .error fault => .error fault r
  | .ok (word, count) => .ok word (r.advance count)

/-- An unsigned integer of `bits` bits. -/
def uleb (bits : Nat) : Parser (BitVec 64) := leb128 .unsigned bits

/-- A signed integer of `bits` bits. -/
def sleb (bits : Nat) : Parser (BitVec 64) := leb128 .signed bits

def uleb32 : Parser UInt32 := (fun word => .ofBitVec (word.setWidth 32)) <$> uleb 32

def uleb64 : Parser UInt64 := UInt64.ofBitVec <$> uleb 64

def sleb32 : Parser (BitVec 32) := BitVec.setWidth 32 <$> sleb 32

def sleb33 : Parser Int := BitVec.toInt <$> sleb 33

def sleb64 : Parser (BitVec 64) := sleb 64

end Parser

end BoundedWasm
