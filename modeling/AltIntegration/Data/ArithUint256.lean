import Mathlib.Data.Nat.Size

/-!
This module contains 256 bit numbers and their compact form: 23 bits of mantissa, a sign bit and 8 bits of
exponent, which counts bytes.
-/

namespace ArithUint256

def size : Nat := Nat.pow 2 256

/-- The number behind a compact form. Bits that do not fit are lost. -/
def fromBits (bits : Nat) : Nat :=
  let nSize := bits / Nat.pow 2 24
  let nWord := bits % Nat.pow 2 23
  if nSize ≤ 3 then
    nWord / Nat.pow 2 (8 * (3 - nSize))
  else
    nWord * Nat.pow 2 (8 * (nSize - 3)) % size

/-- The compact form of a number. Low bits that do not fit into the mantissa are lost. -/
def toBits (n : Nat) : Nat :=
  let nSize := (n.size + 7) / 8
  let nCompact := if nSize ≤ 3 then n * Nat.pow 2 (8 * (3 - nSize)) else n / Nat.pow 2 (8 * (nSize - 3))
  -- a mantissa that would set the sign bit goes into the next exponent
  if nCompact / Nat.pow 2 23 % 2 = 1 then
    nCompact / 256 + (nSize + 1) * Nat.pow 2 24
  else
    nCompact + nSize * Nat.pow 2 24

end ArithUint256
