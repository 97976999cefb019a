import AltIntegration.Serde.ReadStream

/-!
This module contains the split format of PoP publication data in a BTC transaction: three magic bytes, a
descriptor byte and a table of chunk descriptors, read as one number, which say at which places of the
transaction the sections of the data are.
-/

namespace AltIntegration

namespace SplitFormat

open ReadStream

/-- The magic bytes. -/
def magic : List UInt8 := [0x92, 0x7a, 0x59]

section

variable (descriptor : UInt8)

def chunks : Nat := descriptor.toNat / 16

/-- The bits of an offset in the table. -/
def offsetLength : Nat := 4 + descriptor.toNat / 4 % 4 * 4

/-- The bits of a section's length in the table. -/
def sectionLength : Nat := 4 + descriptor.toNat % 4

/-- Every chunk has an offset, every chunk but the last one a length. -/
def tableBits : Nat := chunks descriptor * offsetLength descriptor + (chunks descriptor - 1) * sectionLength descriptor

def tableBytes : Nat := if chunks descriptor = 0 then 0 else tableBits descriptor / 8 + 1

end

/-- A descriptor and the number in its table. -/
structure Table where
  descriptor : UInt8
  number : Nat
  deriving DecidableEq, Repr

namespace Table

variable (t : Table)

/-- The unused low bits of the table, and the bits of the chunks behind chunk `i`. -/
def chunkOffset (i : Nat) : Nat :=
  8 * tableBytes t.descriptor - tableBits t.descriptor + i * (offsetLength t.descriptor + sectionLength t.descriptor)

/-- The offset of chunk `i`; the chunks are numbered from the last one, which is chunk 0. -/
def offset (i : Nat) : Nat := t.number / 2 ^ t.chunkOffset i % 2 ^ offsetLength t.descriptor

/-- The length of chunk `i`, which is not the last one. -/
def length (i : Nat) : Nat :=
  t.number / 2 ^ (t.chunkOffset i - sectionLength t.descriptor) % 2 ^ sectionLength t.descriptor

/--
The last `n` chunks give `popData`, where the section before them ends at `position`. The last section takes
what is left of the data.
-/
def Gives (btcTx : List UInt8) : Nat → Nat → List UInt8 → Prop
  | 0, _, popData => popData = []
  | 1, position, popData =>
    position + t.offset 0 + popData.length ≤ btcTx.length ∧
      slice btcTx (position + t.offset 0) popData.length = popData
  | i + 2, position, popData =>
    position + t.offset (i + 1) + t.length (i + 1) ≤ btcTx.length ∧ t.length (i + 1) ≤ popData.length ∧
      slice btcTx (position + t.offset (i + 1)) (t.length (i + 1)) = popData.take (t.length (i + 1)) ∧
      Gives btcTx (i + 1) (position + t.offset (i + 1) + t.length (i + 1)) (popData.drop (t.length (i + 1)))

/-- Why a table gives no data: a section reaches, or already starts, behind the end of the transaction. -/
inductive Fault where
  | cut
  | beyondEnd
  deriving DecidableEq, Repr

/-- The length of the section of chunk `i`; that of the last section is a difference of two 32-bit numbers. -/
def sectionSize (popDataSize total i : Nat) : Nat :=
  if i = 0 then (popDataSize.toUInt32 - total.toUInt32).toNat else t.length i

/-- The bytes of the last `n` chunks, where the sections before them end at `position` and have `total` bytes. -/
def sections (btcTx : List UInt8) (popDataSize : Nat) : Nat → Nat → Nat → Except Fault (List UInt8)
  | 0, _, _ => .ok []
  | i + 1, position, total =>
    let start := position + t.offset i
    let size := t.sectionSize popDataSize total i
    if btcTx.length < start then
      .error .beyondEnd
    else if start + size ≤ btcTx.length then
      (slice btcTx start size ++ ·) <$> sections btcTx popDataSize i (start + size) (total + size)
    else
      .error .cut

end Table

/-- The table behind the magic bytes at `p`, if it lies inside `btcTx`. -/
def tableAt (btcTx : List UInt8) (p : Nat) : Option Table :=
  btcTx[p + 3]?.bind (fun descriptor =>
    if p + 4 + tableBytes descriptor ≤ btcTx.length then
      some ⟨descriptor, Bytes.toNat (slice btcTx (p + 4) (tableBytes descriptor))⟩
    else
      none)

/-- The magic bytes at `p` and what follows them describe `popData`. -/
def DescribesAt (popData btcTx : List UInt8) (p : Nat) : Prop :=
  slice btcTx p 3 = magic ∧ ∃ t ∈ tableAt btcTx p, t.Gives btcTx (chunks t.descriptor) 0 popData

/-- `btcTx` contains `popData` in the split format. -/
def Describes (popData btcTx : List UInt8) : Prop := ∃ p, DescribesAt popData btcTx p

/-- What is found behind magic bytes. -/
inductive Outcome where
  | gives
  | differs
  | cut
  | beyondEnd
  deriving DecidableEq, Repr

/-- What is found behind the magic bytes at `p`; a table that does not lie inside `btcTx` is cut. -/
def outcomeAt (popData btcTx : List UInt8) (p : Nat) : Outcome :=
  match tableAt btcTx p with
  | none => .cut
  | some t =>
    match t.sections btcTx popData.length (chunks t.descriptor) 0 0 with
    | .ok bytes => if popData = bytes then .gives else .differs
    | .error .cut => .cut
    | .error .beyondEnd => .beyondEnd

/--
Where a scan from left to right stops at magic bytes, in the rest of a transaction from `p` on. A byte that
breaks the magic is not looked at again, and less than six bytes are not looked at.
-/
def reachedFrom : Nat → List UInt8 → List Nat
  | p, a :: b :: c :: l =>
    if l.length < 3 then []
    else if a ≠ 0x92 then reachedFrom (p + 1) (b :: c :: l)
    else if b ≠ 0x7a then reachedFrom (p + 2) (c :: l)
    else if c ≠ 0x59 then reachedFrom (p + 3) l
    else p :: reachedFrom (p + 3) l
  | _, _ => []

def reached (btcTx : List UInt8) : List Nat := reachedFrom 0 btcTx

end SplitFormat

end AltIntegration
