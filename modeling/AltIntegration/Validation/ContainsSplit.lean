import AltIntegration.Validation.SplitFormat

/-!
This module contains `containsSplit` of `stateless_validation.cpp`: a scan of a BTC transaction for the magic
bytes of the split format.
-/

namespace AltIntegration

open ReadStream

/-- `getIntFromBits`; an index behind the last bit has no defined effect. -/
def getIntFromBits (bits : List Bool) (fromIndex toIndex : Nat) : Decoder Nat :=
  go (toIndex - fromIndex) fromIndex 0
where
  /-- The next `n` bits, from index `j` on -/
  go : Nat → Nat → Nat → Decoder Nat
    | 0, _, value => pure value
    | n + 1, j, value =>
      match bits[j]? with
      | none => throw .outOfBounds
      | some bit => go n (j + 1) (if bit then value + 1 <<< (j - fromIndex) else value)

namespace ContainsSplit

/-- `chunks`, `offsetLength` and `sectionLength` -/
structure Descriptor where
  chunks : UInt32 := 0
  offsetLength : UInt32 := 4
  sectionLength : UInt32 := 4
  deriving DecidableEq, Repr

namespace Descriptor

/-- What bit `i` of the descriptor byte adds, if it is set -/
def addBit (descriptor : UInt8) (d : Descriptor) (i : Nat) : Descriptor :=
  if (descriptor.toNat >>> i) &&& 1 ≠ 0 then
    if i < 2 then { d with sectionLength := d.sectionLength + (1 <<< i).toUInt32 }
    else if i < 4 then { d with offsetLength := d.offsetLength + (1 <<< i).toUInt32 }
    else { d with chunks := d.chunks + (1 <<< (i - 4)).toUInt32 }
  else d

def ofByte (descriptor : UInt8) : Descriptor := (List.range 8).foldl (addBit descriptor) {}

variable (d : Descriptor)

def chunkDescriptorBitLength : UInt32 := d.chunks * d.offsetLength + d.sectionLength * (d.chunks - 1)

def chunkDescriptorBytesLength : UInt32 :=
  (d.chunkDescriptorBitLength + 8 - d.chunkDescriptorBitLength % 8) / 8

def waste : UInt32 := d.chunkDescriptorBytesLength * 8 - d.chunkDescriptorBitLength

def chunkOffset (i : Nat) : UInt32 := d.waste + i.toUInt32 * (d.offsetLength + d.sectionLength)

end Descriptor

/-- `chunkDescriptorLength`: the index behind the last bit that is set -/
def chunkDescriptorLength : List Bool → Nat
  | [] => 0
  | bit :: bits => if bits.any id then chunkDescriptorLength bits + 1 else if bit then 1 else 0

/-- Extract the sections of the chunks below `n`. -/
def extract (popDataSize : Nat) (d : Descriptor) (chunkDescriptor : List Bool) :
    Nat → UInt32 → List UInt8 → Decoder (List UInt8)
  | 0, _, extracted => pure extracted
  | i + 1, totalBytesRead, extracted => do
    let chunkOffset := d.chunkOffset i
    let limit := min (chunkDescriptorLength chunkDescriptor).toUInt32 (chunkOffset + d.offsetLength)
    let sectionOffsetValue ← getIntFromBits chunkDescriptor chunkOffset.toNat limit.toNat
    let sectionLengthValue ←
      if i = 0 then
        pure (popDataSize.toUInt32 - totalBytesRead)
      else do
        let n ← getIntFromBits chunkDescriptor (chunkOffset - d.sectionLength).toNat chunkOffset.toNat
        pure n.toUInt32
    modify fun s => s.setPosition (s.position + sectionOffsetValue)
    let bytes ← orInvalid ["bad-section-length", toString i] (readSlice sectionLengthValue.toNat)
    extract popDataSize d chunkDescriptor i (totalBytesRead + sectionLengthValue) (extracted ++ bytes)

/-- Behind the magic bytes: does the descriptor describe `popData`? -/
def matchesHere (popData : List UInt8) : Decoder Bool := do
  let lastPos := (← get).position
  let byte ← orInvalid ["bad-descriptor"] (readBE 1)
  let d := Descriptor.ofByte byte.toUInt8
  let out ← orInvalid ["bad-descriptor-bytes"] (readSlice d.chunkDescriptorBytesLength.toNat)
  let chunkDescriptor := Bytes.bits out.reverse
  modify fun s => s.setPosition 0
  let extracted ← extract popData.length d chunkDescriptor d.chunks.toNat 0 []
  modify fun s => s.setPosition lastPos
  pure (popData == extracted)

/-- `VBK_COMPARE_MAGIC` -/
def compareMagic (i : Nat) (magic : UInt8) : Decoder Bool := do
  let byte ← orInvalid ["bad-magic", toString i] (readBE 1)
  pure (byte == magic.toNat)

/-- The `while` loop, for at most `fuel` turns. -/
def loop (popData : List UInt8) : Nat → Decoder Bool
  | 0 => throw .outOfFuel
  | fuel + 1 => do
    let s ← get
    if s.remaining ≤ 5 then
      pure false
    else if !(← compareMagic 0 0x92) then
      loop popData fuel
    else if !(← compareMagic 1 0x7a) then
      loop popData fuel
    else if !(← compareMagic 2 0x59) then
      loop popData fuel
    else if ← matchesHere popData then
      pure true
    else
      loop popData fuel

end ContainsSplit

/-- `containsSplit`; every turn of the loop reads at least one byte. -/
def containsSplit (popData btcTx : List UInt8) : Except Failure Bool :=
  decode (ContainsSplit.loop popData (btcTx.length + 1)) btcTx

end AltIntegration
