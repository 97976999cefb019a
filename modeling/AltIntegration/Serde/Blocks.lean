import AltIntegration.Serde.Serde

/-!
This module contains the block headers of `entities/btcblock.hpp` and `entities/vbkblock.hpp` with all their
fields, and their encodings. The hash that a header caches is left out.
-/

namespace AltIntegration.Serde

open ReadStream

/-- `Blob<N>` -/
structure Blob (n : Nat) where
  bytes : List UInt8
  size : bytes.length = n
  deriving DecidableEq, Repr

namespace Blob

variable {n : Nat}

def zero (n : Nat) : Blob n := ⟨List.replicate n 0, List.length_replicate⟩

def reverse (b : Blob n) : Blob n := ⟨b.bytes.reverse, by rw [List.length_reverse, b.size]⟩

/-- `assign` to a new blob, all of whose bytes are zero -/
def assign (n : Nat) (slice : List UInt8) : Decoder (Blob n) :=
  if h : slice.length ≤ n then
    pure ⟨slice ++ List.replicate (n - slice.length) 0, by
      rw [List.length_append, List.length_replicate]
      omega⟩
  else
    throw .assertion

def write (b : Blob n) : Encoding := Serde.write b.bytes

/-- A slice of the size of the blob. -/
def read (n : Nat) : Decoder (Blob n) := do
  let slice ← readSlice n
  assign n slice

theorem assign_bytes (b : Blob n) : assign n b.bytes = pure b := by
  have hzero : n - b.bytes.length = 0 := by
    rw [b.size]
    omega
  rw [assign, dif_pos (Nat.le_of_eq b.size)]
  congr 1
  cases b with
  | mk bytes size =>
    congr 1
    rw [hzero, List.replicate_zero, List.append_nil]

theorem reverse_reverse (b : Blob n) : b.reverse.reverse = b := by
  cases b
  simp [reverse]

theorem decodes_assign (b : Blob n) : Decodes (concat []) (assign n b.bytes) b := by
  rw [assign_bytes]
  exact .pure b

theorem decodes (b : Blob n) : Decodes b.write (read n) b := by
  have hslice := decodes_readSlice b.bytes
  rw [b.size] at hslice
  rw [← concat_single b.write, read]
  exact hslice.bind b.decodes_assign

end Blob

/-! The value of a signed number survives the way through its bytes. -/

theorem ofNat_toUInt16 (x : Int16) : Int16.ofNat x.toUInt16.toNat = x := Int16.ofNat_bitVecToNat _

theorem ofNat_toUInt32 (x : Int32) : Int32.ofNat x.toUInt32.toNat = x := Int32.ofNat_bitVecToNat _

theorem ofNat_toUInt64 (x : Int64) : Int64.ofNat x.toUInt64.toNat = x := Int64.ofNat_bitVecToNat _

structure BtcBlock where
  version : Int32
  previousBlock : Blob 32
  merkleRoot : Blob 32
  timestamp : UInt32
  bits : UInt32
  nonce : UInt32
  deriving DecidableEq, Repr

namespace BtcBlock

def headerSize : Nat := 80

def toRaw (b : BtcBlock) : Encoding :=
  concat [
    writeLE 4 b.version.toUInt32.toNat,
    b.previousBlock.reverse.write,
    b.merkleRoot.reverse.write,
    writeLE 4 b.timestamp.toNat,
    writeLE 4 b.bits.toNat,
    writeLE 4 b.nonce.toNat]

def toVbkEncoding (b : BtcBlock) : Encoding := b.toRaw.bind writeSingleByteLenValue

def deserializeFromRaw : Decoder BtcBlock := do
  let version ← orInvalid ["btc-block-version"] (readLE 4)
  let previousBlock ← orInvalid ["btc-block-previous"] (Blob.read 32)
  let merkleRoot ← orInvalid ["btc-block-merkle-root"] (Blob.read 32)
  let timestamp ← orInvalid ["btc-block-timestamp"] (readLE 4)
  let bits ← orInvalid ["btc-block-difficulty"] (readLE 4)
  let nonce ← orInvalid ["btc-block-nonce"] (readLE 4)
  pure {
    version := Int32.ofNat version
    previousBlock := previousBlock.reverse
    merkleRoot := merkleRoot.reverse
    timestamp := UInt32.ofNat timestamp
    bits := UInt32.ofNat bits
    nonce := UInt32.ofNat nonce }

def deserializeFromVbkEncoding : Decoder BtcBlock := do
  let value ← orInvalid ["btc-block-bad-header"] (readSingleByteLenValue headerSize headerSize)
  nested deserializeFromRaw value

def estimateSize (_ : BtcBlock) : Nat := singleByteLenValueSize (4 + 32 + 32 + 4 + 4 + 4)

theorem decodes_raw (b : BtcBlock) : Decodes b.toRaw deserializeFromRaw b := by
  have hversion : b.version.toUInt32.toNat < 256 ^ 4 := b.version.toUInt32.toNat_lt
  have htimestamp : b.timestamp.toNat < 256 ^ 4 := b.timestamp.toNat_lt
  have hbits : b.bits.toNat < 256 ^ 4 := b.bits.toNat_lt
  have hnonce : b.nonce.toNat < 256 ^ 4 := b.nonce.toNat_lt
  rw [toRaw, deserializeFromRaw]
  apply Decodes.bind (decodes_readLE hversion).orInvalid
  apply Decodes.bind (Blob.decodes _).orInvalid
  apply Decodes.bind (Blob.decodes _).orInvalid
  apply Decodes.bind (decodes_readLE htimestamp).orInvalid
  apply Decodes.bind (decodes_readLE hbits).orInvalid
  apply Decodes.bind (decodes_readLE hnonce).orInvalid
  simp only [ofNat_toUInt32, Blob.reverse_reverse, UInt32.ofNat_toNat]
  exact .pure b

theorem toRaw_length (b : BtcBlock) : ∃ bytes, b.toRaw = some bytes ∧ bytes.length = headerSize := by
  refine ⟨_, rfl, ?_⟩
  simp [headerSize, Blob.size]

theorem decodes (b : BtcBlock) : Decodes b.toVbkEncoding deserializeFromVbkEncoding b := by
  cases b.toRaw_length with
  | intro raw h =>
    have hsize : headerSize ≤ 255 := by decide
    rw [toVbkEncoding, h.1, Option.bind_some, ← concat_single (writeSingleByteLenValue raw), deserializeFromVbkEncoding]
    apply Decodes.bind (decodes_singleByteLen (by omega) (by omega) (by omega)).orInvalid
    exact b.decodes_raw.nested h.1

theorem hasSize (b : BtcBlock) : HasSize b.toVbkEncoding b.estimateSize := by
  cases b.toRaw_length with
  | intro raw h =>
    have hsize : headerSize = 80 := rfl
    have : HasSize (writeSingleByteLenValue raw) (singleByteLenValueSize raw.length) := hasSize_singleByteLen (by omega)
    rw [h.2] at this
    rw [toVbkEncoding, h.1]
    exact this

end BtcBlock

structure VbkBlock where
  height : Int32
  version : Int16
  previousBlock : Blob 12
  previousKeystone : Blob 9
  secondPreviousKeystone : Blob 9
  merkleRoot : Blob 16
  timestamp : UInt32
  difficulty : Int32
  nonce : UInt64
  deriving DecidableEq, Repr

namespace VbkBlock

/-- `VBK_HEADER_SIZE_PROGPOW` -/
def headerSize : Nat := 65

def toRaw (b : VbkBlock) : Encoding :=
  concat [
    writeBE 4 b.height.toUInt32.toNat,
    writeBE 2 b.version.toUInt16.toNat,
    b.previousBlock.write,
    b.previousKeystone.write,
    b.secondPreviousKeystone.write,
    b.merkleRoot.write,
    writeBE 4 b.timestamp.toNat,
    writeBE 4 b.difficulty.toUInt32.toNat,
    writeBE 5 b.nonce.toNat]

def toVbkEncoding (b : VbkBlock) : Encoding := b.toRaw.bind writeSingleByteLenValue

def deserializeFromRaw : Decoder VbkBlock := do
  let height ← orInvalid ["vbk-block-height"] (readBE 4)
  let version ← orInvalid ["vbk-block-version"] (readBE 2)
  let previousBlock ← orInvalid ["vbk-block-previous"] (Blob.read 12)
  let previousKeystone ← orInvalid ["vbk-block-keystone1"] (Blob.read 9)
  let secondPreviousKeystone ← orInvalid ["vbk-block-keystone2"] (Blob.read 9)
  let merkleRoot ← orInvalid ["vbk-block-merkle-root"] (Blob.read 16)
  let timestamp ← orInvalid ["vbk-block-timestamp"] (readBE 4)
  let difficulty ← orInvalid ["vbk-block-difficulty"] (readBE 4)
  let nonce ← orInvalid ["vbk-block-nonce"] (readBE 5)
  pure {
    height := Int32.ofNat height
    version := Int16.ofNat version
    previousBlock := previousBlock
    previousKeystone := previousKeystone
    secondPreviousKeystone := secondPreviousKeystone
    merkleRoot := merkleRoot
    timestamp := UInt32.ofNat timestamp
    difficulty := Int32.ofNat difficulty
    nonce := UInt64.ofNat nonce }

def deserializeFromVbkEncoding : Decoder VbkBlock := do
  let value ← orInvalid ["vbk-block-bad-header"] (readSingleByteLenValue headerSize headerSize)
  nested deserializeFromRaw value

def estimateSize (_ : VbkBlock) : Nat := singleByteLenValueSize (4 + 2 + 12 + 9 + 9 + 16 + 4 + 4 + 5)

/-- The nonce has five bytes in the encoding. -/
def NonceFits (b : VbkBlock) : Prop := b.nonce.toNat < 2 ^ 40

instance (b : VbkBlock) : Decidable b.NonceFits := inferInstanceAs (Decidable (_ < _))

theorem decodes_raw {b : VbkBlock} (hnonce : b.NonceFits) : Decodes b.toRaw deserializeFromRaw b := by
  have hheight : b.height.toUInt32.toNat < 256 ^ 4 := b.height.toUInt32.toNat_lt
  have hversion : b.version.toUInt16.toNat < 256 ^ 2 := b.version.toUInt16.toNat_lt
  have htimestamp : b.timestamp.toNat < 256 ^ 4 := b.timestamp.toNat_lt
  have hdifficulty : b.difficulty.toUInt32.toNat < 256 ^ 4 := b.difficulty.toUInt32.toNat_lt
  rw [toRaw, deserializeFromRaw]
  apply Decodes.bind (decodes_readBE hheight).orInvalid
  apply Decodes.bind (decodes_readBE hversion).orInvalid
  apply Decodes.bind (Blob.decodes _).orInvalid
  apply Decodes.bind (Blob.decodes _).orInvalid
  apply Decodes.bind (Blob.decodes _).orInvalid
  apply Decodes.bind (Blob.decodes _).orInvalid
  apply Decodes.bind (decodes_readBE htimestamp).orInvalid
  apply Decodes.bind (decodes_readBE hdifficulty).orInvalid
  apply Decodes.bind (decodes_readBE hnonce).orInvalid
  simp only [ofNat_toUInt32, ofNat_toUInt16, UInt32.ofNat_toNat, UInt64.ofNat_toNat]
  exact .pure b

theorem toRaw_length (b : VbkBlock) : ∃ bytes, b.toRaw = some bytes ∧ bytes.length = headerSize := by
  refine ⟨_, rfl, ?_⟩
  simp [headerSize, Blob.size]

theorem decodes {b : VbkBlock} (hnonce : b.NonceFits) : Decodes b.toVbkEncoding deserializeFromVbkEncoding b := by
  cases b.toRaw_length with
  | intro raw h =>
    have hsize : headerSize ≤ 255 := by decide
    rw [toVbkEncoding, h.1, Option.bind_some, ← concat_single (writeSingleByteLenValue raw), deserializeFromVbkEncoding]
    apply Decodes.bind (decodes_singleByteLen (by omega) (by omega) (by omega)).orInvalid
    exact (decodes_raw hnonce).nested h.1

theorem hasSize (b : VbkBlock) : HasSize b.toVbkEncoding b.estimateSize := by
  cases b.toRaw_length with
  | intro raw h =>
    have hsize : headerSize = 65 := rfl
    have : HasSize (writeSingleByteLenValue raw) (singleByteLenValueSize raw.length) := hasSize_singleByteLen (by omega)
    rw [h.2] at this
    rw [toVbkEncoding, h.1]
    exact this

end VbkBlock

end AltIntegration.Serde
