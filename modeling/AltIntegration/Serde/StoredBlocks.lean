import AltIntegration.Data.OrderedMultiset
import AltIntegration.Serde.Blocks

/-!
This module contains what is written to the disk of a block: `StoredBlockIndex` of `stored_block_index.hpp` with the
header and the addon of each kind of block, their encodings and their decoders.

Of a `PopState` only the containing endorsements are written; `_endorsedBy` is kept in memory only. The hash that a
header caches is left out.
-/

namespace AltIntegration.Serde

open ReadStream

/-- What the code passes as a `Slice` of bytes. -/
class Slice (α : Type) where
  data : α → List UInt8

instance instSliceBytes : Slice (List UInt8) := ⟨id⟩

instance instSliceBlob {n : Nat} : Slice (Blob n) := ⟨Blob.bytes⟩

def writeSlice {α : Type} [Slice α] (value : α) : Encoding := writeSingleByteLenValue (Slice.data value)

/-- `readSingleByteLenValue` to a `Blob<N>` -/
def readBlob (n : Nat) : Decoder (Blob n) := do
  let value ← readSingleByteLenValue n n
  Blob.assign n value

/-- `MAX_POPDATA_VBK` -/
def maxPopDataVbk : Nat := 50000

/-- `MAX_POPDATA_VTB` -/
def maxPopDataVtb : Nat := 50000

/-- `MAX_POPDATA_ATV` -/
def maxPopDataAtv : Nat := 50000

/-- `MAX_BTCADDON_REFS` -/
def maxBtcAddonRefs : Nat := 65536

/-- `MAX_VBKPOPTX_PER_VBK_BLOCK` -/
def maxVbkPopTxPerVbkBlock : Nat := 1024

/-- `MIN_ALT_HASH_SIZE` -/
def minAltHashSize : Nat := 0

/-- `MAX_ALT_HASH_SIZE` -/
def maxAltHashSize : Nat := 1024

/-- `Endorsement` of `entities/endorsement.hpp` with all its fields -/
structure Endorsement (EndorsedHash ContainingHash : Type) where
  id : Blob 32
  endorsedHash : EndorsedHash
  containingHash : EndorsedHash
  blockOfProof : ContainingHash
  deriving DecidableEq, Repr

abbrev VbkEndorsement := Endorsement (Blob 24) (Blob 32)

abbrev AltEndorsement := Endorsement (List UInt8) (Blob 24)

namespace Endorsement

variable {E C : Type}

def toVbkEncoding [Slice E] [Slice C] (e : Endorsement E C) : Encoding :=
  concat [writeSlice e.id, writeSlice e.endorsedHash, writeSlice e.containingHash, writeSlice e.blockOfProof]

/-- The decoders of both kinds of endorsements -/
def read (name : String) (readHash : Decoder E) (readProof : Decoder C) : Decoder (Endorsement E C) := do
  let id ← orInvalid [name ++ "-id"] (readBlob 32)
  let endorsedHash ← orInvalid [name ++ "-endorsed-hash"] readHash
  let containingHash ← orInvalid [name ++ "-containing-hash"] readHash
  let blockOfProof ← orInvalid [name ++ "-block-of-proof"] readProof
  pure { id := id, endorsedHash := endorsedHash, containingHash := containingHash, blockOfProof := blockOfProof }

/-- The comparison of ids compares the last bytes first. -/
def IdLt (e f : Endorsement E C) : Prop := Bytes.toNat e.id.bytes.reverse < Bytes.toNat f.id.bytes.reverse

instance decidableRelIdLt : DecidableRel (IdLt (E := E) (C := C)) := fun _ _ => Nat.decLt _ _

instance isStrictWeakOrderIdLt : IsStrictWeakOrder (Endorsement E C) IdLt where
  irrefl _ := Nat.lt_irrefl _
  trans _ _ _ := Nat.lt_trans
  incomp_trans a b c hab hbc := by
    simp only [IdLt] at *
    omega

end Endorsement

def VbkEndorsement.deserializeFromVbkEncoding : Decoder VbkEndorsement :=
  Endorsement.read "bad-vbkendorsement" (readBlob 24) (readBlob 32)

def AltEndorsement.deserializeFromVbkEncoding : Decoder AltEndorsement :=
  Endorsement.read "bad-altendorsement" (readSingleByteLenValue minAltHashSize maxAltHashSize) (readBlob 24)

/-- The part of `PopState` that is written: a multimap of endorsements by their ids. -/
structure PopState (E C : Type) where
  containingEndorsements : List (Endorsement E C)
  sorted : OrderedMultiset.Sorted Endorsement.IdLt containingEndorsements
  deriving DecidableEq

namespace PopState

variable {E C : Type}

def empty : PopState E C := ⟨[], List.Pairwise.nil⟩

def emplace (s : PopState E C) (e : Endorsement E C) : PopState E C :=
  ⟨OrderedMultiset.insert Endorsement.IdLt e s.containingEndorsements, s.sorted.insert Endorsement.IdLt e⟩

/-- The endorsements, put in one after the other. -/
def ofList (l : List (Endorsement E C)) : PopState E C := l.foldl emplace empty

def toVbkEncoding [Slice E] [Slice C] (s : PopState E C) : Encoding :=
  writeContainer s.containingEndorsements Endorsement.toVbkEncoding

def deserializeFromVbkEncoding (readEndorsement : Decoder (Endorsement E C)) : Decoder (PopState E C) := do
  let endorsements ← orInvalid ["popstate-bad-endorsement"]
    (readArrayOf (fun _ => []) 0 (max maxPopDataAtv maxPopDataVtb) readEndorsement)
  pure (ofList endorsements)

end PopState

structure StoredBtcBlockAddon where
  refs : List Int32
  blockOfProofEndorsementIds : List (Blob 32)
  deriving DecidableEq

namespace StoredBtcBlockAddon

def toVbkEncoding (a : StoredBtcBlockAddon) : Encoding :=
  concat [
    writeContainer a.blockOfProofEndorsementIds writeSlice,
    writeContainer a.refs (fun value => writeBE 4 value.toUInt32.toNat)]

def readRef : Decoder Int32 := do
  let value ← readBE 4
  pure (Int32.ofNat value)

def deserializeFromVbkEncoding : Decoder StoredBtcBlockAddon := do
  let blockOfProofEndorsementIds ← orInvalid ["stored-btc-block-addon-bad-block-of-proof-hash"]
    (readArrayOf (fun _ => []) 0 maxPopDataVbk (readBlob 32))
  let refs ← orInvalid ["bad-refs"] (readArrayOf (fun _ => []) 0 maxBtcAddonRefs readRef)
  pure { refs := refs, blockOfProofEndorsementIds := blockOfProofEndorsementIds }

end StoredBtcBlockAddon

structure StoredVbkBlockAddon where
  refCount : UInt32
  vtbids : List (Blob 32)
  blockOfProofEndorsementIds : List (Blob 32)
  endorsedByIds : List (Blob 32)
  popState : PopState (Blob 24) (Blob 32)
  deriving DecidableEq

namespace StoredVbkBlockAddon

def toVbkEncoding (a : StoredVbkBlockAddon) : Encoding :=
  concat [
    writeContainer a.endorsedByIds writeSlice,
    writeContainer a.blockOfProofEndorsementIds writeSlice,
    writeBE 4 a.refCount.toNat,
    writeContainer a.vtbids writeSlice,
    a.popState.toVbkEncoding]

def deserializeFromVbkEncoding : Decoder StoredVbkBlockAddon := do
  let endorsedByIds ← orInvalid ["stored-vbk-block-addon-bad-endorsedby-hash"]
    (readArrayOf (fun _ => []) 0 maxPopDataVbk (readBlob 32))
  let blockOfProofEndorsementIds ← orInvalid ["stored-vbk-block-addon-bad-block-of-proof-hash"]
    (readArrayOf (fun _ => []) 0 maxPopDataVbk (readBlob 32))
  let refCount ← orInvalid ["stored-vbk-addon-bad-ref-count"] (readBE 4)
  let vtbids ← orInvalid ["stored-vbk-addon-bad-vtbid"]
    (readArrayOf (fun _ => []) 0 maxVbkPopTxPerVbkBlock (readBlob 32))
  let popState ← orInvalid ["stored-vbk-block-addon-bad-popstate"]
    (PopState.deserializeFromVbkEncoding VbkEndorsement.deserializeFromVbkEncoding)
  pure {
    refCount := UInt32.ofNat refCount
    vtbids := vtbids
    blockOfProofEndorsementIds := blockOfProofEndorsementIds
    endorsedByIds := endorsedByIds
    popState := popState }

end StoredVbkBlockAddon

structure StoredAltBlockAddon where
  atvids : List (Blob 32)
  vtbids : List (Blob 32)
  vbkblockids : List (Blob 12)
  endorsedByIds : List (Blob 32)
  popState : PopState (List UInt8) (Blob 24)
  deriving DecidableEq

namespace StoredAltBlockAddon

def toVbkEncoding (a : StoredAltBlockAddon) : Encoding :=
  concat [
    writeContainer a.endorsedByIds writeSlice,
    writeContainer a.atvids writeSlice,
    writeContainer a.vtbids writeSlice,
    writeContainer a.vbkblockids writeSlice,
    a.popState.toVbkEncoding]

def deserializeFromVbkEncoding : Decoder StoredAltBlockAddon := do
  let endorsedByIds ← orInvalid ["stored-alt-block-addon-bad-endorsedby-hash"]
    (readArrayOf (fun _ => []) 0 maxPopDataVbk (readBlob 32))
  let atvids ← orInvalid ["stored-alt-block-addon-bad-atvid"]
    (readArrayOf (fun _ => []) 0 maxPopDataAtv (readBlob 32))
  let vtbids ← orInvalid ["stored-alt-block-addon-bad-vtbid"]
    (readArrayOf (fun _ => []) 0 maxPopDataVtb (readBlob 32))
  let vbkblockids ← orInvalid ["stored-alt-block-addon-bad-vbkids"]
    (readArrayOf (fun _ => []) 0 maxPopDataVbk (readBlob 12))
  let popState ← orInvalid ["stored-alt-block-addon-bad-popstate"]
    (PopState.deserializeFromVbkEncoding AltEndorsement.deserializeFromVbkEncoding)
  pure {
    atvids := atvids
    vtbids := vtbids
    vbkblockids := vbkblockids
    endorsedByIds := endorsedByIds
    popState := popState }

end StoredAltBlockAddon

structure AltBlock where
  hash : List UInt8
  previousBlock : List UInt8
  timestamp : UInt32
  height : Int32
  deriving DecidableEq, Repr

namespace AltBlock

def toRaw (b : AltBlock) : Encoding :=
  concat [
    writeSlice b.hash,
    writeSlice b.previousBlock,
    writeBE 4 b.height.toUInt32.toNat,
    writeBE 4 b.timestamp.toNat]

/-- `altHashSize` is `ALT_HASH_SIZE`, which the altchain sets when the code is compiled. -/
def deserializeFromRaw (altHashSize : Nat) : Decoder AltBlock := do
  let hash ← orInvalid ["alt-block-hash"] (readSingleByteLenValue altHashSize altHashSize)
  let previousBlock ← orInvalid ["alt-block-prevhash"] (readSingleByteLenValue 0 altHashSize)
  let height ← orInvalid ["alt-block-height"] (readBE 4)
  let timestamp ← orInvalid ["alt-block-timestamp"] (readBE 4)
  pure {
    hash := hash
    previousBlock := previousBlock
    timestamp := UInt32.ofNat timestamp
    height := Int32.ofNat height }

end AltBlock

/-- A kind of block: its name, and how its header and its addon are written and read. -/
structure BlockKind (H A : Type) where
  name : String
  toRaw : H → Encoding
  deserializeFromRaw : Decoder H
  addonToVbkEncoding : A → Encoding
  deserializeAddon : Decoder A

def BlockKind.btc : BlockKind BtcBlock StoredBtcBlockAddon where
  name := "BTC"
  toRaw := BtcBlock.toRaw
  deserializeFromRaw := BtcBlock.deserializeFromRaw
  addonToVbkEncoding := StoredBtcBlockAddon.toVbkEncoding
  deserializeAddon := StoredBtcBlockAddon.deserializeFromVbkEncoding

def BlockKind.vbk : BlockKind VbkBlock StoredVbkBlockAddon where
  name := "VBK"
  toRaw := VbkBlock.toRaw
  deserializeFromRaw := VbkBlock.deserializeFromRaw
  addonToVbkEncoding := StoredVbkBlockAddon.toVbkEncoding
  deserializeAddon := StoredVbkBlockAddon.deserializeFromVbkEncoding

def BlockKind.alt (altHashSize : Nat) : BlockKind AltBlock StoredAltBlockAddon where
  name := "ALT"
  toRaw := AltBlock.toRaw
  deserializeFromRaw := AltBlock.deserializeFromRaw altHashSize
  addonToVbkEncoding := StoredAltBlockAddon.toVbkEncoding
  deserializeAddon := StoredAltBlockAddon.deserializeFromVbkEncoding

/-- `StoredBlockIndex` with all its fields -/
structure StoredBlockIndex (H A : Type) where
  height : Int32
  header : H
  status : UInt32
  addon : A
  deriving DecidableEq

namespace StoredBlockIndex

variable {H A : Type} (k : BlockKind H A)

def toVbkEncoding (b : StoredBlockIndex H A) : Encoding :=
  concat [
    writeBE 4 b.height.toUInt32.toNat,
    k.toRaw b.header,
    writeBE 4 b.status.toNat,
    k.addonToVbkEncoding b.addon]

def deserializeFromVbkEncoding : Decoder (StoredBlockIndex H A) := do
  let height ← orInvalid [k.name ++ "-stored-block-index-height"] (readBE 4)
  let header ← orInvalid [k.name ++ "-stored-block-index-header"] k.deserializeFromRaw
  let status ← orInvalid [k.name ++ "-stored-block-index-status"] (readBE 4)
  let addon ← orInvalid [k.name ++ "-stored-block-index-addon"] k.deserializeAddon
  pure { height := Int32.ofNat height, header := header, status := UInt32.ofNat status, addon := addon }

end StoredBlockIndex

end AltIntegration.Serde
