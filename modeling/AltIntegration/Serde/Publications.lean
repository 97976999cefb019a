import AltIntegration.Serde.Address
import AltIntegration.Serde.Blocks

/-!
This module contains the transactions that publish blocks, with all their fields, the payloads that prove them, and
the body `PopData` of an ALT block; each with its encoding, its decoder and the size that it is estimated to have.
-/

namespace AltIntegration.Serde

open ReadStream

/-- `MAX_POPDATA_SIZE` -/
def maxPopDataSize : Nat := 5500000

inductive TxType where
  | vbkTx
  | vbkPopTx
  deriving DecidableEq, Repr

def TxType.toByte : TxType → Nat
  | .vbkTx => 1
  | .vbkPopTx => 2

structure NetworkBytePair where
  networkType : Option UInt8
  typeId : UInt8
  deriving DecidableEq, Repr

namespace NetworkBytePair

/-- `writeNetworkByte` -/
def write (p : NetworkBytePair) : Encoding :=
  match p.networkType with
  | some value => concat [writeBE 1 value.toNat, writeBE 1 p.typeId.toNat]
  | none => writeBE 1 p.typeId.toNat

/-- `readNetworkByte` -/
def read (type : TxType) : Decoder NetworkBytePair := do
  let networkOrType ← orInvalid ["bad-network-byte"] (readBE 1)
  if networkOrType = type.toByte then
    pure { networkType := none, typeId := UInt8.ofNat networkOrType }
  else do
    let typeId ← orInvalid ["bad-type-id"] (readBE 1)
    pure { networkType := some (UInt8.ofNat networkOrType), typeId := UInt8.ofNat typeId }

/-- `networkByteSize` -/
def size (p : NetworkBytePair) : Nat := if p.networkType.isSome then 2 else 1

end NetworkBytePair

structure Coin where
  units : Int64
  deriving DecidableEq, Repr

namespace Coin

def toVbkEncoding (c : Coin) : Encoding := writeSingleBEValue c.units

def deserializeFromVbkEncoding : Decoder Coin := do
  let amount ← orInvalid ["invalid-amount"] (readSingleBEValue 8)
  pure { units := Int64.ofNat amount }

def estimateSize (c : Coin) : Nat := singleBEValueSize c.units

end Coin

structure Output where
  address : Address
  coin : Coin
  deriving DecidableEq

namespace Output

def toVbkEncoding (o : Output) : Encoding := concat [o.address.toVbkEncoding, o.coin.toVbkEncoding]

def deserializeFromVbkEncoding : Decoder Output := do
  let address ← orInvalid ["output-address"] Address.deserializeFromVbkEncoding
  let amount ← orInvalid ["output-amount"] Coin.deserializeFromVbkEncoding
  pure { address := address, coin := amount }

def estimateSize (o : Output) : Nat := o.address.estimateSize + o.coin.estimateSize

end Output

structure PublicationData where
  identifier : Int64
  header : List UInt8
  payoutInfo : List UInt8
  contextInfo : List UInt8
  deriving DecidableEq, Repr

namespace PublicationData

def maxHeaderSize : Nat := 1024

def maxPayoutInfoSize : Nat := 10000

def maxContextSize : Nat := 10000

/-- `MAX_PUBLICATIONDATA_SIZE` -/
def maxSize : Nat := 1 + 8 + 1 + maxHeaderSize + 1 + maxPayoutInfoSize + 1 + maxContextSize

def toVbkEncoding (p : PublicationData) : Encoding :=
  concat [
    writeSingleBEValue p.identifier,
    writeVarLenValue p.header,
    writeVarLenValue p.contextInfo,
    writeVarLenValue p.payoutInfo]

def deserializeFromVbkEncoding : Decoder PublicationData := do
  let identifier ← orInvalid ["pub-identifier"] (readSingleBEValue 8)
  let header ← orInvalid ["pub-header"] (readVarLenValue 0 maxHeaderSize)
  let contextInfo ← orInvalid ["pub-context-info"] (readVarLenValue 0 maxContextSize)
  let payoutInfo ← orInvalid ["pub-payout-info"] (readVarLenValue 0 maxPayoutInfoSize)
  pure {
    identifier := Int64.ofNat identifier
    header := header
    payoutInfo := payoutInfo
    contextInfo := contextInfo }

def estimateSize (p : PublicationData) : Nat :=
  singleBEValueSize p.identifier + varLenValueSize p.header.length + varLenValueSize p.contextInfo.length +
    varLenValueSize p.payoutInfo.length

end PublicationData

/-- `MAX_SIGNATURE_SIZE` -/
def maxSignatureSize : Nat := 72

/-- `MAX_PUBLIC_KEY_SIZE` -/
def maxPublicKeySize : Nat := 88

/-- A transaction that publishes an ALT block. -/
structure VbkTx where
  networkOrType : NetworkBytePair
  sourceAddress : Address
  sourceAmount : Coin
  outputs : List Output
  signatureIndex : Int64
  publicationData : PublicationData
  signature : List UInt8
  publicKey : List UInt8
  deriving DecidableEq

namespace VbkTx

/-- The number of outputs is cast to a byte. -/
def toRaw (t : VbkTx) : Encoding :=
  concat [
    t.networkOrType.write,
    t.sourceAddress.toVbkEncoding,
    t.sourceAmount.toVbkEncoding,
    writeBE 1 t.outputs.length,
    concat (t.outputs.map Output.toVbkEncoding),
    writeSingleBEValue t.signatureIndex,
    t.publicationData.toVbkEncoding.bind writeVarLenValue]

def toVbkEncoding (t : VbkTx) : Encoding :=
  concat [
    t.toRaw.bind writeVarLenValue,
    writeSingleByteLenValue t.signature,
    writeSingleByteLenValue t.publicKey]

def deserializeFromRaw (signature publicKey : List UInt8) : Decoder VbkTx := do
  let networkOrType ← orInvalid ["vbktx-network-or-type"] (NetworkBytePair.read .vbkTx)
  let sourceAddress ← orInvalid ["vbktx-address"] Address.deserializeFromVbkEncoding
  let sourceAmount ← orInvalid ["vbktx-amount"] Coin.deserializeFromVbkEncoding
  let outputSize ← orInvalid ["vbktx-outputs-size"] (readBE 1)
  let outputs ← readItems (fun i => ["vbktx-output", toString i]) Output.deserializeFromVbkEncoding 0 outputSize
  let signatureIndex ← orInvalid ["vbktx-signature-index"] (readSingleBEValue 8)
  let pubBytes ← orInvalid ["vbktx-publication-bytes"] (readVarLenValue 0 PublicationData.maxSize)
  let publicationData ← orInvalid ["vbktx-publication-data"]
    (nested PublicationData.deserializeFromVbkEncoding pubBytes)
  pure {
    networkOrType := networkOrType
    sourceAddress := sourceAddress
    sourceAmount := sourceAmount
    outputs := outputs
    signatureIndex := Int64.ofNat signatureIndex
    publicationData := publicationData
    signature := signature
    publicKey := publicKey }

def deserializeFromVbkEncoding : Decoder VbkTx := do
  let rawTx ← orInvalid ["vbktx-header"] (readVarLenValue 0 maxPopDataSize)
  let signature ← orInvalid ["vbktx-signature"] (readSingleByteLenValue 0 maxSignatureSize)
  let publicKey ← orInvalid ["vbktx-public-key"] (readSingleByteLenValue 0 maxPublicKeySize)
  nested (deserializeFromRaw signature publicKey) rawTx

/-- `rawSize` of `estimateSize` -/
def rawSize (t : VbkTx) : Nat :=
  t.networkOrType.size + t.sourceAddress.estimateSize + t.sourceAmount.estimateSize + 1 +
    (t.outputs.map Output.estimateSize).sum + singleBEValueSize t.signatureIndex +
    varLenValueSize t.publicationData.estimateSize

def estimateSize (t : VbkTx) : Nat :=
  varLenValueSize t.rawSize + singleByteLenValueSize t.signature.length + singleByteLenValueSize t.publicKey.length

end VbkTx

structure BtcTx where
  tx : List UInt8
  deriving DecidableEq, Repr

namespace BtcTx

/-- `BTC_TX_MAX_RAW_SIZE` -/
def maxRawSize : Nat := 4000000

def toVbkEncoding (t : BtcTx) : Encoding := writeVarLenValue t.tx

def deserializeFromVbkEncoding : Decoder BtcTx := do
  let tx ← orInvalid ["btc-invalid-tx"] (readVarLenValue 0 maxRawSize)
  pure { tx := tx }

def estimateSize (t : BtcTx) : Nat := varLenValueSize t.tx.length

end BtcTx

/-- `MAX_LAYER_COUNT_MERKLE` -/
def maxLayerCount : Nat := 40

/-- The layers of both kinds of merkle paths -/
def readLayer : Decoder (Blob 32) := do
  let layer ← readSingleByteLenValue 32 32
  Blob.assign 32 layer

def writeLayer (layer : Blob 32) : Encoding := writeSingleByteLenValue layer.bytes

/-- A merkle path in a BTC block. -/
structure MerklePath where
  index : Int32
  subject : Blob 32
  layers : List (Blob 32)
  deriving DecidableEq, Repr

namespace MerklePath

/-- Of the subject only the size is written, behind the size of its size. -/
def toRaw (p : MerklePath) : Encoding :=
  let subjectSizeBytes := Bytes.ofNat 4 p.subject.bytes.length
  concat ([
    writeSingleFixedBEValue 4 p.index.toUInt32.toNat,
    writeSingleFixedBEValue 4 p.layers.length,
    writeSingleFixedBEValue 4 subjectSizeBytes.length,
    write subjectSizeBytes] ++ p.layers.map writeLayer)

def toVbkEncoding (p : MerklePath) : Encoding := p.toRaw.bind writeVarLenValue

def deserializeFromRaw (subject : Blob 32) : Decoder MerklePath := do
  let index ← orInvalid ["merkle-index"] (readSingleBEValue 4)
  let numLayers ← orInvalid ["merkle-num-layers"] (readSingleBEValue 4)
  orInvalid ["merkle-num-layers-range"] (checkRange (toSize (Int32.ofNat numLayers)) 0 maxLayerCount)
  let sizeOfSizeBottomData ← orInvalid ["merkle-size-of-size"] (readSingleBEValue 4)
  require (toSize (Int32.ofNat sizeOfSizeBottomData) = 4) "merkle-size-of-size-range"
  let sizeOfBottomData ← orInvalid ["merkle-size-of-data"] (readBE 4)
  require (Int32.ofNat sizeOfBottomData = 32) "merkle-size-of-data-range"
  let layers ← readItems (fun i => ["merkle-layer", toString i]) readLayer 0 (toSize (Int32.ofNat numLayers))
  pure { index := Int32.ofNat index, subject := subject, layers := layers }

def deserializeFromVbkEncoding (subject : Blob 32) : Decoder MerklePath := do
  let merkleBytes ← orInvalid ["merkle-bytes"] (readVarLenValue 0 maxPopDataSize)
  nested (deserializeFromRaw subject) merkleBytes

/-- `rawSize` of `estimateSize` -/
def rawSize (p : MerklePath) : Nat :=
  singleFixedBEValueSize 4 + singleFixedBEValueSize 4 + singleFixedBEValueSize 4 + 4 +
    (p.layers.map (fun layer => singleByteLenValueSize layer.bytes.length)).sum

def estimateSize (p : MerklePath) : Nat := varLenValueSize p.rawSize

end MerklePath

/-- A merkle path in a VBK block. -/
structure VbkMerklePath where
  treeIndex : Int32
  index : Int32
  subject : Blob 32
  layers : List (Blob 32)
  deriving DecidableEq, Repr

namespace VbkMerklePath

def toVbkEncoding (p : VbkMerklePath) : Encoding :=
  concat ([
    writeSingleFixedBEValue 4 p.treeIndex.toUInt32.toNat,
    writeSingleFixedBEValue 4 p.index.toUInt32.toNat,
    writeLayer p.subject,
    writeSingleFixedBEValue 4 p.layers.length] ++ p.layers.map writeLayer)

def deserializeFromVbkEncoding : Decoder VbkMerklePath := do
  let treeIndex ← orInvalid ["vbkmerkle-tree-index"] (readSingleBEValue 4)
  let index ← orInvalid ["vbkmerkle-index"] (readSingleBEValue 4)
  let subject ← orInvalid ["vbkmerkle-subject"] readLayer
  let layers ← readArrayOf (fun _ => ["vbkmerkle-layers"]) 0 maxLayerCount readLayer
  pure { treeIndex := Int32.ofNat treeIndex, index := Int32.ofNat index, subject := subject, layers := layers }

def estimateSize (p : VbkMerklePath) : Nat :=
  singleFixedBEValueSize 4 + singleFixedBEValueSize 4 + singleByteLenValueSize p.subject.bytes.length +
    singleFixedBEValueSize 4 + (p.layers.map (fun layer => singleByteLenValueSize layer.bytes.length)).sum

end VbkMerklePath

/-- A transaction that proves the publication of a VBK block in BTC. -/
structure VbkPopTx where
  networkOrType : NetworkBytePair
  address : Address
  publishedBlock : VbkBlock
  bitcoinTransaction : BtcTx
  merklePath : MerklePath
  blockOfProof : BtcBlock
  blockOfProofContext : List BtcBlock
  signature : List UInt8
  publicKey : List UInt8
  deriving DecidableEq

namespace VbkPopTx

/-- `MAX_BTC_BLOCKS_IN_VBKPOPTX` -/
def maxBtcBlocks : Nat := 65535

def toRaw (t : VbkPopTx) : Encoding :=
  concat [
    t.networkOrType.write,
    t.address.toVbkEncoding,
    t.publishedBlock.toVbkEncoding,
    t.bitcoinTransaction.toVbkEncoding,
    t.merklePath.toVbkEncoding,
    t.blockOfProof.toVbkEncoding,
    writeContainer t.blockOfProofContext BtcBlock.toVbkEncoding]

def toVbkEncoding (t : VbkPopTx) : Encoding :=
  concat [
    t.toRaw.bind writeVarLenValue,
    writeSingleByteLenValue t.signature,
    writeSingleByteLenValue t.publicKey]

/-- The hash of the BTC transaction, the subject of its merkle path. -/
def subject (t : BtcTx) : Blob 32 := ⟨sha256twice t.tx, length_sha256twice t.tx⟩

def deserializeFromRaw (signature publicKey : List UInt8) : Decoder VbkPopTx := do
  let networkOrType ← orInvalid ["vbkpoptx-network-or-type"] (NetworkBytePair.read .vbkPopTx)
  let address ← orInvalid ["vbkpoptx-address"] Address.deserializeFromVbkEncoding
  let publishedBlock ← orInvalid ["vbkpoptx-published-block"] VbkBlock.deserializeFromVbkEncoding
  let bitcoinTransaction ← orInvalid ["vbkpoptx-bitcoin-tx"] BtcTx.deserializeFromVbkEncoding
  let merklePath ← orInvalid ["vbkpoptx-merkle-path"]
    (MerklePath.deserializeFromVbkEncoding (subject bitcoinTransaction))
  let blockOfProof ← orInvalid ["vbkpoptx-block-of-proof"] BtcBlock.deserializeFromVbkEncoding
  let blockOfProofContext ←
    readArrayOf (fun _ => ["vbkpoptx-btc-context"]) 0 maxBtcBlocks BtcBlock.deserializeFromVbkEncoding
  pure {
    networkOrType := networkOrType
    address := address
    publishedBlock := publishedBlock
    bitcoinTransaction := bitcoinTransaction
    merklePath := merklePath
    blockOfProof := blockOfProof
    blockOfProofContext := blockOfProofContext
    signature := signature
    publicKey := publicKey }

def deserializeFromVbkEncoding : Decoder VbkPopTx := do
  let rawTx ← orInvalid ["vbkpoptx-invalid-tx"] (readVarLenValue 0 maxPopDataSize)
  let signature ← orInvalid ["vbkpoptx-invalid-signature"] (readSingleByteLenValue 0 maxSignatureSize)
  let publicKey ← orInvalid ["vbkpoptx-invalid-public-key"] (readSingleByteLenValue 0 maxPublicKeySize)
  nested (deserializeFromRaw signature publicKey) rawTx

/-- `rawSize` of `estimateSize` -/
def rawSize (t : VbkPopTx) : Nat :=
  t.networkOrType.size + t.address.estimateSize + t.publishedBlock.estimateSize + t.bitcoinTransaction.estimateSize +
    t.merklePath.estimateSize + t.blockOfProof.estimateSize +
    estimateContainerSize t.blockOfProofContext BtcBlock.estimateSize

def estimateSize (t : VbkPopTx) : Nat :=
  varLenValueSize t.rawSize + singleByteLenValueSize t.signature.length + singleByteLenValueSize t.publicKey.length

end VbkPopTx

structure ATV where
  version : UInt32
  transaction : VbkTx
  merklePath : VbkMerklePath
  blockOfProof : VbkBlock
  deriving DecidableEq

namespace ATV

def toVbkEncoding (a : ATV) : Encoding :=
  if a.version = 1 then
    concat [
      writeBE 4 a.version.toNat,
      a.transaction.toVbkEncoding,
      a.merklePath.toVbkEncoding,
      a.blockOfProof.toVbkEncoding]
  else
    none

def deserializeFromVbkEncoding : Decoder ATV := do
  let version ← orInvalid ["atv-version"] (readBE 4)
  require (UInt32.ofNat version = 1) "atv-bad-version"
  let transaction ← orInvalid ["atv-transaction"] VbkTx.deserializeFromVbkEncoding
  let merklePath ← orInvalid ["atv-merkle-path"] VbkMerklePath.deserializeFromVbkEncoding
  let blockOfProof ← orInvalid ["atv-containing-block"] VbkBlock.deserializeFromVbkEncoding
  pure {
    version := UInt32.ofNat version
    transaction := transaction
    merklePath := merklePath
    blockOfProof := blockOfProof }

def estimateSize (a : ATV) : Nat :=
  4 + a.transaction.estimateSize + a.merklePath.estimateSize + a.blockOfProof.estimateSize

end ATV

structure VTB where
  version : UInt32
  transaction : VbkPopTx
  merklePath : VbkMerklePath
  containingBlock : VbkBlock
  deriving DecidableEq

namespace VTB

def toVbkEncoding (v : VTB) : Encoding :=
  if v.version = 1 then
    concat [
      writeBE 4 v.version.toNat,
      v.transaction.toVbkEncoding,
      v.merklePath.toVbkEncoding,
      v.containingBlock.toVbkEncoding]
  else
    none

def deserializeFromVbkEncoding : Decoder VTB := do
  let version ← orInvalid ["vtb-version"] (readBE 4)
  require (UInt32.ofNat version = 1) "vtb-bad-version"
  let transaction ← orInvalid ["vtb-transaction"] VbkPopTx.deserializeFromVbkEncoding
  let merklePath ← orInvalid ["vtb-merkle-path"] VbkMerklePath.deserializeFromVbkEncoding
  let containingBlock ← orInvalid ["vtb-containing-block"] VbkBlock.deserializeFromVbkEncoding
  pure {
    version := UInt32.ofNat version
    transaction := transaction
    merklePath := merklePath
    containingBlock := containingBlock }

def estimateSize (v : VTB) : Nat :=
  4 + v.transaction.estimateSize + v.merklePath.estimateSize + v.containingBlock.estimateSize

end VTB

structure PopData where
  version : UInt32
  context : List VbkBlock
  vtbs : List VTB
  atvs : List ATV
  deriving DecidableEq

namespace PopData

/-- `MAX_POPDATA_VBK`, `MAX_POPDATA_VTB` and `MAX_POPDATA_ATV` -/
def maxItems : Nat := 50000

def toVbkEncoding (p : PopData) : Encoding :=
  if p.version = 1 then
    concat [
      writeBE 4 p.version.toNat,
      writeContainer p.context VbkBlock.toVbkEncoding,
      writeContainer p.vtbs VTB.toVbkEncoding,
      writeContainer p.atvs ATV.toVbkEncoding]
  else
    none

/-- `i` counts the calls of the function that reads an item, the one that fails among them. -/
def deserializeFromVbkEncoding : Decoder PopData := do
  let version ← orInvalid ["pop-version"] (readBE 4)
  require (UInt32.ofNat version = 1) "pop-bad-version"
  let context ← readArrayOf (fun i => ["popdata-vbk", toString i]) 0 maxItems VbkBlock.deserializeFromVbkEncoding
  let vtbs ← readArrayOf (fun i => ["popdata-vtb", toString i]) 0 maxItems VTB.deserializeFromVbkEncoding
  let atvs ← readArrayOf (fun i => ["popdata-atv", toString i]) 0 maxItems ATV.deserializeFromVbkEncoding
  pure { version := UInt32.ofNat version, context := context, vtbs := vtbs, atvs := atvs }

def estimateSize (p : PopData) : Nat :=
  4 + estimateContainerSize p.context VbkBlock.estimateSize + estimateContainerSize p.vtbs VTB.estimateSize +
    estimateContainerSize p.atvs ATV.estimateSize

end PopData

end AltIntegration.Serde
