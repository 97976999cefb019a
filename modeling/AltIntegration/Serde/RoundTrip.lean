import AltIntegration.Serde.Publications

/-!
This module contains what decoding `PopData`, and everything inside it, makes of an encoding.
-/

namespace AltIntegration.Serde

open ReadStream

namespace NetworkBytePair

/-- The pair can be told from one without, or with, a network byte. -/
def Readable (type : TxType) (p : NetworkBytePair) : Prop :=
  match p.networkType with
  | some value => value.toNat ≠ type.toByte
  | none => p.typeId.toNat = type.toByte

instance (type : TxType) : (p : NetworkBytePair) → Decidable (p.Readable type)
  | ⟨some value, _⟩ => inferInstanceAs (Decidable (value.toNat ≠ type.toByte))
  | ⟨none, typeId⟩ => inferInstanceAs (Decidable (typeId.toNat = type.toByte))

theorem decodesIff (type : TxType) (p : NetworkBytePair) :
    DecodesIff (p.Readable type) p.write (read type) p := by
  have htype : p.typeId.toNat < 256 ^ 1 := p.typeId.toNat_lt
  cases p with
  | mk networkType typeId =>
    cases networkType with
    | some value =>
      have hvalue : value.toNat < 256 ^ 1 := value.toNat_lt
      rw [write, read]
      simp only [Readable]
      apply DecodesIff.bind_right (decodes_readBE hvalue).orInvalid
      constructor
      . intro hne
        rw [if_neg hne]
        apply Decodes.bind (decodes_readBE htype).orInvalid
        simp only [UInt8.ofNat_toNat]
        exact .pure _
      . intro heq
        rw [if_pos (not_not.mp heq)]
        apply Misdecodes.of_avoids
        apply Avoids.pure
        simp
    | none =>
      rw [write, read, ← concat_single (writeBE 1 _)]
      simp only [Readable]
      apply DecodesIff.bind_right (decodes_readBE htype).orInvalid
      constructor
      . intro heq
        rw [if_pos heq]
        simp only [UInt8.ofNat_toNat]
        exact .pure _
      . intro hne
        rw [if_neg hne]
        apply Misdecodes.of_avoids
        apply Avoids.bind
        intro x
        apply Avoids.pure
        simp

theorem hasSize (p : NetworkBytePair) : HasSize p.write p.size := by
  rw [write, size]
  cases p.networkType with
  | some value => exact hasSize_writeBE.cons (hasSize_writeBE.cons .nil)
  | none => exact hasSize_writeBE

end NetworkBytePair

theorem Coin.decodes (c : Coin) : Decodes c.toVbkEncoding deserializeFromVbkEncoding c := by
  rw [toVbkEncoding, deserializeFromVbkEncoding, ← concat_single (writeSingleBEValue _)]
  apply Decodes.bind (decodes_singleBE c.units).orInvalid
  rw [ofNat_toUInt64]
  exact .pure c

theorem Coin.hasSize (c : Coin) : HasSize c.toVbkEncoding c.estimateSize := hasSize_singleBE _

theorem Output.decodes (o : Output) : Decodes o.toVbkEncoding deserializeFromVbkEncoding o := by
  rw [toVbkEncoding, deserializeFromVbkEncoding]
  apply Decodes.bind o.address.decodes.orInvalid
  apply Decodes.bind o.coin.decodes.orInvalid
  exact .pure o

theorem Output.hasSize (o : Output) : HasSize o.toVbkEncoding o.estimateSize :=
  o.address.hasSize.1.cons (o.coin.hasSize.cons .nil)

namespace PublicationData

structure Limits (p : PublicationData) : Prop where
  header : p.header.length ≤ maxHeaderSize
  contextInfo : p.contextInfo.length ≤ maxContextSize
  payoutInfo : p.payoutInfo.length ≤ maxPayoutInfoSize

theorem decodes {p : PublicationData} (h : p.Limits) : Decodes p.toVbkEncoding deserializeFromVbkEncoding p := by
  have hheader : p.header.length ≤ 1024 := h.header
  have hcontext : p.contextInfo.length ≤ 10000 := h.contextInfo
  have hpayout : p.payoutInfo.length ≤ 10000 := h.payoutInfo
  rw [toVbkEncoding, deserializeFromVbkEncoding]
  apply Decodes.bind (decodes_singleBE p.identifier).orInvalid
  apply Decodes.bind (decodes_varLen (Nat.zero_le _) h.header (by omega)).orInvalid
  apply Decodes.bind (decodes_varLen (Nat.zero_le _) h.contextInfo (by omega)).orInvalid
  apply Decodes.bind (decodes_varLen (Nat.zero_le _) h.payoutInfo (by omega)).orInvalid
  rw [ofNat_toUInt64]
  exact .pure p

theorem hasSize (p : PublicationData) : HasSize p.toVbkEncoding p.estimateSize :=
  ((hasSize_singleBE _).cons ((hasSize_varLen _).cons ((hasSize_varLen _).cons ((hasSize_varLen _).cons .nil)))).congr
    (by rw [estimateSize]; omega)

/-- Less than the decoders of what contains it admit, but for `VbkTx`. -/
theorem estimateSize_le {p : PublicationData} (h : p.Limits) : p.estimateSize ≤ 21060 := by
  have hheader : p.header.length ≤ 1024 := h.header
  have hcontext : p.contextInfo.length ≤ 10000 := h.contextInfo
  have hpayout : p.payoutInfo.length ≤ 10000 := h.payoutInfo
  have := singleBEValueSize_le p.identifier
  have := singleBEValueSize_le (Int64.ofNat p.header.length)
  have := singleBEValueSize_le (Int64.ofNat p.contextInfo.length)
  have := singleBEValueSize_le (Int64.ofNat p.payoutInfo.length)
  simp only [estimateSize, varLenValueSize]
  omega

end PublicationData

namespace VbkTx

structure Limits (t : VbkTx) : Prop where
  outputs : t.outputs.length ≤ 255
  publicationData : t.publicationData.Limits
  signature : t.signature.length ≤ maxSignatureSize
  publicKey : t.publicKey.length ≤ maxPublicKeySize

/-- What the decoder needs beyond the limits of the fields. -/
def Fits (t : VbkTx) : Prop :=
  t.networkOrType.Readable .vbkTx ∧ t.publicationData.estimateSize ≤ PublicationData.maxSize

instance (t : VbkTx) : Decidable t.Fits := inferInstanceAs (Decidable (_ ∧ _))

theorem decodesIff_raw {t : VbkTx} (h : t.Limits) :
    DecodesIff t.Fits t.toRaw (deserializeFromRaw t.signature t.publicKey) t := by
  have houtputs : t.outputs.length < 256 ^ 1 := Nat.lt_succ_of_le h.outputs
  have hpub := PublicationData.decodes h.publicationData
  have hle := PublicationData.estimateSize_le h.publicationData
  cases t.publicationData.hasSize with
  | intro pubBytes hbytes =>
    rw [toRaw, deserializeFromRaw, Fits, hbytes.1, ← hbytes.2, Option.bind_some]
    rw [← hbytes.2] at hle
    apply DecodesIff.bind (NetworkBytePair.decodesIff _ _).orInvalid
    . intro _
      apply DecodesIff.bind_right t.sourceAddress.decodes.orInvalid
      apply DecodesIff.bind_right t.sourceAmount.decodes.orInvalid
      apply DecodesIff.bind_right (decodes_readBE houtputs).orInvalid
      apply DecodesIff.bind_right (decodes_readItems (fun o _ => o.decodes) 0)
      apply DecodesIff.bind_right (decodes_singleBE _).orInvalid
      apply DecodesIff.congr _ (Iff.of_eq (and_true _))
      apply DecodesIff.bind_checked
      . intro hfits
        exact (decodes_varLen (Nat.zero_le _) hfits (by omega)).orInvalid
      . intro hlong
        exact (rejects_varLen (by omega) (by omega)).orInvalid
      . intro _
        apply DecodesIff.of_decodes _ trivial
        apply Decodes.skip (hpub.nested hbytes.1).orInvalid
        rw [ofNat_toUInt64]
        exact .pure t
    . intro x hx
      iterate 7
        apply Avoids.bind
        intro _
      apply Avoids.pure
      intro heq
      exact hx (congrArg VbkTx.networkOrType heq)

theorem hasSize_raw {t : VbkTx} : HasSize t.toRaw t.rawSize := by
  cases t.publicationData.hasSize with
  | intro pubBytes hbytes =>
    rw [toRaw, rawSize, hbytes.1, ← hbytes.2, Option.bind_some]
    apply HasSize.congr
    . apply t.networkOrType.hasSize.cons
      apply t.sourceAddress.hasSize.1.cons
      apply t.sourceAmount.hasSize.cons
      apply hasSize_writeBE.cons
      apply (HasSize.items (fun o _ => o.hasSize)).cons
      apply (hasSize_singleBE _).cons
      exact (hasSize_varLen _).cons .nil
    . omega

/-- However many outputs, the transaction stays below the limit on its size. -/
theorem rawSize_le {t : VbkTx} (h : t.Limits) : t.rawSize ≤ maxPopDataSize := by
  have houtputs : (t.outputs.map Output.estimateSize).sum ≤ t.outputs.length * 41 := by
    apply sum_map_le
    intro o _
    have := o.address.hasSize.2
    have := singleBEValueSize_le o.coin.units
    rw [Output.estimateSize, Coin.estimateSize]
    omega
  have := Nat.mul_le_mul_right 41 h.outputs
  have := t.sourceAddress.hasSize.2
  have := singleBEValueSize_le t.sourceAmount.units
  have := singleBEValueSize_le t.signatureIndex
  have := PublicationData.estimateSize_le h.publicationData
  have := singleBEValueSize_le (Int64.ofNat t.publicationData.estimateSize)
  have hnetwork : t.networkOrType.size ≤ 2 := by
    rw [NetworkBytePair.size]
    split <;> omega
  simp only [rawSize, maxPopDataSize, varLenValueSize, Coin.estimateSize]
  omega

theorem decodesIff {t : VbkTx} (h : t.Limits) : DecodesIff t.Fits t.toVbkEncoding deserializeFromVbkEncoding t := by
  have hle : t.rawSize ≤ 5500000 := rawSize_le h
  have hsignature : t.signature.length ≤ 72 := h.signature
  have hpublicKey : t.publicKey.length ≤ 88 := h.publicKey
  cases hasSize_raw (t := t) with
  | intro raw hraw =>
    rw [toVbkEncoding, deserializeFromVbkEncoding, hraw.1, Option.bind_some]
    apply DecodesIff.bind_right
    . apply Decodes.orInvalid
      apply decodes_varLen (Nat.zero_le _)
      . rw [hraw.2]
        exact hle
      . omega
    apply DecodesIff.bind_right (decodes_singleByteLen (Nat.zero_le _) h.signature (by omega)).orInvalid
    apply DecodesIff.bind_right (decodes_singleByteLen (Nat.zero_le _) h.publicKey (by omega)).orInvalid
    exact (decodesIff_raw h).nested hraw.1

end VbkTx

theorem BtcTx.decodes {t : BtcTx} (h : t.tx.length ≤ maxRawSize) :
    Decodes t.toVbkEncoding deserializeFromVbkEncoding t := by
  have hlen : t.tx.length ≤ 4000000 := h
  rw [toVbkEncoding, deserializeFromVbkEncoding, ← concat_single (writeVarLenValue _)]
  apply Decodes.bind (decodes_varLen (Nat.zero_le _) h (by omega)).orInvalid
  exact .pure t

theorem BtcTx.hasSize (t : BtcTx) : HasSize t.toVbkEncoding t.estimateSize := hasSize_varLen _

theorem decodes_layer (layer : Blob 32) : Decodes (writeLayer layer) readLayer layer := by
  have hlen := layer.size
  rw [writeLayer, readLayer, ← concat_single (writeSingleByteLenValue _)]
  apply Decodes.bind (decodes_singleByteLen (by omega) (by omega) (by omega))
  exact layer.decodes_assign

theorem hasSize_layer (layer : Blob 32) : HasSize (writeLayer layer) (singleByteLenValueSize layer.bytes.length) := by
  have hlen := layer.size
  exact hasSize_singleByteLen (by omega)

namespace MerklePath

theorem decodes_raw {p : MerklePath} (h : p.layers.length ≤ maxLayerCount) :
    Decodes p.toRaw (deserializeFromRaw p.subject) p := by
  have hindex : p.index.toUInt32.toNat < 256 ^ 4 := p.index.toUInt32.toNat_lt
  have hcount : p.layers.length ≤ 40 := h
  have hsubject : writeBE 4 p.subject.bytes.length = write (Bytes.ofNat 4 p.subject.bytes.length) := rfl
  rw [toRaw, deserializeFromRaw, Bytes.length_ofNat, p.subject.size]
  simp only [List.cons_append, List.nil_append]
  apply Decodes.bind (decodes_singleFixedBE (by omega) hindex).orInvalid
  apply Decodes.bind (decodes_singleFixedBE (by omega) (by omega)).orInvalid
  rw [toSize_ofNat (by omega)]
  apply Decodes.skip (decodes_checkRange (Nat.zero_le _) h).orInvalid
  apply Decodes.bind (decodes_singleFixedBE (by omega) (by omega)).orInvalid
  apply Decodes.skip (decodes_require (by decide))
  apply Decodes.bind (decodes_readBE (n := 32) (by omega)).orInvalid
  apply Decodes.skip (decodes_require (by decide))
  rw [ofNat_toUInt32]
  exact (decodes_readItems (fun layer _ => decodes_layer layer) 0).map _

theorem hasSize_raw (p : MerklePath) : HasSize p.toRaw p.rawSize := by
  have hbytes := hasSize_write (Bytes.ofNat 4 p.subject.bytes.length)
  rw [Bytes.length_ofNat] at hbytes
  rw [toRaw, rawSize]
  simp only [List.cons_append, List.nil_append]
  apply HasSize.congr
  . apply (hasSize_singleFixedBE (by omega)).cons
    apply (hasSize_singleFixedBE (by omega)).cons
    apply (hasSize_singleFixedBE (by omega)).cons
    exact hbytes.cons (.items (fun layer _ => hasSize_layer layer))
  . omega

theorem rawSize_le {p : MerklePath} (h : p.layers.length ≤ maxLayerCount) : p.rawSize ≤ 1339 := by
  have hlayers : (p.layers.map (fun layer => singleByteLenValueSize layer.bytes.length)).sum ≤ p.layers.length * 33 := by
    apply sum_map_le
    intro layer _
    rw [layer.size, singleByteLenValueSize]
  have := Nat.mul_le_mul_right 33 h
  simp only [rawSize, singleFixedBEValueSize, singleByteLenValueSize, maxLayerCount] at *
  omega

theorem decodes {p : MerklePath} (h : p.layers.length ≤ maxLayerCount) :
    Decodes p.toVbkEncoding (deserializeFromVbkEncoding p.subject) p := by
  have hle := rawSize_le h
  have hmax : maxPopDataSize = 5500000 := rfl
  cases p.hasSize_raw with
  | intro raw hraw =>
    rw [toVbkEncoding, deserializeFromVbkEncoding, hraw.1, Option.bind_some, ← concat_single (writeVarLenValue _)]
    apply Decodes.bind (decodes_varLen (Nat.zero_le _) (by omega) (by omega)).orInvalid
    exact (decodes_raw h).nested hraw.1

theorem hasSize (p : MerklePath) : HasSize p.toVbkEncoding p.estimateSize := by
  cases p.hasSize_raw with
  | intro raw hraw =>
    have := hasSize_varLen raw
    rw [hraw.2] at this
    rw [toVbkEncoding, estimateSize, hraw.1]
    exact this

end MerklePath

theorem VbkMerklePath.decodes {p : VbkMerklePath} (h : p.layers.length ≤ maxLayerCount) :
    Decodes p.toVbkEncoding deserializeFromVbkEncoding p := by
  have htree : p.treeIndex.toUInt32.toNat < 256 ^ 4 := p.treeIndex.toUInt32.toNat_lt
  have hindex : p.index.toUInt32.toNat < 256 ^ 4 := p.index.toUInt32.toNat_lt
  have hcount : p.layers.length ≤ 40 := h
  rw [toVbkEncoding, deserializeFromVbkEncoding]
  simp only [List.cons_append, List.nil_append]
  apply Decodes.bind (decodes_singleFixedBE (by omega) htree).orInvalid
  apply Decodes.bind (decodes_singleFixedBE (by omega) hindex).orInvalid
  apply Decodes.bind (decodes_layer p.subject).orInvalid
  simp only [ofNat_toUInt32]
  apply Decodes.map
  apply decodes_array (decodes_singleFixedBE (by omega) (by omega)) h (by omega)
  intro layer _
  exact decodes_layer layer

namespace VbkPopTx

structure Limits (t : VbkPopTx) : Prop where
  publishedBlock : t.publishedBlock.NonceFits
  bitcoinTransaction : t.bitcoinTransaction.tx.length ≤ BtcTx.maxRawSize
  layers : t.merklePath.layers.length ≤ maxLayerCount
  subject : t.merklePath.subject = subject t.bitcoinTransaction
  blockOfProofContext : t.blockOfProofContext.length ≤ maxBtcBlocks
  signature : t.signature.length ≤ maxSignatureSize
  publicKey : t.publicKey.length ≤ maxPublicKeySize

/-- What the decoder needs beyond the limits of the fields. -/
def Fits (t : VbkPopTx) : Prop := t.networkOrType.Readable .vbkPopTx ∧ t.rawSize ≤ maxPopDataSize

instance (t : VbkPopTx) : Decidable t.Fits := inferInstanceAs (Decidable (_ ∧ _))

theorem decodesIff_raw {t : VbkPopTx} (h : t.Limits) :
    DecodesIff (t.networkOrType.Readable .vbkPopTx) t.toRaw (deserializeFromRaw t.signature t.publicKey) t := by
  have hcontext : t.blockOfProofContext.length ≤ 65535 := h.blockOfProofContext
  have hpath := MerklePath.decodes h.layers
  rw [h.subject] at hpath
  rw [toRaw, deserializeFromRaw]
  apply DecodesIff.congr _ (Iff.of_eq (and_true _))
  apply DecodesIff.bind (NetworkBytePair.decodesIff _ _).orInvalid
  . intro _
    apply DecodesIff.of_decodes _ trivial
    apply Decodes.bind t.address.decodes.orInvalid
    apply Decodes.bind (VbkBlock.decodes h.publishedBlock).orInvalid
    apply Decodes.bind (BtcTx.decodes h.bitcoinTransaction).orInvalid
    apply Decodes.bind hpath.orInvalid
    apply Decodes.bind t.blockOfProof.decodes.orInvalid
    apply Decodes.bind (decodes_container h.blockOfProofContext (by omega) (fun b _ => b.decodes))
    exact .pure t
  . intro x hx
    iterate 6
      apply Avoids.bind
      intro _
    apply Avoids.pure
    intro heq
    exact hx (congrArg VbkPopTx.networkOrType heq)

theorem hasSize_raw (t : VbkPopTx) : HasSize t.toRaw t.rawSize := by
  rw [toRaw, rawSize]
  apply HasSize.congr
  . apply t.networkOrType.hasSize.cons
    apply t.address.hasSize.1.cons
    apply t.publishedBlock.hasSize.cons
    apply t.bitcoinTransaction.hasSize.cons
    apply t.merklePath.hasSize.cons
    apply t.blockOfProof.hasSize.cons
    exact (hasSize_container (fun b _ => b.hasSize)).cons .nil
  . omega

/-- The limits of the fields admit more than `MAX_POPDATA_SIZE`, but no size that overflows. -/
theorem rawSize_lt {t : VbkPopTx} (h : t.Limits) : t.rawSize < 2 ^ 31 := by
  have hcontext : (t.blockOfProofContext.map BtcBlock.estimateSize).sum ≤ t.blockOfProofContext.length * 81 := by
    apply sum_map_le
    intro b _
    exact Nat.le_refl _
  have := Nat.mul_le_mul_right 81 h.blockOfProofContext
  have := t.address.hasSize.2
  have := singleBEValueSize_le (Int64.ofNat t.blockOfProofContext.length)
  have := h.bitcoinTransaction
  have := singleBEValueSize_le (Int64.ofNat t.bitcoinTransaction.tx.length)
  have := MerklePath.rawSize_le h.layers
  have := singleBEValueSize_le (Int64.ofNat t.merklePath.rawSize)
  have hnetwork : t.networkOrType.size ≤ 2 := by
    rw [NetworkBytePair.size]
    split <;> omega
  simp only [rawSize, estimateContainerSize, VbkBlock.estimateSize, BtcBlock.estimateSize, BtcTx.estimateSize,
    MerklePath.estimateSize, varLenValueSize, singleByteLenValueSize, maxBtcBlocks, BtcTx.maxRawSize] at *
  omega

theorem decodesIff {t : VbkPopTx} (h : t.Limits) :
    DecodesIff t.Fits t.toVbkEncoding deserializeFromVbkEncoding t := by
  have hlt := rawSize_lt h
  have hsignature : t.signature.length ≤ 72 := h.signature
  have hpublicKey : t.publicKey.length ≤ 88 := h.publicKey
  cases t.hasSize_raw with
  | intro raw hraw =>
    rw [← hraw.2] at hlt
    rw [toVbkEncoding, deserializeFromVbkEncoding, Fits, hraw.1, ← hraw.2, Option.bind_some, and_comm]
    apply DecodesIff.bind_checked
    . intro hfits
      exact (decodes_varLen (Nat.zero_le _) hfits hlt).orInvalid
    . intro hlong
      exact (rejects_varLen (by omega) hlt).orInvalid
    . intro _
      apply DecodesIff.bind_right (decodes_singleByteLen (Nat.zero_le _) h.signature (by omega)).orInvalid
      apply DecodesIff.bind_right (decodes_singleByteLen (Nat.zero_le _) h.publicKey (by omega)).orInvalid
      exact (decodesIff_raw h).nested hraw.1

end VbkPopTx

namespace ATV

structure Limits (a : ATV) : Prop where
  version : a.version = 1
  transaction : a.transaction.Limits
  layers : a.merklePath.layers.length ≤ maxLayerCount
  blockOfProof : a.blockOfProof.NonceFits

theorem decodesIff {a : ATV} (h : a.Limits) :
    DecodesIff a.transaction.Fits a.toVbkEncoding deserializeFromVbkEncoding a := by
  have hversion : a.version.toNat < 256 ^ 4 := a.version.toNat_lt
  have hone : UInt32.ofNat a.version.toNat = 1 := UInt32.ofNat_toNat.trans h.version
  rw [toVbkEncoding, if_pos h.version, deserializeFromVbkEncoding]
  apply DecodesIff.bind_right (decodes_readBE hversion).orInvalid
  apply DecodesIff.skip (decodes_require hone)
  simp only [UInt32.ofNat_toNat]
  apply DecodesIff.congr _ (Iff.of_eq (and_true _))
  apply DecodesIff.bind (VbkTx.decodesIff h.transaction).orInvalid
  . intro _
    apply DecodesIff.of_decodes _ trivial
    apply Decodes.bind (VbkMerklePath.decodes h.layers).orInvalid
    apply Decodes.bind (VbkBlock.decodes h.blockOfProof).orInvalid
    exact .pure a
  . intro x hx
    iterate 2
      apply Avoids.bind
      intro _
    apply Avoids.pure
    intro heq
    exact hx (congrArg ATV.transaction heq)

end ATV

namespace VTB

structure Limits (v : VTB) : Prop where
  version : v.version = 1
  transaction : v.transaction.Limits
  layers : v.merklePath.layers.length ≤ maxLayerCount
  containingBlock : v.containingBlock.NonceFits

theorem decodesIff {v : VTB} (h : v.Limits) :
    DecodesIff v.transaction.Fits v.toVbkEncoding deserializeFromVbkEncoding v := by
  have hversion : v.version.toNat < 256 ^ 4 := v.version.toNat_lt
  have hone : UInt32.ofNat v.version.toNat = 1 := UInt32.ofNat_toNat.trans h.version
  rw [toVbkEncoding, if_pos h.version, deserializeFromVbkEncoding]
  apply DecodesIff.bind_right (decodes_readBE hversion).orInvalid
  apply DecodesIff.skip (decodes_require hone)
  simp only [UInt32.ofNat_toNat]
  apply DecodesIff.congr _ (Iff.of_eq (and_true _))
  apply DecodesIff.bind (VbkPopTx.decodesIff h.transaction).orInvalid
  . intro _
    apply DecodesIff.of_decodes _ trivial
    apply Decodes.bind (VbkMerklePath.decodes h.layers).orInvalid
    apply Decodes.bind (VbkBlock.decodes h.containingBlock).orInvalid
    exact .pure v
  . intro x hx
    iterate 2
      apply Avoids.bind
      intro _
    apply Avoids.pure
    intro heq
    exact hx (congrArg VTB.transaction heq)

end VTB

namespace PopData

structure Limits (p : PopData) : Prop where
  version : p.version = 1
  contextSize : p.context.length ≤ maxItems
  vtbsSize : p.vtbs.length ≤ maxItems
  atvsSize : p.atvs.length ≤ maxItems
  context : ∀ b ∈ p.context, b.NonceFits
  vtbs : ∀ v ∈ p.vtbs, v.Limits
  atvs : ∀ a ∈ p.atvs, a.Limits

/-- What the decoder needs of the transactions beyond the limits of their fields. -/
def Fits (p : PopData) : Prop := (∀ v ∈ p.vtbs, v.transaction.Fits) ∧ ∀ a ∈ p.atvs, a.transaction.Fits

instance (p : PopData) : Decidable p.Fits := inferInstanceAs (Decidable (_ ∧ _))

theorem decodesIff {p : PopData} (h : p.Limits) :
    DecodesIff p.Fits p.toVbkEncoding deserializeFromVbkEncoding p := by
  have hversion : p.version.toNat < 256 ^ 4 := p.version.toNat_lt
  have hone : UInt32.ofNat p.version.toNat = 1 := UInt32.ofNat_toNat.trans h.version
  have hcontext : p.context.length ≤ 50000 := h.contextSize
  have hvtbs : p.vtbs.length ≤ 50000 := h.vtbsSize
  have hatvs : p.atvs.length ≤ 50000 := h.atvsSize
  rw [toVbkEncoding, if_pos h.version, deserializeFromVbkEncoding]
  apply DecodesIff.bind_right (decodes_readBE hversion).orInvalid
  apply DecodesIff.skip (decodes_require hone)
  simp only [UInt32.ofNat_toNat]
  apply DecodesIff.bind_right
  . exact decodes_container h.contextSize (by omega) (fun b hb => VbkBlock.decodes (h.context b hb))
  apply DecodesIff.bind
  . exact decodesIff_container h.vtbsSize (by omega) (fun v hv => VTB.decodesIff (h.vtbs v hv))
  . intro _
    rw [concat_single]
    apply DecodesIff.map
    . exact decodesIff_container h.atvsSize (by omega) (fun a ha => ATV.decodesIff (h.atvs a ha))
    . intro x heq
      exact congrArg PopData.atvs heq
  . intro x hx
    apply Avoids.bind
    intro _
    apply Avoids.pure
    intro heq
    exact hx (congrArg PopData.vtbs heq)

end PopData

/-- `PopData` and what it is made of. -/
inductive Entity where
  | btcBlock (b : BtcBlock)
  | vbkBlock (b : VbkBlock)
  | publicationData (p : PublicationData)
  | merklePath (p : MerklePath)
  | vbkMerklePath (p : VbkMerklePath)
  | vbkTx (t : VbkTx)
  | vbkPopTx (t : VbkPopTx)
  | atv (a : ATV)
  | vtb (v : VTB)
  | popData (p : PopData)

namespace Entity

/-- The limits of the fields that the decoders check, and a BTC merkle path of the BTC transaction. -/
def Limits : Entity → Prop
  | btcBlock _ => True
  | vbkBlock b => b.NonceFits
  | publicationData p => p.Limits
  | merklePath p => p.layers.length ≤ maxLayerCount
  | vbkMerklePath p => p.layers.length ≤ maxLayerCount
  | vbkTx t => t.Limits
  | vbkPopTx t => t.Limits
  | atv a => a.Limits
  | vtb v => v.Limits
  | popData p => p.Limits

def Fits : Entity → Prop
  | vbkTx t => t.Fits
  | vbkPopTx t => t.Fits
  | atv a => a.transaction.Fits
  | vtb v => v.transaction.Fits
  | popData p => p.Fits
  | _ => True

/-- Decoding what `toVbkEncoding` writes gives the entity back and leaves nothing unread. -/
def RoundTrips : Entity → Prop
  | btcBlock b => AltIntegration.RoundTrips b.toVbkEncoding BtcBlock.deserializeFromVbkEncoding b
  | vbkBlock b => AltIntegration.RoundTrips b.toVbkEncoding VbkBlock.deserializeFromVbkEncoding b
  | publicationData p => AltIntegration.RoundTrips p.toVbkEncoding PublicationData.deserializeFromVbkEncoding p
  | merklePath p => AltIntegration.RoundTrips p.toVbkEncoding (MerklePath.deserializeFromVbkEncoding p.subject) p
  | vbkMerklePath p => AltIntegration.RoundTrips p.toVbkEncoding VbkMerklePath.deserializeFromVbkEncoding p
  | vbkTx t => AltIntegration.RoundTrips t.toVbkEncoding VbkTx.deserializeFromVbkEncoding t
  | vbkPopTx t => AltIntegration.RoundTrips t.toVbkEncoding VbkPopTx.deserializeFromVbkEncoding t
  | atv a => AltIntegration.RoundTrips a.toVbkEncoding ATV.deserializeFromVbkEncoding a
  | vtb v => AltIntegration.RoundTrips v.toVbkEncoding VTB.deserializeFromVbkEncoding v
  | popData p => AltIntegration.RoundTrips p.toVbkEncoding PopData.deserializeFromVbkEncoding p

/--
Decoding undoes encoding, except for three slips. `MAX_PUBLICATIONDATA_SIZE` counts one byte for the length of a
field, whose encoding takes up to three. `MAX_POPDATA_SIZE` is less than what the limits of the parts of a `VbkPopTx`
add up to. And a pair without a network byte is written whatever its type is, but is told from one with a network byte
by its type.
-/
theorem decoding_undoes_encoding_iff (x : Entity) (h : x.Limits) : x.RoundTrips ↔ x.Fits := by
  cases x with
  | btcBlock b => exact iff_of_true b.decodes.roundTrips trivial
  | vbkBlock b => exact iff_of_true (VbkBlock.decodes h).roundTrips trivial
  | publicationData p => exact iff_of_true (PublicationData.decodes h).roundTrips trivial
  | merklePath p => exact iff_of_true (MerklePath.decodes h).roundTrips trivial
  | vbkMerklePath p => exact iff_of_true (VbkMerklePath.decodes h).roundTrips trivial
  | vbkTx t => exact (VbkTx.decodesIff h).roundTrips_iff
  | vbkPopTx t => exact (VbkPopTx.decodesIff h).roundTrips_iff
  | atv a => exact (ATV.decodesIff h).roundTrips_iff
  | vtb v => exact (VTB.decodesIff h).roundTrips_iff
  | popData p => exact (PopData.decodesIff h).roundTrips_iff

end Entity

namespace Small

def btcBlock : BtcBlock := ⟨1, .zero 32, .zero 32, 2, 3, 4⟩

def vbkBlock : VbkBlock := ⟨5, 2, .zero 12, .zero 9, .zero 9, .zero 16, 6, 7, 8⟩

/-- An ATV with that publication data. -/
def atv (publicationData : PublicationData) : ATV where
  version := 1
  transaction := {
    networkOrType := ⟨none, 1⟩
    sourceAddress := default
    sourceAmount := ⟨1000⟩
    outputs := [⟨default, ⟨900⟩⟩]
    signatureIndex := 7
    publicationData := publicationData
    signature := [1, 2]
    publicKey := [3] }
  merklePath := ⟨0, 1, .zero 32, [.zero 32]⟩
  blockOfProof := vbkBlock

def vtb : VTB where
  version := 1
  transaction := {
    networkOrType := ⟨some 0xAA, 2⟩
    address := default
    publishedBlock := vbkBlock
    bitcoinTransaction := ⟨[1, 2, 3]⟩
    merklePath := ⟨0, VbkPopTx.subject ⟨[1, 2, 3]⟩, [.zero 32]⟩
    blockOfProof := btcBlock
    blockOfProofContext := [btcBlock]
    signature := [1, 2]
    publicKey := [3] }
  merklePath := ⟨0, 1, .zero 32, [.zero 32]⟩
  containingBlock := vbkBlock

/-- A body with one payload of each kind. -/
def popData (publicationData : PublicationData) : PopData := ⟨1, [vbkBlock], [vtb], [atv publicationData]⟩

theorem limits {p : PublicationData} (h : p.Limits) : (popData p).Limits where
  version := rfl
  contextSize := (by decide : 1 ≤ 50000)
  vtbsSize := (by decide : 1 ≤ 50000)
  atvsSize := (by decide : 1 ≤ 50000)
  context := by
    intro b hb
    rw [List.mem_singleton.mp hb]
    decide
  vtbs := by
    intro v hv
    rw [List.mem_singleton.mp hv]
    exact ⟨rfl, ⟨by decide, by decide, by decide, rfl, by decide, by decide, by decide⟩, by decide, by decide⟩
  atvs := by
    intro a ha
    rw [List.mem_singleton.mp ha]
    have hblock : vbkBlock.NonceFits := by decide
    exact ⟨rfl, ⟨(by decide : 1 ≤ 255), h, (by decide : 2 ≤ 72), (by decide : 1 ≤ 88)⟩, (by decide : 1 ≤ 40), hblock⟩

end Small

theorem roundTrips_small : (Entity.popData (Small.popData ⟨1, [1], [2], [3]⟩)).RoundTrips := by
  have hlimits : (Small.popData ⟨1, [1], [2], [3]⟩).Limits := Small.limits ⟨by decide, by decide, by decide⟩
  apply (Entity.decoding_undoes_encoding_iff (.popData _) hlimits).mpr
  have hfits : (Small.popData ⟨1, [1], [2], [3]⟩).Fits := by decide +kernel
  exact hfits

/-- Publication data whose fields are as large as their limits. -/
def PublicationData.maximal : PublicationData where
  identifier := Int64.maxValue
  header := List.replicate 1024 0
  payoutInfo := List.replicate 10000 0
  contextInfo := List.replicate 10000 0

theorem maximal_rejected :
    (Entity.popData (Small.popData .maximal)).Limits ∧ ¬(Entity.popData (Small.popData .maximal)).RoundTrips := by
  have hheader : PublicationData.maximal.header.length = 1024 := List.length_replicate
  have hcontext : PublicationData.maximal.contextInfo.length = 10000 := List.length_replicate
  have hpayout : PublicationData.maximal.payoutInfo.length = 10000 := List.length_replicate
  have hlimits : (Small.popData .maximal).Limits := Small.limits ⟨hheader.le, hcontext.le, hpayout.le⟩
  refine ⟨hlimits, ?_⟩
  intro htrip
  have hfits := (PopData.decodesIff hlimits).roundTrips_iff.mp htrip
  have hsize := (hfits.2 (Small.atv .maximal) (List.mem_singleton.mpr rfl)).2
  have hle : PublicationData.maximal.estimateSize ≤ PublicationData.maxSize := hsize
  rw [PublicationData.estimateSize, hheader, hcontext, hpayout] at hle
  revert hle
  decide +kernel

end AltIntegration.Serde
