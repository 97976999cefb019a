import Mathlib.Algebra.Order.BigOperators.Group.List
import AltIntegration.Serde.ContextInfo
import AltIntegration.Serde.Publications
import AltIntegration.Serde.StoredBlocks

/-!
This module contains `checkVbkTx` of `stateless_validation.cpp` with the functions that it calls: the fee of a VBK
transaction, the context that it publishes and its signature.
-/

namespace AltIntegration

open Serde ReadStream

namespace Serde

namespace Address

/-- The text of an address of the type `STANDARD`. -/
def fromPublicKey (publicKey : List UInt8) : Except Failure (List Char) := do
  let keyHashEncoded ← encodeBase58 (sha256 publicKey)
  let data := 'V' :: keyHashEncoded.take 24
  let checksum ← calculateChecksum data false
  pure (data ++ checksum)

/-- Addresses are compared as texts. -/
def isDerivedFromPublicKey (a : Address) (publicKey : List UInt8) : Except Failure Bool := do
  let expectedAddress ← fromPublicKey publicKey
  if a.text ≠ expectedAddress then
    pure false
  else
    let checksum ← calculateChecksum a.text (a.type = .multisig)
    let expectedChecksum ← calculateChecksum expectedAddress false
    pure (checksum = expectedChecksum)

end Address

namespace VbkTx

def getHash (t : VbkTx) : Encoding := t.toRaw.map sha256

/-- A sum of 64 bits that wraps, and so does the difference. -/
def calculateTxFee (t : VbkTx) : Coin :=
  ⟨t.sourceAmount.units - t.outputs.foldl (fun output o => output + o.coin.units) 0⟩

end VbkTx

end Serde

/-- What `secp256k1.cpp` uses of the library: a parsed public key is known by its 65 bytes. -/
structure Secp256k1 where
  parsePublicKey : List UInt8 → Option (List UInt8)
  verifyDer : List UInt8 → List UInt8 → List UInt8 → Bool

namespace Secp256k1

variable (lib : Secp256k1)

def publicKeyUncompress (publicKey : List UInt8) : Except Failure (List UInt8) :=
  match lib.parsePublicKey publicKey with
  | none => .error .assertion
  | some output => .ok output

/-- The three formats of a public key. Others are exceptions. -/
def publicKeyFromVbk (key : List UInt8) : Except Failure (List UInt8) :=
  if key.length = 88 then
    if key[23]? = some 0x04 then .ok (key.drop 23) else .error .assertion
  else if key.length = 65 then
    if key[0]? = some 0x04 then .ok key else .error .assertion
  else if key.length = 33 then
    if key[0]? = some 0x02 ∨ key[0]? = some 0x03 then lib.publicKeyUncompress key else .error .assertion
  else
    .error .assertion

def verify (message signature publicKey : List UInt8) : Bool :=
  match lib.parsePublicKey publicKey with
  | none => false
  | some pubkey => lib.verifyDer (sha256 message) signature pubkey

end Secp256k1

/-- What the check of a publication asks of `AltChainParams` and `VbkChainParams`. -/
structure PublicationParams where
  identifier : Int64
  checkBlockHeader : List UInt8 → List UInt8 → Except Failure Unit
  transactionMagicByte : Option UInt8
  secp256k1 : Secp256k1

namespace PublicationParams

variable (p : PublicationParams)

def checkPublicationData (pub : PublicationData) : Except Failure Unit :=
  if pub.identifier ≠ p.identifier then
    .error (.invalid ["bad-altchain-id"])
  else do
    let c ← Address.orReason "bad-contextinfo"
      (decode AuthenticatedContextInfoContainer.deserializeFromVbkEncoding pub.contextInfo)
    match c.getTopLevelMerkleRoot with
    | none => throw .assertion
    | some root => Address.orReason "bad-endorsed-header" (p.checkBlockHeader pub.header root)

def checkSignature (tx : VbkTx) : Except Failure Unit := do
  if ← tx.sourceAddress.isDerivedFromPublicKey tx.publicKey then
    match tx.getHash with
    | none => throw .assertion
    | some hash =>
      let publicKey ← p.secp256k1.publicKeyFromVbk tx.publicKey
      if p.secp256k1.verify hash tx.signature publicKey then pure () else throw (.invalid ["invalid-vbk-tx"])
  else
    throw (.invalid ["invalid-vbk-tx"])

/-- `MAX_OUTPUTS_COUNT` -/
def maxOutputsCount : Nat := 255

def checkVbkTx (tx : VbkTx) : Except Failure Unit :=
  if maxOutputsCount < tx.outputs.length then
    .error (.invalid ["vbktx-too-many-outputs"])
  else if tx.networkOrType.networkType ≠ p.transactionMagicByte then
    .error (.invalid ["vbktx-bad-tx-byte"])
  else if tx.calculateTxFee.units < 0 then
    .error (.invalid ["vbktx-overspending"])
  else do
    Address.orReason "vbktx-bad-publicationdata" (p.checkPublicationData tx.publicationData)
    Address.orReason "vbktx-check-signature" (p.checkSignature tx)

end PublicationParams

namespace Serde.VbkTx

/-- The sum of the outputs without a bound -/
def outputSum (t : VbkTx) : Int := (t.outputs.map (fun o => o.coin.units.toInt)).sum

/-- No coins come out of nothing, and the fee is what is left. -/
structure NoOverspending (t : VbkTx) : Prop where
  outputs_nonneg : ∀ o ∈ t.outputs, 0 ≤ o.coin.units.toInt
  source_nonneg : 0 ≤ t.sourceAmount.units.toInt
  sum_le : t.outputSum ≤ t.sourceAmount.units.toInt
  fee_eq : t.calculateTxFee.units.toInt = t.sourceAmount.units.toInt - t.outputSum

section

variable {t : VbkTx} {outputs : List Output} {acc : Int64}

theorem foldl_units :
    outputs.foldl (fun output o => output + o.coin.units) acc =
      Int64.ofInt (acc.toInt + (outputs.map (fun o => o.coin.units.toInt)).sum) := by
  induction outputs generalizing acc with
  | nil =>
    rw [List.map_nil, List.sum_nil, Int.add_zero, Int64.ofInt_toInt]
    rfl
  | cons o outputs ih =>
    rw [List.foldl_cons, ih, List.map_cons, List.sum_cons]
    simp only [Int64.ofInt_add, Int64.ofInt_toInt]
    rw [Int64.add_assoc]

/-- The fee is the difference up to multiples of `2 ^ 64`. -/
theorem calculateTxFee_units : t.calculateTxFee.units = Int64.ofInt (t.sourceAmount.units.toInt - t.outputSum) := by
  rw [calculateTxFee, foldl_units, Int64.toInt_zero, Int.zero_add, Int64.ofInt_sub, Int64.ofInt_toInt]
  rfl

theorem calculateTxFee_exact (hlow : -2 ^ 63 ≤ t.sourceAmount.units.toInt - t.outputSum)
    (hhigh : t.sourceAmount.units.toInt - t.outputSum < 2 ^ 63) :
    t.calculateTxFee.units.toInt = t.sourceAmount.units.toInt - t.outputSum := by
  rw [calculateTxFee_units, Int64.toInt_ofInt_of_le hlow hhigh]

theorem outputSum_nonneg (h : ∀ o ∈ t.outputs, 0 ≤ o.coin.units.toInt) : 0 ≤ t.outputSum := by
  apply List.sum_nonneg
  intro n hn
  obtain ⟨o, ho, rfl⟩ := List.mem_map.mp hn
  exact h o ho

/-- With a fee that is not negative, coins come out of nothing if an amount is negative or the fee wraps. -/
theorem noOverspending_iff (hfee : 0 ≤ t.calculateTxFee.units.toInt) :
    t.NoOverspending ↔ (∀ o ∈ t.outputs, 0 ≤ o.coin.units.toInt) ∧ t.outputSum < 2 ^ 63 ∧
      -2 ^ 63 ≤ t.sourceAmount.units.toInt - t.outputSum := by
  have hsource := t.sourceAmount.units.toInt_lt
  constructor
  . intro h
    have hsum := h.sum_le
    refine ⟨h.outputs_nonneg, ?_, ?_⟩
    . omega
    . omega
  . intro h
    have hnonneg := outputSum_nonneg h.1
    have hexact := calculateTxFee_exact h.2.2 (by omega)
    constructor
    . exact h.1
    . omega
    . omega
    . exact hexact

end

end Serde.VbkTx

namespace PublicationParams

variable {p : PublicationParams} {tx : VbkTx}

theorem checkVbkTx_ok (h : p.checkVbkTx tx = .ok ()) :
    tx.outputs.length ≤ maxOutputsCount ∧ tx.networkOrType.networkType = p.transactionMagicByte ∧
      0 ≤ tx.calculateTxFee.units.toInt ∧ p.checkPublicationData tx.publicationData = .ok () ∧
      p.checkSignature tx = .ok () := by
  rw [checkVbkTx] at h
  split at h
  . cases h
  . next hcount =>
    split at h
    . cases h
    . next hbyte =>
      split at h
      . cases h
      . next hfee =>
        obtain ⟨_, hpublication, hsignature⟩ := Address.bind_eq_ok h
        rw [Int64.lt_iff_toInt_lt, Int64.toInt_zero, not_lt] at hfee
        exact ⟨not_lt.mp hcount, not_not.mp hbyte, hfee, Address.orReason_ok hpublication, Address.orReason_ok hsignature⟩

/-- A transaction that is accepted overspends if an output is negative, or if the sum or the fee does not fit. -/
theorem noOverspending_accepted_iff (h : p.checkVbkTx tx = .ok ()) :
    tx.NoOverspending ↔ (∀ o ∈ tx.outputs, 0 ≤ o.coin.units.toInt) ∧ tx.outputSum < 2 ^ 63 ∧
      -2 ^ 63 ≤ tx.sourceAmount.units.toInt - tx.outputSum :=
  VbkTx.noOverspending_iff (checkVbkTx_ok h).2.2.1

end PublicationParams

namespace Small

def uncompressedKey : List UInt8 :=
  4 :: Bytes.ofNat 32 0xdb23d8d6503fcc5c18d10db2374fe00901de52ddc9f11da07d707202a3d2a866 ++
    Bytes.ofNat 32 0xb2e256098884adc4bfe5294342615165f9b071231dba05944dd0b2f29e0960f5

def honestHash : List UInt8 := Bytes.ofNat 32 0x2dac86249d281d38e2b02aee321c810ac4eac07fb3426770944013838e6d0d5c

def honestSignature : List UInt8 :=
  Bytes.ofNat 4 0x30440220 ++
    Bytes.ofNat 32 0x2754cf55a28cd94700eeed6afc3d3c4e33292e794a44d96ae464f03f6241921f ++
    Bytes.ofNat 2 0x0220 ++
    Bytes.ofNat 32 0x3b635427cd6caa15deda008ea7920b8da4515550e3fcf02c9bc25bdb41583550

def negativeHash : List UInt8 := Bytes.ofNat 32 0x04980dfebd281b0bdb0480f18fd11a2dfd522c8cf8b3e503e8cd5ee1a6480aaf

def negativeSignature : List UInt8 :=
  Bytes.ofNat 5 0x3045022100 ++
    Bytes.ofNat 32 0x893e0e2f939a1ee54ae98524c482ed47deea7dde7b2f127fc9be447e6001655c ++
    Bytes.ofNat 2 0x0220 ++
    Bytes.ofNat 32 0x0390ced1109e8c1140baffac6c37d5ff50b3e371859e6fa77805a3643585d754

/-- The library as it answers about one key and two signatures. -/
def knownSignatures : Secp256k1 where
  parsePublicKey key := if key = uncompressedKey then some key else none
  verifyDer hash signature key := decide (key = uncompressedKey ∧
    (hash = honestHash ∧ signature = honestSignature ∨ hash = negativeHash ∧ signature = negativeSignature))

/-- `AltChainParamsRegTest` and `VbkChainParamsMain` -/
def publicationParams : PublicationParams where
  identifier := 0
  checkBlockHeader header _ := (decode (AltBlock.deserializeFromRaw 32) header).map (fun _ => ())
  transactionMagicByte := none
  secp256k1 := knownSignatures

def sourceAddress : Address where
  type := .standard
  text := "VDn2V5k6dAAtFQHSuA4MEuNFn9kfqU".toList
  valid := by decide +kernel

/-- A transaction with one output. -/
def transfer (sourceAmount amount : Int64) (signature : List UInt8) : VbkTx where
  networkOrType := ⟨none, 1⟩
  sourceAddress := sourceAddress
  sourceAmount := ⟨sourceAmount⟩
  outputs := [⟨default, ⟨amount⟩⟩]
  signatureIndex := 0
  publicationData := {
    identifier := 0
    header := 32 :: List.replicate 32 1 ++ [0, 0, 0, 0, 1, 0, 0, 0, 1]
    payoutInfo := []
    contextInfo := [0, 0, 0, 1, 0, 0] ++ List.replicate 32 2 }
  signature := signature
  publicKey := Bytes.ofNat 23 0x3056301006072a8648ce3d020106052b8104000a034200 ++ uncompressedKey

def honest : VbkTx := transfer 1000 900 honestSignature

/-- The source has nothing, and the output is a negative amount. -/
def negative : VbkTx := transfer 0 (-5) negativeSignature

theorem noOverspending_honest :
    honest.NoOverspending ↔ (∀ o ∈ honest.outputs, 0 ≤ o.coin.units.toInt) ∧ honest.outputSum < 2 ^ 63 ∧
      -2 ^ 63 ≤ honest.sourceAmount.units.toInt - honest.outputSum :=
  PublicationParams.noOverspending_accepted_iff (p := publicationParams) (by decide +kernel)

/-- A transaction that is read from its bytes, is accepted and has a negative output. -/
theorem negative_accepted :
    ¬∀ (p : PublicationParams) (bytes : List UInt8) (tx : VbkTx),
      decode VbkTx.deserializeFromVbkEncoding bytes = .ok tx → p.checkVbkTx tx = .ok () → tx.NoOverspending := by
  intro h
  have hbytes : decode VbkTx.deserializeFromVbkEncoding (negative.toVbkEncoding.getD []) = .ok negative := by
    decide +kernel
  have hno := h publicationParams _ negative hbytes (by decide +kernel)
  have hnonneg := hno.outputs_nonneg ⟨default, ⟨-5⟩⟩ (List.mem_singleton.mpr rfl)
  exact absurd hnonneg (by decide)

end Small

end AltIntegration
