import Mathlib.Data.Nat.Pairing

/-!
This module contains the entities the block trees store: block headers, publications and the
endorsements made from them. Hashes are kept as numbers. An id that the source computes by hashing
other hashes is their pairing, so that equal ids mean equal hashed values, as with a collision-free
hash; what the source leaves out of an id is left out here too.
-/

namespace AltIntegration

abbrev Hash := Nat

/--
The part of a block header that the trees read. The three kinds of blocks share it. The hash of an ALT
block is whatever the altchain says it is.
-/
structure Block where
  hash : Hash
  previousBlock : Hash
  height : Nat
  timestamp : Nat
  difficulty : Nat
  deriving DecidableEq, Repr

/--
The header of a BTC or a VBK block. `nonce` stands for everything that no tree reads; the header of
a BTC block has no height of its own, and no tree reads it there.
-/
structure PowBlock where
  previousBlock : Hash
  height : Nat
  timestamp : Nat
  difficulty : Nat
  nonce : Nat
  deriving DecidableEq, Repr

namespace PowBlock

/-- The hash covers the whole header. No block has the hash 0. -/
def getHash (b : PowBlock) : Hash :=
  Nat.pair b.previousBlock (Nat.pair b.height (Nat.pair b.timestamp (Nat.pair b.difficulty b.nonce))) + 1

def toBlock (b : PowBlock) : Block where
  hash := b.getHash
  previousBlock := b.previousBlock
  height := b.height
  timestamp := b.timestamp
  difficulty := b.difficulty

theorem getHash_injective : Function.Injective getHash := by
  intro b b' h
  have h := Nat.pair_eq_pair.mp (Nat.succ.inj h)
  have h2 := Nat.pair_eq_pair.mp h.2
  have h3 := Nat.pair_eq_pair.mp h2.2
  have h4 := Nat.pair_eq_pair.mp h3.2
  cases b
  cases b'
  simp_all

end PowBlock

/-- `Endorsement` of `entities/endorsement.hpp`. -/
structure Endorsement where
  id : Nat
  endorsedHash : Hash
  containingHash : Hash
  blockOfProof : Hash
  deriving DecidableEq, Repr

/-- A publication of a VBK block in BTC, contained in a VBK block. -/
structure VTB where
  bitcoinTransaction : Hash
  publishedBlock : Hash
  blockOfProof : PowBlock
  blockOfProofContext : List PowBlock
  containingBlock : PowBlock
  deriving DecidableEq, Repr

/-- The id does not depend on the published block, nor on the BTC context. -/
def VTB.getId (v : VTB) : Nat :=
  Nat.pair v.bitcoinTransaction (Nat.pair v.blockOfProof.getHash v.containingBlock.getHash)

/-- `VbkEndorsement::fromContainer` -/
def VTB.endorsement (v : VTB) : Endorsement where
  id := v.getId
  endorsedHash := v.publishedBlock
  containingHash := v.containingBlock.getHash
  blockOfProof := v.blockOfProof.getHash

/-- `ContextInfoContainer` -/
structure ContextInfo where
  height : Nat
  firstPreviousKeystone : Option Hash
  secondPreviousKeystone : Option Hash
  deriving DecidableEq, Repr

/--
A publication of an ALT block in VBK. `endorsedHash` is the hash that the altchain computes from the
published header, `contextInfo` the deserialized context, if it deserializes.
-/
structure ATV where
  transaction : Hash
  endorsedHash : Hash
  contextInfo : Option ContextInfo
  blockOfProof : PowBlock
  deriving DecidableEq, Repr

def ATV.getId (a : ATV) : Nat :=
  Nat.pair a.transaction a.blockOfProof.getHash

/-- `AltEndorsement::fromContainer` -/
def ATV.endorsement (a : ATV) (containingHash : Hash) : Endorsement where
  id := a.getId
  endorsedHash := a.endorsedHash
  containingHash := containingHash
  blockOfProof := a.blockOfProof.getHash

/-- The body of an ALT block. -/
structure PopData where
  context : List PowBlock
  vtbs : List VTB
  atvs : List ATV
  deriving DecidableEq, Repr

/-- `checkPopDataForDuplicates` -/
def PopData.checkForDuplicates (p : PopData) : Bool :=
  decide (p.context.map PowBlock.getHash).Nodup && decide (p.vtbs.map VTB.getId).Nodup &&
    decide (p.atvs.map ATV.getId).Nodup

/-- The key of a payload in a payload index. -/
inductive PayloadId where
  | vbk (hash : Hash)
  | vtb (id : Nat)
  | atv (id : Nat)
  deriving DecidableEq, Repr

end AltIntegration
