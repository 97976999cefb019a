import AltIntegration.Blockchain.AltBlockTree

/-!
This module contains the system of the three trees: how it is bootstrapped, the operations that can be
called on it, and the states that it can reach.
-/

namespace AltIntegration

open Program

/-- A call to one of the public functions of the three trees. -/
inductive Op where
  | acceptBlockHeader (block : Block)
  | acceptBlock (h : Hash) (payloads : PopData)
  | setState (h : Hash)
  | comparePopScore (a b : Hash)
  | removePayloads (h : Hash)
  | removeSubtree (h : Hash)
  | invalidateSubtree (h : Hash) (reason : BlockValidityStatus) (shouldDetermineBestChain : Bool)
  | revalidateSubtree (h : Hash) (reason : BlockValidityStatus) (shouldDetermineBestChain : Bool)
  | writePayloads (payloads : PopData)
  | vbkAcceptBlockHeader (block : PowBlock)
  | vbkAddPayloads (h : Hash) (payloads : List VTB)
  | vbkRemovePayloads (h : Hash) (pids : List Nat)
  | vbkUnsafelyRemovePayload (h : Hash) (pid : Nat) (shouldDetermineBestChain : Bool)
  | vbkSetState (h : Hash)
  | vbkRemoveSubtree (h : Hash)
  | vbkRemoveLeaf (h : Hash)
  | vbkInvalidateSubtree (h : Hash) (reason : BlockValidityStatus) (shouldDetermineBestChain : Bool)
  | vbkRevalidateSubtree (h : Hash) (reason : BlockValidityStatus) (shouldDetermineBestChain : Bool)
  | btcAcceptBlockHeader (block : PowBlock)
  | btcRemoveSubtree (h : Hash)
  | btcRemoveLeaf (h : Hash)
  | btcInvalidateSubtree (h : Hash) (reason : BlockValidityStatus) (shouldDetermineBestChain : Bool)
  | btcRevalidateSubtree (h : Hash) (reason : BlockValidityStatus) (shouldDetermineBestChain : Bool)
  deriving DecidableEq, Repr

section OnTree

variable {σ A : Type} (c : TreeClass σ A)

/-- The overloads that take a hash look for a block that is not deleted. -/
def withBlock (h : Hash) (m : M σ Unit) : M σ Unit := do
  let t ← c.getTree
  check (t.getBlockIndex h).isSome .unknownBlock
  m

end OnTree

variable (cfg : Config)

namespace Op

def onVbk {α : Type} (m : M VbkState α) : M AltState Unit := do
  let _ ← zoom AltState.spState m

def onBtc {α : Type} (m : M (Tree BtcAddon) α) : M AltState Unit :=
  onVbk (zoom VbkState.btcTree m)

def setStateByHash (h : Hash) : M VbkState Bool := do
  let s ← get
  match s.vbk.getBlockIndex h with
  | none => pure false
  | some _ => VbkBlockTree.setState cfg h

/-- What a call does. Its result, if it has one, is dropped. -/
def exec : Op → M AltState Unit
  | acceptBlockHeader b => do
    let _ ← AltBlockTree.acceptBlockHeader b
  | acceptBlock h p => AltBlockTree.acceptBlock cfg h p
  | setState h => do
    let _ ← AltBlockTree.setStateByHash cfg h
  | comparePopScore a b => do
    let _ ← AltBlockTree.comparePopScore cfg a b
  | removePayloads h => AltBlockTree.removePayloads cfg h
  | removeSubtree h => withBlock (altClass cfg) h (AltIntegration.removeSubtree (altClass cfg) h)
  | invalidateSubtree h r f =>
    withBlock (altClass cfg) h (AltIntegration.invalidateSubtree (altClass cfg) h r f)
  | revalidateSubtree h r f =>
    withBlock (altClass cfg) h (AltIntegration.revalidateSubtree (altClass cfg) h r f)
  | writePayloads p => modify fun s => { s with sp := { s.sp with storage := s.sp.storage.writePayloads p } }
  | vbkAcceptBlockHeader b => onVbk (AltIntegration.acceptBlockHeader cfg.vbk (vbkClass cfg) b)
  | vbkAddPayloads h p => onVbk (VbkBlockTree.addPayloads cfg h p)
  | vbkRemovePayloads h pids => onVbk (VbkBlockTree.removePayloads cfg h pids)
  | vbkUnsafelyRemovePayload h pid f => onVbk (VbkBlockTree.unsafelyRemovePayload cfg h pid f)
  | vbkSetState h => onVbk (setStateByHash cfg h)
  | vbkRemoveSubtree h =>
    onVbk (withBlock (vbkClass cfg) h (AltIntegration.removeSubtree (vbkClass cfg) h))
  | vbkRemoveLeaf h => onVbk (withBlock (vbkClass cfg) h (removeLeaf (vbkClass cfg) h))
  | vbkInvalidateSubtree h r f =>
    onVbk (withBlock (vbkClass cfg) h (AltIntegration.invalidateSubtree (vbkClass cfg) h r f))
  | vbkRevalidateSubtree h r f =>
    onVbk (withBlock (vbkClass cfg) h (AltIntegration.revalidateSubtree (vbkClass cfg) h r f))
  | btcAcceptBlockHeader b => onBtc (AltIntegration.acceptBlockHeader cfg.btc (btcClass cfg) b)
  | btcRemoveSubtree h =>
    onBtc (withBlock (btcClass cfg) h (AltIntegration.removeSubtree (btcClass cfg) h))
  | btcRemoveLeaf h => onBtc (withBlock (btcClass cfg) h (removeLeaf (btcClass cfg) h))
  | btcInvalidateSubtree h r f =>
    onBtc (withBlock (btcClass cfg) h (AltIntegration.invalidateSubtree (btcClass cfg) h r f))
  | btcRevalidateSubtree h r f =>
    onBtc (withBlock (btcClass cfg) h (AltIntegration.revalidateSubtree (btcClass cfg) h r f))

end Op

/-- `AltBlockTree::bootstrap` -/
def Tree.bootstrapAlt (block : Block) : Tree AltAddon where
  blocks := Store.empty.insert block.hash
    { header := block
      pprev := none
      height := block.height
      status := { level := .canBeApplied, bootstrap := true, active := true }
      finalized := true
      dirty := true
      addon := {} }
  tips := [block.hash]
  root := block.hash
  activeTip := block.hash
  appliedBlockCount := 1
  deferForkResolutionDepth := 0
  isUpdateTipsDeferred := false
  payloadsIndex := []
  finalizedPayloadsIndex := []
  traversals := 0
  history := []

/-- The bootstrap blocks of the three chains; those of BTC and VBK come with the height of the first. -/
structure Bootstrap where
  alt : Block
  vbkHeight : Nat
  vbk : PowBlock
  vbkChain : List PowBlock
  btcHeight : Nat
  btc : PowBlock
  btcChain : List PowBlock

/-- The trees with their first blocks. -/
def Bootstrap.roots (b : Bootstrap) : AltState where
  alt := Tree.bootstrapAlt b.alt
  sp :=
    { vbk := Tree.bootstrap cfg.vbk b.vbk b.vbkHeight
      btc := Tree.bootstrap cfg.btc b.btc b.btcHeight
      storage := PayloadsStorage.empty }

/-- `bootstrapWithChain` of BTC and VBK -/
def Bootstrap.chains (b : Bootstrap) : M AltState Unit := do
  Op.onBtc (forEach (bootstrapBlock cfg.btc (btcClass cfg)) b.btcChain)
  Op.onVbk (forEach (bootstrapBlock cfg.vbk (vbkClass cfg)) b.vbkChain)

/-- The states that a bootstrapped system can be in between two calls. -/
inductive Reachable : AltState → Prop where
  | bootstrap {b : Bootstrap} {s : AltState} (h : b.chains cfg (b.roots cfg) = .ok () s) : Reachable s
  | step {s s' : AltState} {op : Op} (hs : Reachable s) (h : op.exec cfg s = .ok () s') : Reachable s'

end AltIntegration
