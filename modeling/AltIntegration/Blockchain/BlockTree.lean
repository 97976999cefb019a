import AltIntegration.Blockchain.BaseBlockTree

/-!
This module contains `BlockTree` of `blocktree.hpp`, the tree of a proof-of-work chain, and the
command `AddBlock` that adds and releases references to its blocks.

The stateless and the contextual checks of a header and its proof of work are parameters, as they are
template functions in the source. The contextual check sees the headers from the previous block
back to the root, each with its height in the tree, and it may stop in an assertion. The clock that
both checks may read stands still.
-/

namespace AltIntegration

open Program

/-- The data that a tree of a proof-of-work chain adds to a block. -/
class PowAddon (A : Type) extends BlockAddon A where
  chainWork : A → Nat
  setChainWork : Nat → A → A
  refCount : A → Nat
  addRef : Nat → A → A
  /-- `none` when there is no such reference -/
  removeRef : Nat → A → Option A
  blockOfProofEndorsements : A → List Endorsement
  setBlockOfProofEndorsements : List Endorsement → A → A
  /-- `assertBlockCanBeRemoved` -/
  canBeRemoved : A → Bool

/-- Work is counted in an `ArithUint256`. -/
def toUint256 (work : Nat) : Nat := work % Nat.pow 2 256

structure BlockTreeParams where
  checkBlock : Block → Bool
  /-- `none` when the check stops -/
  contextuallyCheckBlock : List (Nat × Block) → Block → Option Bool
  getBlockProof : Block → Nat

namespace Tree

variable {A : Type} [PowAddon A]

def chainWork (t : Tree A) (h : Hash) : Nat := (t.find? h).elim 0 (fun b => PowAddon.chainWork b.addon)

/-- The headers of the chain that ends in the block `h`, with their heights. -/
def headers (t : Tree A) (h : Hash) : List (Nat × Block) :=
  (t.chainTo h).filterMap (fun a => (t.find? a).map (fun b => (b.height, b.header)))

def updateAddon (t : Tree A) (h : Hash) (f : A → A) : Tree A :=
  t.update h (fun b => b.setAddon (f b.addon))

/-- `BlockTree::onBlockInserted` -/
def onBlockInserted (p : BlockTreeParams) (h : Hash) (t : Tree A) : Tree A :=
  t.update h fun b =>
    let work := p.getBlockProof b.header + b.pprev.elim 0 t.chainWork
    { b with addon := PowAddon.setChainWork (toUint256 work) b.addon }

end Tree

section PoW

variable {σ A : Type} [PowAddon A] (p : BlockTreeParams)

/-- `validateAndAddBlock` -/
def validateAndAddBlock (block : PowBlock) (shouldContextuallyCheck : Bool) : M (Tree A) Bool := do
  let t ← get
  if !p.checkBlock block.toBlock then
    pure false
  else
    match t.getBlockIndex block.previousBlock with
    | none => pure false
    | some prev => do
      let ok ← getOrStop (checkContext t) .contextualCheck
      if !ok then
        pure false
      else do
        insertBlockHeader (Tree.onBlockInserted p) block.toBlock
        let _ ← raiseValidity block.getHash .connected
        if !prev.isValid then do
          modifyBlock block.getHash (·.setFlag .failedChild)
          modify (fun t => t.record (.insertedOnInvalid block.getHash))
          pure false
        else
          pure true
where
  checkContext (t : Tree A) : Option Bool :=
    if shouldContextuallyCheck then
      p.contextuallyCheckBlock (t.headers block.previousBlock) block.toBlock
    else
      some true

/-- `BlockTree::determineBestChain` -/
def determineBestChainByWork (tree : Lens σ (Tree A)) (setState : Hash → M σ Bool) (candidate : Hash) :
    M σ Unit := do
  let s ← get
  let t := tree.get s
  let b ← getOrStop (t.find? candidate) .unknownBlock
  when (t.activeTip ≠ candidate && b.isValid &&
      decide (t.chainWork t.activeTip < t.chainWork candidate)) do
    let _ ← setState candidate

/-- `acceptBlockHeader`, with `acceptBlockHeaderImpl` -/
def acceptBlockHeader (c : TreeClass σ A) (block : PowBlock) : M σ Bool := do
  if ← zoom c.tree (validateAndAddBlock p block true) then do
    zoom c.tree (modify fun t => t.tryAddTip block.getHash)
    c.determineBestChain block.getHash
    pure true
  else
    pure false

/-- `AddBlock::Execute` -/
def AddBlock.execute (c : TreeClass σ A) (block : PowBlock) (referencedAtHeight : Nat) : M σ Bool := do
  let t ← c.getTree
  if ← acceptUnknown t then do
    let t ← c.getTree
    check (t.getBlockIndex block.getHash).isSome .addBlockNotFound
    zoom c.tree (modify fun t => t.updateAddon block.getHash (PowAddon.addRef referencedAtHeight))
    pure true
  else
    pure false
where
  acceptUnknown (t : Tree A) : M σ Bool :=
    match t.getBlockIndex block.getHash with
    | some _ => pure true
    | none => acceptBlockHeader p c block

/-- `AddBlock::UnExecute` -/
def AddBlock.unExecute (c : TreeClass σ A) (block : PowBlock) (referencedAtHeight : Nat) :
    M σ Unit := do
  let t ← c.getTree
  let index ← getOrStop (t.getBlockIndex block.getHash) .undoAddBlockNotFound
  let addon ← getOrStop (PowAddon.removeRef referencedAtHeight index.addon) .undoMissingRef
  zoom c.tree (modify fun t => t.updateAddon block.getHash (fun _ => addon))
  when (PowAddon.refCount addon = 0) do
    check (PowAddon.canBeRemoved addon) .undoBlockHasEndorsements
    removeLeaf c block.getHash

end PoW

section Bootstrap

variable {A : Type} [PowAddon A]

/-- The tree after `bootstrap` with one block. -/
def Tree.bootstrap (p : BlockTreeParams) (block : PowBlock) (height : Nat) : Tree A where
  blocks := Store.empty.insert block.getHash
    { header := block.toBlock
      pprev := none
      height := height
      status := { level := .canBeApplied, bootstrap := true, active := true }
      finalized := true
      dirty := true
      addon :=
        PowAddon.addRef 0 (PowAddon.setChainWork (toUint256 (p.getBlockProof block.toBlock)) BlockAddon.empty) }
  tips := [block.getHash]
  root := block.getHash
  activeTip := block.getHash
  appliedBlockCount := 1
  deferForkResolutionDepth := 0
  isUpdateTipsDeferred := false
  payloadsIndex := []
  finalizedPayloadsIndex := []
  traversals := 0
  history := []

/--
`bootstrapWithChain`: the blocks after the first are accepted without a contextual check. Such a
block gets its bootstrap flag and its reference after fork resolution has seen it.
-/
def bootstrapBlock {σ : Type} (p : BlockTreeParams) (c : TreeClass σ A) (block : PowBlock) : M σ Unit := do
  let ok ← zoom c.tree (validateAndAddBlock p block false)
  check ok .alreadyBootstrapped
  zoom c.tree (modifyBlock block.getHash (·.setFlag .bootstrap))
  zoom c.tree (modify fun t => t.tryAddTip block.getHash)
  c.determineBestChain block.getHash
  zoom c.tree (modify fun t => t.updateAddon block.getHash (PowAddon.addRef 0))

end Bootstrap

end AltIntegration
