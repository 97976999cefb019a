import AltIntegration.Data.Store
import AltIntegration.Control.Program
import AltIntegration.Blockchain.BlockIndex

/-!
This module contains `BaseBlockTree` of `base_block_tree.hpp`, without loading and finalization: the
blocks of a tree, its tips, its active chain, soft deletion, invalidation and the deferral of fork
resolution.

Pointers are hashes. `pnext` is not stored but read off `pprev`, and the active chain is kept as its
tip, since a `Chain` is the path from the root to its tip. The source iterates over `tips_`, an
unordered set, in an order it does not fix: `TreeClass.tipsOrder` is that order, for every traversal
a new one. The deferral keeps one flag: the other thing the source can defer, the affected tips of a
single modified block (`updateAffectedTips`), is requested by nobody.
-/

namespace AltIntegration

open Program

/-- The assertions (and the other ways to die) of the modelled functions. -/
inductive Assertion where
  | unknownBlock
  | rootBlock
  | invalidReason
  | blockSanity
  | hashCollision
  | alreadyBootstrapped
  | restoreNotDeleted
  | deleteDeleted
  | notALeaf
  | raiseValidity
  | lowerValidity
  | failedPopOfApplicableBlock
  | setStateMustSucceed
  | tipIsNotValidTip
  | tipsModifiedWhileIterated
  | revertToSavedTip
  | forkResolutionIsNotDeferred
  | appliedBlockCount
  | bestChainNotApplied
  | applyRoot
  | applyOnUnapplied
  | applyApplied
  | applyOnInvalidAncestor
  | applyUnconnected
  | unapplyRoot
  | unapplyFinalized
  | unapplyUnapplied
  | unapplyOnUnapplied
  | unapplyNotAChain
  | applyNotAChain
  | noForkBlock
  | rollbackFailed
  | formerBestChainInvalid
  | tipNotFullyValid
  | setStateFailedOnValid
  | addBlockNotFound
  | undoAddBlockNotFound
  | undoMissingRef
  | undoBlockHasEndorsements
  | undoNoContaining
  | undoNoEndorsed
  | undoNoBlockOfProof
  | undoNoEndorsement
  | undoNotEndorsedBy
  | undoNotInBlockOfProof
  | undoNoContainingBlock
  | undoNoPayload
  | undoFailedPop
  | stateCorrupted
  | vtbContainingNotActive
  | removeMissingPayload
  | payloadsOfInvalidBlock
  | payloadsAlreadySet
  | payloadsOfAppliedBlock
  | payloadsOfRoot
  | payloadsDuplicate
  | connectWithoutPayloads
  | connectConnected
  | connectUnconnectedPrev
  | connectConnectedDescendant
  | connectFailedPop
  | removeNoPayloads
  | notConnected
  | notTheTip
  | keystone
  | publicationView
  | nullPointer
  | finalizeNotActive
  | finalizedPayloadTwice
  | duplicateVtbIds
  | contextualCheck
  | notDeleted
  | popDataDoesNotFit
  | tmpBlockRejected
  deriving DecidableEq, Repr

/-- What a run did to a tree. A history variable: no definition reads it. -/
inductive Event where
  /-- a soft-deleted block that carries `BLOCK_FAILED_POP` was inserted again -/
  | restoredFailedPop (hash : Hash)
  /-- a header was inserted on top of an invalid block and then rejected -/
  | insertedOnInvalid (hash : Hash)
  /-- a block got a payload that it already had -/
  | duplicatePayload (hash : Hash) (id : Nat)
  /-- a block was full when it was to get a payload -/
  | tooManyPayloads (hash : Hash)
  deriving DecidableEq, Repr

abbrev M (σ : Type) := EStateM Assertion σ

/-- `BaseBlockTree` -/
structure Tree (A : Type) where
  blocks : Store Hash (BlockIndex A)
  tips : List Hash
  /-- `activeChain_.first()` -/
  root : Hash
  /-- `activeChain_.tip()` -/
  activeTip : Hash
  appliedBlockCount : Nat
  deferForkResolutionDepth : Nat
  isUpdateTipsDeferred : Bool
  payloadsIndex : List (PayloadId × Hash)
  finalizedPayloadsIndex : List (PayloadId × Hash)
  /-- how often `tips` has been iterated over -/
  traversals : Nat
  history : List Event
  /-- what the payload index got wrong when payloads were removed, a history variable -/
  misindexed : List (PayloadId × Hash) := []
  deriving DecidableEq

namespace Tree

variable {A : Type}

/-- `findBlockIndex` -/
def find? (t : Tree A) (h : Hash) : Option (BlockIndex A) := t.blocks.find? h

/-- `getBlockIndex`: deleted blocks are not found. -/
def getBlockIndex (t : Tree A) (h : Hash) : Option (BlockIndex A) :=
  (t.find? h).filter (fun b => !b.isDeleted)

/-- Change the block `h` in place. -/
def update (t : Tree A) (h : Hash) (f : BlockIndex A → BlockIndex A) : Tree A :=
  { t with blocks := t.blocks.modify h f }

def record (t : Tree A) (e : Event) : Tree A := { t with history := e :: t.history }

/-- The set `pnext` of a block. -/
def pnext (t : Tree A) (h : Hash) : List Hash := t.blocks.keysWhere (fun b => b.pprev = some h)

/-- Some child of the block `h` satisfies `p`. -/
def anyNext (t : Tree A) (h : Hash) (p : BlockIndex A → Bool) : Bool :=
  (t.pnext h).any (fun c => (t.find? c).any p)

def heightOf (t : Tree A) (h : Hash) : Nat := (t.find? h).elim 0 (·.height)

/-- No block is higher. It bounds the depth of every traversal. -/
def maxHeight (t : Tree A) : Nat := t.blocks.entries.foldr (fun e m => max e.2.height m) 0

/-- The block `h` and its ancestors, at most `n` of them. -/
def ancestors (t : Tree A) : Nat → Hash → List Hash
  | 0, _ => []
  | n + 1, h =>
    match t.find? h with
    | none => []
    | some b =>
      match b.pprev with
      | none => [h]
      | some p => h :: t.ancestors n p

/-- The chain that ends in the block `h`, from `h` down to the root. -/
def chainTo (t : Tree A) (h : Hash) : List Hash := t.ancestors (t.heightOf h + 1) h

/-- `BlockIndex::getAncestor` -/
def getAncestor (t : Tree A) (h : Hash) (height : Nat) : Option Hash :=
  if t.heightOf h < height then
    none
  else
    ((t.chainTo h).dropWhile (fun a => decide (height < t.heightOf a))).head?

/-- `activeChain_.contains` -/
def onActiveChain (t : Tree A) (h : Hash) : Bool := (t.chainTo t.activeTip).contains h

/-- `getForkBlock`: walk back from both blocks in step, starting at the lower height. -/
def getForkBlock (t : Tree A) (a b : Hash) : Option Hash :=
  let low := min (t.heightOf a) (t.heightOf b)
  let cut := fun h => (t.chainTo h).dropWhile (fun x => decide (low < t.heightOf x))
  (((cut a).zip (cut b)).find? (fun p => p.1 = p.2)).map (·.1)

/-- `findFork` of the active chain and the block `h`. -/
def findFork (t : Tree A) (h : Hash) : Option Hash := (t.chainTo h).find? t.onActiveChain

variable [BlockAddon A]

/-- `BlockIndex::isValidTip` -/
def isValidTip (t : Tree A) (h : Hash) : Bool :=
  (t.find? h).any (·.canBeATip) && !t.anyNext h (·.canBeATip)

def eraseTip (t : Tree A) (h : Hash) : Tree A := { t with tips := t.tips.filter (· ≠ h) }

def insertTip (t : Tree A) (h : Hash) : Tree A :=
  if h ∈ t.tips then t else { t with tips := h :: t.tips }

/-- `tryAddTip` -/
def tryAddTip (t : Tree A) (h : Hash) : Tree A :=
  if t.isValidTip h then
    match (t.find? h).bind (·.pprev) with
    | some p => (t.eraseTip p).insertTip h
    | none => t.insertTip h
  else
    t

/-- `base::overrideTip` -/
def overrideTip (t : Tree A) (target : Hash) : Tree A :=
  { t with activeTip := target, appliedBlockCount := (t.chainTo target).length }

end Tree

/-- The virtual functions of a tree that is a part of a state `σ`. -/
structure TreeClass (σ A : Type) where
  tree : Lens σ (Tree A)
  tipsOrder : Nat → List Hash → List Hash
  onBeforeLeafRemoved : BlockIndex A → Tree A → Tree A
  setState : Hash → M σ Bool
  determineBestChain : Hash → M σ Unit

section Blocks

variable {A : Type}

/-- The block behind a pointer. -/
def derefBlock (h : Hash) : M (Tree A) (BlockIndex A) := do
  let t ← get
  getOrStop (t.find? h) .unknownBlock

def modifyBlock (h : Hash) (f : BlockIndex A → BlockIndex A) : M (Tree A) Unit :=
  modify (fun t => t.update h f)

/-- `BlockIndex::raiseValidity` -/
def raiseValidity (h : Hash) (upTo : BlockStateStatus) : M (Tree A) Bool := do
  let b ← derefBlock h
  if b.hasFlags .failedPop then
    pure false
  else if b.status.level < upTo then do
    assertAncestorLevel b
    modifyBlock h (·.setLevel upTo)
    pure true
  else
    pure false
where
  assertAncestorLevel (b : BlockIndex A) : M (Tree A) Unit :=
    match b.pprev with
    | none => pure ()
    | some p => do
      let prev ← derefBlock p
      check (decide (upTo ≤ prev.status.level)) .raiseValidity

/-- `BlockIndex::lowerValidity` -/
def lowerValidity (h : Hash) (upTo : BlockStateStatus) : M (Tree A) Bool := do
  let b ← derefBlock h
  if b.canLowerValidity upTo then do
    modifyBlock h (·.setLevel upTo)
    pure true
  else
    pure false

variable [BlockAddon A]

/-- `forEachNodePreorder`: `visit` tells whether to go on below the visited block. -/
def forEachNodePreorder (visit : Hash → M (Tree A) Bool) : Nat → Hash → M (Tree A) Unit
  | 0, _ => pure ()
  | n + 1, h => do
    if ← visit h then do
      let t ← get
      forEach (forEachNodePreorder visit n) (t.pnext h)
    else
      pure ()

/--
`forEachNodePostorder`: the children that `shouldVisit` accepts when their parent is expanded are
visited before it, the last of them first.
-/
def forEachNodePostorder (visit : Hash → M (Tree A) Unit) (shouldVisit : BlockIndex A → Bool) :
    Nat → Hash → M (Tree A) Unit
  | 0, _ => pure ()
  | n + 1, h => do
    let t ← get
    forEach (forEachNodePostorder visit shouldVisit n)
      ((t.pnext h).filter (fun c => (t.find? c).any shouldVisit)).reverse
    visit h

/-- `BlockIndex::BlockIndex`: a block after `prev` -/
def BlockIndex.create (header : Block) (prev : BlockIndex A) : BlockIndex A where
  header := header
  pprev := some prev.header.hash
  height := prev.height + 1
  status := { failedChild := prev.isFailed, deleted := true }
  finalized := false
  dirty := true
  addon := BlockAddon.empty

/-- `createBlockIndex` -/
def Tree.createBlockIndex (header : Block) (prev : BlockIndex A) (t : Tree A) : Tree A :=
  { t with blocks := t.blocks.insert header.hash (.create header prev) }

/-- `doInsertBlockHeader` in a bootstrapped tree -/
def doInsertBlockHeader (header : Block) : M (Tree A) Unit := do
  let t ← get
  let prev ← getOrStop (t.getBlockIndex header.previousBlock) .alreadyBootstrapped
  modify (Tree.createBlockIndex header prev)

/-- `BlockIndex::restore` -/
def restore (h : Hash) : M (Tree A) Unit := do
  let b ← derefBlock h
  check b.isDeleted .restoreNotDeleted
  when (b.hasFlags .failedPop) (modify fun t => t.record (.restoredFailedPop h))
  modifyBlock h (·.unsetFlag .deleted)

/-- `insertBlockHeader` in a bootstrapped tree -/
def insertBlockHeader (onBlockInserted : Hash → Tree A → Tree A) (header : Block) :
    M (Tree A) Unit := do
  check (header.hash ≠ header.previousBlock) .blockSanity
  let t ← get
  match t.find? header.hash with
  | some current =>
    if current.isDeleted then do
      check (header = current.header) .hashCollision
      insertRestored
    else
      pure ()
  | none => do
    doInsertBlockHeader header
    insertRestored
where
  insertRestored : M (Tree A) Unit := do
    restore header.hash
    modify (fun t => t.tryAddTip header.hash)
    modify (onBlockInserted header.hash)
    -- the level stays unknown when the block carries `BLOCK_FAILED_POP`
    let _ ← raiseValidity header.hash .validTree

/-- `doInvalidate` -/
def doInvalidate (h : Hash) (reason : BlockValidityStatus) : M (Tree A) Unit := do
  let b ← derefBlock h
  check (!b.isValidUpTo .canBeApplied || reason != .failedPop) .failedPopOfApplicableBlock
  modifyBlock h (·.setFlag reason)
  modify (fun t => t.eraseTip h)

/-- `doReValidate` -/
def doReValidate (h : Hash) (reason : BlockValidityStatus) : M (Tree A) Unit := do
  modifyBlock h (·.unsetFlag reason)
  modify (fun t => t.tryAddTip h)

/-- The visitor with which `invalidateSubtree` flags the subtrees of the children. -/
def invalidateChild (h : Hash) : M (Tree A) Bool := do
  let b ← derefBlock h
  doInvalidate h .failedChild
  pure (!b.isFailed)

/-- The visitor with which `revalidateSubtree` unflags the subtrees of the children. -/
def revalidateChild (h : Hash) : M (Tree A) Bool := do
  doReValidate h .failedChild
  let b ← derefBlock h
  pure (!b.isFailed)

/-- The visitor of `removeSubtree` -/
def deleteLeaf (onBeforeLeafRemoved : BlockIndex A → Tree A → Tree A) (h : Hash) :
    M (Tree A) Unit := do
  let b ← derefBlock h
  modify (onBeforeLeafRemoved b)
  modify (fun t => t.eraseTip h)
  check (!b.isDeleted) .deleteDeleted
  modifyBlock h (·.deleteTemporarily)

/-- Soft-delete the blocks of a subtree, the leaves first. -/
def deleteSubtree (onBeforeLeafRemoved : BlockIndex A → Tree A → Tree A) (toRemove prev : Hash) :
    M (Tree A) Unit := do
  let t ← get
  forEachNodePostorder (deleteLeaf onBeforeLeafRemoved) (fun next => !next.isDeleted)
    (t.maxHeight + 1) toRemove
  modify (fun t => t.tryAddTip prev)

/-- Flag a block, and the subtrees of its children as `BLOCK_FAILED_CHILD`. -/
def flagSubtree (toBeInvalidated prev : Hash) (reason : BlockValidityStatus) : M (Tree A) Unit := do
  doInvalidate toBeInvalidated reason
  let t ← get
  forEach (forEachNodePreorder invalidateChild (t.maxHeight + 1)) (t.pnext toBeInvalidated)
  modify (fun t => t.tryAddTip prev)

/-- Take the flag off a block, and `BLOCK_FAILED_CHILD` off the subtrees of its children. -/
def unflagSubtree (toBeValidated : Hash) (reason : BlockValidityStatus) : M (Tree A) Unit := do
  doReValidate toBeValidated reason
  let t ← get
  forEach (forEachNodePreorder revalidateChild (t.maxHeight + 1)) (t.pnext toBeValidated)

end Blocks

section Trees

variable {σ A : Type} [BlockAddon A] (c : TreeClass σ A)

/-- The tree as it is now. -/
def TreeClass.getTree : M σ (Tree A) := do
  let s ← get
  pure (c.tree.get s)

/-- `doUpdateTips`. The source leaves it undefined what happens when the set changes meanwhile. -/
def doUpdateTips : M σ Unit := do
  let t ← c.getTree
  zoom c.tree (modify fun t => { t with traversals := t.traversals + 1 })
  forEach (visitTip t.tips) (c.tipsOrder t.traversals t.tips)
where
  visitTip (tips : List Hash) (tip : Hash) : M σ Unit := do
    let t ← c.getTree
    check (t.isValidTip tip) .tipIsNotValidTip
    c.determineBestChain tip
    let t ← c.getTree
    check (t.tips = tips) .tipsModifiedWhileIterated

/-- `updateTips` -/
def updateTips : M σ Unit := do
  let t ← c.getTree
  if t.deferForkResolutionDepth = 0 then
    doUpdateTips c
  else
    zoom c.tree (modify fun t => { t with isUpdateTipsDeferred := true })

/-- `doUpdateAffectedTips`, with `findValidTips` of `tree_algo.hpp` -/
def doUpdateAffectedTips (modifiedBlock : Hash) : M σ Unit := do
  let t ← c.getTree
  let tips := (c.tipsOrder t.traversals t.tips).filter
    (fun tip => t.getAncestor tip (t.heightOf modifiedBlock) = some modifiedBlock)
  zoom c.tree (modify fun t => { t with traversals := t.traversals + 1 })
  forEach c.determineBestChain tips

/-- `deferForkResolution` -/
def deferForkResolution : M σ Unit :=
  zoom c.tree
    (modify fun t => { t with deferForkResolutionDepth := t.deferForkResolutionDepth + 1 })

/-- `overrideDeferredForkResolution` -/
def overrideDeferredForkResolution (bestChain : Hash) : M σ Unit := do
  zoom c.tree (modify fun t => { t with isUpdateTipsDeferred := false })
  let success ← c.setState bestChain
  check success .revertToSavedTip

/-- `continueForkResolution`, the destructor of `DeferForkResolutionGuard` -/
def continueForkResolution : M σ Unit := do
  let t ← c.getTree
  check (t.deferForkResolutionDepth ≠ 0) .forkResolutionIsNotDeferred
  zoom c.tree
    (modify fun t => { t with deferForkResolutionDepth := t.deferForkResolutionDepth - 1 })
  when (t.deferForkResolutionDepth = 1 && t.isUpdateTipsDeferred) do
    doUpdateTips c
    zoom c.tree (modify fun t => { t with isUpdateTipsDeferred := false })

/-- Move the active chain off a block that is about to go. -/
def setStateOrStop (h : Hash) : M σ Unit := do
  let success ← c.setState h
  check success .setStateMustSucceed

/-- `removeSubtree` -/
def removeSubtree (toRemove : Hash) : M σ Unit := do
  let t ← c.getTree
  let b ← getOrStop (t.find? toRemove) .unknownBlock
  let prev ← getOrStop b.pprev .rootBlock
  let isOnMainChain := t.onActiveChain toRemove
  when isOnMainChain (setStateOrStop c prev)
  zoom c.tree (deleteSubtree c.onBeforeLeafRemoved toRemove prev)
  when isOnMainChain (updateTips c)

/-- `removeLeaf` -/
def removeLeaf (toRemove : Hash) : M σ Unit := do
  let t ← c.getTree
  check (!t.anyNext toRemove (fun next => !next.isDeleted)) .notALeaf
  removeSubtree c toRemove

/-- `invalidateSubtree` -/
def invalidateSubtree (toBeInvalidated : Hash) (reason : BlockValidityStatus)
    (shouldDetermineBestChain : Bool) : M σ Unit := do
  let t ← c.getTree
  let b ← getOrStop (t.find? toBeInvalidated) .unknownBlock
  let prev ← getOrStop b.pprev .rootBlock
  check (isValidInvalidationReason reason) .invalidReason
  if b.hasFlags reason then
    pure ()
  else if !b.isValid then
    zoom c.tree (doInvalidate toBeInvalidated reason)
  else do
    when (t.onActiveChain toBeInvalidated) (setStateOrStop c prev)
    zoom c.tree (flagSubtree toBeInvalidated prev reason)
    when shouldDetermineBestChain (updateTips c)

/-- `revalidateSubtree` -/
def revalidateSubtree (toBeValidated : Hash) (reason : BlockValidityStatus)
    (shouldDetermineBestChain : Bool) : M σ Unit := do
  let t ← c.getTree
  let b ← getOrStop (t.find? toBeValidated) .unknownBlock
  check (!b.isRoot) .rootBlock
  check (isValidInvalidationReason reason) .invalidReason
  if !b.hasFlags reason then
    pure ()
  else if (b.status.assign false reason).isFailed then
    zoom c.tree (doReValidate toBeValidated reason)
  else do
    zoom c.tree (unflagSubtree toBeValidated reason)
    when shouldDetermineBestChain (updateTips c)

end Trees

end AltIntegration
