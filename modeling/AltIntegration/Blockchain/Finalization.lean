import AltIntegration.Blockchain.Addons

/-!
This module contains the finalization of `base_block_tree.hpp`: a block of the active chain becomes
final, the tips that can not win against it are forgotten, and the blocks behind it are deallocated.

The set `tips_` is iterated over in an order that the source does not fix: it is an argument here.
-/

namespace AltIntegration

open Program

namespace Tree

variable {A : Type}

/-- `activeChain_[height]` -/
def activeAt (t : Tree A) (height : Nat) : Option Hash :=
  (t.chainTo t.activeTip).find? (fun h => t.heightOf h = height)

def isDirty (t : Tree A) (h : Hash) : Bool := (t.find? h).any (·.dirty)

/-- `isBlockOutdated`, at most `n` forks deep -/
def isBlockOutdated (t : Tree A) (finalBlock : Hash) : Nat → Hash → Bool
  | 0, _ => true
  | n + 1, candidate =>
    if t.getAncestor candidate (t.heightOf finalBlock) = some finalBlock then
      false
    else if t.heightOf candidate < t.heightOf finalBlock then
      true
    else if t.heightOf candidate = t.heightOf finalBlock ∧ finalBlock ≠ candidate then
      true
    else if t.getAncestor finalBlock (t.heightOf candidate) = some candidate then
      false
    else
      match t.getForkBlock finalBlock candidate with
      | none => true
      | some fork => isBlockOutdated t finalBlock n fork

/-- The lowest dirty block of the chain that ends in `index`, or `index` when none is dirty. -/
def lowestDirty (t : Tree A) (index : Hash) : Hash :=
  (t.chainTo index).foldl (fun final h => if t.isDirty h then h else final) index

/-- The blocks of a chain that are not on the active chain. -/
def branch (t : Tree A) (tip : Hash) : List Hash := (t.chainTo tip).takeWhile (fun h => !t.onActiveChain h)

/--
`erase_if` of the tips that will never be activated: the tips that stay, and the block that is final
in the end. A tip whose branch was not saved moves the final block back to the fork, and goes all the
same.
-/
def eraseOutdatedTips (t : Tree A) : List Hash → Hash → Option (List Hash × Hash)
  | [], final => some ([], final)
  | tip :: tips, final =>
    if !t.onActiveChain tip && t.isBlockOutdated final (t.heightOf tip + 1) tip then
      match t.findFork tip with
      | none => none
      | some fork =>
        eraseOutdatedTips t tips (if (t.branch tip).any t.isDirty then fork else final)
    else
      (eraseOutdatedTips t tips final).map (fun r => (tip :: r.1, r.2))

/-- The height of the root when `final` has become final. -/
def firstBlockHeight (t : Tree A) (final : Hash) (preserveBlocksBehindFinal : Nat) : Nat :=
  max (t.heightOf t.root) (t.heightOf final - preserveBlocksBehindFinal)

def disconnectFromPrev (t : Tree A) (h : Hash) : Tree A := t.update h (fun b => { b with pprev := none })

/-- The blocks below `h` and then `h`, as `forEachNodePostorder` visits them. -/
def postorder (t : Tree A) : Nat → Hash → List Hash
  | 0, _ => []
  | n + 1, h => (t.pnext h).reverse.flatMap (postorder t n) ++ [h]

/-- `deallocateBlock`, after the soft deletion of a block that is not deleted yet -/
def deallocateBlock (onBeforeLeafRemoved : BlockIndex A → Tree A → Tree A) (t : Tree A) (h : Hash) :
    Tree A :=
  match t.find? h with
  | none => t
  | some b =>
    let t := if b.isDeleted then t else onBeforeLeafRemoved b t
    { t with blocks := t.blocks.erase h }

/-- `deallocateTree`: all blocks that are connected to `toDelete` -/
def deallocateTree (onBeforeLeafRemoved : BlockIndex A → Tree A → Tree A) (toDelete : Hash)
    (t : Tree A) : Tree A :=
  match (t.chainTo toDelete).getLast? with
  | none => t
  | some oldest =>
    (t.postorder (t.maxHeight + 1) oldest).foldl (deallocateBlock onBeforeLeafRemoved) t

/-- Disconnect a block and deallocate the blocks above it. -/
def deallocateParallel (onBeforeLeafRemoved : BlockIndex A → Tree A → Tree A) (t : Tree A) (par : Hash) :
    Tree A :=
  (t.disconnectFromPrev par).deallocateTree onBeforeLeafRemoved par

/-- Deallocate what is behind the new root, and what is parallel to the final block. -/
def reroot (onBeforeLeafRemoved : BlockIndex A → Tree A → Tree A) (newRoot final : Hash) (t : Tree A) :
    Tree A :=
  match (t.find? newRoot).bind (·.pprev) with
  | none => t
  | some rootPrev =>
    let t := (t.disconnectFromPrev newRoot).deallocateTree onBeforeLeafRemoved rootPrev
    match (t.find? final).bind (·.pprev) with
    | none => t
    | some prev =>
      ((t.pnext prev).filter (· ≠ final)).foldl (deallocateParallel onBeforeLeafRemoved) t

end Tree

/-- `PLIAddBlock` of an ALT block: the keys it adds to an index, in order -/
def AltAddon.indexedIds (a : AltAddon) : List PayloadId :=
  a.atvids.map .atv ++ a.vtbids.map .vtb ++ a.vbkblockids.map .vbk

/-- `PLIAddBlock` of a VBK block -/
def VbkAddon.indexedIds (a : VbkAddon) : List PayloadId := a.vtbids.map .vtb

/-- `PLIAddBlock` of a BTC block -/
def BtcAddon.indexedIds (_ : BtcAddon) : List PayloadId := []

section Finalize

variable {A : Type} (onBeforeLeafRemoved : BlockIndex A → Tree A → Tree A) (payloadIds : A → List PayloadId)

/-- `FinalizedPayloadsIndex::add` -/
def addToFinalizedPayloadsIndex (h : Hash) (id : PayloadId) : M (Tree A) Unit := do
  let t ← get
  check (!t.finalizedPayloadsIndex.any (fun e => e.1 = id)) .finalizedPayloadTwice
  modify fun t => { t with finalizedPayloadsIndex := (id, h) :: t.finalizedPayloadsIndex }

/-- Mark a block as finalized. Its finality is not saved, so the block does not become dirty. -/
def markFinalized (h : Hash) : M (Tree A) Unit := do
  modifyBlock h (fun b => { b with finalized := true })
  let b ← derefBlock h
  forEach (addToFinalizedPayloadsIndex h) (payloadIds b.addon)

/-- Mark the blocks of a chain, from its end down to the first one that is finalized already. -/
def markFinalizedChain : List Hash → M (Tree A) Unit
  | [] => pure ()
  | h :: hs => do
    let b ← derefBlock h
    when (!b.finalized) do
      markFinalized payloadIds h
      markFinalizedChain hs

/-- `finalizeBlockImpl`, with the tips in the order of their iteration -/
def finalizeBlockImpl (tips : List Hash) (index : Hash) (preserveBlocksBehindFinal : Nat) :
    M (Tree A) Unit := do
  let t ← get
  check (t.appliedBlockCount = (t.chainTo t.activeTip).length) .appliedBlockCount
  let b ← derefBlock index
  if index = t.root then
    when (!b.finalized) (markFinalized payloadIds index)
  else do
    check (t.onActiveChain index) .finalizeNotActive
    let erased ← getOrStop (t.eraseOutdatedTips tips (t.lowestDirty index)) .nullPointer
    let newRoot ← getOrStop (t.activeAt (t.firstBlockHeight erased.2 preserveBlocksBehindFinal)) .nullPointer
    modify (Tree.reroot onBeforeLeafRemoved newRoot erased.2)
    modify fun t =>
      { t with tips := erased.1, root := newRoot, appliedBlockCount := (t.chainTo t.activeTip).length }
    let t ← get
    markFinalizedChain payloadIds (t.chainTo erased.2)

/-- `finalizeBlocks`, with the tips in the order of their iteration -/
def finalizeBlocks (tips : List Hash) (maxReorgBlocks preserveBlocksBehindFinal : Nat)
    (maxFinalizeBlockHeight : Option Nat) : M (Tree A) Unit := do
  let t ← get
  if t.heightOf t.activeTip < maxReorgBlocks then
    pure ()
  else do
    let firstBlockHeight := max (t.heightOf t.root) (t.heightOf t.activeTip - maxReorgBlocks)
    let index ← getOrStop (t.activeAt firstBlockHeight) .nullPointer
    if maxFinalizeBlockHeight.any (fun height => decide (height ≤ t.heightOf index)) then
      pure ()
    else
      finalizeBlockImpl onBeforeLeafRemoved payloadIds tips index preserveBlocksBehindFinal

end Finalize

end AltIntegration
