import AltIntegration.Blockchain.Addons

/-!
This module contains `PopStateMachine` of `pop_state_machine.hpp`: how the blocks of a protected tree
are applied dest, and unapplied from, the state of the trees that protect it.
-/

namespace AltIntegration

open Program

/--
What the state machine knows: in the state `σ` lie the protected tree and the state `τ` of the
protecting tree; a block of the protected tree stands for groups of commands.
-/
structure PopStateMachine (σ τ A B C : Type) where
  ed : Lens σ (Tree A)
  ing : Lens σ τ
  protecting : TreeClass τ B
  getCommands : BlockIndex A → M σ (List (List C))
  execute : C → M σ Bool
  unExecute : C → M σ Unit

namespace PopStateMachine

variable {σ τ A B C : Type} [BlockAddon A] [PopAddon A] (sm : PopStateMachine σ τ A B C)

/-- `CommandGroup::execute` -/
def executeGroup (cmds : List C) : M σ Bool := execAll sm.execute sm.unExecute cmds

/-- `CommandGroup::unExecute` -/
def unExecuteGroup (cmds : List C) : M σ Unit := undoAll sm.unExecute cmds

/--
The protected tree as `applyBlock` sees it. A block that fails to apply is on the active chain only
while that chain is being put back; the nested `setState` then stops, since the active chain is not
applied.
-/
def edClass : TreeClass σ A where
  tree := sm.ed
  tipsOrder _ tips := tips
  onBeforeLeafRemoved _ t := t
  setState _ := throw .bestChainNotApplied
  determineBestChain _ := pure ()

def getEd : M σ (Tree A) := do
  let s ← get
  pure (sm.ed.get s)

def deref (h : Hash) : M σ (BlockIndex A) := zoom sm.ed (derefBlock h)

/-- `assertBlockCanBeApplied`, and the hash of the block before `index` -/
def assertBlockCanBeApplied (index : BlockIndex A) : M σ Hash := do
  let p ← getOrStop index.pprev .applyRoot
  let prev ← sm.deref p
  check (prev.hasFlags .active) .applyOnUnapplied
  check (!index.hasFlags .active) .applyApplied
  check (!index.hasFlags .failedChild) .applyOnInvalidAncestor
  pure p

/-- Raise the level of a block and mark it as applied. -/
def markApplied (h : Hash) (level : BlockStateStatus) : M (Tree A) Unit := do
  let _ ← raiseValidity h level
  modifyBlock h (·.setFlag .active)
  modify fun t => { t with appliedBlockCount := t.appliedBlockCount + 1 }

/-- The end of `applyBlock`, when the commands of the block have been executed. -/
def finishApply (h p : Hash) : M σ Unit := do
  let prev ← sm.deref p
  let t ← sm.getEd
  let appliedChainBlockCount := t.heightOf t.root + t.appliedBlockCount
  let level :=
    if prev.isValid .canBeApplied && t.heightOf h = appliedChainBlockCount then
      .canBeApplied
    else
      .canBeAppliedMaybeWithOtherChain
  zoom sm.ed (markApplied h level)

/-- Execute the commands of a block: all of them, or none. -/
def executeBlock (index : BlockIndex A) : M σ Bool :=
  if PopAddon.hasPayloads index.addon then do
    let cgroups ← sm.getCommands index
    execAll sm.executeGroup sm.unExecuteGroup cgroups
  else
    pure true

/-- `applyBlock` -/
def applyBlock (h : Hash) : M σ Bool := do
  let index ← sm.deref h
  let p ← sm.assertBlockCanBeApplied index
  if !index.isValid then
    pure false
  else do
    check (index.isValid .connected) .applyUnconnected
    if ← sm.executeBlock index then do
      sm.finishApply h p
      pure true
    else do
      invalidateSubtree sm.edClass h .failedPop false
      pure false

/-- `unapplyBlock` -/
def unapplyBlock (h : Hash) : M σ Unit := do
  let index ← sm.deref h
  let p ← getOrStop index.pprev .unapplyRoot
  check (!index.finalized) .unapplyFinalized
  check (index.hasFlags .active) .unapplyUnapplied
  let prev ← sm.deref p
  check (prev.hasFlags .active) .unapplyOnUnapplied
  when (PopAddon.hasPayloads index.addon) do
    let cgroups ← sm.getCommands index
    undoAll sm.unExecuteGroup cgroups
  zoom sm.ed (modifyBlock h (·.unsetFlag .active))
  let t ← sm.getEd
  check (decide (0 < t.appliedBlockCount)) .appliedBlockCount
  zoom sm.ed (modify fun t => { t with appliedBlockCount := t.appliedBlockCount - 1 })

/--
`unapplyWhile`: walk from `current` back to `dest`. The fuel is the height of the first block, more
than which the walk can not need.
-/
def unapplyWhile (pred : BlockIndex A → Bool) (dest : Hash) : Nat → Hash → M σ Hash
  | 0, _ => throw .unapplyNotAChain
  | n + 1, current =>
    if current = dest then
      pure dest
    else do
      let index ← sm.deref current
      let t ← sm.getEd
      check (decide (t.heightOf dest < index.height)) .unapplyNotAChain
      if !pred index then
        pure current
      else do
        sm.unapplyBlock current
        let p ← getOrStop index.pprev .unapplyRoot
        unapplyWhile pred dest n p

/-- `unapply`: the blocks of the range `[from; to)` -/
def unapply (start dest : Hash) : M σ Unit := do
  let t ← sm.getEd
  let last ← sm.unapplyWhile (fun _ => true) dest (t.heightOf start + 1) start
  check (decide (last = dest)) .unapplyNotAChain

/-- The blocks of the range `(from; to]`, the lowest first. -/
def chainBetween (t : Tree A) (start dest : Hash) : List Hash :=
  ((t.chainTo dest).takeWhile (fun h => decide (t.heightOf start < t.heightOf h))).reverse

/-- `apply`: the blocks of the range `(from; to]` -/
def apply (start dest : Hash) : M σ Bool :=
  if start = dest then
    pure true
  else do
    let index ← sm.deref dest
    if !index.isValid then
      pure false
    else do
      let t ← sm.getEd
      let chain := chainBetween t start dest
      let first ← getOrStop (chain.head?.bind t.find?) .applyNotAChain
      check (decide (first.pprev = some start)) .applyNotAChain
      execAll sm.applyBlock sm.unapplyBlock chain

/-- `PopStateMachine::setState` -/
def setState (start dest : Hash) : M σ Bool :=
  if start = dest then
    pure true
  else do
    let t ← sm.getEd
    let fork ← getOrStop (t.getForkBlock start dest) .noForkBlock
    sm.unapply start fork
    if ← sm.apply fork dest then
      pure true
    else do
      let success ← sm.apply fork start
      check success .rollbackFailed
      pure false

end PopStateMachine

end AltIntegration
