import AltIntegration.Blockchain.Pop.KeystoneUtil
import AltIntegration.Blockchain.Pop.PopStateMachine

/-!
This module contains `fork_resolution.hpp`: how the publications of two chains are compared, and the
comparator that applies both chains to do so.
-/

namespace AltIntegration

open Program

/-- The parameters of a protected chain, and one of the chain that protects it. -/
structure PopParams where
  keystoneInterval : Nat
  finalityDelay : Nat
  endorsementSettlementInterval : Nat
  forkResolutionLookUpTable : List Nat
  /-- `EnableTimeAdjustment` of the protecting chain -/
  enableTimeAdjustment : Bool

def noEndorsement : Nat := 2147483647

namespace PopParams

variable (p : PopParams)

def publicationViolatesFinality (pubToCheck base : Nat) : Bool :=
  (p.finalityDelay : Int) < (pubToCheck : Int) - base

/-- `getConsensusScoreFromRelativeBlockStartingAtZero` -/
def consensusScore (relativeBlock : Nat) : Int := (p.forkResolutionLookUpTable[relativeBlock]?).getD 0

end PopParams

section PublicationView

variable {A B : Type} [PopAddon A] (p : PopParams) (ed : Tree A) (ing : Tree B)

/-- The block of a chain at a height. A chain is given from its tip down. -/
def chainAt (chain : List Hash) (height : Nat) : Option (BlockIndex A) :=
  (chain.find? (fun h => ed.heightOf h = height)).bind ed.find?

/-- The blocks of proof in which a block that counts for a keystone is endorsed. -/
def referencedBy (chain : List Hash) : List Endorsement → Except Assertion (List Hash)
  | [] => .ok []
  | e :: es =>
    match ed.getBlockIndex e.containingHash with
    | none => .error .publicationView
    | some _ =>
      if !chain.contains e.containingHash then
        referencedBy chain es
      else
        match ing.getBlockIndex e.blockOfProof with
        | none => .error .publicationView
        | some _ =>
          if !ing.onActiveChain e.blockOfProof then
            referencedBy chain es
          else
            (referencedBy chain es).map (e.blockOfProof :: ·)

/-- `getProtoKeystoneContext`: over the blocks from height `first` on, `n` of them -/
def getProtoKeystoneContext (chain : List Hash) : Nat → Nat → Except Assertion (List Hash)
  | 0, _ => .ok []
  | n + 1, first =>
    match chainAt ed chain first with
    | none => .error .publicationView
    | some index =>
      match referencedBy ed ing chain (PopAddon.popState index.addon).endorsedBy with
      | .error e => .error e
      | .ok refs => (getProtoKeystoneContext chain n (first + 1)).map (refs ++ ·)

/-- The first block of the protecting best chain, above `height`, that is late enough. -/
def adjustedEndorsementIndex (timestampOfEndorsedBlock : Nat) (height : Nat) : Nat :=
  match ((ing.chainTo ing.activeTip).reverse.dropWhile
      (fun h => decide (ing.heightOf h ≤ height))).find?
      (fun h => (ing.find? h).any (fun b => decide (timestampOfEndorsedBlock < b.header.timestamp))) with
  | some h => ing.heightOf h
  | none => noEndorsement

/-- `getKeystoneContext`: the height of the earliest publication -/
def getKeystoneContext (timestampOfEndorsedBlock : Nat) : List Hash → Nat
  | [] => noEndorsement
  | h :: referencedByBlocks =>
    let earliest := getKeystoneContext timestampOfEndorsedBlock referencedByBlocks
    if earliest ≤ ing.heightOf h then
      earliest
    else if !p.enableTimeAdjustment || (ing.find? h).any
        (fun b => decide (timestampOfEndorsedBlock < b.header.timestamp)) then
      ing.heightOf h
    else
      min earliest (adjustedEndorsementIndex ing timestampOfEndorsedBlock (ing.heightOf h))

/-- `ReducedPublicationView`: a chain, from its tip down to the fork block -/
structure ReducedPublicationView where
  chain : List Hash
  firstKeystone : Nat
  lastKeystone : Nat

def reducedPublicationView (chain : List Hash) (fork tip : Nat) : ReducedPublicationView where
  chain := chain
  firstKeystone := firstKeystoneAfter fork p.keystoneInterval
  lastKeystone := highestKeystoneAtOrBefore tip p.keystoneInterval

namespace ReducedPublicationView

/-- The keystones of the view are counted by their numbers. -/
def empty (v : ReducedPublicationView) : Bool :=
  v.lastKeystone / p.keystoneInterval + 1 = v.firstKeystone / p.keystoneInterval

/-- `getKeystone`: the height of the first publication of a keystone of the view -/
def getKeystone (v : ReducedPublicationView) (height : Nat) : Except Assertion (Option Nat) :=
  if !isKeystone height p.keystoneInterval then
    .error .keystone
  else if height < v.firstKeystone || v.lastKeystone < height then
    .ok none
  else
    match v.chain.head?, chainAt ed v.chain height with
    | some tip, some keystone =>
      let highestEndorsedBlock :=
        min (highestBlockWhichConnectsKeystoneToPrevious height p.keystoneInterval) (ed.heightOf tip)
      (getProtoKeystoneContext ed ing v.chain (highestEndorsedBlock + 1 - height) height).map
        (fun refs => some (getKeystoneContext p ing keystone.header.timestamp refs))
    | _, _ => .error .publicationView

/-- A chain outside of finality has no keystones any more. -/
def getKeystoneUnless (v : ReducedPublicationView) (outsideFinality : Bool) (height : Nat) :
    Except Assertion (Option Nat) :=
  if outsideFinality then .ok none else v.getKeystone p ed ing height

end ReducedPublicationView

/-- The variables of the loop of `comparePopScoreImpl` -/
structure PopScores where
  aOutsideFinality : Bool := false
  bOutsideFinality : Bool := false
  chainAscore : Int := 0
  chainBscore : Int := 0
  previousPublicationA : Nat := noEndorsement
  previousPublicationB : Nat := noEndorsement

namespace PopScores

/-- The loop body when one of the chains has a keystone: the new scores, and whether to go on. -/
def compareKeystone (s : PopScores) : Option Nat → Option Nat → PopScores × Bool
  | none, none => (s, !(s.aOutsideFinality && s.bOutsideFinality))
  | none, some _ =>
    let s := { s with chainBscore := s.chainBscore + p.consensusScore 0, aOutsideFinality := true }
    (s, !(s.chainAscore < s.chainBscore))
  | some _, none =>
    let s := { s with chainAscore := s.chainAscore + p.consensusScore 0, bOutsideFinality := true }
    (s, !(s.chainBscore < s.chainAscore))
  | some a, some b =>
    let s :=
      { s with
        chainAscore := s.chainAscore + p.consensusScore (a - min a b)
        chainBscore := s.chainBscore + p.consensusScore (b - min a b)
        aOutsideFinality := s.aOutsideFinality || p.publicationViolatesFinality a b
        bOutsideFinality := s.bOutsideFinality || p.publicationViolatesFinality b a }
    (s, true)

/-- One round of the loop of `comparePopScoreImpl` -/
def step (s : PopScores) (actx bctx : Option Nat) : PopScores × Bool :=
  let earliestA := actx.getD noEndorsement
  let earliestB := bctx.getD noEndorsement
  let violatesA := actx.isSome && p.publicationViolatesFinality earliestA s.previousPublicationA
  let violatesB := bctx.isSome && p.publicationViolatesFinality earliestB s.previousPublicationB
  let s :=
    { s with
      aOutsideFinality := s.aOutsideFinality || violatesA
      bOutsideFinality := s.bOutsideFinality || violatesB
      previousPublicationA := earliestA
      previousPublicationB := earliestB }
  s.compareKeystone p (if violatesA then none else actx) (if violatesB then none else bctx)

end PopScores

/-- The loop of `comparePopScoreImpl`: `n` keystones from `keystone` on are left. -/
def comparePopScoreLoop (a b : ReducedPublicationView) :
    Nat → Nat → PopScores → Except Assertion Int
  | 0, _, s => .ok (s.chainAscore - s.chainBscore)
  | n + 1, keystone, s => do
    let actx ← a.getKeystoneUnless p ed ing s.aOutsideFinality keystone
    let bctx ← b.getKeystoneUnless p ed ing s.bOutsideFinality keystone
    let (s, goOn) := s.step p actx bctx
    if goOn then
      comparePopScoreLoop a b n (keystone + p.keystoneInterval) s
    else
      .ok (s.chainAscore - s.chainBscore)

/-- `comparePopScoreImpl` -/
def comparePopScoreImpl (a b : ReducedPublicationView) : Except Assertion Int :=
  if a.empty p && b.empty p then
    .ok 0
  else if a.empty p then
    .ok (-1)
  else if b.empty p then
    .ok 1
  else if a.firstKeystone ≠ b.firstKeystone then
    .error .publicationView
  else
    let latestKeystone := max a.lastKeystone b.lastKeystone
    comparePopScoreLoop p ed ing a b
      ((latestKeystone + p.keystoneInterval - a.firstKeystone) / p.keystoneInterval)
      a.firstKeystone {}

end PublicationView

namespace PopStateMachine

variable {σ τ A B C : Type} [BlockAddon A] [PopAddon A] [BlockAddon B]
  (sm : PopStateMachine σ τ A B C) (p : PopParams)

def getIng : M σ (Tree B) := do
  let s ← get
  pure (sm.protecting.tree.get (sm.ing.get s))

/-- Run `m` under a `DeferForkResolutionGuard`. -/
def withGuard {α : Type} (m : M σ α) : M σ α := do
  zoom sm.ing (deferForkResolution sm.protecting)
  let a ← m
  zoom sm.ing (continueForkResolution sm.protecting)
  pure a

/-- `DeferForkResolutionGuard::overrideDeferredForkResolution` -/
def revertTo (originalTip : Hash) : M σ Unit :=
  zoom sm.ing (overrideDeferredForkResolution sm.protecting originalTip)

/-- Revert the protecting tree unless `success`. -/
def revertUnless (success : Bool) (originalTip : Hash) : M σ Bool := do
  when (!success) (sm.revertTo originalTip)
  pure success

/-- `PopAwareForkResolutionComparator::setState` -/
def comparatorSetState (dest : Hash) : M σ Bool := do
  let t ← sm.getEd
  let currentActive := t.activeTip
  check (t.heightOf currentActive + 1 = t.heightOf t.root + t.appliedBlockCount) .bestChainNotApplied
  if currentActive = dest then
    pure true
  else
    sm.withGuard <| do
      let ing ← sm.getIng
      let success ← sm.setState currentActive dest
      sm.revertUnless success ing.activeTip

/-- The candidate lost: chain A is applied, take chain B off it. -/
def keepChainA (fork candidate originalTip : Hash) : M σ Unit :=
  sm.withGuard <| do
    sm.unapply candidate fork
    sm.revertTo originalTip

/--
The candidate won: take chain A off, and with it what of chain B was never validated alone, which
is then applied again. When that fails chain A is put back.
-/
def switchToChainB (fork bestTip candidate originalTip : Hash) : M σ Bool :=
  sm.withGuard <| do
    let t ← sm.getEd
    let chainBValidFrom ← sm.unapplyWhile (fun index => !index.isValid .canBeApplied) fork
      (t.heightOf candidate + 1) candidate
    sm.unapply bestTip fork
    if ← sm.apply chainBValidFrom candidate then
      pure true
    else do
      sm.unapply chainBValidFrom fork
      let success ← sm.apply fork bestTip
      check success .formerBestChainInvalid
      sm.revertTo originalTip
      pure false

/-- The comparison of two chains that fork off at `fork`, with chain A applied. -/
def compareForks (fork bestTip candidate : Hash) : M σ Int := do
  let ing ← sm.getIng
  let originalTip := ing.activeTip
  let applied ← sm.withGuard <| do
    let success ← sm.apply fork candidate
    sm.revertUnless success originalTip
  if !applied then
    pure 1
  else do
    let ed ← sm.getEd
    let ing ← sm.getIng
    let view := fun tip => reducedPublicationView p (fork :: PopStateMachine.chainBetween ed fork tip).reverse
      (ed.heightOf fork) (ed.heightOf tip)
    let result ← liftExcept (comparePopScoreImpl p ed ing (view bestTip) (view candidate))
    if 0 ≤ result then do
      sm.keepChainA fork candidate originalTip
      pure result
    else if ← sm.switchToChainB fork bestTip candidate originalTip then
      pure result
    else
      pure 1
where
  liftExcept : Except Assertion Int → M σ Int
    | .ok r => pure r
    | .error e => throw e

/-- `PopAwareForkResolutionComparator::comparePopScore` -/
def comparePopScore (candidate : Hash) : M σ Int := do
  let index ← sm.deref candidate
  let t ← sm.getEd
  let bestTip := t.activeTip
  let best ← sm.deref bestTip
  if !index.isValid || bestTip = candidate ||
      best.finalized && decide (index.height ≤ best.height) || t.onActiveChain candidate then
    pure 1
  else if t.getAncestor candidate best.height = some bestTip then do
    let ing ← sm.getIng
    let success ← sm.withGuard <| do
      let success ← sm.apply bestTip candidate
      sm.revertUnless success ing.activeTip
    pure (if success then -1 else 1)
  else do
    let fork ← getOrStop (t.findFork candidate) .noForkBlock
    let forkHeight := t.heightOf fork
    if (t.getAncestor bestTip (forkHeight + 1)).any (fun h => (t.find? h).any (·.finalized)) then
      pure 1
    else if !isCrossedKeystoneBoundary forkHeight best.height p.keystoneInterval &&
        !isCrossedKeystoneBoundary forkHeight index.height p.keystoneInterval then
      pure 0
    else
      sm.compareForks p fork bestTip candidate

end PopStateMachine

end AltIntegration
