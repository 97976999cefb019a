import AltIntegration.Blockchain.AddEndorsement
import AltIntegration.Blockchain.Pop.ForkResolution

/-!
This module contains the BTC tree and `VbkBlockTree` of `vbk_block_tree.cpp`: the VBK blocks, the VTBs
they contain, and what applying a VTB does to the BTC tree.
-/

namespace AltIntegration

open Program

/-- The parameters of the three chains. -/
structure Config where
  btc : BlockTreeParams
  vbk : BlockTreeParams
  /-- VBK, protected by BTC -/
  vbkPop : PopParams
  vbkMaxReorgBlocks : Nat
  /-- ALT, protected by VBK -/
  altPop : PopParams
  altBootstrapHeight : Nat
  btcTipsOrder : Nat → List Hash → List Hash
  vbkTipsOrder : Nat → List Hash → List Hash
  altTipsOrder : Nat → List Hash → List Hash

/-- `MAX_VBKPOPTX_PER_VBK_BLOCK` -/
def maxVbkPopTxPerVbkBlock : Nat := 1024

/-- The VBK tree and what it works on. -/
structure VbkState where
  vbk : Tree VbkAddon
  btc : Tree BtcAddon
  storage : PayloadsStorage
  deriving DecidableEq

namespace VbkState

def vbkTree : Lens VbkState (Tree VbkAddon) where
  get := (·.vbk)
  set t s := { s with vbk := t }
  get_set _ _ := rfl
  set_get _ := rfl
  set_set _ _ _ := rfl

def btcTree : Lens VbkState (Tree BtcAddon) where
  get := (·.btc)
  set t s := { s with btc := t }
  get_set _ _ := rfl
  set_get _ := rfl
  set_set _ _ _ := rfl

end VbkState

variable (cfg : Config)

/-- The BTC tree, a plain `BlockTree`. -/
def btcClass : TreeClass (Tree BtcAddon) BtcAddon where
  tree := Lens.id
  tipsOrder := cfg.btcTipsOrder
  onBeforeLeafRemoved _ t := t
  setState := setState
  determineBestChain := determineBestChainByWork Lens.id setState
where
  setState (h : Hash) : M (Tree BtcAddon) Bool := do
    modify (fun t => t.overrideTip h)
    pure true

/-- The commands of a VTB in the VBK tree. -/
inductive VbkCommand where
  | addBtcBlock (block : PowBlock) (referencedAtHeight : Nat)
  | addEndorsement (e : Endorsement)
  deriving DecidableEq, Repr

/-- `payloadToCommands` of the VBK tree -/
def VTB.commands (v : VTB) : List VbkCommand :=
  v.blockOfProofContext.map (fun b => .addBtcBlock b v.containingBlock.height) ++
    [.addBtcBlock v.blockOfProof v.containingBlock.height, .addEndorsement v.endorsement]

namespace VbkCommand

def execute : VbkCommand → M VbkState Bool
  | addBtcBlock b h => zoom VbkState.btcTree (AddBlock.execute cfg.btc (btcClass cfg) b h)
  | addEndorsement e =>
    AddEndorsement.execute VbkState.vbkTree VbkState.btcTree
      cfg.vbkPop.endorsementSettlementInterval e

def unExecute : VbkCommand → M VbkState Unit
  | addBtcBlock b h => zoom VbkState.btcTree (AddBlock.unExecute (btcClass cfg) b h)
  | addEndorsement e => AddEndorsement.unExecute VbkState.vbkTree VbkState.btcTree e

end VbkCommand

namespace VbkBlockTree

/-- `VbkCommandGroupStore::getCommand` -/
def getCommand (id : Nat) : M VbkState (List VbkCommand) := do
  let s ← get
  let v ← getOrStop (s.storage.vtbs.find? id) .stateCorrupted
  pure v.commands

/-- `VbkCommandGroupStore::getCommands` -/
def getCommands (index : BlockIndex VbkAddon) : M VbkState (List (List VbkCommand)) := do
  let s ← get
  let vtbs ← getOrStop (collect s.storage.vtbs.find? index.addon.vtbids) .stateCorrupted
  pure (vtbs.map VTB.commands)

def stateMachine : PopStateMachine VbkState (Tree BtcAddon) VbkAddon BtcAddon VbkCommand where
  ed := VbkState.vbkTree
  ing := VbkState.btcTree
  protecting := btcClass cfg
  getCommands := getCommands
  execute := VbkCommand.execute cfg
  unExecute := VbkCommand.unExecute cfg

/-- `VbkBlockTree::overrideTip` -/
def overrideTip (h : Hash) : M VbkState Unit := do
  zoom VbkState.vbkTree (modify fun t => t.overrideTip h)
  let index ← zoom VbkState.vbkTree (derefBlock h)
  check (index.isValid .canBeApplied) .tipNotFullyValid

/-- After `setState` of the comparator: the tip follows, or the block has turned out invalid. -/
def settle (h : Hash) (success : Bool) : M VbkState Unit :=
  if success then
    overrideTip h
  else do
    let index ← zoom VbkState.vbkTree (derefBlock h)
    check (!index.isValid) .setStateFailedOnValid

/-- `VbkBlockTree::setState` -/
def setState (h : Hash) : M VbkState Bool := do
  let success ← (stateMachine cfg).comparatorSetState h
  settle h success
  let s ← get
  check (s.vbk.appliedBlockCount = (s.vbk.chainTo s.vbk.activeTip).length) .appliedBlockCount
  pure success

/-- `VbkBlockTree::determineBestChain` -/
def determineBestChain (candidate : Hash) : M VbkState Unit := do
  let s ← get
  if cfg.vbkMaxReorgBlocks + s.vbk.heightOf candidate < s.vbk.heightOf s.vbk.activeTip then
    pure ()
  else do
    let result ← (stateMachine cfg).comparePopScore cfg.vbkPop candidate
    if result = 0 then
      determineBestChainByWork VbkState.vbkTree (setState cfg) candidate
    else
      when (decide (result < 0)) (overrideTip candidate)

/-- The virtual function does nothing here: the payload index keeps the payloads of a deleted block. -/
def onBeforeLeafRemoved (b : BlockIndex VbkAddon) (t : Tree VbkAddon) : Tree VbkAddon :=
  { t with misindexed := b.addon.vtbids.map (fun pid => (.vtb pid, b.header.hash)) ++ t.misindexed }

end VbkBlockTree

def vbkClass : TreeClass VbkState VbkAddon where
  tree := VbkState.vbkTree
  tipsOrder := cfg.vbkTipsOrder
  onBeforeLeafRemoved := VbkBlockTree.onBeforeLeafRemoved
  setState := VbkBlockTree.setState cfg
  determineBestChain := VbkBlockTree.determineBestChain cfg

namespace VbkBlockTree

/-- `insertPayloadId`, with the payload index -/
def insertPayloadId (h : Hash) (pid : Nat) (t : Tree VbkAddon) : Tree VbkAddon :=
  (t.updateAddon h (fun a => { a with vtbids := a.vtbids ++ [pid] })).addToPayloadsIndex (.vtb pid) h

/-- Whether the block has the payload more than once. -/
def hasCopies (t : Tree VbkAddon) (h : Hash) (pid : Nat) : Bool :=
  (t.find? h).any (fun b => decide (1 < b.addon.vtbids.count pid))

/-- `removePayloadId`, with the payload index: the first match goes. -/
def removePayloadId (h : Hash) (pid : Nat) (t : Tree VbkAddon) : Tree VbkAddon :=
  { (t.updateAddon h (fun a => { a with vtbids := a.vtbids.erase pid })).removeFromPayloadsIndex
      (.vtb pid) h with
    misindexed := if hasCopies t h pid then (.vtb pid, h) :: t.misindexed else t.misindexed }

/-- `unsafelyRemovePayload` -/
def unsafelyRemovePayload (h : Hash) (pid : Nat) (shouldDetermineBestChain : Bool) :
    M VbkState Unit := do
  let s ← get
  let index ← getOrStop (s.vbk.getBlockIndex h) .undoNoContainingBlock
  check (decide (pid ∈ index.addon.vtbids)) .undoNoPayload
  check (!index.hasFlags .failedPop) .undoFailedPop
  when (s.vbk.onActiveChain h) do
    let cmds ← getCommand pid
    (stateMachine cfg).unExecuteGroup cmds
  zoom VbkState.vbkTree (modify (removePayloadId h pid))
  when shouldDetermineBestChain (updateTips (vbkClass cfg))

/-- `removePayloads` -/
def removePayloads (h : Hash) (pids : List Nat) : M VbkState Unit := do
  let s ← get
  let index ← getOrStop (s.vbk.getBlockIndex h) .unknownBlock
  let prev ← getOrStop index.pprev .rootBlock
  when (!pids.isEmpty) do
    when (s.vbk.onActiveChain h) (setStateOrStop (vbkClass cfg) prev)
    forEach (removeOne h) pids
    updateTips (vbkClass cfg)
where
  removeOne (h : Hash) (pid : Nat) : M VbkState Unit := do
    let index ← zoom VbkState.vbkTree (derefBlock h)
    check (decide (pid ∈ index.addon.vtbids)) .removeMissingPayload
    check (!index.hasFlags .failedPop) .undoFailedPop
    zoom VbkState.vbkTree (modify (removePayloadId h pid))

/-- `validateBTCContext`. The hash of no block is 0. -/
def validateBTCContext (v : VTB) (btc : Tree BtcAddon) : Bool :=
  let firstBlock := v.blockOfProofContext.headD v.blockOfProof
  let connectingHash := if firstBlock.previousBlock ≠ 0 then firstBlock.previousBlock else firstBlock.getHash
  match btc.getBlockIndex connectingHash with
  | none => false
  | some connecting => connecting.addon.refs.any (fun h => decide (h ≤ v.containingBlock.height))

/-- `addPayloadToAppliedBlock` -/
def addPayloadToAppliedBlock (h : Hash) (v : VTB) : M VbkState Bool := do
  let index ← zoom VbkState.vbkTree (derefBlock h)
  check (index.hasFlags .active) .vtbContainingNotActive
  let s ← get
  let pid := v.getId
  if maxVbkPopTxPerVbkBlock ≤ index.addon.vtbids.length then do
    zoom VbkState.vbkTree (modify fun t => t.record (.tooManyPayloads h))
    pure false
  else if !validateBTCContext v s.btc then
    pure false
  else do
    when (decide (pid ∈ index.addon.vtbids))
      (zoom VbkState.vbkTree (modify fun t => t.record (.duplicatePayload h pid)))
    zoom VbkState.vbkTree (modify (insertPayloadId h pid))
    let cmds ← getCommand pid
    if ← (stateMachine cfg).executeGroup cmds then
      pure true
    else do
      zoom VbkState.vbkTree (modify (removePayloadId h pid))
      pure false

/-- Add the payloads to a block that is applied, or leave it as it is. -/
def addPayloadsToAppliedBlock (h : Hash) (payloads : List VTB) : M VbkState Bool :=
  execAll (addPayloadToAppliedBlock cfg h) (fun v => unsafelyRemovePayload cfg h v.getId false) payloads

/-- `addPayloads` -/
def addPayloads (h : Hash) (payloads : List VTB) : M VbkState Bool := do
  let s ← get
  if payloads.isEmpty then
    pure true
  else
    match s.vbk.getBlockIndex h with
    | none => pure false
    | some index =>
      if !index.isValid then
        pure false
      else do
        let tip := s.vbk.activeTip
        let isOnActiveChain := s.vbk.onActiveChain h
        if ← applyContaining isOnActiveChain then do
          if ← addPayloadsToAppliedBlock cfg h payloads then do
            doUpdateAffectedTips (vbkClass cfg) h
            when (!isOnActiveChain) (doUpdateAffectedTips (vbkClass cfg) tip)
            pure true
          else do
            when (!isOnActiveChain) (restoreTip tip)
            pure false
        else
          pure false
where
  applyContaining (isOnActiveChain : Bool) : M VbkState Bool :=
    if isOnActiveChain then pure true else setState cfg h
  restoreTip (tip : Hash) : M VbkState Unit := do
    let success ← setState cfg tip
    check success .revertToSavedTip

end VbkBlockTree

end AltIntegration
