import AltIntegration.Blockchain.Pop.VbkBlockTree

/-!
This module contains `AltBlockTree` of `alt_block_tree.cpp`: the ALT blocks, their bodies, and what
applying a body does to the VBK and the BTC tree. The tree is not loaded from a storage, so nothing is
ever finalized beyond the bootstrap block.
-/

namespace AltIntegration

open Program

/-- The ALT tree and the state of the security providing chains. -/
structure AltState where
  alt : Tree AltAddon
  sp : VbkState
  deriving DecidableEq

namespace AltState

def altTree : Lens AltState (Tree AltAddon) where
  get := (·.alt)
  set t s := { s with alt := t }
  get_set _ _ := rfl
  set_get _ := rfl
  set_set _ _ _ := rfl

def spState : Lens AltState VbkState where
  get := (·.sp)
  set t s := { s with sp := t }
  get_set _ _ := rfl
  set_get _ := rfl
  set_set _ _ _ := rfl

end AltState

/-- The commands of the payloads of an ALT block. -/
inductive AltCommand where
  | addVbkBlock (block : PowBlock)
  | addVTB (v : VTB)
  | checkPublicationData (contextInfo : Option ContextInfo) (endorsedHash : Hash)
  | addEndorsement (e : Endorsement)
  deriving DecidableEq, Repr

/-- `payloadToCommands` of an ATV -/
def ATV.commands (a : ATV) (containingHash : Hash) : List AltCommand :=
  [.addVbkBlock a.blockOfProof, .checkPublicationData a.contextInfo a.endorsedHash,
    .addEndorsement (a.endorsement containingHash)]

variable (cfg : Config)

/-- `ContextInfoContainer::createFromPrevious` -/
def ContextInfo.createFromPrevious (t : Tree AltAddon) : Option Hash → ContextInfo
  | none =>
    { height := cfg.altBootstrapHeight, firstPreviousKeystone := none, secondPreviousKeystone := none }
  | some prev =>
    let height := t.heightOf prev + 1
    let first := t.getAncestor prev (getPreviousKeystoneHeight height cfg.altPop.keystoneInterval 0)
    { height := height
      firstPreviousKeystone := first
      secondPreviousKeystone := first.bind
        (fun h => t.getAncestor h (getPreviousKeystoneHeight height cfg.altPop.keystoneInterval 1)) }

/-- `CheckPublicationData::Execute` -/
def checkPublicationData (contextInfo : Option ContextInfo) (endorsedHash : Hash) (t : Tree AltAddon) :
    Bool :=
  match contextInfo, t.getBlockIndex endorsedHash with
  | some c, some endorsed => c = ContextInfo.createFromPrevious cfg t endorsed.pprev
  | _, _ => false

namespace AltCommand

def vbkTree : Lens AltState (Tree VbkAddon) := AltState.spState.comp VbkState.vbkTree

def execute : AltCommand → M AltState Bool
  | addVbkBlock b => zoom AltState.spState (AddBlock.execute cfg.vbk (vbkClass cfg) b 0)
  | addVTB v => zoom AltState.spState (VbkBlockTree.addPayloads cfg v.containingBlock.getHash [v])
  | checkPublicationData c h => do
    let s ← get
    pure (AltIntegration.checkPublicationData cfg c h s.alt)
  | addEndorsement e =>
    AddEndorsement.execute AltState.altTree vbkTree cfg.altPop.endorsementSettlementInterval e

def unExecute : AltCommand → M AltState Unit
  | addVbkBlock b => zoom AltState.spState (AddBlock.unExecute (vbkClass cfg) b 0)
  | addVTB v =>
    zoom AltState.spState (VbkBlockTree.unsafelyRemovePayload cfg v.containingBlock.getHash v.getId true)
  | checkPublicationData _ _ => pure ()
  | addEndorsement e => AddEndorsement.unExecute AltState.altTree vbkTree e

end AltCommand

namespace AltBlockTree

/-- `AltCommandGroupStore::getCommands`: VBK blocks first, then VTBs, then ATVs -/
def getCommands (index : BlockIndex AltAddon) : M AltState (List (List AltCommand)) := do
  let s ← get
  let vbks ← getOrStop (collect s.sp.storage.vbks.find? index.addon.vbkblockids) .stateCorrupted
  let vtbs ← getOrStop (collect s.sp.storage.vtbs.find? index.addon.vtbids) .stateCorrupted
  let atvs ← getOrStop (collect s.sp.storage.atvs.find? index.addon.atvids) .stateCorrupted
  pure (vbks.map (fun b => [.addVbkBlock b]) ++ vtbs.map (fun v => [.addVTB v]) ++
    atvs.map (fun a => a.commands index.header.hash))

def stateMachine : PopStateMachine AltState VbkState AltAddon VbkAddon AltCommand where
  ed := AltState.altTree
  ing := AltState.spState
  protecting := vbkClass cfg
  getCommands := getCommands
  execute := AltCommand.execute cfg
  unExecute := AltCommand.unExecute cfg

/-- `AltBlockTree::overrideTip` -/
def overrideTip (h : Hash) : M AltState Unit := do
  let index ← zoom AltState.altTree (derefBlock h)
  check (index.isValid .canBeApplied) .tipNotFullyValid
  zoom AltState.altTree (modify fun t => t.overrideTip h)

/-- After `setState` of the comparator: the tip follows, or the block has turned out invalid. -/
def settle (h : Hash) (success : Bool) : M AltState Unit :=
  if success then
    overrideTip h
  else do
    let index ← zoom AltState.altTree (derefBlock h)
    check (!index.isValid) .setStateFailedOnValid

/-- `AltBlockTree::setState` -/
def setState (h : Hash) : M AltState Bool := do
  let index ← zoom AltState.altTree (derefBlock h)
  check index.isConnected .notConnected
  let success ← (stateMachine cfg).comparatorSetState h
  settle h success
  let s ← get
  check (s.alt.appliedBlockCount = (s.alt.chainTo s.alt.activeTip).length) .appliedBlockCount
  pure success

/-- `AltBlockTree::onBeforeLeafRemoved` -/
def onBeforeLeafRemoved (b : BlockIndex AltAddon) (t : Tree AltAddon) : Tree AltAddon :=
  b.addon.payloadIds.foldl (fun t id => t.removeFromPayloadsIndex id b.header.hash) t

end AltBlockTree

/-- The ALT tree. It does no fork resolution of its own. -/
def altClass : TreeClass AltState AltAddon where
  tree := AltState.altTree
  tipsOrder := cfg.altTipsOrder
  onBeforeLeafRemoved := AltBlockTree.onBeforeLeafRemoved
  setState := AltBlockTree.setState cfg
  determineBestChain _ := pure ()

namespace AltBlockTree

/-- `acceptBlockHeader` -/
def acceptBlockHeader (block : Block) : M AltState Bool := do
  check (block.hash ≠ block.previousBlock) .blockSanity
  let s ← get
  if block.hash = s.alt.root then
    pure true
  else
    match s.alt.getBlockIndex block.previousBlock with
    | none => pure false
    | some _ => do
      zoom AltState.altTree (insertBlockHeader (fun _ t => t) block)
      let index ← zoom AltState.altTree (derefBlock block.hash)
      if !index.isValid then
        pure false
      else do
        zoom AltState.altTree (modify fun t => t.tryAddTip block.hash)
        pure true

/-- `commitPayloadsIds` for the three kinds of payloads -/
def commitPayloadsIds (h : Hash) (p : PopData) (t : Tree AltAddon) : Tree AltAddon :=
  let a : AltAddon :=
    { vbkblockids := p.context.map PowBlock.getHash, vtbids := p.vtbs.map VTB.getId
      atvids := p.atvs.map ATV.getId }
  a.payloadIds.foldl (fun t id => t.addToPayloadsIndex id h)
    (t.update h (fun b => b.setAddon { a with popState := b.addon.popState }))

/-- `setPayloads` -/
def setPayloads (h : Hash) (p : PopData) : M AltState Unit := do
  let index ← zoom AltState.altTree (derefBlock h)
  check (index.isValidUpTo .validTree) .payloadsOfInvalidBlock
  check (!index.hasFlags .hasPayloads) .payloadsAlreadySet
  check (!index.hasFlags .active) .payloadsOfAppliedBlock
  check (!index.isRoot) .payloadsOfRoot
  check p.checkForDuplicates .payloadsDuplicate
  zoom AltState.altTree (modify (commitPayloadsIds h p))
  modify fun s => { s with sp := { s.sp with storage := s.sp.storage.writePayloads p } }
  zoom AltState.altTree (modifyBlock h (·.setFlag .hasPayloads))

/-- `isStatefulDuplicate`: the payload is in an ancestor of the block `h`. -/
def isStatefulDuplicate (t : Tree AltAddon) (prev : Hash) (id : PayloadId) : Bool :=
  t.payloadsIndex.any (fun e => e.1 = id && (t.getBlockIndex e.2).isSome && (t.chainTo prev).contains e.2) ||
    t.finalizedPayloadsIndex.any (fun e => e.1 = id)

/-- `connectBlock` -/
def connectBlock (h : Hash) : M AltState Unit := do
  let index ← zoom AltState.altTree (derefBlock h)
  check (index.hasFlags .hasPayloads) .connectWithoutPayloads
  check (!index.isConnected) .connectConnected
  check (!index.hasFlags .active) .payloadsOfAppliedBlock
  let p ← getOrStop index.pprev .payloadsOfRoot
  let prev ← zoom AltState.altTree (derefBlock p)
  check prev.isConnected .connectUnconnectedPrev
  let s ← get
  check (!s.alt.anyNext h (·.isConnected)) .connectConnectedDescendant
  let success ← zoom AltState.altTree (raiseValidity h .connected)
  check success .connectFailedPop
  let s ← get
  when (index.addon.payloadIds.any (isStatefulDuplicate s.alt p))
    (invalidateSubtree (altClass cfg) h .failedPop false)
  zoom AltState.altTree (modify fun t => t.tryAddTip h)

/-- Connect a block that has its payloads, and then the blocks after it. -/
def connectSubtree : Nat → Hash → M AltState Unit
  | 0, _ => pure ()
  | n + 1, h => do
    let index ← zoom AltState.altTree (derefBlock h)
    when (index.hasFlags .hasPayloads) do
      connectBlock cfg h
      let s ← get
      forEach (connectSubtree n) (s.alt.pnext h).reverse

/-- `acceptBlock` -/
def acceptBlock (h : Hash) (payloads : PopData) : M AltState Unit := do
  let s ← get
  check (s.alt.getBlockIndex h).isSome .unknownBlock
  setPayloads h payloads
  let index ← zoom AltState.altTree (derefBlock h)
  let p ← getOrStop index.pprev .payloadsOfRoot
  let prev ← zoom AltState.altTree (derefBlock p)
  when prev.isConnected (connectSubtree cfg (s.alt.maxHeight + 1) h)

/-- `comparePopScore` -/
def comparePopScore (a b : Hash) : M AltState Int := do
  let s ← get
  let left ← getOrStop (s.alt.getBlockIndex a) .unknownBlock
  check (s.alt.activeTip = a) .notTheTip
  match s.alt.getBlockIndex b with
  | none => pure 1
  | some right => do
    check left.isConnected .notConnected
    check right.isConnected .notConnected
    let result ← (stateMachine cfg).comparePopScore cfg.altPop b
    when (decide (result < 0))
      (zoom AltState.altTree (modify fun t => { t with activeTip := b }))
    pure result

/-- `setState` of a hash -/
def setStateByHash (h : Hash) : M AltState Bool := do
  let s ← get
  match s.alt.getBlockIndex h with
  | none => pure false
  | some _ => setState cfg h

/-- `clearSideEffects` for the three kinds of payloads -/
def clearSideEffects (h : Hash) (t : Tree AltAddon) : Tree AltAddon :=
  match t.find? h with
  | none => t
  | some b =>
    if PopAddon.hasPayloads b.addon then
      (onBeforeLeafRemoved b t).update h (fun b => b.setAddon b.addon.clearPayloads)
    else
      t

/-- Lower the validity of a connected block; a block with `BLOCK_FAILED_POP` can not be lowered. -/
def disconnect (h : Hash) : M (Tree AltAddon) Unit := do
  let index ← derefBlock h
  when index.isConnected do
    let success ← lowerValidity h .validTree
    check success .lowerValidity

/-- `removePayloads`, with `removeAllPayloads` -/
def removePayloads (h : Hash) : M AltState Unit := do
  let s ← get
  let index ← getOrStop (s.alt.getBlockIndex h) .unknownBlock
  let prev ← getOrStop index.pprev .rootBlock
  check (index.hasFlags .hasPayloads) .removeNoPayloads
  check (!index.hasFlags .active) .payloadsOfAppliedBlock
  check (!s.alt.anyNext h (·.isConnected)) .connectConnectedDescendant
  zoom AltState.altTree (modify (clearSideEffects h))
  zoom AltState.altTree (modifyBlock h (·.unsetFlag .hasPayloads))
  revalidateSubtree (altClass cfg) h .failedPop false
  zoom AltState.altTree <| do
    disconnect h
    modify (fun t => t.eraseTip h)
    modify (fun t => t.tryAddTip prev)

end AltBlockTree

end AltIntegration
