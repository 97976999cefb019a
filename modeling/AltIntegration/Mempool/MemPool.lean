import AltIntegration.Mempool.Relations
import AltIntegration.Mempool.ValueSortedMap
import AltIntegration.Blockchain.MemPoolBlockTree
import AltIntegration.Blockchain.Runs

/-!
This module contains `MemPool` of `mempool.cpp` with the checks of `MemPoolBlockTree` that it calls, and the
temporary blocks of `TempBlockTree`, of which only the headers are read.

The trees are the ones of the altchain; the mempool reads them, and changes them only to fill a block. The
signals that tell of accepted payloads are left out.
-/

namespace AltIntegration

open Program

namespace Mempool

/-- Ways to die: an assertion of a tree or of a map, or a read of an element that has been erased. -/
inductive Stop where
  | tree (a : Assertion)
  | valueSortedMap
  | relationsSize
  | readsErased
  deriving DecidableEq, Repr

/-- What a check says: the reasons of `ValidationState`, the last one first. -/
abbrev Verdict := Except (List String) Unit

/-- What the mempool runs with. The stateless checks read nothing but the payload. -/
structure Params where
  cfg : Config
  limits : PopDataLimits
  /-- of the VBK chain -/
  oldBlocksWindow : Nat
  /-- the ALT tree, with what its `overrideTip` does -/
  altTree : TreeClass AltState AltAddon
  checkATV : ATV → Verdict
  checkVTB : VTB → Verdict
  checkBlock : PowBlock → Verdict

/-- `temp_blocks_` of a `TempBlockTree` -/
abbrev TempBlocks := Store Hash PowBlock

/-- `MemPool`, with the two temporary trees -/
structure MemPool where
  relations : Store Hash VbkPayloadsRelations
  vbkblocks : Store Hash PowBlock
  storedAtvs : Store Nat SharedATV
  storedVtbs : Store Nat VTB
  atvsInFlight : ValueSortedMap Nat SharedATV
  vtbsInFlight : ValueSortedMap Nat VTB
  vbkblocksInFlight : ValueSortedMap Hash PowBlock
  tempVbk : TempBlocks
  tempBtc : TempBlocks

/-- The mempool and the trees it stands on. -/
structure State where
  pool : MemPool
  trees : AltState

abbrev P := EStateM Stop State

def modifyPool (f : MemPool → MemPool) : P Unit := modify fun s => { s with pool := f s.pool }

/-- Run a program of the trees. -/
def onTrees {α : Type} (m : M AltState α) : P α := fun s =>
  match m s.trees with
  | .ok a t => .ok a { s with trees := t }
  | .error e t => .error (.tree e) { s with trees := t }

namespace TempBlocks

variable {A : Type} [BlockAddon A]

/-- `acceptBlockHeader` of a `TempBlockTree` over the stable tree `t` -/
def acceptBlockHeader (name : String) (t : Tree A) (b : PowBlock) (temp : TempBlocks) : Except (List String) TempBlocks :=
  let known := fun h => (temp.find? h).isSome || (t.getBlockIndex h).isSome
  if !known b.previousBlock then .error [name ++ "-bad-prev-block"]
  else if known b.getHash then .ok temp
  else .ok (temp.insert b.getHash b)

def cleanUpStaleBlocks (t : Tree A) (temp : TempBlocks) : TempBlocks :=
  temp.filter (fun _ b => (t.getBlockIndex b.getHash).isNone)

end TempBlocks

/-- `findBlockContainingEndorsement`, back from `workBlock` -/
def findBlockContainingEndorsement {A : Type} [PopAddon A] (t : Tree A) (workBlock : Hash) (id window : Nat) : Option Hash :=
  (((t.chainTo workBlock).take window).takeWhile (fun h => decide (t.heightOf t.root ≤ t.heightOf h))).find?
    (fun h => (t.find? h).any (fun index =>
      (PopAddon.popState index.addon).containingEndorsements.any (fun e => decide (e.id = id))))

variable (p : Params)

section Checks

variable (trees : AltState)

/-- The height of the VBK tip -/
def vbkTipHeight : Int := trees.sp.vbk.heightOf trees.sp.vbk.activeTip

def isBlockOld (b : PowBlock) : Bool := decide (vbkTipHeight trees - b.height > p.oldBlocksWindow)

/-- `checkContextually` of a VBK block -/
def checkVbkBlockContextually (b : PowBlock) : Verdict :=
  if (trees.sp.vbk.getBlockIndex b.getHash).isSome then .error ["duplicate"]
  else if vbkTipHeight trees - b.height > p.cfg.vbkMaxReorgBlocks then .error ["too-old"]
  else .ok ()

/-- `checkContextually` of an ATV -/
def checkATVContextually (a : ATV) : Verdict :=
  let t := trees.alt
  let window := p.cfg.altPop.endorsementSettlementInterval
  if (findBlockContainingEndorsement t t.activeTip a.getId window).isSome then .error ["atv-duplicate"]
  else if (t.getBlockIndex a.transaction.endorsedHash).any
      (fun endorsed => decide (t.heightOf t.activeTip + 1 > window + endorsed.height)) then .error ["atv-expired"]
  else .ok ()

/-- The endorsement of a VTB comes too late in any block. -/
def VTB.isExpired (v : VTB) : Bool :=
  decide (v.containingBlock.height > p.cfg.vbkPop.endorsementSettlementInterval + v.publishedBlock.height)

/-- The active VBK chain has the endorsement of a VTB: it is searched from the containing block, or from the tip. -/
def VTB.isDuplicate (v : VTB) : Bool :=
  let t := trees.sp.vbk
  let containing := v.containingBlock.getHash
  let workBlock := if (t.getBlockIndex containing).isSome then containing else t.activeTip
  (findBlockContainingEndorsement t workBlock v.getId p.cfg.vbkPop.endorsementSettlementInterval).isSome

/-- `checkContextually` of a VTB -/
def checkVTBContextually (v : VTB) : Verdict :=
  if v.isDuplicate p trees then .error ["vtb-duplicate"]
  else if v.isExpired p then .error ["vtb-expired"]
  else .ok ()

end Checks

section Accept

def acceptVbkHeader (b : PowBlock) : P Verdict := do
  let s ← get
  match s.pool.tempVbk.acceptBlockHeader "VBK" s.trees.sp.vbk b with
  | .error path => pure (.error path)
  | .ok temp => do
    modifyPool fun m => { m with tempVbk := temp }
    pure (.ok ())

def acceptBtcHeader (b : PowBlock) : P Verdict := do
  let s ← get
  match s.pool.tempBtc.acceptBlockHeader "BTC" s.trees.sp.btc b with
  | .error path => pure (.error path)
  | .ok temp => do
    modifyPool fun m => { m with tempBtc := temp }
    pure (.ok ())

/-- The loop over `blockOfProofContext`, from the block number `i` on -/
def acceptBtcContext : Nat → List PowBlock → P Verdict
  | _, [] => pure (.ok ())
  | i, b :: bs => do
    match ← acceptBtcHeader b with
    | .error path => pure (.error ("bad-block-of-proof-context" :: toString i :: path))
    | .ok () => acceptBtcContext (i + 1) bs

def acceptATV (a : ATV) : P Verdict := do
  let s ← get
  match checkATVContextually p s.trees a with
  | .error path => pure (.error ("atv-contextual" :: path))
  | .ok () => do
    let r ← acceptVbkHeader a.blockOfProof
    pure (r.mapError (List.cons "bad-block-of-proof"))

/-- The part of `acceptVTB` after the check: the headers that come with a VTB -/
def acceptVTBHeaders (v : VTB) : P Verdict := do
  match ← acceptVbkHeader v.containingBlock with
  | .error path => pure (.error ("bad-containing-block" :: path))
  | .ok () => do
    match ← acceptBtcContext 0 v.blockOfProofContext with
    | .error path => pure (.error path)
    | .ok () => do
      let r ← acceptBtcHeader v.blockOfProof
      pure (r.mapError (List.cons "bad-block-of-proof"))

def acceptVTB (v : VTB) : P Verdict := do
  let s ← get
  match checkVTBContextually p s.trees v with
  | .error path => pure (.error ("vtb-contextual" :: path))
  | .ok () => acceptVTBHeaders v

end Accept

namespace MemPool

/-- Every map is empty. -/
def empty : MemPool where
  relations := Store.empty
  vbkblocks := Store.empty
  storedAtvs := Store.empty
  storedVtbs := Store.empty
  atvsInFlight := ValueSortedMap.empty
  vtbsInFlight := ValueSortedMap.empty
  vbkblocksInFlight := ValueSortedMap.empty
  tempVbk := Store.empty
  tempBtc := Store.empty

variable (m : MemPool)

def getOrPutVbkRelation (b : PowBlock) : MemPool :=
  { m with
    vbkblocks := m.vbkblocks.emplace b.getHash b
    relations := m.relations.emplace b.getHash { header := b } }

/-- `rel.atvs.insert(atv)`, for the relation of its block of proof -/
def insertATV (t : Tree AltAddon) (a : SharedATV) : MemPool :=
  { m with
    relations := m.relations.modify a.atv.blockOfProof.getHash
      (fun rel => { rel with atvs := OrderedSet.insert (ComesBefore t) a rel.atvs }) }

/-- `rel.vtbs.push_back(vtb)`, for the relation of its containing block -/
def pushVTB (v : VTB) : MemPool :=
  { m with
    relations := m.relations.modify v.containingBlock.getHash (fun rel => { rel with vtbs := rel.vtbs ++ [v] }) }

/-- The ATVs that are held for a VBK block -/
def atvsAt (id : Hash) : List SharedATV := (m.relations.find? id).elim [] (·.atvs)

def vtbsAt (id : Hash) : List VTB := (m.relations.find? id).elim [] (·.vtbs)

/-- Erase the ATVs that `stale` picks out of a relation while iterating over them, and their ids. -/
def eraseATVs (id : Hash) (stale : ATV → Bool) : MemPool :=
  { m with
    relations := m.relations.modify id (fun rel => { rel with atvs := rel.atvs.filter (fun a => !stale a.atv) })
    storedAtvs := ((m.atvsAt id).filter (fun a => stale a.atv)).foldl (fun stored a => stored.erase a.atv.getId) m.storedAtvs }

def eraseVTBs (id : Hash) (stale : VTB → Bool) : MemPool :=
  { m with
    relations := m.relations.modify id (fun rel => { rel with vtbs := rel.vtbs.filter (fun v => !stale v) })
    storedVtbs := ((m.vtbsAt id).filter stale).foldl (fun stored v => stored.erase v.getId) m.storedVtbs }

/-- Erase a relation, and its block from `vbkblocks_`, if nothing is held for it. -/
def eraseIfEmpty (id : Hash) : MemPool :=
  match m.relations.find? id with
  | none => m
  | some rel =>
    if rel.isEmpty then
      { m with vbkblocks := m.vbkblocks.erase rel.header.getHash, relations := m.relations.erase id }
    else m

/-- The addresses that are taken. -/
def addresses : List Nat :=
  m.relations.entries.flatMap (fun e => e.2.atvs.map (·.addr)) ++ m.storedAtvs.entries.map (fun e => e.2.addr) ++
    m.atvsInFlight.values.map (·.addr) ++ m.atvsInFlight.set.map (·.addr)

end MemPool

/-- Where `make_shared` puts the next object: nothing else is there. -/
structure Allocator where
  new : List Nat → Nat
  new_not_mem : ∀ taken, new taken ∉ taken

/-- `SubmitResult`, with the reasons for a failure -/
inductive SubmitResult where
  | valid
  | failedStateful (path : List String)
  | failedStateless (path : List String)
  deriving DecidableEq, Repr

section Submit

/-- The comparators of the payloads in flight -/
def atvLt (a b : SharedATV) : Prop := a.atv.blockOfProof.height < b.atv.blockOfProof.height

def vtbLt (v w : VTB) : Prop := v.containingBlock.height < w.containingBlock.height

def vbkLt (b c : PowBlock) : Prop := b.height < c.height

instance : DecidableRel atvLt := fun a b => inferInstanceAs (Decidable (a.atv.blockOfProof.height < b.atv.blockOfProof.height))

instance : DecidableRel vtbLt := fun v w => inferInstanceAs (Decidable (v.containingBlock.height < w.containingBlock.height))

instance : DecidableRel vbkLt := fun b c => inferInstanceAs (Decidable (b.height < c.height))

/-- Change what is in flight. -/
def updateATVsInFlight (f : ValueSortedMap Nat SharedATV → Option (ValueSortedMap Nat SharedATV)) : P Unit := do
  let s ← get
  let inflight ← getOrStop (f s.pool.atvsInFlight) .valueSortedMap
  modifyPool fun m => { m with atvsInFlight := inflight }

def updateVTBsInFlight (f : ValueSortedMap Nat VTB → Option (ValueSortedMap Nat VTB)) : P Unit := do
  let s ← get
  let inflight ← getOrStop (f s.pool.vtbsInFlight) .valueSortedMap
  modifyPool fun m => { m with vtbsInFlight := inflight }

def updateVbkBlocksInFlight (f : ValueSortedMap Hash PowBlock → Option (ValueSortedMap Hash PowBlock)) : P Unit := do
  let s ← get
  let inflight ← getOrStop (f s.pool.vbkblocksInFlight) .valueSortedMap
  modifyPool fun m => { m with vbkblocksInFlight := inflight }

/-- `submit<ATV>` -/
def submitATV (a : SharedATV) (doIsBlockOldCheck : Bool) : P SubmitResult := do
  let s ← get
  if doIsBlockOldCheck && isBlockOld p s.trees a.atv.blockOfProof then
    pure (.failedStateless ["too-old"])
  else
    match p.checkATV a.atv with
    | .error path => pure (.failedStateless ("atv-stateless" :: path))
    | .ok () => do
      match ← acceptATV p a.atv with
      | .error path => do
        updateATVsInFlight (fun inflight => inflight.insert atvLt a.atv.getId a)
        pure (.failedStateful ("atv-stateful" :: path))
      | .ok () => do
        modifyPool (fun m => (m.getOrPutVbkRelation a.atv.blockOfProof).insertATV s.trees.alt a)
        -- `makePayloadConnected`
        modifyPool fun m => { m with storedAtvs := m.storedAtvs.assign a.atv.getId a }
        updateATVsInFlight (fun inflight => inflight.erase atvLt a.atv.getId)
        pure .valid

/-- `submit<VTB>` -/
def submitVTB (v : VTB) : P SubmitResult := do
  match p.checkVTB v with
  | .error path => pure (.failedStateless ("vtb-stateless" :: path))
  | .ok () => do
    match ← acceptVTB p v with
    | .error path => do
      updateVTBsInFlight (fun inflight => inflight.insert vtbLt v.getId v)
      pure (.failedStateful ("vtb-stateful" :: path))
    | .ok () => do
      modifyPool (fun m => (m.getOrPutVbkRelation v.containingBlock).pushVTB v)
      -- `makePayloadConnected`
      modifyPool fun m => { m with storedVtbs := m.storedVtbs.assign v.getId v }
      updateVTBsInFlight (fun inflight => inflight.erase vtbLt v.getId)
      pure .valid

/-- `submit<VbkBlock>` -/
def submitVbkBlock (b : PowBlock) (doIsBlockOldCheck : Bool) : P SubmitResult := do
  let s ← get
  if doIsBlockOldCheck && isBlockOld p s.trees b then
    pure (.failedStateless ["too-old"])
  else
    match p.checkBlock b with
    | .error path => pure (.failedStateless ("vbkblock-stateless" :: path))
    | .ok () => do
      match ← acceptVbkHeader b with
      | .error path => do
        updateVbkBlocksInFlight (fun inflight => inflight.insert vbkLt b.getHash b)
        pure (.failedStateful ("vbk-stateful" :: path))
      | .ok () => do
        when (s.trees.sp.vbk.getBlockIndex b.getHash).isNone (modifyPool (·.getOrPutVbkRelation b))
        updateVbkBlocksInFlight (fun inflight => inflight.erase vbkLt b.getHash)
        pure .valid

/-- `tryConnectPayloads`: the payloads in flight are submitted again, an ATV as a copy. -/
def tryConnectPayloads (alloc : Allocator) : P Unit := do
  let s ← get
  forEach (fun b => do
    let _ ← submitVbkBlock p b false) s.pool.vbkblocksInFlight.getSortedValues
  let s ← get
  forEach (fun v => do
    let _ ← submitVTB p v) s.pool.vtbsInFlight.getSortedValues
  let s ← get
  forEach (fun a => do
    let s ← get
    let _ ← submitATV p ⟨alloc.new s.pool.addresses, a.atv⟩ false) s.pool.atvsInFlight.getSortedValues

end Submit

section CleanUp

def VTB.isStale (trees : AltState) (v : VTB) : Bool := !(checkVTBContextually p trees v).isOk

def ATV.isStale (trees : AltState) (a : ATV) : Bool := !(checkATVContextually p trees a).isOk

def isVbkBlockStale (trees : AltState) (b : PowBlock) : Bool := !(checkVbkBlockContextually p trees b).isOk

/-- `tooOld` of `cleanUp`, for the header of a relation -/
def isTooOld (trees : AltState) (header : PowBlock) : Bool :=
  decide (vbkTipHeight trees - p.oldBlocksWindow > header.height)

/--
The loop over the ATVs of a relation that is too old. `atv` refers to the element that is erased, and the loop
goes on from it; only when the search misses the element it is still there to be read.
-/
def eraseOldATVs (id : Hash) : List SharedATV → P Unit
  | [] => pure ()
  | a :: as => do
    let s ← get
    let found := ((s.pool.relations.find? id).bind (fun rel => OrderedMultiset.find? (ComesBefore s.trees.alt) a rel.atvs)).isSome
    check (!found) .readsErased
    modifyPool fun m => { m with storedAtvs := m.storedAtvs.erase a.atv.getId }
    eraseOldATVs id as

/-- The loop over the relations in `cleanUp` -/
def cleanUpRelation (id : Hash) : P Unit := do
  let s ← get
  match s.pool.relations.find? id with
  | none => pure ()
  | some rel => do
    let tooOld := isTooOld p s.trees rel.header
    when tooOld (eraseOldATVs id rel.atvs)
    if tooOld && rel.vtbs.isEmpty then
      modifyPool fun m =>
        { m with vbkblocks := m.vbkblocks.erase rel.header.getHash, relations := m.relations.erase id }
    else do
      modifyPool (·.eraseVTBs id (VTB.isStale p s.trees))
      modifyPool (·.eraseATVs id (ATV.isStale p s.trees))
      when (s.trees.sp.vbk.getBlockIndex rel.header.getHash).isSome (modifyPool (·.eraseIfEmpty id))

def cleanUp : P Unit := do
  let s ← get
  forEach (cleanUpRelation p) s.pool.relations.keys
  -- remove payloads from the in-flight storage
  let s ← get
  forEach (fun e => when (VTB.isStale p s.trees e.2) (updateVTBsInFlight (·.eraseAt vtbLt e.1)))
    s.pool.vtbsInFlight.map.entries
  forEach (fun e => when (ATV.isStale p s.trees e.2.atv) (updateATVsInFlight (·.eraseAt atvLt e.1)))
    s.pool.atvsInFlight.map.entries
  forEach (fun e => when (isVbkBlockStale p s.trees e.2) (updateVbkBlocksInFlight (·.eraseAt vbkLt e.1)))
    s.pool.vbkblocksInFlight.map.entries
  modifyPool fun m =>
    { m with
      tempBtc := m.tempBtc.cleanUpStaleBlocks s.trees.sp.btc
      tempVbk := m.tempVbk.cleanUpStaleBlocks s.trees.sp.vbk }
  let s ← get
  check (decide (s.pool.relations.entries.length = s.pool.vbkblocks.entries.length)) .relationsSize

/-- The loop over the relations in `removeAll` -/
def removeFromRelation (pop : PopData) (id : Hash) : P Unit := do
  let s ← get
  match s.pool.relations.find? id with
  | none => pure ()
  | some rel => do
    modifyPool (·.eraseATVs id (fun a => decide (a.getId ∈ pop.atvs.map AltIntegration.ATV.getId)))
    modifyPool (·.eraseVTBs id (fun v => decide (v.getId ∈ pop.vtbs.map AltIntegration.VTB.getId)))
    when (decide (rel.header.getHash ∈ pop.context.map PowBlock.getHash)) (modifyPool (·.eraseIfEmpty id))

/-- The part of `removeAll` before it cleans up -/
def removeListed (pop : PopData) : P Unit := do
  let s ← get
  forEach (removeFromRelation pop) s.pool.relations.keys

def removeAll (alloc : Allocator) (pop : PopData) : P Unit := do
  removeListed pop
  cleanUp p
  tryConnectPayloads p alloc

end CleanUp

/-- The payloads for a new block, before they are checked -/
structure Candidates where
  context : List PowBlock
  vtbs : List VTB
  atvs : List ATV
  deriving DecidableEq, Repr

def Candidates.toPopData (c : Candidates) : PopData where
  context := c.context
  vtbs := c.vtbs.map VTB.toVTB
  atvs := c.atvs.map ATV.toATV

/-- The relations in the order of the heights of their blocks -/
def MemPool.blocks (m : MemPool) : List VbkPayloadsRelations :=
  m.relations.entries.foldl (fun l e => OrderedMultiset.insert (fun r s => r.header.height < s.header.height) e.2 l) []

/-- What `generatePopData` collects for the block -/
def MemPool.candidates (m : MemPool) : Candidates where
  context := m.blocks.map (·.header)
  vtbs := m.blocks.flatMap (·.vtbs)
  atvs := m.blocks.flatMap (fun rel => rel.atvs.map (·.atv))

/-- Try what was collected in a block on top of the ALT tip. -/
def filterCandidates : P PopData := do
  let s ← get
  onTrees (MemPoolBlockTree.filterInvalidPayloads p.cfg p.limits p.altTree s.pool.candidates.toPopData)

/-- The part of `generatePopData` before it cleans up -/
def selectPayloads (alloc : Allocator) : P PopData := do
  tryConnectPayloads p alloc
  filterCandidates p

def generatePopData (alloc : Allocator) : P PopData := do
  let ret ← selectPayloads p alloc
  cleanUp p
  pure ret

def clear : P Unit := modifyPool (fun _ => MemPool.empty)

namespace MemPool

variable (m : MemPool)

/-- `get<ATV>` -/
def getATV (id : Nat) : Option ATV := ((m.storedAtvs.find? id).or (m.atvsInFlight.find id)).map (·.atv)

/-- `get<VTB>` -/
def getVTB (id : Nat) : Option VTB := (m.storedVtbs.find? id).or (m.vtbsInFlight.find id)

/-- `get<VbkBlock>` -/
def getVbkBlock (id : Hash) : Option PowBlock := (m.vbkblocks.find? id).or (m.vbkblocksInFlight.find id)

/-- `isKnown` of a payload that `get` finds or not, under its id in the payload indices -/
def isKnown (found : Bool) (t : Tree AltAddon) (id : PayloadId) (onlyInMempool : Bool) : Bool :=
  if found then true
  else if onlyInMempool then false
  else
    t.finalizedPayloadsIndex.any (fun e => e.1 = id) ||
      t.payloadsIndex.any (fun e => decide (e.1 = id) && t.onActiveChain e.2)

end MemPool

/-- A call to the mempool, or a change of the trees by somebody else -/
inductive Op where
  | submitATV (a : SharedATV) (doIsBlockOldCheck : Bool)
  | submitVTB (v : VTB)
  | submitVbkBlock (b : PowBlock) (doIsBlockOldCheck : Bool)
  | removeAll (alloc : Allocator) (pop : PopData)
  | cleanUp
  | generatePopData (alloc : Allocator)
  | clear
  | changeTrees (trees : AltState)

def Op.exec : Op → P Unit
  | submitATV a old => do
    let _ ← Mempool.submitATV p a old
  | submitVTB v => do
    let _ ← Mempool.submitVTB p v
  | submitVbkBlock b old => do
    let _ ← Mempool.submitVbkBlock p b old
  | removeAll alloc pop => Mempool.removeAll p alloc pop
  | cleanUp => Mempool.cleanUp p
  | generatePopData alloc => do
    let _ ← Mempool.generatePopData p alloc
  | clear => Mempool.clear
  | changeTrees trees => modify fun s => { s with trees := trees }

/-- There is one object at an address: an ATV that is submitted at the address of one that is held is that one. -/
def Op.IsSound (s : State) : Op → Prop
  | submitATV a _ => ∀ id rel, s.pool.relations.find? id = some rel → ∀ b ∈ rel.atvs, b.addr = a.addr → b = a
  | _ => True

/-- The states of runs whose steps satisfy `C`, from an empty mempool on any trees -/
inductive Reachable (C : State → Op → Prop) : State → Prop where
  | start (trees : AltState) : Reachable C ⟨MemPool.empty, trees⟩
  | step {s s' : State} {op : Op} (hs : Reachable C s) (hop : op.IsSound s) (hC : C s op)
    (h : op.exec p s = .ok () s') : Reachable C s'

/-- The call has not stopped. -/
def isDone {ε σ α : Type} : EStateM.Result ε σ α → Bool
  | .ok _ _ => true
  | .error _ _ => false

theorem ok_of_isDone {ε σ : Type} {m : EStateM ε σ Unit} {s : σ} (h : isDone (m s) = true) : m s = .ok () (finalState m s) := by
  unfold finalState
  cases hm : m s with
  | ok a s' => rfl
  | error e s' =>
    rw [hm] at h
    cases h

/-- The state after some calls, each of which ends -/
def after (ops : List Op) (s : State) : State := ops.foldl (fun s op => finalState (op.exec p) s) s

namespace Small

def params : Params where
  cfg := AltIntegration.Small.config
  limits :=
    { maxVbkBlocksInAltBlock := 200
      maxVTBsInAltBlock := 200
      maxATVsInAltBlock := 1000
      maxPopDataSize := 5 * 1024 * 1024
      estimateSize := fun _ => 100 }
  oldBlocksWindow := 2
  altTree := altClass AltIntegration.Small.config
  checkATV _ := .ok ()
  checkVTB _ := .ok ()
  checkBlock _ := .ok ()

/-- The mempool of a node that has just been bootstrapped -/
def start : State := ⟨MemPool.empty, AltIntegration.Small.start⟩

def vbkBlock1 : PowBlock := AltIntegration.Small.powBlock AltIntegration.Small.vbkRoot.getHash 1 0

def vbkBlock2 : PowBlock := AltIntegration.Small.powBlock vbkBlock1.getHash 2 0

def vbkBlock3 : PowBlock := AltIntegration.Small.powBlock vbkBlock2.getHash 3 0

def vbkBlock4 : PowBlock := AltIntegration.Small.powBlock vbkBlock3.getHash 4 0

/-- An ATV that endorses a block and is published in the first VBK block after the bootstrap -/
def atv (endorsedHash nonce : Nat) : ATV where
  transaction := { fee := 10, endorsedHash := endorsedHash, contextInfo := none, nonce := nonce }
  proof := 0
  blockOfProof := vbkBlock1

/-- The mempool after an ATV has been connected -/
def connected : State := after params [.submitATV ⟨0, atv 5 0⟩ true] start

theorem submitATV_connected : (Op.submitATV ⟨0, atv 5 0⟩ true).exec params start = .ok () connected :=
  ok_of_isDone (by decide +kernel)

theorem isSound_start (a : SharedATV) (old : Bool) : (Op.submitATV a old).IsSound start := nofun

/-- The trees after the VBK chain has grown, so that the block of the ATV is too old -/
def grownTrees : AltState :=
  AltIntegration.Small.after [.vbkAcceptBlockHeader vbkBlock1, .vbkAcceptBlockHeader vbkBlock2, .vbkAcceptBlockHeader vbkBlock3,
    .vbkAcceptBlockHeader vbkBlock4]

def outdated : State := ⟨connected.pool, grownTrees⟩

end Small

end Mempool

end AltIntegration
