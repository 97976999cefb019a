import Mathlib.Algebra.GroupWithZero.Nat
import AltIntegration.Blockchain.AltBlockTree
import AltIntegration.Blockchain.Finalization

/-!
This module contains `BlockPayloadMutator` of `alt_block_tree.cpp` and `filterInvalidPayloads` of
`mempool_block_tree.cpp`: the payloads of a block template are tried one by one on a temporary block on top
of the tip, and the block is taken away again.

Of `MemPool::generatePopData` this is the part that touches the trees; what else it does is to collect the
payloads and to clean up the mempool. The sizes of the payloads are parameters, since they depend on data
that no tree reads.
-/

namespace AltIntegration

open Program

inductive Payload where
  | vbk (block : PowBlock)
  | vtb (v : VTB)
  | atv (a : ATV)
  deriving DecidableEq, Repr

def Payload.getId : Payload → PayloadId
  | vbk b => .vbk b.getHash
  | vtb v => .vtb v.getId
  | atv a => .atv a.getId

/-- The limits on the body of a block in `AltChainParams`, and `estimateSize` of the payloads. -/
structure PopDataLimits where
  maxVbkBlocksInAltBlock : Nat
  maxVTBsInAltBlock : Nat
  maxATVsInAltBlock : Nat
  maxPopDataSize : Nat
  estimateSize : Payload → Nat

/-- `singleBEValueSize`: a length byte and the bytes of the value, at least one -/
def singleBEValueSize (value : Nat) : Nat := 1 + (Nat.log2 value + 8) / 8

/-- `CountingContext` -/
structure CountingContext where
  atvs : Nat := 0
  vtbs : Nat := 0
  vbks : Nat := 0
  atvsSize : Nat := 0
  vtbsSize : Nat := 0
  vbksSize : Nat := 0
  deriving DecidableEq, Repr

namespace CountingContext

variable (limits : PopDataLimits) (c : CountingContext)

def canFitSize (size : Nat) : Bool :=
  decide (4 + singleBEValueSize c.atvs + c.atvsSize + singleBEValueSize c.vtbs + c.vtbsSize +
    singleBEValueSize c.vbks + c.vbksSize + size ≤ limits.maxPopDataSize)

def canFit (p : Payload) : Bool :=
  match p with
  | .atv _ => decide (c.atvs < limits.maxATVsInAltBlock) && c.canFitSize limits (limits.estimateSize p)
  | .vtb _ => decide (c.vtbs < limits.maxVTBsInAltBlock) && c.canFitSize limits (limits.estimateSize p)
  | .vbk _ => decide (c.vbks < limits.maxVbkBlocksInAltBlock) && c.canFitSize limits (limits.estimateSize p)

def update (p : Payload) : CountingContext :=
  match p with
  | .atv _ => { c with atvs := c.atvs + 1, atvsSize := c.atvsSize + limits.estimateSize p }
  | .vtb _ => { c with vtbs := c.vtbs + 1, vtbsSize := c.vtbsSize + limits.estimateSize p }
  | .vbk _ => { c with vbks := c.vbks + 1, vbksSize := c.vbksSize + limits.estimateSize p }

end CountingContext

namespace PopData

variable (limits : PopDataLimits) (p : PopData)

def isEmpty : Bool := p.context.isEmpty && p.vtbs.isEmpty && p.atvs.isEmpty

/-- `estimateArraySizeOf` -/
def estimateArraySizeOf (payloads : List Payload) : Nat :=
  singleBEValueSize payloads.length + (payloads.map limits.estimateSize).sum

def estimateSize : Nat :=
  4 + estimateArraySizeOf limits (p.context.map .vbk) + estimateArraySizeOf limits (p.vtbs.map .vtb) +
    estimateArraySizeOf limits (p.atvs.map .atv)

/-- `assertPopDataFits` -/
def fits : Bool :=
  decide (p.context.length ≤ limits.maxVbkBlocksInAltBlock) && decide (p.vtbs.length ≤ limits.maxVTBsInAltBlock) &&
    decide (p.atvs.length ≤ limits.maxATVsInAltBlock) && decide (p.estimateSize limits ≤ limits.maxPopDataSize)

end PopData

namespace AltAddon

/-- `insertPayloadIds` of one id -/
def insertPayloadId (a : AltAddon) : PayloadId → AltAddon
  | .vbk h => { a with vbkblockids := a.vbkblockids ++ [h] }
  | .vtb id => { a with vtbids := a.vtbids ++ [id] }
  | .atv id => { a with atvids := a.atvids ++ [id] }

/-- `removePayloadId` -/
def removePayloadId (a : AltAddon) : PayloadId → AltAddon
  | .vbk h => { a with vbkblockids := a.vbkblockids.erase h }
  | .vtb id => { a with vtbids := a.vtbids.erase id }
  | .atv id => { a with atvids := a.atvids.erase id }

end AltAddon

/-- What a mutator and the counter know of the payloads so far. -/
structure MutatorState where
  ids : List PayloadId
  counter : CountingContext
  deriving DecidableEq, Repr

variable (cfg : Config)

namespace BlockPayloadMutator

/-- `makeConnectedLeafPayloadMutator` -/
def create (h : Hash) : M AltState MutatorState := do
  let index ← zoom AltState.altTree (derefBlock h)
  check (!index.isRoot) .payloadsOfRoot
  check (index.isValidUpTo .validTree) .payloadsOfInvalidBlock
  check index.isConnected .notConnected
  let s ← get
  check (!s.alt.anyNext h (·.isConnected)) .connectConnectedDescendant
  pure { ids := index.addon.payloadIds, counter := {} }

/-- `AltCommandGroupStore::getCommand` -/
def getCommand (h : Hash) (id : PayloadId) : M AltState (List AltCommand) := do
  let s ← get
  match id with
  | .vbk hash => do
    let b ← getOrStop (s.sp.storage.vbks.find? hash) .stateCorrupted
    pure [.addVbkBlock b]
  | .vtb vid => do
    let v ← getOrStop (s.sp.storage.vtbs.find? vid) .stateCorrupted
    pure [.addVTB v]
  | .atv aid => do
    let a ← getOrStop (s.sp.storage.atvs.find? aid) .stateCorrupted
    pure (a.commands h)

/-- Put the id into the block and into the index. -/
def insertId (h : Hash) (id : PayloadId) (t : Tree AltAddon) : Tree AltAddon :=
  (t.update h (fun b => b.setAddon (b.addon.insertPayloadId id))).addToPayloadsIndex id h

def removeId (h : Hash) (id : PayloadId) (t : Tree AltAddon) : Tree AltAddon :=
  (t.update h (fun b => b.setAddon (b.addon.removePayloadId id))).removeFromPayloadsIndex id h

/-- `add`: a payload that fails is taken out of the block, but stays known to the mutator. -/
def add (h : Hash) (m : MutatorState) (p : Payload) : M AltState (Bool × MutatorState) := do
  check (!m.ids.contains p.getId) .payloadsDuplicate
  let index ← zoom AltState.altTree (derefBlock h)
  let prev ← getOrStop index.pprev .payloadsOfRoot
  let s ← get
  if AltBlockTree.isStatefulDuplicate s.alt prev p.getId then
    pure (false, m)
  else do
    zoom AltState.altTree (modify (insertId h p.getId))
    let m := { m with ids := p.getId :: m.ids }
    if !index.hasFlags .active then
      pure (true, m)
    else do
      let cmds ← getCommand h p.getId
      if ← (AltBlockTree.stateMachine cfg).executeGroup cmds then
        pure (true, m)
      else do
        zoom AltState.altTree (modify (removeId h p.getId))
        pure (false, m)

end BlockPayloadMutator

namespace MemPoolBlockTree

variable (limits : PopDataLimits)

/-- Try one payload, and tell whether it stays. -/
def applyPayload (h : Hash) (m : MutatorState) (p : Payload) : M AltState (Bool × MutatorState) :=
  if !m.counter.canFit limits p then
    pure (false, m)
  else if m.ids.contains p.getId then
    pure (false, m)
  else do
    let r ← BlockPayloadMutator.add cfg h m p
    if r.1 then
      pure (true, { r.2 with counter := r.2.counter.update limits p })
    else
      pure r

/-- `applyPayloadsOrRemoveIfInvalid` -/
def applyPayloadsOrRemoveIfInvalid {α : Type} (payload : α → Payload) (h : Hash) :
    List α → MutatorState → M AltState (List α × MutatorState)
  | [], m => pure ([], m)
  | a :: as, m => do
    let r ← applyPayload cfg limits h m (payload a)
    let rest ← applyPayloadsOrRemoveIfInvalid payload h as r.2
    pure (if r.1 then a :: rest.1 else rest.1, rest.2)

/-- The hash of the temporary block: 32 bytes of 2 -/
def tmpHash : Hash := 2 * ((Nat.pow 256 32 - 1) / 255)

/-- The temporary block -/
def tmpBlock (t : Tree AltAddon) : Block where
  hash := tmpHash
  previousBlock := t.activeTip
  height := t.heightOf t.activeTip + 1
  timestamp := (t.find? t.activeTip).elim 0 (fun b => b.header.timestamp) + 1
  difficulty := 0

/-- The temporary block is deleted already, it only has to go. -/
def deallocateTmp : M (Tree AltAddon) Unit := do
  let index ← derefBlock tmpHash
  modify fun t => t.disconnectFromPrev tmpHash
  check index.isDeleted .notDeleted
  let t ← get
  check (t.pnext tmpHash).isEmpty .notALeaf
  modify fun t => { t with blocks := t.blocks.erase tmpHash }

/-- Try the payloads on the temporary block, which is active. -/
def tryPayloads (pop : PopData) : M AltState PopData := do
  let m ← BlockPayloadMutator.create tmpHash
  let context ← applyPayloadsOrRemoveIfInvalid cfg limits .vbk tmpHash pop.context m
  let vtbs ← applyPayloadsOrRemoveIfInvalid cfg limits .vtb tmpHash pop.vtbs context.2
  let atvs ← applyPayloadsOrRemoveIfInvalid cfg limits .atv tmpHash pop.atvs vtbs.2
  let valid := { context := context.1, vtbs := vtbs.1, atvs := atvs.1 }
  check (PopData.fits limits valid) .popDataDoesNotFit
  pure valid

/-- `filterInvalidPayloads`, in the ALT tree `c` -/
def filterInvalidPayloads (c : TreeClass AltState AltAddon) (pop : PopData) : M AltState PopData :=
  if pop.isEmpty then
    pure pop
  else do
    zoom AltState.spState (deferForkResolution (vbkClass cfg))
    let s ← get
    let ret ← AltBlockTree.acceptBlockHeader (tmpBlock s.alt)
    check ret .tmpBlockRejected
    modify fun s => { s with sp := { s.sp with storage := s.sp.storage.writePayloads pop } }
    AltBlockTree.acceptBlock cfg tmpHash { context := [], vtbs := [], atvs := [] }
    let success ← c.setState tmpHash
    check success .setStateMustSucceed
    let valid ← tryPayloads cfg limits pop
    removeSubtree c tmpHash
    zoom AltState.altTree deallocateTmp
    zoom AltState.spState (overrideDeferredForkResolution (vbkClass cfg) s.sp.vbk.activeTip)
    zoom AltState.spState (continueForkResolution (vbkClass cfg))
    pure valid

end MemPoolBlockTree

end AltIntegration
