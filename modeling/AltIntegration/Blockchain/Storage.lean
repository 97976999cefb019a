import AltIntegration.Blockchain.MemPoolBlockTree
import AltIntegration.Blockchain.Runs

/-!
This module contains what is written to the disk of a tree: `StoredBlockIndex` of
`stored_block_index.hpp` and `saveTrees` of `storage/util.cpp`.

The blocks are written in an order that depends on their heights; they have different keys, so the
order does not show on the disk.
-/

namespace AltIntegration

open Program

structure StoredBlockIndex (S : Type) where
  height : Nat
  header : Block
  status : BlockStatus
  addon : S
  deriving DecidableEq, Repr

/-- What a kind of tree writes of the data it adds to a block. -/
class StoredAddon (A : Type) (S : outParam Type) where
  toStored : A → S
  /-- `validateBlockIndex` -/
  validate : A → Bool

structure StoredBtcBlockAddon where
  refs : List Nat
  blockOfProofEndorsementIds : List Nat
  deriving DecidableEq, Repr

instance : StoredAddon BtcAddon StoredBtcBlockAddon where
  toStored a :=
    { refs := a.refs, blockOfProofEndorsementIds := a.blockOfProofEndorsements.map (·.id) }
  validate _ := true

structure StoredVbkBlockAddon where
  refCount : Nat
  vtbids : List Nat
  blockOfProofEndorsementIds : List Nat
  endorsedByIds : List Nat
  containingEndorsements : List Endorsement
  deriving DecidableEq, Repr

instance : StoredAddon VbkAddon StoredVbkBlockAddon where
  toStored a :=
    { refCount := a.refCount
      vtbids := a.vtbids
      blockOfProofEndorsementIds := a.blockOfProofEndorsements.map (·.id)
      endorsedByIds := a.popState.endorsedBy.map (·.id)
      containingEndorsements := a.popState.containingEndorsements }
  validate a := decide a.vtbids.Nodup

structure StoredAltBlockAddon where
  atvids : List Nat
  vtbids : List Nat
  vbkblockids : List Hash
  endorsedByIds : List Nat
  containingEndorsements : List Endorsement
  deriving DecidableEq, Repr

instance : StoredAddon AltAddon StoredAltBlockAddon where
  toStored a :=
    { atvids := a.atvids
      vtbids := a.vtbids
      vbkblockids := a.vbkblockids
      endorsedByIds := a.popState.endorsedBy.map (·.id)
      containingEndorsements := a.popState.containingEndorsements }
  validate _ := true

section Save

variable {A S : Type} [StoredAddon A S]

/-- `toStoredBlockIndex` -/
def BlockIndex.toStoredBlockIndex (b : BlockIndex A) : StoredBlockIndex S where
  height := b.height
  header := b.header
  status := b.status
  addon := StoredAddon.toStored b.addon

def BlockIndex.unsetDirty (b : BlockIndex A) : BlockIndex A := { b with dirty := false }

/-- `unsetDirty` of all blocks -/
def Tree.unsetDirty (t : Tree A) : Tree A := { t with blocks := t.blocks.map (·.unsetDirty) }

/-- What is on the disk of one tree. -/
structure Disk (S : Type) where
  blocks : Store Hash (StoredBlockIndex S)
  tip : Option Hash
  deriving DecidableEq

def Disk.empty : Disk S := ⟨Store.empty, none⟩

/-- `writeBlock` of the dirty blocks -/
def Disk.writeDirty (d : Disk S) (t : Tree A) : Disk S where
  blocks := (t.blocks.entries.filter (fun e => e.2.dirty)).foldl
    (fun m e => m.insert e.1 e.2.toStoredBlockIndex) d.blocks
  tip := some t.activeTip

/-- `writeBlock` of all blocks -/
def Disk.writeAll (d : Disk S) (t : Tree A) : Disk S where
  blocks := t.blocks.entries.foldl (fun m e => m.insert e.1 e.2.toStoredBlockIndex) d.blocks
  tip := some t.activeTip

/-- `saveTree` -/
def saveTree : M (Tree A × Disk S) Unit := do
  let s ← get
  check (s.1.blocks.entries.all (fun e => !e.2.dirty || StoredAddon.validate e.2.addon)) .duplicateVtbIds
  set (s.1.unsetDirty, s.2.writeDirty s.1)

end Save

/-- The trees and what is on the disk of them. -/
structure SavedState where
  trees : AltState
  btc : Disk StoredBtcBlockAddon
  vbk : Disk StoredVbkBlockAddon
  alt : Disk StoredAltBlockAddon
  deriving DecidableEq

namespace SavedState

def altState : Lens SavedState AltState where
  get := (·.trees)
  set t s := { s with trees := t }
  get_set _ _ := rfl
  set_get _ := rfl
  set_set _ _ _ := rfl

def savedBtc : Lens SavedState (Tree BtcAddon × Disk StoredBtcBlockAddon) where
  get s := (s.trees.sp.btc, s.btc)
  set p s := { s with trees := { s.trees with sp := { s.trees.sp with btc := p.1 } }, btc := p.2 }
  get_set _ _ := rfl
  set_get _ := rfl
  set_set _ _ _ := rfl

def savedVbk : Lens SavedState (Tree VbkAddon × Disk StoredVbkBlockAddon) where
  get s := (s.trees.sp.vbk, s.vbk)
  set p s := { s with trees := { s.trees with sp := { s.trees.sp with vbk := p.1 } }, vbk := p.2 }
  get_set _ _ := rfl
  set_get _ := rfl
  set_set _ _ _ := rfl

def savedAlt : Lens SavedState (Tree AltAddon × Disk StoredAltBlockAddon) where
  get s := (s.trees.alt, s.alt)
  set p s := { s with trees := { s.trees with alt := p.1 }, alt := p.2 }
  get_set _ _ := rfl
  set_get _ := rfl
  set_set _ _ _ := rfl

end SavedState

/-- `saveTrees` -/
def saveTrees : M SavedState Unit := do
  zoom SavedState.savedBtc saveTree
  zoom SavedState.savedVbk saveTree
  zoom SavedState.savedAlt saveTree

/-- A call to the trees or to the mempool, or to save the trees. -/
inductive SavedOp where
  | call (op : Op)
  | generatePopData (limits : PopDataLimits) (pop : PopData)
  | saveTrees

namespace SavedOp

variable (cfg : Config)

def exec : SavedOp → M SavedState Unit
  | call op => zoom SavedState.altState (op.exec cfg)
  | generatePopData limits pop => do
    let _ ← zoom SavedState.altState (MemPoolBlockTree.filterInvalidPayloads cfg limits (altClass cfg) pop)
  | saveTrees => AltIntegration.saveTrees

def run (ops : List SavedOp) : M SavedState Unit := forEach (exec cfg) ops

end SavedOp

namespace Small

/-- The state after a run from the start, with nothing on the disk. -/
def savedAfter (ops : List SavedOp) : SavedState :=
  finalState (SavedOp.run config ops) { trees := start, btc := Disk.empty, vbk := Disk.empty, alt := Disk.empty }

end Small

end AltIntegration
