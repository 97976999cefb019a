import AltIntegration.Blockchain.BlockTree

/-!
This module contains the data that the BTC, the VBK and the ALT tree add to a block, and the storage
of the payloads behind the ids that the blocks keep.

The source keeps the endorsements by address. Here they are values: of the equal endorsements in a
list the one that was inserted first is the one that `AddEndorsement` finds and removes.
-/

namespace AltIntegration

/-- `PopState` of `pop_state.hpp` -/
structure PopState where
  /-- a multimap: sorted by id, equal ids in the order of insertion -/
  containingEndorsements : List Endorsement := []
  endorsedBy : List Endorsement := []
  deriving DecidableEq, Repr

namespace PopState

def insertContainingEndorsement (s : PopState) (e : Endorsement) : PopState :=
  { s with
    containingEndorsements :=
      s.containingEndorsements.takeWhile (fun x => decide (x.id ≤ e.id)) ++
        e :: s.containingEndorsements.dropWhile (fun x => decide (x.id ≤ e.id)) }

/-- `lower_bound` of the multimap -/
def findContainingEndorsement (s : PopState) (id : Nat) : Option Endorsement :=
  s.containingEndorsements.find? (fun x => decide (id ≤ x.id))

def removeContainingEndorsement (s : PopState) (e : Endorsement) : PopState :=
  { s with containingEndorsements := s.containingEndorsements.erase e }

def insertEndorsedBy (s : PopState) (e : Endorsement) : PopState :=
  { s with endorsedBy := s.endorsedBy ++ [e] }

def eraseFromEndorsedBy (s : PopState) (e : Endorsement) : PopState :=
  { s with endorsedBy := s.endorsedBy.erase e }

end PopState

/-- The data that a tree with endorsed blocks adds to a block. -/
class PopAddon (A : Type) where
  popState : A → PopState
  setPopState : PopState → A → A
  hasPayloads : A → Bool

/-- `BtcBlockAddon` -/
structure BtcAddon where
  chainWork : Nat := 0
  refs : List Nat := []
  blockOfProofEndorsements : List Endorsement := []
  deriving DecidableEq, Repr

instance : PowAddon BtcAddon where
  empty := {}
  setNull a := { a with refs := [], chainWork := 0 }
  validTipLevel := .validTree
  chainWork := (·.chainWork)
  setChainWork w a := { a with chainWork := w }
  refCount a := a.refs.length
  addRef h a := { a with refs := a.refs ++ [h] }
  removeRef h a := if h ∈ a.refs then some { a with refs := a.refs.erase h } else none
  blockOfProofEndorsements := (·.blockOfProofEndorsements)
  setBlockOfProofEndorsements l a := { a with blockOfProofEndorsements := l }
  canBeRemoved a := a.blockOfProofEndorsements.isEmpty

/-- `VbkBlockAddon` -/
structure VbkAddon where
  chainWork : Nat := 0
  refCount : Nat := 0
  vtbids : List Nat := []
  blockOfProofEndorsements : List Endorsement := []
  popState : PopState := {}
  deriving DecidableEq, Repr

instance : PowAddon VbkAddon where
  empty := {}
  setNull a := { blockOfProofEndorsements := a.blockOfProofEndorsements }
  validTipLevel := .validTree
  chainWork := (·.chainWork)
  setChainWork w a := { a with chainWork := w }
  refCount := (·.refCount)
  addRef _ a := { a with refCount := a.refCount + 1 }
  removeRef _ a := if 0 < a.refCount then some { a with refCount := a.refCount - 1 } else none
  blockOfProofEndorsements := (·.blockOfProofEndorsements)
  setBlockOfProofEndorsements l a := { a with blockOfProofEndorsements := l }
  canBeRemoved a := a.blockOfProofEndorsements.isEmpty && a.popState.endorsedBy.isEmpty

instance : PopAddon VbkAddon where
  popState := (·.popState)
  setPopState s a := { a with popState := s }
  hasPayloads a := !a.vtbids.isEmpty

/-- `AltBlockAddon` -/
structure AltAddon where
  vbkblockids : List Hash := []
  vtbids : List Nat := []
  atvids : List Nat := []
  popState : PopState := {}
  deriving DecidableEq, Repr

namespace AltAddon

/-- The keys of the payloads of a block in a payload index. -/
def payloadIds (a : AltAddon) : List PayloadId :=
  a.vbkblockids.map .vbk ++ a.vtbids.map .vtb ++ a.atvids.map .atv

def clearPayloads (a : AltAddon) : AltAddon := { popState := a.popState }

end AltAddon

instance : BlockAddon AltAddon where
  empty := {}
  setNull _ := {}
  validTipLevel := .connected

instance : PopAddon AltAddon where
  popState := (·.popState)
  setPopState s a := { a with popState := s }
  hasPayloads a := !a.atvids.isEmpty || !a.vtbids.isEmpty || !a.vbkblockids.isEmpty

namespace Tree

variable {A : Type}

def updatePopState [PopAddon A] (t : Tree A) (h : Hash) (f : PopState → PopState) : Tree A :=
  t.update h (fun b => b.setAddon (PopAddon.setPopState (f (PopAddon.popState b.addon)) b.addon))

def updateBlockOfProof [PowAddon A] (t : Tree A) (h : Hash)
    (f : List Endorsement → List Endorsement) : Tree A :=
  t.updateAddon h fun a =>
    PowAddon.setBlockOfProofEndorsements (f (PowAddon.blockOfProofEndorsements a)) a

/-- `PayloadsIndex::add` -/
def addToPayloadsIndex (t : Tree A) (id : PayloadId) (h : Hash) : Tree A :=
  if (id, h) ∈ t.payloadsIndex then
    t
  else
    { t with payloadsIndex := (id, h) :: t.payloadsIndex }

/-- `PayloadsIndex::remove` -/
def removeFromPayloadsIndex (t : Tree A) (id : PayloadId) (h : Hash) : Tree A :=
  { t with payloadsIndex := t.payloadsIndex.filter (· ≠ (id, h)) }

end Tree

/-- `PayloadsStorage`, with the one implementation in the source, `PayloadsStorageImpl` -/
structure PayloadsStorage where
  vbks : Store Hash PowBlock
  vtbs : Store Nat VTB
  atvs : Store Nat ATV
  /-- the ids whose payload was replaced by a different one, a history variable -/
  overwritten : List PayloadId
  deriving DecidableEq

namespace PayloadsStorage

def empty : PayloadsStorage where
  vbks := Store.empty
  vtbs := Store.empty
  atvs := Store.empty
  overwritten := []

/-- Put a payload under its id, and note when that replaces another one. -/
def put {α : Type} [DecidableEq α] (m : Store Nat α) (id : Nat) (key : PayloadId) (a : α)
    (log : List PayloadId) : Store Nat α × List PayloadId :=
  match m.find? id with
  | some a' => if a' = a then (m, log) else (m.insert id a, key :: log)
  | none => (m.insert id a, log)

def writeVbk (s : PayloadsStorage) (b : PowBlock) : PayloadsStorage :=
  let (vbks, log) := put s.vbks b.getHash (.vbk b.getHash) b s.overwritten
  { s with vbks := vbks, overwritten := log }

/-- A VTB comes with the block that contains it. -/
def writeVTB (s : PayloadsStorage) (v : VTB) : PayloadsStorage :=
  let s := s.writeVbk v.containingBlock
  let (vtbs, log) := put s.vtbs v.getId (.vtb v.getId) v s.overwritten
  { s with vtbs := vtbs, overwritten := log }

/-- An ATV comes with its block of proof. -/
def writeATV (s : PayloadsStorage) (a : ATV) : PayloadsStorage :=
  let s := s.writeVbk a.blockOfProof
  let (atvs, log) := put s.atvs a.getId (.atv a.getId) a s.overwritten
  { s with atvs := atvs, overwritten := log }

/-- `writePayloads` -/
def writePayloads (s : PayloadsStorage) (p : PopData) : PayloadsStorage :=
  p.context.foldl writeVbk (p.vtbs.foldl writeVTB (p.atvs.foldl writeATV s))

end PayloadsStorage

end AltIntegration
