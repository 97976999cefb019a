import AltIntegration.Blockchain.Entities

/-!
This module contains the node of a block tree: the status word of `block_status.hpp`, taken apart
into the validity level and the flags, and `BlockIndex` of `block_index.hpp`.
-/

namespace AltIntegration

/-- The validity levels, from `BLOCK_VALID_UNKNOWN` to `BLOCK_CAN_BE_APPLIED`. -/
inductive BlockStateStatus where
  | validUnknown
  | validTree
  | connected
  | canBeAppliedMaybeWithOtherChain
  | canBeApplied
  deriving DecidableEq, Repr

namespace BlockStateStatus

def toNat : BlockStateStatus → Nat
  | validUnknown => 0
  | validTree => 1
  | connected => 2
  | canBeAppliedMaybeWithOtherChain => 3
  | canBeApplied => 4

instance : LE BlockStateStatus where
  le a b := a.toNat ≤ b.toNat

instance : LT BlockStateStatus where
  lt a b := a.toNat < b.toNat

instance (a b : BlockStateStatus) : Decidable (a ≤ b) := Nat.decLe a.toNat b.toNat

instance (a b : BlockStateStatus) : Decidable (a < b) := Nat.decLt a.toNat b.toNat

end BlockStateStatus

/-- The flags of `BlockValidityStatus`. -/
inductive BlockValidityStatus where
  | bootstrap
  | failedBlock
  | failedPop
  | failedChild
  | hasPayloads
  | active
  | deleted
  deriving DecidableEq, Repr

/-- `isValidInvalidationReason` -/
def isValidInvalidationReason (reason : BlockValidityStatus) : Bool :=
  reason = .failedBlock || reason = .failedPop

structure BlockStatus where
  level : BlockStateStatus := .validUnknown
  bootstrap : Bool := false
  failedBlock : Bool := false
  failedPop : Bool := false
  failedChild : Bool := false
  hasPayloads : Bool := false
  active : Bool := false
  deleted : Bool := false
  deriving DecidableEq, Repr

namespace BlockStatus

def hasFlags (s : BlockStatus) : BlockValidityStatus → Bool
  | .bootstrap => s.bootstrap
  | .failedBlock => s.failedBlock
  | .failedPop => s.failedPop
  | .failedChild => s.failedChild
  | .hasPayloads => s.hasPayloads
  | .active => s.active
  | .deleted => s.deleted

def assign (s : BlockStatus) (b : Bool) : BlockValidityStatus → BlockStatus
  | .bootstrap => { s with bootstrap := b }
  | .failedBlock => { s with failedBlock := b }
  | .failedPop => { s with failedPop := b }
  | .failedChild => { s with failedChild := b }
  | .hasPayloads => { s with hasPayloads := b }
  | .active => { s with active := b }
  | .deleted => { s with deleted := b }

/-- A flag of `BLOCK_FAILED_MASK` is set. -/
def isFailed (s : BlockStatus) : Bool :=
  s.failedBlock || s.failedPop || s.failedChild

end BlockStatus

/-- A node in a block tree, with the data `A` that its kind of tree adds to a block. -/
structure BlockIndex (A : Type) where
  header : Block
  pprev : Option Hash
  height : Nat
  status : BlockStatus
  finalized : Bool
  dirty : Bool
  addon : A
  deriving DecidableEq, Repr

/-- What a kind of tree fixes about the data it adds to a block. -/
class BlockAddon (A : Type) where
  /-- the data of a newly created block -/
  empty : A
  setNull : A → A
  validTipLevel : BlockStateStatus

namespace BlockIndex

variable {A : Type}

def hasFlags (b : BlockIndex A) (s : BlockValidityStatus) : Bool := b.status.hasFlags s

def isDeleted (b : BlockIndex A) : Bool := b.hasFlags .deleted

def isRoot (b : BlockIndex A) : Bool := b.pprev.isNone

def isFailed (b : BlockIndex A) : Bool := b.status.isFailed

def isValidUpTo (b : BlockIndex A) (upTo : BlockStateStatus) : Bool := decide (upTo ≤ b.status.level)

def isValid (b : BlockIndex A) (upTo : BlockStateStatus := .validTree) : Bool :=
  !b.isFailed && b.isValidUpTo upTo

def isConnected (b : BlockIndex A) : Bool := b.isValidUpTo .connected

/-- `setStatus`: the block becomes dirty when its status changes. -/
def setStatus (b : BlockIndex A) (status : BlockStatus) : BlockIndex A :=
  if status = b.status then b else { b with status := status, dirty := true }

def setFlag (b : BlockIndex A) (s : BlockValidityStatus) : BlockIndex A :=
  b.setStatus (b.status.assign true s)

def unsetFlag (b : BlockIndex A) (s : BlockValidityStatus) : BlockIndex A :=
  b.setStatus (b.status.assign false s)

/-- The validity level is written without a mark in `dirty`. -/
def setLevel (b : BlockIndex A) (level : BlockStateStatus) : BlockIndex A :=
  { b with status := { b.status with level := level } }

/-- `lowerValidity` without its return value, see `canLowerValidity`. -/
def canLowerValidity (b : BlockIndex A) (upTo : BlockStateStatus) : Bool :=
  !b.hasFlags .failedPop && decide (upTo < b.status.level)

def setAddon (b : BlockIndex A) (a : A) : BlockIndex A :=
  { b with addon := a, dirty := true }

variable [BlockAddon A]

/-- `deleteTemporarily` without its assertion: only the `FAILED` flags survive. -/
def deleteTemporarily (b : BlockIndex A) : BlockIndex A :=
  { b with
    addon := BlockAddon.setNull b.addon
    status :=
      { failedBlock := b.status.failedBlock
        failedPop := b.status.failedPop
        failedChild := b.status.failedChild
        deleted := true }
    dirty := true }

def canBeATip (b : BlockIndex A) : Bool :=
  !b.isDeleted && b.isValid (BlockAddon.validTipLevel A)

end BlockIndex

end AltIntegration
