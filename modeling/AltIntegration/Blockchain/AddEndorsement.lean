import AltIntegration.Blockchain.Addons

/-!
This module contains the command `AddEndorsement` of `addendorsement.hpp`.
-/

namespace AltIntegration

open Program

namespace AddEndorsement

variable {σ A B : Type} [PopAddon A] [PowAddon B] (ed : Lens σ (Tree A)) (ing : Lens σ (Tree B))

/-- The checks of `AddEndorsement::Execute` -/
def isExecutable (endorsementSettlementInterval : Nat) (e : Endorsement) (t : Tree A) (u : Tree B) :
    Bool :=
  match t.getBlockIndex e.containingHash, t.getBlockIndex e.endorsedHash with
  | some containing, some endorsed =>
    t.getAncestor e.containingHash endorsed.height = some e.endorsedHash &&
      decide (containing.height - endorsed.height ≤ endorsementSettlementInterval) &&
      (u.getBlockIndex e.blockOfProof).isSome
  | _, _ => false

/-- `AddEndorsement::Execute` -/
def execute (endorsementSettlementInterval : Nat) (e : Endorsement) : M σ Bool := do
  let s ← get
  if isExecutable endorsementSettlementInterval e (ed.get s) (ing.get s) then do
    zoom ed (modify fun t =>
      (t.updatePopState e.containingHash (·.insertContainingEndorsement e)).updatePopState
        e.endorsedHash (·.insertEndorsedBy e))
    zoom ing (modify fun u => u.updateBlockOfProof e.blockOfProof (· ++ [e]))
    pure true
  else
    pure false

/-- `AddEndorsement::UnExecute` -/
def unExecute (e : Endorsement) : M σ Unit := do
  let s ← get
  let containing ← getOrStop ((ed.get s).getBlockIndex e.containingHash) .undoNoContaining
  let endorsed ← getOrStop ((ed.get s).getBlockIndex e.endorsedHash) .undoNoEndorsed
  let blockOfProof ← getOrStop ((ing.get s).getBlockIndex e.blockOfProof) .undoNoBlockOfProof
  -- the endorsement that is found, not `e`, is the one that goes
  let stored ← getOrStop ((PopAddon.popState containing.addon).findContainingEndorsement e.id)
    .undoNoEndorsement
  check (decide (stored ∈ (PopAddon.popState endorsed.addon).endorsedBy)) .undoNotEndorsedBy
  check (decide (stored ∈ PowAddon.blockOfProofEndorsements blockOfProof.addon)) .undoNotInBlockOfProof
  zoom ed (modify fun t => t.updatePopState e.endorsedHash (·.eraseFromEndorsedBy stored))
  zoom ing (modify fun u => u.updateBlockOfProof e.blockOfProof (·.erase stored))
  zoom ed (modify fun t => t.updatePopState e.containingHash (·.removeContainingEndorsement stored))

end AddEndorsement

end AltIntegration
