import AltIntegration.Blockchain.System

/-!
This module contains runs of several calls, and a small system on which concrete runs are followed: its
proof-of-work trees check nothing, and the work of a block is its difficulty.
-/

namespace AltIntegration

open Program

/-- Several calls, one after the other. -/
def Op.run (cfg : Config) (ops : List Op) : M AltState Unit := forEach (Op.exec cfg) ops

theorem Reachable.run {cfg : Config} {ops : List Op} {s s' : AltState} (hs : Reachable cfg s)
    (h : Op.run cfg ops s = .ok () s') : Reachable cfg s' := by
  induction ops generalizing s with
  | nil =>
    cases h
    exact hs
  | cons op ops ih =>
    simp only [Op.run, forEach, bind, EStateM.bind] at h
    split at h
    . next s1 h1 => exact ih (hs.step h1) h
    . cases h

/-- The assertion a run stopped in. -/
def stoppedIn {σ α : Type} : EStateM.Result Assertion σ α → Option Assertion
  | .ok _ _ => none
  | .error e _ => some e

/-- What a run that did not stop has returned. -/
def returned {σ α : Type} : EStateM.Result Assertion σ α → Option α
  | .ok a _ => some a
  | .error _ _ => none

theorem ok_of_returned {σ α : Type} {r : EStateM.Result Assertion σ α} {a : α} (h : returned r = some a) :
    ∃ s, r = .ok a s := by
  cases r with
  | ok a' s =>
    cases h
    exact ⟨s, rfl⟩
  | error e s => cases h

theorem error_of_stoppedIn {σ α : Type} {r : EStateM.Result Assertion σ α} {e : Assertion}
    (h : stoppedIn r = some e) : ∃ s, r = .error e s := by
  cases r with
  | ok a s => cases h
  | error e' s =>
    cases h
    exact ⟨s, rfl⟩

theorem ok_finalState {σ α : Type} {m : M σ α} {s : σ} {a : α} (h : returned (m s) = some a) : m s = .ok a (finalState m s) := by
  unfold finalState
  cases hrun : m s with
  | ok a' s' =>
    rw [hrun] at h
    cases h
    rfl
  | error e s' =>
    rw [hrun] at h
    cases h

namespace Small

def params : BlockTreeParams where
  checkBlock _ := true
  contextuallyCheckBlock _ _ := some true
  getBlockProof b := b.difficulty

def popParams : PopParams where
  keystoneInterval := 5
  finalityDelay := 11
  endorsementSettlementInterval := 50
  forkResolutionLookUpTable := [100, 100, 95, 89, 80, 69, 56, 40, 21]
  enableTimeAdjustment := true

def config : Config where
  btc := params
  vbk := params
  vbkPop := popParams
  vbkMaxReorgBlocks := 1000
  altPop := popParams
  altBootstrapHeight := 0
  btcTipsOrder _ tips := tips
  vbkTipsOrder _ tips := tips
  altTipsOrder _ tips := tips

def altBlock (hash previousBlock height : Nat) : Block where
  hash := hash
  previousBlock := previousBlock
  height := height
  timestamp := height
  difficulty := 1

def powBlock (previousBlock height nonce : Nat) : PowBlock where
  previousBlock := previousBlock
  height := height
  timestamp := height
  difficulty := 1
  nonce := nonce

def vbkRoot : PowBlock := powBlock 0 0 0

def btcRoot : PowBlock := powBlock 0 0 1

def bootstrap : Bootstrap where
  alt := altBlock 1 0 0
  vbkHeight := 0
  vbk := vbkRoot
  vbkChain := []
  btcHeight := 0
  btc := btcRoot
  btcChain := []

def start : AltState := bootstrap.roots config

theorem reachable_start : Reachable config start := .bootstrap (b := bootstrap) rfl

/-- The state after a run of calls from the start; the start when some call stops. -/
def after (ops : List Op) : AltState :=
  match Op.run config ops start with
  | .ok _ s => s
  | .error _ _ => start

theorem reachable_after (ops : List Op) : Reachable config (after ops) := by
  unfold after
  split
  . next h => exact reachable_start.run h
  . exact reachable_start

end Small

end AltIntegration
