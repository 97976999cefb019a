import Mathlib.Init

/-!
This module contains the arithmetic of keystones, `keystone_util.cpp`.
-/

namespace AltIntegration

def highestKeystoneAtOrBefore (blockNumber keystoneInterval : Nat) : Nat :=
  blockNumber - blockNumber % keystoneInterval

def isKeystone (blockNumber keystoneInterval : Nat) : Bool :=
  blockNumber % keystoneInterval = 0

def firstKeystoneAfter (blockNumber keystoneInterval : Nat) : Nat :=
  if isKeystone blockNumber keystoneInterval then
    blockNumber + keystoneInterval
  else
    blockNumber + (keystoneInterval - blockNumber % keystoneInterval)

def highestBlockWhichConnectsKeystoneToPrevious (keystone keystoneInterval : Nat) : Nat :=
  keystone + keystoneInterval + 1

def isCrossedKeystoneBoundary (bottomHeight tipHeight keystoneInterval : Nat) : Bool :=
  bottomHeight / keystoneInterval < tipHeight / keystoneInterval

def getPreviousKeystoneHeight (height keystoneInterval keystoneNum : Nat) : Nat :=
  if height ≤ 1 + keystoneNum * keystoneInterval then
    0
  else
    highestKeystoneAtOrBefore (if isKeystone (height - 1) keystoneInterval then height - 2 else height - 1)
      keystoneInterval - keystoneNum * keystoneInterval

theorem highestKeystoneAtOrBefore_eq (height interval : Nat) :
    highestKeystoneAtOrBefore height interval = height / interval * interval := by
  have hdiv := Nat.div_add_mod' height interval
  simp only [highestKeystoneAtOrBefore]
  omega

end AltIntegration
