import AltIntegration.Rewards.BigDecimal
import AltIntegration.Data.SortedMap
import AltIntegration.Serde.Publications
import AltIntegration.Blockchain.Pop.KeystoneUtil
import AltIntegration.Blockchain.Addons

/-!
This module contains `default_poprewards_calculator.cpp`: the score of an endorsed block, the difficulty, the reward
of the block and the payouts to those who endorsed it. `none` is an exception or a failed assertion.
-/

namespace AltIntegration

instance linearOrderUInt8 : LinearOrder UInt8 where
  le_refl := UInt8.le_refl
  le_trans _ _ _ := UInt8.le_trans
  le_antisymm _ _ := UInt8.le_antisymm
  le_total := UInt8.le_total
  lt_iff_le_not_ge a b := by
    rw [UInt8.not_le, UInt8.lt_iff_toNat_lt, UInt8.le_iff_toNat_le]
    omega
  toDecidableLE := inferInstance

/-- `PopPayoutsParams`. A `double` is given by what it becomes as a `PopRewardsBigDecimal`. -/
structure PopPayoutsParams where
  startOfSlope : UInt64
  slopeNormal : UInt64
  slopeKeystone : UInt64
  keystoneRound : Nat
  payoutRounds : Nat
  flatScoreRound : Nat
  useFlatScoreRound : Bool
  maxScoreThresholdNormal : UInt64
  maxScoreThresholdKeystone : UInt64
  difficultyAveragingInterval : UInt32
  roundRatios : List UInt64
  relativeScoreLookupTable : List UInt64

/-- `PopPayouts` -/
abbrev PopPayouts := SortedMap (List UInt8) UInt64

namespace PopPayouts

/-- `payouts[payoutInfo] += amount` -/
def pay (rewards : PopPayouts) (payoutInfo : List UInt8) (amount : UInt64) : PopPayouts :=
  rewards.upsert payoutInfo (fun old => old.getD 0 + amount)

/-- What is paid to an address -/
def amount (rewards : PopPayouts) (payoutInfo : List UInt8) : UInt64 := (rewards.find? payoutInfo).getD 0

/-- What is paid to all of them -/
def total (rewards : PopPayouts) : Nat := rewards.sum UInt64.toNat

end PopPayouts

/-- What `calculatePayouts` returns, and what it leaves in its arguments -/
structure PayoutsResult where
  ok : Bool
  rewards : PopPayouts
  error : Option String
  deriving DecidableEq

/-- The payouts of a call that succeeds -/
def PayoutsResult.payouts? (r : PayoutsResult) : Option PopPayouts := if r.ok then some r.rewards else none

/-- `DefaultPopRewardsCalculator`, with what it reads of its tree -/
structure DefaultPopRewardsCalculator where
  params : PopPayoutsParams
  keystoneInterval : Nat
  alt : Tree AltAddon
  vbk : Tree VbkAddon
  /-- `getPayloadsProvider().getATV` -/
  getATV : Nat → Option Serde.ATV
  /-- `HexStr` of an id -/
  hexStr : Nat → String

namespace DefaultPopRewardsCalculator

variable (c : DefaultPopRewardsCalculator)

section Score

/-- The height of the block of proof, when that is in the best chain -/
def publicationHeight (e : Endorsement) : Option Nat :=
  (c.vbk.getBlockIndex e.blockOfProof).bind (fun b =>
    if c.vbk.onActiveChain e.blockOfProof then some b.height else none)

def endorsedBy (endorsedBlock : BlockIndex AltAddon) : List Endorsement := endorsedBlock.addon.popState.endorsedBy

/-- The body of the loop of `getBestPublicationHeight` -/
def nearerPublication (bestPublication : Int) (e : Endorsement) : Int :=
  match c.publicationHeight e with
  | none => bestPublication
  | some height => if (height : Int) < bestPublication ∨ bestPublication < 0 then height else bestPublication

def getBestPublicationHeight (endorsedBlock : BlockIndex AltAddon) : Int :=
  (endorsedBy endorsedBlock).foldl c.nearerPublication (-1)

def getScoreMultiplierFromRelativeBlock (relativeBlock : Int) : PopRewardsBigDecimal :=
  if relativeBlock < 0 ∨ (c.params.relativeScoreLookupTable.length : Int) ≤ relativeBlock then
    .zero
  else
    .ofDouble (c.params.relativeScoreLookupTable.getD relativeBlock.toNat 0)

/-- The body of the loop of `scoreFromEndorsements` -/
def addMultiplier (bestPublication : Int) (totalScore : PopRewardsBigDecimal) (e : Endorsement) : PopRewardsBigDecimal :=
  match c.publicationHeight e with
  | none => totalScore
  | some height => totalScore.add (c.getScoreMultiplierFromRelativeBlock (height - bestPublication))

def scoreFromEndorsements (endorsedBlock : BlockIndex AltAddon) : PopRewardsBigDecimal :=
  let bestPublication := c.getBestPublicationHeight endorsedBlock
  if bestPublication < 0 then
    .zero
  else
    (endorsedBy endorsedBlock).foldl (c.addMultiplier bestPublication) .zero

/-- The loop of `calculateDifficulty` -/
def addScores : Nat → Option Hash → PopRewardsBigDecimal → PopRewardsBigDecimal
  | 0, _, difficulty => difficulty
  | n + 1, currentBlock, difficulty =>
    match currentBlock.bind c.alt.find? with
    | none => difficulty
    | some b => addScores n b.pprev (difficulty.add (c.scoreFromEndorsements b))

def calculateDifficulty (tip : BlockIndex AltAddon) : Option PopRewardsBigDecimal :=
  let interval := c.params.difficultyAveragingInterval
  ((c.addScores interval.toNat tip.pprev .zero).div (.ofUint64 interval.toUInt64)).map (fun difficulty =>
    if difficulty.lt .one then .one else difficulty)

end Score

section BlockReward

variable (height payoutRound : Nat)

/-- A division by zero is undefined. -/
def getRoundForBlockNumber : Option Nat :=
  if c.keystoneInterval = 0 then
    none
  else if isKeystone height c.keystoneInterval then
    some c.params.keystoneRound
  else if c.params.payoutRounds ≤ 1 then
    some 0
  else if 0 < height then
    some (height % c.keystoneInterval % (c.params.payoutRounds - 1))
  else
    none

def isFirstRoundAfterKeystone : Bool :=
  let blockAfterKeystone := height % c.keystoneInterval
  if c.params.payoutRounds = 0 then true else blockAfterKeystone / c.params.payoutRounds = 0

def getRoundRatio : Option PopRewardsBigDecimal := (c.params.roundRatios[payoutRound]?).map .ofDouble

def getMaxScoreThreshold : PopRewardsBigDecimal :=
  if payoutRound = c.params.keystoneRound then
    .ofDouble c.params.maxScoreThresholdKeystone
  else
    .ofDouble c.params.maxScoreThresholdNormal

def getRoundSlope : PopRewardsBigDecimal :=
  if payoutRound = c.params.keystoneRound then .ofDouble c.params.slopeKeystone else .ofDouble c.params.slopeNormal

def calculateSlopeRatio (score : PopRewardsBigDecimal) : Option PopRewardsBigDecimal :=
  let startOfSlope := .ofDouble c.params.startOfSlope
  if score.ge startOfSlope then
    ((c.getRoundSlope payoutRound).mul (score.sub startOfSlope)).map (fun scoreDecrease =>
      PopRewardsBigDecimal.one.sub (if scoreDecrease.gt .one then .one else scoreDecrease))
  else
    none

/-- The ratio that counts for a round, with the penalty for it -/
def limitScore (scoreToDifficulty : PopRewardsBigDecimal) : Option (PopRewardsBigDecimal × PopRewardsBigDecimal) :=
  if scoreToDifficulty.gt (.ofDouble c.params.startOfSlope) then
    let maxScoreThreshold := c.getMaxScoreThreshold payoutRound
    let scoreToDifficulty := if scoreToDifficulty.gt maxScoreThreshold then maxScoreThreshold else scoreToDifficulty
    (c.calculateSlopeRatio payoutRound scoreToDifficulty).map (fun slope => (slope, scoreToDifficulty))
  else
    some (.one, scoreToDifficulty)

def calculateBlockReward (popscore popdifficulty : PopRewardsBigDecimal) : Option PopRewardsBigDecimal := do
  let payoutRound ← c.getRoundForBlockNumber height
  let flat := c.params.useFlatScoreRound && payoutRound = c.params.flatScoreRound && c.isFirstRoundAfterKeystone height
  let popscore := if flat then .one else popscore
  let popdifficulty := if flat then .one else popdifficulty
  if popscore.eq .zero then
    some .zero
  else
    let popdifficulty := if popdifficulty.lt .one then .one else popdifficulty
    let scoreToDifficulty ← popscore.div popdifficulty
    let roundRatio ← c.getRoundRatio payoutRound
    let (slope, scoreToDifficulty) ← c.limitScore payoutRound scoreToDifficulty
    let rewardWithSlope ← slope.mul scoreToDifficulty
    rewardWithSlope.mul roundRatio

end BlockReward

section Payouts

def calculateMinerReward (vbkRelativeHeight : Int) (scoreForThisBlock blockReward : PopRewardsBigDecimal) :
    Option PopRewardsBigDecimal :=
  if scoreForThisBlock.eq .zero then
    some .zero
  else
    (blockReward.mul (c.getScoreMultiplierFromRelativeBlock vbkRelativeHeight)).bind (fun product =>
      product.div scoreForThisBlock)

/-- The loop of `calculatePayoutsInner` -/
def payEndorsements (bestPublication : Int) (score blockReward : PopRewardsBigDecimal) :
    List Endorsement → PopPayouts → Option PayoutsResult
  | [], rewards => some { ok := true, rewards := rewards, error := none }
  | e :: endorsements, rewards =>
    match c.publicationHeight e with
    | none => payEndorsements bestPublication score blockReward endorsements rewards
    | some height =>
      match c.getATV e.id with
      | none => some { ok := false, rewards := rewards, error := some ("cant-load-atv-" ++ c.hexStr e.id) }
      | some atv =>
        (c.calculateMinerReward (height - bestPublication) score blockReward).bind (fun minerReward =>
          payEndorsements bestPublication score blockReward endorsements
            (rewards.pay atv.transaction.publicationData.payoutInfo (UInt64.ofNat minerReward.value.getLow64)))

def calculatePayoutsInner (endorsedBlock : BlockIndex AltAddon)
    (endorsedBlockScore popDifficulty : PopRewardsBigDecimal) (rewards : PopPayouts) : Option PayoutsResult :=
  let bestPublication := c.getBestPublicationHeight endorsedBlock
  if bestPublication < 0 then
    some { ok := true, rewards := .empty, error := none }
  else
    (c.calculateBlockReward endorsedBlock.height endorsedBlockScore popDifficulty).bind (fun blockReward =>
      c.payEndorsements bestPublication endorsedBlockScore blockReward (endorsedBy endorsedBlock) rewards)

def calculatePayouts (endorsedBlock : BlockIndex AltAddon) (rewards : PopPayouts) : Option PayoutsResult :=
  (c.calculateDifficulty endorsedBlock).bind (fun popDifficulty =>
    c.calculatePayoutsInner endorsedBlock (c.scoreFromEndorsements endorsedBlock) popDifficulty rewards)

end Payouts

end DefaultPopRewardsCalculator

end AltIntegration
