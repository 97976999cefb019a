import AltIntegration.Data.ArithUint256
import AltIntegration.Blockchain.BlockTree

/-!
This module contains `btc_blockchain_util.cpp`: the difficulty and the time that a BTC header must have on
top of the headers before it, and the parameters of the three BTC networks.

A chain of headers is given from the previous block down to the root, each with its height. Times and
difficulties are 32 bit numbers. `now` is what the clock says.
-/

namespace AltIntegration

/-- `BtcChainParams` -/
structure BtcChainParams where
  powLimit : Nat
  powTargetTimespan : Nat
  powTargetSpacing : Nat
  allowMinDifficultyBlocks : Bool
  powNoRetargeting : Bool
  maxFutureBlockTime : Nat
  numBlocksForBootstrap : Nat
  maxReorgBlocks : Nat
  deriving DecidableEq, Repr

namespace BtcChainParams

def difficultyAdjustmentInterval (p : BtcChainParams) : Nat := p.powTargetTimespan / p.powTargetSpacing

/-- `preserveBlocksBehindFinal` -/
def preserveBlocksBehindFinal (_ : BtcChainParams) : Nat := 0

/-- `BtcChainParamsMain` -/
def main : BtcChainParams where
  powLimit := Nat.pow 2 224 - 1
  powTargetTimespan := 14 * 24 * 60 * 60
  powTargetSpacing := 10 * 60
  allowMinDifficultyBlocks := false
  powNoRetargeting := false
  maxFutureBlockTime := 2 * 60 * 60
  numBlocksForBootstrap := 14 * 24 * 60 * 60 / (10 * 60)
  maxReorgBlocks := 10000

/-- `BtcChainParamsTest` -/
def test : BtcChainParams := { main with allowMinDifficultyBlocks := true }

/-- `BtcChainParamsRegTest` -/
def regTest : BtcChainParams :=
  { test with powLimit := Nat.pow 2 255 - 1, powNoRetargeting := true, numBlocksForBootstrap := 1 }

variable (p : BtcChainParams)

/-- `calculateNextWorkRequired` -/
def calculateNextWorkRequired (currentTip : Block) (firstBlockTime : Nat) : Nat :=
  if p.powNoRetargeting then
    currentTip.difficulty
  else
    let span := (currentTip.timestamp + Nat.pow 2 32 - firstBlockTime) % Nat.pow 2 32
    let actualTimespan := min (max span (p.powTargetTimespan / 4)) (p.powTargetTimespan * 4)
    let new := ArithUint256.fromBits currentTip.difficulty * actualTimespan % ArithUint256.size / p.powTargetTimespan
    ArithUint256.toBits (min new p.powLimit)

/-- The last block of a chain that was not mined under the rule for late blocks. -/
def lastRegularBlock : List (Nat × Block) → Nat
  | [] => 0
  | [b] => b.2.difficulty
  | b :: bs =>
    if b.1 % p.difficultyAdjustmentInterval ≠ 0 ∧ b.2.difficulty = ArithUint256.toBits p.powLimit then
      lastRegularBlock bs
    else
      b.2.difficulty

/-- `getNextWorkRequired`: `none` when there is no block at the height of the first block of the period -/
def getNextWorkRequired (chain : List (Nat × Block)) (block : Block) : Option Nat :=
  match chain.head? with
  | none => none
  | some (height, prev) =>
    if (height + 1) % p.difficultyAdjustmentInterval ≠ 0 then
      if p.allowMinDifficultyBlocks then
        if (prev.timestamp + p.powTargetSpacing * 2) % Nat.pow 2 32 < block.timestamp then
          some (ArithUint256.toBits p.powLimit)
        else
          some (p.lastRegularBlock chain)
      else
        some prev.difficulty
    else
      let heightFirst := height - (p.difficultyAdjustmentInterval - 1)
      (chain.dropWhile (fun b => decide (heightFirst < b.1))).head?.map
        (fun first => p.calculateNextWorkRequired prev first.2.timestamp)

/-- `getMedianTimePast` -/
def getMedianTimePast (chain : List (Nat × Block)) : Nat :=
  let times := ((chain.take 11).map (fun b => b.2.timestamp)).mergeSort
  times.getD (times.length / 2) 0

/-- `checkBlockTime` -/
def checkBlockTime (now : Nat) (chain : List (Nat × Block)) (block : Block) : Bool :=
  decide (getMedianTimePast chain ≤ block.timestamp) && decide (block.timestamp ≤ now + p.maxFutureBlockTime)

/-- `contextuallyCheckBlock` -/
def contextuallyCheckBlock (now : Nat) (chain : List (Nat × Block)) (block : Block) : Option Bool :=
  (p.getNextWorkRequired chain block).map
    (fun work => decide (block.difficulty = work) && p.checkBlockTime now chain block)

/-- `getBlockProof` -/
def getBlockProof (block : Block) : Nat :=
  let nSize := block.difficulty / Nat.pow 2 24
  let nWord := block.difficulty % Nat.pow 2 23
  let shifted := if nSize ≤ 3 then nWord / Nat.pow 2 (8 * (3 - nSize)) else nWord
  let negative := shifted ≠ 0 ∧ block.difficulty / Nat.pow 2 23 % 2 = 1
  let overflow := shifted ≠ 0 ∧ (34 < nSize ∨ 0xff < shifted ∧ 33 < nSize ∨ 0xffff < shifted ∧ 32 < nSize)
  let target := ArithUint256.fromBits block.difficulty
  if negative ∨ overflow ∨ target = 0 then
    0
  else
    (ArithUint256.size - 1 - target) / (target + 1) + 1

/-- The checks of the BTC tree. The stateless one checks the proof of work of a header against its hash. -/
def blockTreeParams (checkBlock : Block → Bool) (now : Nat) : BlockTreeParams where
  checkBlock := checkBlock
  contextuallyCheckBlock := p.contextuallyCheckBlock now
  getBlockProof := getBlockProof

end BtcChainParams

end AltIntegration
