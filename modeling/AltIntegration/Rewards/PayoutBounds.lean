import AltIntegration.Rewards.DefaultPopRewardsCalculator
import Mathlib.Algebra.Order.BigOperators.Group.List
import Mathlib.Algebra.Group.Action.Defs

/-!
This module shows that the payouts of a block do not exceed its reward, and that none of them is cut off. Every
share is rounded down, and the score is the sum of the weights that the shares are taken of.
-/

namespace AltIntegration.DefaultPopRewardsCalculator

open PopRewardsBigDecimal

variable {c : DefaultPopRewardsCalculator}

section Score

/-- The weight of a publication at a height, in units -/
def weight (c : DefaultPopRewardsCalculator) (bestPublication : Int) (height : Nat) : Nat :=
  (c.getScoreMultiplierFromRelativeBlock (height - bestPublication)).units

theorem weight_lt (bestPublication : Int) (height : Nat) : c.weight bestPublication height < 2 ^ 64 := by
  unfold weight getScoreMultiplierFromRelativeBlock
  split
  . rw [units_zero]
    decide
  . rw [units_ofDouble]
    exact UInt64.toNat_lt _

/-- The publications of a list of endorsements that count -/
def heights (c : DefaultPopRewardsCalculator) (endorsements : List Endorsement) : List Nat :=
  endorsements.filterMap c.publicationHeight

theorem heights_cons_of_none {e : Endorsement} {endorsements : List Endorsement} (h : c.publicationHeight e = none) :
    c.heights (e :: endorsements) = c.heights endorsements := List.filterMap_cons_none h

theorem heights_cons_of_some {e : Endorsement} {endorsements : List Endorsement} {height : Nat}
    (h : c.publicationHeight e = some height) : c.heights (e :: endorsements) = height :: c.heights endorsements :=
  List.filterMap_cons_some h

/-- A sum of less than `2 ^ 192` weights does not wrap. -/
theorem units_addMultiplier (bestPublication : Int) (endorsements : List Endorsement) {totalScore : PopRewardsBigDecimal}
    (h : totalScore.units + endorsements.length * 2 ^ 64 < 2 ^ 256) :
    (endorsements.foldl (c.addMultiplier bestPublication) totalScore).units =
      totalScore.units + ((c.heights endorsements).map (c.weight bestPublication)).sum := by
  induction endorsements generalizing totalScore with
  | nil => rfl
  | cons e endorsements ih =>
    rw [List.length_cons] at h
    rw [List.foldl_cons]
    cases hheight : c.publicationHeight e with
    | none =>
      have hstep : c.addMultiplier bestPublication totalScore e = totalScore := by
        unfold addMultiplier
        rw [hheight]
      have hrest := Nat.lt_of_le_of_lt (Nat.add_le_add_left (Nat.mul_le_mul_right _ (Nat.le_succ _)) _) h
      rw [heights_cons_of_none hheight, hstep, ih hrest]
    | some height =>
      have hweight := weight_lt (c := c) bestPublication height
      have hstep : (c.addMultiplier bestPublication totalScore e).units =
          totalScore.units + c.weight bestPublication height := by
        unfold addMultiplier
        rw [hheight, weight, units_add_of_lt]
        rw [weight] at hweight
        omega
      have hrest : (c.addMultiplier bestPublication totalScore e).units + endorsements.length * 2 ^ 64 < 2 ^ 256 := by
        rw [hstep]
        omega
      rw [heights_cons_of_some hheight, List.map_cons, List.sum_cons, ← Nat.add_assoc, ← hstep, ih hrest]

theorem foldl_nearerPublication_nonneg {endorsements : List Endorsement} (bestPublication : Int)
    (h : 0 ≤ bestPublication ∨ c.heights endorsements ≠ []) :
    0 ≤ endorsements.foldl c.nearerPublication bestPublication := by
  induction endorsements generalizing bestPublication with
  | nil => exact h.resolve_right (fun hne => hne rfl)
  | cons e endorsements ih =>
    rw [List.foldl_cons]
    apply ih
    unfold nearerPublication
    cases hheight : c.publicationHeight e with
    | none => rwa [heights_cons_of_none hheight] at h
    | some height =>
      apply Or.inl
      simp only
      split
      . exact Int.natCast_nonneg height
      . next hnot => omega

variable {endorsedBlock : BlockIndex AltAddon}

theorem heights_eq_nil (h : c.getBestPublicationHeight endorsedBlock < 0) : c.heights (endorsedBy endorsedBlock) = [] := by
  apply Decidable.byContradiction
  intro hne
  have hnonneg := foldl_nearerPublication_nonneg (-1) (Or.inr hne)
  unfold getBestPublicationHeight at h
  omega

theorem units_scoreFromEndorsements (hsize : (endorsedBy endorsedBlock).length < 2 ^ 64)
    (hbest : ¬c.getBestPublicationHeight endorsedBlock < 0) :
    (c.scoreFromEndorsements endorsedBlock).units =
      ((c.heights (endorsedBy endorsedBlock)).map (c.weight (c.getBestPublicationHeight endorsedBlock))).sum := by
  unfold scoreFromEndorsements
  rw [if_neg hbest, units_addMultiplier, units_zero, Nat.zero_add]
  rw [units_zero]
  omega

end Score

section MinerReward

variable (bestPublication : Int) (score blockReward : PopRewardsBigDecimal)

/-- The reward for a publication at a height, in units -/
def minerUnits (c : DefaultPopRewardsCalculator) (bestPublication : Int) (score blockReward : PopRewardsBigDecimal)
    (height : Nat) : Nat :=
  (c.calculateMinerReward (height - bestPublication) score blockReward).elim 0 units

theorem minerUnits_of_units_eq_zero (h : score.units = 0) (height : Nat) :
    c.minerUnits bestPublication score blockReward height = 0 := by
  have hzero : score.eq .zero = true := by rw [eq_iff, h, units_zero]
  rw [minerUnits, calculateMinerReward, if_pos hzero, Option.elim_some, units_zero]

/-- Both divisions round down, and a product that wraps is only smaller. -/
theorem minerUnits_mul_le (height : Nat) : c.minerUnits bestPublication score blockReward height * score.units ≤
    blockReward.units * c.weight bestPublication height := by
  unfold minerUnits calculateMinerReward
  split
  . rw [Option.elim_some, units_zero, Nat.zero_mul]
    exact Nat.zero_le _
  . cases hreward : (blockReward.mul (c.getScoreMultiplierFromRelativeBlock (height - bestPublication))).bind
      (fun product => product.div score) with
    | none =>
      rw [Option.elim_none, Nat.zero_mul]
      exact Nat.zero_le _
    | some minerReward =>
      rw [Option.bind_eq_some_iff] at hreward
      obtain ⟨product, hproduct, hreward⟩ := hreward
      rw [Option.elim_some, units_div hreward]
      calc product.units * 100000000 % 2 ^ 256 / score.units * score.units
        _ ≤ product.units * 100000000 % 2 ^ 256 := Nat.div_mul_le_self _ _
        _ ≤ product.units * 100000000 := Nat.mod_le _ _
        _ ≤ blockReward.units * c.weight bestPublication height % 2 ^ 256 := by
          rw [units_mul hproduct]
          exact Nat.div_mul_le_self _ _
        _ ≤ blockReward.units * c.weight bestPublication height := Nat.mod_le _ _

theorem sum_minerUnits_mul_le (l : List Nat) :
    (l.map (c.minerUnits bestPublication score blockReward)).sum * score.units ≤
      blockReward.units * (l.map (c.weight bestPublication)).sum := by
  induction l with
  | nil =>
    rw [List.map_nil, List.sum_nil, Nat.zero_mul]
    exact Nat.zero_le _
  | cons height l ih =>
    rw [List.map_cons, List.sum_cons, List.map_cons, List.sum_cons, Nat.add_mul, Nat.mul_add]
    exact Nat.add_le_add (minerUnits_mul_le bestPublication score blockReward height) ih

/-- The shares of a score that is the sum of their weights -/
theorem sum_minerUnits_le {l : List Nat} (h : score.units = (l.map (c.weight bestPublication)).sum) :
    (l.map (c.minerUnits bestPublication score blockReward)).sum ≤ blockReward.units := by
  cases Nat.eq_zero_or_pos score.units with
  | inl hzero =>
    have hsum : (l.map (c.minerUnits bestPublication score blockReward)).sum = 0 := by
      apply List.sum_eq_zero
      intro units hunits
      rw [List.mem_map] at hunits
      obtain ⟨height, -, hunits⟩ := hunits
      rw [← hunits, minerUnits_of_units_eq_zero bestPublication score blockReward hzero]
    rw [hsum]
    exact Nat.zero_le _
  | inr hpos =>
    have hmul := sum_minerUnits_mul_le (c := c) bestPublication score blockReward l
    rw [← h] at hmul
    exact Nat.le_of_mul_le_mul_right hmul hpos

end MinerReward

section Pay

variable (rewards : PopPayouts) (payoutInfo : List UInt8) (a : UInt64)

theorem total_pay_le : (rewards.pay payoutInfo a).total ≤ rewards.total + a.toNat := by
  have hsum := rewards.sum_upsert payoutInfo (fun old => old.getD 0 + a) UInt64.toNat
  have hadd : ((rewards.find? payoutInfo).getD 0 + a).toNat ≤ (rewards.find? payoutInfo).elim 0 UInt64.toNat + a.toNat := by
    rw [UInt64.toNat_add]
    apply Nat.le_trans (Nat.mod_le _ _)
    cases rewards.find? payoutInfo with
    | none => exact Nat.le_refl _
    | some old => exact Nat.le_refl _
  unfold PopPayouts.total PopPayouts.pay
  omega

theorem amount_pay (payoutInfo' : List UInt8) : (rewards.pay payoutInfo a).amount payoutInfo' =
    if payoutInfo = payoutInfo' then rewards.amount payoutInfo + a else rewards.amount payoutInfo' := by
  unfold PopPayouts.amount PopPayouts.pay
  rw [SortedMap.find?_upsert]
  split
  . rfl
  . rfl

end Pay

section Payouts

variable {bestPublication : Int} {score blockReward : PopRewardsBigDecimal} {endorsements : List Endorsement}
  {rewards : PopPayouts} {r : PayoutsResult}

/-- An endorsement that counts pays the reward of its height to the address in its ATV. -/
theorem payEndorsements_cons {e : Endorsement}
    (h : c.payEndorsements bestPublication score blockReward (e :: endorsements) rewards = some r) :
    (c.publicationHeight e = none ∧ c.payEndorsements bestPublication score blockReward endorsements rewards = some r) ∨
    ∃ height, c.publicationHeight e = some height ∧
      ((c.getATV e.id = none ∧ r.ok = false ∧ r.rewards = rewards) ∨
      ∃ atv minerReward, c.getATV e.id = some atv ∧
        c.calculateMinerReward (height - bestPublication) score blockReward = some minerReward ∧
        c.payEndorsements bestPublication score blockReward endorsements
          (rewards.pay atv.transaction.publicationData.payoutInfo (UInt64.ofNat minerReward.value.getLow64)) = some r) := by
  rw [payEndorsements] at h
  split at h
  . next hheight => exact Or.inl ⟨hheight, h⟩
  . next height hheight =>
    refine Or.inr ⟨height, hheight, ?_⟩
    split at h
    . next hatv =>
      cases h
      exact Or.inl ⟨hatv, rfl, rfl⟩
    . next atv hatv =>
      rw [Option.bind_eq_some_iff] at h
      obtain ⟨minerReward, hreward, hrest⟩ := h
      exact Or.inr ⟨atv, minerReward, hatv, hreward, hrest⟩

theorem toNat_low64_le (a : PopRewardsBigDecimal) : (UInt64.ofNat a.value.getLow64).toNat ≤ a.units := by
  rw [UInt64.toNat_ofNat', Arith.ArithUint256.getLow64_eq]
  exact Nat.le_trans (Nat.mod_le _ _) (Nat.mod_le _ _)

theorem total_payEndorsements_le (h : c.payEndorsements bestPublication score blockReward endorsements rewards = some r) :
    r.rewards.total ≤
      rewards.total + ((c.heights endorsements).map (c.minerUnits bestPublication score blockReward)).sum := by
  induction endorsements generalizing rewards with
  | nil =>
    cases h
    exact Nat.le_add_right _ _
  | cons e endorsements ih =>
    obtain ⟨hheight, hrest⟩ | ⟨height, hheight, ⟨-, -, hrewards⟩ | ⟨atv, minerReward, -, hreward, hrest⟩⟩ :=
      payEndorsements_cons h
    . rw [heights_cons_of_none hheight]
      exact ih hrest
    . rw [hrewards]
      exact Nat.le_add_right _ _
    . have hunits : c.minerUnits bestPublication score blockReward height = minerReward.units := by
        rw [minerUnits, hreward, Option.elim_some]
      have htotal := ih hrest
      have hpay := total_pay_le rewards atv.transaction.publicationData.payoutInfo
        (UInt64.ofNat minerReward.value.getLow64)
      have hlow := toNat_low64_le minerReward
      rw [heights_cons_of_some hheight, List.map_cons, List.sum_cons, hunits]
      omega

/-- What is to be paid to an address for endorsements, when nothing is cut off -/
def paidTo (c : DefaultPopRewardsCalculator) (bestPublication : Int) (score blockReward : PopRewardsBigDecimal)
    (payoutInfo : List UInt8) : List Endorsement → Nat
  | [] => 0
  | e :: endorsements =>
    let rest := paidTo c bestPublication score blockReward payoutInfo endorsements
    match c.publicationHeight e, c.getATV e.id with
    | some height, some atv =>
      if atv.transaction.publicationData.payoutInfo = payoutInfo then
        c.minerUnits bestPublication score blockReward height + rest
      else
        rest
    | _, _ => rest

theorem paidTo_le (bestPublication : Int) (score blockReward : PopRewardsBigDecimal) (payoutInfo : List UInt8)
    (endorsements : List Endorsement) : c.paidTo bestPublication score blockReward payoutInfo endorsements ≤
      ((c.heights endorsements).map (c.minerUnits bestPublication score blockReward)).sum := by
  induction endorsements with
  | nil => exact Nat.le_refl _
  | cons e endorsements ih =>
    unfold paidTo
    cases hheight : c.publicationHeight e with
    | none =>
      rw [heights_cons_of_none hheight]
      exact ih
    | some height =>
      rw [heights_cons_of_some hheight, List.map_cons, List.sum_cons]
      cases c.getATV e.id with
      | none => exact Nat.le_trans ih (Nat.le_add_left _ _)
      | some atv =>
        simp only
        split
        . exact Nat.add_le_add_left ih _
        . exact Nat.le_trans ih (Nat.le_add_left _ _)

theorem toNat_low64_of_lt {a : PopRewardsBigDecimal} (h : a.units < 2 ^ 64) :
    (UInt64.ofNat a.value.getLow64).toNat = a.units := by
  unfold units at h
  rw [UInt64.toNat_ofNat', Arith.ArithUint256.getLow64_eq, Nat.mod_mod, Nat.mod_eq_of_lt h, units]

theorem amount_payEndorsements (payoutInfo : List UInt8)
    (hfits : ((c.heights endorsements).map (c.minerUnits bestPublication score blockReward)).sum < 2 ^ 64)
    (hlt : (rewards.amount payoutInfo).toNat + c.paidTo bestPublication score blockReward payoutInfo endorsements < 2 ^ 64)
    (hok : r.ok = true)
    (h : c.payEndorsements bestPublication score blockReward endorsements rewards = some r) :
    (r.rewards.amount payoutInfo).toNat =
      (rewards.amount payoutInfo).toNat + c.paidTo bestPublication score blockReward payoutInfo endorsements := by
  induction endorsements generalizing rewards with
  | nil =>
    cases h
    rfl
  | cons e endorsements ih =>
    obtain ⟨hheight, hrest⟩ | ⟨height, hheight, ⟨-, hfalse, -⟩ | ⟨atv, minerReward, hatv, hreward, hrest⟩⟩ :=
      payEndorsements_cons h
    . unfold paidTo at hlt ⊢
      rw [heights_cons_of_none hheight] at hfits
      simp only [hheight] at hlt ⊢
      exact ih hfits hlt hrest
    . rw [hok] at hfalse
      cases hfalse
    . have hunits : c.minerUnits bestPublication score blockReward height = minerReward.units := by
        rw [minerUnits, hreward, Option.elim_some]
      rw [heights_cons_of_some hheight, List.map_cons, List.sum_cons, hunits] at hfits
      have hlow := toNat_low64_of_lt (Nat.lt_of_le_of_lt (Nat.le_add_right _ _) hfits)
      have hrestFits := Nat.lt_of_le_of_lt (Nat.le_add_left _ _) hfits
      unfold paidTo at hlt ⊢
      simp only [hheight, hatv] at hlt ⊢
      by_cases hinfo : atv.transaction.publicationData.payoutInfo = payoutInfo
      . rw [if_pos hinfo, hunits] at hlt ⊢
        have hamount : ((rewards.pay atv.transaction.publicationData.payoutInfo
            (UInt64.ofNat minerReward.value.getLow64)).amount payoutInfo).toNat =
              (rewards.amount payoutInfo).toNat + minerReward.units := by
          rw [amount_pay, if_pos hinfo, hinfo, UInt64.toNat_add, hlow, Nat.mod_eq_of_lt]
          omega
        rw [← Nat.add_assoc, ← hamount] at hlt ⊢
        exact ih hrestFits hlt hrest
      . rw [if_neg hinfo] at hlt ⊢
        have hamount : (rewards.pay atv.transaction.publicationData.payoutInfo
            (UInt64.ofNat minerReward.value.getLow64)).amount payoutInfo = rewards.amount payoutInfo := by
          rw [amount_pay, if_neg hinfo]
        rw [← hamount] at hlt ⊢
        exact ih hrestFits hlt hrest

end Payouts

section Main

variable {endorsedBlock : BlockIndex AltAddon} {popDifficulty blockReward : PopRewardsBigDecimal} {r : PayoutsResult}

/-- With a score for the block, its endorsements are paid one by one. -/
theorem calculatePayoutsInner_eq_some {score : PopRewardsBigDecimal}
    (hreward : c.calculateBlockReward endorsedBlock.height score popDifficulty = some blockReward)
    (hrun : c.calculatePayoutsInner endorsedBlock score popDifficulty .empty = some r)
    (hbest : ¬c.getBestPublicationHeight endorsedBlock < 0) :
    c.payEndorsements (c.getBestPublicationHeight endorsedBlock) score blockReward (endorsedBy endorsedBlock) .empty =
      some r := by
  unfold calculatePayoutsInner at hrun
  simp only at hrun
  rw [if_neg hbest, hreward, Option.bind_some] at hrun
  exact hrun

theorem payouts_le_blockReward (hsize : (endorsedBy endorsedBlock).length < 2 ^ 64)
    (hreward : c.calculateBlockReward endorsedBlock.height (c.scoreFromEndorsements endorsedBlock) popDifficulty =
      some blockReward)
    (hrun : c.calculatePayoutsInner endorsedBlock (c.scoreFromEndorsements endorsedBlock) popDifficulty .empty = some r) :
    r.rewards.total ≤ blockReward.units ∧
    (blockReward.units < 2 ^ 64 → r.ok = true → ∀ payoutInfo, (r.rewards.amount payoutInfo).toNat =
      c.paidTo (c.getBestPublicationHeight endorsedBlock) (c.scoreFromEndorsements endorsedBlock) blockReward payoutInfo
        (endorsedBy endorsedBlock)) := by
  by_cases hbest : c.getBestPublicationHeight endorsedBlock < 0
  . have hnone : ∀ payoutInfo, c.paidTo (c.getBestPublicationHeight endorsedBlock)
        (c.scoreFromEndorsements endorsedBlock) blockReward payoutInfo (endorsedBy endorsedBlock) = 0 := by
      intro payoutInfo
      have hle := paidTo_le (c := c) (c.getBestPublicationHeight endorsedBlock) (c.scoreFromEndorsements endorsedBlock)
        blockReward payoutInfo (endorsedBy endorsedBlock)
      rw [heights_eq_nil hbest] at hle
      exact Nat.le_zero.mp hle
    unfold calculatePayoutsInner at hrun
    simp only at hrun
    rw [if_pos hbest, Option.some_inj] at hrun
    rw [← hrun]
    apply And.intro
    . exact Nat.zero_le _
    . intro _ _ payoutInfo
      rw [hnone]
      rfl
  . have hpaid := calculatePayoutsInner_eq_some hreward hrun hbest
    have hsum := sum_minerUnits_le (c.getBestPublicationHeight endorsedBlock) (c.scoreFromEndorsements endorsedBlock)
      blockReward (units_scoreFromEndorsements hsize hbest)
    have htotal := total_payEndorsements_le hpaid
    have hempty : PopPayouts.total .empty = 0 := rfl
    apply And.intro
    . omega
    . intro hfits hok payoutInfo
      have hle := paidTo_le (c := c) (c.getBestPublicationHeight endorsedBlock) (c.scoreFromEndorsements endorsedBlock)
        blockReward payoutInfo (endorsedBy endorsedBlock)
      have hamount : (PopPayouts.amount .empty payoutInfo).toNat = 0 := rfl
      have hexact := amount_payEndorsements payoutInfo (Nat.lt_of_le_of_lt hsum hfits)
        (by rw [hamount]; omega) hok hpaid
      rw [hexact, hamount, Nat.zero_add]

end Main

section Steps

variable {c : DefaultPopRewardsCalculator} {popscore popdifficulty reward : PopRewardsBigDecimal}

theorem calculateBlockReward_eq_some {height payoutRound : Nat} {ratio slope limited sloped roundRatio : PopRewardsBigDecimal}
    (hround : c.getRoundForBlockNumber height = some payoutRound) (hnormal : payoutRound ≠ c.params.flatScoreRound)
    (hsome : popscore.eq .zero = false) (hdifficulty : popdifficulty.lt .one = false)
    (hratio : popscore.div popdifficulty = some ratio) (hroundRatio : c.getRoundRatio payoutRound = some roundRatio)
    (hlimit : c.limitScore payoutRound ratio = some (slope, limited)) (hslope : slope.mul limited = some sloped)
    (hreward : sloped.mul roundRatio = some reward) :
    c.calculateBlockReward height popscore popdifficulty = some reward := by
  simp [calculateBlockReward, hround, hnormal, hsome, hdifficulty, hratio, hroundRatio, hlimit, hslope, hreward]

theorem calculateMinerReward_eq_some {vbkRelativeHeight : Int} {product minerReward : PopRewardsBigDecimal}
    (hsome : popscore.eq .zero = false)
    (hproduct : reward.mul (c.getScoreMultiplierFromRelativeBlock vbkRelativeHeight) = some product)
    (hminer : product.div popscore = some minerReward) :
    c.calculateMinerReward vbkRelativeHeight popscore reward = some minerReward := by
  simp [calculateMinerReward, hsome, hproduct, hminer]

theorem payEndorsements_published {bestPublication : Int} {e : Endorsement} {height : Nat} {atv : Serde.ATV}
    {minerReward : PopRewardsBigDecimal} (hheight : c.publicationHeight e = some height) (hatv : c.getATV e.id = some atv)
    (hminer : c.calculateMinerReward (height - bestPublication) popscore reward = some minerReward)
    (endorsements : List Endorsement) (rewards : PopPayouts) :
    c.payEndorsements bestPublication popscore reward (e :: endorsements) rewards =
      c.payEndorsements bestPublication popscore reward endorsements
        (rewards.pay atv.transaction.publicationData.payoutInfo (UInt64.ofNat minerReward.value.getLow64)) := by
  rw [payEndorsements, hheight]
  simp only [hatv, hminer, Option.bind_some]

end Steps

section Sample

/-- Two endorsements of one block, published in the first block of the VBK chain -/
def sample : DefaultPopRewardsCalculator where
  params := {
    startOfSlope := 100000000
    slopeNormal := 20000000
    slopeKeystone := 21325000
    keystoneRound := 3
    payoutRounds := 4
    flatScoreRound := 2
    useFlatScoreRound := true
    maxScoreThresholdNormal := 200000000
    maxScoreThresholdKeystone := 300000000
    difficultyAveragingInterval := 50
    roundRatios := [97000000, 103000000, 107000000, 300000000]
    relativeScoreLookupTable := [100000000] }
  keystoneInterval := 5
  alt := {
    blocks := .empty
    tips := []
    root := 0
    activeTip := 0
    appliedBlockCount := 0
    deferForkResolutionDepth := 0
    isUpdateTipsDeferred := false
    payloadsIndex := []
    finalizedPayloadsIndex := []
    traversals := 0
    history := [] }
  vbk := Tree.bootstrap
    { checkBlock := fun _ => true, contextuallyCheckBlock := fun _ _ => some true, getBlockProof := fun _ => 1 }
    ⟨0, 0, 0, 0, 0⟩ 7
  getATV id := some {
    version := 1
    transaction := {
      networkOrType := ⟨none, 1⟩
      sourceAddress := default
      sourceAmount := ⟨0⟩
      outputs := []
      signatureIndex := 0
      publicationData := ⟨0, [], [UInt8.ofNat id], []⟩
      signature := []
      publicKey := [] }
    merklePath := ⟨0, 0, .zero 32, []⟩
    blockOfProof := ⟨0, 0, .zero 12, .zero 9, .zero 9, .zero 16, 0, 0, 0⟩ }
  hexStr := toString

def sampleBlock : BlockIndex AltAddon where
  header := ⟨9, 8, 6, 0, 0⟩
  pprev := none
  height := 6
  status := {}
  finalized := false
  dirty := false
  addon := { popState := { endorsedBy := [⟨1, 9, 10, 1⟩, ⟨2, 9, 10, 1⟩] } }

/-- What the sample pays when the difficulty is three -/
def samplePayouts : PopPayouts := (PopPayouts.pay .empty [1] 34333332).pay [2] 34333332

theorem calculateBlockReward_sample : sample.calculateBlockReward sampleBlock.height (sample.scoreFromEndorsements sampleBlock)
      (.ofDouble 300000000) = some (.ofDouble 68666665) := by
  have hscore : sample.scoreFromEndorsements sampleBlock = .ofDouble 200000000 := by decide
  have hround : sample.getRoundForBlockNumber sampleBlock.height = some 1 := rfl
  rw [hscore]
  apply calculateBlockReward_eq_some hround (by decide) (by decide) (by decide)
    (div_ofDouble (c := 66666666) (by decide) rfl) rfl (if_neg (by decide)) (mul_ofDouble (c := 66666666) rfl)
  exact mul_ofDouble rfl

theorem payouts_le_blockReward_sample : samplePayouts.total ≤ 68666665 := by
  have hrun : sample.calculatePayoutsInner sampleBlock (sample.scoreFromEndorsements sampleBlock)
      (.ofDouble 300000000) .empty = some { ok := true, rewards := samplePayouts, error := none } := by
    have hscore : sample.scoreFromEndorsements sampleBlock = .ofDouble 200000000 := by decide
    have hbest : sample.getBestPublicationHeight sampleBlock = 7 := by decide
    have hminer : sample.calculateMinerReward ((7 : Nat) - 7) (ofDouble 200000000) (ofDouble 68666665) =
        some (ofDouble 34333332) :=
      calculateMinerReward_eq_some (by decide) (mul_ofDouble (c := 68666665) rfl) (div_ofDouble (by decide) rfl)
    unfold calculatePayoutsInner
    rw [calculateBlockReward_sample, hbest, hscore, if_neg (by decide), Option.bind_some]
    have hfirst : sample.publicationHeight ⟨1, 9, 10, 1⟩ = some 7 := by decide
    have hsecond : sample.publicationHeight ⟨2, 9, 10, 1⟩ = some 7 := by decide
    rw [show endorsedBy sampleBlock = [⟨1, 9, 10, 1⟩, ⟨2, 9, 10, 1⟩] from rfl, payEndorsements_published hfirst rfl hminer,
      payEndorsements_published hsecond rfl hminer]
    rfl
  have hbound := (payouts_le_blockReward (by decide) calculateBlockReward_sample hrun).1
  rwa [units_ofDouble] at hbound

end Sample

end AltIntegration.DefaultPopRewardsCalculator
