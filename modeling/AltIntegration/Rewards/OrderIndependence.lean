import AltIntegration.Rewards.PayoutBounds
import Mathlib.Data.List.Perm.Basic

/-!
This module shows that the payouts do not depend on the order of the endorsements of a block. That order is what is
left of the reorganizations that a node went through.
-/

namespace AltIntegration

section Same

variable {A : Type}

/-- The data of a block, up to the order in which it was endorsed -/
def Reordered [PopAddon A] (a a' : A) : Prop :=
  ∃ endorsedBy : List Endorsement, endorsedBy.Perm (PopAddon.popState a).endorsedBy ∧
    a' = PopAddon.setPopState { PopAddon.popState a with endorsedBy := endorsedBy } a

variable [PopAddon A]

structure BlockIndex.Reordered (b b' : BlockIndex A) : Prop where
  block : b' = { b with addon := b'.addon }
  addon : AltIntegration.Reordered b.addon b'.addon

structure Tree.Reordered (t t' : Tree A) : Prop where
  activeTip : t'.activeTip = t.activeTip
  blocks : ∀ h, Option.Rel BlockIndex.Reordered (t.find? h) (t'.find? h)

namespace Tree.Reordered

variable {t t' : Tree A} (ht : t.Reordered t')

include ht

theorem find? (h : Hash) : (t.find? h = none ∧ t'.find? h = none) ∨
    ∃ b b', t.find? h = some b ∧ t'.find? h = some b' ∧ BlockIndex.Reordered b b' := by
  have hblocks := ht.blocks h
  generalize t.find? h = b at hblocks
  generalize t'.find? h = b' at hblocks
  cases hblocks with
  | none => exact Or.inl ⟨rfl, rfl⟩
  | some hb => exact Or.inr ⟨_, _, rfl, rfl, hb⟩

theorem heightOf (h : Hash) : t'.heightOf h = t.heightOf h := by
  unfold Tree.heightOf
  obtain ⟨hb, hb'⟩ | ⟨b, b', hb, hb', hsame⟩ := ht.find? h
  . rw [hb, hb']
  . rw [hb, hb', hsame.block]
    rfl

theorem ancestors (n : Nat) (h : Hash) : t'.ancestors n h = t.ancestors n h := by
  induction n generalizing h with
  | zero => rfl
  | succ n ih =>
    unfold Tree.ancestors
    obtain ⟨hb, hb'⟩ | ⟨b, b', hb, hb', hsame⟩ := ht.find? h
    . rw [hb, hb']
    . rw [hb, hb', hsame.block]
      simp only
      cases b.pprev with
      | none => rfl
      | some p => simp only [ih p]

theorem onActiveChain (h : Hash) : t'.onActiveChain h = t.onActiveChain h := by
  unfold Tree.onActiveChain Tree.chainTo
  rw [ht.activeTip, ht.heightOf, ht.ancestors]

theorem getBlockIndex (h : Hash) : (t'.getBlockIndex h).map (·.height) = (t.getBlockIndex h).map (·.height) := by
  unfold Tree.getBlockIndex
  obtain ⟨hb, hb'⟩ | ⟨b, b', hb, hb', hsame⟩ := ht.find? h
  . rw [hb, hb']
  . rw [hb, hb', hsame.block, Option.filter_some, Option.filter_some]
    unfold BlockIndex.isDeleted BlockIndex.hasFlags
    simp only
    split
    . rfl
    . rfl

end Tree.Reordered

end Same

namespace DefaultPopRewardsCalculator

variable (c c' : DefaultPopRewardsCalculator)

/-- Two nodes whose trees differ in the order of the endorsements only -/
structure Reordered : Prop where
  params : c'.params = c.params
  keystoneInterval : c'.keystoneInterval = c.keystoneInterval
  alt : c.alt.Reordered c'.alt
  vbk : c.vbk.Reordered c'.vbk
  getATV : ∀ id, c'.getATV id = c.getATV id

section Commute

instance rightCommutative_nearerPublication : RightCommutative c.nearerPublication where
  right_comm bestPublication e e' := by
    unfold nearerPublication
    cases c.publicationHeight e with
    | none => rfl
    | some height =>
      cases c.publicationHeight e' with
      | none => rfl
      | some height' =>
        simp only
        grind

instance rightCommutative_addMultiplier (bestPublication : Int) : RightCommutative (c.addMultiplier bestPublication) where
  right_comm totalScore e e' := by
    unfold addMultiplier
    cases c.publicationHeight e with
    | none => rfl
    | some height =>
      cases c.publicationHeight e' with
      | none => rfl
      | some height' => exact PopRewardsBigDecimal.add_right_comm _ _ _

theorem pay_comm (rewards : PopPayouts) (payoutInfo payoutInfo' : List UInt8) (a a' : UInt64) :
    (rewards.pay payoutInfo a).pay payoutInfo' a' = (rewards.pay payoutInfo' a').pay payoutInfo a := by
  apply SortedMap.upsert_comm
  intro _ old
  rw [Option.getD_some, Option.getD_some, UInt64.add_assoc, UInt64.add_comm a' a, ← UInt64.add_assoc]

/-- There is no division by zero. -/
theorem exists_minerReward (relativeHeight : Int) (score blockReward : PopRewardsBigDecimal) :
    ∃ minerReward, c.calculateMinerReward relativeHeight score blockReward = some minerReward := by
  unfold calculateMinerReward
  split
  . exact ⟨_, rfl⟩
  . next hscore =>
    rw [PopRewardsBigDecimal.eq_iff, PopRewardsBigDecimal.units_zero] at hscore
    obtain ⟨product, hproduct⟩ := blockReward.exists_mul (c.getScoreMultiplierFromRelativeBlock relativeHeight)
    rw [hproduct, Option.bind_some]
    exact PopRewardsBigDecimal.exists_div product hscore

variable (bestPublication : Int) (score blockReward : PopRewardsBigDecimal)

/-- What an endorsement does to the payouts: nothing, an addition to one of them, or the end of the loop -/
theorem payEndorsements_cons_cases (e : Endorsement) :
    (∀ endorsements rewards, c.payEndorsements bestPublication score blockReward (e :: endorsements) rewards =
      c.payEndorsements bestPublication score blockReward endorsements rewards) ∨
    (∃ payoutInfo a, ∀ endorsements rewards,
      c.payEndorsements bestPublication score blockReward (e :: endorsements) rewards =
        c.payEndorsements bestPublication score blockReward endorsements (rewards.pay payoutInfo a)) ∨
    ∀ endorsements rewards, (c.payEndorsements bestPublication score blockReward (e :: endorsements) rewards).map
      PayoutsResult.payouts? = some none := by
  cases hheight : c.publicationHeight e with
  | none =>
    apply Or.inl
    intro endorsements rewards
    simp only [payEndorsements, hheight]
  | some height =>
    apply Or.inr
    cases hatv : c.getATV e.id with
    | none =>
      apply Or.inr
      intro endorsements rewards
      simp only [payEndorsements, hheight, hatv, Option.map_some, PayoutsResult.payouts?, Bool.false_eq_true, if_false]
    | some atv =>
      obtain ⟨minerReward, hreward⟩ := c.exists_minerReward (height - bestPublication) score blockReward
      apply Or.inl
      refine ⟨atv.transaction.publicationData.payoutInfo, UInt64.ofNat minerReward.value.getLow64, ?_⟩
      intro endorsements rewards
      simp only [payEndorsements, hheight, hatv, hreward, Option.bind_some]

/-- The end of the loop comes sooner or later. -/
theorem payouts?_payEndorsements_cons {e : Endorsement}
    (h : ∀ endorsements rewards, (c.payEndorsements bestPublication score blockReward (e :: endorsements) rewards).map
      PayoutsResult.payouts? = some none) (e' : Endorsement) (endorsements : List Endorsement) (rewards : PopPayouts) :
    (c.payEndorsements bestPublication score blockReward (e' :: e :: endorsements) rewards).map PayoutsResult.payouts? =
      some none := by
  obtain hskip | ⟨payoutInfo, a, hpay⟩ | hfail := c.payEndorsements_cons_cases bestPublication score blockReward e'
  . rw [hskip, h]
  . rw [hpay, h]
  . exact hfail _ _

theorem payouts?_payEndorsements_perm {endorsements endorsements' : List Endorsement}
    (h : endorsements.Perm endorsements') (rewards : PopPayouts) :
    (c.payEndorsements bestPublication score blockReward endorsements rewards).map PayoutsResult.payouts? =
      (c.payEndorsements bestPublication score blockReward endorsements' rewards).map PayoutsResult.payouts? := by
  induction h generalizing rewards with
  | nil => rfl
  | cons e _ ih =>
    obtain hskip | ⟨payoutInfo, a, hpay⟩ | hfail := c.payEndorsements_cons_cases bestPublication score blockReward e
    . rw [hskip, hskip, ih]
    . rw [hpay, hpay, ih]
    . rw [hfail, hfail]
  | swap e e' endorsements =>
    have hcases := c.payEndorsements_cons_cases bestPublication score blockReward
    obtain hskip | ⟨payoutInfo, a, hpay⟩ | hfail := hcases e
    . obtain hskip' | ⟨payoutInfo', a', hpay'⟩ | hfail' := hcases e'
      . rw [hskip', hskip, hskip, hskip']
      . rw [hpay', hskip, hskip, hpay']
      . rw [hfail', c.payouts?_payEndorsements_cons _ _ _ hfail']
    . obtain hskip' | ⟨payoutInfo', a', hpay'⟩ | hfail' := hcases e'
      . rw [hskip', hpay, hpay, hskip']
      . rw [hpay', hpay, hpay, hpay', pay_comm]
      . rw [hfail', c.payouts?_payEndorsements_cons _ _ _ hfail']
    . rw [hfail, c.payouts?_payEndorsements_cons _ _ _ hfail]
  | trans _ _ ih ih' => rw [ih, ih']

end Commute

section Main

variable {c c'} (hsame : c.Reordered c')

include hsame

theorem publicationHeight_eq : c'.publicationHeight = c.publicationHeight := by
  funext e
  have hheight := hsame.vbk.getBlockIndex e.blockOfProof
  unfold publicationHeight
  rw [hsame.vbk.onActiveChain]
  cases hb : c.vbk.getBlockIndex e.blockOfProof with
  | none =>
    rw [hb, Option.map_none, Option.map_eq_none_iff] at hheight
    rw [hheight]
  | some b =>
    rw [hb, Option.map_some, Option.map_eq_some_iff] at hheight
    obtain ⟨b', hb', hheight⟩ := hheight
    rw [hb', Option.bind_some, Option.bind_some, hheight]

theorem nearerPublication_eq : c'.nearerPublication = c.nearerPublication := by
  funext bestPublication e
  unfold nearerPublication
  rw [publicationHeight_eq hsame]

theorem getScoreMultiplier_eq : c'.getScoreMultiplierFromRelativeBlock = c.getScoreMultiplierFromRelativeBlock := by
  funext relativeBlock
  unfold getScoreMultiplierFromRelativeBlock
  rw [hsame.params]

theorem addMultiplier_eq : c'.addMultiplier = c.addMultiplier := by
  funext bestPublication totalScore e
  unfold addMultiplier
  rw [publicationHeight_eq hsame, getScoreMultiplier_eq hsame]

theorem calculateBlockReward_eq : c'.calculateBlockReward = c.calculateBlockReward := by
  funext height popscore popdifficulty
  unfold calculateBlockReward getRoundForBlockNumber isFirstRoundAfterKeystone getRoundRatio limitScore
    getMaxScoreThreshold calculateSlopeRatio getRoundSlope
  rw [hsame.params, hsame.keystoneInterval]

theorem payEndorsements_eq (bestPublication : Int) (score blockReward : PopRewardsBigDecimal)
    (endorsements : List Endorsement) (rewards : PopPayouts) :
    (c'.payEndorsements bestPublication score blockReward endorsements rewards).map PayoutsResult.payouts? =
      (c.payEndorsements bestPublication score blockReward endorsements rewards).map PayoutsResult.payouts? := by
  induction endorsements generalizing rewards with
  | nil => rfl
  | cons e endorsements ih =>
    have hreward : c'.calculateMinerReward = c.calculateMinerReward := by
      funext relativeHeight score blockReward
      unfold calculateMinerReward
      rw [getScoreMultiplier_eq hsame]
    unfold payEndorsements
    rw [publicationHeight_eq hsame, hsame.getATV, hreward]
    cases c.publicationHeight e with
    | none => exact ih rewards
    | some height =>
      cases c.getATV e.id with
      | none => rfl
      | some atv =>
        obtain ⟨minerReward, hminer⟩ := c.exists_minerReward (height - bestPublication) score blockReward
        simp only [hminer, Option.bind_some, ih]

section Block

variable {b b' : BlockIndex AltAddon} (hb : b.Reordered b')

include hb

omit hsame in
theorem endorsedBy_perm : (endorsedBy b').Perm (endorsedBy b) := by
  obtain ⟨l, hperm, haddon⟩ := hb.addon
  unfold endorsedBy
  rw [haddon]
  exact hperm

theorem getBestPublicationHeight_eq : c'.getBestPublicationHeight b' = c.getBestPublicationHeight b := by
  unfold getBestPublicationHeight
  rw [nearerPublication_eq hsame]
  exact (endorsedBy_perm hb).foldl_eq _

theorem scoreFromEndorsements_eq : c'.scoreFromEndorsements b' = c.scoreFromEndorsements b := by
  unfold scoreFromEndorsements
  rw [getBestPublicationHeight_eq hsame hb, addMultiplier_eq hsame]
  simp only
  split
  . rfl
  . exact (endorsedBy_perm hb).foldl_eq _

end Block

theorem addScores_eq (n : Nat) (currentBlock : Option Hash) (difficulty : PopRewardsBigDecimal) :
    c'.addScores n currentBlock difficulty = c.addScores n currentBlock difficulty := by
  induction n generalizing currentBlock difficulty with
  | zero => rfl
  | succ n ih =>
    cases currentBlock with
    | none => rfl
    | some h =>
      unfold addScores
      obtain ⟨hb, hb'⟩ | ⟨b, b', hb, hb', hblock⟩ := hsame.alt.find? h
      . simp only [Option.bind_some, hb, hb']
      . have hpprev : b'.pprev = b.pprev := by rw [hblock.block]
        simp only [Option.bind_some, hb, hb', scoreFromEndorsements_eq hsame hblock, hpprev, ih]

variable {b b' : BlockIndex AltAddon}

theorem calculateDifficulty_eq (hb : b.Reordered b') : c'.calculateDifficulty b' = c.calculateDifficulty b := by
  have hpprev : b'.pprev = b.pprev := by rw [hb.block]
  unfold calculateDifficulty
  simp only [addScores_eq hsame, hpprev, hsame.params]

theorem payouts?_calculatePayouts_eq (hb : b.Reordered b') (rewards : PopPayouts) :
    (c'.calculatePayouts b' rewards).map PayoutsResult.payouts? =
      (c.calculatePayouts b rewards).map PayoutsResult.payouts? := by
  have hheight : b'.height = b.height := by rw [hb.block]
  unfold calculatePayouts
  rw [calculateDifficulty_eq hsame hb, scoreFromEndorsements_eq hsame hb]
  cases c.calculateDifficulty b with
  | none => rfl
  | some popDifficulty =>
    rw [Option.bind_some, Option.bind_some]
    unfold calculatePayoutsInner
    simp only [getBestPublicationHeight_eq hsame hb, calculateBlockReward_eq hsame, hheight]
    split
    . rfl
    . cases c.calculateBlockReward b.height (c.scoreFromEndorsements b) popDifficulty with
      | none => rfl
      | some blockReward =>
        rw [Option.bind_some, Option.bind_some, payEndorsements_eq hsame]
        exact c.payouts?_payEndorsements_perm _ _ _ (endorsedBy_perm hb) rewards

theorem payouts_independent_of_order {h : Hash} (hb : c.alt.find? h = some b) (hb' : c'.alt.find? h = some b')
    (rewards : PopPayouts) :
    c'.scoreFromEndorsements b' = c.scoreFromEndorsements b ∧
    c'.calculateDifficulty b' = c.calculateDifficulty b ∧
    (c'.calculatePayouts b' rewards).map PayoutsResult.payouts? =
      (c.calculatePayouts b rewards).map PayoutsResult.payouts? := by
  have hblock : b.Reordered b' := by
    have hblocks := hsame.alt.blocks h
    rw [hb, hb'] at hblocks
    cases hblocks with
    | some hblock => exact hblock
  exact ⟨scoreFromEndorsements_eq hsame hblock, calculateDifficulty_eq hsame hblock,
    payouts?_calculatePayouts_eq hsame hblock rewards⟩

end Main

section Sample

/-- The sample with its block endorsed in this order -/
def sampleBlockOf (endorsements : List Endorsement) : BlockIndex AltAddon :=
  { sampleBlock with addon := { popState := { endorsedBy := endorsements } } }

def sampleOf (endorsements : List Endorsement) : DefaultPopRewardsCalculator :=
  { sample with alt := { sample.alt with blocks := Store.empty.insert 9 (sampleBlockOf endorsements) } }

theorem sampleOf_sameButOrder {endorsements endorsements' : List Endorsement} (h : endorsements'.Perm endorsements) :
    (sampleOf endorsements).Reordered (sampleOf endorsements') where
  params := rfl
  keystoneInterval := rfl
  alt := {
    activeTip := rfl
    blocks := by
      intro x
      unfold sampleOf Tree.find?
      simp only [Store.find?_insert]
      split
      . exact Option.Rel.some ⟨rfl, endorsements', h, rfl⟩
      . exact Option.Rel.none }
  vbk := {
    activeTip := rfl
    blocks := by
      intro x
      cases hb : (sampleOf endorsements).vbk.find? x with
      | none =>
        change Option.Rel _ _ ((sampleOf endorsements).vbk.find? x)
        rw [hb]
        exact Option.Rel.none
      | some b =>
        change Option.Rel _ _ ((sampleOf endorsements).vbk.find? x)
        rw [hb]
        exact Option.Rel.some ⟨rfl, _, List.Perm.refl _, rfl⟩ }
  getATV _ := rfl

theorem payouts_independent_of_order_swapped :
    (sampleOf [⟨2, 9, 10, 1⟩, ⟨1, 9, 10, 1⟩]).calculateDifficulty (sampleBlockOf [⟨2, 9, 10, 1⟩, ⟨1, 9, 10, 1⟩]) =
      (sampleOf [⟨1, 9, 10, 1⟩, ⟨2, 9, 10, 1⟩]).calculateDifficulty (sampleBlockOf [⟨1, 9, 10, 1⟩, ⟨2, 9, 10, 1⟩]) :=
  (payouts_independent_of_order (h := 9) (sampleOf_sameButOrder (List.Perm.swap _ _ _)) rfl rfl .empty).2.1

end Sample

end DefaultPopRewardsCalculator

end AltIntegration
