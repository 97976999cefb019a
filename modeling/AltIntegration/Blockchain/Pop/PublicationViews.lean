import AltIntegration.Blockchain.Runs

/-!
This module contains what `comparePopScoreImpl` decides: the verdict does not depend on which of the two
chains comes first, and the loop may stop early without changing the winner.
-/

namespace AltIntegration

namespace PopScores

variable (p : PopParams)

/-- The scores with the two chains exchanged. -/
def swap (s : PopScores) : PopScores where
  aOutsideFinality := s.bOutsideFinality
  bOutsideFinality := s.aOutsideFinality
  chainAscore := s.chainBscore
  chainBscore := s.chainAscore
  previousPublicationA := s.previousPublicationB
  previousPublicationB := s.previousPublicationA

/-- What is added up so far, from the side of chain A. -/
def difference (s : PopScores) : Int := s.chainAscore - s.chainBscore

theorem difference_swap (s : PopScores) : s.swap.difference = -s.difference := by
  simp only [difference, swap]
  omega

theorem compareKeystone_swap (s : PopScores) (a b : Option Nat) :
    s.swap.compareKeystone p b a = ((s.compareKeystone p a b).1.swap, (s.compareKeystone p a b).2) := by
  cases a with
  | none =>
    cases b with
    | none => simp [compareKeystone, swap, Bool.and_comm]
    | some b => rfl
  | some a =>
    cases b with
    | none => rfl
    | some b => simp [compareKeystone, swap, Nat.min_comm]

theorem step_swap (s : PopScores) (a b : Option Nat) :
    s.swap.step p b a = ((s.step p a b).1.swap, (s.step p a b).2) := by
  simp only [step]
  rw [← compareKeystone_swap]
  rfl

end PopScores

section Views

variable {A B : Type} [PopAddon A] (p : PopParams) (ed : Tree A) (ing : Tree B)

omit [PopAddon A] in
theorem referencedBy_error {chain : List Hash} {es : List Endorsement} {e : Assertion}
    (h : referencedBy ed ing chain es = .error e) : e = .publicationView := by
  induction es with
  | nil => cases h
  | cons x es ih =>
    simp only [referencedBy] at h
    split at h
    . cases h
      rfl
    . split at h
      . exact ih h
      . split at h
        . cases h
          rfl
        . split at h
          . exact ih h
          . cases hr : referencedBy ed ing chain es with
            | error e' =>
              rw [hr] at h
              cases h
              exact ih hr
            | ok refs =>
              rw [hr] at h
              cases h

theorem getProtoKeystoneContext_error {chain : List Hash} {n first : Nat} {e : Assertion}
    (h : getProtoKeystoneContext ed ing chain n first = .error e) : e = .publicationView := by
  induction n generalizing first with
  | zero => cases h
  | succ n ih =>
    simp only [getProtoKeystoneContext] at h
    split at h
    . cases h
      rfl
    . split at h
      . next hr =>
        cases h
        exact referencedBy_error ed ing hr
      . cases hr : getProtoKeystoneContext ed ing chain n (first + 1) with
        | error e' =>
          rw [hr] at h
          cases h
          exact ih hr
        | ok refs =>
          rw [hr] at h
          cases h

namespace ReducedPublicationView

/-- The assertion that fails at a height does not depend on the view. -/
theorem getKeystone_error {v : ReducedPublicationView} {height : Nat} {e : Assertion}
    (h : v.getKeystone p ed ing height = .error e) :
    e = if isKeystone height p.keystoneInterval then .publicationView else .keystone := by
  simp only [getKeystone] at h
  split at h
  . next hk =>
    cases h
    simp only [Bool.not_eq_eq_eq_not, Bool.not_true] at hk
    simp [hk]
  . next hk =>
    simp only [Bool.not_eq_true, Bool.not_eq_false'] at hk
    rw [if_pos hk]
    split at h
    . cases h
    . split at h
      . next tip keystone _ _ =>
        cases hr : getProtoKeystoneContext ed ing v.chain
          (min (highestBlockWhichConnectsKeystoneToPrevious height p.keystoneInterval) (ed.heightOf tip) + 1 - height)
          height with
        | error e' =>
          rw [hr] at h
          cases h
          exact getProtoKeystoneContext_error ed ing hr
        | ok refs =>
          rw [hr] at h
          cases h
      . cases h
        rfl

theorem getKeystoneUnless_error {v : ReducedPublicationView} {outside : Bool} {height : Nat} {e : Assertion}
    (h : v.getKeystoneUnless p ed ing outside height = .error e) :
    e = if isKeystone height p.keystoneInterval then .publicationView else .keystone := by
  simp only [getKeystoneUnless] at h
  split at h
  . cases h
  . exact getKeystone_error p ed ing h

end ReducedPublicationView

open ReducedPublicationView

theorem comparePopScoreLoop_swap (a b : ReducedPublicationView) (n keystone : Nat) (s : PopScores) :
    comparePopScoreLoop p ed ing b a n keystone s.swap =
      (comparePopScoreLoop p ed ing a b n keystone s).map (fun x => -x) := by
  induction n generalizing keystone s with
  | zero =>
    simp only [comparePopScoreLoop, Except.map]
    exact congrArg Except.ok s.difference_swap
  | succ n ih =>
    simp only [comparePopScoreLoop, bind, Except.bind]
    have haswap : s.swap.aOutsideFinality = s.bOutsideFinality := rfl
    have hbswap : s.swap.bOutsideFinality = s.aOutsideFinality := rfl
    rw [haswap, hbswap]
    cases ha : a.getKeystoneUnless p ed ing s.aOutsideFinality keystone with
    | error e =>
      cases hb : b.getKeystoneUnless p ed ing s.bOutsideFinality keystone with
      | error e' =>
        rw [getKeystoneUnless_error p ed ing ha, getKeystoneUnless_error p ed ing hb]
        rfl
      | ok bctx => rfl
    | ok actx =>
      cases hb : b.getKeystoneUnless p ed ing s.bOutsideFinality keystone with
      | error e' => rfl
      | ok bctx =>
        simp only [PopScores.step_swap]
        split
        . exact ih _ _
        . exact congrArg Except.ok (PopScores.difference_swap _)

/-- Whichever chain comes first, the verdict is the same, or the same assertion fails. -/
theorem comparePopScoreImpl_swap (a b : ReducedPublicationView) :
    comparePopScoreImpl p ed ing b a = (comparePopScoreImpl p ed ing a b).map (fun x => -x) := by
  simp only [comparePopScoreImpl]
  cases a.empty p with
  | true =>
    cases b.empty p with
    | true => rfl
    | false => rfl
  | false =>
    cases b.empty p with
    | true => rfl
    | false =>
      simp only [Bool.and_self, Bool.false_eq_true, ↓reduceIte]
      by_cases hfirst : a.firstKeystone = b.firstKeystone
      . rw [if_neg (by simp [hfirst]), if_neg (by simp [hfirst]), hfirst, Nat.max_comm]
        exact comparePopScoreLoop_swap p ed ing a b _ _ {}
      . rw [if_pos (fun h => hfirst h.symm), if_pos hfirst]
        rfl

/-- The loop of `comparePopScoreImpl` without its breaks. -/
def comparePopScoreLoopWithoutBreaks (a b : ReducedPublicationView) :
    Nat → Nat → PopScores → Except Assertion Int
  | 0, _, s => .ok (s.chainAscore - s.chainBscore)
  | n + 1, keystone, s => do
    let actx ← a.getKeystoneUnless p ed ing s.aOutsideFinality keystone
    let bctx ← b.getKeystoneUnless p ed ing s.bOutsideFinality keystone
    comparePopScoreLoopWithoutBreaks a b n (keystone + p.keystoneInterval) (s.step p actx bctx).1

/-- The difference of the scores over all keystones, from the first one to the last one of either chain. -/
def scoreDifference (a b : ReducedPublicationView) : Except Assertion Int :=
  comparePopScoreLoopWithoutBreaks p ed ing a b
    ((max a.lastKeystone b.lastKeystone + p.keystoneInterval - a.firstKeystone) / p.keystoneInterval)
    a.firstKeystone {}

end Views

namespace PopScores

variable (p : PopParams)

/-- What the loop knows when it stops early: neither chain gains any more, or only the one ahead does. -/
inductive Settled (s : PopScores) : Prop where
  | both (ha : s.aOutsideFinality = true) (hb : s.bOutsideFinality = true)
  | aBehind (ha : s.aOutsideFinality = true) (hdiff : s.difference < 0)
  | bBehind (hb : s.bOutsideFinality = true) (hdiff : 0 < s.difference)

theorem consensusScore_nonneg (relativeBlock : Nat) : 0 ≤ p.consensusScore relativeBlock := by
  simp only [PopParams.consensusScore]
  cases p.forkResolutionLookUpTable[relativeBlock]? with
  | none => exact Int.le_refl 0
  | some score => exact Int.natCast_nonneg score

theorem Settled.swap {s : PopScores} (h : Settled s) : Settled s.swap := by
  have hdiff := s.difference_swap
  cases h with
  | both ha hb => exact .both hb ha
  | aBehind ha h => exact .bBehind ha (by omega)
  | bBehind hb h => exact .aBehind hb (by omega)

theorem compareKeystone_stops {s : PopScores} {a b : Option Nat} (h : (s.compareKeystone p a b).2 = false) :
    Settled (s.compareKeystone p a b).1 := by
  cases a with
  | none =>
    cases b with
    | none =>
      simp only [compareKeystone, Bool.not_eq_false', Bool.and_eq_true] at h
      exact .both h.1 h.2
    | some b =>
      simp only [compareKeystone, Bool.not_eq_false', decide_eq_true_eq] at h
      apply Settled.aBehind rfl
      simp only [compareKeystone, difference]
      omega
  | some a =>
    cases b with
    | none =>
      simp only [compareKeystone, Bool.not_eq_false', decide_eq_true_eq] at h
      apply Settled.bBehind rfl
      simp only [compareKeystone, difference]
      omega
    | some b => cases h

/-- Chain A has no keystones any more, so it gains nothing. -/
theorem step_none (s : PopScores) (b : Option Nat) :
    (s.step p none b).1.difference ≤ s.difference ∧
      (s.aOutsideFinality = true → (s.step p none b).1.aOutsideFinality = true) := by
  have hnonneg := consensusScore_nonneg p 0
  simp only [step, Option.isSome_none, Bool.false_and, Bool.false_eq_true, ↓reduceIte, Bool.or_false]
  cases (if (b.isSome && p.publicationViolatesFinality (b.getD noEndorsement) s.previousPublicationB) = true then none
    else b) with
  | none => exact ⟨Int.le_refl _, id⟩
  | some h =>
    apply And.intro
    . simp only [compareKeystone, difference]
      omega
    . intro _
      rfl

theorem step_none_none (s : PopScores) (ha : s.aOutsideFinality = true) (hb : s.bOutsideFinality = true) :
    (s.step p none none).1.difference = s.difference ∧ (s.step p none none).1.aOutsideFinality = true ∧
      (s.step p none none).1.bOutsideFinality = true := by
  simp [step, compareKeystone, difference, ha, hb]

/-- A chain outside of finality has no keystones; whatever the other one has, the winner stays. -/
theorem Settled.step {s : PopScores} (h : Settled s) {a b : Option Nat} (ha : s.aOutsideFinality = true → a = none)
    (hb : s.bOutsideFinality = true → b = none) :
    Settled (s.step p a b).1 ∧ (s.step p a b).1.difference.sign = s.difference.sign := by
  cases h with
  | both hout hout' =>
    rw [ha hout, hb hout']
    have hstep := step_none_none p s hout hout'
    exact ⟨.both hstep.2.1 hstep.2.2, by rw [hstep.1]⟩
  | aBehind hout hdiff =>
    rw [ha hout]
    have hstep := step_none p s b
    have hneg : (s.step p none b).1.difference < 0 := by omega
    rw [Int.sign_eq_neg_one_of_neg hneg, Int.sign_eq_neg_one_of_neg hdiff]
    exact ⟨.aBehind (hstep.2 hout) hneg, rfl⟩
  | bBehind hout hdiff =>
    rw [hb hout]
    have hstep := step_none p s.swap a
    rw [step_swap, difference_swap, difference_swap] at hstep
    have hpos : 0 < (s.step p a none).1.difference := by omega
    rw [Int.sign_eq_one_of_pos hpos, Int.sign_eq_one_of_pos hdiff]
    exact ⟨.bBehind (hstep.2 hout) hpos, rfl⟩

end PopScores

section Views

variable {A B : Type} [PopAddon A] (p : PopParams) (ed : Tree A) (ing : Tree B)

open ReducedPublicationView PopScores

theorem getKeystoneUnless_outside {v : ReducedPublicationView} {outside : Bool} {height : Nat} {ctx : Option Nat}
    (h : v.getKeystoneUnless p ed ing outside height = .ok ctx) (hout : outside = true) : ctx = none := by
  simp only [getKeystoneUnless, hout, ↓reduceIte] at h
  cases h
  rfl

theorem PopScores.Settled.withoutBreaks {a b : ReducedPublicationView} {n keystone : Nat} {s : PopScores} (hs : Settled s)
    {x : Int} (h : comparePopScoreLoopWithoutBreaks p ed ing a b n keystone s = .ok x) :
    x.sign = s.difference.sign := by
  induction n generalizing keystone s with
  | zero =>
    cases h
    rfl
  | succ n ih =>
    simp only [comparePopScoreLoopWithoutBreaks, bind, Except.bind] at h
    split at h
    . cases h
    . next ha =>
      split at h
      . cases h
      . next hb =>
        have hstep := hs.step p (getKeystoneUnless_outside p ed ing ha) (getKeystoneUnless_outside p ed ing hb)
        rw [ih hstep.1 h, hstep.2]

theorem comparePopScoreLoop_sign {a b : ReducedPublicationView} {n keystone : Nat} {s : PopScores} {x : Int}
    (h : comparePopScoreLoopWithoutBreaks p ed ing a b n keystone s = .ok x) :
    ∃ y, comparePopScoreLoop p ed ing a b n keystone s = .ok y ∧ y.sign = x.sign := by
  induction n generalizing keystone s with
  | zero =>
    cases h
    exact ⟨_, rfl, rfl⟩
  | succ n ih =>
    simp only [comparePopScoreLoopWithoutBreaks, bind, Except.bind] at h
    simp only [comparePopScoreLoop, bind, Except.bind]
    cases ha : a.getKeystoneUnless p ed ing s.aOutsideFinality keystone with
    | error e =>
      rw [ha] at h
      cases h
    | ok actx =>
      cases hb : b.getKeystoneUnless p ed ing s.bOutsideFinality keystone with
      | error e =>
        rw [ha, hb] at h
        cases h
      | ok bctx =>
        rw [ha, hb] at h
        dsimp only at h ⊢
        cases hgo : (s.step p actx bctx).2 with
        | true =>
          rw [if_pos rfl]
          exact ih h
        | false =>
          rw [if_neg Bool.false_ne_true]
          have hsettled : Settled (s.step p actx bctx).1 := compareKeystone_stops p hgo
          exact ⟨_, rfl, (hsettled.withoutBreaks p ed ing h).symm⟩

omit [PopAddon A] in
theorem getKeystoneContext_le (timestampOfEndorsedBlock : Nat) (referencedByBlocks : List Hash) :
    getKeystoneContext p ing timestampOfEndorsedBlock referencedByBlocks ≤ noEndorsement := by
  induction referencedByBlocks with
  | nil => exact Nat.le_refl _
  | cons h l ih =>
    simp only [getKeystoneContext]
    split
    . exact ih
    . split
      . omega
      . exact (Nat.min_le_left _ _).trans ih

theorem getKeystone_le {v : ReducedPublicationView} {height publication : Nat}
    (h : v.getKeystone p ed ing height = .ok (some publication)) : publication ≤ noEndorsement := by
  simp only [getKeystone] at h
  split at h
  . cases h
  . split at h
    . cases h
    . split at h
      . next tip keystone _ _ =>
        cases hr : getProtoKeystoneContext ed ing v.chain
          (min (highestBlockWhichConnectsKeystoneToPrevious height p.keystoneInterval) (ed.heightOf tip) + 1 - height)
          height with
        | error e =>
          rw [hr] at h
          cases h
        | ok refs =>
          rw [hr] at h
          cases h
          exact getKeystoneContext_le p ing _ _
      . cases h

/-- A height has a keystone in a view just when it is one of its keystones. -/
theorem isSome_getKeystone {v : ReducedPublicationView} {height : Nat} {ctx : Option Nat}
    (h : v.getKeystone p ed ing height = .ok ctx) :
    ctx.isSome = (decide (v.firstKeystone ≤ height) && decide (height ≤ v.lastKeystone)) := by
  simp only [getKeystone] at h
  split at h
  . cases h
  . split at h
    . next hout =>
      cases h
      simp only [Bool.or_eq_true, decide_eq_true_eq] at hout
      simp only [Option.isSome_none, Bool.false_eq, Bool.and_eq_false_iff, decide_eq_false_iff_not]
      omega
    . next hin =>
      simp only [Bool.or_eq_true, decide_eq_true_eq] at hin
      split at h
      . next tip keystone _ _ =>
        cases hr : getProtoKeystoneContext ed ing v.chain
          (min (highestBlockWhichConnectsKeystoneToPrevious height p.keystoneInterval) (ed.heightOf tip) + 1 - height)
          height with
        | error e =>
          rw [hr] at h
          cases h
        | ok refs =>
          rw [hr] at h
          cases h
          simp only [Option.isSome_some, Bool.true_eq, Bool.and_eq_true, decide_eq_true_eq]
          omega
      . cases h

/-- A view of a chain slice that does not end below its first block. -/
def ReducedPublicationView.OfSlice (v : ReducedPublicationView) : Prop :=
  ∃ chain first tip, first ≤ tip ∧ v = reducedPublicationView p chain first tip

theorem firstKeystoneAfter_eq {height interval : Nat} (h : 0 < interval) :
    firstKeystoneAfter height interval = (height / interval + 1) * interval := by
  have hdiv := Nat.div_add_mod' height interval
  have hmod := Nat.mod_lt height h
  simp only [firstKeystoneAfter, isKeystone, decide_eq_true_eq]
  rw [Nat.add_mul, Nat.one_mul]
  split
  . omega
  . omega

variable {p}

/-- An empty view has its last keystone below its first one. -/
theorem ReducedPublicationView.OfSlice.empty_iff {v : ReducedPublicationView} (hv : v.OfSlice p)
    (h : 0 < p.keystoneInterval) : v.empty p = true ↔ v.lastKeystone < v.firstKeystone := by
  obtain ⟨chain, first, tip, hle, rfl⟩ := hv
  simp only [reducedPublicationView, ReducedPublicationView.empty, firstKeystoneAfter_eq h, highestKeystoneAtOrBefore_eq,
    Nat.mul_div_cancel _ h, decide_eq_true_eq, Nat.mul_lt_mul_right h]
  have := Nat.div_le_div_right (c := p.keystoneInterval) hle
  omega

/-- At the first keystone, only the chain that has it gains. -/
theorem PopScores.settled_first {publication : Nat} (h : publication ≤ noEndorsement) (hscore : 0 < p.consensusScore 0) :
    Settled (PopScores.step p {} none (some publication)).1 ∧
      (PopScores.step p {} none (some publication)).1.difference.sign = -1 := by
  have hviolates : p.publicationViolatesFinality publication noEndorsement = false := by
    simp only [PopParams.publicationViolatesFinality, decide_eq_false_iff_not]
    omega
  have hdiff : (PopScores.step p {} none (some publication)).1.difference = -p.consensusScore 0 := by
    simp [step, hviolates, compareKeystone, difference]
  rw [hdiff, Int.sign_eq_neg_one_of_neg (by omega)]
  exact ⟨.aBehind (by simp [step, hviolates, compareKeystone]) (by omega), rfl⟩

/-- A chain without keystones is behind one that has some. -/
theorem scoreDifference_of_empty {a b : ReducedPublicationView} (hki : 0 < p.keystoneInterval)
    (hscore : 0 < p.consensusScore 0) (hfirst : a.firstKeystone = b.firstKeystone) {x : Int}
    (h : scoreDifference p ed ing a b = .ok x) :
    (a.lastKeystone < a.firstKeystone → b.firstKeystone ≤ b.lastKeystone → x.sign = -1) ∧
      (a.firstKeystone ≤ a.lastKeystone → b.lastKeystone < b.firstKeystone → x.sign = 1) := by
  rw [← and_imp, ← and_imp]
  simp only [scoreDifference] at h
  cases hn : (max a.lastKeystone b.lastKeystone + p.keystoneInterval - a.firstKeystone) / p.keystoneInterval with
  | zero =>
    have := (Nat.div_eq_zero_iff_lt hki).mp hn
    omega
  | succ n =>
    rw [hn] at h
    simp only [comparePopScoreLoopWithoutBreaks, bind, Except.bind, getKeystoneUnless, Bool.false_eq_true,
      ↓reduceIte] at h
    cases ha : a.getKeystone p ed ing a.firstKeystone with
    | error e =>
      rw [ha] at h
      cases h
    | ok actx =>
      cases hb : b.getKeystone p ed ing a.firstKeystone with
      | error e =>
        rw [ha, hb] at h
        cases h
      | ok bctx =>
        rw [ha, hb] at h
        dsimp only at h
        have hactx := isSome_getKeystone p ed ing ha
        have hbctx := isSome_getKeystone p ed ing hb
        rw [hfirst] at hactx hbctx
        simp only [Nat.le_refl, decide_true, Bool.true_and] at hactx hbctx
        apply And.intro
        . intro hempty
          have hsomeb : bctx.isSome = true := by simp [hbctx, hempty.2]
          have hnonea : actx = none := by
            rw [← Option.not_isSome_iff_eq_none, hactx]
            simp only [decide_eq_true_eq]
            omega
          obtain ⟨publication, hpub⟩ := Option.isSome_iff_exists.mp hsomeb
          rw [hpub] at hb
          rw [hnonea, hpub] at h
          have hsettled := settled_first (getKeystone_le p ed ing hb) hscore
          rw [hsettled.1.withoutBreaks p ed ing h, hsettled.2]
        . intro hempty
          have hsomea : actx.isSome = true := by
            rw [hactx]
            simp only [decide_eq_true_eq]
            omega
          have hnoneb : bctx = none := by
            rw [← Option.not_isSome_iff_eq_none, hbctx]
            simp only [decide_eq_true_eq]
            omega
          obtain ⟨publication, hpub⟩ := Option.isSome_iff_exists.mp hsomea
          rw [hpub] at ha
          have hsettled := settled_first (getKeystone_le p ed ing ha) hscore
          have hstep := PopScores.step_swap p {} none (some publication)
          rw [hnoneb, hpub, show ({} : PopScores) = ({} : PopScores).swap from rfl, hstep] at h
          rw [hsettled.1.swap.withoutBreaks p ed ing h, difference_swap, Int.sign_neg, hsettled.2]
          rfl

/-- Neither chain is without keystones, or both are, or the first keystone counts. -/
def Comparable (p : PopParams) (a b : ReducedPublicationView) : Prop :=
  a.empty p = b.empty p ∨ 0 < p.consensusScore 0

end Views

namespace Small

/-- Every block is a keystone, and the first publication of one scores `score`. -/
def everyBlock (score : Nat) : PopParams :=
  { popParams with keystoneInterval := 1, forkResolutionLookUpTable := [score] }

def oneBlock : AltState := after [.acceptBlockHeader (altBlock 2 1 1)]

/-- The chain that ends where it forks off. -/
def shortView (score : Nat) : ReducedPublicationView := reducedPublicationView (everyBlock score) [1] 0 0

/-- A chain of one block, that is not published. -/
def longView (score : Nat) : ReducedPublicationView := reducedPublicationView (everyBlock score) [2, 1] 0 1

theorem ofSlice_shortView (score : Nat) : (shortView score).OfSlice (everyBlock score) := ⟨[1], 0, 0, by decide, rfl⟩

theorem ofSlice_longView (score : Nat) : (longView score).OfSlice (everyBlock score) := ⟨[2, 1], 0, 1, by decide, rfl⟩

end Small

end AltIntegration
