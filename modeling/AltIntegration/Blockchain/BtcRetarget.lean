import AltIntegration.Blockchain.BtcBlockchainUtil
import AltIntegration.Arith.CompactBits

/-!
This module compares the retargeting of `btc_blockchain_util.cpp` with Bitcoin's rule. The time that a period took
is a difference of unsigned numbers in the code, and of signed ones in Bitcoin.
-/

namespace AltIntegration

namespace BtcChainParams

variable {p : BtcChainParams}

section Rule

variable (p) (difficulty last first : Nat)

/-- The time that a period took, clamped -/
def signedTimespan : Nat :=
  (min (max ((last : Int) - first) (p.powTargetTimespan / 4 : Nat)) (p.powTargetTimespan * 4 : Nat)).toNat

/-- The same time as the code computes it, with numbers of 32 bits -/
def unsignedTimespan : Nat :=
  min (max ((last + Nat.pow 2 32 - first) % Nat.pow 2 32) (p.powTargetTimespan / 4)) (p.powTargetTimespan * 4)

/-- The target after a period of this time -/
def nextTarget (timespan : Nat) : Nat :=
  min (ArithUint256.magnitude difficulty * timespan / p.powTargetTimespan) p.powLimit

/-- Bitcoin's rule: the work that is required next, and nothing is lost on the way to it. -/
def FollowsRule (currentTip : Block) (firstBlockTime : Nat) : Prop :=
  p.calculateNextWorkRequired currentTip firstBlockTime =
      ArithUint256.toBits (p.nextTarget currentTip.difficulty (p.signedTimespan currentTip.timestamp firstBlockTime)) ∧
    ArithUint256.magnitude currentTip.difficulty * p.unsignedTimespan currentTip.timestamp firstBlockTime < ArithUint256.size

/-- What is asked of the parameters of a network that retargets. -/
structure Retargets : Prop where
  retargeting : p.powNoRetargeting = false
  timespan_pos : 0 < p.powTargetTimespan
  timespan_lt : p.powTargetTimespan * 4 < 2 ^ 32
  product_lt : p.powLimit * (p.powTargetTimespan * 4) < ArithUint256.size

instance : Decidable (FollowsRule p b n) := inferInstanceAs (Decidable (_ ∧ _))

end Rule

theorem retargets_main : main.Retargets := ⟨rfl, by decide, by decide, by decide⟩

theorem retargets_test : test.Retargets := ⟨rfl, by decide, by decide, by decide⟩

section Timespan

variable {last first : Nat}

theorem signedTimespan_of_le (h : first ≤ last) (hlast : last < 2 ^ 32) :
    p.signedTimespan last first = p.unsignedTimespan last first := by
  have hmod : (last + Nat.pow 2 32 - first) % Nat.pow 2 32 = last - first := by
    have hpow : Nat.pow 2 32 = 4294967296 := rfl
    rw [hpow]
    omega
  rw [signedTimespan, unsignedTimespan, hmod]
  omega

theorem signedTimespan_of_lt (h : last < first) : p.signedTimespan last first = p.powTargetTimespan / 4 := by
  rw [signedTimespan]
  omega

theorem le_unsignedTimespan (last first : Nat) : p.powTargetTimespan / 4 ≤ p.unsignedTimespan last first := by
  rw [unsignedTimespan]
  omega

theorem unsignedTimespan_le (last first : Nat) : p.unsignedTimespan last first ≤ p.powTargetTimespan * 4 :=
  Nat.min_le_right _ _

end Timespan

section Target

variable {currentTip : Block} {firstBlockTime : Nat}

theorem product_lt (hp : p.Retargets) (ht : ArithUint256.magnitude currentTip.difficulty ≤ p.powLimit)
    (firstBlockTime : Nat) :
    ArithUint256.magnitude currentTip.difficulty * p.unsignedTimespan currentTip.timestamp firstBlockTime <
      ArithUint256.size :=
  Nat.lt_of_le_of_lt (Nat.mul_le_mul ht (unsignedTimespan_le _ _)) hp.product_lt

theorem calculateNextWorkRequired_eq (hp : p.Retargets)
    (ht : ArithUint256.magnitude currentTip.difficulty ≤ p.powLimit) :
    p.calculateNextWorkRequired currentTip firstBlockTime = ArithUint256.toBits
      (p.nextTarget currentTip.difficulty (p.unsignedTimespan currentTip.timestamp firstBlockTime)) := by
  have hproduct := product_lt hp ht firstBlockTime
  have hfrom : ArithUint256.fromBits currentTip.difficulty = ArithUint256.magnitude currentTip.difficulty := by
    rw [ArithUint256.fromBits_eq, Nat.mod_eq_of_lt]
    apply Nat.lt_of_le_of_lt ht
    apply Nat.lt_of_le_of_lt _ hp.product_lt
    apply Nat.le_mul_of_pos_right
    have := hp.timespan_pos
    omega
  unfold calculateNextWorkRequired
  rw [hp.retargeting, if_neg Bool.false_ne_true, hfrom]
  change ArithUint256.toBits (min (_ * p.unsignedTimespan _ _ % _ / _) _) = _
  rw [Nat.mod_eq_of_lt hproduct]
  rfl

theorem nextTarget_mono (difficulty : Nat) {a b : Nat} (h : a ≤ b) : p.nextTarget difficulty a ≤ p.nextTarget difficulty b := by
  have hdiv := Nat.div_le_div_right (c := p.powTargetTimespan) (Nat.mul_le_mul_left (ArithUint256.magnitude difficulty) h)
  unfold nextTarget
  omega

theorem nextTarget_lt (hp : p.Retargets) (difficulty timespan : Nat) : p.nextTarget difficulty timespan < ArithUint256.size := by
  apply Nat.lt_of_le_of_lt (Nat.min_le_right _ _)
  apply Nat.lt_of_le_of_lt _ hp.product_lt
  apply Nat.le_mul_of_pos_right
  have := hp.timespan_pos
  omega

/-- The least timespan does not bring the target to the limit. -/
theorem nextTarget_least (hp : p.Retargets) {difficulty : Nat} (ht : ArithUint256.magnitude difficulty ≤ p.powLimit) :
    p.nextTarget difficulty (p.powTargetTimespan / 4) =
      ArithUint256.magnitude difficulty * (p.powTargetTimespan / 4) / p.powTargetTimespan := by
  have hle : ArithUint256.magnitude difficulty * (p.powTargetTimespan / 4) / p.powTargetTimespan ≤
      ArithUint256.magnitude difficulty := by
    rw [Nat.div_le_iff_le_mul_add_pred hp.timespan_pos]
    have hmul := Nat.mul_le_mul_left (ArithUint256.magnitude difficulty) (Nat.div_le_self p.powTargetTimespan 4)
    rw [Nat.mul_comm p.powTargetTimespan]
    omega
  unfold nextTarget
  omega

/-- No target that has a compact form tells the wrapped difference, last minus first plus `2 ^ 32`, from a quarter. -/
def NoTargetBetween (p : BtcChainParams) (difficulty last first : Nat) : Prop :=
  ¬∃ v, ArithUint256.Representable v ∧
    ArithUint256.magnitude difficulty * (p.powTargetTimespan / 4) / p.powTargetTimespan < v ∧
    v ≤ min (ArithUint256.magnitude difficulty *
      min (max (last + 2 ^ 32 - first) (p.powTargetTimespan / 4)) (p.powTargetTimespan * 4) / p.powTargetTimespan) p.powLimit

theorem unsignedTimespan_of_lt {last first : Nat} (h : last < first) (hfirst : first < 2 ^ 32) :
    p.unsignedTimespan last first =
      min (max (last + 2 ^ 32 - first) (p.powTargetTimespan / 4)) (p.powTargetTimespan * 4) := by
  have hmod : (last + Nat.pow 2 32 - first) % Nat.pow 2 32 = last + 2 ^ 32 - first := by
    have hpow : Nat.pow 2 32 = 4294967296 := rfl
    rw [hpow]
    omega
  rw [unsignedTimespan, hmod]

theorem followsRule_iff_of_retargets (hp : p.Retargets) (hlast : currentTip.timestamp < 2 ^ 32)
    (hfirst : firstBlockTime < 2 ^ 32) (ht : ArithUint256.magnitude currentTip.difficulty ≤ p.powLimit) :
    p.FollowsRule currentTip firstBlockTime ↔ firstBlockTime ≤ currentTip.timestamp ∨
      p.NoTargetBetween currentTip.difficulty currentTip.timestamp firstBlockTime := by
  have hproduct := product_lt hp ht firstBlockTime
  rw [FollowsRule, calculateNextWorkRequired_eq hp ht, and_iff_left hproduct]
  cases Nat.lt_or_ge currentTip.timestamp firstBlockTime with
  | inr hge =>
    rw [signedTimespan_of_le hge hlast]
    simp only [hge, true_or]
  | inl hlt =>
    have hleast := le_unsignedTimespan (p := p) currentTip.timestamp firstBlockTime
    have hmono := nextTarget_mono (p := p) currentTip.difficulty hleast
    rw [signedTimespan_of_lt hlt, eq_comm, ArithUint256.toBits_eq_iff hmono (nextTarget_lt hp _ _), nextTarget_least hp ht]
    simp only [Nat.not_le.mpr hlt, false_or]
    rw [NoTargetBetween, ← unsignedTimespan_of_lt hlt hfirst]
    rfl

end Target

section Bytes

/-- `calculateNextWorkRequired` on the bytes of the targets; `none` is an error of `ArithUint256`. -/
def calculateNextWorkBytes (p : BtcChainParams) (powLimit : Arith.ArithUint256) (difficulty last first : UInt32) :
    Option UInt32 :=
  if p.powNoRetargeting then
    some difficulty
  else
    let powTargetTimespan := UInt32.ofNat p.powTargetTimespan
    let nActualTimespan := last - first
    let nActualTimespan := if nActualTimespan < powTargetTimespan / 4 then powTargetTimespan / 4 else nActualTimespan
    let nActualTimespan := if powTargetTimespan * 4 < nActualTimespan then powTargetTimespan * 4 else nActualTimespan
    let bnNew := (Arith.ArithUint256.fromBits difficulty).target.scale nActualTimespan
    (bnNew.div (Arith.ArithUint256.ofUint64 powTargetTimespan.toNat)).bind (fun bnNew =>
      (if 0 < bnNew.compareTo powLimit then powLimit else bnNew).toBits false)

theorem toNat_ite_lt (w bound : UInt32) : (if w < bound then bound else w).toNat = max w.toNat bound.toNat := by
  split
  . next h =>
    rw [UInt32.lt_iff_toNat_lt] at h
    omega
  . next h =>
    rw [UInt32.lt_iff_toNat_lt] at h
    omega

theorem toNat_ite_gt (w bound : UInt32) : (if bound < w then bound else w).toNat = min w.toNat bound.toNat := by
  split
  . next h =>
    rw [UInt32.lt_iff_toNat_lt] at h
    omega
  . next h =>
    rw [UInt32.lt_iff_toNat_lt] at h
    omega

theorem toNat_powTargetTimespan (hp : p.Retargets) : (UInt32.ofNat p.powTargetTimespan).toNat = p.powTargetTimespan := by
  have hlt := hp.timespan_lt
  rw [UInt32.toNat_ofNat', Nat.mod_eq_of_lt (by omega)]

/-- The clamped difference of the code -/
theorem toNat_timespan (hp : p.Retargets) (last first : UInt32) :
    (if UInt32.ofNat p.powTargetTimespan * 4 <
          (if last - first < UInt32.ofNat p.powTargetTimespan / 4 then UInt32.ofNat p.powTargetTimespan / 4 else last - first)
      then UInt32.ofNat p.powTargetTimespan * 4
      else
        if last - first < UInt32.ofNat p.powTargetTimespan / 4 then UInt32.ofNat p.powTargetTimespan / 4
        else last - first).toNat =
      p.unsignedTimespan last.toNat first.toNat := by
  have hlt := hp.timespan_lt
  have hfirst := first.toNat_lt
  have hquarter : (UInt32.ofNat p.powTargetTimespan / 4).toNat = p.powTargetTimespan / 4 := by
    rw [UInt32.toNat_div, toNat_powTargetTimespan hp]
    rfl
  have hfour : (UInt32.ofNat p.powTargetTimespan * 4).toNat = p.powTargetTimespan * 4 := by
    rw [UInt32.toNat_mul, toNat_powTargetTimespan hp]
    exact Nat.mod_eq_of_lt hlt
  have hsub : (last - first).toNat = (last.toNat + Nat.pow 2 32 - first.toNat) % Nat.pow 2 32 := by
    rw [UInt32.toNat_sub]
    congr 1
    have hpow : Nat.pow 2 32 = 2 ^ 32 := rfl
    omega
  rw [toNat_ite_gt, toNat_ite_lt, hquarter, hfour, hsub, unsignedTimespan]

/-- The work that is required next is computed on the bytes without an error. -/
theorem calculateNextWorkBytes_eq (hp : p.Retargets) {powLimit : Arith.ArithUint256} (hlimit : powLimit.value = p.powLimit)
    {currentTip : Block} {difficulty last first : UInt32} (hdifficulty : currentTip.difficulty = difficulty.toNat)
    (hlast : currentTip.timestamp = last.toNat) :
    (p.calculateNextWorkBytes powLimit difficulty last first).map UInt32.toNat =
      some (p.calculateNextWorkRequired currentTip first.toNat) := by
  have hspan := toNat_timespan hp last first
  unfold calculateNextWorkBytes calculateNextWorkRequired
  rw [hp.retargeting, if_neg Bool.false_ne_true, if_neg Bool.false_ne_true, hdifficulty, hlast]
  simp only
  generalize (if UInt32.ofNat p.powTargetTimespan * 4 < _ then _ else _ : UInt32) = span at hspan ⊢
  change _ = some (ArithUint256.toBits (min (_ * p.unsignedTimespan _ _ % _ / _) _))
  have htime : (Arith.ArithUint256.ofUint64 (UInt32.ofNat p.powTargetTimespan).toNat).value = p.powTargetTimespan := by
    have hlt := hp.timespan_lt
    rw [toNat_powTargetTimespan hp, Arith.ArithUint256.value_ofUint64_of_lt (by omega)]
  have hdiv := Arith.ArithUint256.div_eq (a := (Arith.ArithUint256.fromBits difficulty).target.scale span)
    (b := Arith.ArithUint256.ofUint64 (UInt32.ofNat p.powTargetTimespan).toNat)
  rw [htime, if_neg (Nat.ne_of_gt hp.timespan_pos), Arith.ArithUint256.value_scale, value_fromBits, hspan] at hdiv
  obtain ⟨q, hq, hvalue⟩ := Option.map_eq_some_iff.mp hdiv
  have hmin : (if 0 < q.compareTo powLimit then powLimit else q).value = min q.value p.powLimit := by
    rw [← hlimit]
    split
    . next h =>
      rw [Arith.ArithUint256.compareTo_pos_iff] at h
      omega
    . next h =>
      rw [Arith.ArithUint256.compareTo_pos_iff] at h
      omega
  rw [hq, Option.bind_some, toBits_eq, hmin, hvalue]
  rfl

/-- The word of a compact form after its shift to the right -/
def shiftedWord (n : Nat) : Nat := if n / 2 ^ 24 ≤ 3 then n % 2 ^ 23 / 256 ^ (3 - n / 2 ^ 24) else n % 2 ^ 23

theorem shiftedWord_eq_zero_iff (n : Nat) : shiftedWord n = 0 ↔ ArithUint256.magnitude n = 0 := by
  unfold shiftedWord ArithUint256.magnitude
  split
  . rfl
  . have hpow : 256 ^ (n / 2 ^ 24 - 3) ≠ 0 := Nat.ne_of_gt (Nat.pow_pos (by decide))
    rw [Nat.mul_eq_zero]
    simp only [hpow, or_false]

theorem shiftedWord_overflow_iff (n : Nat) :
    (shiftedWord n ≠ 0 ∧ (34 < n / 2 ^ 24 ∨ 0xff < shiftedWord n ∧ 33 < n / 2 ^ 24 ∨
      0xffff < shiftedWord n ∧ 32 < n / 2 ^ 24)) ↔ ArithUint256.size ≤ ArithUint256.magnitude n := by
  have hlt : n % 2 ^ 23 < 2 ^ 23 := Nat.mod_lt _ (by decide)
  unfold shiftedWord ArithUint256.magnitude
  split
  . next hs =>
    have hsize : 2 ^ 23 ≤ ArithUint256.size := by decide
    have hle := Nat.div_le_self (n % 2 ^ 23) (256 ^ (3 - n / 2 ^ 24))
    generalize n % 2 ^ 23 / 256 ^ (3 - n / 2 ^ 24) = q at hle ⊢
    omega
  . next hs => exact overflow_iff hlt (by omega)

/-- `getBlockProof` of a BTC header, on the bytes -/
theorem getBlockProof_bytes {block : Block} {difficulty : UInt32} (hdifficulty : block.difficulty = difficulty.toNat) :
    (Arith.ArithUint256.getBlockProof difficulty).map Arith.ArithUint256.value = some (getBlockProof block) := by
  have hlt := (Arith.ArithUint256.fromBits difficulty).target.value_lt
  have hdef : getBlockProof block =
      if shiftedWord difficulty.toNat ≠ 0 ∧ difficulty.toNat / 2 ^ 23 % 2 = 1 ∨
          (shiftedWord difficulty.toNat ≠ 0 ∧ (34 < difficulty.toNat / 2 ^ 24 ∨
            0xff < shiftedWord difficulty.toNat ∧ 33 < difficulty.toNat / 2 ^ 24 ∨
            0xffff < shiftedWord difficulty.toNat ∧ 32 < difficulty.toNat / 2 ^ 24)) ∨
          ArithUint256.fromBits difficulty.toNat = 0 then 0
      else (2 ^ 256 - 1 - ArithUint256.fromBits difficulty.toNat) / (ArithUint256.fromBits difficulty.toNat + 1) + 1 := by
    rw [getBlockProof, hdifficulty, ArithUint256.pow_eight_mul]
    rfl
  rw [getBlockProof_eq, hdef, negative_eq, overflow_eq_magnitude, ← value_fromBits, complement_div_add_one hlt]
  simp only [decide_eq_true_eq, shiftedWord_overflow_iff]
  simp only [Ne, shiftedWord_eq_zero_iff]

end Bytes

section Main

theorem followsRule_iff (hp : p = main ∨ p = test) {currentTip : Block} {firstBlockTime : Nat}
    (ht : ArithUint256.magnitude currentTip.difficulty ≤ p.powLimit) (hlast : currentTip.timestamp < 2 ^ 32)
    (hfirst : firstBlockTime < 2 ^ 32) :
    p.FollowsRule currentTip firstBlockTime ↔ firstBlockTime ≤ currentTip.timestamp ∨
      p.NoTargetBetween currentTip.difficulty currentTip.timestamp firstBlockTime := by
  cases hp with
  | inl hmain =>
    rw [hmain]
    exact followsRule_iff_of_retargets retargets_main hlast hfirst (hmain ▸ ht)
  | inr htest =>
    rw [htest]
    exact followsRule_iff_of_retargets retargets_test hlast hfirst (htest ▸ ht)

/-- The last block of a period, and a first one that is a second later -/
def lateFirst : Block where
  hash := 1
  previousBlock := 0
  height := 2015
  timestamp := 1300000000
  difficulty := 0x1b0404cb

theorem followsRule_iff_lateFirst : main.FollowsRule lateFirst 1300000000 ↔ 1300000000 ≤ lateFirst.timestamp ∨
    main.NoTargetBetween lateFirst.difficulty lateFirst.timestamp 1300000000 :=
  followsRule_iff (Or.inl rfl) (by decide) (by decide) (by decide)

theorem not_followsRule_lateFirst : ¬main.FollowsRule lateFirst 1300000001 := by
  decide +kernel

end Main

end BtcChainParams

end AltIntegration
