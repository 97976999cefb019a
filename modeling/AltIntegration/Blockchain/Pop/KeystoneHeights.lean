import AltIntegration.Blockchain.Pop.KeystoneUtil
import AltIntegration.Serde.Blocks

/-!
This module contains the keystones of a new VBK block: the functions of `keystone_util.cpp` with numbers of 32 bits,
and from `vbk_blockchain_util.cpp` the block template of the miner and `validateKeystones`.
-/

namespace AltIntegration

namespace KeystoneUtil

/-- A number of a block is signed, and the interval is not, so that the remainder is taken of unsigned numbers. -/
def highestKeystoneAtOrBefore (blockNumber : Int32) (keystoneInterval : UInt32) : Except Failure Int32 :=
  if blockNumber < 0 then
    .error .assertion
  else
    let diff := (blockNumber.toUInt32 % keystoneInterval).toInt32
    .ok (blockNumber - diff)

def isKeystone (blockNumber : Int32) (keystoneInterval : UInt32) : Except Failure Bool :=
  if blockNumber < 0 then
    .error .assertion
  else
    .ok (blockNumber.toUInt32 % keystoneInterval = 0)

def getPreviousKeystoneHeight (height : Int32) (keystoneInterval keystoneNum : UInt32) : Except Failure Int32 :=
  if height.toUInt32 ≤ 1 + keystoneNum * keystoneInterval then
    .ok 0
  else do
    let below := if ← isKeystone (height - 1) keystoneInterval then height - 2 else height - 1
    let keystone ← highestKeystoneAtOrBefore below keystoneInterval
    let ret := (keystone.toUInt32 - keystoneNum * keystoneInterval).toInt32
    pure (if ret < 0 then 0 else ret)

end KeystoneUtil

section Numbers

variable {x y : Int32} {u v : UInt32} {n : Nat}

/-- The number is `n`, and in the range where the signed and the unsigned type agree. -/
structure IsNat (x : Int32) (n : Nat) : Prop where
  eq : x.toInt = n
  lt : n < 2 ^ 31

theorem isNat_of_nonneg (h : 0 ≤ x.toInt) : IsNat x x.toInt.toNat := by
  have := x.toInt_lt
  constructor
  . omega
  . omega

theorem isNat_zero : IsNat 0 0 := ⟨rfl, by decide⟩

theorem IsNat.not_neg (h : IsNat x n) : ¬x < 0 := by
  have := h.eq
  rw [Int32.lt_iff_toInt_lt, Int32.toInt_zero]
  omega

theorem IsNat.toNat (h : IsNat x n) : x.toUInt32.toNat = n := by
  have heq := h.eq
  have := h.lt
  rw [← Int32.toInt_toBitVec, BitVec.toInt_eq_toNat_cond] at heq
  change x.toBitVec.toNat = n
  split at heq
  . omega
  . omega

theorem isNat_toInt32 (h : u.toNat < 2 ^ 31) : IsNat u.toInt32 u.toNat := by
  refine ⟨?_, h⟩
  rw [← Int32.toInt_toBitVec, UInt32.toBitVec_toInt32, BitVec.toInt_eq_toNat_of_lt]
  . rfl
  . change 2 * u.toNat < 2 ^ 32
    omega

theorem IsNat.sub {m : Nat} (hx : IsNat x n) (hy : IsNat y m) (hle : m ≤ n) : IsNat (x - y) (n - m) := by
  have hlt := hx.lt
  refine ⟨?_, by omega⟩
  rw [Int32.toInt_sub, hx.eq, hy.eq, Int.bmod_eq_of_le (by omega) (by omega)]
  omega

theorem IsNat.le_iff {m : Nat} (hx : IsNat x n) (hy : IsNat y m) : x ≤ y ↔ n ≤ m := by
  rw [Int32.le_iff_toInt_le, hx.eq, hy.eq]
  omega

theorem IsNat.lt_iff {m : Nat} (hx : IsNat x n) (hy : IsNat y m) : x < y ↔ n < m := by
  rw [Int32.lt_iff_toInt_lt, hx.eq, hy.eq]
  omega

theorem IsNat.eq_iff {m : Nat} (hx : IsNat x n) (hy : IsNat y m) : x = y ↔ n = m := by
  rw [← Int32.toInt_inj, hx.eq, hy.eq]
  omega

end Numbers

section Closed

/-- The last keystone that is not the previous block. -/
theorem highestKeystoneAtOrBefore_previous (height k : Nat) :
    highestKeystoneAtOrBefore (if isKeystone (height - 1) k then height - 2 else height - 1) k =
      (height - 2) / k * k := by
  split
  . rw [highestKeystoneAtOrBefore_eq]
  . next hnot =>
    rw [highestKeystoneAtOrBefore_eq]
    -- no multiple of the interval is passed
    rw [isKeystone, decide_eq_true_eq, ← Nat.dvd_iff_mod_eq_zero] at hnot
    cases Nat.lt_or_ge height 2 with
    | inl hlt =>
      have : height - 1 = 0 := by omega
      rw [this] at hnot
      exact absurd (Nat.dvd_zero k) hnot
    | inr hge =>
      have hsucc : height - 1 = (height - 2).succ := by omega
      rw [hsucc] at hnot ⊢
      rw [Nat.succ_div_of_not_dvd hnot]

theorem getPreviousKeystoneHeight_eq (height k n : Nat) :
    getPreviousKeystoneHeight height k n = k * ((height - 2) / k - n) := by
  rw [getPreviousKeystoneHeight]
  split
  . next hle =>
    have hdiv : (height - 2) / k ≤ n := by
      apply Nat.div_le_of_le_mul
      rw [Nat.mul_comm]
      omega
    rw [Nat.sub_eq_zero_of_le hdiv, Nat.mul_zero]
  . rw [highestKeystoneAtOrBefore_previous, Nat.mul_comm k, Nat.sub_mul]

/-- The closed form with a difference that may be negative. -/
theorem getPreviousKeystoneHeight_eq_max (height k n : Nat) :
    (getPreviousKeystoneHeight height k n : Int) =
      if 2 ≤ height then max 0 ((k : Int) * (((height : Int) - 2) / k - n)) else 0 := by
  rw [getPreviousKeystoneHeight_eq]
  split
  . next hle =>
    have hsub : (height : Int) - 2 = ((height - 2 : Nat) : Int) := by omega
    rw [hsub, ← Int.natCast_ediv]
    cases Nat.le_total n ((height - 2) / k) with
    | inl hge =>
      rw [← Int.natCast_sub hge, ← Int.natCast_mul]
      omega
    | inr hlt =>
      have hneg : (k : Int) * (((height - 2) / k : Nat) - n) ≤ 0 := by
        apply Int.mul_nonpos_of_nonneg_of_nonpos
        . omega
        . omega
      rw [Nat.sub_eq_zero_of_le hlt, Nat.mul_zero]
      omega
  . next hlt =>
    have hzero : height - 2 = 0 := by omega
    rw [hzero, Nat.zero_div, Nat.zero_sub, Nat.mul_zero]
    rfl

end Closed

namespace KeystoneUtil

variable {height : Int32} {k keystoneNum : UInt32} {n : Nat}

theorem isKeystone_eq (h : IsNat height n) : isKeystone height k = .ok (AltIntegration.isKeystone n k.toNat) := by
  rw [isKeystone, if_neg h.not_neg, AltIntegration.isKeystone]
  simp only [← UInt32.toNat_inj, UInt32.toNat_mod, h.toNat, UInt32.toNat_zero]

theorem highestKeystoneAtOrBefore_eq (h : IsNat height n) :
    ∃ keystone, highestKeystoneAtOrBefore height k = .ok keystone ∧
      IsNat keystone (AltIntegration.highestKeystoneAtOrBefore n k.toNat) := by
  have hmod : (height.toUInt32 % k).toNat = n % k.toNat := by rw [UInt32.toNat_mod, h.toNat]
  have hle := Nat.mod_le n k.toNat
  have hlt := h.lt
  refine ⟨_, if_neg h.not_neg, ?_⟩
  apply h.sub _ hle
  rw [← hmod]
  apply isNat_toInt32
  omega

/-- With numbers of 32 bits, the height is the one without a bound on the numbers. -/
theorem getPreviousKeystoneHeight_eq (h : IsNat height n) (hk : 0 < k.toNat)
    (hsmall : 1 + keystoneNum.toNat * k.toNat < 2 ^ 32) :
    ∃ result, getPreviousKeystoneHeight height k keystoneNum = .ok result ∧
      IsNat result (AltIntegration.getPreviousKeystoneHeight n k.toNat keystoneNum.toNat) := by
  have hmul : (keystoneNum * k).toNat = keystoneNum.toNat * k.toNat := by
    rw [UInt32.toNat_mul, Nat.mod_eq_of_lt (by omega)]
  have hbound : (1 + keystoneNum * k).toNat = 1 + keystoneNum.toNat * k.toNat := by
    rw [UInt32.toNat_add, hmul, UInt32.toNat_one, Nat.mod_eq_of_lt hsmall]
  rw [getPreviousKeystoneHeight, AltIntegration.getPreviousKeystoneHeight]
  simp only [UInt32.le_iff_toNat_le, hbound, h.toNat]
  split
  . exact ⟨0, rfl, isNat_zero⟩
  . next hgt =>
    have hlt := h.lt
    have h1 : IsNat (height - 1) (n - 1) := h.sub ⟨rfl, by decide⟩ (by omega)
    have h2 : IsNat (height - 2) (n - 2) := h.sub ⟨rfl, by decide⟩ (by omega)
    have hbelow : IsNat (if AltIntegration.isKeystone (n - 1) k.toNat then height - 2 else height - 1)
        (if AltIntegration.isKeystone (n - 1) k.toNat then n - 2 else n - 1) := by
      split
      . exact h2
      . exact h1
    obtain ⟨keystone, hkeystone, hnat⟩ := highestKeystoneAtOrBefore_eq (k := k) hbelow
    rw [isKeystone_eq h1]
    change ∃ result, (highestKeystoneAtOrBefore _ k >>= _) = _ ∧ _
    rw [hkeystone]
    have hprevious := highestKeystoneAtOrBefore_previous n k.toNat
    have hle : keystoneNum.toNat * k.toNat ≤ (n - 2) / k.toNat * k.toNat := by
      apply Nat.mul_le_mul_right
      rw [Nat.le_div_iff_mul_le hk]
      omega
    rw [← hprevious] at hle
    have hsub : (keystone.toUInt32 - keystoneNum * k).toNat =
        AltIntegration.highestKeystoneAtOrBefore (if AltIntegration.isKeystone (n - 1) k.toNat then n - 2 else n - 1)
          k.toNat - keystoneNum.toNat * k.toNat := by
      rw [UInt32.toNat_sub_of_le, hnat.toNat, hmul]
      rw [UInt32.le_iff_toNat_le, hmul, hnat.toNat]
      exact hle
    have hresult : IsNat (keystone.toUInt32 - keystoneNum * k).toInt32 _ := isNat_toInt32 (by
      have := hnat.lt
      omega)
    refine ⟨_, rfl, ?_⟩
    simp only [if_neg hresult.not_neg]
    rw [← hsub]
    exact hresult

end KeystoneUtil

namespace Serde.Blob

/-- `trimLE`: the last `m` bytes -/
def trimLE {n : Nat} (m : Nat) (h : m ≤ n) (b : Blob n) : Blob m where
  bytes := b.bytes.drop (n - m)
  size := by
    rw [List.length_drop, b.size]
    omega

end Serde.Blob

/-- `BlockIndex<VbkBlock>`: its header, and the height of a root or the block before it. -/
inductive VbkIndex where
  | root (height : Int32) (header : Serde.VbkBlock)
  | next (pprev : VbkIndex) (header : Serde.VbkBlock)

namespace VbkIndex

def getHeight : VbkIndex → Int32
  | root height _ => height
  | next pprev _ => pprev.getHeight + 1

def getHeader : VbkIndex → Serde.VbkBlock
  | root _ header => header
  | next _ header => header

def getAncestor (index : VbkIndex) (height : Int32) : Except Failure (Option VbkIndex) :=
  if height < 0 then
    .error .assertion
  else if index.getHeight < height then
    .ok none
  else
    match seek index with
    | none => .ok none
    | some ancestor => if ancestor.getHeight = height then .ok (some ancestor) else .error .assertion
where
  /-- The walk back over the blocks that are too high. -/
  seek : VbkIndex → Option VbkIndex
    | root h header => if height < h then none else some (root h header)
    | next pprev header => if height < (next pprev header).getHeight then seek pprev else some (next pprev header)

/-- The chain goes back to the block at the height 0, and the heights have 32 bits. -/
inductive KeptFromGenesis : VbkIndex → Prop where
  | root (header : Serde.VbkBlock) : KeptFromGenesis (root 0 header)
  | next {pprev : VbkIndex} {header : Serde.VbkBlock} (hp : KeptFromGenesis pprev)
    (hlt : pprev.getHeight.toInt + 1 < 2 ^ 31) : KeptFromGenesis (next pprev header)

end VbkIndex

section Keystones

/--
The keystone interval of `VbkChainParams`. The hash of a block, the time and the work that is required next are not
what keystones are about.
-/
structure VbkMinerParams where
  keystoneInterval : UInt32
  getHash : Serde.VbkBlock → Serde.Blob 24
  currentTimestamp4 : UInt32
  getNextWorkRequired : VbkIndex → Serde.VbkBlock → UInt32

variable (p : VbkMinerParams)

/-- The keystone `diff` blocks before the tip, which has to be there; none if the chain is not that long. -/
def templateKeystone (tip : VbkIndex) (diff : UInt32) : Except Failure (Serde.Blob 9) :=
  if diff.toInt32 ≤ tip.getHeight then do
    match ← tip.getAncestor (tip.getHeight.toUInt32 - diff).toInt32 with
    | none => throw .assertion
    | some prevKeystoneIndex => pure ((p.getHash prevKeystoneIndex.getHeader).trimLE 9 (by omega))
  else
    pure (Serde.Blob.zero 9)

/-- `getBlockTemplate` of the miner -/
def getBlockTemplate (tip : VbkIndex) (merkle : Serde.Blob 16) : Except Failure Serde.VbkBlock := do
  let diff := tip.getHeight.toUInt32 % p.keystoneInterval
  let diff := if diff = 0 then diff + p.keystoneInterval else diff
  let previousKeystone ← templateKeystone p tip diff
  let secondPreviousKeystone ← templateKeystone p tip (diff + p.keystoneInterval)
  let block : Serde.VbkBlock := {
    height := tip.getHeight + 1
    version := tip.getHeader.version
    previousBlock := (p.getHash tip.getHeader).trimLE 12 (by omega)
    previousKeystone := previousKeystone
    secondPreviousKeystone := secondPreviousKeystone
    merkleRoot := merkle
    timestamp := max tip.getHeader.timestamp p.currentTimestamp4
    difficulty := 0
    nonce := 0 }
  pure { block with difficulty := (p.getNextWorkRequired tip block).toInt32 }

/-- Whether a keystone is the one `diff` blocks before the tip, or zero if the chain is not that long. -/
def validateKeystone (prevBlock : VbkIndex) (diff : UInt32) (keystone : Serde.Blob 9) : Except Failure Bool :=
  if diff.toInt32 ≤ prevBlock.getHeight then do
    match ← prevBlock.getAncestor (prevBlock.getHeight.toUInt32 - diff).toInt32 with
    | none => pure false
    | some prevKeystoneIndex => pure ((p.getHash prevKeystoneIndex.getHeader).trimLE 9 (by omega) = keystone)
  else
    pure (keystone = Serde.Blob.zero 9)

def validateKeystones (prevBlock : VbkIndex) (block : Serde.VbkBlock) : Except Failure Bool := do
  let tipHeight := prevBlock.getHeight
  let diff := tipHeight.toUInt32 % p.keystoneInterval
  let diff := if diff = 0 then diff + p.keystoneInterval else diff
  if ← validateKeystone p prevBlock diff block.previousKeystone then
    validateKeystone p prevBlock (diff + p.keystoneInterval) block.secondPreviousKeystone
  else
    pure false

end Keystones

namespace VbkIndex

variable {tip : VbkIndex} {height : Int32} {n : Nat}

theorem KeptFromGenesis.nonneg (h : tip.KeptFromGenesis) : 0 ≤ tip.getHeight.toInt := by
  induction h with
  | root => exact Int.le_refl 0
  | next hp hlt ih =>
    rw [getHeight, Int32.toInt_add, Int32.toInt_one, Int.bmod_eq_of_le (by omega) (by omega)]
    omega

theorem KeptFromGenesis.isNat (h : tip.KeptFromGenesis) : IsNat tip.getHeight tip.getHeight.toInt.toNat :=
  isNat_of_nonneg h.nonneg

theorem KeptFromGenesis.seek (h : tip.KeptFromGenesis) (hnat : IsNat height n) (hle : n ≤ tip.getHeight.toInt.toNat) :
    ∃ ancestor, getAncestor.seek height tip = some ancestor ∧ ancestor.getHeight = height := by
  induction h with
  | root header =>
    have hzero : n = 0 := Nat.le_zero.mp hle
    rw [getAncestor.seek, if_neg hnat.not_neg]
    exact ⟨_, rfl, ((hnat.eq_iff isNat_zero).mpr hzero).symm⟩
  | @next pprev header hp hlt ih =>
    have hkept : (VbkIndex.next pprev header).KeptFromGenesis := .next hp hlt
    have hnext := hkept.isNat
    simp only [getAncestor.seek, hnat.lt_iff hnext]
    split
    . next hbelow =>
      apply ih
      have hnonneg := hp.nonneg
      rw [getHeight, Int32.toInt_add, Int32.toInt_one, Int.bmod_eq_of_le (by omega) (by omega)] at hbelow
      omega
    . next habove =>
      refine ⟨_, rfl, ?_⟩
      rw [hnext.eq_iff hnat]
      omega

/-- A chain that is kept from genesis has an ancestor at every height up to its own. -/
theorem KeptFromGenesis.getAncestor (h : tip.KeptFromGenesis) (hnat : IsNat height n)
    (hle : n ≤ tip.getHeight.toInt.toNat) :
    ∃ ancestor, tip.getAncestor height = .ok (some ancestor) ∧ ancestor.getHeight = height := by
  obtain ⟨ancestor, hseek, heq⟩ := h.seek hnat hle
  refine ⟨ancestor, ?_, heq⟩
  have hnot : ¬tip.getHeight < height := by
    rw [h.isNat.lt_iff hnat]
    omega
  rw [VbkIndex.getAncestor, if_neg hnat.not_neg, if_neg hnot, hseek]
  exact if_pos heq

end VbkIndex

section Keystones

variable {p : VbkMinerParams} {tip : VbkIndex} {diff : UInt32}

/-- The miner takes the keystone that is asked for. -/
theorem validateKeystone_template (p : VbkMinerParams) (h : tip.KeptFromGenesis) (hdiff : diff.toNat < 2 ^ 31) :
    ∃ keystone, templateKeystone p tip diff = .ok keystone ∧ validateKeystone p tip diff keystone = .ok true := by
  rw [templateKeystone]
  simp only [validateKeystone, (isNat_toInt32 hdiff).le_iff h.isNat]
  split
  . next hle =>
    have hheight := h.isNat.toNat
    have hsub : (tip.getHeight.toUInt32 - diff).toNat = tip.getHeight.toInt.toNat - diff.toNat := by
      rw [UInt32.toNat_sub_of_le, hheight]
      rw [UInt32.le_iff_toNat_le, hheight]
      exact hle
    have hlt := h.isNat.lt
    have hnat := isNat_toInt32 (u := tip.getHeight.toUInt32 - diff) (by omega)
    obtain ⟨ancestor, hancestor, _⟩ := h.getAncestor hnat (by omega)
    rw [hancestor]
    refine ⟨_, rfl, ?_⟩
    change Except.ok (decide _) = _
    rw [decide_eq_true rfl]
  . refine ⟨_, rfl, ?_⟩
    change Except.ok (decide _) = _
    rw [decide_eq_true rfl]

/-- What a block takes over from the template of a tip is accepted on this tip. -/
theorem validateKeystones_template (h : tip.KeptFromGenesis) (hpos : 1 ≤ p.keystoneInterval.toNat)
    (hsmall : 2 * p.keystoneInterval.toNat < 2 ^ 31) (merkle : Serde.Blob 16) :
    ∃ template, getBlockTemplate p tip merkle = .ok template ∧
      ∀ block : Serde.VbkBlock, block.previousKeystone = template.previousKeystone →
        block.secondPreviousKeystone = template.secondPreviousKeystone → validateKeystones p tip block = .ok true := by
  have hmod : (tip.getHeight.toUInt32 % p.keystoneInterval).toNat < p.keystoneInterval.toNat := by
    rw [UInt32.toNat_mod]
    exact Nat.mod_lt _ hpos
  unfold getBlockTemplate validateKeystones
  dsimp only
  generalize tip.getHeight.toUInt32 % p.keystoneInterval = remainder at hmod ⊢
  have hdiff : (if remainder = 0 then remainder + p.keystoneInterval else remainder).toNat ≤ p.keystoneInterval.toNat := by
    split
    . next hzero =>
      rw [hzero, UInt32.zero_add]
    . omega
  generalize (if remainder = 0 then remainder + p.keystoneInterval else remainder) = diff at hdiff ⊢
  have hfar : diff.toNat < 2 ^ 31 := by omega
  obtain ⟨first, hfirst, hvalid⟩ := validateKeystone_template p h hfar
  have hadd : (diff + p.keystoneInterval).toNat = diff.toNat + p.keystoneInterval.toNat := by
    rw [UInt32.toNat_add, Nat.mod_eq_of_lt (by omega)]
  have hfar' : (diff + p.keystoneInterval).toNat < 2 ^ 31 := by omega
  obtain ⟨second, hsecond, hvalid'⟩ := validateKeystone_template p h hfar'
  rw [hfirst]
  change ∃ template, (templateKeystone p tip (diff + p.keystoneInterval) >>= _) = _ ∧ _
  rw [hsecond]
  refine ⟨_, rfl, ?_⟩
  intro block hblock hblock'
  rw [hblock, hblock']
  change (validateKeystone p tip diff first >>= _) = _
  rw [hvalid]
  exact hvalid'

/--
Keystone heights have a closed form, and the miner of VBK blocks and the check of its blocks agree on them. All numbers
have 32 bits, and none of them overflows.
-/
theorem keystones_consistent :
    (∀ (height : Int32) (k n : UInt32), 0 ≤ height → 1 ≤ k → 1 + n.toNat * k.toNat < 2 ^ 32 →
      ∃ result, KeystoneUtil.getPreviousKeystoneHeight height k n = .ok result ∧
        result.toInt =
          if 2 ≤ height then max 0 ((k.toNat : Int) * ((height.toInt - 2) / k.toNat - n.toNat)) else 0) ∧
    ∀ (p : VbkMinerParams) (tip : VbkIndex) (merkle : Serde.Blob 16), tip.KeptFromGenesis →
      1 ≤ p.keystoneInterval → 2 * p.keystoneInterval.toNat < 2 ^ 31 →
      ∃ template, getBlockTemplate p tip merkle = .ok template ∧
        ∀ block : Serde.VbkBlock, block.previousKeystone = template.previousKeystone →
          block.secondPreviousKeystone = template.secondPreviousKeystone →
          validateKeystones p tip block = .ok true := by
  constructor
  . intro height k n hheight hk hsmall
    obtain ⟨m, hm⟩ : ∃ m, IsNat height m := by
      rw [Int32.le_iff_toInt_le, Int32.toInt_zero] at hheight
      exact ⟨_, isNat_of_nonneg hheight⟩
    rw [UInt32.le_iff_toNat_le, UInt32.toNat_one] at hk
    obtain ⟨result, hresult, hclosed⟩ := KeystoneUtil.getPreviousKeystoneHeight_eq hm hk hsmall
    have htwo : IsNat 2 2 := ⟨rfl, by decide⟩
    refine ⟨result, hresult, ?_⟩
    rw [hclosed.eq, getPreviousKeystoneHeight_eq_max]
    simp only [hm.eq, htwo.le_iff hm]
  . intro p tip merkle h hpos hsmall
    apply validateKeystones_template h _ hsmall
    rw [UInt32.le_iff_toNat_le, UInt32.toNat_one] at hpos
    exact hpos

end Keystones

namespace Small

def vbkHeader (height : Int32) : Serde.VbkBlock where
  height := height
  version := 2
  previousBlock := .zero 12
  previousKeystone := .zero 9
  secondPreviousKeystone := .zero 9
  merkleRoot := .zero 16
  timestamp := 1
  difficulty := 1
  nonce := 0

/-- A keystone every two blocks, and hashes that tell the heights apart. -/
def minerParams : VbkMinerParams where
  keystoneInterval := 2
  getHash b := ⟨List.replicate 24 b.height.toInt.toNat.toUInt8, List.length_replicate⟩
  currentTimestamp4 := 7
  getNextWorkRequired _ _ := 1

def fourBlocks : VbkIndex := .next (.next (.next (.root 0 (vbkHeader 0)) (vbkHeader 1)) (vbkHeader 2)) (vbkHeader 3)

theorem kept_fourBlocks : fourBlocks.KeptFromGenesis :=
  .next (.next (.next (.root _) (by decide)) (by decide)) (by decide)

/-- The block before the one at the height 41 is a keystone, and not the one that is taken. -/
theorem keystones_small :
    KeystoneUtil.getPreviousKeystoneHeight 41 20 0 = .ok 20 ∧
      (∃ result, KeystoneUtil.getPreviousKeystoneHeight 41 20 0 = .ok result ∧
        result.toInt = max 0 (20 * (((41 : Int32).toInt - 2) / 20 - 0))) ∧
      ∃ template, getBlockTemplate minerParams fourBlocks (.zero 16) = .ok template ∧
        ∀ block : Serde.VbkBlock, block.previousKeystone = template.previousKeystone →
          block.secondPreviousKeystone = template.secondPreviousKeystone →
          validateKeystones minerParams fourBlocks block = .ok true :=
  ⟨by decide, keystones_consistent.1 41 20 0 (by decide) (by decide) (by decide),
    keystones_consistent.2 minerParams fourBlocks (.zero 16) kept_fourBlocks (by decide) (by decide)⟩

example : (getBlockTemplate minerParams fourBlocks (.zero 16)).map (fun b => (b.previousKeystone.bytes.head?, b.secondPreviousKeystone.bytes.head?)) =
    .ok (some 2, some 0) := by
  decide

end Small

end AltIntegration
