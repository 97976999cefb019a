import Mathlib.Data.List.TakeWhile
import Mathlib.Data.List.Nodup
import AltIntegration.Blockchain.BtcBlockchainUtil
import AltIntegration.Blockchain.Pop.VbkBlockTree
import AltIntegration.Blockchain.Lemmas.Growth

/-!
This module contains the runs of the BTC tree, and when the difficulty of a new header can be computed:
at the end of a period the first block of the period has to be in the tree.
-/

namespace AltIntegration

open Program

section Runs

variable (cfg : Config) (p : BtcChainParams) (checkBlock : Block → Bool) (now : Nat)

/--
The BTC trees that can be reached: a chain of enough blocks is the start, then headers arrive, and the tree is
saved and finalized now and then.
-/
inductive BtcReachable : Tree BtcAddon → Prop where
  | bootstrap {block : PowBlock} {height : Nat} {chain : List PowBlock} {t : Tree BtcAddon}
      (hlength : p.numBlocksForBootstrap ≤ chain.length + 1)
      (hrun : forEach (bootstrapBlock (p.blockTreeParams checkBlock now) (btcClass cfg)) chain
        (Tree.bootstrap (p.blockTreeParams checkBlock now) block height) = .ok () t) : BtcReachable t
  | acceptBlockHeader {t t' : Tree BtcAddon} {block : PowBlock} {ok : Bool} (ht : BtcReachable t)
      (hrun : AltIntegration.acceptBlockHeader (p.blockTreeParams checkBlock now) (btcClass cfg) block t = .ok ok t') :
      BtcReachable t'
  | finalizeBlocks {t t' : Tree BtcAddon} {tips : List Hash} (ht : BtcReachable t) (hperm : tips.Perm t.tips)
      (hrun : AltIntegration.finalizeBlocks (btcClass cfg).onBeforeLeafRemoved BtcAddon.indexedIds tips
        p.maxReorgBlocks p.preserveBlocksBehindFinal none t = .ok () t') : BtcReachable t'
  | save {t : Tree BtcAddon} (ht : BtcReachable t) : BtcReachable t.unsetDirty

end Runs

variable {cfg : Config} {p : BtcChainParams} {checkBlock : Block → Bool} {now : Nat} {t : Tree BtcAddon}

namespace BtcReachable

theorem wlp_determineBestChain (ht : t.Healthy) (candidate : Hash) :
    wlp ((btcClass cfg).determineBestChain candidate)
      (fun _ t' => t'.Healthy) t := by
  refine Tree.wlp_determineBestChainByWork ht (fun x b hb => ?_) candidate
  simp only [btcClass.setState, wlp_bind, wlp_modify, wlp_pure]

theorem wlp_add (ht : t.Healthy) (block : PowBlock) (ctx : Bool) :
    wlp (validateAndAddBlock (p.blockTreeParams checkBlock now) block ctx)
      (fun ok t' => if ok then t'.Ready block.getHash else t'.Healthy) t := by
  refine wlp_mono (ht.wlp_validateAndAddBlock (by decide) ctx) ?_
  rintro ok t' (⟨rfl, hknown⟩ | ⟨rfl, hg⟩)
  . cases ok with
    | false => exact ht
    | true =>
      obtain ⟨b, hb⟩ := hknown rfl
      exact ht.ready hb
  . exact hg.ready ht

theorem wlp_acceptBlockHeader (ht : t.Healthy) (block : PowBlock) :
    wlp (AltIntegration.acceptBlockHeader (p.blockTreeParams checkBlock now) (btcClass cfg) block)
      (fun _ t' => t'.Healthy) t := by
  simp only [AltIntegration.acceptBlockHeader, wlp_bind, wlp_zoom]
  refine wlp_mono (wlp_add ht block true) ?_
  intro ok t' hready
  cases ok with
  | false => exact hready
  | true =>
    simp only [↓reduceIte, wlp_bind, wlp_zoom, wlp_modify, wlp_pure] at hready ⊢
    exact wlp_determineBestChain (hready.tryAddTip (by decide)) _

theorem wlp_bootstrapBlock (ht : t.Healthy) (block : PowBlock) :
    wlp (bootstrapBlock (p.blockTreeParams checkBlock now) (btcClass cfg) block) (fun _ t' => t'.Healthy) t := by
  simp only [bootstrapBlock, wlp_bind, wlp_zoom, wlp_check, wlp_modifyBlock, wlp_modify]
  refine wlp_mono (wlp_add ht block false) ?_
  intro ok t' hready hok
  rw [hok] at hready
  have hready : t'.Ready block.getHash := hready
  have hflag := hready.update (f := fun b => b.setFlag .bootstrap) (fun b => ?_)
  . refine wlp_mono (wlp_determineBestChain (hflag.tryAddTip (by decide)) _) ?_
    intro _ _ hb
    exact hb.update (fun _ => rfl)
  . unfold Tree.vitals
    rw [BlockIndex.keepsShape_setFlag]
    simp only [BlockIndex.isFailed, BlockIndex.setFlag_status, BlockStatus.assign, BlockStatus.isFailed]

theorem healthy_bootstrap (block : PowBlock) (height : Nat) :
    (Tree.bootstrap (p.blockTreeParams checkBlock now) block height : Tree BtcAddon).Healthy := by
  have hfind : ∀ {x b}, (Tree.bootstrap (p.blockTreeParams checkBlock now) block height : Tree BtcAddon).find? x = some b →
      x = block.getHash ∧ b.pprev = none ∧ b.header = block.toBlock ∧ b.status = { level := .canBeApplied, bootstrap := true, active := true } := by
    intro x b hb
    simp only [Tree.bootstrap, Tree.find?, Store.find?_insert, Store.find?_empty] at hb
    split at hb
    . next heq =>
      cases hb
      exact ⟨heq.symm, rfl, rfl, rfl⟩
    . cases hb
  have hself : ∃ b, (Tree.bootstrap (p.blockTreeParams checkBlock now) block height : Tree BtcAddon).find? block.getHash = some b := by
    simp [Tree.bootstrap, Tree.find?, Store.find?_insert]
  obtain ⟨b, hb⟩ := hself
  refine ⟨⟨⟨⟨?_, fun {x b} hb => ?_, fun {x b q} hb hq => ?_, fun {x b q} hb hq => ?_⟩, fun x b hb _ => (hfind hb).1,
    ⟨b, hb, (hfind hb).2.1⟩, ⟨b, hb⟩, ?_, fun x hx => ?_, ?_⟩, fun x b hb => ?_⟩, fun x _ c hc => ?_⟩
  . exact List.nodup_singleton _
  . obtain ⟨rfl, _, hheader, _⟩ := hfind hb
    rw [hheader]
    rfl
  . rw [(hfind hb).2.1] at hq
    cases hq
  . rw [(hfind hb).2.1] at hq
    cases hq
  . rw [show (Tree.bootstrap (p.blockTreeParams checkBlock now) block height : Tree BtcAddon).activeTip = block.getHash from rfl,
      Tree.chainTo_of_root hb (hfind hb).2.1]
    rfl
  . rw [List.mem_singleton.mp hx]
    exact ⟨b, hb⟩
  . exact List.nodup_singleton _
  . simp only [BlockIndex.isFailed, (hfind hb).2.2.2]
    decide
  . obtain ⟨b, hb, hp⟩ := hc
    rw [(hfind hb).2.1] at hp
    cases hp

theorem healthy (ht : BtcReachable cfg p checkBlock now t) : t.Healthy := by
  induction ht with
  | bootstrap _ hrun => exact wlp_ok (wlp_forEach (fun block _ _ ht => wlp_bootstrapBlock ht block) (healthy_bootstrap _ _)) hrun
  | acceptBlockHeader _ hrun ih => exact wlp_ok (wlp_acceptBlockHeader ih _) hrun
  | finalizeBlocks _ hperm hrun ih =>
    exact wlp_ok (ih.finalizeBlocks (fun _ => ⟨fun index => index, fun log => log, fun _ => rfl⟩) hperm _ _ _) hrun
  | save _ ih => exact ih.unsetDirty

end BtcReachable

section Retarget

variable {x : Hash} {b : BlockIndex BtcAddon} {block : Block}

theorem Tree.head?_headers (hb : t.find? x = some b) : (t.headers x).head? = some (b.height, b.header) := by
  obtain ⟨tail, heq⟩ := chainTo_eq_cons hb
  unfold headers
  rw [heq, List.filterMap_cons_some (b := (b.height, b.header)) (by rw [hb]; rfl)]
  rfl

/-- The headers of a chain reach down to the height of the root. -/
theorem Tree.Consistent.dropWhile_headers (ht : t.Consistent) (hb : t.find? x = some b) (n : Nat) :
    (t.headers x).dropWhile (fun e => decide (n < e.1)) = [] ↔ n < t.heightOf t.root := by
  have hmem := ht.root_mem hb
  obtain ⟨br, hbr, _⟩ := ht.root
  rw [List.dropWhile_eq_nil_iff]
  simp only [headers, List.mem_filterMap, Option.map_eq_some_iff, decide_eq_true_eq]
  constructor
  . intro hall
    rw [heightOf_eq hbr]
    exact hall (br.height, br.header) ⟨t.root, hmem, br, hbr, rfl⟩
  . rintro hlt e ⟨y, hy, by', hby, rfl⟩
    have hle := ht.wf.heightOf_le (ht.wf.root_mem_chainTo ht.rooted hby)
    rw [heightOf_eq hby] at hle
    exact Nat.lt_of_lt_of_le hlt hle

/-- The check of a header stops when it ends a period that started below the root. -/
theorem Tree.Consistent.contextuallyCheckBlock_eq_none_iff (ht : t.Consistent) (hb : t.find? x = some b) :
    p.contextuallyCheckBlock now (t.headers x) block = none ↔
      (b.height + 1) % p.difficultyAdjustmentInterval = 0 ∧
        b.height - (p.difficultyAdjustmentInterval - 1) < t.heightOf t.root := by
  unfold BtcChainParams.contextuallyCheckBlock BtcChainParams.getNextWorkRequired
  rw [Option.map_eq_none_iff, head?_headers hb]
  simp only
  by_cases hend : (b.height + 1) % p.difficultyAdjustmentInterval = 0
  . rw [if_neg (by simp [hend]), Option.map_eq_none_iff, List.head?_eq_none_iff, ht.dropWhile_headers hb]
    simp [hend]
  . rw [if_pos hend]
    simp only [hend, false_and, iff_false]
    split
    . split
      . simp
      . simp
    . simp

/-- A period that starts below the root and ends above it is the period of the root. -/
theorem retarget_below_root_iff {interval root h : Nat} (hpos : 0 < interval) (hle : root ≤ h) :
    (h + 1) % interval = 0 ∧ h - (interval - 1) < root ↔
      ¬interval ∣ root ∧ h + 1 = (root / interval + 1) * interval := by
  have hdiv := Nat.div_add_mod root interval
  have hlt := Nat.mod_lt root hpos
  rw [Nat.dvd_iff_mod_eq_zero]
  constructor
  . rintro ⟨hend, hfirst⟩
    obtain ⟨k, hk⟩ := Nat.dvd_of_mod_eq_zero hend
    have hk0 : 0 < k := by
      rcases Nat.eq_zero_or_pos k with rfl | hk0
      . omega
      . exact hk0
    obtain ⟨k, rfl⟩ : ∃ k', k = k' + 1 := ⟨k - 1, by omega⟩
    rw [Nat.mul_add, Nat.mul_one] at hk
    have hq : root / interval = k := by
      apply Nat.div_eq_of_lt_le
      . rw [Nat.mul_comm]
        omega
      . rw [Nat.mul_comm, Nat.mul_add]
        omega
    rw [hq] at hdiv ⊢
    refine ⟨by omega, ?_⟩
    rw [Nat.add_mul, Nat.mul_comm k]
    omega
  . rintro ⟨hne, hend⟩
    refine ⟨by rw [hend]; exact Nat.mul_mod_left _ _, ?_⟩
    rw [Nat.add_mul, Nat.mul_comm] at hend
    omega

/--
In every tree that can be reached, the check of a header on top of a known block has a result if and only if
the root starts a period, or the known block does not end the period of the root.
-/
theorem BtcReachable.contextuallyCheckBlock_isSome_iff (hpos : 0 < p.difficultyAdjustmentInterval)
    (ht : BtcReachable cfg p checkBlock now t) (block : PowBlock) {prev : BlockIndex BtcAddon}
    (hprev : t.getBlockIndex block.previousBlock = some prev) :
    (p.contextuallyCheckBlock now (t.headers block.previousBlock) block.toBlock).isSome = true ↔
      p.difficultyAdjustmentInterval ∣ t.heightOf t.root ∨
        prev.height + 1 ≠ (t.heightOf t.root / p.difficultyAdjustmentInterval + 1) * p.difficultyAdjustmentInterval := by
  have hc := ht.healthy.consistent
  obtain ⟨hb, _⟩ := Tree.getBlockIndex_eq_some.mp hprev
  have hle := hc.wf.heightOf_le (hc.root_mem hb)
  rw [Tree.heightOf_eq hb] at hle
  have hnone : p.contextuallyCheckBlock now (t.headers block.previousBlock) block.toBlock = none ↔ _ :=
    hc.contextuallyCheckBlock_eq_none_iff hb
  rw [retarget_below_root_iff hpos hle] at hnone
  rw [← Option.ne_none_iff_isSome, ne_eq, hnone, not_and_or, not_not]

end Retarget

namespace Small

def btcStart (height : Nat) : Tree BtcAddon :=
  Tree.bootstrap (BtcChainParams.regTest.blockTreeParams (fun _ => true) 0) btcRoot height

theorem reachable_btcStart (height : Nat) : BtcReachable config .regTest (fun _ => true) 0 (btcStart height) :=
  @BtcReachable.bootstrap _ _ _ _ btcRoot height [] _ (Nat.le_refl 1) rfl

/-- The bootstrap block starts a period, and a header on top of it is checked. -/
theorem btc_header_checked :
    2016 ∣ (btcStart 2016).heightOf (btcStart 2016).root ∧
      (BtcChainParams.regTest.contextuallyCheckBlock 0 ((btcStart 2016).headers btcRoot.getHash)
        (powBlock btcRoot.getHash 0 0).toBlock).isSome = true :=
  ⟨⟨1, rfl⟩, (BtcReachable.contextuallyCheckBlock_isSome_iff (by decide) (reachable_btcStart 2016)
    (powBlock btcRoot.getHash 0 0) rfl).mpr (.inl ⟨1, rfl⟩)⟩

/-- The bootstrap block ends a period, and a header on top of it stops the program. -/
theorem btc_header_aborts :
    BtcReachable config .regTest (fun _ => true) 0 (btcStart 2015) ∧
      ((btcStart 2015).getBlockIndex (powBlock btcRoot.getHash 0 0).previousBlock).isSome = true ∧
      BtcChainParams.regTest.contextuallyCheckBlock 0 ((btcStart 2015).headers btcRoot.getHash)
        (powBlock btcRoot.getHash 0 0).toBlock = none :=
  ⟨reachable_btcStart 2015, rfl, rfl⟩

end Small

end AltIntegration
