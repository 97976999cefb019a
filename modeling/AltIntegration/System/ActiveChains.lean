import AltIntegration.Blockchain.Lemmas.Embodied
import AltIntegration.System.Calls

/-!
This module contains what every reachable state of the system has in common: in the ALT and in the VBK tree the
applied blocks are those of the active chain, and the work of every BTC and VBK block is counted on top of the work of
its parent.
-/

namespace AltIntegration

open Program BlockIndex VbkState

variable {α : Type} {cfg : Config} {s : AltState} {h : Hash}

namespace Op

theorem onVbk_upholding {V : VbkState → Prop} {m : M VbkState α} (hm : Upholding V m) : Upholding (fun s => V s.sp) (onVbk m) :=
  .bind (hm.zoom (fun _ hs => hs) (fun _ _ _ hx => hx)) (fun _ => .pure _)

theorem onBtc_upright {m : M (Tree BtcAddon) α} (hm : Upholding (fun t => t.Accounted cfg.btc) m) :
    Upholding (fun s => s.sp.Upright cfg (fun _ => True)) (onBtc m) :=
  onVbk_upholding (hm.zoom (fun _ hs => hs.btc) (fun _ _ hs hx => ⟨⟨hs.vbk, hx, hs.storage⟩, hs.standing⟩))

/-- What the calls keep that delete ALT or VBK blocks. -/
theorem exec_upholding_removing {V : VbkState → Prop} (hV : VbkBlockTree.Carries cfg V) (hcount : (vbkClass cfg).Counts V) (op : Op)
    (hop : op.removesBlocks = true) (hbtc : op.removesBtc = false) : Upholding (fun s => V s.sp) (op.exec cfg) := by
  have hI := AltBlockTree.carries_of_sp hV hcount
  cases op with
  | removeSubtree h =>
    refine withBlock_upholding h (Upholding.of_wlp (fun s hs => hI.wlp_removeSubtree (fun prev _ => ?_)))
    refine wlp_mono (Upholding.wlp (.when (hI.setStateOrStop prev)) hs) (fun _ s1 h1 => ?_)
    rw [wlp_zoom]
    exact wlp_iff.mpr (fun _ _ _ => h1)
  | vbkRemoveSubtree h => exact onVbk_upholding (withBlock_upholding h (hV.upholds.removeSubtree hcount.delete h))
  | vbkRemoveLeaf h => exact onVbk_upholding (withBlock_upholding h (hV.upholds.removeLeaf hcount.delete h))
  | btcRemoveSubtree h => cases hbtc
  | btcRemoveLeaf h => cases hbtc
  | _ => cases hop

theorem exec_upright (op : Op) : Upholding (fun s => s.sp.Upright cfg (fun _ => True)) (op.exec cfg) := by
  have hV : VbkBlockTree.Carries cfg (Upright cfg (fun _ => True)) := VbkBlockTree.upright_carries
  have hI := AltBlockTree.carries_of_sp hV vbkClass_counts
  cases hop : op.removesBlocks with
  | false =>
    refine exec_upholding hI (V := fun _ : Unit => Upright cfg (fun _ => True)) (fun _ => hV)
      (fun hm => Upholding.zoom hm (fun _ hs => hs) (fun _ _ _ hx => hx)) (fun hm => ?_) op hop ?_
    . intro _ s hs
      show wlp _ _ _
      rw [wlp_zoom]
      exact wlp_mono (hm.wlp ⟨hs.btc, rfl⟩) (fun _ _ hx => ⟨⟨hs.vbk, hx.1, hs.storage⟩, hs.standing⟩)
    . exact fun _ _ _ hs => ⟨⟨hs.vbk, hs.btc, trivial⟩, hs.standing⟩
  | true =>
    cases hbtc : op.removesBtc with
    | false => exact exec_upholding_removing hV vbkClass_counts op hop hbtc
    | true =>
      cases op with
      | btcRemoveSubtree h =>
        exact onBtc_upright (withBlock_upholding h (btcClass_upholds.toSteady.removeSubtree btcClass_counts.delete h))
      | btcRemoveLeaf h => exact onBtc_upright (withBlock_upholding h (btcClass_upholds.toSteady.removeLeaf btcClass_counts.delete h))
      | _ => cases hbtc

end Op

section Bootstrap

variable {A : Type} [PowAddon A] [LawfulPowAddon A]

theorem Tree.find?_bootstrap {p : BlockTreeParams} {block : PowBlock} {height x : Nat} {b : BlockIndex A}
    (hb : (Tree.bootstrap p block height).find? x = some b) : x = block.getHash ∧ b.pprev = none ∧ b.header = block.toBlock ∧
      b.status.active = true ∧ b.status.deleted = false ∧ PowAddon.chainWork b.addon = toUint256 (p.getBlockProof block.toBlock) := by
  unfold Tree.find? Tree.bootstrap at hb
  rw [Store.find?_insert] at hb
  split at hb
  . next heq =>
    cases hb
    refine ⟨heq.symm, rfl, rfl, rfl, rfl, ?_⟩
    exact (LawfulPowAddon.chainWork_addRef 0 _).trans (LawfulPowAddon.chainWork_setChainWork _ _)
  . cases hb

theorem Tree.worked_bootstrap (p : BlockTreeParams) (block : PowBlock) (height : Nat) :
    (Tree.bootstrap p block height : Tree A).Worked p := by
  have hinv : (Tree.bootstrap p block height : Tree A).Inv .connected [] := Tree.inv_singleton rfl rfl rfl rfl rfl
  refine ⟨hinv.wf, ⟨fun hb => ?_, fun hb _ hc => ?_⟩, fun x b hb _ => ?_, fun x b q _ hb hp _ => ?_⟩
  . exact ⟨block, (find?_bootstrap hb).2.2.1⟩
  . exact Nat.le_of_eq ((find?_bootstrap hb).1.trans (find?_bootstrap hc).1.symm)
  . obtain ⟨_, _, hheader, _, hdeleted, hwork⟩ := find?_bootstrap hb
    rw [hheader]
    exact ⟨hdeleted, hwork⟩
  . rw [(find?_bootstrap hb).2.1] at hp
    cases hp

theorem Tree.standing_bootstrap (p : BlockTreeParams) (block : PowBlock) (height : Nat) :
    (Tree.bootstrap p block height : Tree A).Standing := by
  have hinv : (Tree.bootstrap p block height : Tree A).Inv .connected [] := Tree.inv_singleton rfl rfl rfl rfl rfl
  refine ⟨hinv.wf, ⟨_, (Store.find?_insert _ _ _ _).trans (if_pos rfl)⟩, fun x b hb => ?_⟩
  obtain ⟨rfl, _, _, hactive, _⟩ := find?_bootstrap hb
  exact ⟨fun _ => hinv.wf.mem_chainTo_self hb, fun _ => hactive⟩

theorem Tree.accounted_bootstrap [RefAddon A] (p : BlockTreeParams) (block : PowBlock) (height : Nat) :
    (Tree.bootstrap p block height : Tree A).Accounted p := by
  refine ⟨Tree.worked_bootstrap p block height, fun x b hb hd => ?_⟩
  rw [(find?_bootstrap hb).2.2.2.2.1] at hd
  cases hd

theorem Bootstrap.upright_roots (b : Bootstrap) : (b.roots cfg).sp.Upright cfg (fun _ => True) :=
  ⟨⟨Tree.accounted_bootstrap _ _ _, Tree.accounted_bootstrap _ _ _, trivial⟩, Tree.standing_bootstrap _ _ _⟩

theorem Bootstrap.chains_upright (b : Bootstrap) : Upholding (fun s => s.sp.Upright cfg (fun _ => True)) (b.chains cfg) :=
  .bind (Op.onBtc_upright (.forEach (btcClass_upholds.bootstrapBlock btcClass_counts) _)) (fun _ =>
    Op.onVbk_upholding (.forEach (vbkClass_upholds.bootstrapBlock vbkClass_counts) _))

end Bootstrap

theorem Reachable.upright (hs : Reachable cfg s) : s.sp.Upright cfg (fun _ => True) := by
  induction hs with
  | @bootstrap b _ h =>
    have hs := wlp_ok (b.chains_upright.wlp b.upright_roots) h
    exact hs
  | @step _ _ op _ h ih =>
    have hs := wlp_ok (op.exec_upright.wlp ih) h
    exact hs

theorem Tree.Embodied.standing {t : Tree AltAddon} (ht : t.Embodied) : t.Standing := ⟨ht.wf, ht.tip, ht.applied⟩

/-- In every state between two calls, the tip of the ALT tree and of the VBK tree is a block of the tree, and the blocks that
are applied in it are those of the chain to its tip. -/
theorem Reachable.chains_applied (hs : Reachable cfg s) : s.alt.Standing ∧ s.sp.vbk.Standing := ⟨hs.embodied.standing, hs.upright.standing⟩

namespace Small

def sideVbk : PowBlock := powBlock vbkRoot.getHash 1 0

def sideBtc : PowBlock := powBlock btcRoot.getHash 1 1

def sideVTB : VTB where
  bitcoinTransaction := 0
  publishedBlock := vbkRoot.getHash
  blockOfProof := sideBtc
  blockOfProofContext := []
  containingBlock := sideVbk

/-- Two ALT blocks of one height, of which the first brings a VBK and a BTC block and is the tip. -/
def siblings : List Op :=
  [.acceptBlockHeader (altBlock 2 1 1), .acceptBlockHeader (altBlock 3 1 1), .acceptBlock 2 ⟨[sideVbk], [sideVTB], []⟩,
    .acceptBlock 3 ⟨[], [], []⟩, .setState 2]

theorem chains_applied_siblings : (after siblings).alt.activeTip = 2 ∧ (after siblings).alt.Standing ∧ (after siblings).sp.vbk.Standing :=
  ⟨by decide +kernel, Reachable.chains_applied (reachable_after siblings)⟩

end Small

/-- The tree has got the active tip `x`, and the blocks are where they were. -/
structure Tree.Moved {A : Type} (x : Hash) (t t' : Tree A) : Prop where
  standing : t'.Standing
  shape : t.SameShape t'
  activeTip : t'.activeTip = x

namespace Tree.Moved

variable {A : Type} {t t' : Tree A} {x : Hash} {b : BlockIndex A}

theorem refl (ht : t.Standing) : t.Moved t.activeTip t := ⟨ht, .refl t, rfl⟩

theorem of_appliedTo (ht : t.Standing) (hx : t.find? x = some b) (ha : t.AppliedTo x t') {t'' : Tree A}
    (hblocks : t''.blocks = t'.blocks) (htip : t''.activeTip = x) : t.Moved x t'' :=
  ⟨ht.of_appliedTo hx ha hblocks htip, ha.shape.trans (.of_blocks_eq hblocks), htip⟩

end Tree.Moved

namespace AltBlockTree

theorem wlp_setState_moved (hs : s.alt.Standing) :
    wlp (setState cfg h) (fun ok s' => s.alt.Moved (if ok then h else s.alt.activeTip) s'.alt) s := by
  simp only [setState, wlp_bind, wlp_zoom_derefBlock, wlp_check]
  intro b hb _
  refine wlp_mono (stateMachine_local.wlp_comparatorSetState h hs.wf hs.appliedTo) (fun ok s1 h1 => ?_)
  have h1 : s.alt.AppliedTo (if ok then h else s.alt.activeTip) s1.alt := h1
  cases ok with
  | true =>
    simp only [settle, overrideTip, ↓reduceIte, wlp_bind, wlp_zoom_derefBlock, wlp_check]
    intro _ _ _
    simp only [wlp_zoom, wlp_modify, wlp_get, wlp_pure]
    exact fun _ => .of_appliedTo hs hb h1 rfl rfl
  | false =>
    simp only [settle, Bool.false_eq_true, ↓reduceIte, wlp_bind, wlp_zoom_derefBlock, wlp_check, wlp_get, wlp_pure]
    intro _ _ _ _
    obtain ⟨_, htip⟩ := hs.tip
    exact .of_appliedTo hs htip h1 rfl h1.activeTip

theorem wlp_setStateByHash_moved (hs : s.alt.Standing) :
    wlp (setStateByHash cfg h) (fun ok s' => s.alt.Moved (if ok then h else s.alt.activeTip) s'.alt) s := by
  simp only [setStateByHash, wlp_bind, wlp_get]
  split
  . exact .refl hs
  . exact wlp_setState_moved hs

theorem wlp_comparePopScore_moved (x y : Hash) (hs : s.alt.Standing) :
    wlp (comparePopScore cfg x y) (fun r s' => s.alt.Moved (if r < 0 then y else s.alt.activeTip) s'.alt) s := by
  simp only [comparePopScore, wlp_bind, wlp_get, wlp_getOrStop, wlp_check]
  intro _ _ _
  split
  . exact .refl hs
  . next right hright =>
    simp only [wlp_bind, wlp_check]
    intro _ _
    refine wlp_mono (stateMachine_local.wlp_comparePopScore hs.wf hs.appliedTo) (fun r s1 h1 => ?_)
    have h1 : s.alt.AppliedTo (if r < 0 then y else s.alt.activeTip) s1.alt := h1
    simp only [wlp_when, wlp_zoom, wlp_modify, wlp_pure, decide_eq_true_eq, decide_eq_false_iff_not]
    refine ⟨fun hr => ?_, fun hr => ?_⟩
    . rw [if_pos hr] at h1 ⊢
      exact .of_appliedTo hs (Tree.getBlockIndex_eq_some.mp hright).1 h1 rfl rfl
    . rw [if_neg hr] at h1 ⊢
      obtain ⟨_, htip⟩ := hs.tip
      exact .of_appliedTo hs htip h1 rfl h1.activeTip

end AltBlockTree

theorem VbkBlockTree.wlp_setStateByHash_moved {s : VbkState} (hs : s.vbk.Standing) :
    wlp (Op.setStateByHash cfg h) (fun ok s' => s.vbk.Moved (if ok then h else s.vbk.activeTip) s'.vbk) s := by
  simp only [Op.setStateByHash, wlp_bind, wlp_get]
  split
  . exact .refl hs
  . exact wlp_mono (wlp_setState_standing hs) (fun _ _ h => ⟨h.1, h.2.1, h.2.2⟩)

/-- A fork is applied as a whole, and becomes the active chain, or the active chain is as before. -/
theorem Reachable.applied_whole (hs : Reachable cfg s) :
    (∀ h ok s', AltBlockTree.setStateByHash cfg h s = .ok ok s' → s.alt.Moved (if ok then h else s.alt.activeTip) s'.alt) ∧
    (∀ h ok sp', Op.setStateByHash cfg h s.sp = .ok ok sp' → s.sp.vbk.Moved (if ok then h else s.sp.vbk.activeTip) sp'.vbk) ∧
    (∀ x y r s', AltBlockTree.comparePopScore cfg x y s = .ok r s' →
      s.alt.Moved (if r < 0 then y else s.alt.activeTip) s'.alt) := by
  obtain ⟨halt, hvbk⟩ := hs.chains_applied
  refine ⟨fun h ok s' hrun => ?_, fun h ok sp' hrun => ?_, fun x y r s' hrun => ?_⟩
  . have hmoved := wlp_ok (AltBlockTree.wlp_setStateByHash_moved halt) hrun
    exact hmoved
  . have hmoved := wlp_ok (VbkBlockTree.wlp_setStateByHash_moved hvbk) hrun
    exact hmoved
  . have hmoved := wlp_ok (AltBlockTree.wlp_comparePopScore_moved x y halt) hrun
    exact hmoved

theorem Small.applied_whole_siblings :
    (after siblings).alt.Moved 3 (finalState (AltBlockTree.setStateByHash config 3) (after siblings)).alt ∧
    (after siblings).alt.Moved (after siblings).alt.activeTip
      (finalState (AltBlockTree.comparePopScore config 2 3) (after siblings)).alt := by
  have hruns : returned (AltBlockTree.setStateByHash config 3 (after siblings)) = some true ∧
      returned (AltBlockTree.comparePopScore config 2 3 (after siblings)) = some 0 := by decide +kernel
  have hmoved := Reachable.applied_whole (reachable_after siblings)
  refine ⟨hmoved.1 3 true _ (ok_finalState hruns.1), ?_⟩
  have hkept := hmoved.2.2 2 3 0 _ (ok_finalState hruns.2)
  rw [if_neg (by decide)] at hkept
  exact hkept

/-- The work of a block is that of the chain that ends in it, of which no block is deleted. -/
theorem Reachable.chainWork_totalProof (hs : Reachable cfg s) :
    (∀ x b, s.sp.btc.find? x = some b → b.status.deleted = false →
      b.addon.chainWork = toUint256 (s.sp.btc.totalProof cfg.btc x) ∧
        ∀ y ∈ s.sp.btc.chainTo x, s.sp.btc.At (fun b => b.status.deleted = false) y) ∧
    (∀ x b, s.sp.vbk.find? x = some b → b.status.deleted = false →
      b.addon.chainWork = toUint256 (s.sp.vbk.totalProof cfg.vbk x) ∧
        ∀ y ∈ s.sp.vbk.chainTo x, s.sp.vbk.At (fun b => b.status.deleted = false) y) :=
  ⟨fun _ _ => hs.upright.btc.chainWork_eq, fun _ _ => hs.upright.vbk.chainWork_eq⟩

theorem Small.chainWork_totalProof_siblings : ∃ b, (after siblings).sp.btc.find? sideBtc.getHash = some b ∧
    b.addon.chainWork = toUint256 ((after siblings).sp.btc.totalProof config.btc sideBtc.getHash) ∧
      ∀ y ∈ (after siblings).sp.btc.chainTo sideBtc.getHash, (after siblings).sp.btc.At (fun b => b.status.deleted = false) y := by
  have hlive : ((after siblings).sp.btc.find? sideBtc.getHash).any (fun b => !b.status.deleted) = true := by decide +kernel
  obtain ⟨b, hb, hd⟩ := (Option.any_eq_true _ _).mp hlive
  rw [Bool.not_eq_true'] at hd
  exact ⟨b, hb, (Reachable.chainWork_totalProof (reachable_after siblings)).1 _ b hb hd⟩

end AltIntegration
