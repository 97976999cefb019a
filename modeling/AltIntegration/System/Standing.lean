import AltIntegration.Blockchain.Pop.VbkBlockTree
import AltIntegration.Blockchain.Lemmas.Applied
import AltIntegration.System.Upholds

/-!
This module contains what holds of the VBK and the BTC tree whatever is done to them: the applied VBK blocks are those
of the active chain, and the work of a block is counted on top of the work of its parent.
-/

namespace AltIntegration

open Program BlockIndex

variable {A α ρ : Type} {cfg : Config} {t t' : Tree A} {h x : Hash} {b : BlockIndex A}

/-- The data of a block while it is applied -/
def BlockIndex.applied (b : BlockIndex A) : Option A := if b.status.active then some b.addon else none

/-- The blocks of the active chain, and no others, are applied. -/
structure Tree.Standing (t : Tree A) : Prop where
  wf : t.WF
  tip : ∃ b, t.find? t.activeTip = some b
  applied : ∀ ⦃x b⦄, t.find? x = some b → (b.status.active = true ↔ x ∈ t.chainTo t.activeTip)

namespace Tree.Standing

theorem appliedTo (ht : t.Standing) : t.AppliedTo t.activeTip t := ⟨.refl t, rfl, ht.applied⟩

theorem congr (ht : t.Standing) (hs : t.SameOn (fun b => (b.shape, b.status.active)) t') (htip : t'.activeTip = t.activeTip) :
    t'.Standing := by
  have hshape : t.SameShape t' := hs.comp Prod.fst
  refine ⟨ht.wf.congr hshape, ?_, fun x b' hb' => ?_⟩
  . obtain ⟨b, hb⟩ := ht.tip
    obtain ⟨b', hb', _⟩ := hs.symm.find? hb
    exact ⟨b', htip ▸ hb'⟩
  . obtain ⟨b, hb, heq⟩ := hs.find? hb'
    rw [← (Prod.mk.inj heq).2, htip, hshape.chainTo]
    exact ht.applied hb

theorem alike [PowAddon A] {kept : A → ρ} (ht : t.Standing) (ha : t.Alike kept t') : t'.Standing :=
  ht.congr (ha.same.comp (fun u => (u.1.1.1, u.2))) ha.activeTip

theorem quiet (ht : t.Standing) (hq : t.Quiet t') : t'.Standing :=
  ht.congr (hq.same.comp (fun u => (u.1, u.2.active))) hq.activeTip

/-- A block may change that stays in its place, applied or not. -/
theorem update {f : BlockIndex A → BlockIndex A} (ht : t.Standing) (hf : KeepsShape f)
    (ha : ∀ b, (f b).status.active = b.status.active) : (t.update h f).Standing :=
  ht.congr (.update t h (fun b _ => Prod.ext (hf b) (ha b))) rfl

/-- The chain that is applied becomes the active chain. -/
theorem of_appliedTo (ht : t.Standing) (hx : t.find? x = some b) (ha : t.AppliedTo x t') {t'' : Tree A}
    (hblocks : t''.blocks = t'.blocks) (htip : t''.activeTip = x) : t''.Standing := by
  have hshape : t.SameShape t'' := ha.shape.trans (.of_blocks_eq hblocks)
  refine ⟨ht.wf.congr hshape, ?_, fun y b' hb' => ?_⟩
  . obtain ⟨b', hb', _⟩ := hshape.symm.find? hx
    exact ⟨b', htip ▸ hb'⟩
  . unfold Tree.find? at hb'
    rw [hblocks] at hb'
    rw [htip, hshape.chainTo]
    exact ha.active hb'

variable [BlockAddon A]

theorem create {header : Block} {prev : BlockIndex A} (ht : t.Standing) (hnew : t.find? header.hash = none)
    (hprev : t.getBlockIndex header.previousBlock = some prev) : (t.createBlockIndex header prev).Standing := by
  have hprev := (Tree.getBlockIndex_eq_some.mp hprev).1
  have hwf := ht.wf.create hnew hprev
  obtain ⟨btip, hbtip⟩ := ht.tip
  have hext : t.Extends (t.createBlockIndex header prev) :=
    fun x b hb => ⟨b, Tree.find?_createBlockIndex_of_some hnew hb, rfl⟩
  have hchain : (t.createBlockIndex header prev).chainTo t.activeTip = t.chainTo t.activeTip := hext.chainTo ht.wf hwf hbtip
  refine ⟨hwf, ⟨btip, Tree.find?_createBlockIndex_of_some hnew hbtip⟩, fun x b hb => ?_⟩
  rw [show (t.createBlockIndex header prev).activeTip = t.activeTip from rfl, hchain]
  rcases Tree.find?_createBlockIndex_cases hb with ⟨rfl, rfl⟩ | hb
  . refine ⟨(by cases ·), fun hmem => ?_⟩
    obtain ⟨b', hb'⟩ := ht.wf.find?_of_mem_chainTo hmem
    rw [hnew] at hb'
    cases hb'
  . exact ht.applied hb

end Tree.Standing

section Programs

theorem wlp_raiseValidity_standing {upTo : BlockStateStatus} (ht : t.Standing) :
    wlp (raiseValidity h upTo) (fun _ t' => t'.Standing) t := by
  cases hb : t.find? h with
  | none => simp [raiseValidity, wlp_derefBlock, hb]
  | some b => exact wlp_raiseValidity hb (fun _ => ht) (fun _ _ => ht.congr (.update t h (fun _ _ => rfl)) rfl)

variable [BlockAddon A] {obr : BlockIndex A → Tree A → Tree A}

theorem wlp_deleteLeaf_standing (hobr : Tree.OnlyPayloadsIndex obr) (ht : t.Standing) (hoff : h ∉ t.chainTo t.activeTip) :
    wlp (deleteLeaf obr h) (fun _ t' => t'.Standing ∧ t.SameOn (fun b => (b.shape, b.applied)) t' ∧ t'.activeTip = t.activeTip) t := by
  simp only [deleteLeaf, wlp_bind, wlp_derefBlock, wlp_modify, wlp_check, wlp_modifyBlock]
  intro b hb _
  obtain ⟨f, g, hf⟩ := hobr b
  have hblocks : ((obr b t).eraseTip h).blocks = t.blocks := by
    rw [hf]
    rfl
  have htip : ((obr b t).eraseTip h).activeTip = t.activeTip := by
    rw [hf]
    rfl
  have hactive : b.status.active = false := by
    rw [← Bool.not_eq_true, ht.applied hb]
    exact hoff
  have hsame : t.SameOn (fun b => ((b.shape, b.status.active), b.applied))
      (((obr b t).eraseTip h).update h (fun b => b.deleteTemporarily)) := by
    refine (Tree.SameOn.of_blocks_eq hblocks).trans (.update _ h (fun b' hb' => ?_))
    unfold Tree.find? at hb' hb
    rw [hblocks, hb] at hb'
    cases hb'
    have happlied : b.applied = none := if_neg (by rw [hactive]; decide)
    rw [happlied, hactive]
    rfl
  exact ⟨ht.congr (hsame.comp Prod.fst) htip, hsame.comp (fun u => (u.1.1, u.2)), htip⟩

/-- A subtree is deleted that is not on the active chain. None of its blocks is applied. -/
theorem wlp_deletePostorder_standing {p : BlockIndex A → Bool} (hobr : Tree.OnlyPayloadsIndex obr) (n : Nat) (ht : t.Standing)
    (hoff : h ∉ t.chainTo t.activeTip) : wlp (forEachNodePostorder (deleteLeaf obr) p n h)
      (fun _ t' => t'.Standing ∧ t.SameOn (fun b => (b.shape, b.applied)) t' ∧ t'.activeTip = t.activeTip) t := by
  induction n generalizing h t with
  | zero => exact ⟨ht, .refl t, rfl⟩
  | succ n ih =>
    have hkeep : ∀ {t' : Tree A} {x : Hash}, t.SameOn (fun b => (b.shape, b.applied)) t' → t'.activeTip = t.activeTip →
        x ∉ t.chainTo t.activeTip → x ∉ t'.chainTo t'.activeTip := by
      intro t' x hs htip hx
      have hshape : t.SameShape t' := hs.comp Prod.fst
      rw [htip, hshape.chainTo]
      exact hx
    simp only [forEachNodePostorder, wlp_bind, wlp_get]
    refine wlp_mono (wlp_forEach (I := fun t' => t'.Standing ∧ t.SameOn (fun b => (b.shape, b.applied)) t' ∧
      t'.activeTip = t.activeTip) ?_ ⟨ht, .refl t, rfl⟩) ?_
    . rintro c hc t1 ⟨ht1, hs1, htip1⟩
      have hchild := ht.wf.mem_pnext.mp (List.mem_filter.mp (List.mem_reverse.mp hc)).1
      have hc : c ∉ t.chainTo t.activeTip := fun hmem => hoff (ht.wf.mem_chainTo_of_child hmem hchild)
      refine wlp_mono (ih ht1 (hkeep hs1 htip1 hc)) ?_
      rintro _ t2 ⟨ht2, hs2, htip2⟩
      exact ⟨ht2, hs1.trans hs2, htip2.trans htip1⟩
    . rintro _ t1 ⟨ht1, hs1, htip1⟩
      refine wlp_mono (wlp_deleteLeaf_standing hobr ht1 (hkeep hs1 htip1 hoff)) ?_
      rintro _ t2 ⟨ht2, hs2, htip2⟩
      exact ⟨ht2, hs1.trans hs2, htip2.trans htip1⟩

theorem wlp_deleteSubtree_standing (hobr : Tree.OnlyPayloadsIndex obr) (prev : Hash) (ht : t.Standing)
    (hoff : h ∉ t.chainTo t.activeTip) :
    wlp (deleteSubtree obr h prev) (fun _ t' => t'.Standing ∧ t.SameOn BlockIndex.applied t') t := by
  simp only [deleteSubtree, wlp_bind, wlp_get, wlp_modify]
  refine wlp_mono (wlp_deletePostorder_standing hobr _ ht hoff) (fun _ t1 ht1 => ?_)
  exact ⟨ht1.1.quiet (Tree.Flagged.tryAddTip t1 prev).quiet, (ht1.2.1.comp Prod.snd).trans (.of_blocks_eq Tree.tryAddTip_blocks)⟩

end Programs

section PoW

variable [PowAddon A] {p : BlockTreeParams} {block : PowBlock}

theorem wlp_insertRestored_standing (ht : t.Standing) :
    wlp (insertBlockHeader.insertRestored (Tree.onBlockInserted p) block.toBlock) (fun _ t' => t'.Standing) t := by
  simp only [insertBlockHeader.insertRestored, restore, wlp_bind, wlp_derefBlock, wlp_check, wlp_when, wlp_modify, wlp_modifyBlock,
    wlp_pure]
  intro b _ _
  have hinsert : ∀ {t1 : Tree A}, t1.Standing →
      wlp (raiseValidity block.toBlock.hash .validTree) (fun _ t' => t'.Standing) (Tree.onBlockInserted p block.toBlock.hash
        ((t1.update block.toBlock.hash (fun b => b.unsetFlag .deleted)).tryAddTip block.toBlock.hash)) := by
    intro t1 ht1
    apply wlp_raiseValidity_standing
    refine Tree.Standing.update (Tree.Standing.quiet (ht1.update (keepsShape_unsetFlag .deleted) (fun b => ?_))
      (Tree.Flagged.tryAddTip _ _).quiet) (fun _ => rfl) (fun _ => rfl)
    rw [unsetFlag_status]
    rfl
  exact ⟨fun _ => hinsert (ht.quiet ⟨.of_blocks_eq rfl, rfl⟩), fun _ => hinsert ht⟩

theorem wlp_validateAndAddBlock_standing (ht : t.Standing) (ctx : Bool) :
    wlp (validateAndAddBlock p block ctx) (fun _ t' => t'.Standing) t := by
  have hinsert : wlp (insertBlockHeader (Tree.onBlockInserted p) block.toBlock) (fun _ t' => t'.Standing) t := by
    simp only [insertBlockHeader, wlp_bind, wlp_check, wlp_get]
    intro _
    split
    . simp only [wlp_ite, wlp_bind, wlp_check, wlp_pure]
      exact ⟨fun _ _ => wlp_insertRestored_standing ht, fun _ => ht⟩
    . next hnew =>
      simp only [doInsertBlockHeader, wlp_bind, wlp_get, wlp_getOrStop, wlp_modify]
      exact fun _ hprev => wlp_insertRestored_standing (ht.create hnew hprev)
  simp only [validateAndAddBlock, wlp_bind, wlp_get, wlp_ite, wlp_pure]
  refine ⟨fun _ => ht, fun _ => ?_⟩
  split
  . exact ht
  . simp only [wlp_bind, wlp_getOrStop, wlp_ite, wlp_pure]
    intro _ _
    refine ⟨fun _ => ht, fun _ => wlp_mono hinsert (fun _ t1 ht1 => ?_)⟩
    refine wlp_mono (wlp_raiseValidity_standing ht1) (fun _ t2 ht2 => ⟨fun _ => ?_, fun _ => ht2⟩)
    simp only [wlp_modifyBlock, wlp_modify]
    refine Tree.Standing.quiet (ht2.update (keepsShape_setFlag .failedChild) (fun b => ?_)) ⟨.of_blocks_eq rfl, rfl⟩
    rw [setFlag_status]
    rfl

end PoW

section Btc

/-- Only insertion and deletion change the blocks of BTC. -/
theorem btcClass_upholds : (btcClass cfg).Upholds cfg.btc RefAddon.refs (fun t => t.Accounted cfg.btc) := by
  have hset : ∀ h, (btcClass cfg).Settles RefAddon.refs (fun t => t.Accounted cfg.btc) ((btcClass cfg).setState h) :=
    fun h => .bind (.modify (fun _ _ ht => ⟨ht.1.congr (.of_blocks_eq rfl), ht.2.trans (.of_blocks_eq rfl)⟩)) (fun _ => .pure _)
  exact
    { alike := fun _ _ ht ha => ht.congr (ha.same.comp Prod.fst)
      setState := hset
      determineBestChain := fun h => .bind .get (fun _ => .bind Keeping.getOrStop (fun _ => .when (.bind (hset h) (fun _ => .pure _))))
      validateAndAddBlock := fun block ctx => Upholding.of_wlp (fun t ht => wlp_zoom.mpr (ht.wlp_validateAndAddBlock ctx)) }

theorem btcClass_counts : (btcClass cfg).Counts (fun t => t.Accounted cfg.btc) where
  addRef _ _ _ _ ht hb hd := ht.addRef hb hd
  removeRef _ _ _ _ _ ht hb ha := ht.removeRef hb ha
  delete := by
    intro t h prev ht hh
    have hdelete : ∀ t1 : Tree BtcAddon, t1.blocks = t.blocks →
        wlp (zoom (btcClass cfg).tree (deleteSubtree (btcClass cfg).onBeforeLeafRemoved h prev)) (fun _ t' => t'.Accounted cfg.btc) t1 := by
      intro t1 hblocks
      have hshape : t.SameShape t1 := .of_blocks_eq hblocks
      rw [wlp_zoom]
      exact Tree.Accounted.wlp_deleteSubtree (fun _ => ⟨fun index => index, fun log => log, fun _ => rfl⟩)
        (ht.congr (.of_blocks_eq hblocks)) ((hshape.isChild h prev).mpr hh)
    simp only [setStateOrStop, wlp_when, wlp_bind, wlp_check]
    exact ⟨fun _ _ => hdelete _ rfl, fun _ => hdelete t rfl⟩

end Btc

end AltIntegration
