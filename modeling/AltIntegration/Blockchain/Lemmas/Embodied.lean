import AltIntegration.Blockchain.TreeInvariants
import AltIntegration.Blockchain.Lemmas.Applied
import AltIntegration.Blockchain.Lemmas.Delivery
import AltIntegration.Blockchain.Lemmas.SystemChanges

/-!
This module contains what holds of the ALT tree between two calls, whatever has been restored: a connected block has
a body, and the blocks of the active chain, and no others, are applied.
-/

namespace AltIntegration

open Program BlockIndex

variable {α : Type} {cfg : Config} {s : AltState} {t t' : Tree AltAddon} {h p x : Hash} {b : BlockIndex AltAddon}
  {f : BlockIndex AltAddon → BlockIndex AltAddon}

structure Tree.Embodied (t : Tree AltAddon) : Prop where
  wf : t.WF
  tip : ∃ b, t.find? t.activeTip = some b
  bodies : ∀ ⦃x b p⦄, t.find? x = some b → b.pprev = some p → b.isConnected = true → b.status.hasPayloads = true
  applied : ∀ ⦃x b⦄, t.find? x = some b → (b.status.active = true ↔ x ∈ t.chainTo t.activeTip)

namespace Tree.Embodied

theorem appliedTo (ht : t.Embodied) : t.AppliedTo t.activeTip t := ⟨.refl t, rfl, ht.applied⟩

/-- Nothing counts but the places of the blocks, their bodies and the active chain. -/
theorem congr (ht : t.Embodied) (hs : t.SameOn (fun b => (b.footing, b.status.active)) t') (htip : t'.activeTip = t.activeTip) :
    t'.Embodied := by
  have hshape : t.SameShape t' := hs.comp (fun k => k.1.1)
  refine ⟨ht.wf.congr hshape, ?_, fun x b' p hb' hp hc => ?_, fun x b' hb' => ?_⟩
  . obtain ⟨b, hb⟩ := ht.tip
    obtain ⟨b', hb', _⟩ := hs.symm.find? hb
    exact ⟨b', htip ▸ hb'⟩
  . obtain ⟨b, hb, heq⟩ := hs.find? hb'
    obtain ⟨hfoot, _⟩ := Prod.mk.inj heq
    obtain ⟨hsh, hrest⟩ := Prod.mk.inj hfoot
    obtain ⟨hpay, hconn⟩ := Prod.mk.inj hrest
    rw [← hpay]
    exact ht.bodies hb ((shape_eq_iff.mp hsh).2.1.trans hp) (hconn.trans hc)
  . obtain ⟨b, hb, heq⟩ := hs.find? hb'
    rw [← (Prod.mk.inj heq).2, htip, hshape.chainTo]
    exact ht.applied hb

theorem quiet (ht : t.Embodied) (hq : t.Quiet t') : t'.Embodied :=
  ht.congr (hq.same.comp (fun u => ((u.1, u.2.hasPayloads, decide (.connected ≤ u.2.level)), u.2.active))) hq.activeTip

theorem tryAddTip (ht : t.Embodied) (h : Hash) : (t.tryAddTip h).Embodied :=
  ht.quiet (Tree.Flagged.tryAddTip t h).quiet

/-- The chain that is applied becomes the active chain. -/
theorem of_appliedTo (ht : t.Embodied) (hx : t.find? x = some b) (ha : t.AppliedTo x t') {t'' : Tree AltAddon} (hblocks : t''.blocks = t'.blocks)
    (htip : t''.activeTip = x) : t''.Embodied := by
  have hsame : t.SameOn footing t'' := ha.same.trans (.of_blocks_eq hblocks)
  have hshape : t.SameShape t'' := hsame.comp Prod.fst
  refine ⟨ht.wf.congr hshape, ?_, fun x b' p hb' hp hc => ?_, fun y b' hb' => ?_⟩
  . obtain ⟨b', hb', _⟩ := hsame.symm.find? hx
    exact ⟨b', htip ▸ hb'⟩
  . obtain ⟨b, hb, heq⟩ := hsame.find? hb'
    obtain ⟨hsh, hrest⟩ := Prod.mk.inj heq
    obtain ⟨hpay, hconn⟩ := Prod.mk.inj hrest
    rw [← hpay]
    exact ht.bodies hb ((shape_eq_iff.mp hsh).2.1.trans hp) (hconn.trans hc)
  . unfold Tree.find? at hb'
    rw [hblocks] at hb'
    rw [htip, hshape.chainTo]
    exact ha.active hb'

/-- A block that is not applied may change, as long as it is not connected without a body. -/
theorem update (ht : t.Embodied) (hb : t.find? h = some b) (hf : KeepsShape f) (ha : (f b).status.active = b.status.active)
    (hc : b.pprev ≠ none → (f b).isConnected = true → (f b).status.hasPayloads = true) : (t.update h f).Embodied := by
  have hshape := Tree.SameShape.update t h hf
  refine ⟨ht.wf.congr hshape, ?_, fun x b' p hb' hp hconn => ?_, fun x b' hb' => ?_⟩
  . obtain ⟨b', hb'⟩ := ht.tip
    obtain ⟨b'', hb'', _⟩ := hshape.symm.find? hb'
    exact ⟨b'', hb''⟩
  . rw [Tree.find?_update] at hb'
    split at hb'
    . next heq =>
      subst heq
      rw [hb] at hb'
      cases hb'
      refine hc ?_ hconn
      rw [← hf.pprev, hp]
      exact Option.some_ne_none p
    . exact ht.bodies hb' hp hconn
  . rw [show (t.update h f).activeTip = t.activeTip from rfl, hshape.chainTo]
    rw [Tree.find?_update] at hb'
    split at hb'
    . next heq =>
      subst heq
      rw [hb] at hb'
      cases hb'
      rw [ha]
      exact ht.applied hb
    . exact ht.applied hb'

theorem create {header : Block} {prev : BlockIndex AltAddon} (ht : t.Embodied) (hnew : t.find? header.hash = none)
    (hprev : t.getBlockIndex header.previousBlock = some prev) :
    (t.createBlockIndex header prev).Embodied := by
  have hprev := (Tree.getBlockIndex_eq_some.mp hprev).1
  have hwf := ht.wf.create hnew hprev
  obtain ⟨btip, hbtip⟩ := ht.tip
  have hext : t.Extends (t.createBlockIndex header prev) :=
    fun x b hb => ⟨b, Tree.find?_createBlockIndex_of_some hnew hb, rfl⟩
  have hchain : (t.createBlockIndex header prev).chainTo t.activeTip = t.chainTo t.activeTip := hext.chainTo ht.wf hwf hbtip
  refine ⟨hwf, ⟨btip, Tree.find?_createBlockIndex_of_some hnew hbtip⟩, fun x b p hb hp hc => ?_, fun x b hb => ?_⟩
  . rcases Tree.find?_createBlockIndex_cases hb with ⟨_, rfl⟩ | hb
    . cases hc
    . exact ht.bodies hb hp hc
  . rw [show (t.createBlockIndex header prev).activeTip = t.activeTip from rfl, hchain]
    rcases Tree.find?_createBlockIndex_cases hb with ⟨rfl, rfl⟩ | hb
    . refine ⟨(by cases ·), fun hmem => ?_⟩
      obtain ⟨b', hb'⟩ := ht.wf.find?_of_mem_chainTo hmem
      rw [hnew] at hb'
      cases hb'
    . exact ht.applied hb

end Tree.Embodied

abbrev KeepsEmbodied (m : M AltState α) : Prop := Keeps (fun (_ : Unit) s => s.alt.Embodied) (fun _ _ => True) m

namespace AltBlockTree

theorem quiet_updatePopState (t : Tree AltAddon) (h : Hash) (f : PopState → PopState) :
    t.Quiet (t.updatePopState h f) := ⟨.update t h (fun _ _ => rfl), rfl⟩

theorem zoom_sp_quiet (m : M VbkState α) (s : AltState) : wlp (zoom AltState.spState m) (fun _ s' => s.alt.Quiet s'.alt) s :=
  wlp_zoom.mpr (wlp_iff.mpr (fun _ _ _ => .refl s.alt))

theorem stateMachine_local : (stateMachine cfg).Local where
  ed_ing _ _ := rfl
  getCommands _ := .bind .get (fun _ => .bind Stays.getOrStop (fun _ => .bind Stays.getOrStop (fun _ =>
    .bind Stays.getOrStop (fun _ => .pure _))))
  execute cmd := by
    refine Stays.of_wlp (fun _ _ _ => .trans) (fun s => ?_)
    cases cmd with
    | addVbkBlock b => exact zoom_sp_quiet _ s
    | addVTB v => exact zoom_sp_quiet _ s
    | checkPublicationData c h => exact .refl s.alt
    | addEndorsement e =>
      simp only [stateMachine, AltCommand.execute, AddEndorsement.execute, wlp_bind, wlp_get, wlp_ite, wlp_zoom, wlp_modify, wlp_pure]
      refine ⟨fun _ => ?_, fun _ => .refl s.alt⟩
      exact (quiet_updatePopState s.alt e.containingHash (·.insertContainingEndorsement e)).trans
        (quiet_updatePopState _ e.endorsedHash (·.insertEndorsedBy e))
  unExecute cmd := by
    refine Stays.of_wlp (fun _ _ _ => .trans) (fun s => ?_)
    cases cmd with
    | addVbkBlock b => exact zoom_sp_quiet _ s
    | addVTB v => exact zoom_sp_quiet _ s
    | checkPublicationData c h => exact .refl s.alt
    | addEndorsement e =>
      simp only [stateMachine, AltCommand.unExecute, AddEndorsement.unExecute, wlp_bind, wlp_get, wlp_getOrStop, wlp_check, wlp_zoom,
        wlp_modify]
      intro _ _ _ _ _ _ stored _ _ _
      exact (quiet_updatePopState s.alt e.endorsedHash (·.eraseFromEndorsedBy stored)).trans
        (quiet_updatePopState _ e.containingHash (·.removeContainingEndorsement stored))

theorem modify_embodied {f : Tree AltAddon → Tree AltAddon} (hf : ∀ t : Tree AltAddon, t.Quiet (f t)) :
    KeepsEmbodied (zoom AltState.altTree (modify f)) := by
  intro _ s hs
  rw [wp_zoom, wp_modify]
  exact hs.quiet (hf s.alt)

theorem zoom_flagged_embodied {m : M (Tree AltAddon) α} (hm : KeepsFlagged m) : KeepsEmbodied (zoom AltState.altTree m) := by
  intro _ s hs
  rw [wp_zoom]
  exact wp_mono (hm s.alt s.alt (.refl _)) (fun _ _ h => hs.quiet h.quiet) (fun _ _ h => h)

theorem check_embodied {p : Bool} {e : Assertion} : KeepsEmbodied (check p e) := .check (fun _ _ _ => trivial)

theorem getOrStop_embodied {o : Option α} {e : Assertion} : KeepsEmbodied (getOrStop o e) := .getOrStop (fun _ _ _ => trivial)

theorem derefBlock_embodied (h : Hash) : KeepsEmbodied (zoom AltState.altTree (derefBlock h)) :=
  zoom_flagged_embodied (.derefBlock h)

theorem getTree_embodied : KeepsEmbodied (altClass cfg).getTree := .bind .get (fun _ => .pure _)

theorem updateTips_embodied : KeepsEmbodied (updateTips (altClass cfg)) := by
  refine .bind getTree_embodied (fun _ => .ite (.bind getTree_embodied (fun _ => .bind (modify_embodied (fun _ =>
    ⟨.of_blocks_eq rfl, rfl⟩)) (fun _ => .forEach (fun _ => ?_) _))) (modify_embodied (fun _ => ⟨.of_blocks_eq rfl, rfl⟩)))
  exact .bind getTree_embodied (fun _ => .bind check_embodied (fun _ => .bind (.pure _) (fun _ =>
    .bind getTree_embodied (fun _ => check_embodied))))

/-- When it succeeds the block is the tip. -/
theorem wlp_setState (hs : s.alt.Embodied) : wlp (setState cfg h) (fun ok s' => s'.alt.Embodied ∧ s.alt.SameShape s'.alt ∧
    (ok = true → s'.alt.activeTip = h)) s := by
  simp only [setState, wlp_bind, wlp_zoom_derefBlock, wlp_check]
  intro b hb _
  refine wlp_mono (stateMachine_local.wlp_comparatorSetState h hs.wf hs.appliedTo) (fun ok s1 h1 => ?_)
  have h1 : s.alt.AppliedTo (if ok then h else s.alt.activeTip) s1.alt := h1
  cases ok with
  | true =>
    simp only [settle, overrideTip, ↓reduceIte, wlp_bind, wlp_zoom_derefBlock, wlp_check]
    intro _ _ _
    simp only [wlp_zoom, wlp_modify, wlp_get, wlp_pure]
    intro _
    exact ⟨hs.of_appliedTo hb h1 rfl rfl, h1.shape.trans (.of_blocks_eq rfl), fun _ => rfl⟩
  | false =>
    simp only [settle, Bool.false_eq_true, ↓reduceIte, wlp_bind, wlp_zoom_derefBlock, wlp_check, wlp_get, wlp_pure]
    intro _ _ _ _
    obtain ⟨_, htip⟩ := hs.tip
    exact ⟨hs.of_appliedTo htip h1 rfl h1.activeTip, h1.shape, (by cases ·)⟩

theorem setState_embodied (h : Hash) : KeepsEmbodied (setState cfg h) :=
  fun _ _ hs => wlp_mono (wlp_setState hs) (fun _ _ h => h.1)

theorem setStateByHash_embodied (h : Hash) : KeepsEmbodied (setStateByHash cfg h) := by
  refine .bind .get (fun _ => ?_)
  split
  . exact .pure _
  . exact setState_embodied h

theorem setStateOrStop_embodied (h : Hash) : KeepsEmbodied (setStateOrStop (altClass cfg) h) :=
  .bind (setState_embodied h) (fun _ => check_embodied)

theorem comparePopScore_embodied (x y : Hash) : KeepsEmbodied (comparePopScore cfg x y) := by
  intro _ s hs
  refine (?_ : wlp _ (fun _ s' => s'.alt.Embodied) s)
  simp only [comparePopScore, wlp_bind, wlp_get, wlp_getOrStop, wlp_check]
  intro _ _ _
  split
  . exact hs
  . next right hright =>
    simp only [wlp_bind, wlp_check]
    intro _ _
    refine wlp_mono (stateMachine_local.wlp_comparePopScore hs.wf hs.appliedTo) (fun r s1 h1 => ?_)
    have h1 : s.alt.AppliedTo (if r < 0 then y else s.alt.activeTip) s1.alt := h1
    simp only [wlp_when, wlp_zoom, wlp_modify, wlp_pure, decide_eq_true_eq, decide_eq_false_iff_not]
    refine ⟨fun hr => ?_, fun hr => ?_⟩
    . rw [if_pos hr] at h1
      exact hs.of_appliedTo (Tree.getBlockIndex_eq_some.mp hright).1 h1 rfl rfl
    . rw [if_neg hr] at h1
      obtain ⟨_, htip⟩ := hs.tip
      exact hs.of_appliedTo htip h1 rfl h1.activeTip

theorem invalidateSubtree_embodied (h : Hash) (r : BlockValidityStatus) (f : Bool) :
    KeepsEmbodied (invalidateSubtree (altClass cfg) h r f) := by
  refine .bind getTree_embodied (fun _ => .bind getOrStop_embodied (fun _ => .bind getOrStop_embodied (fun prev => ?_)))
  intro _ s hs
  rw [wp_bind, wp_check]
  refine ⟨fun hr => ?_, fun _ => trivial⟩
  have hr : r = .failedBlock ∨ r = .failedPop ∨ r = .failedChild := by
    simp only [isValidInvalidationReason, Bool.or_eq_true, decide_eq_true_eq] at hr
    exact hr.imp_right .inl
  refine Keeps.ite (.pure _) (.ite (zoom_flagged_embodied (.doInvalidate h hr)) ?_) () s hs
  exact .bind (.when (setStateOrStop_embodied prev)) (fun _ => .bind (zoom_flagged_embodied (.flagSubtree h prev hr)) (fun _ =>
    .when updateTips_embodied))

theorem revalidateSubtree_embodied (h : Hash) (r : BlockValidityStatus) (f : Bool) :
    KeepsEmbodied (revalidateSubtree (altClass cfg) h r f) := by
  refine .bind getTree_embodied (fun _ => .bind getOrStop_embodied (fun _ => .bind check_embodied (fun _ => ?_)))
  intro _ s hs
  rw [wp_bind, wp_check]
  refine ⟨fun hr => ?_, fun _ => trivial⟩
  have hr : r = .failedBlock ∨ r = .failedPop ∨ r = .failedChild := by
    simp only [isValidInvalidationReason, Bool.or_eq_true, decide_eq_true_eq] at hr
    exact hr.imp_right .inl
  refine Keeps.ite (.pure _) (.ite (zoom_flagged_embodied (.doReValidate h hr)) ?_) () s hs
  exact .bind (zoom_flagged_embodied (.unflagSubtree h hr)) (fun _ => .when updateTips_embodied)

section Delete

theorem wlp_deleteLeaf (ht : t.Embodied) (hoff : h ∉ t.chainTo t.activeTip) : wlp (deleteLeaf onBeforeLeafRemoved h)
    (fun _ t' => t'.Embodied ∧ t.SameShape t' ∧ t'.activeTip = t.activeTip) t := by
  simp only [deleteLeaf, wlp_bind, wlp_derefBlock, wlp_modify, wlp_check, wlp_modifyBlock]
  intro b hb _
  obtain ⟨f, g, hf⟩ := onlyPayloadsIndex b
  have hblocks : ((onBeforeLeafRemoved b t).eraseTip h).blocks = t.blocks := by
    rw [hf]
    rfl
  have htip : ((onBeforeLeafRemoved b t).eraseTip h).activeTip = t.activeTip := by
    rw [hf]
    rfl
  have ht1 : ((onBeforeLeafRemoved b t).eraseTip h).Embodied := ht.quiet ⟨.of_blocks_eq hblocks, htip⟩
  have hb1 : ((onBeforeLeafRemoved b t).eraseTip h).find? h = some b := by
    unfold Tree.find?
    rw [hblocks]
    exact hb
  have hactive : b.status.active = false := by
    rw [← Bool.not_eq_true, ht.applied hb]
    exact hoff
  refine ⟨ht1.update hb1 keepsShape_deleteTemporarily hactive.symm (fun _ hc => (by cases hc)), ?_, htip⟩
  exact (Tree.SameOn.of_blocks_eq hblocks).trans (Tree.SameShape.update _ h keepsShape_deleteTemporarily)

/-- A subtree is deleted that is not on the active chain. -/
theorem wlp_deletePostorder {p : BlockIndex AltAddon → Bool} (n : Nat) (ht : t.Embodied) (hoff : h ∉ t.chainTo t.activeTip) :
    wlp (forEachNodePostorder (deleteLeaf onBeforeLeafRemoved) p n h)
      (fun _ t' => t'.Embodied ∧ t.SameShape t' ∧ t'.activeTip = t.activeTip) t := by
  induction n generalizing h t with
  | zero => exact ⟨ht, .refl t, rfl⟩
  | succ n ih =>
    have hkeep : ∀ {t' : Tree AltAddon} {x : Hash}, t.SameShape t' → t'.activeTip = t.activeTip →
        x ∉ t.chainTo t.activeTip → x ∉ t'.chainTo t'.activeTip := by
      intro t' x hs htip hx
      rw [htip, hs.chainTo]
      exact hx
    simp only [forEachNodePostorder, wlp_bind, wlp_get]
    refine wlp_mono (wlp_forEach (I := fun t' => t'.Embodied ∧ t.SameShape t' ∧ t'.activeTip = t.activeTip) ?_
      ⟨ht, .refl t, rfl⟩) ?_
    . rintro c hc t1 ⟨ht1, hs1, htip1⟩
      have hchild := ht.wf.mem_pnext.mp (List.mem_filter.mp (List.mem_reverse.mp hc)).1
      have hc : c ∉ t.chainTo t.activeTip := fun hmem => hoff (ht.wf.mem_chainTo_of_child hmem hchild)
      refine wlp_mono (ih ht1 (hkeep hs1 htip1 hc)) ?_
      rintro _ t2 ⟨ht2, hs2, htip2⟩
      exact ⟨ht2, hs1.trans hs2, htip2.trans htip1⟩
    . rintro _ t1 ⟨ht1, hs1, htip1⟩
      refine wlp_mono (wlp_deleteLeaf ht1 (hkeep hs1 htip1 hoff)) ?_
      rintro _ t2 ⟨ht2, hs2, htip2⟩
      exact ⟨ht2, hs1.trans hs2, htip2.trans htip1⟩

theorem removeSubtree_embodied (h : Hash) : KeepsEmbodied (removeSubtree (altClass cfg) h) := by
  intro _ s hs
  refine (?_ : wlp _ (fun _ s' => s'.alt.Embodied) s)
  simp only [removeSubtree, TreeClass.getTree, wlp_bind, wlp_get, wlp_pure, wlp_getOrStop]
  intro b hb p hp
  have hb : s.alt.find? h = some b := hb
  have hdelete : ∀ s1 : AltState, s1.alt.Embodied → s1.alt.onActiveChain h = false →
      wlp (zoom AltState.altTree (deleteSubtree onBeforeLeafRemoved h p)) (fun _ s' => s'.alt.Embodied) s1 := by
    intro s1 hs1 hoff
    rw [wlp_zoom]
    simp only [deleteSubtree, wlp_bind, wlp_get, wlp_modify]
    refine wlp_mono (wlp_deletePostorder _ hs1 (Tree.onActiveChain_eq_false_iff.mp hoff)) ?_
    exact fun _ t1 ht1 => ht1.1.tryAddTip p
  rw [wlp_when]
  refine ⟨fun hon => ?_, fun hoff => ?_⟩
  . simp only [setStateOrStop, wlp_bind, wlp_check]
    refine wlp_mono (wlp_setState hs) ?_
    rintro ok s1 ⟨hs1, hshape, htip⟩ hok
    refine wlp_mono (hdelete s1 hs1 ?_) (fun _ s2 hs2 => Keeps.when updateTips_embodied () s2 hs2)
    -- the tip is now the block before the deleted one
    rw [Tree.onActiveChain_eq_false_iff, htip hok, hshape.chainTo]
    intro hmem
    have hle := hs.wf.heightOf_le hmem
    have hlt := hs.wf.heightOf_child ⟨b, hb, hp⟩
    omega
  . refine wlp_mono (hdelete s hs hoff) (fun _ s2 hs2 => Keeps.when updateTips_embodied () s2 hs2)

end Delete

section Header

/-- A level below `BLOCK_CONNECTED` may be raised to another one. -/
theorem wlp_raiseValidity_low {upTo : BlockStateStatus} (ht : t.Embodied) (hup : ¬.connected ≤ upTo) :
    wlp (raiseValidity h upTo) (fun _ t' => t'.Embodied) t := by
  cases hb : t.find? h with
  | none => simp [raiseValidity, wlp_derefBlock, hb]
  | some b =>
    refine wlp_raiseValidity hb (fun _ => ht) (fun _ _ => ht.update hb (keepsShape_setLevel upTo) rfl (fun _ hc => ?_))
    rw [isConnected, isValidUpTo, decide_eq_true_eq] at hc
    exact absurd hc hup

theorem wlp_insertRestored (ht : t.Embodied) {header : Block} :
    wlp (insertBlockHeader.insertRestored (fun _ t => t) header) (fun _ t' => t'.Embodied) t := by
  simp only [insertBlockHeader.insertRestored, restore, wlp_bind, wlp_derefBlock, wlp_check, wlp_when, wlp_modify, wlp_modifyBlock,
    wlp_pure]
  intro b hb _
  have hupdate : ∀ {t1 : Tree AltAddon}, t1.Embodied → t1.find? header.hash = some b →
      wlp (raiseValidity header.hash .validTree) (fun _ t' => t'.Embodied)
        ((t1.update header.hash (fun b => b.unsetFlag .deleted)).tryAddTip header.hash) := by
    intro t1 ht1 hb1
    refine wlp_raiseValidity_low (Tree.Embodied.tryAddTip (ht1.update hb1 (keepsShape_unsetFlag .deleted) ?_ ?_) _) (by decide)
    . rw [unsetFlag_status]
      rfl
    . rw [isConnected, isValidUpTo, unsetFlag_status]
      intro hp hc
      obtain ⟨p, hp⟩ := Option.ne_none_iff_exists'.mp hp
      exact ht1.bodies hb1 hp hc
  exact ⟨fun _ => hupdate (ht.quiet ⟨.of_blocks_eq rfl, rfl⟩) hb, fun _ => hupdate ht hb⟩

theorem wlp_insertBlockHeader (ht : t.Embodied) {header : Block} :
    wlp (insertBlockHeader (fun _ t => t) header) (fun _ t' => t'.Embodied) t := by
  simp only [insertBlockHeader, wlp_bind, wlp_check, wlp_get]
  intro _
  split
  . simp only [wlp_ite, wlp_bind, wlp_check, wlp_pure]
    exact ⟨fun _ _ => wlp_insertRestored ht, fun _ => ht⟩
  . next hnew =>
    simp only [doInsertBlockHeader, wlp_bind, wlp_get, wlp_getOrStop, wlp_modify]
    exact fun _ hprev => wlp_insertRestored (ht.create hnew hprev)

theorem acceptBlockHeader_embodied (block : Block) : KeepsEmbodied (acceptBlockHeader block) := by
  refine .bind check_embodied (fun _ => .bind .get (fun s => .ite (.pure _) ?_))
  split
  . exact .pure _
  . refine .bind ?_ (fun _ => .bind (derefBlock_embodied _) (fun _ => .ite (.pure _) (.bind (modify_embodied (fun t =>
      (Tree.Flagged.tryAddTip t _).quiet)) (fun _ => .pure _))))
    intro _ s hs
    rw [wp_zoom]
    exact wp_mono (wlp_insertBlockHeader hs) (fun _ _ h => h) (fun _ _ h => h)

end Header

section Deliver

theorem quiet_commitPayloadsIds (h : Hash) (q : PopData) (t : Tree AltAddon) : t.Quiet (commitPayloadsIds h q t) where
  same := Tree.unfailed_of_core (sameCore_commitPayloadsIds h q t).core
  activeTip := by
    have htip := congrArg Tree.activeTip (Delivery.delivered_eq h q t)
    exact htip

theorem setPayloads_embodied (h : Hash) (q : PopData) : KeepsEmbodied (setPayloads h q) := by
  intro _ s hs
  refine (?_ : wlp _ (fun _ s' => s'.alt.Embodied) s)
  simp only [setPayloads, wlp_bind, wlp_zoom_derefBlock, wlp_check]
  intro b hb _ _ _ _ _
  simp only [wlp_zoom, wlp_modify, wlp_modifyBlock]
  have hq := quiet_commitPayloadsIds h q s.alt
  obtain ⟨b', hb', _⟩ := hq.same.symm.find? hb
  refine (hs.quiet hq).update hb' (keepsShape_setFlag .hasPayloads) ?_ (fun _ _ => ?_)
  . rw [setFlag_status]
    rfl
  . rw [setFlag_status]
    rfl

theorem connectBlock_embodied (h : Hash) : KeepsEmbodied (connectBlock cfg h) := by
  intro _ s hs
  refine (?_ : wlp _ (fun _ s' => s'.alt.Embodied) s)
  simp only [connectBlock, wlp_bind, wlp_zoom_derefBlock, wlp_check, wlp_getOrStop, wlp_get]
  intro b hb hpay _ _ p _ prev _ _ _
  have hb : s.alt.find? h = some b := hb
  have hraise : wlp (raiseValidity h .connected) (fun _ t' => t'.Embodied) s.alt :=
    wlp_raiseValidity hb (fun _ => hs) (fun _ _ => hs.update hb (keepsShape_setLevel _) rfl (fun _ _ => hpay))
  rw [wlp_zoom]
  refine wlp_mono hraise (fun ok t1 ht1 _ => ?_)
  refine wlp_mono (Keeps.when (invalidateSubtree_embodied h _ _) () { s with alt := t1 } ht1) (fun _ s2 hs2 => ?_)
  exact modify_embodied (fun t => (Tree.Flagged.tryAddTip t h).quiet) () s2 hs2

theorem connectSubtree_embodied (n : Nat) (h : Hash) : KeepsEmbodied (connectSubtree cfg n h) := by
  induction n generalizing h with
  | zero => exact .pure _
  | succ n ih =>
    exact .bind (derefBlock_embodied h) (fun _ => .when (.bind (connectBlock_embodied h) (fun _ => .bind .get (fun _ =>
      .forEach ih _))))

theorem acceptBlock_embodied (h : Hash) (q : PopData) : KeepsEmbodied (acceptBlock cfg h q) :=
  .bind .get (fun _ => .bind check_embodied (fun _ => .bind (setPayloads_embodied h q) (fun _ =>
    .bind (derefBlock_embodied h) (fun _ => .bind getOrStop_embodied (fun p => .bind (derefBlock_embodied p) (fun _ =>
    .when (connectSubtree_embodied _ h)))))))

end Deliver

section Remove

theorem quiet_clearSideEffects (h : Hash) (t : Tree AltAddon) : t.Quiet (clearSideEffects h t) where
  same := Tree.unfailed_of_core (sameCore_clearSideEffects h t).core
  activeTip := by
    unfold clearSideEffects
    split
    . rfl
    . next b _ =>
      obtain ⟨f, g, hf⟩ := onlyPayloadsIndex b
      split
      . rw [hf]
        rfl
      . rfl

/-- The level goes down to `BLOCK_VALID_TREE`, if it is not that low already. -/
theorem wlp_disconnect_embodied (ht : (t.update h (fun b => b.setLevel .validTree)).Embodied) :
    wlp (disconnect h) (fun _ t' => t'.Embodied) t := by
  simp only [disconnect, lowerValidity, wlp_bind, wlp_derefBlock, wlp_when, wlp_ite, wlp_modifyBlock, wlp_pure, wlp_check]
  intro b hb
  refine ⟨fun _ b' _ => ⟨fun _ _ => ht, fun _ => (by cases ·)⟩, fun hlow => ?_⟩
  refine ht.congr (Tree.SameOn.symm (.update t h (fun b' hb' => ?_))) rfl
  rw [hb] at hb'
  cases hb'
  exact Prod.ext (Prod.ext rfl (Prod.ext rfl hlow.symm)) rfl

theorem removePayloads_embodied (h : Hash) : KeepsEmbodied (removePayloads cfg h) := by
  intro _ s hs
  refine (?_ : wlp _ (fun _ s' => s'.alt.Embodied) s)
  simp only [removePayloads, wlp_bind, wlp_get, wlp_getOrStop, wlp_check]
  intro b hb p hp _ _ _
  rw [wlp_zoom, wlp_modify, wlp_zoom, wlp_modifyBlock]
  have hq := quiet_clearSideEffects h s.alt
  obtain ⟨b1, hb1, _⟩ := hq.same.symm.find? (Tree.getBlockIndex_eq_some.mp hb).1
  have hlow : ((withoutPayloads h s.alt).update h (fun b => b.setLevel .validTree)).Embodied := by
    unfold withoutPayloads
    rw [Tree.update_update]
    refine (hs.quiet hq).update hb1 (fun b => keepsShape_unsetFlag _ b) ?_ (fun _ hc => (by cases hc))
    show (b1.unsetFlag .hasPayloads).status.active = b1.status.active
    rw [unsetFlag_status]
    rfl
  have hflag : wlp (revalidateSubtree (altClass cfg) h .failedPop false)
      (fun _ s' => (withoutPayloads h s.alt).Flagged s'.alt) { s with alt := withoutPayloads h s.alt } := by
    simp only [revalidateSubtree, TreeClass.getTree, wlp_bind, wlp_get, wlp_pure, wlp_getOrStop, wlp_check, wlp_ite, wlp_zoom,
      wlp_when]
    refine fun _ _ _ _ => ⟨fun _ => .refl _, fun _ => ⟨fun _ => ?_, fun _ => ?_⟩⟩
    . exact KeepsFlagged.doReValidate h (.inr (.inl rfl)) _ _ (.refl _)
    . refine wlp_mono (KeepsFlagged.unflagSubtree h (.inr (.inl rfl)) _ _ (.refl _)) (fun _ t ht => ?_)
      exact ⟨(by cases ·), fun _ => ht⟩
  refine wlp_mono hflag (fun _ s2 h2 => ?_)
  rw [wlp_zoom]
  simp only [wlp_bind, wlp_modify]
  refine wlp_mono (wlp_disconnect_embodied (hlow.quiet ⟨?_, h2.quiet.activeTip⟩)) (fun _ t3 ht3 => ?_)
  . refine h2.quiet.same.update_both (fun b b' heq => ?_)
    obtain ⟨hshape, hstatus⟩ := unfailed_eq_iff.mp heq
    exact Prod.ext hshape (congrArg (fun s : BlockStatus => { s with level := .validTree }) hstatus)
  . exact Tree.Embodied.tryAddTip (ht3.quiet (Tree.Flagged.eraseTip t3 h).quiet) p

end Remove

end AltBlockTree

namespace Op

theorem onVbk_embodied {m : M VbkState α} : KeepsEmbodied (onVbk m) := by
  refine .bind ?_ (fun _ => .pure _)
  intro _ s hs
  rw [wp_zoom]
  exact wlp_iff.mpr (fun _ _ _ => hs)

theorem exec_embodied (op : Op) : KeepsEmbodied (op.exec cfg) := by
  have hblock : ∀ {m : M AltState Unit} (h : Hash), KeepsEmbodied m → KeepsEmbodied (withBlock (altClass cfg) h m) :=
    fun _ hm => .bind AltBlockTree.getTree_embodied (fun _ => .bind AltBlockTree.check_embodied (fun _ => hm))
  cases op with
  | acceptBlockHeader b => exact .bind (AltBlockTree.acceptBlockHeader_embodied b) (fun _ => .pure _)
  | acceptBlock h p => exact AltBlockTree.acceptBlock_embodied h p
  | setState h => exact .bind (AltBlockTree.setStateByHash_embodied h) (fun _ => .pure _)
  | comparePopScore x y => exact .bind (AltBlockTree.comparePopScore_embodied x y) (fun _ => .pure _)
  | removePayloads h => exact AltBlockTree.removePayloads_embodied h
  | removeSubtree h => exact hblock h (AltBlockTree.removeSubtree_embodied h)
  | invalidateSubtree h r f => exact hblock h (AltBlockTree.invalidateSubtree_embodied h r f)
  | revalidateSubtree h r f => exact hblock h (AltBlockTree.revalidateSubtree_embodied h r f)
  | writePayloads p => exact .modify (fun _ _ hs => hs)
  | _ => exact onVbk_embodied

end Op

theorem Tree.embodied_bootstrapAlt (block : Block) : (Tree.bootstrapAlt block).Embodied := by
  have hfind : ∀ {x b}, (Tree.bootstrapAlt block).find? x = some b → x = block.hash ∧ b.pprev = none ∧ b.status.active = true := by
    intro x b hb
    unfold Tree.find? Tree.bootstrapAlt at hb
    rw [Store.find?_insert] at hb
    split at hb
    . next heq =>
      cases hb
      exact ⟨heq.symm, rfl, rfl⟩
    . cases hb
  have hroot : ∃ b, (Tree.bootstrapAlt block).find? block.hash = some b := by
    refine ⟨_, (Store.find?_insert _ _ _ _).trans (if_pos rfl)⟩
  have hinv : (Tree.bootstrapAlt block).Inv .validTree [] := Tree.inv_singleton rfl rfl rfl rfl rfl
  have hwf := hinv.wf
  refine ⟨hwf, hroot, fun x b p hb hp => ?_, fun x b hb => ?_⟩
  . rw [(hfind hb).2.1] at hp
    cases hp
  . obtain ⟨rfl, _, hactive⟩ := hfind hb
    exact ⟨fun _ => hwf.mem_chainTo_self hb, fun _ => hactive⟩

theorem Reachable.embodied (hs : Reachable cfg s) : s.alt.Embodied := by
  induction hs with
  | @bootstrap b s h =>
    have hchains : KeepsEmbodied (b.chains cfg) := .bind Op.onVbk_embodied (fun _ => Op.onVbk_embodied)
    exact wlp_ok (hchains () (b.roots cfg) (Tree.embodied_bootstrapAlt b.alt)) h
  | @step s s' op _ h ih => exact wlp_ok (op.exec_embodied () s ih) h

end AltIntegration
