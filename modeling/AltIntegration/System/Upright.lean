import AltIntegration.System.Standing

/-!
This module contains that the functions of the VBK tree keep its active chain applied, and the work and the references of
the blocks of both proof-of-work trees accounted for.
-/

namespace AltIntegration

open Program BlockIndex

variable {σ A B α ι : Type} {cfg : Config} {S : PayloadsStorage → Prop}

section Endorsement

variable [PopAddon A] [PowAddon B] {I : ι → σ → Prop} {ed : Lens σ (Tree A)} {ing : Lens σ (Tree B)}
  (hed : ∀ i s h f, I i s → I i (ed.set ((ed.get s).updatePopState h f) s))
  (hing : ∀ i s h f, I i s → I i (ing.set ((ing.get s).updateBlockOfProof h f) s))

include hed hing

theorem addEndorsement_execute_keeping (n : Nat) (e : Endorsement) : Keeping I (AddEndorsement.execute ed ing n e) := by
  intro i s hs
  show wlp _ _ _
  simp only [AddEndorsement.execute, wlp_bind, wlp_get, wlp_ite, wlp_zoom, wlp_modify, wlp_pure]
  refine ⟨fun _ => hing i _ _ _ ?_, fun _ => hs⟩
  have h1 := hed i _ e.endorsedHash (·.insertEndorsedBy e) (hed i s e.containingHash (·.insertContainingEndorsement e) hs)
  rw [ed.get_set, ed.set_set] at h1
  exact h1

theorem addEndorsement_unExecute_keeping (e : Endorsement) : Keeping I (AddEndorsement.unExecute ed ing e) := by
  intro i s hs
  show wlp _ _ _
  simp only [AddEndorsement.unExecute, wlp_bind, wlp_get, wlp_getOrStop, wlp_check, wlp_zoom, wlp_modify]
  intro _ _ _ _ _ _ stored _ _ _
  exact hed i _ _ _ (hing i _ _ _ (hed i s _ _ hs))

end Endorsement

variable {s : VbkState} {h : Hash}

/-- What is counted of a VBK block: the references to it, and the VTBs in it -/
def VbkAddon.holdings (a : VbkAddon) : List Nat × List Nat := (RefAddon.refs a, a.vtbids)

namespace VbkState

/-- What holds of the trees and of the payloads behind them also while blocks are applied and unapplied. -/
structure Credited (cfg : Config) (S : PayloadsStorage → Prop) (s : VbkState) : Prop where
  vbk : s.vbk.Accounted cfg.vbk
  btc : s.btc.Accounted cfg.btc
  storage : S s.storage

structure Upright (cfg : Config) (S : PayloadsStorage → Prop) (s : VbkState) : Prop extends s.Credited cfg S where
  standing : s.vbk.Standing

/-- The trees are credited, and the VBK blocks are where they were in `t₀`, with all that is counted of them. -/
def Settled (cfg : Config) (S : PayloadsStorage → Prop) (t₀ : Tree VbkAddon) (s : VbkState) : Prop :=
  s.Credited cfg S ∧ t₀.SameOn (fun b => (b.labour, b.addon.holdings)) s.vbk

theorem Settled.credited {m : M VbkState α} (hm : Keeping (Settled cfg S) m) : Upholding (Credited cfg S) m :=
  Upholding.of_wlp (fun s hs => wlp_mono (hm.wlp (i := s.vbk) ⟨hs, .refl _⟩) (fun _ _ h => h.1))

theorem Credited.of_vbk {t : Tree VbkAddon} (hs : s.Credited cfg S)
    (ht : s.vbk.SameOn (fun b => (b.labour, RefAddon.refs b.addon)) t) : { s with vbk := t }.Credited cfg S :=
  ⟨hs.vbk.congr ht, hs.btc, hs.storage⟩

theorem Upright.of_vbk {t : Tree VbkAddon} (hs : s.Upright cfg S) (ht : s.vbk.Alike RefAddon.refs t) :
    { s with vbk := t }.Upright cfg S :=
  ⟨hs.toCredited.of_vbk (ht.same.comp Prod.fst), hs.standing.alike ht⟩

end VbkState

theorem alike_updateBlockOfProof [PowAddon A] [LawfulPowAddon A] [RefAddon A] (t : Tree A) (h : Hash)
    (f : List Endorsement → List Endorsement) : t.Alike RefAddon.refs (t.updateBlockOfProof h f) :=
  .updateAddon (fun b _ => ⟨LawfulPowAddon.chainWork_setBlockOfProofEndorsements _ b.addon,
    RefAddon.refs_setBlockOfProofEndorsements _ b.addon⟩)

namespace VbkBlockTree

open VbkState

theorem keeping_zoom_btc {m : M (Tree BtcAddon) α} (hm : Upholding (fun t => t.Accounted cfg.btc) m) :
    Keeping (Settled cfg S) (zoom VbkState.btcTree m) := by
  intro t₀ s hs
  show wlp _ _ _
  rw [wlp_zoom]
  exact wlp_mono (hm.wlp hs.1.btc) (fun _ _ hx => ⟨⟨hs.1.vbk, hx, hs.1.storage⟩, hs.2⟩)

theorem settled_updatePopState (t₀ : Tree VbkAddon) (s : VbkState) (h : Hash) (f : PopState → PopState)
    (hs : Settled cfg S t₀ s) : Settled cfg S t₀ { s with vbk := s.vbk.updatePopState h f } := by
  have hsame : s.vbk.SameOn (fun b => (b.labour, b.addon.holdings)) (s.vbk.updatePopState h f) := .update s.vbk h (fun _ _ => rfl)
  exact ⟨hs.1.of_vbk (hsame.comp (fun u => (u.1, u.2.1))), hs.2.trans hsame⟩

theorem settled_updateBlockOfProof (t₀ : Tree VbkAddon) (s : VbkState) (h : Hash) (f : List Endorsement → List Endorsement)
    (hs : Settled cfg S t₀ s) : Settled cfg S t₀ { s with btc := s.btc.updateBlockOfProof h f } :=
  ⟨⟨hs.1.vbk, hs.1.btc.congr ((alike_updateBlockOfProof s.btc h f).same.comp Prod.fst), hs.1.storage⟩, hs.2⟩

theorem stateMachine_upholds : (stateMachine cfg).Upholds RefAddon.refs (fun b => (b.labour, b.addon.holdings))
    (Settled cfg S) (fun t => t.Accounted cfg.btc) where
  ed _ _ _ hs ht := ⟨hs.1.of_vbk (ht.comp (fun u => (u.1, u.2.1))), hs.2.trans ht⟩
  bare _ _ heq := congrArg (fun u => ((u.1.1, u.1.2.deleted, PowAddon.chainWork u.2), u.2.holdings)) heq
  active v b := by rw [labour_setStatus b (by cases v <;> rfl), setStatus_addon]
  level _ _ := rfl
  ing_get _ _ hs := hs.1.btc
  ing_set _ _ _ hs hx _ := ⟨⟨hs.1.vbk, hx, hs.1.storage⟩, hs.2⟩
  protecting := btcClass_upholds.toSteady
  getCommands index := .bind .get (fun _ => .bind Keeping.getOrStop (fun _ => .pure _))
  execute cmd := by
    cases cmd with
    | addBtcBlock b n => exact keeping_zoom_btc (btcClass_upholds.addBlock_execute btcClass_counts b n)
    | addEndorsement e => exact addEndorsement_execute_keeping settled_updatePopState settled_updateBlockOfProof _ e
  unExecute cmd := by
    cases cmd with
    | addBtcBlock b n => exact keeping_zoom_btc (btcClass_upholds.addBlock_unExecute btcClass_counts b n)
    | addEndorsement e => exact addEndorsement_unExecute_keeping settled_updatePopState settled_updateBlockOfProof e

theorem quiet_updatePopState (t : Tree VbkAddon) (h : Hash) (f : PopState → PopState) : t.Quiet (t.updatePopState h f) :=
  ⟨.update t h (fun _ _ => rfl), rfl⟩

theorem stateMachine_local : (stateMachine cfg).Local where
  ed_ing _ _ := rfl
  getCommands _ := .bind .get (fun _ => .bind Stays.getOrStop (fun _ => .pure _))
  execute cmd := by
    refine Stays.of_wlp (fun _ _ _ => .trans) (fun s => ?_)
    cases cmd with
    | addBtcBlock b n => exact wlp_zoom.mpr (wlp_iff.mpr (fun _ _ _ => .refl s.vbk))
    | addEndorsement e =>
      simp only [stateMachine, VbkCommand.execute, AddEndorsement.execute, wlp_bind, wlp_get, wlp_ite, wlp_zoom, wlp_modify, wlp_pure]
      refine ⟨fun _ => ?_, fun _ => .refl s.vbk⟩
      exact (quiet_updatePopState s.vbk e.containingHash (·.insertContainingEndorsement e)).trans
        (quiet_updatePopState _ e.endorsedHash (·.insertEndorsedBy e))
  unExecute cmd := by
    refine Stays.of_wlp (fun _ _ _ => .trans) (fun s => ?_)
    cases cmd with
    | addBtcBlock b n => exact wlp_zoom.mpr (wlp_iff.mpr (fun _ _ _ => .refl s.vbk))
    | addEndorsement e =>
      simp only [stateMachine, VbkCommand.unExecute, AddEndorsement.unExecute, wlp_bind, wlp_get, wlp_getOrStop, wlp_check, wlp_zoom,
        wlp_modify]
      intro _ _ _ _ _ _ stored _ _ _
      exact (quiet_updatePopState s.vbk e.endorsedHash (·.eraseFromEndorsedBy stored)).trans
        (quiet_updatePopState _ e.containingHash (·.removeContainingEndorsement stored))

section Moves

variable {J : ι → VbkState → Prop} (hJ : (stateMachine cfg).Moves J)
  (hblocks : ∀ i s t', J i s → t'.blocks = s.vbk.blocks → J i { s with vbk := t' })

include hblocks

theorem overrideTip_keeping (h : Hash) : Keeping J (overrideTip h) :=
  .bind (.modify (fun i s hs => hblocks i s _ hs rfl)) (fun _ => .bind (Keeping.derefBlock h) (fun _ => Keeping.check))

theorem settle_keeping (h : Hash) (success : Bool) : Keeping J (settle h success) :=
  .ite (overrideTip_keeping hblocks h) (.bind (Keeping.derefBlock h) (fun _ => Keeping.check))

include hJ

theorem setState_keeping (h : Hash) : Keeping J (setState cfg h) :=
  .bind (hJ.comparatorSetState h) (fun _ => .bind (settle_keeping hblocks h _) (fun _ => .bind .get (fun _ =>
    .bind Keeping.check (fun _ => .pure _))))

theorem determineBestChain_keeping (h : Hash) : Keeping J (determineBestChain cfg h) := by
  refine .bind .get (fun _ => .ite (.pure _) (.bind (hJ.comparePopScore _ h) (fun _ => .ite ?_ (.when (overrideTip_keeping hblocks h)))))
  exact .bind .get (fun _ => .bind Keeping.getOrStop (fun _ => .when (.bind (setState_keeping hJ hblocks h) (fun _ => .pure _))))

end Moves

/-- The tip is the block when that has been applied, and the former tip otherwise. -/
theorem wlp_setState_standing (hs : s.vbk.Standing) : wlp (setState cfg h) (fun ok s' => s'.vbk.Standing ∧
    s.vbk.SameShape s'.vbk ∧ s'.vbk.activeTip = if ok then h else s.vbk.activeTip) s := by
  simp only [setState, wlp_bind]
  refine wlp_mono (stateMachine_local.wlp_comparatorSetState h hs.wf hs.appliedTo) (fun ok s1 h1 => ?_)
  have h1 : s.vbk.AppliedTo (if ok then h else s.vbk.activeTip) s1.vbk := h1
  cases ok with
  | true =>
    simp only [settle, overrideTip, ↓reduceIte, wlp_bind, wlp_zoom, wlp_modify, wlp_derefBlock, wlp_check, wlp_get, wlp_pure]
    intro b1 hb1 _ _
    have hb1 : s1.vbk.find? h = some b1 := hb1
    obtain ⟨b, hb, _⟩ := h1.shape.find? hb1
    exact ⟨hs.of_appliedTo hb h1 rfl rfl, h1.shape.trans (.of_blocks_eq rfl), rfl⟩
  | false =>
    simp only [settle, Bool.false_eq_true, ↓reduceIte, wlp_bind, wlp_zoom_derefBlock, wlp_check, wlp_get, wlp_pure]
    intro _ _ _ _
    obtain ⟨_, htip⟩ := hs.tip
    exact ⟨hs.of_appliedTo htip h1 rfl h1.activeTip, h1.shape, h1.activeTip⟩

/-- Fork resolution moves the tip to a block that has been applied, or leaves it. -/
theorem wlp_determineBestChain_standing (hs : s.vbk.Standing) :
    wlp (determineBestChain cfg h) (fun _ s' => s'.vbk.Standing) s := by
  simp only [determineBestChain, wlp_bind, wlp_get, wlp_ite, wlp_pure]
  refine ⟨fun _ => hs, fun _ => ?_⟩
  refine wlp_mono (stateMachine_local.wlp_comparePopScore hs.wf hs.appliedTo) (fun r s1 h1 => ?_)
  have h1 : s.vbk.AppliedTo (if r < 0 then h else s.vbk.activeTip) s1.vbk := h1
  obtain ⟨_, htip⟩ := hs.tip
  refine ⟨fun hr => ?_, fun _ => ?_⟩
  . rw [hr, if_neg (by decide)] at h1
    have hs1 : s1.vbk.Standing := hs.of_appliedTo htip h1 rfl h1.activeTip
    simp only [determineBestChainByWork, wlp_bind, wlp_get, wlp_getOrStop, wlp_when, wlp_pure]
    exact fun _ _ => ⟨fun _ => wlp_mono (wlp_setState_standing hs1) (fun _ _ h => h.1), fun _ => hs1⟩
  . simp only [wlp_when, decide_eq_true_eq, decide_eq_false_iff_not]
    refine ⟨fun hr => ?_, fun hr => ?_⟩
    . rw [if_pos hr] at h1
      simp only [overrideTip, wlp_bind, wlp_zoom, wlp_modify, wlp_derefBlock, wlp_check]
      intro b1 hb1 _
      have hb1 : s1.vbk.find? h = some b1 := hb1
      obtain ⟨b, hb, _⟩ := h1.shape.find? hb1
      exact hs.of_appliedTo hb h1 rfl rfl
    . rw [if_neg hr] at h1
      exact hs.of_appliedTo htip h1 rfl h1.activeTip

theorem settled_fields (t₀ : Tree VbkAddon) (s : VbkState) (t' : Tree VbkAddon) (hs : Settled cfg S t₀ s)
    (ht : t'.blocks = s.vbk.blocks) : Settled cfg S t₀ { s with vbk := t' } :=
  ⟨hs.1.of_vbk (.of_blocks_eq ht), hs.2.trans (.of_blocks_eq ht)⟩

end VbkBlockTree

open VbkState

theorem vbkClass_steady : (vbkClass cfg).Steady VbkAddon.holdings (Upright cfg S) where
  alike _ _ hs ht := hs.of_vbk ⟨ht.same.comp (fun u => ((u.1.1, u.1.2.1), u.2)), ht.activeTip⟩
  setState h t₀ s hs := by
    have hsettled := (VbkBlockTree.setState_keeping VbkBlockTree.stateMachine_upholds.moves VbkBlockTree.settled_fields h).wlp
      (i := t₀) ⟨hs.1.toCredited, hs.2⟩
    refine wlp_mono (wlp_and hsettled (VbkBlockTree.wlp_setState_standing hs.1.standing)) ?_
    exact fun _ _ h => ⟨⟨h.1.1, h.2.1⟩, h.1.2⟩
  determineBestChain h t₀ s hs := by
    have hsettled := (VbkBlockTree.determineBestChain_keeping VbkBlockTree.stateMachine_upholds.moves VbkBlockTree.settled_fields h).wlp
      (i := t₀) ⟨hs.1.toCredited, hs.2⟩
    refine wlp_mono (wlp_and hsettled (VbkBlockTree.wlp_determineBestChain_standing hs.1.standing)) ?_
    exact fun _ _ h => ⟨⟨h.1.1, h.2⟩, h.1.2⟩

theorem vbkClass_upholds : (vbkClass cfg).Upholds cfg.vbk VbkAddon.holdings (Upright cfg S) where
  toSteady := vbkClass_steady
  validateAndAddBlock block ctx := by
    apply Upholding.of_wlp
    intro s hs
    rw [wlp_zoom]
    refine wlp_mono (wlp_and (hs.vbk.wlp_validateAndAddBlock ctx) (wlp_validateAndAddBlock_standing hs.standing ctx)) ?_
    exact fun _ _ h => ⟨⟨h.1, hs.btc, hs.storage⟩, h.2⟩

theorem Tree.onlyPayloadsIndex_vbk : Tree.OnlyPayloadsIndex VbkBlockTree.onBeforeLeafRemoved :=
  fun _ => ⟨fun index => index, _, fun _ => rfl⟩

/-- What is left to be deleted is off the active chain. -/
theorem VbkBlockTree.wlp_leave {prev : Hash} (hs : s.Upright cfg S) (hh : s.vbk.IsChild h prev) :
    wlp (when (s.vbk.onActiveChain h) (setStateOrStop (vbkClass cfg) prev)) (fun _ s' => s'.Upright cfg S ∧
      s'.vbk.IsChild h prev ∧ h ∉ s'.vbk.chainTo s'.vbk.activeTip) s := by
  rw [wlp_when]
  refine ⟨fun _ => ?_, fun hoff => ⟨hs, hh, Tree.onActiveChain_eq_false_iff.mp hoff⟩⟩
  simp only [setStateOrStop, wlp_bind, wlp_check]
  refine wlp_mono (wlp_and ((vbkClass_steady.setState prev).wlp hs) (VbkBlockTree.wlp_setState_standing hs.standing)) ?_
  rintro ok s1 ⟨⟨hs1, _⟩, _, hshape, htip⟩ hok
  refine ⟨hs1, (hshape.isChild h prev).mpr hh, ?_⟩
  -- the tip is now the block before the deleted one
  rw [htip, if_pos hok, hshape.chainTo]
  intro hmem
  have hle := hs.standing.wf.heightOf_le hmem
  have hlt := hs.standing.wf.heightOf_child hh
  omega

theorem VbkBlockTree.wlp_deleteSubtree_upright {prev : Hash} (hs : s.Upright cfg S) (hh : s.vbk.IsChild h prev)
    (hoff : h ∉ s.vbk.chainTo s.vbk.activeTip) :
    wlp (zoom VbkState.vbkTree (deleteSubtree VbkBlockTree.onBeforeLeafRemoved h prev))
      (fun _ s' => s'.Upright cfg S ∧ s.vbk.SameOn BlockIndex.applied s'.vbk ∧ s'.btc = s.btc) s := by
  rw [wlp_zoom]
  refine wlp_mono (wlp_and (hs.vbk.wlp_deleteSubtree Tree.onlyPayloadsIndex_vbk hh)
    (wlp_deleteSubtree_standing Tree.onlyPayloadsIndex_vbk prev hs.standing hoff)) ?_
  exact fun _ _ h => ⟨⟨⟨h.1, hs.btc, hs.storage⟩, h.2.1⟩, h.2.2, rfl⟩

theorem vbkClass_counts : (vbkClass cfg).Counts (Upright cfg S) where
  addRef s h n b hs hb hd :=
    ⟨⟨hs.vbk.addRef hb hd, hs.btc, hs.storage⟩, hs.standing.update (fun _ => rfl) (fun _ => rfl)⟩
  removeRef s h n b a hs hb ha :=
    ⟨⟨hs.vbk.removeRef hb ha, hs.btc, hs.storage⟩, hs.standing.update (fun _ => rfl) (fun _ => rfl)⟩
  delete s h prev hs hh := by
    refine wlp_mono (VbkBlockTree.wlp_leave hs hh) ?_
    rintro _ s1 ⟨hs1, hh1, hoff⟩
    exact wlp_mono (VbkBlockTree.wlp_deleteSubtree_upright hs1 hh1 hoff) (fun _ _ h => h.1)

namespace VbkBlockTree

/-- The VTBs of a block may change, but not the references to it. -/
abbrev Refunds (cfg : Config) (S : PayloadsStorage → Prop) (m : M VbkState α) : Prop :=
  (vbkClass cfg).Settles RefAddon.refs (Upright cfg S) m

theorem refunds_of_settles {m : M VbkState α} (hm : (vbkClass cfg).Settles VbkAddon.holdings (Upright cfg S) m) :
    Refunds cfg S m :=
  fun _ _ hs => wlp_mono (hm.wlp hs.1) (fun _ _ h => ⟨h.1, hs.2.trans (h.2.comp (fun u => (u.1, u.2.1)))⟩)

/-- Commands do not touch the active chain of the tree that they are applied to. -/
theorem refunds_of_quiet {m : M VbkState α} (hm : Keeping (Settled cfg S) m) (hq : Stays (fun s s' => s.vbk.Quiet s'.vbk) m) :
    Refunds cfg S m := by
  refine refunds_of_settles (fun t₀ s hs => ?_)
  refine wlp_mono (wlp_and (hm.wlp (i := t₀) ⟨hs.1.toCredited, hs.2⟩) (hq s s (.refl s.vbk))) ?_
  exact fun _ _ h => ⟨⟨h.1.1, hs.1.standing.quiet h.2⟩, h.1.2⟩

theorem executeGroup_refunds (cmds : List VbkCommand) : Refunds cfg S ((stateMachine cfg).executeGroup cmds) :=
  refunds_of_quiet (stateMachine_upholds.executeGroup cmds) (stateMachine_local.executeGroup cmds)

theorem unExecuteGroup_refunds (cmds : List VbkCommand) : Refunds cfg S ((stateMachine cfg).unExecuteGroup cmds) :=
  refunds_of_quiet (stateMachine_upholds.unExecuteGroup cmds) (stateMachine_local.unExecuteGroup cmds)

theorem change_refunds {f : Tree VbkAddon → Tree VbkAddon} (hf : ∀ t : Tree VbkAddon, t.Alike RefAddon.refs (f t)) :
    Refunds cfg S (zoom VbkState.vbkTree (modify f)) :=
  fun _ s hs => ⟨hs.1.of_vbk (hf s.vbk), hs.2.trans ((hf s.vbk).same.comp Prod.fst)⟩

theorem alike_insertPayloadId (h : Hash) (pid : Nat) (t : Tree VbkAddon) : t.Alike RefAddon.refs (insertPayloadId h pid t) := by
  have halike : t.Alike RefAddon.refs (t.updateAddon h (fun a => { a with vtbids := a.vtbids ++ [pid] })) :=
    .updateAddon (fun _ _ => ⟨rfl, rfl⟩)
  unfold insertPayloadId Tree.addToPayloadsIndex
  split
  . exact halike
  . exact ⟨halike.same.trans (.of_blocks_eq rfl), rfl⟩

theorem alike_removePayloadId (h : Hash) (pid : Nat) (t : Tree VbkAddon) : t.Alike RefAddon.refs (removePayloadId h pid t) := by
  have halike : t.Alike RefAddon.refs (t.updateAddon h (fun a => { a with vtbids := a.vtbids.erase pid })) :=
    .updateAddon (fun _ _ => ⟨rfl, rfl⟩)
  exact ⟨halike.same.trans (.of_blocks_eq rfl), rfl⟩

theorem getCommand_refunds (pid : Nat) : Refunds cfg S (getCommand pid) :=
  .bind .get (fun _ => .bind Keeping.getOrStop (fun _ => .pure _))

theorem updateTips_refunds : Refunds cfg S (updateTips (vbkClass cfg)) := refunds_of_settles vbkClass_steady.updateTips

theorem setState_refunds (h : Hash) : Refunds cfg S (setState cfg h) := refunds_of_settles (vbkClass_steady.setState h)

theorem doUpdateAffectedTips_refunds (h : Hash) : Refunds cfg S (doUpdateAffectedTips (vbkClass cfg) h) :=
  refunds_of_settles (vbkClass_steady.doUpdateAffectedTips h)

theorem unsafelyRemovePayload_refunds (h : Hash) (pid : Nat) (f : Bool) : Refunds cfg S (unsafelyRemovePayload cfg h pid f) := by
  refine .bind .get (fun _ => .bind Keeping.getOrStop (fun _ => .bind Keeping.check (fun _ => .bind Keeping.check (fun _ =>
    .bind (.when ?_) (fun _ => .bind (change_refunds (alike_removePayloadId h pid)) (fun _ => .when updateTips_refunds))))))
  exact .bind (getCommand_refunds pid) (fun _ => unExecuteGroup_refunds _)

theorem removePayloads_refunds (h : Hash) (pids : List Nat) : Refunds cfg S (removePayloads cfg h pids) := by
  refine .bind .get (fun _ => .bind Keeping.getOrStop (fun _ => .bind Keeping.getOrStop (fun prev => .when
    (.bind (.when (refunds_of_settles (vbkClass_steady.setStateOrStop prev))) (fun _ => .bind (.forEach (fun pid => ?_) _) (fun _ =>
    updateTips_refunds))))))
  exact .bind (Keeping.derefBlock h) (fun _ => .bind Keeping.check (fun _ => .bind Keeping.check (fun _ =>
    change_refunds (alike_removePayloadId h pid))))

theorem addPayloadToAppliedBlock_refunds (h : Hash) (v : VTB) : Refunds cfg S (addPayloadToAppliedBlock cfg h v) := by
  have hrecord : ∀ e, Refunds cfg S (zoom VbkState.vbkTree (modify fun t => t.record e)) :=
    fun _ => change_refunds (fun _ => .of_blocks_eq rfl rfl)
  refine .bind (Keeping.derefBlock h) (fun index => .bind Keeping.check (fun _ => .bind .get (fun s => .ite
    (.bind (hrecord _) (fun _ => .pure _)) (.ite (.pure _) (.bind (.when (hrecord _)) (fun _ => .bind ?_ (fun _ =>
    .bind (getCommand_refunds _) (fun cmds => .bind (executeGroup_refunds cmds) (fun _ => .ite (.pure _) ?_)))))))))
  . exact change_refunds (alike_insertPayloadId h v.getId)
  . exact .bind (change_refunds (alike_removePayloadId h v.getId)) (fun _ => .pure _)

/-- `addPayloads` keeps what its steps keep. -/
theorem addPayloads_keeping {ι : Type} {I : ι → VbkState → Prop} (h : Hash) (hset : ∀ x, Keeping I (setState cfg x))
    (htips : ∀ x, Keeping I (doUpdateAffectedTips (vbkClass cfg) x)) (hadd : ∀ v, Keeping I (addPayloadToAppliedBlock cfg h v))
    (hundo : ∀ pid, Keeping I (unsafelyRemovePayload cfg h pid false)) (payloads : List VTB) :
    Keeping I (addPayloads cfg h payloads) := by
  have hall : Keeping I (addPayloadsToAppliedBlock cfg h payloads) := .execAll hadd (fun v => hundo v.getId) payloads
  refine .bind .get (fun s => .ite (.pure _) ?_)
  split
  . exact .pure _
  . refine .ite (.pure _) (.bind (.ite (.pure _) (hset h)) (fun _ => .ite (.bind hall (fun _ => .ite ?_ ?_)) (.pure _)))
    . exact .bind (htips h) (fun _ => .bind (.when (htips _)) (fun _ => .pure _))
    . exact .bind (.when (.bind (hset _) (fun _ => Keeping.check))) (fun _ => .pure _)

theorem addPayloads_refunds (h : Hash) (payloads : List VTB) : Refunds cfg S (addPayloads cfg h payloads) :=
  addPayloads_keeping h setState_refunds doUpdateAffectedTips_refunds (addPayloadToAppliedBlock_refunds h)
    (fun pid => unsafelyRemovePayload_refunds h pid false) payloads

end VbkBlockTree

end AltIntegration
