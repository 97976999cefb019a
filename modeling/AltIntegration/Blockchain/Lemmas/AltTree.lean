import AltIntegration.Blockchain.AltBlockTree
import AltIntegration.Blockchain.Lemmas.VbkTree

/-!
This module contains what the functions of the ALT tree keep: all three trees are sane.
-/

namespace AltIntegration

open Program BlockIndex

variable (cfg : Config)

/-- The ALT tree, with the VBK and the BTC tree beside it. -/
def altAround : Around AltState.altTree where
  min := .validTree
  rest s := vbkAround.Holds .pow s.sp
  spoiled s := s.sp.vbk.RestoredFailedPop ∨ s.sp.btc.RestoredFailedPop
  rest_set _ _ := Iff.rfl
  spoiled_set _ _ := Iff.rfl

namespace AltBlockTree

theorem linked : (stateMachine cfg).Linked altAround vbkAround where
  rest _ := Iff.rfl
  spoiled _ h := h
  ed_ing _ _ := rfl

/-- A program on the VBK and the BTC tree. -/
theorem zoom_sp {α : Type} {m : M VbkState α}
    (hm : Keeps (fun _ : Unit => vbkAround.Holds .pow) vbkAround.Stops m) :
    Keeps altAround.Frame altAround.Stops (zoom AltState.spState m) := by
  rintro t s ⟨ht, hs⟩
  rw [wp_zoom]
  exact wp_mono (hm () s.sp hs) (fun _ _ hx => ⟨ht, hx⟩) (fun _ _ hx he => .inr (hx he))

theorem modify_vbk {f : Tree VbkAddon → Tree VbkAddon} (hf : ∀ t : Tree VbkAddon, t.SameCore (f t)) :
    Keeps altAround.Frame altAround.Stops (zoom AltCommand.vbkTree (modify f)) := by
  rintro t s ⟨ht, hs⟩
  exact ⟨ht, hs.1.congr (hf s.sp.vbk), hs.2⟩

theorem execute (cmd : AltCommand) : Keeps altAround.Frame altAround.Stops (cmd.execute cfg) := by
  cases cmd with
  | addVbkBlock b => exact zoom_sp ((vbkClass_lawful cfg).addBlock_execute rfl b 0)
  | addVTB v => exact zoom_sp ((VbkBlockTree.addPayloads_keeps cfg _ _).fix _)
  | checkPublicationData c h => exact .bind .get (fun _ => .pure _)
  | addEndorsement e => exact addEndorsement_execute_keeps (fun _ => Around.frame_modify) (fun _ => modify_vbk) _ e

theorem unExecute (cmd : AltCommand) : Keeps altAround.Frame altAround.Stops (cmd.unExecute cfg) := by
  cases cmd with
  | addVbkBlock b => exact zoom_sp (((vbkClass_lawful cfg).addBlock_unExecute b 0).fix _)
  | addVTB v => exact zoom_sp ((VbkBlockTree.unsafelyRemovePayload_keeps cfg _ _ _).fix _)
  | checkPublicationData c h => exact .pure _
  | addEndorsement e =>
    exact addEndorsement_unExecute_keeps (fun _ => Around.frame_modify) (fun _ => modify_vbk)
      (fun _ s he => .of_ne he s) e

theorem lawful : (stateMachine cfg).Lawful altAround vbkAround where
  toLinked := linked cfg
  protecting := vbkClass_lawful cfg
  getCommands _ := by
    have hstop : ∀ {α : Type} {o : Option α}, Keeps altAround.Frame altAround.Stops (getOrStop o .stateCorrupted) :=
      .getOrStop (fun _ s _ => .of_ne (by decide) s)
    exact .bind .get (fun _ => .bind hstop (fun _ => .bind hstop (fun _ => .bind hstop (fun _ => .pure _))))
  execute := execute cfg
  unExecute := unExecute cfg
  validTree_le := by decide
  le_connected := by decide

theorem overrideTip_keeps (h : Hash) : Keeps altAround.Holds altAround.Stops (overrideTip h) :=
  .bind (Around.derefBlock_keeps h) (fun _ => .bind (Around.check_keeps (by decide)) (fun _ =>
    Around.modify_keeps fun t => t.sameCore_overrideTip h))

theorem settle_keeps (h : Hash) (success : Bool) : Keeps altAround.Holds altAround.Stops (settle h success) :=
  .ite (overrideTip_keeps h) (.bind (Around.derefBlock_keeps h) (fun _ => Around.check_keeps (by decide)))

theorem setState_keeps (h : Hash) : Keeps altAround.Holds altAround.Stops (setState cfg h) :=
  .bind (Around.derefBlock_keeps h) (fun _ => .bind (Around.check_keeps (by decide)) (fun _ =>
    .bind ((lawful cfg).comparatorSetState h) (fun success => .bind (settle_keeps h success) (fun _ =>
    .bind .get (fun _ => .bind (Around.check_keeps (by decide)) (fun _ => .pure _))))))

theorem sameCore_foldl_index {ids : List PayloadId} {f : Tree AltAddon → PayloadId → Tree AltAddon}
    (hf : ∀ t id, Tree.SameCore t (f t id)) (t : Tree AltAddon) : t.SameCore (ids.foldl f t) := by
  induction ids generalizing t with
  | nil => exact .refl t
  | cons id ids ih => exact (hf t id).trans (ih (f t id))

theorem onBeforeLeafRemoved_blocks (b : BlockIndex AltAddon) (t : Tree AltAddon) :
    (onBeforeLeafRemoved b t).blocks = t.blocks := by
  unfold onBeforeLeafRemoved
  generalize b.addon.payloadIds = ids
  induction ids generalizing t with
  | nil => rfl
  | cons id ids ih => exact ih _

theorem sameCore_onBeforeLeafRemoved (b : BlockIndex AltAddon) (t : Tree AltAddon) :
    t.SameCore (onBeforeLeafRemoved b t) :=
  sameCore_foldl_index (fun t id => VbkBlockTree.sameCore_removeFromPayloadsIndex t id _) t

end AltBlockTree

theorem altClass_lawful : (altClass cfg).Lawful altAround where
  onBeforeLeafRemoved :=
    ⟨AltBlockTree.onBeforeLeafRemoved_blocks, fun b t => (AltBlockTree.sameCore_onBeforeLeafRemoved b t).tips,
      fun b t => (AltBlockTree.sameCore_onBeforeLeafRemoved b t).history⟩
  setState := AltBlockTree.setState_keeps cfg
  determineBestChain _ := .pure _
  validTree_le := by decide
  le_connected := by decide

namespace AltBlockTree

section Header

variable {t : Tree AltAddon}

/-- A new block is valid up to `BLOCK_VALID_TREE` only, so it is no tip. -/
theorem insertBlockHeader_sane {block : Block} {prev : BlockIndex AltAddon} (ht : t.Sane .validTree .any)
    (hprev : t.getBlockIndex block.previousBlock = some prev) :
    wp (insertBlockHeader (fun _ t => t) block) (fun _ t' => t'.Sane .validTree .any) Spoils t := by
  have hquiet : Quiet (fun (_ : Hash) (t : Tree AltAddon) => t) :=
    ⟨fun _ t => .refl t, fun _ _ => rfl, fun _ _ => rfl⟩
  refine ht.wp (.insertBlockHeader hquiet block) (fun _ _ => .inl) ?_
  intro ht _
  refine wp_mono (insertBlockHeader_spec ht (by decide) hquiet hprev (fun e t he => Spoils.of_ne he t)) ?_
    (fun _ _ h => h)
  rintro _ t' (hins | ⟨rfl, _⟩)
  . rcases hins.fresh with hr | ⟨hfresh, _⟩
    . exact .inl hr
    . refine .inr ⟨hfresh.inv.settle ?_, trivial⟩
      rintro ⟨b, hb, hl⟩
      obtain ⟨b', hb', hlevel, _⟩ := hfresh.level
      rw [hb] at hb'
      cases hb'
      simp only [canBeATip, isValid, isValidUpTo, hlevel, Bool.and_eq_true, decide_eq_true_eq] at hl
      exact absurd hl.2.2 (by decide)
  . exact .inr ⟨ht, trivial⟩

end Header

theorem tryAddTip_keeps (h : Hash) :
    Keeps altAround.Holds altAround.Stops (zoom AltState.altTree (modify fun t => t.tryAddTip h)) := by
  refine Around.zoom_keeps (fun i t ht => ?_)
  rw [wp_modify]
  exact ht.tryAddTip

theorem acceptBlockHeader_keeps (block : Block) :
    Keeps (fun _ : Unit => altAround.Holds .any) altAround.Stops (acceptBlockHeader block) := by
  intro _ s hs
  simp only [acceptBlockHeader, wp_bind, wp_check, wp_get, wp_ite]
  refine ⟨fun _ => ⟨fun _ => hs, fun _ => ?_⟩, fun _ => .of_ne (by decide) s⟩
  split
  . exact hs
  . next prev hprev =>
    rw [wp_bind]
    refine wp_mono (Around.wp_zoom' hs.2 (insertBlockHeader_sane hs.1 hprev)) ?_ (fun _ _ h => h)
    intro _ s1 hs1
    exact (Keeps.bind (Around.derefBlock_keeps block.hash) (fun _ => .ite (.pure _)
      (.bind (tryAddTip_keeps block.hash) (fun _ => .pure _)))) .any s1 hs1

theorem sameCore_commitPayloadsIds (h : Hash) (p : PopData) (t : Tree AltAddon) :
    t.SameCore (commitPayloadsIds h p t) := by
  refine Tree.SameCore.trans ?_ (sameCore_foldl_index
    (fun t id => VbkBlockTree.sameCore_addToPayloadsIndex t id _) _)
  exact ⟨Tree.SameOn.update t h (fun _ _ => rfl), rfl, rfl⟩

theorem setPayloads_keeps (h : Hash) (p : PopData) :
    Keeps altAround.Holds altAround.Stops (setPayloads h p) := by
  intro i s hs
  simp only [setPayloads, wp_bind, wp_zoom_derefBlock, wp_check]
  refine ⟨fun index hb => ⟨fun hlevel => ⟨fun _ => ⟨fun _ => ⟨fun _ => ⟨fun _ => ?_, fun _ => .of_ne (by decide) s⟩,
    fun _ => .of_ne (by decide) s⟩, fun _ => .of_ne (by decide) s⟩, fun _ => .of_ne (by decide) s⟩,
    fun _ => .of_ne (by decide) s⟩, fun _ => .of_ne (by decide) s⟩
  simp only [wp_zoom, wp_modify, wp_modifyBlock]
  have hcommit := sameCore_commitPayloadsIds h p s.alt
  obtain ⟨b, hb', heq⟩ := hcommit.core.symm.find? hb
  refine ⟨(hs.1.congr hcommit).map rfl (fun ht hi => ⟨ht.setHasPayloads hb' ?_, ?_⟩), hs.2⟩
  . simp only [isValidUpTo, decide_eq_true_eq] at hlevel
    rw [← (core_eq_iff.mp heq).2] at hlevel
    exact ht.not_deleted hb' hlevel (by decide)
  . exact i.congr hi (Tree.SameShape.update _ h (keepsShape_setFlag _))

section Connect

variable {t : Tree AltAddon} {i : Promise AltAddon} {h : Hash} {b : BlockIndex AltAddon}

theorem not_live_of_not_connected {x : Hash} {bx : BlockIndex AltAddon} (hbx : t.find? x = some bx)
    (hx : bx.isConnected = false) : ¬t.Live x := by
  rintro ⟨b', hb', hl⟩
  rw [hbx] at hb'
  cases hb'
  simp only [canBeATip, isValid, Bool.and_eq_true] at hl
  rw [show bx.isConnected = bx.isValidUpTo .connected from rfl] at hx
  rw [show BlockAddon.validTipLevel AltAddon = .connected from rfl, hx] at hl
  exact absurd hl.2.2 (by decide)

/-- The block `h` has been connected, and none of the blocks after it. -/
theorem raiseConnected_sane (ht : t.Sane .validTree i) (hb : t.find? h = some b)
    (hpayloads : b.status.hasPayloads = true)
    (hparent : ∀ p bp, b.pprev = some p → t.find? p = some bp → bp.isConnected = true)
    (hchild : t.anyNext h (·.isConnected) = false) :
    wp (raiseValidity h .connected)
      (fun ok t' => t'.Sane .validTree (i.unsettle h) ∧ (ok = true →
        t'.RestoredFailedPop ∨ t'.NoLiveChild h ∧ t'.At (fun b => b.status.deleted = false) h)) Spoils t := by
  refine ht.wp (.raiseValidity h .connected) (fun _ _ hr => ⟨.inl hr, fun _ => .inl hr⟩) ?_
  intro ht hi
  have hd : b.status.deleted = false := by
    rw [← Bool.not_eq_true]
    intro hd
    rw [(ht.nodes hb).payloads hd] at hpayloads
    cases hpayloads
  have hlevel : ∀ p bp, b.pprev = some p → t.find? p = some bp → .connected ≤ bp.status.level := by
    intro p bp hp hbp
    simpa [isConnected, isValidUpTo] using hparent p bp hp hbp
  have hshape := Tree.SameShape.update t h (keepsShape_setLevel (A := AltAddon) .connected)
  refine wp_raiseValidity ht.wf hb ?_ ?_ ?_
  . exact fun _ => ⟨.inr ⟨ht.mono (List.subset_cons_self h _), hi⟩, (by cases ·)⟩
  . intro _ hl _
    refine ⟨.inr ⟨ht.raise hb hd hl hlevel, i.congr hi hshape⟩, fun _ => .inr ⟨?_, b.setLevel .connected, ?_, hd⟩⟩
    . intro x hx hlx
      obtain ⟨bx, hbx, hpx⟩ := (hshape.isChild x h).mp hx
      have hlx := (Tree.live_update_of_ne (ht.wf.ne_parent hbx hpx).symm).mp hlx
      exact not_live_of_not_connected hbx (ht.wf.anyNext_eq_false_iff.mp hchild x bx hbx hpx) hlx
    . rw [Tree.find?_update_self, hb]
      rfl
  . intro p bp _ hp hbp hn
    exact absurd (hlevel p bp hp hbp) hn

end Connect

theorem connectBlock_keeps (h : Hash) : Keeps altAround.Holds altAround.Stops (connectBlock cfg h) := by
  intro i s hs
  simp only [connectBlock, wp_bind, wp_zoom_derefBlock, wp_check, wp_getOrStop, wp_get]
  refine ⟨fun index hb => ⟨fun hpayloads => ⟨fun _ => ⟨fun _ => ⟨fun p hp => ⟨fun prev hbp => ⟨fun hprev =>
    ⟨fun hchild => ?_, fun _ => .of_ne (by decide) s⟩, fun _ => .of_ne (by decide) s⟩,
    fun _ => .of_ne (by decide) s⟩, fun _ => .of_ne (by decide) s⟩, fun _ => .of_ne (by decide) s⟩,
    fun _ => .of_ne (by decide) s⟩, fun _ => .of_ne (by decide) s⟩, fun _ => .of_ne (by decide) s⟩
  have hraise : wp (raiseValidity h .connected) _ Spoils s.alt :=
    raiseConnected_sane hs.1 hb hpayloads (by
      intro p' bp' hp' hbp'
      rw [hp] at hp'
      cases hp'
      rw [show s.alt.find? p = some prev from hbp] at hbp'
      cases hbp'
      exact hprev) (by simpa using hchild)
  refine wp_mono (Around.wp_zoom hs.2 hraise) ?_ (fun _ _ h => h)
  rintro success s1 ⟨hs1, hQ⟩
  refine ⟨fun hsuccess => ?_, fun _ => .of_ne (by decide) s1⟩
  have hQ := hQ hsuccess
  simp only [wp_when]
  refine ⟨fun _ => ?_, fun _ => ?_⟩
  . refine wp_mono ((altClass_lawful cfg).invalidateSubtree_settles (s := s1) .failedPop false hs1
      (hQ.imp_right fun hQ => hQ.2)) ?_ (fun _ _ h => h)
    intro _ s2 hs2
    exact tryAddTip_keeps h i s2 hs2
  . simp only [wp_zoom, wp_modify]
    refine ⟨?_, hs1.2⟩
    rcases hs1.1 with hr | ⟨ht, hi⟩
    . exact .inl (hr.of_history Tree.tryAddTip_history)
    . rcases hQ with hr | ⟨hnc, _⟩
      . exact .inl (hr.of_history Tree.tryAddTip_history)
      . exact .inr ⟨ht.tryAddTip_unsettled (fun _ => hnc), i.congr hi (.of_blocks_eq Tree.tryAddTip_blocks)⟩

theorem connectSubtree_keeps (n : Nat) (h : Hash) :
    Keeps altAround.Holds altAround.Stops (connectSubtree cfg n h) := by
  induction n generalizing h with
  | zero => exact .pure _
  | succ n ih =>
    exact .bind (Around.derefBlock_keeps h) (fun _ => .when (.bind (connectBlock_keeps cfg h) (fun _ =>
      .bind .get (fun _ => .forEach ih _))))

theorem acceptBlock_keeps (h : Hash) (payloads : PopData) :
    Keeps altAround.Holds altAround.Stops (acceptBlock cfg h payloads) :=
  .bind .get (fun _ => .bind (Around.check_keeps (by decide)) (fun _ => .bind (setPayloads_keeps h payloads) (fun _ =>
    .bind (Around.derefBlock_keeps h) (fun _ => .bind (Around.getOrStop_keeps (by decide)) (fun p =>
    .bind (Around.derefBlock_keeps p) (fun _ => .when (connectSubtree_keeps cfg _ h)))))))

theorem comparePopScore_keeps (x y : Hash) : Keeps altAround.Holds altAround.Stops (comparePopScore cfg x y) := by
  refine .bind .get (fun _ => .bind (Around.getOrStop_keeps (by decide)) (fun _ =>
    .bind (Around.check_keeps (by decide)) (fun _ => ?_)))
  split
  . exact .pure _
  . exact .bind (Around.check_keeps (by decide)) (fun _ => .bind (Around.check_keeps (by decide)) (fun _ =>
      .bind ((lawful cfg).comparePopScore cfg.altPop y) (fun _ => .bind (.when (Around.modify_keeps fun t =>
      ⟨.of_blocks_eq rfl, rfl, rfl⟩)) (fun _ => .pure _))))

theorem setStateByHash_keeps (h : Hash) : Keeps altAround.Holds altAround.Stops (setStateByHash cfg h) := by
  refine .bind .get (fun _ => ?_)
  split
  . exact .pure _
  . exact setState_keeps cfg h

section Disconnect

variable {t : Tree AltAddon} {i : Promise AltAddon} {U : List Hash} {h p : Hash} {b : BlockIndex AltAddon}

/-- A block without connected blocks after it loses its level. -/
theorem inv_lower (ht : t.Inv .validTree U) (hb : t.find? h = some b) (hp : b.pprev = some p)
    (hl : .connected ≤ b.status.level) (hactive : b.status.active = false)
    (hchild : ∀ x bx, t.find? x = some bx → bx.pprev = some h → bx.isConnected = false) :
    (((t.update h (fun b => b.setLevel .validTree)).eraseTip h).tryAddTip p).Inv .validTree U := by
  have hkeep : KeepsShape (fun b : BlockIndex AltAddon => b.setLevel .validTree) := keepsShape_setLevel _
  have hd := ht.not_deleted hb hl (by decide)
  have hself : ∀ b', t.find? h = some b' → b' = b := by
    intro b' hb'
    rw [hb] at hb'
    exact (Option.some.inj hb').symm
  have hdead : ∀ b', t.find? h = some b' → (b'.setLevel .validTree).canBeATip = false := by
    intro b' _
    have hv : (b'.setLevel .validTree).isValidUpTo (BlockAddon.validTipLevel AltAddon) = false := rfl
    simp [canBeATip, isValid, hv]
  have hlevel : ∀ x bx, t.find? x = some bx → bx.pprev = some h → bx.status.level ≤ .validTree := by
    intro x bx hbx hpx
    have hc := hchild x bx hbx hpx
    simp only [isConnected, isValidUpTo, decide_eq_false_iff_not] at hc
    cases hlx : bx.status.level with
    | validUnknown => decide
    | validTree => decide
    | _ =>
      rw [hlx] at hc
      exact absurd (by decide) hc
  have hedges := ht.edges_setLevel (l := .validTree) hb (fun p bp hp hbp =>
    BlockStateStatus.le_trans ((ht.nodes hb).validTree hd) (ht.levels hb hp hbp).level) hlevel
  have hlow : ((t.update h (fun b => b.setLevel .validTree)).eraseTip h).Inv .validTree (p :: U) := by
    refine ⟨ht.wf.congr ((Tree.SameShape.update t h hkeep).eraseTip h), ?_, hedges.1, hedges.2,
      (ht.sound.kill hkeep hdead).mono (List.subset_cons_self p U),
      ht.complete.kill hkeep hdead (fun x hx => Tree.IsChild.unique ⟨b, hb, hp⟩ hx)⟩
    refine Tree.Nodes.update ht.nodes ?_ (fun _ _ _ _ hb => hb)
    intro b' hb' hok
    rw [hself b' hb'] at hok ⊢
    refine ⟨fun hd' => ?_, fun _ => BlockStateStatus.le_refl _, fun _ _ => BlockStateStatus.le_refl _,
      fun ha => ?_, hok.payloads⟩
    . rw [show (b.setLevel .validTree).status.deleted = b.status.deleted from rfl, hd] at hd'
      cases hd'
    . rw [show (b.setLevel .validTree).status.active = b.status.active from rfl, hactive] at ha
      cases ha
  exact { hlow.tryAddTip with
    sound := (ht.sound.kill hkeep hdead).tryAddTip_settled hlow.wf
    complete := hlow.complete.tryAddTip hlow.wf }

/-- The end of `removePayloads` -/
theorem disconnect_sane (ht : t.Sane .validTree i)
    (hok : t.RestoredFailedPop ∨ t.At (fun b => b.pprev = some p ∧ b.status.active = false) h ∧
      ∀ x bx, t.find? x = some bx → bx.pprev = some h → bx.isConnected = false) :
    wp (do
        disconnect h
        modify (fun t => t.eraseTip h)
        modify (fun t => t.tryAddTip p))
      (fun _ t' => t'.Sane .validTree i) Spoils t := by
  have hkeep : KeepsSpoiled (do
      disconnect h
      modify (fun t => t.eraseTip h)
      modify (fun t => t.tryAddTip p) : M (Tree AltAddon) Unit) := by
    refine .bind ?_ (fun _ => .bind (KeepsSpoiled.modify fun _ => rfl) (fun _ =>
      KeepsSpoiled.modify fun _ => Tree.tryAddTip_history))
    exact .bind (KeepsSpoiled.derefBlock h) (fun _ => .when (.bind (KeepsSpoiled.lowerValidity h _) (fun _ =>
      KeepsSpoiled.check _ _)))
  rcases hok with hr | ⟨⟨b, hb, hp, hactive⟩, hchild⟩
  . exact wp_mono (hkeep () t hr) (fun _ _ => .inl) (fun _ _ hr _ => hr)
  refine ht.wp hkeep (fun _ _ => .inl) ?_
  intro ht hi
  simp only [disconnect, lowerValidity, wp_bind, wp_derefBlock hb, wp_when, wp_ite, wp_modifyBlock, wp_pure,
    wp_check, wp_modify]
  refine ⟨fun hconn => ⟨fun _ => ⟨fun _ => ?_, (by cases ·)⟩, fun _ => ⟨(by cases ·), fun _ =>
    .of_ne (by decide) t⟩⟩, fun hconn => ?_⟩
  . simp only [isConnected, isValidUpTo, decide_eq_true_eq] at hconn
    refine .inr ⟨inv_lower ht hb hp hconn hactive hchild, i.congr hi ?_⟩
    exact ((Tree.SameShape.update t h (keepsShape_setLevel _)).eraseTip h).tryAddTip p
  . refine .inr ⟨(ht.eraseTip (not_live_of_not_connected hb hconn)).tryAddTip, i.congr hi ?_⟩
    exact ((Tree.SameOn.refl t).eraseTip h).tryAddTip p

end Disconnect

theorem sameCore_clearSideEffects (h : Hash) (t : Tree AltAddon) : t.SameCore (clearSideEffects h t) := by
  unfold clearSideEffects
  split
  . exact .refl t
  . next b _ =>
    split
    . refine (sameCore_onBeforeLeafRemoved b t).trans ?_
      exact ⟨Tree.SameOn.update _ h (fun _ _ => rfl), rfl, rfl⟩
    . exact .refl t

/-- What `removePayloads` does before it revalidates the block. -/
def withoutPayloads (h : Hash) (t : Tree AltAddon) : Tree AltAddon :=
  (clearSideEffects h t).update h (fun b => b.unsetFlag .hasPayloads)

theorem sane_withoutPayloads {i : Promise AltAddon} {t : Tree AltAddon} (ht : t.Sane .validTree i) (h : Hash) :
    (withoutPayloads h t).Sane .validTree i :=
  (ht.congr (sameCore_clearSideEffects h t)).map rfl (fun ht hi => ⟨ht.unsetFlag (.inr rfl),
    i.congr hi (Tree.SameShape.update _ h (keepsShape_unsetFlag _))⟩)

/-- What `removePayloads` relies on: the places of the blocks, their levels and whether they are applied. -/
def placed (b : BlockIndex AltAddon) : (Block × Option Hash × Nat) × BlockStateStatus × Bool :=
  (b.shape, b.status.level, b.status.active)

theorem sameOn_withoutPayloads (h : Hash) (t : Tree AltAddon) : t.SameOn placed (withoutPayloads h t) := by
  refine ((sameCore_clearSideEffects h t).core.comp (fun c => (c.1, c.2.level, c.2.active))).trans ?_
  refine Tree.SameOn.update _ h (fun b _ => ?_)
  have hshape : (b.unsetFlag .hasPayloads).shape = b.shape := keepsShape_unsetFlag .hasPayloads b
  simp only [core, hshape, unsetFlag_status]
  rfl

/-- The blocks after a block without connected children are still not connected. -/
theorem connected_congr {t t' : Tree AltAddon} {h : Hash} (hwf : t.WF) (hs : t.SameOn placed t')
    (hchild : t.anyNext h (·.isConnected) = false) :
    ∀ x bx, t'.find? x = some bx → bx.pprev = some h → bx.isConnected = false := by
  intro x bx' hbx' hpx'
  obtain ⟨bx, hbx, heq⟩ := hs.find? hbx'
  simp only [placed, Prod.mk.injEq] at heq
  have hpx := (shape_eq_iff.mp heq.1).2.1.trans hpx'
  have hc := hwf.anyNext_eq_false_iff.mp hchild x bx hbx hpx
  rw [isConnected, isValidUpTo, ← heq.2.1]
  exact hc

theorem removePayloads_keeps (h : Hash) : Keeps altAround.Holds altAround.Stops (removePayloads cfg h) := by
  intro i s hs
  simp only [removePayloads, wp_bind, wp_get, wp_getOrStop, wp_check]
  refine ⟨fun index hb => ⟨fun p hp => ⟨fun _ => ⟨fun hactive => ⟨fun hchild => ?_, fun _ => .of_ne (by decide) s⟩,
    fun _ => .of_ne (by decide) s⟩, fun _ => .of_ne (by decide) s⟩, fun _ => .of_ne (by decide) s⟩,
    fun _ => .of_ne (by decide) s⟩
  have hb := (Tree.getBlockIndex_eq_some.mp hb).1
  rw [wp_zoom, wp_modify, wp_zoom, wp_modifyBlock]
  -- a spoiled tree stays spoiled, and in the other case the revalidation leaves the levels alone
  rcases hs.1 with hr | ⟨ht, hi⟩
  . have hs1 : altAround.Holds .never { s with alt := withoutPayloads h s.alt } :=
      ⟨sane_withoutPayloads (.inl hr) h, hs.2⟩
    refine wp_mono ((altClass_lawful cfg).wp_revalidateSubtree .failedPop false hs1) ?_ (fun _ _ h => h)
    rintro _ s2 ⟨hs2, _⟩
    exact Around.wp_zoom' hs2.2 (disconnect_sane (.inl hs2.1.spoiled) (.inl hs2.1.spoiled))
  . have hs1 : altAround.Holds i { s with alt := withoutPayloads h s.alt } :=
      ⟨sane_withoutPayloads hs.1 h, hs.2⟩
    refine wp_mono ((altClass_lawful cfg).wp_revalidateSubtree .failedPop false hs1) ?_ (fun _ _ h => h)
    rintro _ s2 ⟨hs2, hframe⟩
    refine Around.wp_zoom' hs2.2 (disconnect_sane hs2.1 ((hframe rfl).imp_right fun hframe => ?_))
    have hsame : s.alt.SameOn placed s2.alt :=
      (sameOn_withoutPayloads h s.alt).trans (hframe.comp (fun u => (u.1, u.2.level, u.2.active)))
    obtain ⟨b2, hb2, heq⟩ := hsame.symm.find? hb
    simp only [placed, Prod.mk.injEq] at heq
    refine ⟨⟨b2, hb2, (shape_eq_iff.mp heq.1).2.1.trans hp, ?_⟩, connected_congr ht.wf hsame
      ((Bool.not_eq_true' _).mp hchild)⟩
    rw [heq.2.2]
    simpa [hasFlags, BlockStatus.hasFlags] using hactive

end AltBlockTree

end AltIntegration
