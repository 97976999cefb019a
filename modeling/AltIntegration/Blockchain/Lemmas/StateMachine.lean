import AltIntegration.Blockchain.Pop.ForkResolution
import AltIntegration.Blockchain.Lemmas.TreeClass

/-!
This module contains what the state machine and the comparator keep, given that the commands of a
block keep it.
-/

namespace AltIntegration

open Program BlockIndex

variable {σ τ A B C α : Type}

section Apply

variable [BlockAddon A] {t : Tree A} {min : BlockStateStatus} {i : Promise A} {h p : Hash}
  {b bp : BlockIndex A} {level : BlockStateStatus}

theorem Tree.Sane.unsetActive (ht : t.Sane min i) : (t.update h (fun b => b.unsetFlag .active)).Sane min i :=
  ht.map rfl (fun ht hi => ⟨ht.unsetFlag (.inl rfl), i.congr hi (SameShape.update t h (keepsShape_unsetFlag _))⟩)

theorem markApplied_sane (ht : t.Sane min i) (htip : BlockAddon.validTipLevel A ≤ .connected)
    (hb : t.find? h = some b) (hp : b.pprev = some p) (hbp : t.find? p = some bp)
    (hconn : .connected ≤ b.status.level) (hbf : b.isFailed = false) (hactive : bp.status.active = true)
    (hlevel : .canBeAppliedMaybeWithOtherChain ≤ level)
    (hlevel' : level = .canBeApplied → .canBeApplied ≤ bp.status.level) :
    wp (PopStateMachine.markApplied h level) (fun _ t' => t'.Sane min i) Spoils t := by
  refine ht.wp ?_ (fun _ _ => .inl) ?_
  . exact .bind (KeepsSpoiled.raiseValidity h level) (fun _ => .bind (KeepsSpoiled.modifyBlock h _) (fun _ =>
      KeepsSpoiled.modify (fun _ => rfl)))
  intro ht hi
  simp only [PopStateMachine.markApplied, wp_bind, wp_modifyBlock, wp_modify]
  have hd : b.status.deleted = false := ht.not_deleted hb hconn (by decide)
  have hfp : b.status.failedPop = false := by
    simp only [BlockIndex.isFailed, BlockStatus.isFailed, Bool.or_eq_false_iff] at hbf
    exact hbf.1.2
  -- an applied block has one of the two highest levels
  have hparent : level ≤ bp.status.level := by
    cases level with
    | canBeApplied => exact hlevel' rfl
    | canBeAppliedMaybeWithOtherChain => exact (ht.nodes hbp).active hactive
    | _ => exact absurd hlevel (by decide)
  have hparents : ∀ p' bp', b.pprev = some p' → t.find? p' = some bp' → level ≤ bp'.status.level := by
    intro p' bp' hp' hbp'
    rw [hp] at hp'
    cases hp'
    rw [hbp] at hbp'
    cases hbp'
    exact hparent
  have hlast : ∀ t1 : Tree A, t.SameShape t1 → t1.Inv min i.unsettled →
      t1.At (fun b => .canBeAppliedMaybeWithOtherChain ≤ b.status.level) h →
      Tree.Sane min i { t1.update h (fun b => b.setFlag .active) with
        appliedBlockCount := t1.appliedBlockCount + 1 } := by
    rintro t1 hs ht1 ⟨b1, hb1, hl1⟩
    have hshape := hs.trans (Tree.SameShape.update t1 h (keepsShape_setFlag .active))
    exact .inr ⟨(ht1.setActive hb1 hl1).congr (.of_blocks_eq rfl) rfl,
      i.congr hi (hshape.trans (.of_blocks_eq rfl))⟩
  refine wp_raiseValidity ht.wf hb ?_ ?_ ?_
  . rintro (hf | hl)
    . rw [hfp] at hf
      cases hf
    . exact hlast t (.refl t) ht ⟨b, hb, BlockStateStatus.le_trans hlevel hl⟩
  . intro _ hl _
    refine hlast _ (Tree.SameShape.update t h (keepsShape_setLevel _))
      (ht.raise_settled hb hd hl (BlockStateStatus.le_trans htip hconn) hparents) ⟨b.setLevel level, ?_, hlevel⟩
    rw [Tree.find?_update_self, hb]
    rfl
  . intro p' bp' _ hp' hbp' hn
    exact absurd (hparents p' bp' hp' hbp') hn

end Apply

section PublicationView

variable {ε β γ : Type} {p : PopParams} {ed : Tree A} {ing : Tree B}

theorem map_ne_error {x : Except ε β} {f : β → γ} {e : ε} (hx : x ≠ .error e) : x.map f ≠ .error e := by
  cases x with
  | ok b => simp [Except.map]
  | error e' => simpa [Except.map] using hx

theorem bind_ne_error {x : Except ε β} {f : β → Except ε γ} {e : ε} (hx : x ≠ .error e)
    (hf : ∀ b, f b ≠ .error e) : (x >>= f) ≠ .error e := by
  cases x with
  | ok b => exact hf b
  | error e' => simpa [bind, Except.bind] using hx

theorem referencedBy_ne_error {chain : List Hash} {l : List Endorsement} :
    referencedBy ed ing chain l ≠ .error .raiseValidity := by
  induction l with
  | nil => simp [referencedBy]
  | cons e l ih =>
    unfold referencedBy
    split
    . simp
    . split
      . exact ih
      . split
        . simp
        . split
          . exact ih
          . exact map_ne_error ih

variable [PopAddon A]

theorem getProtoKeystoneContext_ne_error {chain : List Hash} {n first : Nat} :
    getProtoKeystoneContext ed ing chain n first ≠ .error .raiseValidity := by
  induction n generalizing first with
  | zero => simp [getProtoKeystoneContext]
  | succ n ih =>
    unfold getProtoKeystoneContext
    split
    . simp
    . split
      . next e he =>
        intro h
        exact referencedBy_ne_error (he.trans h)
      . exact map_ne_error ih

theorem getKeystone_ne_error {v : ReducedPublicationView} {height : Nat} :
    v.getKeystone p ed ing height ≠ .error .raiseValidity := by
  unfold ReducedPublicationView.getKeystone
  split
  . simp
  . split
    . simp
    . split
      . exact map_ne_error getProtoKeystoneContext_ne_error
      . simp

theorem comparePopScoreLoop_ne_error {v w : ReducedPublicationView} {n keystone : Nat} {s : PopScores} :
    comparePopScoreLoop p ed ing v w n keystone s ≠ .error .raiseValidity := by
  induction n generalizing keystone s with
  | zero => simp [comparePopScoreLoop]
  | succ n ih =>
    have hctx : ∀ (outside : Bool) (u : ReducedPublicationView),
        u.getKeystoneUnless p ed ing outside keystone ≠ .error .raiseValidity := by
      intro outside u
      unfold ReducedPublicationView.getKeystoneUnless
      split
      . simp
      . exact getKeystone_ne_error
    unfold comparePopScoreLoop
    refine bind_ne_error (hctx _ v) (fun actx => bind_ne_error (hctx _ w) (fun bctx => ?_))
    split
    split
    . exact ih
    . simp

theorem comparePopScoreImpl_ne_error {v w : ReducedPublicationView} :
    comparePopScoreImpl p ed ing v w ≠ .error .raiseValidity := by
  unfold comparePopScoreImpl
  repeat' split
  all_goals first
    | exact comparePopScoreLoop_ne_error
    | simp

end PublicationView

/-- Nothing has changed that the invariant of the tree reads. -/
def Around.Frame [BlockAddon A] {l : Lens σ (Tree A)} (a : Around l) (t : Tree A) (s : σ) : Prop :=
  t.SameCore (l.get s) ∧ a.rest s

theorem Around.Frame.keeps [BlockAddon A] {l : Lens σ (Tree A)} {a : Around l} {m : M σ α}
    (hm : Keeps a.Frame a.Stops m) : Keeps a.Holds a.Stops m := by
  intro i s hs
  refine wp_mono (hm (l.get s) s ⟨.refl _, hs.2⟩) ?_ (fun _ _ h => h)
  exact fun _ s' hs' => ⟨hs.1.congr hs'.1, hs'.2⟩

namespace PopStateMachine

variable [BlockAddon A] [BlockAddon B]

/-- What is known around the protected tree is what is known of the protecting tree. -/
structure Linked (sm : PopStateMachine σ τ A B C) (a : Around sm.ed) (b : Around sm.protecting.tree) :
    Prop where
  rest : ∀ s, a.rest s ↔ b.Holds .pow (sm.ing.get s)
  spoiled : ∀ s, (sm.protecting.tree.get (sm.ing.get s)).RestoredFailedPop ∨ b.spoiled (sm.ing.get s) →
    a.spoiled s
  ed_ing : ∀ x s, sm.ed.get (sm.ing.set x s) = sm.ed.get s

/-- What the parts of a state machine have to keep. -/
structure Lawful (sm : PopStateMachine σ τ A B C) (a : Around sm.ed) (b : Around sm.protecting.tree) :
    Prop extends sm.Linked a b where
  protecting : sm.protecting.Lawful b
  getCommands : ∀ index, Keeps a.Frame a.Stops (sm.getCommands index)
  execute : ∀ cmd, Keeps a.Frame a.Stops (sm.execute cmd)
  unExecute : ∀ cmd, Keeps a.Frame a.Stops (sm.unExecute cmd)
  validTree_le : .validTree ≤ BlockAddon.validTipLevel A
  le_connected : BlockAddon.validTipLevel A ≤ .connected

variable {sm : PopStateMachine σ τ A B C} {a : Around sm.ed} {b : Around sm.protecting.tree}

/-- A program on the protecting tree. -/
theorem Linked.zoom_ing {m : M τ α} (hsm : sm.Linked a b)
    (hm : Keeps (fun _ : Unit => b.Holds .pow) b.Stops m) :
    Keeps a.Frame a.Stops (zoom sm.ing m) := by
  rintro t s ⟨ht, hs⟩
  rw [wp_zoom]
  refine wp_mono (hm () _ ((hsm.rest s).mp hs)) ?_ ?_
  . intro _ x hx
    refine ⟨?_, (hsm.rest _).mpr ?_⟩
    . rw [hsm.ed_ing]
      exact ht
    . rw [sm.ing.get_set]
      exact hx
  . intro e x hx he
    refine .inr (hsm.spoiled _ ?_)
    rw [sm.ing.get_set]
    exact hx he

namespace Lawful

omit [BlockAddon B] in
theorem getEd : Keeps a.Holds a.Stops sm.getEd := .bind .get (fun _ => .pure _)

omit [BlockAddon B] in
theorem getIng : Keeps a.Holds a.Stops sm.getIng := .bind .get (fun _ => .pure _)

variable (hsm : sm.Lawful a b)

include hsm

/-- The protected tree as `applyBlock` sees it. -/
theorem edClass : sm.edClass.Lawful a where
  onBeforeLeafRemoved := ⟨fun _ _ => rfl, fun _ _ => rfl, fun _ _ => rfl⟩
  setState _ := .throw (fun _ s _ => .of_ne (by decide) s)
  determineBestChain _ := .pure _
  validTree_le := hsm.validTree_le
  le_connected := hsm.le_connected

theorem executeGroup (cmds : List C) : Keeps a.Frame a.Stops (sm.executeGroup cmds) :=
  .execAll hsm.execute hsm.unExecute cmds

theorem unExecuteGroup (cmds : List C) : Keeps a.Frame a.Stops (sm.unExecuteGroup cmds) :=
  .undoAll hsm.unExecute cmds

variable [PopAddon A]

theorem executeBlock (index : BlockIndex A) : Keeps a.Frame a.Stops (sm.executeBlock index) :=
  .ite (.bind (hsm.getCommands index) (fun _ => .execAll hsm.executeGroup hsm.unExecuteGroup _)) (.pure _)

omit [BlockAddon B] [PopAddon A] hsm in
/-- The commands of a block have been executed. -/
theorem wp_finishApply {i : Promise A} {s : σ} {h p : Hash} {index prev : BlockIndex A} (hs : a.Holds i s)
    (htip : BlockAddon.validTipLevel A ≤ .connected) (hb : (sm.ed.get s).find? h = some index)
    (hp : index.pprev = some p) (hbp : (sm.ed.get s).find? p = some prev) (hv : index.isValid .connected = true)
    (hactive : prev.status.active = true) :
    wp (sm.finishApply h p) (fun _ => a.Holds i) a.Stops s := by
  simp only [finishApply, PopStateMachine.deref, PopStateMachine.getEd, wp_bind, wp_zoom_derefBlock, wp_get,
    wp_pure]
  refine ⟨fun prev' hbp' => ?_, fun _ => .of_ne (by decide) s⟩
  rw [hbp] at hbp'
  cases hbp'
  simp only [isValid, Bool.and_eq_true, Bool.not_eq_true', isValidUpTo, decide_eq_true_eq] at hv
  refine Around.wp_zoom' hs.2 (markApplied_sane hs.1 htip hb hp hbp hv.2 hv.1 hactive ?_ ?_)
  . split
    . decide
    . decide
  . split
    . next hv' =>
      simp only [isValid, Bool.and_eq_true, isValidUpTo, decide_eq_true_eq] at hv'
      exact fun _ => hv'.1.2
    . intro h
      cases h

theorem applyBlock (h : Hash) : Keeps a.Holds a.Stops (sm.applyBlock h) := by
  intro i s hs
  simp only [PopStateMachine.applyBlock, PopStateMachine.deref, assertBlockCanBeApplied, wp_bind,
    wp_zoom_derefBlock, wp_getOrStop, wp_check, wp_pure, wp_ite]
  refine ⟨fun index hb => ⟨fun p hp => ⟨fun prev hbp => ⟨fun hactive => ⟨fun _ => ⟨fun _ => ⟨fun _ => hs, fun _ =>
    ⟨fun hv => ?_, fun _ => .of_ne (by decide) s⟩⟩, fun _ => .of_ne (by decide) s⟩,
    fun _ => .of_ne (by decide) s⟩, fun _ => .of_ne (by decide) s⟩, fun _ => .of_ne (by decide) s⟩,
    fun _ => .of_ne (by decide) s⟩, fun _ => .of_ne (by decide) s⟩
  refine wp_mono (hsm.executeBlock index (sm.ed.get s) s ⟨.refl _, hs.2⟩) ?_ (fun _ _ h => h)
  rintro ok s1 ⟨hsame, hrest⟩
  -- the commands have not touched what is known of the block and its parent
  have hs1 : a.Holds i s1 := ⟨hs.1.congr hsame, hrest⟩
  obtain ⟨index1, hb1, heq⟩ := hsame.core.symm.find? hb
  obtain ⟨prev1, hbp1, heqp⟩ := hsame.core.symm.find? hbp
  have hst := (core_eq_iff.mp heq).2
  have hv1 : index1.isValid .connected = true := by
    simpa only [isValid, BlockIndex.isFailed, isValidUpTo, hst] using hv
  refine ⟨fun _ => ?_, fun _ => ?_⟩
  . refine wp_finishApply hs1 hsm.le_connected hb1 ?_ hbp1 hv1 ?_
    . rw [(shape_eq_iff.mp (core_eq_iff.mp heq).1).2.1]
      exact hp
    . rw [(core_eq_iff.mp heqp).2]
      exact hactive
  . refine hsm.edClass.invalidateSubtree_settles (i := i) (s := s1) .failedPop false
      ⟨hs1.1.unsettle h, hs1.2⟩ ?_
    simp only [isValid, Bool.and_eq_true, isValidUpTo, decide_eq_true_eq] at hv1
    exact hs1.1.imp_right (fun ht => ⟨index1, hb1, ht.1.not_deleted hb1 hv1.2 (by decide)⟩)

theorem unapplyBlock (h : Hash) : Keeps a.Holds a.Stops (sm.unapplyBlock h) := by
  refine .bind (Around.derefBlock_keeps h) (fun index => .bind (Around.getOrStop_keeps (by decide)) (fun p =>
    .bind (Around.check_keeps (by decide)) (fun _ => .bind (Around.check_keeps (by decide)) (fun _ =>
    .bind (Around.derefBlock_keeps p) (fun prev => .bind (Around.check_keeps (by decide)) (fun _ =>
    .bind (.when ?_) (fun _ => .bind ?_ (fun _ => .bind getEd (fun _ =>
    .bind (Around.check_keeps (by decide)) (fun _ => Around.modify_keeps ?_))))))))))
  . exact Around.Frame.keeps (.bind (hsm.getCommands index) (fun _ => .undoAll hsm.unExecuteGroup _))
  . exact Around.zoom_keeps (fun _ _ ht => ht.unsetActive)
  . exact fun t => ⟨.of_blocks_eq rfl, rfl, rfl⟩

theorem unapplyWhile (pred : BlockIndex A → Bool) (dest : Hash) (n : Nat) (h : Hash) :
    Keeps a.Holds a.Stops (sm.unapplyWhile pred dest n h) := by
  induction n generalizing h with
  | zero => exact .throw (fun _ s _ => .of_ne (by decide) s)
  | succ n ih =>
    refine .ite (.pure _) (.bind (Around.derefBlock_keeps h) (fun index => .bind getEd (fun _ =>
      .bind (Around.check_keeps (by decide)) (fun _ => .ite (.pure _) ?_))))
    exact .bind (hsm.unapplyBlock h) (fun _ => .bind (Around.getOrStop_keeps (by decide)) (fun p => ih p))

theorem unapply (start dest : Hash) : Keeps a.Holds a.Stops (sm.unapply start dest) :=
  .bind getEd (fun _ => .bind (hsm.unapplyWhile _ dest _ start) (fun _ => Around.check_keeps (by decide)))

theorem apply (start dest : Hash) : Keeps a.Holds a.Stops (sm.apply start dest) := by
  refine .ite (.pure _) (.bind (Around.derefBlock_keeps dest) (fun _ => .ite (.pure _) (.bind getEd (fun _ =>
    .bind (Around.getOrStop_keeps (by decide)) (fun _ => .bind (Around.check_keeps (by decide)) (fun _ => ?_))))))
  exact .execAll hsm.applyBlock hsm.unapplyBlock _

theorem setState (start dest : Hash) : Keeps a.Holds a.Stops (sm.setState start dest) := by
  refine .ite (.pure _) (.bind getEd (fun _ => .bind (Around.getOrStop_keeps (by decide)) (fun fork =>
    .bind (hsm.unapply start fork) (fun _ => .bind (hsm.apply fork dest) (fun _ => .ite (.pure _) ?_)))))
  exact .bind (hsm.apply fork start) (fun _ => .bind (Around.check_keeps (by decide)) (fun _ => .pure _))

omit [PopAddon A] in
theorem withGuard {m : M σ α} (hm : Keeps a.Holds a.Stops m) : Keeps a.Holds a.Stops (sm.withGuard m) :=
  .bind (Around.Frame.keeps (hsm.zoom_ing (TreeClass.Lawful.deferForkResolution.fix _))) (fun _ =>
    .bind hm (fun _ => .bind (Around.Frame.keeps (hsm.zoom_ing (hsm.protecting.continueForkResolution.fix _)))
      (fun _ => .pure _)))

omit [PopAddon A] in
theorem revertTo (h : Hash) : Keeps a.Holds a.Stops (sm.revertTo h) :=
  Around.Frame.keeps (hsm.zoom_ing ((hsm.protecting.overrideDeferredForkResolution h).fix _))

omit [PopAddon A] in
theorem revertUnless (success : Bool) (h : Hash) : Keeps a.Holds a.Stops (sm.revertUnless success h) :=
  .bind (.when (hsm.revertTo h)) (fun _ => .pure _)

theorem comparatorSetState (dest : Hash) : Keeps a.Holds a.Stops (sm.comparatorSetState dest) := by
  refine .bind getEd (fun _ => .bind (Around.check_keeps (by decide)) (fun _ => .ite (.pure _)
    (hsm.withGuard (.bind getIng (fun _ => .bind (hsm.setState _ dest) (fun _ => hsm.revertUnless _ _))))))

theorem keepChainA (fork candidate originalTip : Hash) :
    Keeps a.Holds a.Stops (sm.keepChainA fork candidate originalTip) :=
  hsm.withGuard (.bind (hsm.unapply candidate fork) (fun _ => hsm.revertTo originalTip))

theorem switchToChainB (fork bestTip candidate originalTip : Hash) :
    Keeps a.Holds a.Stops (sm.switchToChainB fork bestTip candidate originalTip) := by
  refine hsm.withGuard (.bind getEd (fun _ => .bind (hsm.unapplyWhile _ fork _ candidate) (fun validFrom =>
    .bind (hsm.unapply bestTip fork) (fun _ => .bind (hsm.apply validFrom candidate) (fun _ =>
    .ite (.pure _) ?_)))))
  exact .bind (hsm.unapply validFrom fork) (fun _ => .bind (hsm.apply fork bestTip) (fun _ =>
    .bind (Around.check_keeps (by decide)) (fun _ => .bind (hsm.revertTo originalTip) (fun _ => .pure _))))

omit [PopAddon A] [BlockAddon B] hsm in
theorem liftExcept {x : Except Assertion Int} (hx : x ≠ .error .raiseValidity) :
    Keeps a.Holds a.Stops (compareForks.liftExcept x) := by
  cases x with
  | ok r => exact .pure r
  | error e =>
    refine .throw (fun _ s _ => .of_ne ?_ s)
    rintro rfl
    exact hx rfl

theorem compareForks (p : PopParams) (fork bestTip candidate : Hash) :
    Keeps a.Holds a.Stops (sm.compareForks p fork bestTip candidate) := by
  refine .bind getIng (fun _ => .bind (hsm.withGuard (.bind (hsm.apply fork candidate) (fun _ =>
    hsm.revertUnless _ _))) (fun _ => .ite (.pure _) (.bind getEd (fun ed => .bind getIng (fun ing =>
    .bind ?_ (fun _ => .ite (.bind (hsm.keepChainA _ _ _) (fun _ => .pure _))
    (.bind (hsm.switchToChainB _ _ _ _) (fun _ => .ite (.pure _) (.pure _)))))))))
  exact liftExcept comparePopScoreImpl_ne_error

theorem comparePopScore (p : PopParams) (candidate : Hash) :
    Keeps a.Holds a.Stops (sm.comparePopScore p candidate) := by
  refine .bind (Around.derefBlock_keeps _) (fun _ => .bind getEd (fun _ => .bind (Around.derefBlock_keeps _)
    (fun _ => .ite (.pure _) (.ite (.bind getIng (fun _ => .bind (hsm.withGuard (.bind (hsm.apply _ _) (fun _ =>
    hsm.revertUnless _ _))) (fun _ => .pure _))) (.bind (Around.getOrStop_keeps (by decide)) (fun fork =>
    .ite (.pure _) (.ite (.pure _) (hsm.compareForks p fork _ candidate))))))))

end Lawful

end PopStateMachine

end AltIntegration
