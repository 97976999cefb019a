import AltIntegration.Blockchain.MemPoolBlockTree
import AltIntegration.Blockchain.Lemmas.Changes
import AltIntegration.Blockchain.Lemmas.Insert

/-!
This module contains that the programs of the three trees make no changes but the elementary ones.
-/

namespace AltIntegration

open Program BlockIndex

variable {σ τ A B C S T α : Type}

section PoW

variable [PowAddon A] [StoredAddon A S] {D : Permit} {R : TreeRules A} {P : σ → σ → Prop} {c : TreeClass σ A}
  {l : Lens σ (Tree A)} {p : BlockTreeParams}

theorem Lifts.determineBestChainByWork {setState : Hash → M σ Bool} (hset : ∀ h, Stays P (setState h))
    (candidate : Hash) : Stays P (determineBestChainByWork l setState candidate) :=
  .bind .get (fun _ => .bind Stays.getOrStop (fun _ => .when (.bind (hset candidate) (fun _ => .pure _))))

namespace TreeClass.Obeys

variable (hc : c.Obeys D R P) (hR : R.PoW) (hB : D.bodies) (hF : D.fails)

include hc hR hB

section

include hF

theorem wlp_acceptBlockHeader {s : σ} (block : PowBlock) (hD : D.levels ∨ (c.tree.get s).Tracked block.getHash) :
    wlp (acceptBlockHeader p c block) (fun _ => P s) s := by
  unfold acceptBlockHeader
  rw [wlp_bind]
  refine wlp_mono (hc.wlp_zoom (Changing.wlp_validateAndAddBlock hB hF hR true hD)) ?_
  intro ok s' hs'
  refine (Keeps.ite ?_ (.pure _) : Stays P _) s s' hs'
  exact .bind (hc.zoom (Changing.tryAddTip _)) (fun _ => .bind (hc.determineBestChain _) (fun _ => .pure _))

theorem wlp_bootstrapBlock {s : σ} (block : PowBlock) (hD : D.levels ∨ (c.tree.get s).Tracked block.getHash) :
    wlp (bootstrapBlock p c block) (fun _ => P s) s := by
  unfold bootstrapBlock
  rw [wlp_bind]
  refine wlp_mono (hc.wlp_zoom (Changing.wlp_validateAndAddBlock hB hF hR false hD)) ?_
  intro ok s' hs'
  refine (?_ : Stays P _) s s' hs'
  refine .bind Stays.check (fun _ => .bind (hc.zoom (Changing.modifyBlock (fun _ _ => .bootstrap))) (fun _ =>
    .bind (hc.zoom (Changing.tryAddTip _)) (fun _ => .bind (hc.determineBestChain _) (fun _ => hc.zoom ?_))))
  exact Changing.modifyBlock (fun _ b => .addon _ (hR.addRef_ids _ _) (.inl hB))

theorem addBlock_execute (block : PowBlock) (n : Nat) : Stays P (AddBlock.execute p c block n) := by
  refine Stays.of_wlp hc.trans (fun s => ?_)
  simp only [AddBlock.execute, TreeClass.getTree, wlp_bind, wlp_get, wlp_pure]
  refine wlp_mono (?_ : wlp _ (fun _ => P s) s) ?_
  . unfold AddBlock.execute.acceptUnknown
    split
    . exact hc.refl s
    . next hnone =>
      refine hc.wlp_acceptBlockHeader hR hB hF block (.inr (fun b hb => ?_))
      rw [hnone] at hb
      cases hb
  . intro ok s' hs'
    refine (Keeps.ite ?_ (.pure _) : Stays P _) s s' hs'
    refine .bind Follows.getTree (fun _ => .bind Stays.check (fun _ => .bind (hc.zoom ?_) (fun _ => .pure _)))
    exact Changing.modifyBlock (fun _ b => .addon _ (hR.addRef_ids _ _) (.inl hB))

end

theorem addBlock_unExecute (block : PowBlock) (n : Nat) : Stays P (AddBlock.unExecute c block n) := by
  refine Stays.of_wlp hc.trans (fun s => ?_)
  simp only [AddBlock.unExecute, TreeClass.getTree, wlp_bind, wlp_get, wlp_pure, wlp_getOrStop]
  intro index hindex addon haddon
  obtain ⟨hb, _⟩ := Tree.getBlockIndex_eq_some.mp hindex
  refine wlp_mono (hc.wlp_zoom (wlp_modify.mpr (.single (.block (fun b hb' => .addon _ ?_ (.inl hB)))))) ?_
  . rw [hb] at hb'
    cases hb'
    exact hR.removeRef_ids _ _ _ haddon
  . intro _ s' hs'
    refine (?_ : Stays P _) s s' hs'
    exact .when (.bind Stays.check (fun _ => hc.removeLeaf hB _))

end TreeClass.Obeys

end PoW

section Endorsement

variable [BlockAddon A] [PopAddon A] [StoredAddon A S] [PowAddon B] [StoredAddon B T] {D E : Permit} {R : TreeRules A}
  {R' : TreeRules B} {P : σ → σ → Prop} {ed : Lens σ (Tree A)} {ing : Lens σ (Tree B)}

/-- The endorsements of a block are none of its payloads or references. -/
structure TreeRules.Pop (R : TreeRules A) : Prop where
  setPopState_ids : ∀ s a, R.payloadIds (PopAddon.setPopState s a) = R.payloadIds a
  setPopState_refs : ∀ s a, R.refs (PopAddon.setPopState s a) = R.refs a
  payloadIds_ne_nil : ∀ a, PopAddon.hasPayloads a = true → R.payloadIds a ≠ []

theorem Changing.updatePopState (hR : R.Pop) (h : Hash) (f : PopState → PopState) (t : Tree A) :
    Tree.Change D R t (t.updatePopState h f) := .block (fun _ _ => .addon _ (hR.setPopState_ids _ _) (.inr (hR.setPopState_refs _ _)))

variable (hed : Lifts D R P ed) (hing : Lifts E R' P ing) (hR : R.Pop) (hR' : R'.PoW)

include hed hing hR hR'

theorem addEndorsement_execute_stays (n : Nat) (e : Endorsement) : Stays P (AddEndorsement.execute ed ing n e) := by
  refine .bind .get (fun _ => .ite (.bind (hed.zoom ?_) (fun _ => .bind (hing.zoom ?_) (fun _ => .pure _))) (.pure _))
  . refine Stays.modify (fun _ _ _ h h' => h.trans h') (fun t => ?_)
    exact .trans (.single (Changing.updatePopState hR _ _ _)) (.single (Changing.updatePopState hR _ _ _))
  . exact Changing.modifyBlock (fun _ _ => .addon _ (hR'.setBlockOfProofEndorsements_ids _ _)
    (.inr (hR'.setBlockOfProofEndorsements_refs _ _)))

theorem addEndorsement_unExecute_stays (e : Endorsement) : Stays P (AddEndorsement.unExecute ed ing e) := by
  refine .bind .get (fun _ => .bind Stays.getOrStop (fun _ => .bind Stays.getOrStop (fun _ =>
    .bind Stays.getOrStop (fun _ => .bind Stays.getOrStop (fun _ => .bind Stays.check (fun _ => .bind Stays.check (fun _ =>
    .bind (hed.zoom (.change (Changing.updatePopState hR _ _))) (fun _ => .bind (hing.zoom ?_) (fun _ =>
    hed.zoom (.change (Changing.updatePopState hR _ _)))))))))))
  exact Changing.modifyBlock (fun _ _ => .addon _ (hR'.setBlockOfProofEndorsements_ids _ _)
    (.inr (hR'.setBlockOfProofEndorsements_refs _ _)))

/-- What commands leave alone in the blocks of the protected tree. -/
def TreeRules.quiet {A : Type} (R : TreeRules A) (b : BlockIndex A) :
    ((Block × Option Hash × Nat) × BlockStatus) × Bool × List PayloadId := (b.core, b.finalized, R.payloadIds b.addon)

omit [BlockAddon A] [StoredAddon A S] [StoredAddon B T] hed hing hR' in
theorem sameOn_updatePopState (t : Tree A) (h : Hash) (f : PopState → PopState) :
    t.SameOn R.quiet (t.updatePopState h f) := by
  apply Tree.SameOn.update
  intro b _
  unfold TreeRules.quiet
  rw [show R.payloadIds (b.setAddon _).addon = R.payloadIds b.addon from hR.setPopState_ids _ _]
  rfl

section

variable (hdisj : ∀ x s, ed.get (ing.set x s) = ed.get s)

include hdisj

omit [BlockAddon A] [StoredAddon A S] [StoredAddon B T] hed hing hR' in
theorem addEndorsement_execute_quiet (n : Nat) (e : Endorsement) :
    Stays (fun s s' => (ed.get s).SameOn R.quiet (ed.get s')) (AddEndorsement.execute ed ing n e) := by
  refine Stays.of_wlp (fun _ _ _ h h' => h.trans h') (fun s => ?_)
  simp only [AddEndorsement.execute, wlp_bind, wlp_get, wlp_ite, wlp_zoom, wlp_modify, wlp_pure, hdisj, ed.get_set]
  exact ⟨fun _ => (sameOn_updatePopState hR _ _ _).trans (sameOn_updatePopState hR _ _ _), fun _ => .refl _⟩

omit [BlockAddon A] [StoredAddon A S] [StoredAddon B T] hed hing hR' in
theorem addEndorsement_unExecute_quiet (e : Endorsement) :
    Stays (fun s s' => (ed.get s).SameOn R.quiet (ed.get s')) (AddEndorsement.unExecute ed ing e) := by
  refine Stays.of_wlp (fun _ _ _ h h' => h.trans h') (fun s => ?_)
  simp only [AddEndorsement.unExecute, wlp_bind, wlp_get, wlp_getOrStop, wlp_check, wlp_zoom, wlp_modify, hdisj, ed.get_set]
  intro _ _ _ _ _ _ _ _ _ _
  exact (sameOn_updatePopState hR _ _ _).trans (sameOn_updatePopState hR _ _ _)

end

end Endorsement

namespace PopStateMachine

variable [BlockAddon A] [PopAddon A] [StoredAddon A S] [BlockAddon B] [StoredAddon B T] {D : Permit} {R : TreeRules A}
  {R' : TreeRules B} {P : σ → σ → Prop} {Q : τ → τ → Prop} {sm : PopStateMachine σ τ A B C}

/-- A command leaves the status and the payloads of the protected blocks alone. -/
def Quiet (sm : PopStateMachine σ τ A B C) (R : TreeRules A) (P : σ → σ → Prop) (s s' : σ) : Prop :=
  P s s' ∧ (sm.ed.get s).SameOn R.quiet (sm.ed.get s')

omit [BlockAddon A] [PopAddon A] [StoredAddon A S] [BlockAddon B] [StoredAddon B T] in
theorem Quiet.intro {m : M σ α} (hP : Stays P m)
    (hm : Stays (fun s s' => (sm.ed.get s).SameOn R.quiet (sm.ed.get s')) m) :
    Stays (sm.Quiet R P) m := by
  intro i s hs
  exact wlp_and (hP i s hs.1) (hm i s hs.2)

omit [BlockAddon A] [PopAddon A] [StoredAddon A S] [BlockAddon B] [StoredAddon B T] in
/-- A program on the protecting side does not touch the protected tree. -/
theorem Quiet.zoom {ρ : Type} {l : Lens σ ρ} {m : M ρ α} (hl : ∀ x s, sm.ed.get (l.set x s) = sm.ed.get s)
    (hP : Stays P (zoom l m)) : Stays (sm.Quiet R P) (zoom l m) := by
  refine Quiet.intro hP (fun i s hs => ?_)
  rw [wp_zoom]
  refine wlp_iff.mpr (fun _ x _ => ?_)
  show (sm.ed.get i).SameOn _ (sm.ed.get (l.set x s))
  rw [hl]
  exact hs

/-- What the parts of a state machine have to respect. -/
structure Obeys (sm : PopStateMachine σ τ A B C) (D : Permit) (R : TreeRules A) (R' : TreeRules B) (P : σ → σ → Prop)
    (Q : τ → τ → Prop) : Prop where
  ed : Lifts D R P sm.ed
  pop : R.Pop
  ing : ∀ s x, Q (sm.ing.get s) x → P s (sm.ing.set x s)
  protecting : sm.protecting.Obeys D.protecting R' Q
  getCommands : ∀ index, Stays (sm.Quiet R P) (sm.getCommands index)
  execute : ∀ cmd, Stays (sm.Quiet R P) (sm.execute cmd)
  unExecute : ∀ cmd, Stays (sm.Quiet R P) (sm.unExecute cmd)

omit [BlockAddon A] [StoredAddon A S] [BlockAddon B] [StoredAddon B T] in
/-- A block without payloads executes. -/
theorem wlp_executeBlock_loaded {index : BlockIndex A} {s : σ} :
    wlp (sm.executeBlock index) (fun ok _ => ok = false → PopAddon.hasPayloads index.addon = true) s := by
  unfold executeBlock
  rw [wlp_ite]
  refine ⟨fun h => wlp_iff.mpr (fun _ _ _ _ => h), fun _ => ?_⟩
  rw [wlp_pure]
  exact fun h => absurd h (by decide)

namespace Obeys

omit [BlockAddon A] [PopAddon A] [StoredAddon A S] [BlockAddon B] [StoredAddon B T] in
theorem getEd : Stays P sm.getEd := .bind .get (fun _ => .pure _)

omit [BlockAddon A] [PopAddon A] [StoredAddon A S] [BlockAddon B] [StoredAddon B T] in
theorem getIng : Stays P sm.getIng := .bind .get (fun _ => .pure _)

variable (hsm : sm.Obeys D R R' P Q)

include hsm

theorem deref (h : Hash) : Stays P (sm.deref h) := hsm.ed.zoom (Changing.derefBlock h)

theorem zoom_ing {m : M τ α} (hm : Stays Q m) : Stays P (zoom sm.ing m) := by
  refine Stays.of_wlp hsm.ed.trans (fun s => ?_)
  rw [wlp_zoom]
  exact wlp_mono (hm.wlp hsm.protecting.refl _) (fun _ x hx => hsm.ing s x hx)

theorem of_quiet {m : M σ α} (hm : Stays (sm.Quiet R P) m) : Stays P m :=
  Stays.of_wlp hsm.ed.trans (fun s => wlp_mono (hm s s ⟨hsm.ed.refl s, .refl _⟩) (fun _ _ h => h.1))

theorem executeGroup (cmds : List C) : Stays (sm.Quiet R P) (sm.executeGroup cmds) :=
  .execAll hsm.execute hsm.unExecute cmds

theorem unExecuteGroup (cmds : List C) : Stays (sm.Quiet R P) (sm.unExecuteGroup cmds) :=
  .undoAll hsm.unExecute cmds

theorem executeBlock (index : BlockIndex A) : Stays (sm.Quiet R P) (sm.executeBlock index) :=
  .ite (.bind (hsm.getCommands index) (fun _ => .execAll hsm.executeGroup hsm.unExecuteGroup _)) (.pure _)

theorem assertBlockCanBeApplied (index : BlockIndex A) : Stays P (sm.assertBlockCanBeApplied index) :=
  .bind Stays.getOrStop (fun p => .bind (hsm.deref p) (fun _ => .bind Stays.check (fun _ => .bind Stays.check (fun _ =>
    .bind Stays.check (fun _ => .pure _)))))

theorem wlp_finishApply {s : σ} {h p : Hash} (hb : ∀ b, (sm.ed.get s).find? h = some b → b.status.active = false) :
    wlp (sm.finishApply h p) (fun _ => P s) s := by
  simp only [finishApply, PopStateMachine.getEd, PopStateMachine.deref, wlp_bind, wlp_zoom_derefBlock, wlp_get, wlp_pure]
  intro prev _
  refine hsm.ed.wlp_zoom ?_
  simp only [markApplied, wlp_bind, wlp_modifyBlock, wlp_modify]
  cases hfind : (sm.ed.get s).find? h with
  | none => simp [raiseValidity, wlp_derefBlock, hfind]
  | some b =>
    refine wlp_raiseValidity hfind (fun _ => ?_) (fun _ _ => ?_)
    . have hflag : Tree.Change D R (sm.ed.get s) ((sm.ed.get s).update h (fun b => b.setFlag .active)) :=
        .block (fun b' hb' => .apply b'.status.level (hb b' hb') (Nat.le_refl _))
      exact .tail (.single hflag) (.fields rfl rfl rfl rfl rfl (.inr rfl))
    . next hlevel =>
      rw [Tree.update_update]
      refine .tail (.single (.block (fun b' hb' => .apply _ (hb b' hb') ?_))) (.fields rfl rfl rfl rfl rfl (.inr rfl))
      rw [hfind] at hb'
      cases hb'
      exact Nat.le_of_lt hlevel

/-- Only a block with payloads fails to apply. -/
theorem wlp_fail {s : σ} {h : Hash} (hids : ∀ b, (sm.ed.get s).find? h = some b → R.payloadIds b.addon ≠ []) :
    wlp (invalidateSubtree sm.edClass h .failedPop false) (fun _ => P s) s := by
  simp only [invalidateSubtree, TreeClass.getTree, wlp_bind, wlp_get, wlp_pure, wlp_getOrStop, wlp_check, wlp_ite]
  intro b _ prev _ _
  refine ⟨fun _ => hsm.ed.refl s, fun _ => ⟨fun _ => ?_, fun _ => ?_⟩⟩
  . exact hsm.ed.wlp_zoom (Changing.wlp_doInvalidate_failedPop hids)
  . rw [wlp_when]
    refine ⟨fun _ => ?_, fun _ => ?_⟩
    . simp only [setStateOrStop, PopStateMachine.edClass, wlp_bind, wlp_throw]
    . refine wlp_mono (hsm.ed.wlp_zoom (Changing.wlp_flagSubtree_failedPop hids)) (fun _ s1 h1 => ?_)
      rw [wlp_when]
      exact ⟨fun hf => absurd hf Bool.false_ne_true, fun _ => h1⟩

theorem applyBlock (h : Hash) : Stays P (sm.applyBlock h) := by
  refine Stays.of_wlp hsm.ed.trans (fun s => ?_)
  simp only [PopStateMachine.applyBlock, PopStateMachine.deref, PopStateMachine.assertBlockCanBeApplied, wlp_bind,
    wlp_zoom_derefBlock, wlp_getOrStop, wlp_check, wlp_pure, wlp_ite]
  intro index hb p _ prev _ _ hactive _
  refine ⟨fun _ => hsm.ed.refl s, fun _ _ => ?_⟩
  refine wlp_mono (wlp_and (hsm.executeBlock index s s ⟨hsm.ed.refl s, .refl _⟩) sm.wlp_executeBlock_loaded) ?_
  rintro ok s1 ⟨⟨hP, hsame⟩, hloaded⟩
  refine ⟨fun _ => ?_, fun hfail => ?_⟩
  . refine wlp_mono (hsm.wlp_finishApply (fun b1 hb1 => ?_)) (fun _ s2 h2 => hsm.ed.trans s s1 s2 hP h2)
    obtain ⟨b, hb', heq⟩ := hsame.find? hb1
    rw [hb] at hb'
    cases hb'
    rw [← (core_eq_iff.mp (Prod.mk.inj heq).1).2]
    simpa [hasFlags, BlockStatus.hasFlags] using hactive
  . refine wlp_mono (hsm.wlp_fail (fun b1 hb1 => ?_)) (fun _ s2 h2 => hsm.ed.trans s s1 s2 hP h2)
    obtain ⟨b, hb', heq⟩ := hsame.find? hb1
    rw [hb] at hb'
    cases hb'
    rw [← (Prod.mk.inj (Prod.mk.inj heq).2).2]
    exact hsm.pop.payloadIds_ne_nil _ (hloaded (by simpa using hfail))

theorem unapplyBlock (h : Hash) : Stays P (sm.unapplyBlock h) := by
  refine Stays.of_wlp hsm.ed.trans (fun s => ?_)
  simp only [PopStateMachine.unapplyBlock, PopStateMachine.deref, wlp_bind, wlp_zoom_derefBlock, wlp_getOrStop, wlp_check]
  intro index hb p _ hfinal _ prev _ _
  have hundo : Stays (sm.Quiet R P) (when (PopAddon.hasPayloads index.addon) do
      let cgroups ← sm.getCommands index
      undoAll sm.unExecuteGroup cgroups) :=
    .when (.bind (hsm.getCommands index) (fun _ => .undoAll hsm.unExecuteGroup _))
  refine wlp_mono (hundo s s ⟨hsm.ed.refl s, .refl _⟩) ?_
  rintro _ s1 ⟨hP, hsame⟩
  have hflag : wlp (zoom sm.ed (modifyBlock h (fun b => b.unsetFlag .active))) (fun _ => P s1) s1 := by
    refine hsm.ed.wlp_zoom (wlp_modifyBlock.mpr (.single (.block (fun b1 hb1 => .unapply ?_))))
    obtain ⟨b, hb', heq⟩ := hsame.find? hb1
    rw [hb] at hb'
    cases hb'
    rw [← (Prod.mk.inj (Prod.mk.inj heq).2).1]
    simpa using hfinal
  refine wlp_mono hflag (fun _ s2 h2 => ?_)
  simp only [PopStateMachine.getEd, wlp_bind, wlp_get, wlp_pure]
  intro _
  refine wlp_mono (hsm.ed.wlp_zoom (wlp_modify.mpr (.single (.fields rfl rfl rfl rfl rfl (.inr rfl))))) (fun _ s3 h3 => ?_)
  exact hsm.ed.trans s s2 s3 (hsm.ed.trans s s1 s2 hP h2) h3

theorem unapplyWhile (pred : BlockIndex A → Bool) (dest : Hash) (n : Nat) (h : Hash) :
    Stays P (sm.unapplyWhile pred dest n h) := by
  induction n generalizing h with
  | zero => exact Stays.throw
  | succ n ih =>
    refine .ite (.pure _) (.bind (hsm.deref h) (fun index => .bind getEd (fun _ => .bind Stays.check (fun _ =>
      .ite (.pure _) ?_))))
    exact .bind (hsm.unapplyBlock h) (fun _ => .bind Stays.getOrStop (fun p => ih p))

theorem unapply (start dest : Hash) : Stays P (sm.unapply start dest) :=
  .bind getEd (fun _ => .bind (hsm.unapplyWhile _ dest _ start) (fun _ => Stays.check))

theorem apply (start dest : Hash) : Stays P (sm.apply start dest) := by
  refine .ite (.pure _) (.bind (hsm.deref dest) (fun _ => .ite (.pure _) (.bind getEd (fun _ =>
    .bind Stays.getOrStop (fun _ => .bind Stays.check (fun _ => ?_))))))
  exact .execAll hsm.applyBlock hsm.unapplyBlock _

theorem setState (start dest : Hash) : Stays P (sm.setState start dest) := by
  refine .ite (.pure _) (.bind getEd (fun _ => .bind Stays.getOrStop (fun fork => .bind (hsm.unapply start fork) (fun _ =>
    .bind (hsm.apply fork dest) (fun _ => .ite (.pure _) ?_)))))
  exact .bind (hsm.apply fork start) (fun _ => .bind Stays.check (fun _ => .pure _))

theorem withGuard {m : M σ α} (hm : Stays P m) : Stays P (sm.withGuard m) :=
  .bind (hsm.zoom_ing hsm.protecting.deferForkResolution) (fun _ => .bind hm (fun _ =>
    .bind (hsm.zoom_ing hsm.protecting.continueForkResolution) (fun _ => .pure _)))

theorem revertTo (h : Hash) : Stays P (sm.revertTo h) :=
  hsm.zoom_ing (hsm.protecting.overrideDeferredForkResolution h)

theorem revertUnless (success : Bool) (h : Hash) : Stays P (sm.revertUnless success h) :=
  .bind (.when (hsm.revertTo h)) (fun _ => .pure _)

theorem comparatorSetState (dest : Hash) : Stays P (sm.comparatorSetState dest) :=
  .bind getEd (fun _ => .bind Stays.check (fun _ => .ite (.pure _) (hsm.withGuard (.bind getIng (fun _ =>
    .bind (hsm.setState _ dest) (fun _ => hsm.revertUnless _ _))))))

theorem keepChainA (fork candidate originalTip : Hash) : Stays P (sm.keepChainA fork candidate originalTip) :=
  hsm.withGuard (.bind (hsm.unapply candidate fork) (fun _ => hsm.revertTo originalTip))

theorem switchToChainB (fork bestTip candidate originalTip : Hash) :
    Stays P (sm.switchToChainB fork bestTip candidate originalTip) := by
  refine hsm.withGuard (.bind getEd (fun _ => .bind (hsm.unapplyWhile _ fork _ candidate) (fun validFrom =>
    .bind (hsm.unapply bestTip fork) (fun _ => .bind (hsm.apply validFrom candidate) (fun _ => .ite (.pure _) ?_)))))
  exact .bind (hsm.unapply validFrom fork) (fun _ => .bind (hsm.apply fork bestTip) (fun _ => .bind Stays.check (fun _ =>
    .bind (hsm.revertTo originalTip) (fun _ => .pure _))))

omit [BlockAddon A] [PopAddon A] [StoredAddon A S] [BlockAddon B] [StoredAddon B T] hsm in
theorem liftExcept (x : Except Assertion Int) : Stays P (compareForks.liftExcept x) := by
  cases x with
  | ok r => exact .pure r
  | error e => exact Stays.throw

theorem compareForks (p : PopParams) (fork bestTip candidate : Hash) :
    Stays P (sm.compareForks p fork bestTip candidate) := by
  refine .bind getIng (fun _ => .bind (hsm.withGuard (.bind (hsm.apply fork candidate) (fun _ =>
    hsm.revertUnless _ _))) (fun _ => .ite (.pure _) (.bind getEd (fun ed => .bind getIng (fun ing =>
    .bind (liftExcept _) (fun _ => .ite ?_ ?_))))))
  . exact .bind (hsm.keepChainA _ _ _) (fun _ => .pure _)
  . exact .bind (hsm.switchToChainB _ _ _ _) (fun _ => .ite (.pure _) (.pure _))

theorem comparePopScore (p : PopParams) (candidate : Hash) : Stays P (sm.comparePopScore p candidate) := by
  refine .bind (hsm.deref _) (fun _ => .bind getEd (fun _ => .bind (hsm.deref _) (fun _ => .ite (.pure _) (.ite ?_ ?_))))
  . exact .bind getIng (fun _ => .bind (hsm.withGuard (.bind (hsm.apply _ _) (fun _ => hsm.revertUnless _ _))) (fun _ =>
      .pure _))
  . exact .bind Stays.getOrStop (fun fork => .ite (.pure _) (.ite (.pure _) (hsm.compareForks p fork _ candidate)))

end Obeys

end PopStateMachine

variable {D : Permit} {cfg : Config}

section Btc

def btcRules : TreeRules BtcAddon where
  onBeforeLeafRemoved _ t := t
  payloadIds := BtcAddon.indexedIds
  refs := (·.refs)
  payloads _ _ := False
  drafts _ _ := False

theorem btcRules_pow : btcRules.PoW where
  onBeforeLeafRemoved _ := ⟨fun index => index, fun log => log, fun _ => rfl⟩
  payloads _ _ h := (h.elim id id).elim
  keys _ _ h := (h.elim id id).elim
  setChainWork_ids _ _ := rfl
  setChainWork_refs _ _ := rfl
  setChainWork_stored _ _ := rfl
  addRef_ids _ _ := rfl
  removeRef_ids _ _ _ _ := rfl
  setBlockOfProofEndorsements_ids _ _ := rfl
  setBlockOfProofEndorsements_refs _ _ := rfl

abbrev BtcChanges (D : Permit) : Tree BtcAddon → Tree BtcAddon → Prop := Tree.Changes D btcRules

theorem btcClass_obeys : (btcClass cfg).Obeys D btcRules (BtcChanges D) := by
  have hset : ∀ h, Stays (BtcChanges D) ((btcClass cfg).setState h) :=
    fun h => .bind (Changing.change (fun _ => .fields rfl rfl rfl rfl rfl (.inr rfl))) (fun _ => .pure _)
  exact
    { refl := fun _ => .refl
      trans := fun _ _ _ h h' => h.trans h'
      lift := fun _ _ h => h
      setState := hset
      determineBestChain := Lifts.determineBestChainByWork hset
      onBeforeLeafRemoved := rfl }

end Btc

section Vbk

namespace VbkBlockTree

/-- A VTB is added to a block, if that has room, or removed from it. -/
inductive PayloadsChange (t : Tree VbkAddon) : Tree VbkAddon → Prop where
  | insert {h : Hash} {b : BlockIndex VbkAddon} (pid : Nat) (hb : t.find? h = some b) (hd : b.status.deleted = false)
      (hroom : b.addon.vtbids.length < maxVbkPopTxPerVbkBlock) : PayloadsChange t (insertPayloadId h pid t)
  | remove (h : Hash) (pid : Nat) : PayloadsChange t (removePayloadId h pid t)

end VbkBlockTree

def vbkRules : TreeRules VbkAddon where
  onBeforeLeafRemoved := VbkBlockTree.onBeforeLeafRemoved
  payloadIds := VbkAddon.indexedIds
  refs a := List.replicate a.refCount 0
  payloads := VbkBlockTree.PayloadsChange
  drafts _ _ := False

theorem addToPayloadsIndex_blocks (t : Tree A) (id : PayloadId) (h : Hash) :
    (t.addToPayloadsIndex id h).blocks = t.blocks := by
  unfold Tree.addToPayloadsIndex
  split
  . rfl
  . rfl

theorem removeFromPayloadsIndex_blocks (t : Tree A) (id : PayloadId) (h : Hash) :
    (t.removeFromPayloadsIndex id h).blocks = t.blocks := rfl

theorem vbkRules_pow : vbkRules.PoW where
  onBeforeLeafRemoved b := ⟨fun index => index, _, fun _ => rfl⟩
  payloads t t' h := by
    cases h.resolve_right id with
    | insert pid _ _ _ =>
      unfold VbkBlockTree.insertPayloadId Tree.updateAddon
      exact (Tree.Tracks.update (fun _ _ => .inl rfl)).trans (.of_blocks_eq (addToPayloadsIndex_blocks _ _ _))
    | remove x pid =>
      have hupdate : t.Tracks (t.updateAddon x (fun a => { a with vtbids := a.vtbids.erase pid })) :=
        .update (fun _ _ => .inl rfl)
      exact hupdate.trans (.of_blocks_eq rfl)
  keys t t' h := by
    cases h.resolve_right id with
    | insert pid _ _ _ =>
      unfold VbkBlockTree.insertPayloadId Tree.updateAddon
      rw [addToPayloadsIndex_blocks]
      exact Store.keys_modify _ _ _
    | remove h pid => exact Store.keys_modify _ _ _
  setChainWork_ids _ _ := rfl
  setChainWork_refs _ _ := rfl
  setChainWork_stored _ _ := rfl
  addRef_ids _ _ := rfl
  removeRef_ids n a a' h := by
    simp only [PowAddon.removeRef] at h
    split at h
    . cases h
      rfl
    . cases h
  setBlockOfProofEndorsements_ids _ _ := rfl
  setBlockOfProofEndorsements_refs _ _ := rfl

theorem vbkRules_pop : vbkRules.Pop where
  setPopState_ids _ _ := rfl
  setPopState_refs _ _ := rfl
  payloadIds_ne_nil a ha hids := by
    rw [show vbkRules.payloadIds a = a.vtbids.map .vtb from rfl, List.map_eq_nil_iff] at hids
    simp [PopAddon.hasPayloads, hids] at ha

/-- Both trees have changed by elementary changes. -/
structure VbkState.Changes (D : Permit) (s s' : VbkState) : Prop where
  vbk : Tree.Changes D vbkRules s.vbk s'.vbk
  btc : BtcChanges D.protecting s.btc s'.btc

theorem VbkState.lifts_vbk : Lifts D vbkRules (VbkState.Changes D) VbkState.vbkTree where
  refl _ := ⟨.refl, .refl⟩
  trans _ _ _ h h' := ⟨h.vbk.trans h'.vbk, h.btc.trans h'.btc⟩
  lift _ _ h := ⟨h, .refl⟩

theorem VbkState.lifts_btc : Lifts D.protecting btcRules (VbkState.Changes D) VbkState.btcTree where
  refl _ := ⟨.refl, .refl⟩
  trans _ _ _ h h' := ⟨h.vbk.trans h'.vbk, h.btc.trans h'.btc⟩
  lift _ _ h := ⟨.refl, h⟩

namespace VbkBlockTree

theorem zoom_btc_changes {m : M (Tree BtcAddon) α} (hm : Stays (BtcChanges D.protecting) m) :
    Stays (VbkState.Changes D) (zoom VbkState.btcTree m) := VbkState.lifts_btc.zoom hm

theorem stateMachine_obeys : (stateMachine cfg).Obeys D vbkRules btcRules (VbkState.Changes D) (BtcChanges D.protecting) where
  ed := VbkState.lifts_vbk
  pop := vbkRules_pop
  ing s x h := VbkState.lifts_btc.lift s x h
  protecting := btcClass_obeys
  getCommands index := .bind .get (fun _ => .bind Stays.getOrStop (fun _ => .pure _))
  execute cmd := by
    cases cmd with
    | addBtcBlock b n =>
      exact PopStateMachine.Quiet.zoom (fun _ _ => rfl) (zoom_btc_changes (btcClass_obeys.addBlock_execute btcRules_pow trivial trivial b n))
    | addEndorsement e =>
      exact PopStateMachine.Quiet.intro
        (addEndorsement_execute_stays VbkState.lifts_vbk VbkState.lifts_btc vbkRules_pop btcRules_pow _ e)
        (addEndorsement_execute_quiet vbkRules_pop (fun _ _ => rfl) _ e)
  unExecute cmd := by
    cases cmd with
    | addBtcBlock b n =>
      exact PopStateMachine.Quiet.zoom (fun _ _ => rfl) (zoom_btc_changes (btcClass_obeys.addBlock_unExecute btcRules_pow trivial b n))
    | addEndorsement e =>
      exact PopStateMachine.Quiet.intro
        (addEndorsement_unExecute_stays VbkState.lifts_vbk VbkState.lifts_btc vbkRules_pop btcRules_pow e)
        (addEndorsement_unExecute_quiet vbkRules_pop (fun _ _ => rfl) e)

theorem overrideTip_stays (h : Hash) : Stays (VbkState.Changes D) (overrideTip h) :=
  .bind (VbkState.lifts_vbk.fields (fun _ => rfl) (fun _ => rfl) (fun _ => rfl) (fun _ => rfl) (fun _ => rfl) (fun _ => rfl)) (fun _ =>
    .bind (VbkState.lifts_vbk.zoom (Changing.derefBlock h)) (fun _ => Stays.check))

theorem settle_stays (h : Hash) (success : Bool) : Stays (VbkState.Changes D) (settle h success) :=
  .ite (overrideTip_stays h) (.bind (VbkState.lifts_vbk.zoom (Changing.derefBlock h)) (fun _ => Stays.check))

theorem setState_stays (h : Hash) : Stays (VbkState.Changes D) (setState cfg h) :=
  .bind (stateMachine_obeys.comparatorSetState h) (fun _ => .bind (settle_stays h _) (fun _ => .bind .get (fun _ =>
    .bind Stays.check (fun _ => .pure _))))

theorem determineBestChain_stays (h : Hash) : Stays (VbkState.Changes D) (determineBestChain cfg h) :=
  .bind .get (fun _ => .ite (.pure _) (.bind (stateMachine_obeys.comparePopScore _ h) (fun _ =>
    .ite (Lifts.determineBestChainByWork setState_stays h) (.when (overrideTip_stays h)))))

end VbkBlockTree

theorem vbkClass_obeys : (vbkClass cfg).Obeys D vbkRules (VbkState.Changes D) where
  toLifts := VbkState.lifts_vbk
  setState := VbkBlockTree.setState_stays
  determineBestChain := VbkBlockTree.determineBestChain_stays
  onBeforeLeafRemoved := rfl

namespace VbkBlockTree

/-- When the block `h` is there, it stays, and the trees change by elementary changes. -/
def Spares (D : Permit) (h : Hash) (s s' : VbkState) : Prop :=
  s.vbk.Present h → VbkState.Changes D s s' ∧ s'.vbk.Present h

theorem Spares.refl {h : Hash} (s : VbkState) : Spares D h s s := fun hp => ⟨VbkState.lifts_vbk.refl s, hp⟩

theorem Spares.trans {h : Hash} {s s' s'' : VbkState} (hs : Spares D h s s') (hs' : Spares D h s' s'') :
    Spares D h s s'' := by
  intro hp
  obtain ⟨h1, hp1⟩ := hs hp
  obtain ⟨h2, hp2⟩ := hs' hp1
  exact ⟨VbkState.lifts_vbk.trans s s' s'' h1 h2, hp2⟩

/-- A program that creates and deletes no VBK block. -/
theorem Spares.of_still {h : Hash} {α : Type} {m : M VbkState α}
    (hm : Stays (VbkState.Changes { D with bodies := False }) m) : Stays (Spares D h) m := by
  refine Stays.of_wlp (fun _ _ _ => .trans) (fun s => wlp_mono (hm.wlp VbkState.lifts_vbk.refl s) (fun _ s' hs' hp => ?_))
  have hle : Permit.Le { D with bodies := False } D := ⟨fun h => h, False.elim, fun h => h, fun h => h⟩
  exact ⟨⟨hs'.vbk.mono hle, hs'.btc⟩, hs'.vbk.present (fun h => h) hp⟩

theorem present_insertPayloadId {h : Hash} {pid : Nat} {t : Tree VbkAddon} (hp : t.Present h) :
    (insertPayloadId h pid t).Present h := by
  obtain ⟨b, hb, hd⟩ := hp
  refine ⟨b.setAddon { b.addon with vtbids := b.addon.vtbids ++ [pid] }, ?_, hd⟩
  unfold insertPayloadId Tree.find?
  rw [addToPayloadsIndex_blocks]
  show (t.update h _).find? h = _
  rw [Tree.find?_update_self, hb]
  rfl

theorem present_removePayloadId {h : Hash} {pid : Nat} {t : Tree VbkAddon} (hp : t.Present h) :
    (removePayloadId h pid t).Present h := by
  obtain ⟨b, hb, hd⟩ := hp
  refine ⟨b.setAddon { b.addon with vtbids := b.addon.vtbids.erase pid }, ?_, hd⟩
  show (t.update h _).find? h = _
  rw [Tree.find?_update_self, hb]
  rfl

section

variable (hD : D.bodies)

include hD

theorem removePayloadId_spares (h : Hash) (pid : Nat) :
    Stays (Spares D h) (zoom VbkState.vbkTree (modify (removePayloadId h pid))) := by
  refine Stays.of_wlp (fun _ _ _ => .trans) (fun s => ?_)
  rw [wlp_zoom, wlp_modify]
  intro hp
  exact ⟨VbkState.lifts_vbk.lift s _ (.single (.payloads hD (.remove h pid))), present_removePayloadId hp⟩

theorem removePayloadId_stays (h : Hash) (pid : Nat) :
    Stays (VbkState.Changes D) (zoom VbkState.vbkTree (modify (removePayloadId h pid))) :=
  VbkState.lifts_vbk.zoom (.change (fun _ => .payloads hD (.remove h pid)))

omit hD in
theorem getCommand_stays (pid : Nat) : Stays (VbkState.Changes D) (getCommand pid) :=
  .bind .get (fun _ => .bind Stays.getOrStop (fun _ => .pure _))

theorem unsafelyRemovePayload_stays (h : Hash) (pid : Nat) (f : Bool) :
    Stays (VbkState.Changes D) (unsafelyRemovePayload cfg h pid f) :=
  .bind .get (fun _ => .bind Stays.getOrStop (fun _ => .bind Stays.check (fun _ => .bind Stays.check (fun _ =>
    .bind (.when (.bind (getCommand_stays pid) (fun _ =>
      stateMachine_obeys.of_quiet (stateMachine_obeys.unExecuteGroup _)))) (fun _ =>
    .bind (removePayloadId_stays hD h pid) (fun _ => .when vbkClass_obeys.updateTips))))))

theorem unsafelyRemovePayload_spares (h : Hash) (pid : Nat) :
    Stays (Spares D h) (unsafelyRemovePayload cfg h pid false) :=
  .bind .get (fun _ => .bind Stays.getOrStop (fun _ => .bind Stays.check (fun _ => .bind Stays.check (fun _ =>
    .bind (.when (Spares.of_still (.bind (getCommand_stays pid) (fun _ =>
      stateMachine_obeys.of_quiet (stateMachine_obeys.unExecuteGroup _))))) (fun _ =>
    .bind (removePayloadId_spares hD h pid) (fun _ => .pure _))))))

theorem removePayloads_stays (h : Hash) (pids : List Nat) :
    Stays (VbkState.Changes D) (removePayloads cfg h pids) := by
  refine .bind .get (fun _ => .bind Stays.getOrStop (fun _ => .bind Stays.getOrStop (fun prev => .when
    (.bind (.when (vbkClass_obeys.setStateOrStop prev)) (fun _ => .bind (.forEach (fun pid => ?_) _) (fun _ =>
    vbkClass_obeys.updateTips))))))
  exact .bind (VbkState.lifts_vbk.zoom (Changing.derefBlock h)) (fun _ => .bind Stays.check (fun _ =>
    .bind Stays.check (fun _ => removePayloadId_stays hD h pid)))

theorem addPayloadToAppliedBlock_spares (h : Hash) (v : VTB) :
    Stays (Spares D h) (addPayloadToAppliedBlock cfg h v) := by
  refine Stays.of_wlp (fun _ _ _ => .trans) (fun s => ?_)
  simp only [addPayloadToAppliedBlock, wlp_bind, wlp_zoom_derefBlock, wlp_check, wlp_get, wlp_ite]
  intro index hindex _
  simp only [wlp_when, wlp_zoom, wlp_modify, wlp_pure]
  refine ⟨fun _ hp => ⟨VbkState.lifts_vbk.lift _ _ (.single (.fields rfl rfl rfl rfl rfl (.inl hD))), hp⟩, fun hroom => ⟨fun _ =>
    .refl s, fun _ => ?_⟩⟩
  have hinsert : ∀ s1 : VbkState, VbkState.Changes D s s1 → s1.vbk.find? h = s.vbk.find? h →
      Spares D h s { s1 with vbk := insertPayloadId h v.getId s1.vbk } := by
    rintro s1 h1 hfind ⟨b, hb, hd⟩
    have hb1 : s1.vbk.find? h = some b := hfind.trans hb
    have hsame : index = b := Option.some.inj (hindex.symm.trans hb)
    rw [hsame] at hroom
    exact ⟨VbkState.lifts_vbk.trans s s1 _ h1 (VbkState.lifts_vbk.lift s1 _ (.single (.payloads hD
      (.insert v.getId hb1 hd (Nat.lt_of_not_le hroom))))), present_insertPayloadId ⟨b, hb1, hd⟩⟩
  have hrest : ∀ s1, Spares D h s s1 → wlp (do
      let cmds ← getCommand v.getId
      if ← (stateMachine cfg).executeGroup cmds then
        pure true
      else do
        zoom VbkState.vbkTree (modify (removePayloadId h v.getId))
        pure false) (fun _ => Spares D h s) s1 := by
    intro s1 h1
    refine (?_ : Stays (Spares D h) _) s s1 h1
    exact .bind (Spares.of_still (getCommand_stays _)) (fun _ => .bind (Spares.of_still (stateMachine_obeys.of_quiet
      (stateMachine_obeys.executeGroup _))) (fun _ => .ite (.pure _) (.bind (removePayloadId_spares hD h _) (fun _ =>
      .pure _))))
  simp only [wlp_bind, wlp_zoom, wlp_modify, wlp_ite, wlp_pure] at hrest
  refine ⟨fun _ => ?_, fun _ => ?_⟩
  . exact hrest _ (hinsert { s with vbk := s.vbk.record (.duplicatePayload h v.getId) }
      (VbkState.lifts_vbk.lift _ _ (.single (.fields rfl rfl rfl rfl rfl (.inl hD)))) rfl)
  . exact hrest _ (hinsert s (VbkState.lifts_vbk.refl s) rfl)

theorem addPayloads_stays (h : Hash) (payloads : List VTB) :
    Stays (VbkState.Changes D) (addPayloads cfg h payloads) := by
  refine Stays.of_wlp VbkState.lifts_vbk.trans (fun s => ?_)
  simp only [addPayloads, wlp_bind, wlp_get, wlp_ite, wlp_pure]
  refine ⟨fun _ => VbkState.lifts_vbk.refl s, fun _ => ?_⟩
  split
  . exact VbkState.lifts_vbk.refl s
  . next index hindex =>
    have hpresent : s.vbk.Present h := ⟨index, Tree.getBlockIndex_eq_some.mp hindex⟩
    have hset : ∀ x, Stays (Spares D h) (setState cfg x) := fun x => Spares.of_still (setState_stays x)
    have hadd : Stays (Spares D h) (addPayloadsToAppliedBlock cfg h payloads) :=
      .execAll (addPayloadToAppliedBlock_spares hD h) (fun v => unsafelyRemovePayload_spares hD h v.getId) payloads
    have hall : Stays (Spares D h) (do
        if !index.isValid then
          pure false
        else do
          let tip := s.vbk.activeTip
          let isOnActiveChain := s.vbk.onActiveChain h
          if ← addPayloads.applyContaining cfg h isOnActiveChain then do
            if ← addPayloadsToAppliedBlock cfg h payloads then do
              doUpdateAffectedTips (vbkClass cfg) h
              when (!isOnActiveChain) (doUpdateAffectedTips (vbkClass cfg) tip)
              pure true
            else do
              when (!isOnActiveChain) (addPayloads.restoreTip cfg tip)
              pure false
          else
            pure false) := by
      refine .ite (.pure _) (.bind (.ite (.pure _) (hset h)) (fun _ => .ite (.bind hadd (fun _ => .ite ?_ ?_)) (.pure _)))
      . exact .bind (Spares.of_still (vbkClass_obeys.doUpdateAffectedTips h)) (fun _ =>
          .bind (.when (Spares.of_still (vbkClass_obeys.doUpdateAffectedTips _))) (fun _ => .pure _))
      . exact .bind (.when (.bind (hset _) (fun _ => Stays.check))) (fun _ => .pure _)
    exact wlp_mono (hall.wlp .refl s) (fun _ s' hs' => (hs' hpresent).1)

end

end VbkBlockTree

end Vbk

section Alt

namespace AltBlockTree

/-- The payloads of a block are set or cleared. -/
inductive PayloadsChange (t : Tree AltAddon) : Tree AltAddon → Prop where
  | commit {h : Hash} {b : BlockIndex AltAddon} (p : PopData) (hb : t.find? h = some b) (hd : b.status.deleted = false)
      (hp : b.status.hasPayloads = false) (ha : b.status.active = false) (hr : b.pprev ≠ none) :
      PayloadsChange t ((commitPayloadsIds h p t).update h (fun b => b.setFlag .hasPayloads))
  | clear {h : Hash} {b : BlockIndex AltAddon} (hb : t.find? h = some b) (ha : b.status.active = false) :
      PayloadsChange t (clearSideEffects h t)

/-- A payload is added to the temporary block or removed from it. -/
inductive DraftsChange (t : Tree AltAddon) : Tree AltAddon → Prop where
  | insert (id : PayloadId) : DraftsChange t (BlockPayloadMutator.insertId MemPoolBlockTree.tmpHash id t)
  | remove (id : PayloadId) : DraftsChange t (BlockPayloadMutator.removeId MemPoolBlockTree.tmpHash id t)

end AltBlockTree

def altRules : TreeRules AltAddon where
  onBeforeLeafRemoved := AltBlockTree.onBeforeLeafRemoved
  payloadIds := AltAddon.payloadIds
  refs _ := []
  payloads := AltBlockTree.PayloadsChange
  drafts := AltBlockTree.DraftsChange

theorem foldl_addToPayloadsIndex_blocks (ids : List PayloadId) (h : Hash) (t : Tree A) :
    (ids.foldl (fun t id => t.addToPayloadsIndex id h) t).blocks = t.blocks := by
  induction ids generalizing t with
  | nil => rfl
  | cons id ids ih =>
    rw [List.foldl_cons, ih, addToPayloadsIndex_blocks]

theorem AltBlockTree.onlyPayloadsIndex : Tree.OnlyPayloadsIndex AltBlockTree.onBeforeLeafRemoved := by
  intro b
  unfold AltBlockTree.onBeforeLeafRemoved
  generalize b.addon.payloadIds = ids
  induction ids with
  | nil => exact ⟨fun index => index, fun log => log, fun _ => rfl⟩
  | cons id ids ih =>
    obtain ⟨f, g, hf⟩ := ih
    refine ⟨fun index => f (index.filter (· ≠ (id, b.header.hash))), g, fun t => ?_⟩
    rw [List.foldl_cons, hf]
    rfl

theorem AltBlockTree.clearSideEffects_tracks (h : Hash) (t : Tree AltAddon) : t.Tracks (clearSideEffects h t) := by
  unfold clearSideEffects
  split
  . exact .refl t
  . next b _ =>
    split
    . obtain ⟨f, g, hf⟩ := AltBlockTree.onlyPayloadsIndex b
      have hblocks : (onBeforeLeafRemoved b t).blocks = t.blocks := by rw [hf]
      exact (Tree.Tracks.of_blocks_eq hblocks).trans (.update (fun _ _ => .inl rfl))
    . exact .refl t

theorem AltBlockTree.clearSideEffects_keys (h : Hash) (t : Tree AltAddon) :
    (clearSideEffects h t).blocks.keys = t.blocks.keys := by
  unfold clearSideEffects
  split
  . rfl
  . next b _ =>
    split
    . obtain ⟨f, g, hf⟩ := AltBlockTree.onlyPayloadsIndex b
      rw [show (Tree.update _ _ _).blocks.keys = _ from Store.keys_modify _ _ _, hf]
    . rfl

theorem altRules_lawful : altRules.Lawful where
  onBeforeLeafRemoved := AltBlockTree.onlyPayloadsIndex
  payloads t t' h := by
    cases h with
    | inl h =>
      cases h with
      | commit p _ _ _ _ _ =>
        unfold AltBlockTree.commitPayloadsIds
        refine .trans ?_ (.update (fun b _ => setStatus_tracks b _))
        exact (Tree.Tracks.update (fun _ _ => .inl rfl)).trans (.of_blocks_eq (foldl_addToPayloadsIndex_blocks _ _ _))
      | clear _ _ => exact AltBlockTree.clearSideEffects_tracks _ t
    | inr h =>
      cases h with
      | insert id =>
        unfold BlockPayloadMutator.insertId
        exact (Tree.Tracks.update (fun _ _ => .inl rfl)).trans (.of_blocks_eq (addToPayloadsIndex_blocks _ _ _))
      | remove id =>
        unfold BlockPayloadMutator.removeId
        exact (Tree.Tracks.update (fun _ _ => .inl rfl)).trans (.of_blocks_eq (removeFromPayloadsIndex_blocks _ _ _))
  keys t t' h := by
    cases h with
    | inl h =>
      cases h with
      | commit p _ _ _ _ _ =>
        unfold AltBlockTree.commitPayloadsIds
        rw [show (Tree.update _ _ _).blocks.keys = _ from Store.keys_modify _ _ _, foldl_addToPayloadsIndex_blocks]
        exact Store.keys_modify _ _ _
      | clear _ _ => exact AltBlockTree.clearSideEffects_keys _ t
    | inr h =>
      cases h with
      | insert id =>
        unfold BlockPayloadMutator.insertId
        rw [addToPayloadsIndex_blocks]
        exact Store.keys_modify _ _ _
      | remove id => exact Store.keys_modify _ _ _

theorem altRules_pop : altRules.Pop where
  setPopState_ids _ _ := rfl
  setPopState_refs _ _ := rfl
  payloadIds_ne_nil a ha hids := by
    rw [show altRules.payloadIds a = a.vbkblockids.map .vbk ++ a.vtbids.map .vtb ++ a.atvids.map .atv from rfl] at hids
    simp only [List.append_eq_nil_iff, List.map_eq_nil_iff] at hids
    simp [PopAddon.hasPayloads, hids] at ha

/-- The three trees have changed by elementary changes. -/
structure AltState.Changes (D : Permit) (s s' : AltState) : Prop where
  alt : Tree.Changes D altRules s.alt s'.alt
  sp : VbkState.Changes D.protecting s.sp s'.sp

theorem AltState.lifts_alt : Lifts D altRules (AltState.Changes D) AltState.altTree where
  refl _ := ⟨.refl, VbkState.lifts_vbk.refl _⟩
  trans _ _ _ h h' := ⟨h.alt.trans h'.alt, VbkState.lifts_vbk.trans _ _ _ h.sp h'.sp⟩
  lift _ _ h := ⟨h, VbkState.lifts_vbk.refl _⟩

theorem AltState.lifts_vbk : Lifts D.protecting vbkRules (AltState.Changes D) AltCommand.vbkTree where
  refl := AltState.lifts_alt.refl
  trans := AltState.lifts_alt.trans
  lift _ _ h := ⟨.refl, h, .refl⟩

theorem AltState.zoom_sp {m : M VbkState α} (hm : Stays (VbkState.Changes D.protecting) m) :
    Stays (AltState.Changes D) (zoom AltState.spState m) := by
  refine Stays.of_wlp AltState.lifts_alt.trans (fun s => ?_)
  rw [wlp_zoom]
  exact wlp_mono (hm.wlp VbkState.lifts_vbk.refl _) (fun _ _ h => ⟨.refl, h⟩)

namespace AltBlockTree

theorem stateMachine_obeys :
    (stateMachine cfg).Obeys D altRules vbkRules (AltState.Changes D) (VbkState.Changes D.protecting) where
  ed := AltState.lifts_alt
  pop := altRules_pop
  ing _ _ h := ⟨.refl, h⟩
  protecting := vbkClass_obeys
  getCommands index := .bind .get (fun _ => .bind Stays.getOrStop (fun _ => .bind Stays.getOrStop (fun _ =>
    .bind Stays.getOrStop (fun _ => .pure _))))
  execute cmd := by
    cases cmd with
    | addVbkBlock b =>
      exact PopStateMachine.Quiet.zoom (fun _ _ => rfl)
        (AltState.zoom_sp (vbkClass_obeys.addBlock_execute vbkRules_pow trivial trivial b 0))
    | addVTB v =>
      exact PopStateMachine.Quiet.zoom (fun _ _ => rfl) (AltState.zoom_sp (VbkBlockTree.addPayloads_stays trivial _ _))
    | checkPublicationData c h => exact .bind .get (fun _ => .pure _)
    | addEndorsement e =>
      exact PopStateMachine.Quiet.intro
        (addEndorsement_execute_stays AltState.lifts_alt AltState.lifts_vbk altRules_pop vbkRules_pow _ e)
        (addEndorsement_execute_quiet altRules_pop (fun _ _ => rfl) _ e)
  unExecute cmd := by
    cases cmd with
    | addVbkBlock b =>
      exact PopStateMachine.Quiet.zoom (fun _ _ => rfl)
        (AltState.zoom_sp (vbkClass_obeys.addBlock_unExecute vbkRules_pow trivial b 0))
    | addVTB v =>
      exact PopStateMachine.Quiet.zoom (fun _ _ => rfl)
        (AltState.zoom_sp (VbkBlockTree.unsafelyRemovePayload_stays trivial _ _ _))
    | checkPublicationData c h => exact .pure _
    | addEndorsement e =>
      exact PopStateMachine.Quiet.intro
        (addEndorsement_unExecute_stays AltState.lifts_alt AltState.lifts_vbk altRules_pop vbkRules_pow e)
        (addEndorsement_unExecute_quiet altRules_pop (fun _ _ => rfl) e)

theorem overrideTip_stays (h : Hash) : Stays (AltState.Changes D) (overrideTip h) :=
  .bind (AltState.lifts_alt.zoom (Changing.derefBlock h)) (fun _ => .bind Stays.check (fun _ =>
    AltState.lifts_alt.fields (fun _ => rfl) (fun _ => rfl) (fun _ => rfl) (fun _ => rfl) (fun _ => rfl) (fun _ => rfl)))

theorem setState_stays (h : Hash) : Stays (AltState.Changes D) (setState cfg h) := by
  refine .bind (AltState.lifts_alt.zoom (Changing.derefBlock h)) (fun _ => .bind Stays.check (fun _ =>
    .bind (stateMachine_obeys.comparatorSetState h) (fun _ => .bind (.ite (overrideTip_stays h) ?_) (fun _ =>
    .bind .get (fun _ => .bind Stays.check (fun _ => .pure _))))))
  exact .bind (AltState.lifts_alt.zoom (Changing.derefBlock h)) (fun _ => Stays.check)

end AltBlockTree

theorem altClass_obeys : (altClass cfg).Obeys D altRules (AltState.Changes D) where
  toLifts := AltState.lifts_alt
  setState := AltBlockTree.setState_stays
  determineBestChain _ := .pure _
  onBeforeLeafRemoved := rfl

end Alt

end AltIntegration
