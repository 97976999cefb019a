import AltIntegration.System.References
import AltIntegration.Blockchain.Pop.ForkResolution

/-!
This module contains what the functions of a proof-of-work tree, of the state machine and of its commands keep, given
that their parts keep it. What is kept may speak of the places of the blocks, of which are deleted, of which are
active, of their work, of a part of their data, and of the tip.
-/

namespace AltIntegration

open Program BlockIndex

variable {σ τ A B C γ α ι ρ : Type}

/-- Whatever `i` is, the program keeps `I i`. -/
abbrev Keeping (I : ι → σ → Prop) (m : M σ α) : Prop := Keeps I (fun _ _ => True) m

namespace Keeping

variable {I : ι → σ → Prop}

theorem check {p : Bool} {e : Assertion} : Keeping I (check p e) := Keeps.check (fun _ _ _ => trivial)

theorem getOrStop {o : Option α} {e : Assertion} : Keeping I (getOrStop o e) := Keeps.getOrStop (fun _ _ _ => trivial)

theorem throw {e : Assertion} : Keeping I (throw e : M σ α) := Keeps.throw (fun _ _ _ => trivial)

theorem of_wlp {m : M σ α} (hm : ∀ i s, I i s → wlp m (fun _ => I i) s) : Keeping I m := hm

theorem wlp {m : M σ α} (hm : Keeping I m) {i : ι} {s : σ} (hs : I i s) : wlp m (fun _ => I i) s := hm i s hs

theorem derefBlock {l : Lens σ (Tree A)} (h : Hash) : Keeping I (Program.zoom l (AltIntegration.derefBlock h)) := by
  intro i s hs
  show Program.wlp _ _ _
  rw [wlp_zoom_derefBlock]
  exact fun _ _ => hs

theorem getTree {c : TreeClass σ A} : Keeping I c.getTree := .bind .get (fun _ => .pure _)

end Keeping

abbrev Upholding (I : σ → Prop) (m : M σ α) : Prop := Keeping (fun _ : Unit => I) m

namespace Upholding

variable {I : σ → Prop}

theorem check {p : Bool} {e : Assertion} : Upholding I (check p e) := Keeping.check

theorem getOrStop {o : Option α} {e : Assertion} : Upholding I (getOrStop o e) := Keeping.getOrStop

theorem of_wlp {m : M σ α} (hm : ∀ s, I s → wlp m (fun _ => I) s) : Upholding I m := fun _ s hs => hm s hs

theorem wlp {m : M σ α} (hm : Upholding I m) {s : σ} (hs : I s) : wlp m (fun _ => I) s := hm () s hs

theorem and {I' : σ → Prop} {m : M σ α} (hm : Upholding I m) (hm' : ∀ s, I s → I' s → Program.wlp m (fun _ => I') s) :
    Upholding (fun s => I s ∧ I' s) m :=
  of_wlp (fun s hs => wlp_and (hm.wlp hs.1) (hm' s hs.1 hs.2))

theorem zoom {K : τ → Prop} {l : Lens σ τ} {m : M τ α} (hm : Upholding K m) (hget : ∀ s, I s → K (l.get s))
    (hset : ∀ s x, I s → K x → I (l.set x s)) : Upholding I (zoom l m) := by
  apply of_wlp
  intro s hs
  rw [wlp_zoom]
  exact wlp_mono (hm.wlp (hget s hs)) (fun _ x hx => hset s x hs hx)

theorem derefBlock {l : Lens σ (Tree A)} (h : Hash) : Upholding I (Program.zoom l (AltIntegration.derefBlock h)) :=
  Keeping.derefBlock h

theorem getTree {c : TreeClass σ A} : Upholding I c.getTree := Keeping.getTree

end Upholding

section Trees

variable [PowAddon A] {kept : A → ρ}

/-- Nothing has changed that an invariant may speak of. -/
structure Tree.Alike (kept : A → ρ) (t t' : Tree A) : Prop where
  same : t.SameOn (fun b => ((b.labour, kept b.addon), b.status.active)) t'
  activeTip : t'.activeTip = t.activeTip

namespace Tree.Alike

variable {t t' : Tree A} {h : Hash}

theorem of_blocks_eq (hblocks : t'.blocks = t.blocks) (htip : t'.activeTip = t.activeTip) : t.Alike kept t' :=
  ⟨.of_blocks_eq hblocks, htip⟩

theorem of_flagged (ht : t.Flagged t') : t.Alike kept t' := by
  refine ⟨ht.same.comp (fun u => (((u.1.1, u.1.2.deleted, PowAddon.chainWork u.2), kept u.2), u.1.2.active)), ?_⟩
  exact Tree.fixed_activeTip ht.fixed

theorem updateAddon {f : A → A} (hf : ∀ b, t.find? h = some b →
    PowAddon.chainWork (f b.addon) = PowAddon.chainWork b.addon ∧ kept (f b.addon) = kept b.addon) :
    t.Alike kept (t.updateAddon h f) := by
  refine ⟨.update t h (fun b hb => ?_), rfl⟩
  obtain ⟨hwork, hkept⟩ := hf b hb
  have hlabour : (b.setAddon (f b.addon)).labour = b.labour := labour_eq_iff.mpr ⟨rfl, rfl, hwork⟩
  rw [hlabour, show kept (b.setAddon (f b.addon)).addon = kept b.addon from hkept]
  rfl

theorem labour (ht : t.Alike kept t') : t.SameOn BlockIndex.labour t' := ht.same.comp (fun u => u.1.1)

end Tree.Alike

namespace TreeClass

/-- The invariant holds, and the blocks are where they were in `t₀`, with their work and what is kept with them. -/
def Within (c : TreeClass σ A) (kept : A → ρ) (I : σ → Prop) (t₀ : Tree A) (s : σ) : Prop :=
  I s ∧ t₀.SameOn (fun b => (b.labour, kept b.addon)) (c.tree.get s)

/-- The program keeps the invariant, and leaves the blocks where they are. -/
abbrev Settles (c : TreeClass σ A) (kept : A → ρ) (I : σ → Prop) (m : M σ α) : Prop := Keeping (c.Within kept I) m

/-- What the virtual functions of a tree have to keep. -/
structure Steady (c : TreeClass σ A) (kept : A → ρ) (I : σ → Prop) : Prop where
  alike : ∀ s t', I s → (c.tree.get s).Alike kept t' → I (c.tree.set t' s)
  setState : ∀ h, c.Settles kept I (c.setState h)
  determineBestChain : ∀ h, c.Settles kept I (c.determineBestChain h)

theorem Settles.wlp {c : TreeClass σ A} {I : σ → Prop} {m : M σ α} (hm : c.Settles kept I m) {s : σ} (hs : I s) :
    wlp m (fun _ s' => I s' ∧ (c.tree.get s).SameOn (fun b => (b.labour, kept b.addon)) (c.tree.get s')) s :=
  hm (c.tree.get s) s ⟨hs, .refl _⟩

theorem Settles.upholding {c : TreeClass σ A} {I : σ → Prop} {m : M σ α} (hm : c.Settles kept I m) : Upholding I m :=
  Upholding.of_wlp (fun _ hs => wlp_mono (hm.wlp hs) (fun _ _ h => h.1))

namespace Steady

variable {I : σ → Prop} {c : TreeClass σ A} (hc : c.Steady kept I)

include hc

theorem within {t₀ t' : Tree A} {s : σ} (hs : c.Within kept I t₀ s) (ht : (c.tree.get s).Alike kept t') :
    c.Within kept I t₀ (c.tree.set t' s) := by
  refine ⟨hc.alike s t' hs.1 ht, ?_⟩
  rw [c.tree.get_set]
  exact hs.2.trans (ht.same.comp Prod.fst)

theorem change {f : Tree A → Tree A} (hf : ∀ t : Tree A, t.Alike kept (f t)) : c.Settles kept I (zoom c.tree (modify f)) := by
  intro t₀ s hs
  show wlp _ _ _
  rw [wlp_zoom, wlp_modify]
  exact hc.within hs (hf _)

theorem flagged {m : M (Tree A) α} (hm : KeepsFlagged m) : c.Settles kept I (zoom c.tree m) := by
  intro t₀ s hs
  show wlp _ _ _
  rw [wlp_zoom]
  exact wlp_mono (hm _ _ (.refl _)) (fun _ t' ht' => hc.within hs (.of_flagged ht'))

theorem tryAddTip (h : Hash) : c.Settles kept I (zoom c.tree (modify fun t => t.tryAddTip h)) :=
  hc.change (fun t => .of_flagged (.tryAddTip t h))

theorem doUpdateTips : c.Settles kept I (doUpdateTips c) := by
  refine .bind Keeping.getTree (fun _ => .bind (hc.change (fun _ => .of_blocks_eq rfl rfl)) (fun _ => .forEach (fun h => ?_) _))
  exact .bind Keeping.getTree (fun _ => .bind Keeping.check (fun _ => .bind (hc.determineBestChain h) (fun _ =>
    .bind Keeping.getTree (fun _ => Keeping.check))))

theorem updateTips : c.Settles kept I (updateTips c) :=
  .bind Keeping.getTree (fun _ => .ite hc.doUpdateTips (hc.change (fun _ => .of_blocks_eq rfl rfl)))

theorem doUpdateAffectedTips (h : Hash) : c.Settles kept I (doUpdateAffectedTips c h) :=
  .bind Keeping.getTree (fun _ => .bind (hc.change (fun _ => .of_blocks_eq rfl rfl)) (fun _ => .forEach hc.determineBestChain _))

theorem deferForkResolution : c.Settles kept I (deferForkResolution c) := hc.change (fun _ => .of_blocks_eq rfl rfl)

theorem overrideDeferredForkResolution (h : Hash) : c.Settles kept I (overrideDeferredForkResolution c h) :=
  .bind (hc.change (fun _ => .of_blocks_eq rfl rfl)) (fun _ => .bind (hc.setState h) (fun _ => Keeping.check))

theorem continueForkResolution : c.Settles kept I (continueForkResolution c) := by
  refine .bind Keeping.getTree (fun _ => .bind Keeping.check (fun _ => .bind (hc.change (fun _ => .of_blocks_eq rfl rfl)) (fun _ => .when ?_)))
  exact .bind hc.doUpdateTips (fun _ => hc.change (fun _ => .of_blocks_eq rfl rfl))

theorem setStateOrStop (h : Hash) : c.Settles kept I (setStateOrStop c h) := .bind (hc.setState h) (fun _ => Keeping.check)

theorem invalidateSubtree (h : Hash) (r : BlockValidityStatus) (f : Bool) : c.Settles kept I (invalidateSubtree c h r f) := by
  refine .bind Keeping.getTree (fun _ => .bind Keeping.getOrStop (fun _ => .bind Keeping.getOrStop (fun prev => Keeping.of_wlp (fun t₀ s hs => ?_))))
  rw [wlp_bind, wlp_check]
  intro hr
  have hr := isFailure_of_valid hr
  refine Keeping.wlp (.ite (.pure _) (.ite (hc.flagged (.doInvalidate h hr)) ?_)) hs
  exact .bind (.when (hc.setStateOrStop prev)) (fun _ => .bind (hc.flagged (.flagSubtree h prev hr)) (fun _ => .when hc.updateTips))

theorem revalidateSubtree (h : Hash) (r : BlockValidityStatus) (f : Bool) : c.Settles kept I (revalidateSubtree c h r f) := by
  refine .bind Keeping.getTree (fun _ => .bind Keeping.getOrStop (fun _ => .bind Keeping.check (fun _ => Keeping.of_wlp (fun t₀ s hs => ?_))))
  rw [wlp_bind, wlp_check]
  intro hr
  have hr := isFailure_of_valid hr
  refine Keeping.wlp (.ite (.pure _) (.ite (hc.flagged (.doReValidate h hr)) ?_)) hs
  exact .bind (hc.flagged (.unflagSubtree h hr)) (fun _ => .when hc.updateTips)

end Steady

/-- What adding a block has to keep, too. -/
structure Upholds (c : TreeClass σ A) (p : BlockTreeParams) (kept : A → ρ) (I : σ → Prop) : Prop extends c.Steady kept I where
  validateAndAddBlock : ∀ block ctx, Upholding I (zoom c.tree (validateAndAddBlock p block ctx))

/-- What deleting a subtree has to keep. -/
def Deletes (c : TreeClass σ A) (I : σ → Prop) : Prop :=
  ∀ s h prev, I s → (c.tree.get s).IsChild h prev → wlp (when ((c.tree.get s).onActiveChain h) (setStateOrStop c prev))
    (fun _ s' => wlp (zoom c.tree (deleteSubtree c.onBeforeLeafRemoved h prev)) (fun _ => I) s') s

/-- What adding and removing references to blocks has to keep. -/
structure Counts (c : TreeClass σ A) (I : σ → Prop) : Prop where
  addRef : ∀ s h n b, I s → (c.tree.get s).find? h = some b → b.status.deleted = false →
    I (c.tree.set ((c.tree.get s).updateAddon h (PowAddon.addRef n)) s)
  removeRef : ∀ s h n b a, I s → (c.tree.get s).find? h = some b → PowAddon.removeRef n b.addon = some a →
    I (c.tree.set ((c.tree.get s).updateAddon h (fun _ => a)) s)
  delete : c.Deletes I

theorem Steady.removeSubtree {I : σ → Prop} {c : TreeClass σ A} (hc : c.Steady kept I) (hdel : c.Deletes I) (h : Hash) :
    Upholding I (removeSubtree c h) := by
  apply Upholding.of_wlp
  intro s hs
  simp only [AltIntegration.removeSubtree, TreeClass.getTree, wlp_bind, wlp_get, wlp_pure, wlp_getOrStop]
  intro b hb prev hprev
  refine wlp_mono (hdel s h prev hs ⟨b, hb, hprev⟩) (fun _ s1 h1 => ?_)
  exact wlp_mono h1 (fun _ s2 h2 => Upholding.wlp (.when hc.updateTips.upholding) h2)

theorem Steady.removeLeaf {I : σ → Prop} {c : TreeClass σ A} (hc : c.Steady kept I) (hdel : c.Deletes I) (h : Hash) :
    Upholding I (removeLeaf c h) :=
  .bind Upholding.getTree (fun _ => .bind Upholding.check (fun _ => hc.removeSubtree hdel h))

namespace Upholds

variable {p : BlockTreeParams} {I : σ → Prop} {c : TreeClass σ A} (hc : c.Upholds p kept I)

include hc

theorem acceptBlockHeader (block : PowBlock) : Upholding I (acceptBlockHeader p c block) := by
  refine .bind (hc.validateAndAddBlock block true) (fun _ => .ite ?_ (.pure _))
  exact .bind (hc.tryAddTip _).upholding (fun _ => .bind (hc.determineBestChain _).upholding (fun _ => .pure _))

/-- The reference to a bootstrap block is the last thing that is added. -/
theorem wlp_bootstrapBlock [RefAddon A] (block : PowBlock) {s : σ} (hs : I s) :
    wlp (AltIntegration.bootstrapBlock p c block) (fun _ s' => ∃ s1 b, I s1 ∧ (c.tree.get s1).find? block.getHash = some b ∧
      b.status.deleted = false ∧ s' = c.tree.set ((c.tree.get s1).updateAddon block.getHash (PowAddon.addRef 0)) s1) s := by
  simp only [AltIntegration.bootstrapBlock, wlp_bind, wlp_check]
  have hpresent : wlp (zoom c.tree (AltIntegration.validateAndAddBlock p block false))
      (fun ok s' => ok = true → (c.tree.get s').Present block.getHash) s := by
    rw [wlp_zoom]
    refine wlp_mono (wlp_validateAndAddBlock_inserts false) (fun _ t' ht' hok => ?_)
    rw [c.tree.get_set]
    exact ht'.present hok
  refine wlp_mono (wlp_and ((hc.validateAndAddBlock block false).wlp hs) hpresent) ?_
  rintro ok s1 ⟨hs1, hp⟩ hok
  have hmark : ∀ t : Tree A, t.Alike kept (t.update block.getHash (fun b => b.setFlag .bootstrap)) := by
    refine fun t => ⟨.update t block.getHash (fun b _ => ?_), rfl⟩
    have hlabour : (b.setFlag .bootstrap).labour = b.labour := labour_setStatus b rfl
    have haddon : (b.setFlag .bootstrap).addon = b.addon := setStatus_addon _ _
    rw [hlabour, haddon, setFlag_status]
    rfl
  have hsettle : c.Settles kept I (do
      zoom c.tree (modifyBlock block.getHash (·.setFlag .bootstrap))
      zoom c.tree (modify fun t => t.tryAddTip block.getHash)
      c.determineBestChain block.getHash) :=
    .bind (hc.change hmark) (fun _ => .bind (hc.tryAddTip _) (fun _ => hc.determineBestChain _))
  have hrest := hsettle.wlp hs1
  simp only [wlp_bind] at hrest
  refine wlp_mono hrest (fun _ s2 h2 => wlp_mono h2 (fun _ s3 h3 => wlp_mono h3 ?_))
  rintro _ s4 ⟨hs4, hsame⟩
  rw [wlp_zoom, wlp_modify]
  obtain ⟨b, hb, hd⟩ := hp hok
  obtain ⟨b', hb', heq⟩ := hsame.symm.find? hb
  exact ⟨s4, b', hs4, hb', (labour_eq_iff.mp (Prod.mk.inj heq).1).2.1.trans hd, rfl⟩

variable (hcount : c.Counts I)

include hcount

theorem bootstrapBlock [RefAddon A] (block : PowBlock) : Upholding I (bootstrapBlock p c block) := by
  refine Upholding.of_wlp (fun s hs => wlp_mono (hc.wlp_bootstrapBlock block hs) ?_)
  rintro _ _ ⟨s1, b, hs1, hb, hd, rfl⟩
  exact hcount.addRef s1 _ 0 b hs1 hb hd

theorem addBlock_execute (block : PowBlock) (n : Nat) : Upholding I (AddBlock.execute p c block n) := by
  refine .bind Upholding.getTree (fun t => .bind ?_ (fun _ => .ite (Upholding.of_wlp (fun s hs => ?_)) (.pure _)))
  . unfold AddBlock.execute.acceptUnknown
    split
    . exact .pure _
    . exact hc.acceptBlockHeader block
  . simp only [TreeClass.getTree, wlp_bind, wlp_get, wlp_pure, wlp_check, wlp_zoom, wlp_modify]
    intro hsome
    obtain ⟨b, hb⟩ := Option.isSome_iff_exists.mp hsome
    obtain ⟨hb, hd⟩ := Tree.getBlockIndex_eq_some.mp hb
    exact hcount.addRef s _ n b hs hb hd

theorem addBlock_unExecute (block : PowBlock) (n : Nat) : Upholding I (AddBlock.unExecute c block n) := by
  apply Upholding.of_wlp
  intro s hs
  simp only [AddBlock.unExecute, TreeClass.getTree, wlp_bind, wlp_get, wlp_pure, wlp_getOrStop, wlp_zoom, wlp_modify]
  intro index hindex addon haddon
  refine Upholding.wlp (.when (.bind Upholding.check (fun _ => hc.removeLeaf hcount.delete _))) ?_
  exact hcount.removeRef s _ n index addon hs (Tree.getBlockIndex_eq_some.mp hindex).1 haddon

end Upholds

end TreeClass

end Trees

namespace PopStateMachine

variable {sm : PopStateMachine σ τ A B C} {I : ι → σ → Prop}

namespace Moves

theorem deref (h : Hash) : Keeping I (sm.deref h) := Keeping.derefBlock h

theorem getEd : Keeping I sm.getEd := .bind .get (fun _ => .pure _)

theorem getIng : Keeping I sm.getIng := .bind .get (fun _ => .pure _)

theorem liftExcept (x : Except Assertion Int) : Keeping I (compareForks.liftExcept x) := by
  cases x with
  | ok r => exact .pure r
  | error e => exact Keeping.throw

theorem assertBlockCanBeApplied (index : BlockIndex A) : Keeping I (sm.assertBlockCanBeApplied index) :=
  .bind Keeping.getOrStop (fun p => .bind (deref p) (fun _ => .bind Keeping.check (fun _ => .bind Keeping.check (fun _ => .bind Keeping.check (fun _ =>
    .pure _)))))

end Moves

variable [BlockAddon A] [PopAddon A] [BlockAddon B]

/-- What is kept by applying and unapplying a block, and by the protecting tree in between. -/
structure Moves (sm : PopStateMachine σ τ A B C) (I : ι → σ → Prop) : Prop where
  applyBlock : ∀ h, Keeping I (sm.applyBlock h)
  unapplyBlock : ∀ h, Keeping I (sm.unapplyBlock h)
  deferForkResolution : Keeping I (zoom sm.ing (deferForkResolution sm.protecting))
  continueForkResolution : Keeping I (zoom sm.ing (continueForkResolution sm.protecting))
  revertTo : ∀ h, Keeping I (sm.revertTo h)

namespace Moves

variable (hsm : sm.Moves I)

include hsm

theorem withGuard {m : M σ α} (hm : Keeping I m) : Keeping I (sm.withGuard m) :=
  .bind hsm.deferForkResolution (fun _ => .bind hm (fun _ => .bind hsm.continueForkResolution (fun _ => .pure _)))

theorem revertUnless (success : Bool) (h : Hash) : Keeping I (sm.revertUnless success h) :=
  .bind (.when (hsm.revertTo h)) (fun _ => .pure _)

theorem unapplyWhile (pred : BlockIndex A → Bool) (dest : Hash) (n : Nat) (h : Hash) :
    Keeping I (sm.unapplyWhile pred dest n h) := by
  induction n generalizing h with
  | zero => exact Keeping.throw
  | succ n ih =>
    refine .ite (.pure _) (.bind (deref h) (fun index => .bind getEd (fun _ => .bind Keeping.check (fun _ => .ite (.pure _) ?_))))
    exact .bind (hsm.unapplyBlock h) (fun _ => .bind Keeping.getOrStop (fun q => ih q))

theorem unapply (start dest : Hash) : Keeping I (sm.unapply start dest) :=
  .bind getEd (fun _ => .bind (hsm.unapplyWhile _ dest _ start) (fun _ => Keeping.check))

theorem keepChainA (fork candidate originalTip : Hash) : Keeping I (sm.keepChainA fork candidate originalTip) :=
  hsm.withGuard (.bind (hsm.unapply candidate fork) (fun _ => hsm.revertTo originalTip))

theorem apply (start dest : Hash) : Keeping I (sm.apply start dest) := by
  refine .ite (.pure _) (.bind (deref dest) (fun _ => .ite (.pure _) (.bind getEd (fun _ => .bind Keeping.getOrStop (fun _ =>
    .bind Keeping.check (fun _ => ?_))))))
  exact .execAll hsm.applyBlock hsm.unapplyBlock _

theorem setState (start dest : Hash) : Keeping I (sm.setState start dest) := by
  refine .ite (.pure _) (.bind getEd (fun _ => .bind Keeping.getOrStop (fun fork => .bind (hsm.unapply start fork) (fun _ =>
    .bind (hsm.apply fork dest) (fun _ => .ite (.pure _) ?_)))))
  exact .bind (hsm.apply fork start) (fun _ => .bind Keeping.check (fun _ => .pure _))

theorem comparatorSetState (dest : Hash) : Keeping I (sm.comparatorSetState dest) := by
  refine .bind getEd (fun _ => .bind Keeping.check (fun _ => .ite (.pure _) (hsm.withGuard ?_)))
  exact .bind getIng (fun _ => .bind (hsm.setState _ dest) (fun _ => hsm.revertUnless _ _))

theorem switchToChainB (fork bestTip candidate originalTip : Hash) :
    Keeping I (sm.switchToChainB fork bestTip candidate originalTip) := by
  refine hsm.withGuard (.bind getEd (fun _ => .bind (hsm.unapplyWhile _ fork _ candidate) (fun validFrom =>
    .bind (hsm.unapply bestTip fork) (fun _ => .bind (hsm.apply validFrom candidate) (fun _ => .ite (.pure _) ?_)))))
  exact .bind (hsm.unapply validFrom fork) (fun _ => .bind (hsm.apply fork bestTip) (fun _ => .bind Keeping.check (fun _ =>
    .bind (hsm.revertTo originalTip) (fun _ => .pure _))))

theorem compareForks (q : PopParams) (fork bestTip candidate : Hash) : Keeping I (sm.compareForks q fork bestTip candidate) := by
  refine .bind getIng (fun _ => .bind (hsm.withGuard (.bind (hsm.apply fork candidate) (fun _ => hsm.revertUnless _ _)))
    (fun _ => .ite (.pure _) (.bind getEd (fun _ => .bind getIng (fun _ => .bind (liftExcept _) (fun _ => .ite ?_ ?_))))))
  . exact .bind (hsm.keepChainA _ _ _) (fun _ => .pure _)
  . exact .bind (hsm.switchToChainB _ _ _ _) (fun _ => .ite (.pure _) (.pure _))

theorem comparePopScore (q : PopParams) (candidate : Hash) : Keeping I (sm.comparePopScore q candidate) := by
  refine .bind (deref _) (fun _ => .bind getEd (fun _ => .bind (deref _) (fun _ => .ite (.pure _) (.ite ?_ ?_))))
  . exact .bind getIng (fun _ => .bind (hsm.withGuard (.bind (hsm.apply _ _) (fun _ => hsm.revertUnless _ _))) (fun _ =>
      .pure _))
  . exact .bind Keeping.getOrStop (fun fork => .ite (.pure _) (.ite (.pure _) (hsm.compareForks q fork _ candidate)))

end Moves

end PopStateMachine

namespace PopStateMachine

variable [PowAddon B] {sm : PopStateMachine σ τ A B C} {kept : B → ρ} {g : BlockIndex A → γ} {I : ι → σ → Prop} {K : τ → Prop}

/-- What the parts of a state machine have to keep. The invariant sees of a protected block what `g` tells. -/
structure Upholds (sm : PopStateMachine σ τ A B C) (kept : B → ρ) (g : BlockIndex A → γ) (I : ι → σ → Prop)
    (K : τ → Prop) : Prop where
  ed : ∀ i s t', I i s → (sm.ed.get s).SameOn g t' → I i (sm.ed.set t' s)
  bare : ∀ b b' : BlockIndex A, b.bare = b'.bare → g b = g b'
  active : ∀ v (b : BlockIndex A), g (b.setStatus (b.status.assign v .active)) = g b
  level : ∀ l (b : BlockIndex A), g (b.setLevel l) = g b
  ing_get : ∀ i s, I i s → K (sm.ing.get s)
  ing_set : ∀ i s x, I i s → K x → (sm.protecting.tree.get (sm.ing.get s)).SameOn (fun b => (b.labour, kept b.addon))
    (sm.protecting.tree.get x) → I i (sm.ing.set x s)
  protecting : sm.protecting.Steady kept K
  getCommands : ∀ index, Keeping I (sm.getCommands index)
  execute : ∀ cmd, Keeping I (sm.execute cmd)
  unExecute : ∀ cmd, Keeping I (sm.unExecute cmd)

namespace Upholds

variable (hsm : sm.Upholds kept g I K)

include hsm

theorem zoom_ing {m : M τ α} (hm : sm.protecting.Settles kept K m) : Keeping I (zoom sm.ing m) := by
  intro i s hs
  show wlp _ _ _
  rw [wlp_zoom]
  exact wlp_mono (hm.wlp (hsm.ing_get i s hs)) (fun _ x hx => hsm.ing_set i s x hs hx.1 hx.2)

theorem change {f : Tree A → Tree A} (hf : ∀ t : Tree A, t.SameOn g (f t)) : Keeping I (zoom sm.ed (modify f)) := by
  intro i s hs
  show wlp _ _ _
  rw [wlp_zoom, wlp_modify]
  exact hsm.ed i s _ hs (hf _)

theorem flagged {m : M (Tree A) α} (hm : KeepsFlagged m) : Keeping I (zoom sm.ed m) := by
  intro i s hs
  show wlp _ _ _
  rw [wlp_zoom]
  refine wlp_mono (hm _ _ (.refl _)) (fun _ t' ht' => hsm.ed i s t' hs ⟨ht'.same.keys, fun x => ?_⟩)
  have hx := ht'.same.same x
  cases hb' : t'.find? x with
  | none =>
    rw [hb', Option.map_none, eq_comm, Option.map_eq_none_iff] at hx
    rw [hx]
  | some b' =>
    obtain ⟨b, hb, heq⟩ := ht'.same.find? hb'
    rw [hb, Option.map_some, Option.map_some, hsm.bare b b' heq]

theorem executeGroup (cmds : List C) : Keeping I (sm.executeGroup cmds) := .execAll hsm.execute hsm.unExecute cmds

theorem unExecuteGroup (cmds : List C) : Keeping I (sm.unExecuteGroup cmds) := .undoAll hsm.unExecute cmds

theorem raiseValidity (h : Hash) (upTo : BlockStateStatus) : Keeping I (zoom sm.ed (raiseValidity h upTo)) := by
  intro i s hs
  show wlp _ _ _
  rw [wlp_zoom]
  cases hb : (sm.ed.get s).find? h with
  | none => simp [AltIntegration.raiseValidity, wlp_derefBlock, hb]
  | some b =>
    refine wlp_raiseValidity hb (fun _ => hsm.ed i s _ hs (.refl _)) (fun _ _ => hsm.ed i s _ hs (.update _ h (fun b _ => ?_)))
    exact hsm.level upTo b

theorem finishApply (h q : Hash) : Keeping I (sm.finishApply h q) := by
  have hmark : ∀ level, Keeping I (zoom sm.ed (markApplied h level)) := by
    intro level i s hs
    have hraise := hsm.raiseValidity h level i s hs
    show wlp _ _ _
    have hraise : wlp _ _ _ := hraise
    simp only [markApplied, wlp_zoom, wlp_bind, wlp_modifyBlock, wlp_modify] at hraise ⊢
    refine wlp_mono hraise (fun _ t1 h1 => ?_)
    have hsame : t1.SameOn g { t1.update h (fun b => b.setFlag .active) with appliedBlockCount := t1.appliedBlockCount + 1 } :=
      (Tree.SameOn.update t1 h (fun b _ => hsm.active true b)).trans (.of_blocks_eq rfl)
    have h2 := hsm.ed i _ _ h1 (by rw [sm.ed.get_set]; exact hsame)
    rw [sm.ed.set_set] at h2
    exact h2
  exact .bind (Moves.deref q) (fun _ => .bind Moves.getEd (fun _ => hmark _))

section

variable [PopAddon A]

theorem executeBlock (index : BlockIndex A) : Keeping I (sm.executeBlock index) :=
  .ite (.bind (hsm.getCommands index) (fun _ => .execAll hsm.executeGroup hsm.unExecuteGroup _)) (.pure _)

theorem unapplyBlock (h : Hash) : Keeping I (sm.unapplyBlock h) := by
  refine .bind (Moves.deref h) (fun index => .bind Keeping.getOrStop (fun q => .bind Keeping.check (fun _ => .bind Keeping.check (fun _ =>
    .bind (Moves.deref q) (fun _ => .bind Keeping.check (fun _ => .bind (.when ?_) (fun _ => .bind ?_ (fun _ => .bind Moves.getEd (fun _ =>
    .bind Keeping.check (fun _ => hsm.change (fun _ => .of_blocks_eq rfl)))))))))))
  . exact .bind (hsm.getCommands index) (fun _ => .undoAll hsm.unExecuteGroup _)
  . exact hsm.change (fun t => .update t h (fun b _ => hsm.active false b))

end

section

variable [BlockAddon A]

theorem fail (h : Hash) : Keeping I (invalidateSubtree sm.edClass h .failedPop false) := by
  refine .bind Keeping.getTree (fun _ => .bind Keeping.getOrStop (fun _ => .bind Keeping.getOrStop (fun prev => .bind Keeping.check (fun _ => .ite (.pure _)
    (.ite (hsm.flagged (.doInvalidate h (.inr (.inl rfl)))) ?_)))))
  exact .bind (.when (.bind Keeping.throw (fun _ => Keeping.check))) (fun _ =>
    .bind (hsm.flagged (.flagSubtree h prev (.inr (.inl rfl)))) (fun _ => .pure _))

end

variable [BlockAddon A] [PopAddon A]

theorem applyBlock (h : Hash) : Keeping I (sm.applyBlock h) := by
  refine .bind (Moves.deref h) (fun index => .bind (Moves.assertBlockCanBeApplied index) (fun q => .ite (.pure _) (.bind Keeping.check (fun _ =>
    .bind (hsm.executeBlock index) (fun _ => .ite ?_ ?_)))))
  . exact .bind (hsm.finishApply h q) (fun _ => .pure _)
  . exact .bind (hsm.fail h) (fun _ => .pure _)

theorem moves : sm.Moves I where
  applyBlock := hsm.applyBlock
  unapplyBlock := hsm.unapplyBlock
  deferForkResolution := hsm.zoom_ing hsm.protecting.deferForkResolution
  continueForkResolution := hsm.zoom_ing hsm.protecting.continueForkResolution
  revertTo h := hsm.zoom_ing (hsm.protecting.overrideDeferredForkResolution h)

end Upholds

end PopStateMachine

end AltIntegration
