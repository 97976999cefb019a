import AltIntegration.Blockchain.Lemmas.Sane

/-!
This module contains what the functions of a `TreeClass` keep, given that its virtual functions keep it:
the tree is sane, and whatever is known of the rest of the state holds.
-/

namespace AltIntegration

open Program BlockIndex

variable {σ A α : Type}

/-- What is known of a state around one of its trees. -/
structure Around (l : Lens σ (Tree A)) where
  /-- the level that a block in the tree has at least -/
  min : BlockStateStatus
  rest : σ → Prop
  /-- some other tree is spoiled -/
  spoiled : σ → Prop
  rest_set : ∀ t s, rest (l.set t s) ↔ rest s
  spoiled_set : ∀ t s, spoiled (l.set t s) ↔ spoiled s

namespace Around

variable [BlockAddon A] {l : Lens σ (Tree A)} (a : Around l)

def Holds (i : Promise A) (s : σ) : Prop := (l.get s).Sane a.min i ∧ a.rest s

omit [BlockAddon A] in
/-- A program that stopped in `raiseValidity` has spoiled a tree before. -/
def Stops (e : Assertion) (s : σ) : Prop :=
  e = .raiseValidity → (l.get s).RestoredFailedPop ∨ a.spoiled s

variable {a} {i i' : Promise A} {s : σ}

omit [BlockAddon A] in
theorem Stops.of_ne {e : Assertion} (he : e ≠ .raiseValidity) (s : σ) : a.Stops e s :=
  fun h => absurd h he

theorem check_keeps {p : Bool} {e : Assertion} (he : e ≠ .raiseValidity) : Keeps a.Holds a.Stops (check p e) :=
  .check (fun _ s _ => .of_ne he s)

theorem getOrStop_keeps {o : Option α} {e : Assertion} (he : e ≠ .raiseValidity) :
    Keeps a.Holds a.Stops (getOrStop o e) :=
  .getOrStop (fun _ s _ => .of_ne he s)

theorem wp_zoom {m : M (Tree A) α} {Q : α → Tree A → Prop} (hs : a.rest s)
    (hm : wp m (fun r t => t.Sane a.min i ∧ Q r t) Spoils (l.get s)) :
    wp (zoom l m) (fun r s' => a.Holds i s' ∧ Q r (l.get s')) a.Stops s := by
  rw [Program.wp_zoom]
  refine wp_mono hm ?_ ?_
  . rintro r t ⟨ht, hQ⟩
    refine ⟨⟨?_, (a.rest_set t s).mpr hs⟩, ?_⟩
    . rw [l.get_set]
      exact ht
    . rw [l.get_set]
      exact hQ
  . intro e t he heq
    rw [l.get_set]
    exact .inl (he heq)

theorem wp_zoom' {m : M (Tree A) α} (hs : a.rest s)
    (hm : wp m (fun _ t => t.Sane a.min i) Spoils (l.get s)) :
    wp (zoom l m) (fun _ => a.Holds i) a.Stops s := by
  refine wp_mono (wp_zoom (Q := fun _ _ => True) hs (wp_mono hm (fun _ _ h => ⟨h, trivial⟩) ?_)) ?_ ?_
  . exact fun _ _ h => h
  . exact fun _ _ h => h.1
  . exact fun _ _ h => h

theorem zoom_keeps {m : M (Tree A) α}
    (hm : ∀ i t, t.Sane a.min i → wp m (fun _ t' => t'.Sane a.min i) Spoils t) :
    Keeps a.Holds a.Stops (zoom l m) :=
  fun i _ hs => wp_zoom' hs.2 (hm i _ hs.1)

theorem modify_keeps {f : Tree A → Tree A} (hf : ∀ t : Tree A, t.SameCore (f t)) :
    Keeps a.Holds a.Stops (zoom l (modify f)) :=
  zoom_keeps (fun _ t ht => ht.congr (hf t))

theorem derefBlock_keeps (h : Hash) : Keeps a.Holds a.Stops (zoom l (derefBlock h)) := by
  refine zoom_keeps (fun i t ht => ?_)
  simp only [derefBlock, wp_bind, wp_get, wp_getOrStop]
  exact ⟨fun _ _ => ht, fun _ => .of_ne (by decide) t⟩

end Around

theorem wp_zoom_derefBlock {l : Lens σ (Tree A)} {h : Hash} {Q : BlockIndex A → σ → Prop}
    {E : Assertion → σ → Prop} {s : σ} :
    wp (zoom l (derefBlock h)) Q E s ↔
      (∀ b, (l.get s).find? h = some b → Q b s) ∧ ((l.get s).find? h = none → E .unknownBlock s) := by
  simp only [derefBlock, wp_zoom, wp_bind, wp_get, wp_getOrStop, l.set_get]

/-- What the virtual functions of a tree have to keep. -/
structure TreeClass.Lawful [BlockAddon A] (c : TreeClass σ A) (a : Around c.tree) : Prop where
  onBeforeLeafRemoved : Tree.Harmless c.onBeforeLeafRemoved
  setState : ∀ h, Keeps a.Holds a.Stops (c.setState h)
  determineBestChain : ∀ h, Keeps a.Holds a.Stops (c.determineBestChain h)
  validTree_le : .validTree ≤ BlockAddon.validTipLevel A
  le_connected : BlockAddon.validTipLevel A ≤ .connected

namespace TreeClass.Lawful

variable [BlockAddon A] {c : TreeClass σ A} {a : Around c.tree} (hc : c.Lawful a)

omit hc in
theorem getTree : Keeps a.Holds a.Stops c.getTree := .bind .get (fun _ => .pure _)

include hc

theorem doUpdateTips : Keeps a.Holds a.Stops (doUpdateTips c) := by
  refine .bind getTree (fun t => .bind (Around.modify_keeps fun t => ⟨.of_blocks_eq rfl, rfl, rfl⟩) (fun _ =>
    .forEach (fun tip => ?_) _))
  exact .bind getTree (fun _ => .bind (Around.check_keeps (by decide)) (fun _ =>
    .bind (hc.determineBestChain tip) (fun _ => .bind getTree (fun _ => Around.check_keeps (by decide)))))

theorem updateTips : Keeps a.Holds a.Stops (updateTips c) :=
  .bind getTree (fun _ => .ite hc.doUpdateTips (Around.modify_keeps fun _ => ⟨.of_blocks_eq rfl, rfl, rfl⟩))

theorem doUpdateAffectedTips (h : Hash) : Keeps a.Holds a.Stops (doUpdateAffectedTips c h) :=
  .bind getTree (fun _ => .bind (Around.modify_keeps fun _ => ⟨.of_blocks_eq rfl, rfl, rfl⟩) (fun _ =>
    .forEach hc.determineBestChain _))

omit hc in
theorem deferForkResolution : Keeps a.Holds a.Stops (deferForkResolution c) :=
  Around.modify_keeps fun _ => ⟨.of_blocks_eq rfl, rfl, rfl⟩

theorem overrideDeferredForkResolution (h : Hash) :
    Keeps a.Holds a.Stops (overrideDeferredForkResolution c h) :=
  .bind (Around.modify_keeps fun _ => ⟨.of_blocks_eq rfl, rfl, rfl⟩) (fun _ => .bind (hc.setState h) (fun _ =>
    Around.check_keeps (by decide)))

theorem continueForkResolution : Keeps a.Holds a.Stops (continueForkResolution c) := by
  refine .bind getTree (fun _ => .bind (Around.check_keeps (by decide)) (fun _ =>
    .bind (Around.modify_keeps fun _ => ⟨.of_blocks_eq rfl, rfl, rfl⟩) (fun _ => .when ?_)))
  exact .bind hc.doUpdateTips (fun _ => Around.modify_keeps fun _ => ⟨.of_blocks_eq rfl, rfl, rfl⟩)

theorem setStateOrStop (h : Hash) : Keeps a.Holds a.Stops (setStateOrStop c h) :=
  .bind (hc.setState h) (fun _ => Around.check_keeps (by decide))

theorem removeSubtree (h : Hash) : Keeps a.Holds a.Stops (removeSubtree c h) := by
  intro i s hs
  simp only [AltIntegration.removeSubtree, TreeClass.getTree, wp_bind, wp_get, wp_pure, wp_getOrStop]
  refine ⟨fun b hb => ⟨fun p hp => ?_, fun _ => .of_ne (by decide) s⟩, fun _ => .of_ne (by decide) s⟩
  have hs : a.Holds (i.child h p) s := ⟨hs.1.child hb hp, hs.2⟩
  refine wp_mono (Keeps.when (hc.setStateOrStop p) _ s hs) ?_ (fun _ _ h => h)
  intro _ s1 hs1
  refine wp_mono (Around.wp_zoom' hs1.2 (deleteSubtree_sane hc.onBeforeLeafRemoved hs1.1)) ?_ (fun _ _ h => h)
  intro _ s2 hs2
  exact Keeps.when hc.updateTips i s2 hs2

theorem removeLeaf (h : Hash) : Keeps a.Holds a.Stops (removeLeaf c h) :=
  .bind getTree (fun _ => .bind (Around.check_keeps (by decide)) (fun _ => hc.removeSubtree h))

/-- Invalidating a block that is not deleted settles it. -/
theorem invalidateSubtree_settles {i : Promise A} {h : Hash} {s : σ} (r : BlockValidityStatus) (f : Bool)
    (hs : a.Holds (i.unsettle h) s)
    (hd : (c.tree.get s).RestoredFailedPop ∨ (c.tree.get s).At (fun b => b.status.deleted = false) h) :
    wp (invalidateSubtree c h r f) (fun _ => a.Holds i) a.Stops s := by
  simp only [invalidateSubtree, TreeClass.getTree, wp_bind, wp_get, wp_pure, wp_getOrStop, wp_check, wp_ite]
  refine ⟨fun b hb => ⟨fun p hp => ⟨fun hr => ?_, fun _ => .of_ne (by decide) s⟩,
    fun _ => .of_ne (by decide) s⟩, fun _ => .of_ne (by decide) s⟩
  have hsettle : b.isFailed = true → a.Holds i s :=
    fun hbf => ⟨hs.1.settle (Tree.not_live_of_isFailed hb hbf), hs.2⟩
  refine ⟨fun hbr => hsettle ?_, fun _ => ⟨fun hv => ?_, fun _ => ?_⟩⟩
  . rcases isFailure_of_valid hr with rfl | rfl | rfl
    all_goals simp [hasFlags, BlockStatus.hasFlags] at hbr
    all_goals simp [BlockIndex.isFailed, BlockStatus.isFailed, hbr]
  . -- a block that is not deleted has a level, so it is invalid because it is failed
    have hbf : (c.tree.get s).RestoredFailedPop ∨ b.isFailed = true := by
      rcases hs.1 with hspoiled | ⟨ht, _⟩
      . exact .inl hspoiled
      . refine hd.imp_right ?_
        rintro ⟨b', hb', hd⟩
        rw [hb] at hb'
        cases hb'
        have hlevel := (ht.nodes hb).validTree hd
        simpa [isValid, isValidUpTo, hlevel] using hv
    refine Around.wp_zoom' hs.2 (doInvalidate_sane ?_ hb hbf hr)
    rcases hbf with hspoiled | hbf
    . exact .inl hspoiled
    . exact (hsettle hbf).1
  . have hs : a.Holds ((i.child h p).unsettle h) s := ⟨hs.1.child hb hp, hs.2⟩
    refine wp_mono (Keeps.when (hc.setStateOrStop p) _ s hs) ?_ (fun _ _ h => h)
    intro _ s1 hs1
    refine wp_mono (Around.wp_zoom' hs1.2 (flagSubtree_sane hs1.1 hr)) ?_ (fun _ _ h => h)
    intro _ s2 hs2
    exact Keeps.when hc.updateTips i s2 hs2

/-- Without fork resolution revalidation only takes failure flags off. -/
theorem wp_revalidateSubtree {i : Promise A} {h : Hash} {s : σ} (r : BlockValidityStatus) (f : Bool)
    (hs : a.Holds i s) :
    wp (revalidateSubtree c h r f)
      (fun _ s' => a.Holds i s' ∧ (f = false →
        (c.tree.get s').RestoredFailedPop ∨ (c.tree.get s).SameOn unfailed (c.tree.get s'))) a.Stops s := by
  simp only [revalidateSubtree, TreeClass.getTree, wp_bind, wp_get, wp_pure, wp_getOrStop, wp_check, wp_ite]
  refine ⟨fun b hb => ⟨fun _ => ⟨fun hr => ⟨fun _ => ⟨hs, fun _ => .inr (.refl _)⟩, fun hbr =>
    ⟨fun hbf => ?_, fun hbf => ?_⟩⟩, fun _ => .of_ne (by decide) s⟩, fun _ => .of_ne (by decide) s⟩,
    fun _ => .of_ne (by decide) s⟩
  . refine wp_mono (Around.wp_zoom hs.2 (doReValidate_sane hs.1 hb hbf hr)) ?_ (fun _ _ h => h)
    exact fun _ s1 hs1 => ⟨hs1.1, fun _ => .inr hs1.2⟩
  . rw [Bool.not_eq_true'] at hbr
    rw [Bool.not_eq_true] at hbf
    refine wp_mono (Around.wp_zoom hs.2 (unflagSubtree_sane hs.1 hr hb (by simpa using hbr) hbf)) ?_
      (fun _ _ h => h)
    intro _ s1 hs1
    rw [wp_when]
    refine ⟨fun hf => wp_mono (hc.updateTips i s1 hs1.1) (fun _ s2 hs2 => ⟨hs2, fun hf' => ?_⟩) (fun _ _ h => h),
      fun _ => ⟨hs1.1, fun _ => hs1.2⟩⟩
    rw [hf] at hf'
    cases hf'

theorem revalidateSubtree (h : Hash) (r : BlockValidityStatus) (f : Bool) :
    Keeps a.Holds a.Stops (revalidateSubtree c h r f) :=
  fun _ _ hs => wp_mono (hc.wp_revalidateSubtree r f hs) (fun _ _ h => h.1) (fun _ _ h => h)

end TreeClass.Lawful

section PoW

variable [PowAddon A] {c : TreeClass σ A} {a : Around c.tree} {p : BlockTreeParams}

/-- The block `h` is settled by the next `tryAddTip`, unless the tree is spoiled. -/
def Tree.Settling (h : Hash) (t : Tree A) : Prop := t.RestoredFailedPop ∨ t.PowShape ∧ t.Settles [] h

theorem Tree.Settling.tryAddTip {h : Hash} {t : Tree A} (ht : t.Settling h) :
    (t.tryAddTip h).Sane .connected .pow := by
  rcases ht with ht | ⟨hp, ht⟩
  . exact .inl (ht.of_history tryAddTip_history)
  . exact .inr ⟨ht.tryAddTip, hp.congr (.of_blocks_eq tryAddTip_blocks)⟩

theorem Tree.Settling.setBootstrap {h : Hash} {t : Tree A} (ht : t.Settling h) :
    (t.update h (fun b => b.setFlag .bootstrap)).Settling h := by
  have hshape := SameShape.update t h (keepsShape_setFlag .bootstrap)
  refine ht.imp_right (fun ⟨hp, ht⟩ => ⟨hp.congr hshape, ?_⟩)
  rcases ht with ht | ⟨ht, hc⟩
  . exact .inl ht.setBootstrap
  . refine .inr ⟨ht.setBootstrap, fun x hx hl => ?_⟩
    have hx := (hshape.isChild x h).mp hx
    obtain ⟨bx, hbx, hpx⟩ := id hx
    exact hc x hx ((live_update_of_ne (ht.wf.ne_parent hbx hpx).symm).mp hl)

/-- A block has been added or not, before anything is done about the tips. -/
def Tree.AddedOrNot (h : Hash) (ok : Bool) (t : Tree A) : Prop :=
  if ok then t.Settling h else t.Sane .connected .pow

theorem validateAndAddBlock_sane {t : Tree A} {block : PowBlock} {ctx : Bool}
    (htip : .validTree ≤ BlockAddon.validTipLevel A) (htip' : BlockAddon.validTipLevel A ≤ .connected)
    (ht : t.Sane .connected .pow) :
    wp (validateAndAddBlock p block ctx)
      (fun ok t' => t'.Sane .connected (Promise.pow.unsettle block.getHash) ∧
        t'.AddedOrNot block.getHash ok) Spoils t := by
  refine ht.wp (.validateAndAddBlock p block ctx) ?_ ?_
  . intro ok t' hr
    refine ⟨.inl hr, ?_⟩
    cases ok with
    | false => exact .inl hr
    | true => exact .inl hr
  . intro ht hp
    refine wp_mono (validateAndAddBlock_spec ht hp htip htip' ctx (fun _ _ he => he)) ?_ (fun _ _ h => h)
    rintro ok t' (hr | ⟨hp', ht'⟩)
    . refine ⟨.inl hr, ?_⟩
      cases ok with
      | false => exact .inl hr
      | true => exact .inl hr
    . cases ok with
      | false => exact ⟨.inr ⟨ht'.mono (List.subset_cons_self _ _), hp'⟩, .inr ⟨ht', hp'⟩⟩
      | true => exact ⟨.inr ⟨ht'.inv, hp'⟩, .inr ⟨hp', ht'⟩⟩

omit [PowAddon A] in
theorem Tree.sameCore_updateAddon (t : Tree A) (h : Hash) (f : A → A) : t.SameCore (t.updateAddon h f) :=
  ⟨SameOn.update t h (fun _ _ => rfl), rfl, rfl⟩

namespace TreeClass.Lawful

variable (hc : c.Lawful a) (hmin : a.min = .connected)

include hc hmin

/-- Add a block and do something before its tip is added. -/
theorem wp_validateAndAddBlock {s : σ} {block : PowBlock} {ctx : Bool} (hs : a.Holds .pow s) :
    wp (zoom c.tree (validateAndAddBlock p block ctx))
      (fun ok s' => a.rest s' ∧ (c.tree.get s').AddedOrNot block.getHash ok) a.Stops s := by
  have ht := hs.1
  rw [hmin] at ht
  refine wp_mono (Around.wp_zoom (i := Promise.pow.unsettle block.getHash) hs.2
    (hmin ▸ validateAndAddBlock_sane hc.validTree_le hc.le_connected ht)) ?_ (fun _ _ h => h)
  exact fun ok s' hs' => ⟨hs'.1.2, hs'.2⟩

omit hc in
theorem holds_tryAddTip {s : σ} {h : Hash} (hrest : a.rest s) (ht : (c.tree.get s).Settling h) :
    a.Holds .pow (c.tree.set ((c.tree.get s).tryAddTip h) s) := by
  refine ⟨?_, (a.rest_set _ s).mpr hrest⟩
  rw [c.tree.get_set, hmin]
  exact ht.tryAddTip

theorem acceptBlockHeader (block : PowBlock) :
    Keeps (fun _ : Unit => a.Holds .pow) a.Stops (acceptBlockHeader p c block) := by
  intro _ s hs
  simp only [AltIntegration.acceptBlockHeader, wp_bind]
  refine wp_mono (hc.wp_validateAndAddBlock hmin hs) ?_ (fun _ _ h => h)
  rintro ok s' ⟨hrest, ht⟩
  rw [wp_ite]
  refine ⟨fun hok => ?_, fun hok => ⟨?_, hrest⟩⟩
  . rw [hok] at ht
    simp only [wp_bind, wp_zoom, wp_modify]
    exact hc.determineBestChain _ .pow _ (holds_tryAddTip hmin hrest ht)
  . rw [Bool.not_eq_true] at hok
    rw [hok] at ht
    rw [hmin]
    exact ht

theorem bootstrapBlock (block : PowBlock) :
    Keeps (fun _ : Unit => a.Holds .pow) a.Stops (bootstrapBlock p c block) := by
  intro _ s hs
  simp only [AltIntegration.bootstrapBlock, wp_bind, wp_check]
  refine wp_mono (hc.wp_validateAndAddBlock hmin hs) ?_ (fun _ _ h => h)
  rintro ok s' ⟨hrest, ht⟩
  refine ⟨fun hok => ?_, fun _ => .of_ne (by decide) s'⟩
  rw [hok] at ht
  simp only [wp_zoom, wp_modifyBlock, wp_modify]
  have hs1 : a.Holds .pow (c.tree.set ((c.tree.get (c.tree.set ((c.tree.get s').update block.getHash
      (fun b => b.setFlag .bootstrap)) s')).tryAddTip block.getHash) (c.tree.set ((c.tree.get s').update
      block.getHash (fun b => b.setFlag .bootstrap)) s')) := by
    refine holds_tryAddTip hmin ((a.rest_set _ s').mpr hrest) ?_
    rw [c.tree.get_set]
    exact ht.setBootstrap
  refine wp_mono (hc.determineBestChain _ .pow _ hs1) ?_ (fun _ _ h => h)
  intro _ s2 hs2
  have hlast := Around.modify_keeps (a := a) (fun t => t.sameCore_updateAddon block.getHash (PowAddon.addRef 0))
    .pow s2 hs2
  simpa only [wp_zoom, wp_modify] using hlast

theorem addBlock_execute (block : PowBlock) (n : Nat) :
    Keeps (fun _ : Unit => a.Holds .pow) a.Stops (AddBlock.execute p c block n) := by
  refine .bind (getTree.fix _) (fun t => .bind ?_ (fun ok => .ite ?_ (.pure _)))
  . unfold AddBlock.execute.acceptUnknown
    split
    . exact .pure _
    . exact hc.acceptBlockHeader hmin block
  . exact .bind (getTree.fix _) (fun t => .bind ((Around.check_keeps (by decide)).fix _) (fun _ =>
      .bind ((Around.modify_keeps fun t => t.sameCore_updateAddon _ _).fix _) (fun _ => .pure _)))

omit hmin in
theorem addBlock_unExecute (block : PowBlock) (n : Nat) :
    Keeps a.Holds a.Stops (AddBlock.unExecute c block n) := by
  refine .bind getTree (fun t => .bind (Around.getOrStop_keeps (by decide)) (fun _ =>
    .bind (Around.getOrStop_keeps (by decide)) (fun _ =>
      .bind (Around.modify_keeps fun t => t.sameCore_updateAddon _ _) (fun _ => .when ?_))))
  exact .bind (Around.check_keeps (by decide)) (fun _ => hc.removeLeaf _)

end TreeClass.Lawful

end PoW

end AltIntegration
