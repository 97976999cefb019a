import AltIntegration.Blockchain.Lemmas.Insert

/-!
This module contains what the programs on one tree keep, whether or not a soft-deleted block with
`BLOCK_FAILED_POP` has been inserted again: until that happens the tree satisfies its invariant, and
`raiseValidity` does not stop.
-/

namespace AltIntegration

open Program BlockIndex

variable {A : Type}

/-- What is promised about a tree: something about its shape, and which blocks are not settled as tips. -/
structure Promise (A : Type) where
  shape : Tree A → Prop
  congr : ∀ {t t'}, shape t → t.SameShape t' → shape t'
  unsettled : List Hash

namespace Promise

def any : Promise A := ⟨fun _ => True, fun _ _ => trivial, []⟩

def pow : Promise A := ⟨Tree.PowShape, Tree.PowShape.congr, []⟩

/-- Only a spoiled tree keeps this promise. -/
def never : Promise A := ⟨fun _ => False, fun h _ => h, []⟩

/-- Allow one more block to be unsettled. -/
def unsettle (i : Promise A) (h : Hash) : Promise A := { i with unsettled := h :: i.unsettled }

/-- Promise in addition where the block `h` hangs. -/
def child (i : Promise A) (h p : Hash) : Promise A where
  shape t := i.shape t ∧ t.IsChild h p
  congr hi hs := ⟨i.congr hi.1 hs, (hs.isChild h p).mpr hi.2⟩
  unsettled := i.unsettled

end Promise

/-- A program that stopped in `raiseValidity` has spoiled the tree before. -/
def Spoils (e : Assertion) (t : Tree A) : Prop := e = .raiseValidity → t.RestoredFailedPop

theorem Spoils.of_ne {e : Assertion} (he : e ≠ .raiseValidity) (t : Tree A) : Spoils e t :=
  fun h => absurd h he

/-- The program does not forget that a tree is spoiled. -/
abbrev KeepsSpoiled {α : Type} (m : M (Tree A) α) : Prop :=
  Keeps (fun _ : Unit => Tree.RestoredFailedPop) (fun _ => Tree.RestoredFailedPop) m

namespace KeepsSpoiled

theorem modify {f : Tree A → Tree A} (hf : ∀ t, (f t).history = t.history) :
    KeepsSpoiled (modify f : M (Tree A) PUnit) :=
  Keeps.modify (fun _ t ht => ht.of_history (hf t))

theorem record (e : Event) : KeepsSpoiled (MonadState.modifyGet fun t => ((), t.record e) : M (Tree A) Unit) := by
  rintro _ t ⟨h, hh⟩
  exact ⟨h, List.mem_cons_of_mem _ hh⟩

theorem derefBlock (h : Hash) : KeepsSpoiled (derefBlock h : M (Tree A) (BlockIndex A)) :=
  .bind .get (fun _ => .getOrStop (fun _ _ h => h))

theorem modifyBlock (h : Hash) (f : BlockIndex A → BlockIndex A) : KeepsSpoiled (modifyBlock h f) :=
  KeepsSpoiled.modify (fun _ => rfl)

theorem check (p : Bool) (e : Assertion) : KeepsSpoiled (check p e : M (Tree A) Unit) :=
  Keeps.check (fun _ _ h => h)

theorem raiseValidity (h : Hash) (upTo : BlockStateStatus) :
    KeepsSpoiled (raiseValidity h upTo : M (Tree A) Bool) :=
  raiseValidity_keeps upTo (fun _ _ ht => ht)

theorem lowerValidity (h : Hash) (upTo : BlockStateStatus) :
    KeepsSpoiled (lowerValidity h upTo : M (Tree A) Bool) :=
  .bind (derefBlock h) (fun _ => .ite (.bind (modifyBlock h _) (fun _ => .pure _)) (.pure _))

theorem doInvalidate (h : Hash) (r : BlockValidityStatus) : KeepsSpoiled (doInvalidate h r : M (Tree A) Unit) :=
  .bind (derefBlock h) (fun _ => .bind (check _ _) (fun _ => .bind (modifyBlock h _) (fun _ =>
    KeepsSpoiled.modify (fun _ => rfl))))

variable [BlockAddon A]

theorem doReValidate (h : Hash) (r : BlockValidityStatus) : KeepsSpoiled (doReValidate h r : M (Tree A) Unit) :=
  .bind (modifyBlock h _) (fun _ => KeepsSpoiled.modify (fun _ => Tree.tryAddTip_history))

theorem flagSubtree (h prev : Hash) (r : BlockValidityStatus) :
    KeepsSpoiled (flagSubtree h prev r : M (Tree A) Unit) := by
  have hvisit : ∀ c, KeepsSpoiled (invalidateChild c : M (Tree A) Bool) :=
    fun c => .bind (derefBlock c) (fun _ => .bind (doInvalidate c _) (fun _ => .pure _))
  exact .bind (doInvalidate h r) (fun _ => .bind .get (fun t =>
    .bind (.forEach (fun c => forEachNodePreorder_keeps hvisit _ c) _) (fun _ =>
      KeepsSpoiled.modify (fun _ => Tree.tryAddTip_history))))

theorem unflagSubtree (h : Hash) (r : BlockValidityStatus) :
    KeepsSpoiled (unflagSubtree h r : M (Tree A) Unit) := by
  have hvisit : ∀ c, KeepsSpoiled (revalidateChild c : M (Tree A) Bool) :=
    fun c => .bind (doReValidate c _) (fun _ => .bind (derefBlock c) (fun _ => .pure _))
  exact .bind (doReValidate h r) (fun _ => .bind .get (fun t =>
    .forEach (fun c => forEachNodePreorder_keeps hvisit _ c) _))

theorem deleteSubtree {obr : BlockIndex A → Tree A → Tree A} (hobr : Tree.Harmless obr) (h prev : Hash) :
    KeepsSpoiled (deleteSubtree obr h prev) := by
  have hvisit : ∀ c, KeepsSpoiled (deleteLeaf obr c) :=
    fun c => .bind (derefBlock c) (fun b => .bind (KeepsSpoiled.modify (hobr.history b)) (fun _ =>
      .bind (KeepsSpoiled.modify (fun _ => rfl)) (fun _ => .bind (check _ _) (fun _ => modifyBlock c _))))
  exact .bind .get (fun t => .bind (forEachNodePostorder_keeps hvisit _ h) (fun _ =>
    KeepsSpoiled.modify (fun _ => Tree.tryAddTip_history)))

theorem insertBlockHeader {obi : Hash → Tree A → Tree A} (hobi : Quiet obi) (header : Block) :
    KeepsSpoiled (insertBlockHeader obi header) := by
  have hrestored : KeepsSpoiled (insertBlockHeader.insertRestored obi header) := by
    refine .bind ?_ (fun _ => .bind (KeepsSpoiled.modify fun _ => Tree.tryAddTip_history) (fun _ =>
      .bind (KeepsSpoiled.modify (hobi.history _)) (fun _ => .bind (raiseValidity _ _) (fun _ => .pure _))))
    exact .bind (derefBlock _) (fun _ => .bind (check _ _) (fun _ =>
      .bind (.when (record _)) (fun _ => modifyBlock _ _)))
  refine .bind (check _ _) (fun _ => .bind .get (fun t => ?_))
  split
  . exact .ite (.bind (check _ _) (fun _ => hrestored)) (.pure _)
  . refine .bind (.bind .get (fun t => .bind (.getOrStop (fun _ _ h => h)) (fun _ => ?_))) (fun _ => hrestored)
    exact KeepsSpoiled.modify (fun _ => rfl)

end KeepsSpoiled

theorem KeepsSpoiled.validateAndAddBlock {B : Type} [PowAddon B] (p : BlockTreeParams) (block : PowBlock)
    (ctx : Bool) : KeepsSpoiled (validateAndAddBlock p block ctx : M (Tree B) Bool) := by
  refine .bind .get (fun t => .ite (.pure _) ?_)
  split
  . exact .pure _
  . refine .bind (.getOrStop (fun _ _ h => h)) (fun _ => .ite (.pure _) (.bind
      (insertBlockHeader (onBlockInserted_quiet p) _) (fun _ => .bind (raiseValidity _ _) (fun _ =>
        .ite ?_ (.pure _)))))
    exact .bind (modifyBlock _ _) (fun _ => .bind (record _) (fun _ => .pure _))

variable {min : BlockStateStatus} {i : Promise A} {h p : Hash} {t t' : Tree A} {b : BlockIndex A}

namespace Tree

/-- Nothing has changed that the invariant reads. -/
structure SameCore (t t' : Tree A) : Prop where
  core : t.SameOn core t'
  tips : t'.tips = t.tips
  history : t'.history = t.history

theorem SameCore.refl (t : Tree A) : SameCore t t := ⟨.refl t, rfl, rfl⟩

theorem SameCore.trans {t'' : Tree A} (h : SameCore t t') (h' : SameCore t' t'') : SameCore t t'' :=
  ⟨h.core.trans h'.core, h'.tips.trans h.tips, h'.history.trans h.history⟩

variable [BlockAddon A]

/-- The tree satisfies its invariant, unless it is spoiled. -/
def Sane (min : BlockStateStatus) (i : Promise A) (t : Tree A) : Prop :=
  t.RestoredFailedPop ∨ t.Inv min i.unsettled ∧ i.shape t

theorem Sane.congr (ht : t.Sane min i) (hs : SameCore t t') : t'.Sane min i := by
  rcases ht with ht | ⟨ht, hi⟩
  . exact .inl (ht.of_history hs.history)
  . exact .inr ⟨ht.congr hs.core hs.tips, i.congr hi (shape_of_unfailed (unfailed_of_core hs.core))⟩

theorem Sane.spoiled (ht : t.Sane min .never) : t.RestoredFailedPop := ht.resolve_right And.right

/-- A step that is sound on its own. -/
theorem Sane.map {i' : Promise A} (ht : t.Sane min i) (hh : t'.history = t.history)
    (hs : t.Inv min i.unsettled → i.shape t → t'.Inv min i'.unsettled ∧ i'.shape t') : t'.Sane min i' := by
  rcases ht with ht | ⟨ht, hi⟩
  . exact .inl (ht.of_history hh)
  . exact .inr (hs ht hi)

theorem Sane.tryAddTip (ht : t.Sane min i) : (t.tryAddTip h).Sane min i :=
  ht.map tryAddTip_history (fun ht hi => ⟨ht.tryAddTip, i.congr hi (.of_blocks_eq tryAddTip_blocks)⟩)

/-- A block that can not be a tip is settled. -/
theorem Sane.settle (ht : t.Sane min (i.unsettle h)) (hh : ¬t.Live h) : t.Sane min i :=
  ht.imp_right (fun ht => ⟨ht.1.settle hh, ht.2⟩)

theorem Sane.unsettle (ht : t.Sane min i) (h : Hash) : t.Sane min (i.unsettle h) :=
  ht.imp_right (fun ht => ⟨ht.1.mono (List.subset_cons_self h _), ht.2⟩)

theorem Sane.child (ht : t.Sane min i) (hb : t.find? h = some b) (hp : b.pprev = some p) :
    t.Sane min (i.child h p) :=
  ht.imp_right (fun ht => ⟨ht.1, ht.2, b, hb, hp⟩)

theorem Sane.parent (ht : t.Sane min (i.child h p)) : t.Sane min i :=
  ht.imp_right (fun ht => ⟨ht.1, ht.2.1⟩)

/-- A program on a tree that is not spoiled, and that may have been. -/
theorem Sane.wp {α : Type} {m : M (Tree A) α} {Q : α → Tree A → Prop} (ht : t.Sane min i)
    (hr : KeepsSpoiled m) (hQ : ∀ a t', t'.RestoredFailedPop → Q a t')
    (hm : t.Inv min i.unsettled → i.shape t → wp m Q Spoils t) : wp m Q Spoils t := by
  rcases ht with ht | ⟨ht, hi⟩
  . exact wp_mono (hr () t ht) hQ (fun _ _ hr _ => hr)
  . exact hm ht hi

end Tree

section Programs

variable [BlockAddon A] {r : BlockValidityStatus}

theorem flagSubtree_sane (ht : t.Sane min ((i.child h p).unsettle h)) (hr : isValidInvalidationReason r = true) :
    wp (flagSubtree h p r) (fun _ t' => t'.Sane min i) Spoils t := by
  refine ht.wp (.flagSubtree h p r) (fun _ _ => .inl) ?_
  rintro ht ⟨hi, b, hb, hp⟩
  by_cases hE : b.isValidUpTo .canBeApplied = true → r ≠ .failedPop
  . refine wp_mono (Tree.flagSubtree_spec ht hb hp hr hE) ?_ (fun _ _ h => h)
    rintro _ t' ⟨ht', hs, _⟩
    exact .inr ⟨ht', i.congr hi (Tree.shape_of_unfailed hs)⟩
  . push Not at hE
    simp only [flagSubtree, doInvalidate, wp_bind, wp_derefBlock hb, wp_check, hE]
    exact ⟨fun h => by simp at h, fun _ => .of_ne (by decide) t⟩

theorem unflagSubtree_sane (ht : t.Sane min i) (hr : isValidInvalidationReason r = true)
    (hb : t.find? h = some b) (hbr : b.hasFlags r = true)
    (hclear : (b.status.assign false r).isFailed = false) :
    wp (unflagSubtree h r) (fun _ t' => t'.Sane min i ∧ (t'.RestoredFailedPop ∨ t.SameOn unfailed t'))
      Spoils t := by
  refine ht.wp (.unflagSubtree h r) (fun _ _ hr => ⟨.inl hr, .inl hr⟩) ?_
  intro ht hi
  refine wp_mono (Tree.unflagSubtree_spec ht hb hr hbr hclear) ?_ (fun _ _ h => h)
  rintro _ t' ⟨ht', hs, _⟩
  exact ⟨.inr ⟨ht', i.congr hi (Tree.shape_of_unfailed hs)⟩, .inr hs⟩

theorem deleteSubtree_sane {obr : BlockIndex A → Tree A → Tree A} (hobr : Tree.Harmless obr)
    (ht : t.Sane min (i.child h p)) :
    wp (deleteSubtree obr h p) (fun _ t' => t'.Sane min i) Spoils t := by
  refine ht.wp (.deleteSubtree hobr h p) (fun _ _ => .inl) ?_
  rintro ht ⟨hi, hc⟩
  refine wp_mono (Tree.deleteSubtree_spec ht hobr (.of_ne (by decide)) hc) ?_ (fun _ _ h => h)
  rintro _ t' ⟨ht', hs, _⟩
  exact .inr ⟨ht', i.congr hi hs⟩

/-- `doInvalidate` of a block that is failed already. -/
theorem doInvalidate_sane (ht : t.Sane min i) (hb : t.find? h = some b)
    (hbf : t.RestoredFailedPop ∨ b.isFailed = true) (hr : isValidInvalidationReason r = true) :
    wp (doInvalidate h r) (fun _ t' => t'.Sane min i) Spoils t := by
  simp only [doInvalidate, wp_bind, wp_derefBlock hb, wp_check, wp_modifyBlock, wp_modify]
  refine ⟨fun _ => ?_, fun _ => .of_ne (by decide) t⟩
  rcases hbf with hs | hbf
  . exact .inl (hs.of_history rfl)
  . refine ht.map rfl (fun ht hi => ⟨ht.doInvalidate hb hbf hr, ?_⟩)
    exact i.congr hi ((Tree.SameShape.update t h (keepsShape_setFlag r)).eraseTip h)

/-- `doReValidate` of a block that stays failed. -/
theorem doReValidate_sane (ht : t.Sane min i) (hb : t.find? h = some b)
    (hbf : (b.status.assign false r).isFailed = true) (hr : isValidInvalidationReason r = true) :
    wp (doReValidate h r) (fun _ t' => t'.Sane min i ∧ t.SameOn unfailed t') Spoils t := by
  rw [wp_doReValidate]
  have hsame : t.SameOn unfailed ((t.update h (fun b => b.unsetFlag r)).tryAddTip h) :=
    (Tree.SameOn.update t h (fun b _ => unfailed_unsetFlag b (isFailure_of_valid hr))).tryAddTip h
  refine ⟨ht.map Tree.tryAddTip_history (fun ht hi => ⟨ht.doReValidate hb hbf hr, ?_⟩), hsame⟩
  exact i.congr hi (Tree.shape_of_unfailed hsame)

end Programs

section PoW

variable {B : Type} [PowAddon B] {t : Tree B} {U : List Hash} {block : PowBlock}

end PoW

end AltIntegration
