import AltIntegration.Blockchain.BlockTree
import AltIntegration.Blockchain.Lemmas.Blocks

/-!
This module contains what the insertion of a header does to the invariant of the tree: a new block
is created as a deleted leaf, and a deleted block is restored.
-/

namespace AltIntegration

open Program BlockIndex

variable {A : Type} [BlockAddon A]

/-- A block that has been restored, with its first level. -/
def BlockIndex.restored (b : BlockIndex A) : BlockIndex A := (b.unsetFlag .deleted).setLevel .validTree

namespace Tree

variable {t : Tree A} {min : BlockStateStatus} {U : List Hash} {h x c : Hash} {b : BlockIndex A}

section Create

variable {header : Block} {prev : BlockIndex A}

theorem find?_createBlockIndex : (t.createBlockIndex header prev).find? x =
    if header.hash = x then some (.create header prev) else t.find? x :=
  Store.find?_insert _ _ _ _

/-- The blocks that are there stay. -/
theorem find?_createBlockIndex_of_some (hnew : t.find? header.hash = none) (hb : t.find? x = some b) :
    (t.createBlockIndex header prev).find? x = some b := by
  rw [find?_createBlockIndex, if_neg]
  . exact hb
  . intro heq
    rw [heq, hb] at hnew
    cases hnew

/-- A block of the new tree is the new one, or it was there. -/
theorem find?_createBlockIndex_cases (hb : (t.createBlockIndex header prev).find? x = some b) :
    (x = header.hash ∧ b = .create header prev) ∨ t.find? x = some b := by
  rw [find?_createBlockIndex] at hb
  split at hb
  . next heq => exact .inl ⟨heq.symm, (Option.some.inj hb).symm⟩
  . exact .inr hb

theorem live_createBlockIndex (hnew : t.find? header.hash = none) :
    (t.createBlockIndex header prev).Live x ↔ t.Live x := by
  constructor
  . rintro ⟨b, hb, hl⟩
    rcases find?_createBlockIndex_cases hb with ⟨_, rfl⟩ | hb
    . cases hl
    . exact ⟨b, hb, hl⟩
  . rintro ⟨b, hb, hl⟩
    exact ⟨b, find?_createBlockIndex_of_some hnew hb, hl⟩

theorem WF.create (ht : t.WF) (hnew : t.find? header.hash = none)
    (hprev : t.find? header.previousBlock = some prev) : (t.createBlockIndex header prev).WF := by
  have hhash := ht.hash hprev
  refine ⟨?_, ?_, ?_, ?_⟩
  . have hmem := (Store.find?_eq_none_iff t.blocks header.hash).mp hnew
    exact List.nodup_cons.mpr ⟨hmem, ht.nodup⟩
  . intro x b hb
    rcases find?_createBlockIndex_cases hb with ⟨rfl, rfl⟩ | hb
    . rfl
    . exact ht.hash hb
  . intro x b p hb hp
    rcases find?_createBlockIndex_cases hb with ⟨rfl, rfl⟩ | hb
    . rw [← Option.some.inj hp, hhash]
      rfl
    . exact ht.prev hb hp
  . intro x b p hb hp
    rcases find?_createBlockIndex_cases hb with ⟨rfl, rfl⟩ | hb
    . rw [← Option.some.inj hp, hhash]
      exact ⟨prev, find?_createBlockIndex_of_some hnew hprev, rfl⟩
    . obtain ⟨bp, hbp, hh⟩ := ht.parent hb hp
      exact ⟨bp, find?_createBlockIndex_of_some hnew hbp, hh⟩

/-- What holds of every edge holds of the edges of the new tree, if it holds of the new one. -/
theorem Edges.create {R : Hash → BlockIndex A → BlockIndex A → Prop} (ht : t.Edges R) (hwf : t.WF)
    (hnew : t.find? header.hash = none) (hprev : t.find? header.previousBlock = some prev)
    (hR : R header.hash (.create header prev) prev) : (t.createBlockIndex header prev).Edges R := by
  intro x b p bp hb hp hbp
  rcases find?_createBlockIndex_cases hb with ⟨rfl, rfl⟩ | hb
  . rw [← Option.some.inj hp, hwf.hash hprev, find?_createBlockIndex_of_some hnew hprev] at hbp
    rw [← Option.some.inj hbp]
    exact hR
  . obtain ⟨bp', hbp', _⟩ := hwf.parent hb hp
    rw [find?_createBlockIndex_of_some hnew hbp'] at hbp
    exact ht hb hp (hbp'.trans hbp)

/-- A created block is deleted, so nothing but its edge is new. -/
theorem Inv.create (ht : t.Inv min U) (hnew : t.find? header.hash = none)
    (hprev : t.find? header.previousBlock = some prev) : (t.createBlockIndex header prev).Inv min U := by
  refine ⟨ht.wf.create hnew hprev, ?_, ?_, ?_, ?_, ?_⟩
  . intro x b hb
    rcases find?_createBlockIndex_cases hb with ⟨rfl, rfl⟩ | hb
    . exact ⟨fun _ => rfl, (by cases ·), (by cases ·), (by cases ·), fun _ => rfl⟩
    . exact ht.nodes hb
  . exact ht.levels.create ht.wf hnew hprev ⟨fun _ => rfl, BlockStateStatus.validUnknown_le _⟩
  . exact ht.flags.create ht.wf hnew hprev ⟨fun hx => by simp at hx, fun _ => rfl⟩
  . intro x hx
    obtain ⟨hl, hc⟩ := ht.sound x hx
    refine ⟨(live_createBlockIndex hnew).mpr hl, ?_⟩
    rintro c ⟨b, hb, hp⟩ hcU hlc
    rcases find?_createBlockIndex_cases hb with ⟨rfl, rfl⟩ | hb
    . obtain ⟨b', hb', _⟩ := (live_createBlockIndex hnew).mp hlc
      rw [hnew] at hb'
      cases hb'
    . exact hc c ⟨b, hb, hp⟩ hcU ((live_createBlockIndex hnew).mp hlc)
  . intro x hx hn
    refine ht.complete x ((live_createBlockIndex hnew).mp hx) ?_
    rintro c ⟨b, hb, hp⟩ hlc
    exact hn c ⟨b, find?_createBlockIndex_of_some hnew hb, hp⟩ ((live_createBlockIndex hnew).mpr hlc)

end Create

section Restore

variable {t' : Tree A} {f g : BlockIndex A → BlockIndex A}

omit [BlockAddon A] in
theorem update_update : (t.update h f).update h g = t.update h (fun b => g (f b)) := by
  simp only [Tree.update, Store.modify, List.map_map]
  congr 2
  apply List.map_congr_left
  intro e _
  simp only [Function.comp_apply]
  split
  . next heq => simp [heq]
  . rfl

omit [BlockAddon A] in
theorem SameOn.update_both {γ : Type} {k : BlockIndex A → γ} (hs : SameOn k t t')
    (hf : ∀ b b', k b = k b' → k (f b) = k (f b')) : SameOn k (t.update h f) (t'.update h f) := by
  refine ⟨?_, fun x => ?_⟩
  . exact (Store.keys_modify _ _ _).trans (hs.keys.trans (Store.keys_modify _ _ _).symm)
  . rw [find?_update, find?_update]
    split
    . have hx := hs.same x
      cases hb' : t'.find? x with
      | none =>
        rw [hb'] at hx
        cases hb : t.find? x with
        | none => rfl
        | some b => simp [hb] at hx
      | some b' =>
        obtain ⟨b, hb, heq⟩ := hs.find? hb'
        rw [hb]
        simp [hf b b' heq]
    . exact hs.same x

omit [BlockAddon A] in
theorem restored_status (b : BlockIndex A) : b.restored.status =
    { b.status with deleted := false, level := .validTree } := by
  simp only [restored, setLevel, unsetFlag_status]
  rfl

omit [BlockAddon A] in
theorem keepsShape_restored : KeepsShape (fun b : BlockIndex A => b.restored) :=
  fun b => keepsShape_unsetFlag .deleted b

/-- The state of a tree right after the block `h` has been inserted. -/
structure Fresh (min : BlockStateStatus) (U : List Hash) (h : Hash) (t : Tree A) : Prop where
  inv : t.Inv .validTree (h :: U)
  nodes : t.Nodes (NodeOk min [h])
  childless : t.NoLiveChild h
  level : t.At (fun b => b.status.level = .validTree ∧ b.status.deleted = false ∧
    b.status.failedPop = false) h

theorem Inv.toValidTree (ht : t.Inv min U) : t.Inv .validTree U :=
  { ht with
    nodes := fun _ _ hb =>
      ⟨(ht.nodes hb).deleted, (ht.nodes hb).validTree, fun hd _ => (ht.nodes hb).validTree hd,
        (ht.nodes hb).active, (ht.nodes hb).payloads⟩ }

omit [BlockAddon A] in
theorem NodeOk.restored {min' : BlockStateStatus} {low : List Hash} (hok : NodeOk min' [] h b)
    (hd : b.status.deleted = true) (hlow : h ∉ low → min ≤ .validTree) : NodeOk min low h b.restored := by
  constructor
  all_goals rw [restored_status]
  . exact (by cases ·)
  . exact fun _ => BlockStateStatus.le_refl _
  . exact fun _ => hlow
  . intro ha
    have hlevel := hok.active ha
    rw [hok.deleted hd] at hlevel
    exact absurd hlevel (by decide)
  . exact (by cases ·)

/-- A deleted block is inserted again. -/
theorem Inv.restore (ht : t.Inv min U) (hb : t.find? h = some b) (hd : b.status.deleted = true)
    (hf : b.status.failedPop = false)
    (hparent : ∀ p bp, b.pprev = some p → t.find? p = some bp → bp.status.deleted = false) :
    (t.update h (fun b => b.restored)).Fresh min U h := by
  have hself : ∀ b', t.find? h = some b' → b' = b := by
    intro b' hb'
    rw [hb] at hb'
    exact (Option.some.inj hb').symm
  have hdead : ∀ b', t.find? h = some b' → b'.canBeATip = true → b'.restored.canBeATip = true := by
    intro b' hb' hl
    rw [hself b' hb'] at hl
    simp [canBeATip, isDeleted, hasFlags, BlockStatus.hasFlags, hd] at hl
  have hchild : ∀ x bx, t.find? x = some bx → bx.pprev = some h → bx.status.deleted = true :=
    fun x bx hbx hpx => (ht.levels hbx hpx hb).deleted hd
  refine ⟨⟨?_, ?_, ?_, ?_, ?_, ?_⟩, ?_, ?_, ?_⟩
  . exact ht.wf.congr (SameShape.update t h keepsShape_restored)
  . refine ht.toValidTree.nodes.update ?_ (fun _ _ _ _ hb => hb)
    intro b' hb' hok
    rw [hself b' hb'] at hok ⊢
    exact hok.restored hd (fun _ => BlockStateStatus.le_refl _)
  . refine ht.levels.update ht.wf keepsShape_restored ?_ ?_ (fun _ _ _ _ _ _ h => h)
    . intro b' p bp hb' hp hbp _
      rw [hself b' hb'] at hp ⊢
      have hdp := hparent p bp hp hbp
      refine ⟨fun hd' => ?_, ?_⟩
      . rw [hdp] at hd'
        cases hd'
      . rw [restored_status]
        exact (ht.nodes hbp).validTree hdp
    . intro x bx bp hbx hpx _ _
      refine ⟨fun _ => hchild x bx hbx hpx, ?_⟩
      rw [(ht.nodes hbx).deleted (hchild x bx hbx hpx)]
      exact BlockStateStatus.validUnknown_le _
  . refine ht.flags.update ht.wf keepsShape_restored ?_ ?_ (fun _ _ _ _ _ _ h => h)
    . intro b' p bp _ _ _ hok
      refine ⟨hok.pending, ?_⟩
      rw [restored_status]
      exact hok.inherited
    . intro x bx bp _ _ _ hok
      have hfail : bp.restored.isFailed = bp.isFailed := by
        rw [BlockIndex.isFailed, restored_status]
        rfl
      exact ⟨hfail ▸ hok.pending, hfail ▸ hok.inherited⟩
  . exact ht.sound.revive keepsShape_restored hdead
  . exact ht.complete.revive keepsShape_restored hdead
  . refine ht.nodes.update ?_ ?_
    . intro b' hb' hok
      rw [hself b' hb'] at hok ⊢
      exact hok.restored hd (fun hn => absurd (List.mem_singleton.mpr rfl) hn)
    . intro x bx _ _ hok
      exact ⟨hok.deleted, hok.validTree, fun hd' _ => hok.level hd' (by simp), hok.active, hok.payloads⟩
  . intro x hx hl
    obtain ⟨bx, hbx, hpx⟩ := ((SameShape.update t h keepsShape_restored).isChild x h).mp hx
    have hxh : x ≠ h := (ht.wf.ne_parent hbx hpx).symm
    obtain ⟨bx', hbx', hl⟩ := (live_update_of_ne hxh).mp hl
    rw [hbx] at hbx'
    cases hbx'
    have hdx := hchild x bx hbx hpx
    simp [canBeATip, isDeleted, hasFlags, BlockStatus.hasFlags, hdx] at hl
  . refine ⟨b.restored, ?_, ?_⟩
    . rw [find?_update_self, hb]
      rfl
    . simp only [restored_status]
      exact ⟨trivial, trivial, hf⟩

theorem Fresh.congr {t' : Tree A} (ht : t.Fresh min U h) (hs : SameOn core t t') (htips : t'.tips = t.tips) :
    t'.Fresh min U h where
  inv := ht.inv.congr hs htips
  nodes := nodes_congr (unfailed_of_core hs) ht.nodes
  childless := by
    have hsame := sameTips_of_core hs htips
    intro c hc hl
    exact ht.childless c ((hsame.child c h).mp hc) ((hsame.live c).mp hl)
  level := by
    obtain ⟨b, hb, hlevel⟩ := ht.level
    obtain ⟨b', hb', heq⟩ := hs.symm.find? hb
    refine ⟨b', hb', ?_⟩
    simp only [(core_eq_iff.mp heq).2]
    exact hlevel

end Restore

end Tree

section Insert

variable {t : Tree A} {min : BlockStateStatus} {U : List Hash} {b : BlockIndex A} {header : Block}
  {obi : Hash → Tree A → Tree A} {E : Assertion → Tree A → Prop}

omit [BlockAddon A] in
theorem Tree.RestoredFailedPop.of_history {t' : Tree A} (ht : t.RestoredFailedPop)
    (hh : t'.history = t.history) : t'.RestoredFailedPop := by
  unfold Tree.RestoredFailedPop
  rw [hh]
  exact ht

omit [BlockAddon A] in
theorem raiseValidity_keeps {I : Tree A → Prop} {h : Hash} (upTo : BlockStateStatus)
    (hI : ∀ t l, I t → I (t.update h (fun b => b.setLevel l))) :
    Keeps (fun _ : Unit => I) (fun _ => I) (raiseValidity h upTo) := by
  have hderef : ∀ x, Keeps (fun _ : Unit => I) (fun _ => I) (derefBlock x : M (Tree A) (BlockIndex A)) :=
    fun x => .bind .get (fun _ => .getOrStop (fun _ _ h => h))
  refine .bind (hderef h) (fun b => .ite (.pure _) (.ite (.bind ?_ fun _ => .bind ?_ fun _ => .pure _) (.pure _)))
  . unfold raiseValidity.assertAncestorLevel
    split
    . exact .pure _
    . exact .bind (hderef _) (fun _ => .check (fun _ _ h => h))
  . exact .modify (fun _ t ht => hI t upTo ht)

/-- What `onBlockInserted` leaves alone. -/
structure Quiet (obi : Hash → Tree A → Tree A) : Prop where
  core : ∀ h (t : Tree A), t.SameOn core (obi h t)
  tips : ∀ h t, (obi h t).tips = t.tips
  history : ∀ h t, (obi h t).history = t.history

/-- What the insertion of the header of a deleted block has done. -/
structure Tree.Restored (min : BlockStateStatus) (U : List Hash) (h : Hash) (t t' : Tree A) : Prop where
  shape : t.SameShape t'
  frame : ∀ x, x ≠ h → (t'.find? x).map core = (t.find? x).map core
  fresh : t'.RestoredFailedPop ∨ t'.Fresh min U h ∧ t'.history = t.history

/-- A block that has just been restored has no level yet, so it is no tip. -/
theorem Tree.tryAddTip_unset {h : Hash} (ht : t.Inv min U) (htip : .validTree ≤ BlockAddon.validTipLevel A)
    (hb : t.find? h = some b) (hd : b.status.deleted = true) (t1 : Tree A) (ht1 : t1.blocks = t.blocks) :
    (t1.update h (fun b => b.unsetFlag .deleted)).tryAddTip h =
      t1.update h (fun b => b.unsetFlag .deleted) := by
  apply tryAddTip_of_not_valid
  have hb1 : (t1.update h (fun b => b.unsetFlag .deleted)).find? h = some (b.unsetFlag .deleted) := by
    have hfind : t1.find? h = t.find? h := by
      unfold Tree.find?
      rw [ht1]
    rw [Tree.find?_update_self, hfind, hb]
    rfl
  have hlevel : (b.unsetFlag .deleted).status.level = .validUnknown := by
    rw [unsetFlag_status]
    exact (ht.nodes hb).deleted hd
  have hv : ¬BlockAddon.validTipLevel A ≤ .validUnknown := by
    intro hle
    exact absurd (BlockStateStatus.le_trans htip hle) (by decide)
  simp [isValidTip, hb1, canBeATip, isValid, isValidUpTo, hlevel, hv]

/-- The last step of an insertion gives the block its level, unless it carries `BLOCK_FAILED_POP`. -/
theorem raiseRestored_spec {h : Hash} {t2 : Tree A} (ht : t.Inv min U) (hb : t.find? h = some b)
    (hd : b.status.deleted = true)
    (hparent : ∀ p bp, b.pprev = some p → t.find? p = some bp → bp.status.deleted = false)
    (hcore : (t.update h (fun b => b.unsetFlag .deleted)).SameOn core t2) (htips : t2.tips = t.tips)
    (hrec : b.status.failedPop = true → t2.RestoredFailedPop)
    (hhist : b.status.failedPop = false → t2.history = t.history) :
    wp (raiseValidity h .validTree) (fun _ t' => t.Restored min U h t') E t2 := by
  have hshape : t.SameShape t2 := (Tree.SameShape.update t h (keepsShape_unsetFlag _)).trans
    (Tree.shape_of_unfailed (Tree.unfailed_of_core hcore))
  have hb1 : (t.update h (fun b => b.unsetFlag .deleted)).find? h = some (b.unsetFlag .deleted) := by
    rw [Tree.find?_update_self, hb]
    rfl
  obtain ⟨b2, hb2, heq⟩ := hcore.symm.find? hb1
  have hst : b2.status = { b.status with deleted := false } := by
    rw [(core_eq_iff.mp heq).2, unsetFlag_status]
    rfl
  have hframe : ∀ x, x ≠ h → (t2.find? x).map core = (t.find? x).map core := by
    intro x hx
    rw [hcore.same x, Tree.find?_update_of_ne hx.symm]
  have hpprev : b2.pprev = b.pprev :=
    (shape_eq_iff.mp (core_eq_iff.mp heq).1).2.1.trans ((keepsShape_unsetFlag .deleted).pprev b)
  -- the parent is not deleted, so it has a level
  have hlevel : ∀ p bp, b2.pprev = some p → t2.find? p = some bp → .validTree ≤ bp.status.level := by
    intro p bp2 hp hbp2
    rw [hpprev] at hp
    obtain ⟨bp, hbp, heqp⟩ := hcore.find? hbp2
    rw [Tree.find?_update_of_ne (ht.wf.ne_parent hb hp).symm] at hbp
    rw [← (core_eq_iff.mp heqp).2]
    exact (ht.nodes hbp).validTree (hparent p bp hp hbp)
  refine wp_raiseValidity (ht.wf.congr hshape) hb2 ?_ ?_ ?_
  . intro hsame
    rw [hst] at hsame
    rcases hsame with hf | hl
    . exact ⟨hshape, hframe, .inl (hrec hf)⟩
    . rw [(ht.nodes hb).deleted hd] at hl
      exact absurd hl (by decide)
  . intro hf _ _
    rw [hst] at hf
    have hupd : (t.update h (fun b => b.restored)).SameOn core (t2.update h (fun b => b.setLevel .validTree)) := by
      have hboth := Tree.SameOn.update_both (h := h) hcore (f := fun b => b.setLevel .validTree)
        (fun b b' heq => core_eq_iff.mpr ⟨(core_eq_iff.mp heq).1, by
          simp only [setLevel, (core_eq_iff.mp heq).2]⟩)
      rw [Tree.update_update] at hboth
      exact hboth
    refine ⟨hshape.trans (Tree.SameShape.update t2 h (keepsShape_setLevel _)), ?_,
      .inr ⟨(ht.restore hb hd hf hparent).congr hupd htips, hhist hf⟩⟩
    intro x hx
    rw [Tree.find?_update_of_ne hx.symm]
    exact hframe x hx
  . intro p bp _ hp hbp hn
    exact absurd (hlevel p bp hp hbp) hn

theorem insertRestored_spec (ht : t.Inv min U) (htip : .validTree ≤ BlockAddon.validTipLevel A)
    (hobi : Quiet obi) (hb : t.find? header.hash = some b) (hd : b.status.deleted = true)
    (hparent : ∀ p bp, b.pprev = some p → t.find? p = some bp → bp.status.deleted = false) :
    wp (insertBlockHeader.insertRestored obi header) (fun _ t' => t.Restored min U header.hash t') E t := by
  have hd' : b.isDeleted = true := hd
  simp only [insertBlockHeader.insertRestored, restore, wp_bind, wp_derefBlock hb, wp_check, hd', wp_when,
    wp_modify, wp_modifyBlock, wp_pure, true_implies, reduceCtorEq, false_implies, and_true]
  constructor
  . intro hf
    rw [Tree.tryAddTip_unset ht htip hb hd (t.record _) rfl]
    refine raiseRestored_spec ht hb hd hparent ?_ ?_ ?_ ?_
    . have hsame : (t.update header.hash (fun b => b.unsetFlag .deleted)).SameOn core
          ((t.record (.restoredFailedPop header.hash)).update header.hash (fun b => b.unsetFlag .deleted)) :=
        .of_blocks_eq rfl
      exact hsame.trans (hobi.core _ _)
    . exact hobi.tips _ _
    . intro _
      refine Tree.RestoredFailedPop.of_history ?_ (hobi.history _ _)
      exact ⟨header.hash, List.mem_cons_self⟩
    . intro hf'
      rw [hasFlags, BlockStatus.hasFlags, hf'] at hf
      cases hf
  . intro hf
    rw [Tree.tryAddTip_unset ht htip hb hd t rfl]
    refine raiseRestored_spec ht hb hd hparent (hobi.core _ _) (hobi.tips _ _) ?_ ?_
    . intro hf'
      rw [hasFlags, BlockStatus.hasFlags, hf'] at hf
      cases hf
    . exact fun _ => hobi.history _ _

/-- `t'` has the blocks of `t`, and maybe the block `header`. -/
def Tree.Grows (header : Block) (t t' : Tree A) : Prop :=
  t.SameShape t' ∨ ∃ prev, t.find? header.hash = none ∧ t.find? header.previousBlock = some prev ∧
    (t.createBlockIndex header prev).SameShape t'

/-- What the insertion of a header has done. -/
structure Tree.Inserted (min : BlockStateStatus) (U : List Hash) (header : Block) (t t' : Tree A) : Prop where
  grows : t.Grows header t'
  frame : ∀ x, x ≠ header.hash → (t'.find? x).map core = (t.find? x).map core
  fresh : t'.RestoredFailedPop ∨ t'.Fresh min U header.hash ∧ t'.history = t.history

omit [BlockAddon A] in
theorem Tree.getBlockIndex_eq_some {h : Hash} :
    t.getBlockIndex h = some b ↔ t.find? h = some b ∧ b.status.deleted = false := by
  simp [getBlockIndex, Option.filter_eq_some_iff, isDeleted, hasFlags, BlockStatus.hasFlags]

theorem insertBlockHeader_spec {prev : BlockIndex A} (ht : t.Inv min U)
    (htip : .validTree ≤ BlockAddon.validTipLevel A) (hobi : Quiet obi)
    (hprev : t.getBlockIndex header.previousBlock = some prev)
    (hE : ∀ e t', e ≠ .raiseValidity → E e t') :
    wp (insertBlockHeader obi header)
      (fun _ t' => t.Inserted min U header t' ∨
        t' = t ∧ t.At (fun b => b.status.deleted = false) header.hash) E t := by
  obtain ⟨hfp, hdp⟩ := Tree.getBlockIndex_eq_some.mp hprev
  simp only [insertBlockHeader, wp_bind, wp_check, wp_get]
  refine ⟨fun _ => ?_, fun _ => hE _ _ (by decide)⟩
  split
  . next current hc =>
    rw [wp_ite]
    refine ⟨fun hd => ?_, fun hd => .inr ⟨rfl, current, hc, (Bool.not_eq_true _).mp hd⟩⟩
    simp only [wp_bind, wp_check, decide_eq_true_eq, decide_eq_false_iff_not]
    refine ⟨fun heq => ?_, fun _ => hE _ _ (by decide)⟩
    refine wp_mono (insertRestored_spec ht htip hobi hc hd ?_) ?_ (fun _ _ h => h)
    . intro p bp hp hbp
      have hpp := ht.wf.prev hc hp
      rw [← heq] at hpp
      rw [← hpp, hfp] at hbp
      rw [← Option.some.inj hbp]
      exact hdp
    . intro _ t' hr
      exact .inl ⟨.inl hr.shape, hr.frame, hr.fresh⟩
  . next hnew =>
    simp only [wp_bind, doInsertBlockHeader, wp_get, hprev, wp_getOrStop, Option.some.injEq, wp_modify,
      reduceCtorEq, false_implies, and_true]
    rintro _ rfl
    refine wp_mono (insertRestored_spec (ht.create hnew hfp) htip hobi
      (b := .create header prev) ?_ rfl ?_) ?_ (fun _ _ h => h)
    . rw [Tree.find?_createBlockIndex, if_pos rfl]
    . intro p bp hp hbp
      rw [← Option.some.inj hp, ht.wf.hash hfp, Tree.find?_createBlockIndex_of_some hnew hfp] at hbp
      rw [← Option.some.inj hbp]
      exact hdp
    . intro _ t' hr
      refine .inl ⟨.inr ⟨prev, hnew, hfp, hr.shape⟩, ?_, hr.fresh⟩
      intro x hx
      rw [hr.frame x hx, Tree.find?_createBlockIndex, if_neg hx.symm]

end Insert

namespace Tree

variable {t t' : Tree A} {min : BlockStateStatus} {U : List Hash} {h : Hash} {b : BlockIndex A}

/-- The headers of a proof-of-work tree determine their hashes, and no block has a smaller hash than the root. -/
structure PowShape (t : Tree A) : Prop where
  header : ∀ {x b}, t.find? x = some b → ∃ block : PowBlock, b.header = block.toBlock
  root : ∀ {x b y c}, t.find? x = some b → b.pprev = none → t.find? y = some c → x ≤ y

omit [BlockAddon A] in
theorem PowShape.congr (ht : t.PowShape) (hs : t.SameShape t') : t'.PowShape := by
  refine ⟨fun {x b'} hb' => ?_, fun {x b' y c'} hb' hp hc' => ?_⟩
  . obtain ⟨b, hb, heq⟩ := hs.find? hb'
    obtain ⟨block, hblock⟩ := ht.header hb
    exact ⟨block, (shape_eq_iff.mp heq).1 ▸ hblock⟩
  . obtain ⟨b, hb, heq⟩ := hs.find? hb'
    obtain ⟨c, hc, _⟩ := hs.find? hc'
    exact ht.root hb ((shape_eq_iff.mp heq).2.1.trans hp) hc

theorem previousBlock_lt_getHash (block : PowBlock) : block.previousBlock < block.getHash :=
  Nat.lt_succ_of_le (Nat.left_le_pair _ _)

theorem PowShape.create {block : PowBlock} {prev : BlockIndex A} (ht : t.PowShape)
    (hprev : t.find? block.toBlock.previousBlock = some prev) :
    (t.createBlockIndex block.toBlock prev).PowShape := by
  refine ⟨fun {x b} hb => ?_, fun {x b y c} hb hp hc => ?_⟩
  . rcases find?_createBlockIndex_cases hb with ⟨_, rfl⟩ | hb
    . exact ⟨block, rfl⟩
    . exact ht.header hb
  . rcases find?_createBlockIndex_cases hb with ⟨_, rfl⟩ | hb
    . cases hp
    . rcases find?_createBlockIndex_cases hc with ⟨rfl, _⟩ | hc
      . exact Nat.le_trans (ht.root hb hp hprev) (Nat.le_of_lt (previousBlock_lt_getHash block))
      . exact ht.root hb hp hc

theorem PowShape.grows {block : PowBlock} (ht : t.PowShape) (hg : t.Grows block.toBlock t') : t'.PowShape := by
  rcases hg with hs | ⟨prev, _, hprev, hs⟩
  . exact ht.congr hs
  . exact (ht.create hprev).congr hs

omit [BlockAddon A] in
/-- A block is found by its hash, and so is its parent. -/
theorem PowShape.pprev {block : PowBlock} {prev : BlockIndex A} (ht : t.PowShape) (hwf : t.WF)
    (hb : t.find? block.getHash = some b) (hprev : t.find? block.previousBlock = some prev) :
    b.pprev = some block.previousBlock := by
  cases hp : b.pprev with
  | none =>
    have hle := ht.root hb hp hprev
    exact absurd hle (Nat.not_le_of_lt (previousBlock_lt_getHash block))
  | some p =>
    obtain ⟨block', hblock'⟩ := ht.header hb
    have hhash := hwf.hash hb
    have hpp := hwf.prev hb hp
    rw [hblock'] at hhash hpp
    rw [PowBlock.getHash_injective hhash] at hpp
    rw [← hpp]
    rfl

/-- The block `h` has been added, and is settled as a tip or about to be. -/
def Settles (U : List Hash) (h : Hash) (t : Tree A) : Prop :=
  t.Inv .connected U ∨ t.Inv .connected (h :: U) ∧ t.NoLiveChild h

theorem Settles.tryAddTip (ht : t.Settles U h) : (t.tryAddTip h).Inv .connected U := by
  rcases ht with ht | ⟨ht, hc⟩
  . exact ht.tryAddTip
  . exact ht.tryAddTip_unsettled (fun _ => hc)

theorem Settles.inv (ht : t.Settles U h) : t.Inv .connected (h :: U) := by
  rcases ht with ht | ⟨ht, _⟩
  . exact ht.mono (List.subset_cons_self h U)
  . exact ht

/-- A block that can not be a tip is settled. -/
theorem Inv.settle (ht : t.Inv min (h :: U)) (hh : ¬t.Live h) : t.Inv min U :=
  { ht with sound := ht.sound.settle hh, complete := ht.complete.settle hh }

theorem Fresh.raise (ht : t.Fresh .connected U h)
    (hparent : ∀ b p bp, t.find? h = some b → b.pprev = some p → t.find? p = some bp →
      .connected ≤ bp.status.level) :
    (t.update h (fun b => b.setLevel .connected)).Settles U h := by
  obtain ⟨b, hb, hlevel, hd, _⟩ := ht.level
  have hinv := ht.inv.raise (l := .connected) hb hd (by rw [hlevel]; decide)
    (fun p bp hp hbp => hparent b p bp hb hp hbp)
  have hsub : h :: h :: U ⊆ h :: U := by simp
  refine .inr ⟨{ hinv.mono hsub with nodes := ?_ }, ?_⟩
  . intro x b' hb'
    rw [find?_update] at hb'
    have hok := hinv.nodes (x := x) (b := b') (by rw [find?_update]; exact hb')
    refine ⟨hok.deleted, hok.validTree, fun hd' _ => ?_, hok.active, hok.payloads⟩
    split at hb'
    . obtain ⟨b'', _, rfl⟩ := Option.map_eq_some_iff.mp hb'
      exact BlockStateStatus.le_refl _
    . next hne => exact (ht.nodes hb').level hd' (by simpa using fun heq => hne heq.symm)
  . intro c hc hl
    have hc := ((SameShape.update t h (keepsShape_setLevel _)).isChild c h).mp hc
    have hch : c ≠ h := by
      obtain ⟨bc, hbc, hpc⟩ := hc
      exact (ht.inv.wf.ne_parent hbc hpc).symm
    exact ht.childless c hc ((live_update_of_ne hch).mp hl)

/-- A block whose parent is failed is rejected; it carries the flag of its parent already. -/
theorem Settles.reject {e : Event} (ht : t.Settles U h)
    (hf : ∀ b, t.find? h = some b → b.status.failedChild = true) :
    ((t.update h (fun b => b.setFlag .failedChild)).record e).Inv .connected U := by
  have hcore : t.SameOn core ((t.update h (fun b => b.setFlag .failedChild)).record e) := by
    have hupd : t.SameOn core (t.update h (fun b => b.setFlag .failedChild)) := by
      refine SameOn.update t h ?_
      intro b hb
      refine core_eq_iff.mpr ⟨keepsShape_setFlag _ b, ?_⟩
      rw [setFlag_status]
      simp only [BlockStatus.assign, ← hf b hb]
    exact hupd.trans (.of_blocks_eq rfl)
  refine Inv.congr (ht.inv.settle ?_) hcore rfl
  rintro ⟨b, hb, hl⟩
  have hbf : b.isFailed = true := by simp [BlockIndex.isFailed, BlockStatus.isFailed, hf b hb]
  rw [canBeATip_of_isFailed hbf] at hl
  cases hl

end Tree

section PoW

variable {B : Type} [PowAddon B] {t : Tree B} {U : List Hash} {p : BlockTreeParams} {block : PowBlock}
  {E : Assertion → Tree B → Prop}

theorem onBlockInserted_quiet (p : BlockTreeParams) : Quiet (Tree.onBlockInserted p (A := B)) where
  core h t := Tree.SameOn.update t h (fun _ _ => rfl)
  tips _ _ := rfl
  history _ _ := rfl

/-- The block has its level now, or the tree is spoiled. -/
theorem raiseConnected_spec {t1 : Tree B} {prev : BlockIndex B} (ht : t.Inv .connected U)
    (htip : BlockAddon.validTipLevel B ≤ .connected)
    (hprev : t.getBlockIndex block.previousBlock = some prev)
    (hins : t.Inserted .connected U block.toBlock t1 ∨
      t1 = t ∧ t.At (fun b => b.status.deleted = false) block.getHash) :
    wp (raiseValidity block.getHash .connected)
      (fun _ t2 => t1.SameShape t2 ∧ (t2.find? block.previousBlock).map core = some prev.core ∧
        (t2.RestoredFailedPop ∨ t2.Settles U block.getHash))
      (fun _ t2 => t2.RestoredFailedPop) t1 := by
  obtain ⟨hfp, _⟩ := Tree.getBlockIndex_eq_some.mp hprev
  have hne : block.previousBlock ≠ block.getHash := Nat.ne_of_lt (Tree.previousBlock_lt_getHash block)
  have hshape : ∀ t2 : Tree B, t2.SameShape (t2.update block.getHash (fun b => b.setLevel .connected)) :=
    fun t2 => Tree.SameShape.update t2 _ (keepsShape_setLevel _)
  have hframe : ∀ {t2 : Tree B} l, (t2.find? block.previousBlock).map core = some prev.core →
      ((t2.update block.getHash (fun b => b.setLevel l)).find? block.previousBlock).map core =
        some prev.core := by
    intro t2 l h
    rw [Tree.find?_update_of_ne hne.symm]
    exact h
  rcases hins with hins | ⟨rfl, b, hb, hd⟩
  . have hfp1 : (t1.find? block.previousBlock).map core = some prev.core := by
      rw [hins.frame _ hne, hfp]
      rfl
    rcases hins.fresh with hrest | ⟨hfresh, _⟩
    . refine wp_mono (raiseValidity_keeps (I := fun t2 => t1.SameShape t2 ∧
        (t2.find? block.previousBlock).map core = some prev.core ∧ t2.RestoredFailedPop) .connected ?_ () t1
        ⟨.refl t1, hfp1, hrest⟩) ?_ ?_
      . rintro t2 l ⟨hs, hf, hr⟩
        exact ⟨hs.trans (Tree.SameShape.update t2 _ (keepsShape_setLevel l)), hframe l hf, hr⟩
      . exact fun _ t2 h2 => ⟨h2.1, h2.2.1, .inl h2.2.2⟩
      . exact fun _ t2 h2 => h2.2.2
    . obtain ⟨b, hb, hlevel, hd, hnf⟩ := hfresh.level
      -- the parent is not deleted, and only the new block is below `BLOCK_CONNECTED`
      have hparent : ∀ p bp, b.pprev = some p → t1.find? p = some bp → .connected ≤ bp.status.level := by
        intro p bp hp hbp
        have hdp : bp.status.deleted = false := by
          rw [← Bool.not_eq_true]
          intro hdp
          have := (hfresh.inv.levels hb hp hbp).deleted hdp
          rw [hd] at this
          cases this
        exact (hfresh.nodes hbp).level hdp (by simpa using hfresh.inv.wf.ne_parent hb hp)
      refine wp_raiseValidity hfresh.inv.wf hb ?_ ?_ ?_
      . rintro (hf | hl)
        . rw [hnf] at hf
          cases hf
        . rw [hlevel] at hl
          exact absurd hl (by decide)
      . intro _ _ _
        refine ⟨hshape t1, hframe _ hfp1, .inr (hfresh.raise ?_)⟩
        intro b' p bp hb' hp hbp
        rw [hb] at hb'
        cases hb'
        exact hparent p bp hp hbp
      . intro p bp _ hp hbp hn
        exact absurd (hparent p bp hp hbp) hn
  . have hfp1 : (t1.find? block.previousBlock).map core = some prev.core := by
      rw [hfp]
      rfl
    have hl := (ht.nodes hb).level hd (by simp)
    have hparent : ∀ p bp, b.pprev = some p → t1.find? p = some bp → .connected ≤ bp.status.level :=
      fun p bp hp hbp => BlockStateStatus.le_trans hl (ht.levels hb hp hbp).level
    refine wp_raiseValidity ht.wf hb ?_ ?_ ?_
    . exact fun _ => ⟨.refl t1, hfp1, .inr (.inl ht)⟩
    . intro _ hl' _
      exact ⟨hshape t1, hframe _ hfp1,
        .inr (.inl (ht.raise_settled hb hd hl' (BlockStateStatus.le_trans htip hl) hparent))⟩
    . intro p bp _ hp hbp hn
      exact absurd (hparent p bp hp hbp) hn

theorem validateAndAddBlock_spec (ht : t.Inv .connected U) (hpow : t.PowShape)
    (htip : .validTree ≤ BlockAddon.validTipLevel B) (htip' : BlockAddon.validTipLevel B ≤ .connected)
    (ctx : Bool) (hE : ∀ e t', (e = .raiseValidity → t'.RestoredFailedPop) → E e t') :
    wp (validateAndAddBlock p block ctx)
      (fun ok t' => t'.RestoredFailedPop ∨
        t'.PowShape ∧ if ok then t'.Settles U block.getHash else t'.Inv .connected U) E t := by
  simp only [validateAndAddBlock, wp_bind, wp_get, wp_ite]
  refine ⟨fun _ => .inr ⟨hpow, ht⟩, fun _ => ?_⟩
  split
  . exact .inr ⟨hpow, ht⟩
  . next prev hprev =>
    rw [wp_bind, wp_getOrStop]
    refine ⟨fun ok _ => ?_, fun _ => hE _ t (fun h => by cases h)⟩
    rw [wp_ite]
    refine ⟨fun _ => .inr ⟨hpow, ht⟩, fun _ => ?_⟩
    rw [wp_bind]
    refine wp_mono (insertBlockHeader_spec (E := fun e t' => e = .raiseValidity → t'.RestoredFailedPop) ht htip
      (onBlockInserted_quiet p) hprev ?_) ?_ (fun e t' he => hE e t' he)
    . exact fun e _ he h => absurd h he
    . intro _ t1 hins
      rw [wp_bind]
      refine wp_mono (raiseConnected_spec ht htip' hprev hins) ?_ (fun e t' hr => hE e t' (fun _ => hr))
      rintro _ t2 ⟨hs, hfp, hr⟩
      have hpow2 : t2.PowShape := by
        rcases hins with hins | ⟨rfl, _⟩
        . exact (hpow.grows hins.grows).congr hs
        . exact hpow.congr hs
      rw [wp_ite]
      refine ⟨fun hinvalid => ?_, fun _ => hr.imp_right (fun hr => ⟨hpow2, hr⟩)⟩
      simp only [wp_bind, wp_modifyBlock, wp_modify, wp_pure]
      rcases hr with hr | hr
      . obtain ⟨x, hx⟩ := hr
        exact .inl ⟨x, List.mem_cons_of_mem _ hx⟩
      . refine .inr ⟨hpow2.congr ((Tree.SameShape.update t2 _ (keepsShape_setFlag _)).trans
          (.of_blocks_eq rfl)), hr.reject ?_⟩
        -- the block carries the flag because its parent is failed
        intro b2 hb2
        obtain ⟨bp2, hbp2, heq⟩ := Option.map_eq_some_iff.mp hfp
        have hp2 := hpow2.pprev hr.inv.wf hb2 hbp2
        rw [(hr.inv.flags hb2 hp2 hbp2).inherited (by simp), BlockIndex.isFailed, (core_eq_iff.mp heq).2]
        obtain ⟨hfp0, hdp⟩ := Tree.getBlockIndex_eq_some.mp hprev
        have hlevel := (ht.nodes hfp0).validTree hdp
        simpa [isValid, isValidUpTo, hlevel, BlockIndex.isFailed] using hinvalid

end PoW

end AltIntegration
