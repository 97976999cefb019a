import AltIntegration.Blockchain.Lemmas.Flags

/-!
This module contains what the operations on one block do to the invariant of the tree: writing flags,
raising and lowering the validity level, soft deletion and insertion.
-/

namespace AltIntegration

open Program BlockIndex

variable {A : Type} [BlockAddon A]

namespace Tree

variable {t : Tree A} {min : BlockStateStatus} {U : List Hash} {h : Hash} {b : BlockIndex A}
  {f : BlockIndex A → BlockIndex A}

/-- An update that writes no flag the invariant reads, but maybe `BLOCK_ACTIVE` and `BLOCK_HAS_PAYLOADS`. -/
theorem Inv.update (ht : t.Inv min U) (hf : KeepsShape f)
    (hlevel : ∀ b, (f b).status.level = b.status.level)
    (hdeleted : ∀ b, (f b).status.deleted = b.status.deleted)
    (hfailed : ∀ b, (f b).isFailed = b.isFailed)
    (hchild : ∀ b, (f b).status.failedChild = b.status.failedChild)
    (hactive : ∀ b, t.find? h = some b → (f b).status.active = true →
      .canBeAppliedMaybeWithOtherChain ≤ b.status.level)
    (hpayloads : ∀ b, t.find? h = some b → b.status.deleted = true → (f b).status.hasPayloads = false) :
    (t.update h f).Inv min U := by
  have htips : SameTips t (t.update h f) := by
    refine SameTips.update hf (fun b _ => ?_)
    simp only [canBeATip, isDeleted, hasFlags, BlockStatus.hasFlags, isValid, isValidUpTo, hlevel, hdeleted,
      hfailed]
  refine ⟨ht.wf.congr (SameShape.update t h hf), ?_, ?_, ?_, ht.sound.congr htips, ht.complete.congr htips⟩
  . refine ht.nodes.update ?_ (fun _ _ _ _ hb => hb)
    intro b hb hok
    refine ⟨?_, ?_, ?_, ?_, ?_⟩
    . rw [hdeleted, hlevel]
      exact hok.deleted
    . rw [hdeleted, hlevel]
      exact hok.validTree
    . rw [hdeleted, hlevel]
      exact hok.level
    . rw [hlevel]
      exact hactive b hb
    . rw [hdeleted]
      exact hpayloads b hb
  . refine ht.levels.update ht.wf hf ?_ ?_ (fun _ _ _ _ _ _ h => h)
    . intro b p bp _ _ _ hok
      exact ⟨by rw [hdeleted]; exact hok.deleted, by rw [hlevel]; exact hok.level⟩
    . intro x b bp _ _ _ hok
      exact ⟨by rw [hdeleted]; exact hok.deleted, by rw [hlevel]; exact hok.level⟩
  . refine ht.flags.update ht.wf hf ?_ ?_ (fun _ _ _ _ _ _ h => h)
    . intro b p bp _ _ _ hok
      exact ⟨hok.pending, by rw [hchild]; exact hok.inherited⟩
    . intro x b bp _ _ _ hok
      exact ⟨by rw [hfailed]; exact hok.pending, by rw [hfailed]; exact hok.inherited⟩

theorem Inv.setActive (ht : t.Inv min U) (hb : t.find? h = some b)
    (hlevel : .canBeAppliedMaybeWithOtherChain ≤ b.status.level) :
    (t.update h (fun b => b.setFlag .active)).Inv min U := by
  refine ht.update (keepsShape_setFlag _) ?_ ?_ ?_ ?_ ?_ ?_
  . exact fun b => by rw [setFlag_status]; rfl
  . exact fun b => by rw [setFlag_status]; rfl
  . exact fun b => by rw [BlockIndex.isFailed, setFlag_status]; rfl
  . exact fun b => by rw [setFlag_status]; rfl
  . intro b' hb' _
    rw [hb] at hb'
    cases hb'
    exact hlevel
  . intro b' hb' hd
    rw [setFlag_status]
    exact (ht.nodes hb').payloads hd

theorem Inv.setBootstrap (ht : t.Inv min U) :
    (t.update h (fun b => b.setFlag .bootstrap)).Inv min U := by
  refine ht.update (keepsShape_setFlag _) ?_ ?_ ?_ ?_ ?_ ?_
  . exact fun b => by rw [setFlag_status]; rfl
  . exact fun b => by rw [setFlag_status]; rfl
  . exact fun b => by rw [BlockIndex.isFailed, setFlag_status]; rfl
  . exact fun b => by rw [setFlag_status]; rfl
  . intro b hb ha
    rw [setFlag_status] at ha
    exact (ht.nodes hb).active ha
  . intro b hb hd
    rw [setFlag_status]
    exact (ht.nodes hb).payloads hd

theorem Inv.setHasPayloads (ht : t.Inv min U) (hb : t.find? h = some b) (hd : b.status.deleted = false) :
    (t.update h (fun b => b.setFlag .hasPayloads)).Inv min U := by
  refine ht.update (keepsShape_setFlag _) ?_ ?_ ?_ ?_ ?_ ?_
  . exact fun b => by rw [setFlag_status]; rfl
  . exact fun b => by rw [setFlag_status]; rfl
  . exact fun b => by rw [BlockIndex.isFailed, setFlag_status]; rfl
  . exact fun b => by rw [setFlag_status]; rfl
  . intro b hb ha
    rw [setFlag_status] at ha
    exact (ht.nodes hb).active ha
  . intro b' hb' hd'
    rw [hb] at hb'
    cases hb'
    rw [hd] at hd'
    cases hd'

theorem Inv.unsetFlag (ht : t.Inv min U) {s : BlockValidityStatus} (hs : s = .active ∨ s = .hasPayloads) :
    (t.update h (fun b => b.unsetFlag s)).Inv min U := by
  refine ht.update (keepsShape_unsetFlag _) ?_ ?_ ?_ ?_ ?_ ?_
  . exact fun b => by rw [unsetFlag_status]; rcases hs with rfl | rfl <;> rfl
  . exact fun b => by rw [unsetFlag_status]; rcases hs with rfl | rfl <;> rfl
  . exact fun b => by rw [BlockIndex.isFailed, unsetFlag_status]; rcases hs with rfl | rfl <;> rfl
  . exact fun b => by rw [unsetFlag_status]; rcases hs with rfl | rfl <;> rfl
  . intro b hb ha
    rw [unsetFlag_status] at ha
    rcases hs with rfl | rfl
    . simp [BlockStatus.assign] at ha
    . exact (ht.nodes hb).active ha
  . intro b hb hd
    rw [unsetFlag_status]
    rcases hs with rfl | rfl
    . exact (ht.nodes hb).payloads hd
    . rfl

section Level

variable {l : BlockStateStatus}

/-- The part of the invariant that does not speak of tips, with a new level for one block. -/
theorem Inv.edges_setLevel (ht : t.Inv min U) (hb : t.find? h = some b)
    (hparent : ∀ p bp, b.pprev = some p → t.find? p = some bp → l ≤ bp.status.level)
    (hchild : ∀ x bx, t.find? x = some bx → bx.pprev = some h → bx.status.level ≤ l) :
    (t.update h (fun b => b.setLevel l)).Edges LevelOk ∧
      (t.update h (fun b => b.setLevel l)).Edges (FlagOk true []) := by
  refine ⟨ht.levels.update ht.wf (keepsShape_setLevel l) ?_ ?_ (fun _ _ _ _ _ _ h => h),
    ht.flags.update ht.wf (keepsShape_setLevel l) ?_ ?_ (fun _ _ _ _ _ _ h => h)⟩
  . intro b' p bp hb' hp hbp hok
    rw [hb] at hb'
    cases hb'
    exact ⟨hok.deleted, hparent p bp hp hbp⟩
  . intro x bx bp hbx hpx _ hok
    exact ⟨hok.deleted, hchild x bx hbx hpx⟩
  . intro b' p bp _ _ _ hok
    exact ⟨hok.pending, hok.inherited⟩
  . intro x bx bp _ _ _ hok
    exact ⟨hok.pending, hok.inherited⟩

theorem canBeATip_setLevel_mono (hl : b.status.level ≤ l) (h : b.canBeATip = true) :
    (b.setLevel l).canBeATip = true := by
  simp only [canBeATip, isValid, isValidUpTo, Bool.and_eq_true, decide_eq_true_eq] at h ⊢
  exact ⟨h.1, h.2.1, BlockStateStatus.le_trans h.2.2 hl⟩

/-- Raising the level of a block, which may make it able to be a tip. -/
theorem Inv.raise (ht : t.Inv min U) (hb : t.find? h = some b) (hd : b.status.deleted = false)
    (hl : b.status.level ≤ l)
    (hparent : ∀ p bp, b.pprev = some p → t.find? p = some bp → l ≤ bp.status.level) :
    (t.update h (fun b => b.setLevel l)).Inv min (h :: U) := by
  have hlive : ∀ b', t.find? h = some b' → b'.canBeATip = true → (b'.setLevel l).canBeATip = true := by
    intro b' hb'
    rw [hb] at hb'
    cases hb'
    exact canBeATip_setLevel_mono hl
  have hedges := ht.edges_setLevel hb hparent
    (fun x bx hbx hpx => BlockStateStatus.le_trans (ht.levels hbx hpx hb).level hl)
  refine ⟨ht.wf.congr (SameShape.update t h (keepsShape_setLevel l)), ?_, hedges.1, hedges.2,
    ht.sound.revive (keepsShape_setLevel l) hlive, ht.complete.revive (keepsShape_setLevel l) hlive⟩
  refine ht.nodes.update ?_ (fun _ _ _ _ hb => hb)
  intro b' hb' hok
  rw [hb] at hb'
  cases hb'
  refine ⟨fun hd' => ?_, fun _ => ?_, fun _ hx => ?_, fun ha => ?_, hok.payloads⟩
  . rw [show (b.setLevel l).status.deleted = b.status.deleted from rfl, hd] at hd'
    cases hd'
  . exact BlockStateStatus.le_trans (hok.validTree hd) hl
  . exact BlockStateStatus.le_trans (hok.level hd hx) hl
  . exact BlockStateStatus.le_trans (hok.active ha) hl

/-- Raising the level of a block that is valid up to the level of a tip already. -/
theorem Inv.raise_settled (ht : t.Inv min U) (hb : t.find? h = some b) (hd : b.status.deleted = false)
    (hl : b.status.level ≤ l) (htip : BlockAddon.validTipLevel A ≤ b.status.level)
    (hparent : ∀ p bp, b.pprev = some p → t.find? p = some bp → l ≤ bp.status.level) :
    (t.update h (fun b => b.setLevel l)).Inv min U := by
  have hsame : SameTips t (t.update h (fun b => b.setLevel l)) := by
    refine SameTips.update (keepsShape_setLevel l) ?_
    intro b' hb'
    rw [hb] at hb'
    cases hb'
    have htip' := BlockStateStatus.le_trans htip hl
    simp only [canBeATip, isDeleted, hasFlags, BlockStatus.hasFlags, isValid, BlockIndex.isFailed,
      isValidUpTo, setLevel, htip, htip', decide_true, Bool.and_true]
    rfl
  exact { ht.raise hb hd hl hparent with
    sound := ht.sound.congr hsame
    complete := ht.complete.congr hsame }

end Level

end Tree

section Raise

variable {t : Tree A} {h : Hash} {b : BlockIndex A} {upTo : BlockStateStatus}
  {Q : Bool → Tree A → Prop} {E : Assertion → Tree A → Prop}

omit [BlockAddon A] in
/-- What `raiseValidity` can do. -/
theorem wp_raiseValidity (hwf : t.WF) (hb : t.find? h = some b)
    (hsame : b.status.failedPop = true ∨ upTo ≤ b.status.level → Q false t)
    (hraise : b.status.failedPop = false → b.status.level ≤ upTo →
      (∀ p bp, b.pprev = some p → t.find? p = some bp → upTo ≤ bp.status.level) →
      Q true (t.update h (fun b => b.setLevel upTo)))
    (hE : ∀ p bp, b.status.failedPop = false → b.pprev = some p → t.find? p = some bp →
      ¬upTo ≤ bp.status.level → E .raiseValidity t) :
    wp (raiseValidity h upTo) Q E t := by
  simp only [raiseValidity, wp_bind, wp_derefBlock hb, wp_ite, wp_pure]
  refine ⟨fun hf => hsame (.inl hf), fun hf => ⟨fun hl => ?_, fun hl => ?_⟩⟩
  . rw [show b.hasFlags .failedPop = b.status.failedPop from rfl, Bool.not_eq_true] at hf
    have hl := BlockStateStatus.le_of_lt hl
    cases hp : b.pprev with
    | none =>
      simp only [raiseValidity.assertAncestorLevel, hp, wp_pure, wp_modifyBlock]
      exact hraise hf hl (fun p bp h _ => by rw [hp] at h; cases h)
    | some p =>
      obtain ⟨bp, hbp, _⟩ := hwf.parent hb hp
      simp only [raiseValidity.assertAncestorLevel, hp, wp_bind, wp_derefBlock hbp, wp_check, wp_modifyBlock,
        decide_eq_true_eq, decide_eq_false_iff_not]
      refine ⟨fun hle => hraise hf hl ?_, fun hle => hE p bp hf hp hbp hle⟩
      intro p' bp' hp' hbp'
      rw [hp] at hp'
      cases hp'
      rw [hbp] at hbp'
      cases hbp'
      exact hle
  . exact hsame (.inr (Nat.le_of_not_lt hl))

end Raise

namespace Tree

variable {t : Tree A} {min : BlockStateStatus} {U : List Hash} {h : Hash} {b : BlockIndex A}

section Failed

variable {r : BlockValidityStatus}

/-- A block that is failed anyway gets, or loses, one of several failure flags. -/
theorem Inv.refail {f : BlockIndex A → BlockIndex A} (ht : t.Inv min U) (hb : t.find? h = some b)
    (hf : KeepsShape f) (hsame : (f b).unfailed = b.unfailed)
    (hchild : (f b).status.failedChild = b.status.failedChild) (hbf : b.isFailed = true)
    (hbf' : (f b).isFailed = true) : (t.update h f).Inv min U := by
  have hself : ∀ b', t.find? h = some b' → b' = b := by
    intro b' hb'
    rw [hb] at hb'
    exact (Option.some.inj hb').symm
  have hunf : SameOn unfailed t (t.update h f) := by
    refine SameOn.update t h ?_
    intro b' hb'
    rw [hself b' hb']
    exact hsame
  have htips : SameTips t (t.update h f) := by
    refine SameTips.update hf ?_
    intro b' hb'
    rw [hself b' hb', canBeATip_of_isFailed hbf, canBeATip_of_isFailed hbf']
  refine ⟨ht.wf.congr (shape_of_unfailed hunf), nodes_congr hunf ht.nodes, levels_congr hunf ht.levels, ?_,
    ht.sound.congr htips, ht.complete.congr htips⟩
  refine ht.flags.update ht.wf hf ?_ ?_ (fun _ _ _ _ _ _ h => h)
  . intro b' p bp hb' _ _ hok
    rw [hself b' hb'] at hok ⊢
    exact ⟨hok.pending, by rw [hchild]; exact hok.inherited⟩
  . intro x bx bp _ _ hbp hok
    rw [hself bp hbp] at hok ⊢
    refine ⟨fun _ => hbf', fun hx => ?_⟩
    rw [hbf', hok.inherited hx, hbf]

theorem not_live_of_isFailed (hb : t.find? h = some b) (hbf : b.isFailed = true) : ¬t.Live h := by
  rintro ⟨b', hb', hl⟩
  rw [hb] at hb'
  cases hb'
  rw [canBeATip_of_isFailed hbf] at hl
  cases hl

theorem Inv.eraseTip (ht : t.Inv min U) (hh : ¬t.Live h) : (t.eraseTip h).Inv min U where
  wf := ht.wf.congr ((SameOn.refl t).eraseTip h)
  nodes := ht.nodes
  levels := ht.levels
  flags := ht.flags
  sound := ht.sound.erase
  complete := ht.complete.erase hh

/-- `doInvalidate` of a block that is failed already. -/
theorem Inv.doInvalidate (ht : t.Inv min U) (hb : t.find? h = some b) (hbf : b.isFailed = true)
    (hr : isValidInvalidationReason r = true) :
    ((t.update h (fun b => b.setFlag r)).eraseTip h).Inv min U := by
  have hfail := isFailure_of_valid hr
  have hbf' : (b.setFlag r).isFailed = true := isFailed_setFlag hfail
  have hchild : (b.setFlag r).status.failedChild = b.status.failedChild := by
    rw [setFlag_status]
    cases r with
    | failedBlock => rfl
    | failedPop => rfl
    | _ => simp [isValidInvalidationReason] at hr
  refine (ht.refail hb (keepsShape_setFlag r) (unfailed_setFlag b hfail) hchild hbf hbf').eraseTip ?_
  refine not_live_of_isFailed (b := b.setFlag r) ?_ hbf'
  rw [find?_update_self, hb]
  rfl

/-- `doReValidate` of a block that stays failed. -/
theorem Inv.doReValidate (ht : t.Inv min U) (hb : t.find? h = some b)
    (hbf : (b.status.assign false r).isFailed = true) (hr : isValidInvalidationReason r = true) :
    ((t.update h (fun b => b.unsetFlag r)).tryAddTip h).Inv min U := by
  have hfail := isFailure_of_valid hr
  have hbf' : (b.unsetFlag r).isFailed = true := by
    rw [BlockIndex.isFailed, unsetFlag_status]
    exact hbf
  have hchild : (b.unsetFlag r).status.failedChild = b.status.failedChild := by
    rw [unsetFlag_status]
    cases r with
    | failedBlock => rfl
    | failedPop => rfl
    | _ => simp [isValidInvalidationReason] at hr
  have ht' := ht.refail hb (keepsShape_unsetFlag r) (unfailed_unsetFlag b hfail) hchild
    (isFailed_of_unsetFlag hbf') hbf'
  have hv : (t.update h (fun b => b.unsetFlag r)).isValidTip h = false := by
    rw [← Bool.not_eq_true, ht'.wf.isValidTip_iff]
    intro hl
    refine not_live_of_isFailed (b := b.unsetFlag r) ?_ hbf' hl.1
    rw [find?_update_self, hb]
    rfl
  rw [tryAddTip_of_not_valid hv]
  exact ht'

end Failed

theorem Inv.tryAddTip (ht : t.Inv min U) : (t.tryAddTip h).Inv min U where
  wf := ht.wf.congr (.of_blocks_eq tryAddTip_blocks)
  nodes := nodes_congr (.of_blocks_eq tryAddTip_blocks) ht.nodes
  levels := levels_congr (.of_blocks_eq tryAddTip_blocks) ht.levels
  flags := flags_congr (.of_blocks_eq tryAddTip_blocks) ht.flags
  sound := ht.sound.tryAddTip_settled ht.wf
  complete := (ht.complete.mono (List.subset_cons_self h U)).tryAddTip ht.wf

/-- `tryAddTip` settles a block that has no child which can be a tip. -/
theorem Inv.tryAddTip_unsettled (ht : t.Inv min (h :: U)) (hh : t.Live h → t.NoLiveChild h) :
    (t.tryAddTip h).Inv min U :=
  { ht.tryAddTip with
    sound := ht.sound.tryAddTip ht.wf hh
    complete := ht.complete.tryAddTip ht.wf }

section Delete

/-- What `onBeforeLeafRemoved` leaves alone. -/
structure Harmless (obr : BlockIndex A → Tree A → Tree A) : Prop where
  blocks : ∀ b t, (obr b t).blocks = t.blocks
  tips : ∀ b t, (obr b t).tips = t.tips
  history : ∀ b t, (obr b t).history = t.history

/-- The state of a traversal that deletes blocks. Blocks in `W` may have become tips. -/
structure Deleting (t₀ : Tree A) (min : BlockStateStatus) (U W : List Hash) (t : Tree A) : Prop where
  same : SameShape t₀ t
  nodes : t.Nodes (NodeOk min [])
  levels : t.Edges LevelOk
  flags : t.Edges (FlagOk true [])
  sound : t.TipsSound U
  complete : t.TipsComplete (W ++ U)
  history : t.history = t₀.history

variable {t₀ : Tree A} {W : List Hash} {c p : Hash} {obr : BlockIndex A → Tree A → Tree A}

theorem Deleting.mono {W' : List Hash} (hW : W ⊆ W') (ht : Deleting t₀ min U W t) :
    Deleting t₀ min U W' t :=
  { ht with complete := ht.complete.mono (List.append_subset.mpr
      ⟨fun _ h => List.mem_append_left _ (hW h), List.subset_append_right _ _⟩) }

theorem Deleting.delete (ht : Deleting t₀ min U (c :: W) t) (hwf : t.WF) (hcp : t.IsChild c p)
    (hchild : ∀ c', t.IsChild c' c → t.At (fun b => b.status.deleted = true) c') :
    Deleting t₀ min U (p :: W) ((t.update c (fun b => b.deleteTemporarily)).eraseTip c) := by
  have hkeep : KeepsShape (fun b : BlockIndex A => b.deleteTemporarily) := keepsShape_deleteTemporarily
  have hdead : ∀ b, t.find? c = some b → b.deleteTemporarily.canBeATip = false := fun b _ => rfl
  have hlive : ¬((t.update c (fun b => b.deleteTemporarily)).eraseTip c).Live c := by
    obtain ⟨b, hb, _⟩ := hcp
    intro hl
    have hl := (live_update_self hb).mp hl
    rw [hdead b hb] at hl
    cases hl
  refine ⟨?_, ?_, ?_, ?_, ht.sound.kill hkeep hdead, ?_, ht.history⟩
  . exact ht.same.trans ((SameShape.update t c hkeep).eraseTip c)
  . refine Nodes.update ht.nodes ?_ (fun _ _ _ _ hb => hb)
    intro b _ _
    exact ⟨fun _ => rfl, (by cases ·), (by cases ·), (by cases ·), fun _ => rfl⟩
  . refine Edges.update ht.levels hwf hkeep ?_ ?_ (fun _ _ _ _ _ _ h => h)
    . intro b p bp _ _ _ _
      exact ⟨fun _ => rfl, BlockStateStatus.validUnknown_le _⟩
    . intro x bx bp hbx hpx _ _
      obtain ⟨bx', hbx', hd⟩ := hchild x ⟨bx, hbx, hpx⟩
      rw [hbx] at hbx'
      cases hbx'
      refine ⟨fun _ => hd, ?_⟩
      rw [(ht.nodes hbx).deleted hd]
      exact BlockStateStatus.validUnknown_le _
  . refine Edges.update ht.flags hwf hkeep ?_ ?_ (fun _ _ _ _ _ _ h => h)
    . intro b p bp _ _ _ hok
      exact ⟨hok.pending, hok.inherited⟩
    . intro x bx bp _ _ _ hok
      exact ⟨hok.pending, hok.inherited⟩
  . refine TipsComplete.settle (TipsComplete.mono (U := p :: (c :: W ++ U)) ?_ ?_) hlive
    . exact ht.complete.kill hkeep hdead (fun x hx => hcp.unique hx)
    . intro x hx
      simp only [List.cons_append, List.mem_cons, List.mem_append] at hx ⊢
      tauto

theorem Deleting.congr {t' : Tree A} (ht : Deleting t₀ min U W t) (hb : t'.blocks = t.blocks)
    (htips : t'.tips = t.tips) (hh : t'.history = t.history) : Deleting t₀ min U W t' where
  same := ht.same.trans (.of_blocks_eq hb)
  nodes := nodes_congr (.of_blocks_eq hb) ht.nodes
  levels := levels_congr (.of_blocks_eq hb) ht.levels
  flags := flags_congr (.of_blocks_eq hb) ht.flags
  sound := ht.sound.congr (.of_blocks_eq hb htips)
  complete := ht.complete.congr (.of_blocks_eq hb htips)
  history := hh.trans ht.history

theorem deleteLeaf_finishes {E : Assertion → Tree A → Prop} (hobr : Harmless obr)
    (hE : ∀ t, E .deleteDeleted t) (c p : Hash) (W : List Hash) (t : Tree A) (hwf : t.WF)
    (ht : Deleting t₀ min U (c :: W) t) (hcp : t.IsChild c p)
    (hchild : ∀ c', t.IsChild c' c → t.At (fun b => b.status.deleted = true) c') :
    wp (deleteLeaf obr c)
      (fun _ t' => Finished (Deleting t₀ min U) (fun b => b.status.deleted = true) (p :: W) [c] t t')
      E t := by
  obtain ⟨b, hb, hp⟩ := id hcp
  simp only [deleteLeaf, wp_bind, wp_derefBlock hb, wp_modify, wp_check, wp_modifyBlock]
  refine ⟨fun _ => ?_, fun _ => hE _⟩
  have hsame : SameShape t (obr b t) := .of_blocks_eq (hobr.blocks b t)
  have hfind : ∀ x, (obr b t).find? x = t.find? x := by
    intro x
    unfold Tree.find?
    rw [hobr.blocks]
  have hdel := (ht.congr (hobr.blocks b t) (hobr.tips b t) (hobr.history b t)).delete (hwf.congr hsame)
    ((hsame.isChild c p).mpr hcp) (by
      intro c' hc'
      obtain ⟨b', hb', hd⟩ := hchild c' ((hsame.isChild c' c).mp hc')
      exact ⟨b', (hfind c').trans hb', hd⟩)
  refine ⟨?_, hdel, ?_, ?_⟩
  . exact hsame.trans ((SameShape.update (obr b t) c keepsShape_deleteTemporarily).eraseTip c)
  . intro c' hc'
    rw [List.mem_singleton.mp hc']
    refine ⟨b.deleteTemporarily, ?_, rfl⟩
    rw [find?_update_self, find?_eraseTip, hfind, hb]
    rfl
  . rintro x ⟨bx, hbx, hd⟩
    by_cases hx : x = c
    . subst hx
      refine ⟨bx.deleteTemporarily, ?_, rfl⟩
      rw [find?_update_self, find?_eraseTip, hfind, hbx]
      rfl
    . refine ⟨bx, ?_, hd⟩
      rw [find?_update_of_ne (fun h => hx h.symm), find?_eraseTip, hfind]
      exact hbx

theorem deleteSubtree_spec {E : Assertion → Tree A → Prop} (ht : t.Inv min U) (hobr : Harmless obr)
    (hE : ∀ t, E .deleteDeleted t) (hcp : t.IsChild c p) :
    wp (deleteSubtree obr c p)
      (fun _ t' => t'.Inv min U ∧ SameShape t t' ∧ t'.history = t.history) E t := by
  have hstart : Deleting t min U [] t :=
    ⟨.refl t, ht.nodes, ht.levels, ht.flags, ht.sound, ht.complete, rfl⟩
  have hfin : Finishes E (Deleting t min U) (fun b => b.status.deleted = true) (t.maxHeight + 1)
      (forEachNodePostorder (deleteLeaf obr) (fun next => !next.isDeleted) (t.maxHeight + 1)) := by
    refine Finishes.postorder ?_ ?_ ?_ _
    . exact fun W W' t' hW ht' => ht'.mono hW
    . exact fun c p W t' => deleteLeaf_finishes hobr hE c p W t'
    . intro b hb
      simpa [isDeleted, hasFlags, BlockStatus.hasFlags] using hb
  obtain ⟨b, hb, _⟩ := id hcp
  simp only [deleteSubtree, wp_bind, wp_get, wp_modify]
  refine wp_mono (hfin c p [] t ht.wf hstart hcp (.maxHeight hb)) ?_ (fun _ _ h => h)
  intro _ t' hf
  have hinv : t'.Inv min (p :: U) :=
    { wf := ht.wf.congr hf.shape
      nodes := hf.inv.nodes
      levels := hf.inv.levels
      flags := hf.inv.flags
      sound := hf.inv.sound.mono (List.subset_cons_self p U)
      complete := hf.inv.complete }
  refine ⟨{ hinv.tryAddTip with
      sound := hf.inv.sound.tryAddTip_settled hinv.wf
      complete := hinv.complete.tryAddTip hinv.wf }, hf.shape.tryAddTip p, ?_⟩
  rw [tryAddTip_history, hf.inv.history]

end Delete

end Tree

end AltIntegration
