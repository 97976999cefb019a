import AltIntegration.Blockchain.Storage
import AltIntegration.Blockchain.Lemmas.Finalize
import AltIntegration.Blockchain.Lemmas.Frame

/-!
This module contains how a proof-of-work tree grows as long as nothing in it is invalidated or deleted:
a header adds a block above a known one, or nothing.
-/

namespace AltIntegration

open Program BlockIndex

variable {A : Type}

namespace Tree

variable {t t' t'' : Tree A} {h x : Hash} {b prev : BlockIndex A} {block : PowBlock}

/-- Nothing in the tree is invalid or deleted. -/
structure AllValid (t : Tree A) : Prop where
  consistent : t.Consistent
  valid : t.Nodes (fun _ b => b.status.deleted = false ∧ b.isFailed = false ∧ .connected ≤ b.status.level)

/-- Moreover a listed tip has no block above it. -/
structure Healthy (t : Tree A) : Prop extends AllValid t where
  leaves : ∀ x ∈ t.tips, ∀ c, ¬t.IsChild c x

/-- Only the block `h` may be above a listed tip: it is to be listed itself. -/
structure Ready (h : Hash) (t : Tree A) : Prop extends AllValid t where
  known : ∃ b, t.find? h = some b
  leaves : ∀ x ∈ t.tips, ∀ c, t.IsChild c x → c = h ∧ ∀ c, ¬t.IsChild c h

/-- A block with the given header and status, right after `prev`. -/
structure IsNew (Q : A → Prop) (header : Block) (prev : BlockIndex A) (status : BlockStatus) (b : BlockIndex A) :
    Prop where
  header : b.header = header
  pprev : b.pprev = some prev.header.hash
  height : b.height = prev.height + 1
  status : b.status = status
  addon : Q b.addon

/-- One block has been added, and so far it satisfies `P`. -/
structure Added (h : Hash) (P : BlockIndex A → Prop) (t t' : Tree A) : Prop where
  old : ∀ ⦃x⦄, x ≠ h → t'.find? x = t.find? x
  new : ∃ b, t'.find? h = some b ∧ P b
  keys : t'.blocks.keys = h :: t.blocks.keys
  tips : t'.tips = t.tips
  root : t'.root = t.root
  activeTip : t'.activeTip = t.activeTip
  count : t'.appliedBlockCount = t.appliedBlockCount
  fixed : t'.fixed = t.fixed

theorem Added.update {P P' : BlockIndex A → Prop} {f : BlockIndex A → BlockIndex A} (ha : Added h P t t')
    (hf : ∀ b, P b → P' (f b)) : Added h P' t (t'.update h f) := by
  refine ⟨fun x hx => ?_, ?_, ?_, ha.tips, ha.root, ha.activeTip, ha.count, ha.fixed⟩
  . rw [find?_update_of_ne (fun heq => hx heq.symm)]
    exact ha.old hx
  . obtain ⟨b, hb, hP⟩ := ha.new
    refine ⟨f b, ?_, hf b hP⟩
    rw [find?_update_self, hb]
    rfl
  . unfold Tree.update
    rw [Store.keys_modify]
    exact ha.keys

variable {Q : A → Prop}

theorem Added.create [BlockAddon A] (hQ : Q BlockAddon.empty) (header : Block) (hprev : prev.isFailed = false) :
    Added header.hash (IsNew Q header prev { deleted := true }) t (t.createBlockIndex header prev) := by
  refine ⟨fun x hx => ?_, ⟨.create header prev, ?_, rfl, rfl, rfl, ?_, hQ⟩, rfl, rfl, rfl, rfl, rfl, rfl⟩
  . rw [find?_createBlockIndex, if_neg (fun heq => hx heq.symm)]
  . rw [find?_createBlockIndex, if_pos rfl]
  . simp only [BlockIndex.create, hprev]

theorem IsNew.setStatus {header : Block} {s s' : BlockStatus} (hb : IsNew Q header prev s b) :
    IsNew Q header prev s' (b.setStatus s') := by
  have hs := setStatus_shape b s'
  rw [shape_eq_iff] at hs
  refine ⟨hs.1.trans hb.header, hs.2.1.trans hb.pprev, hs.2.2.trans hb.height, setStatus_status b s', ?_⟩
  rw [setStatus_addon]
  exact hb.addon

section Inserted

variable {header : Block}

theorem wlp_raise_added (upTo : BlockStateStatus) {s : BlockStatus} (ha : Added h (IsNew Q header prev s) t t')
    (hs : s.failedPop = false) (hl : ¬upTo ≤ s.level) :
    wlp (raiseValidity h upTo) (fun _ t'' => Added h (IsNew Q header prev { s with level := upTo }) t t'') t' := by
  obtain ⟨b, hb, hnew⟩ := ha.new
  refine wlp_raiseValidity hb ?_ ?_
  . rw [hnew.status, hs]
    rintro (hf | hle)
    . cases hf
    . exact absurd hle hl
  . intro _ _
    refine ha.update (fun b hb => ⟨hb.header, hb.pprev, hb.height, ?_, hb.addon⟩)
    show { b.status with level := upTo } = _
    rw [hb.status]

variable [BlockAddon A]

theorem tryAddTip_added {s : BlockStatus} (ha : Added h (IsNew Q header prev s) t t')
    (hs : ¬BlockAddon.validTipLevel A ≤ s.level) : t'.tryAddTip h = t' := by
  apply tryAddTip_of_not_valid
  obtain ⟨b, hb, hnew⟩ := ha.new
  rw [← hnew.status] at hs
  simp [isValidTip, hb, canBeATip, isValid, isValidUpTo, hs]

/-- A new header adds a block. -/
theorem wlp_insertRestored {obi : Hash → Tree A → Tree A} (ha : Added header.hash (IsNew Q header prev { deleted := true }) t t')
    (htip : .validTree ≤ BlockAddon.validTipLevel A)
    (hobi : ∀ t', Added header.hash (IsNew Q header prev {}) t t' →
      Added header.hash (IsNew Q header prev {}) t (obi header.hash t')) :
    wlp (insertBlockHeader.insertRestored obi header)
      (fun _ t'' => Added header.hash (IsNew Q header prev { level := .validTree }) t t'') t' := by
  obtain ⟨b, hb, hnew⟩ := ha.new
  simp only [insertBlockHeader.insertRestored, restore, wlp_bind, wlp_derefBlock, wlp_check, wlp_when, wlp_modify,
    wlp_modifyBlock]
  intro b' hb' _
  rw [hb] at hb'
  cases hb'
  have hflag : b.hasFlags .failedPop = false := by
    simp [hasFlags, BlockStatus.hasFlags, hnew.status]
  refine ⟨fun hf => absurd (hflag.symm.trans hf) (by decide), fun _ => ?_⟩
  have ha1 : Added header.hash (IsNew Q header prev {}) t (t'.update header.hash (fun b => b.unsetFlag .deleted)) := by
    refine ha.update (fun b hb => ?_)
    have hs : b.status.assign false .deleted = {} := by
      rw [hb.status]
      rfl
    unfold unsetFlag
    rw [hs]
    exact hb.setStatus
  have hlow : ¬BlockAddon.validTipLevel A ≤ BlockStateStatus.validUnknown :=
    fun hle => absurd (BlockStateStatus.le_trans htip hle) (by decide)
  rw [tryAddTip_added ha1 hlow]
  refine wlp_mono (wlp_raise_added .validTree (hobi _ ha1) rfl (by decide)) ?_
  intro _ _ ha3
  exact ha3

end Inserted

section Programs

variable [PowAddon A] {header : Block} {p : BlockTreeParams}

/-- What the tree looks like with a new block above the block `p`. -/
structure Grown (block : PowBlock) (t t' : Tree A) : Prop where
  fresh : t.find? block.getHash = none
  known : ∃ prev, t.find? block.previousBlock = some prev
  added : Added block.getHash (fun b => b.header = block.toBlock ∧ b.pprev = some block.previousBlock ∧
    b.height = t.heightOf block.previousBlock + 1 ∧ b.status.deleted = false ∧ b.isFailed = false ∧
      .connected ≤ b.status.level) t t'

/-- In a healthy tree a header adds a block, or it is known already, or it is refused. -/
theorem Healthy.wlp_validateAndAddBlock (ht : t.Healthy) (htip : .validTree ≤ BlockAddon.validTipLevel A)
    (ctx : Bool) :
    wlp (validateAndAddBlock p block ctx)
      (fun ok t' => t' = t ∧ (ok = true → ∃ b, t.find? block.getHash = some b) ∨ ok = true ∧ t.Grown block t') t := by
  simp only [validateAndAddBlock, wlp_bind, wlp_get, wlp_ite, wlp_pure]
  refine ⟨fun _ => .inl ⟨trivial, fun h => by cases h⟩, fun _ => ?_⟩
  split
  . exact .inl ⟨rfl, fun h => by cases h⟩
  . next prev hprev =>
    obtain ⟨hfp, _⟩ := getBlockIndex_eq_some.mp hprev
    obtain ⟨hdel, hfail, hlevel⟩ := ht.valid hfp
    have hisValid : prev.isValid = true := by
      have hle : BlockStateStatus.validTree ≤ prev.status.level := BlockStateStatus.le_trans (by decide) hlevel
      simp [isValid, isValidUpTo, hfail, hle]
    simp only [wlp_bind, wlp_getOrStop, wlp_ite, wlp_pure]
    intro ok _
    refine ⟨fun _ => .inl ⟨trivial, fun h => by cases h⟩, fun _ => ?_⟩
    simp only [insertBlockHeader, wlp_bind, wlp_check, wlp_get]
    intro _
    split
    . next current hb =>
      obtain ⟨hdel', hfail', hlevel'⟩ := ht.valid hb
      have hnd : ¬current.isDeleted = true := by
        rw [show current.isDeleted = current.status.deleted from rfl, hdel']
        decide
      simp only [hnd, Bool.false_eq_true, ↓reduceIte, wlp_pure]
      refine wlp_raiseValidity hb (fun _ => ?_) (fun _ hlt => ?_)
      . simp only [hisValid, Bool.not_true, Bool.false_eq_true, false_implies, not_false_eq_true, true_implies, true_and]
        exact .inl ⟨current, hb⟩
      . exact absurd hlevel' (Nat.not_le_of_lt hlt)
    . next hb =>
      have hstart : Added block.toBlock.hash (IsNew (fun _ => True) block.toBlock prev { deleted := true }) t
          (t.createBlockIndex block.toBlock prev) := Added.create trivial block.toBlock hfail
      simp only [doInsertBlockHeader, wlp_bind, wlp_get, wlp_getOrStop, wlp_modify]
      intro prev' hprev'
      rw [show block.toBlock.previousBlock = block.previousBlock from rfl, hprev] at hprev'
      cases hprev'
      refine wlp_mono (wlp_insertRestored hstart htip (fun _ ha =>
        ha.update (fun b hb => ⟨hb.header, hb.pprev, hb.height, hb.status, trivial⟩))) ?_
      intro _ t1 ha1
      refine wlp_mono (wlp_raise_added .connected ha1 rfl (by decide)) ?_
      intro _ t2 ha2
      simp only [hisValid, Bool.not_true, Bool.false_eq_true, false_implies, not_false_eq_true, true_implies, true_and]
      refine .inr ⟨hb, ⟨prev, hfp⟩, ⟨ha2.old, ?_, ha2.keys, ha2.tips, ha2.root, ha2.activeTip, ha2.count, ha2.fixed⟩⟩
      obtain ⟨b2, hb2, hnew⟩ := ha2.new
      refine ⟨b2, hb2, hnew.header, ?_, ?_, ?_, ?_, ?_⟩
      . rw [hnew.pprev, ht.consistent.wf.hash hfp]
      . rw [hnew.height, heightOf_eq hfp]
      . rw [hnew.status]
      . rw [BlockIndex.isFailed, hnew.status]
        rfl
      . rw [hnew.status]
        exact BlockStateStatus.le_refl _

end Programs

section Healthy

variable {p : BlockTreeParams}

/-- A tree that has grown, before fork resolution. -/
theorem Grown.extends (hg : t.Grown block t') : t.Extends t' := by
  intro x b hb
  have hne : x ≠ block.getHash := by
    intro heq
    rw [heq, hg.fresh] at hb
    cases hb
  exact ⟨b, (hg.added.old hne).trans hb, rfl⟩

theorem Grown.find?_cases (hg : t.Grown block t') (hb : t'.find? x = some b) :
    x = block.getHash ∨ t.find? x = some b := by
  by_cases hx : x = block.getHash
  . exact .inl hx
  . rw [hg.added.old hx] at hb
    exact .inr hb

theorem Grown.wf (hg : t.Grown block t') (ht : t.WF) : t'.WF := by
  obtain ⟨bn, hbn, hheader, hpprev, hheight, _⟩ := hg.added.new
  obtain ⟨prev, hprev⟩ := hg.known
  have hself : ∀ {b}, t'.find? block.getHash = some b → b = bn := by
    intro b hb
    rw [hbn] at hb
    cases hb
    rfl
  refine ⟨?_, fun {x b} hb => ?_, fun {x b q} hb hp => ?_, fun {x b q} hb hp => ?_⟩
  . rw [hg.added.keys]
    exact List.nodup_cons.mpr ⟨(Store.find?_eq_none_iff _ _).mp hg.fresh, ht.nodup⟩
  . rcases hg.find?_cases hb with rfl | hb
    . rw [hself hb, hheader]
      rfl
    . exact ht.hash hb
  . rcases hg.find?_cases hb with rfl | hb
    . rw [hself hb, hpprev] at hp
      cases hp
      rw [hself hb, hheader]
      rfl
    . exact ht.prev hb hp
  . rcases hg.find?_cases hb with rfl | hb
    . rw [hself hb, hpprev] at hp
      cases hp
      obtain ⟨bp, hbp, heq⟩ := hg.extends hprev
      refine ⟨bp, hbp, ?_⟩
      rw [hself hb, hheight, heightOf_eq hprev, (shape_eq_iff.mp heq).2.2]
    . obtain ⟨bp, hbp, hh⟩ := ht.parent hb hp
      obtain ⟨bp', hbp', heq⟩ := hg.extends hbp
      exact ⟨bp', hbp', by rw [hh, (shape_eq_iff.mp heq).2.2]⟩

theorem Grown.isChild_cases (hg : t.Grown block t') {c : Hash} (hc : t'.IsChild c x) :
    c = block.getHash ∧ x = block.previousBlock ∨ t.IsChild c x := by
  obtain ⟨b, hb, hp⟩ := hc
  rcases hg.find?_cases hb with rfl | hb
  . obtain ⟨bn, hbn, _, hpprev, _⟩ := hg.added.new
    rw [hbn] at hb
    cases hb
    rw [hpprev] at hp
    cases hp
    exact .inl ⟨rfl, rfl⟩
  . exact .inr ⟨b, hb, hp⟩

/-- The new block has no block above it. -/
theorem Grown.noChild (hg : t.Grown block t') (ht : t.WF) {c : Hash} : ¬t'.IsChild c block.getHash := by
  intro hc
  rcases hg.isChild_cases hc with ⟨rfl, heq⟩ | hc
  . obtain ⟨prev, hprev⟩ := hg.known
    rw [← heq, hg.fresh] at hprev
    cases hprev
  . obtain ⟨b, hb, hp⟩ := hc
    obtain ⟨bp, hbp, _⟩ := ht.parent hb hp
    rw [hg.fresh] at hbp
    cases hbp

theorem Grown.consistent (hg : t.Grown block t') (ht : t.Consistent) : t'.Consistent := by
  have hwf := hg.wf ht.wf
  obtain ⟨br, hbr, hpr⟩ := ht.root
  obtain ⟨bt, hbt⟩ := ht.tip
  refine ⟨hwf, fun x b hb hp => ?_, ?_, ?_, ?_, fun x hx => ?_, ?_⟩
  . rw [hg.added.root]
    rcases hg.find?_cases hb with rfl | hb
    . obtain ⟨bn, hbn, _, hpprev, _⟩ := hg.added.new
      rw [hbn] at hb
      cases hb
      rw [hpprev] at hp
      cases hp
    . exact ht.rooted hb hp
  . obtain ⟨br', hbr', heq⟩ := hg.extends hbr
    rw [hg.added.root]
    exact ⟨br', hbr', (shape_eq_iff.mp heq).2.1.trans hpr⟩
  . obtain ⟨bt', hbt', _⟩ := hg.extends hbt
    rw [hg.added.activeTip]
    exact ⟨bt', hbt'⟩
  . rw [hg.added.count, hg.added.activeTip, hg.extends.chainTo ht.wf hwf hbt]
    exact ht.count
  . rw [hg.added.tips] at hx
    obtain ⟨b, hb⟩ := ht.tips x hx
    obtain ⟨b', hb', _⟩ := hg.extends hb
    exact ⟨b', hb'⟩
  . rw [hg.added.tips]
    exact ht.nodup

/-- What health depends on in a block. -/
def vitals (b : BlockIndex A) : (Block × Option Hash × Nat) × Bool × Bool × BlockStateStatus :=
  (b.shape, b.status.deleted, b.isFailed, b.status.level)

theorem AllValid.congr (ht : t.AllValid) (hs : t.SameOn vitals t') (htips : t'.tips = t.tips) (hroot : t'.root = t.root)
    (hactive : t'.activeTip = t.activeTip) (hcount : t'.appliedBlockCount = t.appliedBlockCount) : t'.AllValid := by
  refine ⟨ht.consistent.congr (hs.comp Prod.fst) htips hroot hactive hcount, ?_⟩
  refine ht.valid.congr hs (fun x b b' heq hb => ?_)
  simp only [vitals, Prod.mk.injEq] at heq
  rw [← heq.2.1, ← heq.2.2.1, ← heq.2.2.2]
  exact hb

theorem Healthy.congr (ht : t.Healthy) (hs : t.SameOn vitals t') (htips : t'.tips = t.tips) (hroot : t'.root = t.root)
    (hactive : t'.activeTip = t.activeTip) (hcount : t'.appliedBlockCount = t.appliedBlockCount) : t'.Healthy := by
  have hshape : t.SameShape t' := hs.comp Prod.fst
  refine ⟨ht.toAllValid.congr hs htips hroot hactive hcount, fun x hx c hc => ?_⟩
  rw [htips] at hx
  exact ht.leaves x hx c ((hshape.isChild c x).mp hc)

theorem Ready.update {f : BlockIndex A → BlockIndex A} (ht : t.Ready h) (hf : ∀ b, vitals (f b) = vitals b) :
    (t.update h f).Ready h := by
  have hs : t.SameOn vitals (t.update h f) := .update t h (fun b _ => hf b)
  have hshape : t.SameShape (t.update h f) := hs.comp Prod.fst
  refine ⟨ht.toAllValid.congr hs rfl rfl rfl rfl, ?_, fun x hx c hc => ?_⟩
  . obtain ⟨b, hb⟩ := ht.known
    obtain ⟨b', hb', _⟩ := hs.symm.find? hb
    exact ⟨b', hb'⟩
  . obtain ⟨hch, hno⟩ := ht.leaves x hx c ((hshape.isChild c x).mp hc)
    exact ⟨hch, fun c hc => hno c ((hshape.isChild c h).mp hc)⟩

theorem Healthy.unsetDirty (ht : t.Healthy) : t.unsetDirty.Healthy := by
  refine ht.congr ⟨Store.keys_map _ _, fun x => ?_⟩ rfl rfl rfl rfl
  unfold Tree.unsetDirty Tree.find?
  rw [Store.find?_map, Option.map_map]
  rfl

theorem Healthy.update {f : BlockIndex A → BlockIndex A} (ht : t.Healthy) (hf : ∀ b, vitals (f b) = vitals b) :
    (t.update h f).Healthy :=
  ht.congr (.update t h (fun b _ => hf b)) rfl rfl rfl rfl

/-- The new tip of the active chain may be any block. -/
theorem Healthy.overrideTip (ht : t.Healthy) (hb : t.find? h = some b) : (t.overrideTip h).Healthy := by
  have hs : SameShape t (t.overrideTip h) := .of_blocks_eq rfl
  have hc := ht.consistent
  refine ⟨⟨⟨hc.wf.congr hs, hc.rooted, hc.root, ⟨b, hb⟩, ?_, hc.tips, hc.nodup⟩, ht.valid⟩, ht.leaves⟩
  rw [hs.chainTo]
  rfl

section Tips

variable [BlockAddon A]

theorem AllValid.isValidTip_iff (ht : t.AllValid) (htip : BlockAddon.validTipLevel A ≤ .connected) (hb : t.find? h = some b) :
    t.isValidTip h = true ↔ ∀ c, ¬t.IsChild c h := by
  have hcan : ∀ {x b}, t.find? x = some b → b.canBeATip = true := by
    intro x b hb
    obtain ⟨hdel, hfail, hlevel⟩ := ht.valid hb
    have hle := BlockStateStatus.le_trans htip hlevel
    simp [canBeATip, isDeleted, hasFlags, BlockStatus.hasFlags, hdel, isValid, isValidUpTo, hfail, hle]
  rw [ht.consistent.wf.isValidTip_iff]
  constructor
  . rintro ⟨_, hno⟩ c hc
    obtain ⟨bc, hbc, _⟩ := id hc
    exact hno c hc ⟨bc, hbc, hcan hbc⟩
  . intro hno
    exact ⟨⟨b, hb, hcan hb⟩, fun c hc => absurd hc (hno c)⟩

theorem Ready.tryAddTip (ht : t.Ready h) (htip : BlockAddon.validTipLevel A ≤ .connected) : (t.tryAddTip h).Healthy := by
  have hc := ht.consistent
  obtain ⟨b, hb⟩ := ht.known
  have hs : SameShape t (t.tryAddTip h) := .of_blocks_eq tryAddTip_blocks
  have hfixed : (t.tryAddTip h).fixed = t.fixed := tryAddTip_fixed
  have hnodup : (t.tryAddTip h).tips.Nodup := by
    unfold Tree.tryAddTip insertTip eraseTip
    have hfilter : ∀ p : Hash, (t.tips.filter (fun x => decide (x ≠ p))).Nodup := fun p => hc.nodup.filter _
    repeat' split
    all_goals first
      | exact hc.nodup
      | exact hfilter _
      | exact List.nodup_cons.mpr ⟨‹_›, hfilter _⟩
      | exact List.nodup_cons.mpr ⟨‹_›, hc.nodup⟩
  have hmem : ∀ x ∈ (t.tryAddTip h).tips, (x = h ∨ x ∈ t.tips) ∧ ∀ c, ¬t.IsChild c x := by
    intro x hx
    cases hval : t.isValidTip h with
    | false =>
      rw [tryAddTip_of_not_valid hval] at hx
      refine ⟨.inr hx, fun c hcx => ?_⟩
      have hno := (ht.isValidTip_iff htip hb).mpr (ht.leaves x hx c hcx).2
      rw [hval] at hno
      cases hno
    | true =>
      rw [hc.wf.mem_tryAddTip hval] at hx
      rcases hx with rfl | ⟨hx, hnc⟩
      . exact ⟨.inl rfl, (ht.isValidTip_iff htip hb).mp hval⟩
      . refine ⟨.inr hx, fun c hcx => ?_⟩
        rw [(ht.leaves x hx c hcx).1] at hcx
        exact hnc hcx
  have hfind : ∀ x, (t.tryAddTip h).find? x = t.find? x := by
    intro x
    unfold Tree.find?
    rw [tryAddTip_blocks]
  refine ⟨⟨⟨hc.wf.congr hs, fun x b hb hp => ?_, ?_, ?_, ?_, fun x hx => ?_, hnodup⟩, fun x b hb => ?_⟩,
    fun x hx c hcx => ?_⟩
  . rw [fixed_root hfixed]
    exact hc.rooted ((hfind x).symm.trans hb) hp
  . rw [fixed_root hfixed, hfind]
    exact hc.root
  . rw [fixed_activeTip hfixed, hfind]
    exact hc.tip
  . rw [tryAddTip_appliedBlockCount, fixed_activeTip hfixed, hs.chainTo]
    exact hc.count
  . rw [hfind]
    rcases (hmem x hx).1 with rfl | hx
    . exact ⟨b, hb⟩
    . exact hc.tips x hx
  . exact ht.valid ((hfind x).symm.trans hb)
  . exact (hmem x hx).2 c ((hs.isChild c x).mp hcx)

end Tips

theorem Healthy.ready (ht : t.Healthy) (hb : t.find? h = some b) : t.Ready h :=
  ⟨ht.toAllValid, ⟨b, hb⟩, fun x hx c hc => absurd hc (ht.leaves x hx c)⟩

theorem Grown.ready (hg : t.Grown block t') (ht : t.Healthy) : t'.Ready block.getHash := by
  obtain ⟨bn, hbn, _, _, _, hdel, hfail, hlevel⟩ := hg.added.new
  refine ⟨⟨hg.consistent ht.consistent, fun x b hb => ?_⟩, ⟨bn, hbn⟩, fun x hx c hc => ?_⟩
  . rcases hg.find?_cases hb with rfl | hb
    . rw [hbn] at hb
      cases hb
      exact ⟨hdel, hfail, hlevel⟩
    . exact ht.valid hb
  . rw [hg.added.tips] at hx
    rcases hg.isChild_cases hc with ⟨rfl, rfl⟩ | hc
    . exact ⟨rfl, fun c => hg.noChild ht.consistent.wf⟩
    . exact absurd hc (ht.leaves x hx c)

end Healthy

section Programs

variable [PowAddon A] {p : BlockTreeParams}

/-- Fork resolution of a tree that protects nothing. -/
theorem wlp_determineBestChainByWork {setState : Hash → M (Tree A) Bool} (ht : t.Healthy)
    (hset : ∀ x b, t.find? x = some b → wlp (setState x) (fun _ t' => t' = t.overrideTip x) t) (candidate : Hash) :
    wlp (determineBestChainByWork Lens.id setState candidate)
      (fun _ t' => t'.Healthy) t := by
  simp only [determineBestChainByWork, wlp_bind, wlp_get, wlp_getOrStop, wlp_when, wlp_pure]
  intro b hb
  refine ⟨fun _ => wlp_mono (hset candidate b hb) ?_, fun _ => ht⟩
  rintro _ t' rfl
  exact ht.overrideTip hb

end Programs

section Finalize

variable {obr : BlockIndex A → Tree A → Tree A} {payloadIds : A → List PayloadId} {tips : List Hash} {index : Hash}

/-- A tip that is listed and active is the end of the active chain. -/
theorem Healthy.eq_activeTip (ht : t.Healthy) (hx : x ∈ t.tips) (ha : x ∈ t.chainTo t.activeTip) : x = t.activeTip := by
  obtain ⟨l, hw⟩ := ht.consistent.wf.exists_walk ha
  rcases List.eq_nil_or_concat l with rfl | ⟨l, c, rfl⟩
  . exact hw.symm
  . rw [List.concat_eq_append] at hw
    exact absurd (walk_append_singleton.mp hw).2 (ht.leaves x hx c)

theorem Healthy.rerooted (ht : t.Healthy) (hobr : OnlyPayloadsIndex obr) {newRoot final : Hash} {tips' : List Hash}
    (hfinal : newRoot ∈ t.chainTo final) (ha : final ∈ t.chainTo t.activeTip) (hsub : tips'.Sublist tips)
    (hperm : tips.Perm t.tips) (hdesc : ∀ x ∈ tips', x ∈ t.chainTo t.activeTip ∨ final ∈ t.chainTo x) :
    (setTips tips' (rerooted obr newRoot final t)).Healthy := by
  have hc := ht.consistent
  have hr := hc.rerooted_restricts hobr hfinal
  have hmem : ∀ x ∈ tips', x ∈ t.tips := fun x hx => hperm.subset (hsub.subset hx)
  have hfind : ∀ {x b}, (setTips tips' (Tree.rerooted obr newRoot final t)).find? x = some b →
      (t.disconnectFromPrev newRoot).find? x = some b := fun hb => (hr.of_find? hb).2
  refine ⟨⟨hc.rerooted_consistent hobr hfinal ha hsub hperm (fun x hx => ?_), fun x b hb => ?_⟩, fun x hx c hcx => ?_⟩
  . rcases hdesc x hx with hactive | hx
    . rw [ht.eq_activeTip (hmem x hx) hactive]
      obtain ⟨bt, hbt⟩ := hc.tip
      exact hc.kept_of_active ha (hc.wf.mem_chainTo_self hbt) (hc.wf.mem_chainTo_trans hfinal ha)
    . exact hc.kept_of_final hfinal hx
  . have hb := hfind hb
    rw [find?_disconnectFromPrev] at hb
    split at hb
    . obtain ⟨b', hb', rfl⟩ := Option.map_eq_some_iff.mp hb
      have hv := ht.valid hb'
      exact hv
    . exact ht.valid hb
  . obtain ⟨b, hb, hp⟩ := hcx
    obtain ⟨b', hb', _, _, hp'⟩ := find?_disconnectFromPrev_cases (hfind hb)
    split at hp'
    . rw [hp'] at hp
      cases hp
    . exact ht.leaves x (hmem x hx) c ⟨b', hb', hp'.symm.trans hp⟩

theorem Healthy.marked (ht : t.Healthy) (hm : t.Marked t') : t'.Healthy :=
  ht.congr (hm.same.comp vitals) hm.tips hm.root hm.activeTip hm.count

theorem Healthy.finalizeBlockImpl (ht : t.Healthy) (hobr : OnlyPayloadsIndex obr) (ha : index ∈ t.chainTo t.activeTip)
    (hperm : tips.Perm t.tips) (preserve : Nat) :
    wlp (finalizeBlockImpl obr payloadIds tips index preserve) (fun _ t' => t'.Healthy) t := by
  have hc := ht.consistent
  by_cases hne : index = t.root
  . obtain ⟨b, hb, _⟩ := hc.root
    have hmark := wlp_of_wp (Keeps.when (p := !b.finalized) (keeps_markFinalized payloadIds t.root) () t (.refl t))
    rw [wlp_iff, hne, hc.finalizeBlockImpl_root hb, ← wlp_iff]
    exact wlp_mono hmark (fun _ _ hm => ht.marked hm)
  . obtain ⟨tips', final, newRoot, _, he, hmem, _, hrun⟩ :=
      hc.finalizeBlockImpl_eq obr payloadIds ha hne hperm.subset preserve
    have hlow := hc.lowestDirty_active ha
    have hfinal := hc.wf.mem_chainTo_trans (he.final_mem hc.wf hlow) hlow
    have hroot := ht.rerooted hobr hmem hfinal he.subset hperm (fun x hx => he.mem_descends hc.wf hlow hx)
    have hmark := wlp_of_wp (keeps_markFinalizedChain payloadIds ((Tree.rerooted obr newRoot final t).chainTo final) ()
      (setTips tips' (Tree.rerooted obr newRoot final t)) (.refl _))
    rw [wlp_iff, hrun, ← wlp_iff]
    exact wlp_mono hmark (fun _ _ hm => hroot.marked hm)

/-- Finalization leaves a healthy tree healthy. -/
theorem Healthy.finalizeBlocks (ht : t.Healthy) (hobr : OnlyPayloadsIndex obr) (hperm : tips.Perm t.tips)
    (maxReorgBlocks preserve : Nat) (limit : Option Nat) :
    wlp (finalizeBlocks obr payloadIds tips maxReorgBlocks preserve limit) (fun _ t' => t'.Healthy) t := by
  simp only [AltIntegration.finalizeBlocks, wlp_bind, wlp_get, wlp_ite, wlp_pure, wlp_getOrStop]
  refine ⟨fun _ => ht, fun _ index hindex => ⟨fun _ => ht, fun _ => ?_⟩⟩
  exact ht.finalizeBlockImpl hobr (List.mem_of_find?_eq_some hindex) hperm preserve

end Finalize

end Tree

end AltIntegration
