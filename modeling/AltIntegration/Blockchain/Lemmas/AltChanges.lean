import AltIntegration.Blockchain.Lemmas.SystemChanges

/-!
This module contains that the calls of the system make no changes but the elementary ones. Only a call
that connects blocks may change the level of a block that is not dirty.
-/

namespace AltIntegration

open Program BlockIndex

variable {α : Type} {D : Permit} {cfg : Config} {s : AltState} {h : Hash}

/-- The blocks that are connected when `h` is: those with payloads, up to the first one without. -/
inductive Tree.Awaiting {A : Type} (t : Tree A) : Hash → Hash → Prop where
  | self {h : Hash} {b : BlockIndex A} (hb : t.find? h = some b) (hp : b.status.hasPayloads = true) : Awaiting t h h
  | above {h c y : Hash} {b : BlockIndex A} (hb : t.find? h = some b) (hp : b.status.hasPayloads = true)
      (hc : t.IsChild c h) (hy : Awaiting t c y) : Awaiting t h y

section Bodies

variable {A S : Type} [BlockAddon A] [StoredAddon A S] {R : TreeRules A} {t t' : Tree A}

omit [BlockAddon A] [StoredAddon A S] in
theorem Tree.Awaiting.congr {x y : Hash} (hs : t.SameOn BlockIndex.body t') (hy : t'.Awaiting x y) : t.Awaiting x y := by
  have hshape : t.SameShape t' := hs.comp Prod.fst
  have hfind : ∀ {z b'}, t'.find? z = some b' → b'.status.hasPayloads = true →
      ∃ b, t.find? z = some b ∧ b.status.hasPayloads = true := by
    intro z b' hb' hp
    obtain ⟨b, hb, heq⟩ := hs.find? hb'
    refine ⟨b, hb, ?_⟩
    rw [(Prod.mk.inj (Prod.mk.inj heq).2).1]
    exact hp
  induction hy with
  | self hb hp =>
    obtain ⟨b, hb, hp⟩ := hfind hb hp
    exact .self hb hp
  | above hb hp hc _ ih =>
    obtain ⟨b, hb, hp⟩ := hfind hb hp
    exact .above hb hp ((hshape.isChild _ _).mp hc) ih

/-- All blocks but `h` are as they were. -/
def Tree.OnlyAt (h : Hash) (t t' : Tree A) : Prop := ∀ z, h ≠ z → t'.find? z = t.find? z

omit [BlockAddon A] [StoredAddon A S] in
/-- When only the block `h` is another, the ways above other blocks are the same, up to `h`. -/
theorem Tree.Awaiting.elsewhere {h x y : Hash} (ht : t.OnlyAt h t') (hy : t'.Awaiting x y) :
    t.Awaiting x y ∨ y = h ∨ ∃ c, t.IsChild c h ∧ t.Awaiting c y := by
  induction hy with
  | @self x b hb hp =>
    by_cases hx : h = x
    . exact .inr (.inl hx.symm)
    . rw [ht x hx] at hb
      exact .inl (.self hb hp)
  | @above x c y b hb hp hc _ ih =>
    rcases ih with hcy | hrest
    . by_cases hch : h = c
      . subst hch
        cases hcy with
        | self => exact .inr (.inl rfl)
        | above _ _ hc' hy' => exact .inr (.inr ⟨_, hc', hy'⟩)
      . obtain ⟨bc, hbc, hpc⟩ := hc
        rw [ht c hch] at hbc
        by_cases hx : h = x
        . subst hx
          exact .inr (.inr ⟨c, ⟨bc, hbc, hpc⟩, hcy⟩)
        . rw [ht x hx] at hb
          exact .inl (.above hb hp ⟨bc, hbc, hpc⟩ hcy)
    . exact .inr hrest

/-- The blocks that only wait for the payloads of `h` to be connected are dirty. -/
def Tree.DirtyAbove (t : Tree A) (h : Hash) : Prop := ∀ c y, t.IsChild c h → t.Awaiting c y → t.Dirty y

omit [BlockAddon A] [StoredAddon A S] in
/-- So they are after a change of `h` that makes it dirty. -/
theorem Tree.DirtyAbove.awaiting {h x y : Hash} (hh : t.DirtyAbove h) (ht : t.OnlyAt h t')
    (hdirty : t'.Dirty h) (hx : x = h ∨ t'.IsChild x h) (hy : t'.Awaiting x y) : t'.Dirty y := by
  have hkeep : t.Dirty y → t'.Dirty y := by
    rintro ⟨b, hb, hd⟩
    by_cases heq : h = y
    . subst heq
      exact hdirty
    . exact ⟨b, (ht y heq).trans hb, hd⟩
  rcases hy.elsewhere ht with hold | rfl | ⟨c, hc, hcy⟩
  . by_cases heq : h = x
    . subst heq
      cases hold with
      | self => exact hdirty
      | above _ _ hc hcy => exact hkeep (hh _ y hc hcy)
    . obtain ⟨b, hb, hp⟩ := hx.resolve_left (fun h => heq h.symm)
      exact hkeep (hh x y ⟨b, (ht x heq).symm.trans hb, hp⟩ hold)
  . exact hdirty
  . exact hkeep (hh c y hc hcy)

end Bodies

theorem AltState.Changes.mono {E : Permit} {s' : AltState} (hE : D.Le E) (hs : AltState.Changes D s s') :
    AltState.Changes E s s' := by
  have hle : D.protecting.Le E.protecting := ⟨hE.levels, fun h => h, hE.drafts, fun h => h⟩
  exact ⟨hs.alt.mono hE, hs.sp.vbk.mono hle, hs.sp.btc.mono ⟨hle.levels, fun h => h, hle.drafts, hle.fails⟩⟩

section OnlyAt

variable {A : Type} {h : Hash}

theorem Tree.OnlyAt.trans {t t' t'' : Tree A} (ht : t.OnlyAt h t') (ht' : t'.OnlyAt h t'') : t.OnlyAt h t'' :=
  fun z hz => (ht' z hz).trans (ht z hz)

theorem modifyBlock_onlyAt (f : BlockIndex A → BlockIndex A) : Stays (Tree.OnlyAt h) (modifyBlock h f) :=
  Stays.modify (fun _ _ _ => .trans) (fun _ _ hz => Tree.find?_update_of_ne hz)

theorem derefBlock_onlyAt (x : Hash) : Stays (Tree.OnlyAt h) (derefBlock x : M (Tree A) (BlockIndex A)) :=
  .bind .get (fun _ => Stays.getOrStop)

theorem modify_onlyAt {f : Tree A → Tree A} (hf : ∀ t, (f t).blocks = t.blocks) :
    Stays (Tree.OnlyAt h) (modify f : M (Tree A) PUnit) := by
  refine Stays.modify (fun _ _ _ => .trans) (fun t z _ => ?_)
  unfold Tree.find?
  rw [hf]

theorem raiseValidity_onlyAt (upTo : BlockStateStatus) :
    Stays (Tree.OnlyAt h) (raiseValidity h upTo : M (Tree A) Bool) := by
  refine .bind (derefBlock_onlyAt h) (fun b => .ite (.pure _) (.ite (.bind ?_ (fun _ =>
    .bind (modifyBlock_onlyAt _) (fun _ => .pure _))) (.pure _)))
  unfold raiseValidity.assertAncestorLevel
  split
  . exact .pure _
  . exact .bind (derefBlock_onlyAt _) (fun _ => Stays.check)

variable [BlockAddon A]

theorem insertBlockHeader_onlyAt (header : Block) :
    Stays (Tree.OnlyAt header.hash) (insertBlockHeader (fun _ t => t) header : M (Tree A) Unit) := by
  have hrestored : Stays (Tree.OnlyAt header.hash)
      (insertBlockHeader.insertRestored (fun _ t => t) header : M (Tree A) Unit) := by
    refine .bind (.bind (derefBlock_onlyAt _) (fun _ => .bind Stays.check (fun _ => .bind (.when ?_) (fun _ =>
      modifyBlock_onlyAt _)))) (fun _ => .bind ?_ (fun _ => .bind ?_ (fun _ => .bind (raiseValidity_onlyAt _) (fun _ =>
      .pure _))))
    . exact modify_onlyAt (fun _ => rfl)
    . exact modify_onlyAt (fun _ => Tree.tryAddTip_blocks)
    . exact modify_onlyAt (fun _ => rfl)
  refine .bind Stays.check (fun _ => .bind .get (fun t => ?_))
  split
  . exact .ite (.bind Stays.check (fun _ => hrestored)) (.pure _)
  . refine .bind (.bind .get (fun _ => .bind Stays.getOrStop (fun prev => ?_))) (fun _ => hrestored)
    exact Stays.modify (fun _ _ _ => .trans) (fun t z hz => by rw [Tree.find?_createBlockIndex, if_neg hz])

end OnlyAt

namespace AltBlockTree

/-- Inserting a header changes no other block, and makes the block dirty if it changes it at all. -/
theorem wlp_acceptBlockHeader (hD : D.bodies) (block : Block) : wlp (acceptBlockHeader block) (fun _ s' =>
    AltState.Changes D s s' ∧ s.alt.OnlyAt block.hash s'.alt ∧
      (s'.alt.Dirty block.hash ∨ s'.alt.blocks = s.alt.blocks)) s := by
  simp only [acceptBlockHeader, wlp_bind, wlp_check, wlp_get, wlp_ite, wlp_pure]
  have hsame := AltState.lifts_alt.refl (D := D) s
  refine fun _ => ⟨fun _ => ⟨hsame, fun _ _ => rfl, .inr trivial⟩, fun _ => ?_⟩
  split
  . exact ⟨hsame, fun _ _ => rfl, .inr rfl⟩
  . simp only [wlp_bind]
    rw [wlp_zoom]
    have hinsert : wlp (insertBlockHeader (fun _ t => t) block) (fun _ t => Tree.Changes D altRules s.alt t ∧
        (t.Dirty block.hash ∨ t = s.alt ∧ (s.alt.getBlockIndex block.hash).isSome)) s.alt :=
      Changing.wlp_insertBlockHeader hD altRules_lawful (fun t => .fields rfl rfl rfl rfl rfl (.inr rfl))
    refine wlp_mono (wlp_and hinsert (insertBlockHeader_onlyAt block s.alt s.alt (fun _ _ => rfl))) ?_
    rintro _ t ⟨⟨ht, hdirty⟩, honly⟩
    have h1 : AltState.Changes D s { s with alt := t } := ⟨ht, VbkState.lifts_vbk.refl _⟩
    have hdirty : t.Dirty block.hash ∨ t.blocks = s.alt.blocks := by
      refine hdirty.imp_right (fun h => ?_)
      rw [h.1]
    simp only [wlp_zoom_derefBlock, wlp_ite, wlp_bind, wlp_pure]
    refine fun _ _ => ⟨fun _ => ⟨h1, honly, hdirty⟩, fun _ => ?_⟩
    rw [wlp_zoom, wlp_modify]
    have htip : (t.tryAddTip block.hash).blocks = t.blocks := Tree.tryAddTip_blocks
    refine ⟨AltState.lifts_alt.trans s _ _ h1 ⟨.single (.tryAddTip t block.hash), VbkState.lifts_vbk.refl _⟩,
      fun z hz => ?_, ?_⟩
    . rw [← honly z hz]
      show (t.tryAddTip block.hash).blocks.find? z = t.blocks.find? z
      rw [htip]
    . exact hdirty.imp (fun h => Tree.Changes.dirty (D := D) altRules_lawful (.single (.tryAddTip t block.hash)) h)
        (fun h => htip.trans h)

theorem commitPayloadsIds_blocks (h : Hash) (p : PopData) (t : Tree AltAddon) : ∃ f : BlockIndex AltAddon → AltAddon,
    (commitPayloadsIds h p t).blocks = (t.update h (fun b => b.setAddon (f b))).blocks := by
  refine ⟨fun b => { vbkblockids := p.context.map PowBlock.getHash, vtbids := p.vtbs.map VTB.getId
                     atvids := p.atvs.map ATV.getId, popState := b.addon.popState }, ?_⟩
  unfold commitPayloadsIds
  rw [foldl_addToPayloadsIndex_blocks]

/-- Setting the payloads of a block changes no other block, and makes the block dirty. -/
theorem wlp_setPayloads (hD : D.bodies) (hpresent : s.alt.Present h) (p : PopData) : wlp (setPayloads h p) (fun _ s' => AltState.Changes D s s' ∧
    s'.alt.Dirty h ∧ s.alt.OnlyAt h s'.alt ∧ s.alt.SameOn (fun b => (b.shape, b.status.level)) s'.alt) s := by
  simp only [setPayloads, wlp_bind, wlp_zoom_derefBlock, wlp_check]
  intro b hb _ hp ha hr _
  simp only [wlp_zoom, wlp_modify, wlp_modifyBlock]
  have hb : s.alt.find? h = some b := hb
  have hcommit : Tree.Change D altRules s.alt
      ((commitPayloadsIds h p s.alt).update h (fun b => b.setFlag .hasPayloads)) := by
    obtain ⟨b', hb', hd⟩ := hpresent
    have hsame : b' = b := Option.some.inj (hb'.symm.trans hb)
    refine .payloads hD (.commit p hb (hsame ▸ hd) ?_ ?_ ?_)
    . simpa [hasFlags, BlockStatus.hasFlags] using hp
    . simpa [hasFlags, BlockStatus.hasFlags] using ha
    . intro hnone
      rw [isRoot, hnone] at hr
      cases hr
  obtain ⟨f, hblocks⟩ := commitPayloadsIds_blocks h p s.alt
  have hf : ∀ x, (commitPayloadsIds h p s.alt).find? x = (s.alt.update h (fun b => b.setAddon (f b))).find? x := by
    intro x
    unfold Tree.find?
    rw [hblocks]
  refine ⟨⟨.single hcommit, .refl, .refl⟩, ?_, fun x hx => ?_, ?_⟩
  . refine ⟨(b.setAddon (f b)).setFlag .hasPayloads, ?_, setStatus_dirty_of_dirty _ rfl⟩
    show ((commitPayloadsIds h p s.alt).update h _).find? h = _
    rw [Tree.find?_update_self, hf, Tree.find?_update_self, hb]
    rfl
  . show ((commitPayloadsIds h p s.alt).update h _).find? x = s.alt.find? x
    rw [Tree.find?_update_of_ne hx, hf, Tree.find?_update_of_ne hx]
  . have hfirst : s.alt.SameOn (fun b => (b.shape, b.status.level)) (s.alt.update h (fun b => b.setAddon (f b))) :=
      .update s.alt h (fun _ _ => rfl)
    refine (hfirst.trans (.of_blocks_eq hblocks)).trans (.update _ h (fun b _ => ?_))
    rw [setFlag, setStatus_shape, setStatus_status]
    rfl

/-- Every block that is connected together with `h` is dirty. -/
def Connectable (D : Permit) (t : Tree AltAddon) (h : Hash) : Prop := ∀ y, t.Awaiting h y → D.levels ∨ t.Dirty y

theorem wlp_connectBlock (hF : D.fails) (hd : D.levels ∨ s.alt.Dirty h) :
    wlp (connectBlock cfg h) (fun _ => AltState.Changes D s) s := by
  simp only [connectBlock, wlp_bind, wlp_zoom_derefBlock, wlp_check, wlp_getOrStop, wlp_get]
  intro index hb _ _ _ p _ prev _ _ _
  refine wlp_mono (AltState.lifts_alt.wlp_zoom (Changing.wlp_raiseValidity (D := D) (fun b' hb' => ?_))) ?_
  . refine hd.imp_right (fun hd => .inl ?_)
    obtain ⟨b, hb, hdirty⟩ := hd
    have heq : some b = some b' := hb.symm.trans hb'
    cases heq
    exact hdirty
  . intro ok s1 h1 _
    refine wlp_mono ((Keeps.when (altClass_obeys.invalidateSubtree hF h .failedPop false) : Stays _ _) s s1 h1) ?_
    exact fun _ s2 h2 => (AltState.lifts_alt.zoom (Changing.tryAddTip h)) s s2 h2

/-- Connecting blocks changes no bodies, so the blocks that are still to be connected stay dirty. -/
theorem wlp_connectSubtree (hF : D.fails) (hD : ¬D.bodies) (n : Nat) (hs : s.alt.blocks.keys.Nodup) (hh : Connectable D s.alt h) :
    wlp (connectSubtree cfg n h) (fun _ => AltState.Changes D s) s := by
  induction n generalizing s h with
  | zero => exact AltState.lifts_alt.refl s
  | succ n ih =>
    simp only [connectSubtree, wlp_bind, wlp_zoom_derefBlock, wlp_when, wlp_get]
    refine fun index hb => ⟨fun hp => ?_, fun _ => AltState.lifts_alt.refl s⟩
    have hb : s.alt.find? h = some index := hb
    refine wlp_mono (wlp_connectBlock hF (hh h (.self hb hp))) ?_
    intro _ s1 h1
    refine wlp_forEach (I := AltState.Changes D s) (fun c hc s2 h2 => ?_) h1
    refine wlp_mono (ih (h2.alt.nodup altRules_lawful hs) (fun y hy => ?_))
      (fun _ s3 h3 => AltState.lifts_alt.trans s s2 s3 h2 h3)
    have hbody := h2.alt.body hD
    have hshape : s.alt.SameShape s1.alt := (h1.alt.body hD).comp Prod.fst
    refine (hh y (.above hb hp ?_ (hy.congr hbody))).imp_right (fun hd => h2.alt.dirty altRules_lawful hd)
    obtain ⟨bc, hbc, hp⟩ := (Store.mem_keysWhere (h1.alt.nodup altRules_lawful hs)).mp (List.mem_reverse.mp hc)
    exact (hshape.isChild c h).mp ⟨bc, hbc, by simpa using hp⟩

/-- The block before `h` is connected. -/
def ParentConnected (t : Tree AltAddon) (h : Hash) : Prop :=
  ∃ b p bp, t.find? h = some b ∧ b.pprev = some p ∧ t.find? p = some bp ∧ bp.isConnected = true

theorem ParentConnected.congr {t t' : Tree AltAddon} (hs : t.SameOn (fun b => (b.shape, b.status.level)) t')
    (ht : ParentConnected t' h) : ParentConnected t h := by
  obtain ⟨b', p, bp', hb', hp, hbp', hc⟩ := ht
  obtain ⟨b, hb, heq⟩ := hs.find? hb'
  obtain ⟨bp, hbp, heqp⟩ := hs.find? hbp'
  refine ⟨b, p, bp, hb, ?_, hbp, ?_⟩
  . rw [(shape_eq_iff.mp (Prod.mk.inj heq).1).2.1]
    exact hp
  . rw [isConnected, isValidUpTo, (Prod.mk.inj heqp).2]
    exact hc

theorem wlp_acceptBlock (hB : D.bodies) (hF : D.fails) (p : PopData) (hs : s.alt.blocks.keys.Nodup)
    (hD : D.levels ∨ (ParentConnected s.alt h → s.alt.DirtyAbove h)) :
    wlp (acceptBlock cfg h p) (fun _ => AltState.Changes D s) s := by
  simp only [acceptBlock, wlp_bind, wlp_get, wlp_check]
  intro hsome
  have hpresent : s.alt.Present h := by
    obtain ⟨b, hb⟩ := Option.isSome_iff_exists.mp hsome
    exact ⟨b, Tree.getBlockIndex_eq_some.mp hb⟩
  refine wlp_mono (wlp_setPayloads hB hpresent p) ?_
  rintro _ s1 ⟨h1, hdirty, honly, hsame⟩
  simp only [wlp_zoom_derefBlock, wlp_getOrStop, wlp_when]
  refine fun index hb parent hp prev hprev => ⟨fun hc => ?_, fun _ => h1⟩
  have hle : Permit.Le { D with bodies := False } D := ⟨fun h => h, False.elim, fun h => h, fun h => h⟩
  refine wlp_mono (wlp_connectSubtree (D := { D with bodies := False }) hF (fun h => h) _
    (h1.alt.nodup altRules_lawful hs) (fun y hy => ?_)) ?_
  . refine hD.imp_right (fun hD => ?_)
    have hparent : ParentConnected s1.alt h := ⟨index, parent, prev, hb, hp, hprev, hc⟩
    exact (hD (hparent.congr hsame)).awaiting honly hdirty (.inl rfl) hy
  . exact fun _ s2 h2 => AltState.lifts_alt.trans s s1 s2 h1 (h2.mono hle)

theorem wlp_disconnect {t : Tree AltAddon} (hF : D.fails) (ht : t.Dirty h) :
    wlp (disconnect h) (fun _ => Tree.Changes D altRules t) t := by
  simp only [disconnect, lowerValidity, wlp_bind, wlp_derefBlock, wlp_when, wlp_ite, wlp_modifyBlock, wlp_pure, wlp_check]
  refine fun _ _ => ⟨fun _ _ _ => ⟨fun _ _ => ?_, fun _ _ => .refl⟩, fun _ => .refl⟩
  refine .single (.block (fun b hb => .level _ (.inr ?_) (.inl hF)))
  obtain ⟨b', hb', hd⟩ := ht
  rw [hb] at hb'
  cases hb'
  exact hd

/-- Taking its payloads away makes the block dirty. -/
theorem dirty_unsetHasPayloads {t : Tree AltAddon} {b : BlockIndex AltAddon} (hb : t.find? h = some b)
    (hp : b.status.hasPayloads = true) : ((clearSideEffects h t).update h (fun b => b.unsetFlag .hasPayloads)).Dirty h := by
  have hstatus : ∃ b', (clearSideEffects h t).find? h = some b' ∧ b'.status = b.status := by
    unfold clearSideEffects
    rw [hb]
    dsimp only
    split
    . obtain ⟨f, g, hf⟩ := AltBlockTree.onlyPayloadsIndex b
      refine ⟨b.setAddon b.addon.clearPayloads, ?_, rfl⟩
      rw [Tree.find?_update_self, hf]
      show (t.find? h).map _ = _
      rw [hb]
      rfl
    . exact ⟨b, hb, rfl⟩
  obtain ⟨b', hb', heq⟩ := hstatus
  refine ⟨b'.unsetFlag .hasPayloads, ?_, unsetFlag_dirty ?_⟩
  . rw [Tree.find?_update_self, hb']
    rfl
  . rw [show b'.hasFlags .hasPayloads = b'.status.hasPayloads from rfl, heq]
    exact hp

theorem payloadIds_clearSideEffects {t : Tree AltAddon} {b : BlockIndex AltAddon}
    (hb : (clearSideEffects h t).find? h = some b) : b.addon.payloadIds = [] := by
  unfold clearSideEffects at hb
  split at hb
  . next hnone =>
    rw [hnone] at hb
    cases hb
  . next b0 hb0 =>
    split at hb
    . obtain ⟨f, g, hf⟩ := AltBlockTree.onlyPayloadsIndex b0
      rw [Tree.find?_update_self, hf] at hb
      obtain ⟨b1, _, rfl⟩ := Option.map_eq_some_iff.mp hb
      rfl
    . next hempty =>
      rw [hb0] at hb
      cases hb
      simp only [PopAddon.hasPayloads, Bool.or_eq_true, Bool.not_eq_true', not_or, Bool.not_eq_false,
        List.isEmpty_iff] at hempty
      simp [AltAddon.payloadIds, hempty]

theorem removePayloads_stays (hD : D.bodies) (hF : D.fails) (h : Hash) : Stays (AltState.Changes D) (removePayloads cfg h) := by
  refine Stays.of_wlp AltState.lifts_alt.trans (fun s => ?_)
  simp only [removePayloads, wlp_bind, wlp_get, wlp_getOrStop, wlp_check]
  intro index hindex prev _ hp ha _
  obtain ⟨hb, _⟩ := Tree.getBlockIndex_eq_some.mp hindex
  rw [wlp_zoom, wlp_modify, wlp_zoom, wlp_modifyBlock]
  have hclear : Tree.Change D altRules s.alt (clearSideEffects h s.alt) :=
    .payloads hD (.clear hb (by simpa [hasFlags, BlockStatus.hasFlags] using ha))
  have hflag : Tree.Change D altRules (clearSideEffects h s.alt)
      ((clearSideEffects h s.alt).update h (fun b => b.unsetFlag .hasPayloads)) :=
    .block (fun _ hb => .hasPayloads false hD (fun _ => payloadIds_clearSideEffects hb))
  have h1 : AltState.Changes D s { s with alt := (clearSideEffects h s.alt).update h (fun b => b.unsetFlag .hasPayloads) } :=
    ⟨.tail (.single hclear) hflag, .refl, .refl⟩
  refine wlp_mono (((altClass_obeys (D := D)).revalidateSubtree hF h .failedPop false).wlp AltState.lifts_alt.refl _) ?_
  intro _ s2 h2
  refine wlp_mono (AltState.lifts_alt.wlp_zoom (D := D) ?_) (fun _ s3 h3 =>
    AltState.lifts_alt.trans s _ s3 h1 (AltState.lifts_alt.trans _ s2 s3 h2 h3))
  rw [wlp_bind]
  refine wlp_mono (wlp_disconnect (D := D) hF (h2.alt.dirty altRules_lawful (dirty_unsetHasPayloads hb hp))) ?_
  intro _ t ht
  refine (?_ : Changing D altRules _) s2.alt t ht
  exact .bind (Changing.eraseTip h) (fun _ => Changing.tryAddTip prev)

theorem comparePopScore_stays (x y : Hash) : Stays (AltState.Changes D) (comparePopScore cfg x y) := by
  refine .bind .get (fun _ => .bind Stays.getOrStop (fun _ => .bind Stays.check (fun _ => ?_)))
  split
  . exact .pure _
  . exact .bind Stays.check (fun _ => .bind Stays.check (fun _ => .bind (stateMachine_obeys.comparePopScore _ _) (fun _ =>
      .bind (.when (AltState.lifts_alt.fields (fun _ => rfl) (fun _ => rfl) (fun _ => rfl) (fun _ => rfl) (fun _ => rfl) (fun _ => rfl))) (fun _ =>
      .pure _))))

theorem setStateByHash_stays (h : Hash) : Stays (AltState.Changes D) (setStateByHash cfg h) := by
  refine .bind .get (fun _ => ?_)
  split
  . exact .pure _
  . exact setState_stays h

end AltBlockTree

section MemPool

variable {limits : PopDataLimits} {c : TreeClass AltState AltAddon}

theorem Tree.DirtyAbove.congr {t t' : Tree AltAddon} {h : Hash} (hh : t.DirtyAbove h) (ht : t'.blocks = t.blocks) :
    t'.DirtyAbove h := by
  have hfind : ∀ x, t'.find? x = t.find? x := by
    intro x
    unfold Tree.find?
    rw [ht]
  rintro c y ⟨b, hb, hp⟩ hy
  obtain ⟨b', hb', hd⟩ := hh c y ⟨b, (hfind c).symm.trans hb, hp⟩ (hy.congr (.of_blocks_eq ht))
  exact ⟨b', (hfind y).trans hb', hd⟩

namespace BlockPayloadMutator

theorem getCommand_stays (h : Hash) (id : PayloadId) : Stays (AltState.Changes D) (getCommand h id) := by
  refine .bind .get (fun s => ?_)
  cases id with
  | vbk hash => exact .bind Stays.getOrStop (fun _ => .pure _)
  | vtb vid => exact .bind Stays.getOrStop (fun _ => .pure _)
  | atv aid => exact .bind Stays.getOrStop (fun _ => .pure _)

theorem create_stays (h : Hash) : Stays (AltState.Changes D) (create h) :=
  .bind (AltState.lifts_alt.zoom (Changing.derefBlock h)) (fun _ => .bind Stays.check (fun _ => .bind Stays.check (fun _ =>
    .bind Stays.check (fun _ => .bind .get (fun _ => .bind Stays.check (fun _ => .pure _))))))

theorem add_stays (hD : D.bodies) (hd : D.drafts) (m : MutatorState) (p : Payload) :
    Stays (AltState.Changes D) (add cfg MemPoolBlockTree.tmpHash m p) := by
  refine .bind Stays.check (fun _ => .bind (AltState.lifts_alt.zoom (Changing.derefBlock _)) (fun _ =>
    .bind Stays.getOrStop (fun _ => .bind .get (fun _ => .ite (.pure _) (.bind ?_ (fun _ => .ite (.pure _)
    (.bind (getCommand_stays _ _) (fun _ => .bind ?_ (fun _ => .ite (.pure _) (.bind ?_ (fun _ => .pure _)))))))))))
  . exact AltState.lifts_alt.zoom (.change (fun _ => .drafts hD hd (.insert _)))
  . exact AltBlockTree.stateMachine_obeys.of_quiet (AltBlockTree.stateMachine_obeys.executeGroup _)
  . exact AltState.lifts_alt.zoom (.change (fun _ => .drafts hD hd (.remove _)))

end BlockPayloadMutator

namespace MemPoolBlockTree

theorem applyPayload_stays (hD : D.bodies) (hd : D.drafts) (m : MutatorState) (p : Payload) :
    Stays (AltState.Changes D) (applyPayload cfg limits tmpHash m p) :=
  .ite (.pure _) (.ite (.pure _) (.bind (BlockPayloadMutator.add_stays hD hd m p) (fun _ => .ite (.pure _) (.pure _))))

theorem applyPayloadsOrRemoveIfInvalid_stays (hD : D.bodies) (hd : D.drafts) (payload : α → Payload) (ps : List α) (m : MutatorState) :
    Stays (AltState.Changes D) (applyPayloadsOrRemoveIfInvalid cfg limits payload tmpHash ps m) := by
  induction ps generalizing m with
  | nil => exact .pure _
  | cons p ps ih => exact .bind (applyPayload_stays hD hd m _) (fun r => .bind (ih r.2) (fun _ => .pure _))

theorem tryPayloads_stays (hD : D.bodies) (hd : D.drafts) (pop : PopData) : Stays (AltState.Changes D) (tryPayloads cfg limits pop) :=
  .bind (BlockPayloadMutator.create_stays _) (fun _ => .bind (applyPayloadsOrRemoveIfInvalid_stays hD hd _ _ _) (fun _ =>
    .bind (applyPayloadsOrRemoveIfInvalid_stays hD hd _ _ _) (fun _ =>
    .bind (applyPayloadsOrRemoveIfInvalid_stays hD hd _ _ _) (fun _ => .bind Stays.check (fun _ => .pure _)))))

/-- The blocks of `t'` are those of `t`, but for one that is gone. -/
def Forgets {A : Type} (h : Hash) (t t' : Tree A) : Prop :=
  (t.blocks.keys.Nodup → t'.blocks.keys.Nodup) ∧ t'.find? h = none ∧ t.OnlyAt h t'

theorem wlp_deallocateTmp (t : Tree AltAddon) : wlp deallocateTmp (fun _ t' => Forgets tmpHash t t') t := by
  simp only [deallocateTmp, wlp_bind, wlp_derefBlock, wlp_modify, wlp_check, wlp_get]
  intro index _ _ _
  refine ⟨fun hn => ?_, ?_, fun z hz => ?_⟩
  . show ((t.disconnectFromPrev tmpHash).blocks.erase tmpHash).keys.Nodup
    rw [Store.keys_erase, show (t.disconnectFromPrev tmpHash).blocks.keys = _ from Store.keys_modify _ _ _]
    exact hn.filter _
  . show ((t.disconnectFromPrev tmpHash).blocks.erase tmpHash).find? tmpHash = none
    rw [Store.find?_erase, if_pos rfl]
  . show ((t.disconnectFromPrev tmpHash).blocks.erase tmpHash).find? z = t.find? z
    rw [Store.find?_erase, if_neg hz, ← Tree.find?_update_of_ne (f := fun b => { b with pprev := none }) hz]
    rfl

/-- The trees have changed by elementary changes, and the temporary block is gone. -/
structure Filters (D : Permit) (s s' : AltState) : Prop where
  alt : ∃ t, Tree.Changes D altRules s.alt t ∧ (t = s'.alt ∨ Forgets tmpHash t s'.alt)
  sp : VbkState.Changes D.protecting s.sp s'.sp

theorem wlp_zoom_sp {m : M VbkState α} (hm : Stays (VbkState.Changes D.protecting) m) : wlp (zoom AltState.spState m)
    (fun _ s' => s'.alt = s.alt ∧ VbkState.Changes D.protecting s.sp s'.sp) s := by
  rw [wlp_zoom]
  exact wlp_mono (hm.wlp VbkState.lifts_vbk.refl _) (fun _ _ h => ⟨rfl, h⟩)

/-- The temporary block is accepted, with an empty body. -/
theorem wlp_acceptTmp (cfg : Config) (hB : D.bodies) (hF : D.fails) (hs : s.alt.blocks.keys.Nodup) (hD : D.levels ∨ s.alt.DirtyAbove tmpHash)
    (pop : PopData) : wlp (do
      let ret ← AltBlockTree.acceptBlockHeader (tmpBlock s.alt)
      check ret .tmpBlockRejected
      modify fun s => { s with sp := { s.sp with storage := s.sp.storage.writePayloads pop } }
      AltBlockTree.acceptBlock cfg tmpHash { context := [], vtbs := [], atvs := [] })
    (fun _ => AltState.Changes D s) s := by
  simp only [wlp_bind, wlp_check, wlp_modify]
  refine wlp_mono (AltBlockTree.wlp_acceptBlockHeader hB _) ?_
  rintro _ s1 ⟨h1, honly, hdirty⟩ _
  have h2 : AltState.Changes D s { s1 with sp := { s1.sp with storage := s1.sp.storage.writePayloads pop } } :=
    ⟨h1.alt, h1.sp.vbk, h1.sp.btc⟩
  refine wlp_mono (AltBlockTree.wlp_acceptBlock hB hF _ (h1.alt.nodup altRules_lawful hs) (hD.imp_right fun hD => ?_))
    (fun _ s3 h3 => AltState.lifts_alt.trans s _ s3 h2 h3)
  rcases hdirty with hdirty | hsame
  . exact fun _ x y hx hy => hD.awaiting honly hdirty (.inr hx) hy
  . exact fun _ => hD.congr hsame

theorem wlp_filterInvalidPayloads (hc : c.Obeys D altRules (AltState.Changes D)) (hB : D.bodies) (hd : D.drafts) (hF : D.fails)
    (hs : s.alt.blocks.keys.Nodup) (pop : PopData) (hD : D.levels ∨ (pop.isEmpty = false → s.alt.DirtyAbove tmpHash)) :
    wlp (filterInvalidPayloads cfg limits c pop) (fun _ => Filters D s) s := by
  have hafter : ∀ s1 : AltState, AltState.Changes D s s1 → wlp (do
      let success ← c.setState tmpHash
      check success .setStateMustSucceed
      let valid ← tryPayloads cfg limits pop
      removeSubtree c tmpHash
      pure valid) (fun _ => AltState.Changes D s) s1 := by
    intro s1 h1
    refine (?_ : Stays (AltState.Changes D) _) s s1 h1
    exact .bind (hc.setState tmpHash) (fun _ => .bind Stays.check (fun _ => .bind (tryPayloads_stays hB hd pop) (fun _ =>
      .bind (hc.removeSubtree hB tmpHash) (fun _ => .pure _))))
  simp only [filterInvalidPayloads, wlp_ite]
  refine ⟨fun _ => ⟨⟨s.alt, .refl, .inl rfl⟩, VbkState.lifts_vbk.refl _⟩, fun hpop => ?_⟩
  have hD : D.levels ∨ s.alt.DirtyAbove tmpHash := hD.imp_right (fun h => h (by simpa using hpop))
  have htmp := fun s1 (hs1 : s1.alt = s.alt) => wlp_acceptTmp (s := s1) cfg hB hF (hs1 ▸ hs) (hs1 ▸ hD) pop
  simp only [wlp_bind, wlp_check, wlp_modify, wlp_pure] at hafter htmp
  simp only [wlp_bind, wlp_pure, wlp_get, wlp_check, wlp_modify]
  refine wlp_mono (wlp_zoom_sp (D := D) vbkClass_obeys.deferForkResolution) ?_
  rintro _ s1 ⟨halt1, hsp1⟩
  have h1 : AltState.Changes D s s1 := ⟨by rw [halt1], hsp1⟩
  refine wlp_mono (htmp s1 halt1) (fun ret s2 h2 hret => wlp_mono (h2 hret) (fun _ s3 h3 => ?_))
  refine wlp_mono (hafter s3 (AltState.lifts_alt.trans s s1 s3 h1 h3)) (fun ok s4 h4 hok => wlp_mono (h4 hok)
    (fun _ s5 h5 => wlp_mono h5 (fun _ s6 h6 => ?_)))
  rw [wlp_zoom]
  refine wlp_mono (wlp_deallocateTmp s6.alt) (fun _ t ht => ?_)
  refine wlp_mono (wlp_zoom_sp (D := D) (vbkClass_obeys.overrideDeferredForkResolution _)) ?_
  rintro _ s7 ⟨halt7, hsp7⟩
  refine wlp_mono (wlp_zoom_sp (D := D) vbkClass_obeys.continueForkResolution) ?_
  rintro _ s8 ⟨halt8, hsp8⟩
  refine ⟨⟨s6.alt, h6.alt, .inr ?_⟩, ?_⟩
  . rw [halt8, halt7]
    exact ht
  . exact VbkState.lifts_vbk.trans _ _ _ h6.sp (VbkState.lifts_vbk.trans _ _ _ hsp7 hsp8)

end MemPoolBlockTree

end MemPool

section Ops

namespace Op

/-- The call raises the level of no block that is not dirty. -/
def Tracked (s : AltState) : Op → Prop
  | acceptBlock h _ => AltBlockTree.ParentConnected s.alt h → s.alt.DirtyAbove h
  | vbkAcceptBlockHeader b => s.sp.vbk.Tracked b.getHash
  | btcAcceptBlockHeader b => s.sp.btc.Tracked b.getHash
  | _ => True

theorem wlp_onVbk {m : M VbkState α} (hm : wlp m (fun _ => VbkState.Changes D.protecting s.sp) s.sp) :
    wlp (onVbk m) (fun _ => AltState.Changes D s) s := by
  simp only [onVbk, wlp_bind, wlp_pure]
  rw [wlp_zoom]
  exact wlp_mono hm (fun _ _ h => ⟨.refl, h⟩)

theorem onVbk_stays {m : M VbkState α} (hm : Stays (VbkState.Changes D.protecting) m) :
    wlp (onVbk m) (fun _ => AltState.Changes D s) s :=
  wlp_onVbk (hm.wlp VbkState.lifts_vbk.refl _)

theorem wlp_onBtc {m : M (Tree BtcAddon) α} (hm : wlp m (fun _ => BtcChanges D.protecting s.sp.btc) s.sp.btc) :
    wlp (onBtc m) (fun _ => AltState.Changes D s) s := by
  refine wlp_onVbk ?_
  rw [wlp_zoom]
  exact wlp_mono hm (fun _ _ h => ⟨.refl, h⟩)

theorem onBtc_stays {m : M (Tree BtcAddon) α} (hm : Stays (BtcChanges D.protecting) m) :
    wlp (onBtc m) (fun _ => AltState.Changes D s) s :=
  wlp_onBtc (hm.wlp (fun _ => .refl) _)

theorem withBlock_stays {σ A : Type} {P : σ → σ → Prop} {c : TreeClass σ A} {m : M σ Unit} (hm : Stays P m) (h : Hash) :
    Stays P (withBlock c h m) :=
  .bind TreeClass.Follows.getTree (fun _ => .bind Stays.check (fun _ => hm))

theorem wlp_exec (hB : D.bodies) (hF : D.fails) (hs : s.alt.blocks.keys.Nodup) (op : Op) (hD : D.levels ∨ op.Tracked s) :
    wlp (op.exec cfg) (fun _ => AltState.Changes D s) s := by
  have hdrop : ∀ {α : Type} {m : M AltState α}, Stays (AltState.Changes D) m →
      wlp (m >>= fun _ => pure ()) (fun _ => AltState.Changes D s) s := by
    intro α m hm
    rw [wlp_bind]
    exact hm.wlp AltState.lifts_alt.refl s
  have hstays : ∀ {m : M AltState Unit}, Stays (AltState.Changes D) m → wlp m (fun _ => AltState.Changes D s) s :=
    fun hm => hm.wlp AltState.lifts_alt.refl s
  cases op with
  | acceptBlockHeader b =>
    simp only [exec, wlp_bind, wlp_pure]
    exact wlp_mono (AltBlockTree.wlp_acceptBlockHeader hB b) (fun _ _ h => h.1)
  | acceptBlock h p => exact AltBlockTree.wlp_acceptBlock hB hF p hs hD
  | setState h => exact hdrop (AltBlockTree.setStateByHash_stays h)
  | comparePopScore a b => exact hdrop (AltBlockTree.comparePopScore_stays a b)
  | removePayloads h => exact hstays (AltBlockTree.removePayloads_stays hB hF h)
  | removeSubtree h => exact hstays (withBlock_stays (altClass_obeys.removeSubtree hB h) h)
  | invalidateSubtree h r f => exact hstays (withBlock_stays (altClass_obeys.invalidateSubtree hF h r f) h)
  | revalidateSubtree h r f => exact hstays (withBlock_stays (altClass_obeys.revalidateSubtree hF h r f) h)
  | writePayloads p => exact ⟨.refl, .refl, .refl⟩
  | vbkAcceptBlockHeader b => exact wlp_onVbk (vbkClass_obeys.wlp_acceptBlockHeader vbkRules_pow trivial trivial b hD)
  | vbkAddPayloads h p => exact onVbk_stays (VbkBlockTree.addPayloads_stays trivial h p)
  | vbkRemovePayloads h pids => exact onVbk_stays (VbkBlockTree.removePayloads_stays trivial h pids)
  | vbkUnsafelyRemovePayload h pid f => exact onVbk_stays (VbkBlockTree.unsafelyRemovePayload_stays trivial h pid f)
  | vbkSetState h =>
    refine onVbk_stays (.bind .get (fun _ => ?_))
    split
    . exact .pure _
    . exact VbkBlockTree.setState_stays h
  | vbkRemoveSubtree h => exact onVbk_stays (withBlock_stays (vbkClass_obeys.removeSubtree trivial h) h)
  | vbkRemoveLeaf h => exact onVbk_stays (withBlock_stays (vbkClass_obeys.removeLeaf trivial h) h)
  | vbkInvalidateSubtree h r f => exact onVbk_stays (withBlock_stays (vbkClass_obeys.invalidateSubtree trivial h r f) h)
  | vbkRevalidateSubtree h r f => exact onVbk_stays (withBlock_stays (vbkClass_obeys.revalidateSubtree trivial h r f) h)
  | btcAcceptBlockHeader b => exact wlp_onBtc (btcClass_obeys.wlp_acceptBlockHeader btcRules_pow trivial trivial b hD)
  | btcRemoveSubtree h => exact onBtc_stays (withBlock_stays (btcClass_obeys.removeSubtree trivial h) h)
  | btcRemoveLeaf h => exact onBtc_stays (withBlock_stays (btcClass_obeys.removeLeaf trivial h) h)
  | btcInvalidateSubtree h r f => exact onBtc_stays (withBlock_stays (btcClass_obeys.invalidateSubtree trivial h r f) h)
  | btcRevalidateSubtree h r f => exact onBtc_stays (withBlock_stays (btcClass_obeys.revalidateSubtree trivial h r f) h)

end Op

end Ops

section Runs

/-- The keys of the blocks are distinct. -/
structure AltState.Keyed (s : AltState) : Prop where
  btc : s.sp.btc.blocks.keys.Nodup
  vbk : s.sp.vbk.blocks.keys.Nodup
  alt : s.alt.blocks.keys.Nodup

theorem AltState.Changes.keyed {s' : AltState} (h : AltState.Changes D s s') (hs : s.Keyed) : s'.Keyed :=
  ⟨h.sp.btc.nodup btcRules_pow.toLawful hs.btc, h.sp.vbk.nodup vbkRules_pow.toLawful hs.vbk,
    h.alt.nodup altRules_lawful hs.alt⟩

theorem Bootstrap.keyed_roots (b : Bootstrap) : (b.roots cfg).Keyed where
  btc := by simp [Bootstrap.roots, Tree.bootstrap, Store.keys, Store.insert, Store.empty]
  vbk := by simp [Bootstrap.roots, Tree.bootstrap, Store.keys, Store.insert, Store.empty]
  alt := by simp [Bootstrap.roots, Tree.bootstrapAlt, Store.keys, Store.insert, Store.empty]

/-- What is permitted to the calls: everything but to change the payloads of a block template. -/
def Permit.calls : Permit := ⟨True, True, False, True⟩

theorem Bootstrap.wlp_chains (b : Bootstrap) : wlp (b.chains cfg) (fun _ => AltState.Changes .calls (b.roots cfg)) (b.roots cfg) := by
  have hbtc : ∀ t : Tree BtcAddon, wlp (forEach (bootstrapBlock cfg.btc (btcClass cfg)) b.btcChain)
      (fun _ => BtcChanges Permit.calls.protecting t) t := by
    intro t
    refine wlp_forEach (I := BtcChanges _ t) (fun block _ t1 h1 => ?_) .refl
    exact wlp_mono (btcClass_obeys.wlp_bootstrapBlock btcRules_pow trivial trivial block (.inl trivial))
      (fun _ _ h2 => h1.trans h2)
  have hvbk : ∀ s : VbkState, wlp (forEach (bootstrapBlock cfg.vbk (vbkClass cfg)) b.vbkChain)
      (fun _ => VbkState.Changes Permit.calls.protecting s) s := by
    intro s
    refine wlp_forEach (I := VbkState.Changes _ s) (fun block _ s1 h1 => ?_) (VbkState.lifts_vbk.refl s)
    exact wlp_mono (vbkClass_obeys.wlp_bootstrapBlock vbkRules_pow trivial trivial block (.inl trivial))
      (fun _ s2 h2 => VbkState.lifts_vbk.trans s s1 s2 h1 h2)
  simp only [Bootstrap.chains, wlp_bind]
  refine wlp_mono (Op.wlp_onBtc (hbtc _)) (fun _ s1 h1 => ?_)
  exact wlp_mono (Op.wlp_onVbk (hvbk _)) (fun _ s2 h2 => AltState.lifts_alt.trans _ s1 s2 h1 h2)

/-- A reachable state is made from the first blocks by elementary changes. -/
theorem Reachable.changes (hs : Reachable cfg s) : ∃ b : Bootstrap, AltState.Changes .calls (b.roots cfg) s := by
  induction hs with
  | @bootstrap b s h =>
    have hc := wlp_ok b.wlp_chains h
    exact ⟨b, hc⟩
  | @step s s' op _ h ih =>
    obtain ⟨b, hb⟩ := ih
    have hstep : wlp (op.exec cfg) (fun _ => AltState.Changes .calls s) s :=
      Op.wlp_exec trivial trivial (hb.keyed b.keyed_roots).alt op (.inl trivial)
    have hc := wlp_ok hstep h
    exact ⟨b, AltState.lifts_alt.trans _ s s' hb hc⟩

end Runs

end AltIntegration
