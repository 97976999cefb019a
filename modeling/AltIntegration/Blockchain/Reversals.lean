import AltIntegration.Blockchain.Lemmas.Delivery
import AltIntegration.Blockchain.Lemmas.Embodied
import AltIntegration.Blockchain.PayloadIndices
import AltIntegration.Blockchain.TreeInvariants

/-!
This module contains the calls that undo each other: revalidating a subtree undoes its invalidation, and removing
the payloads of a block undoes their delivery.
-/

namespace AltIntegration

open Program BlockIndex

section Invalidation

variable {σ A : Type} [BlockAddon A]

/-- `invalidateSubtree`, and then `revalidateSubtree`, both without fork resolution -/
def invalidateAndRevalidate (c : TreeClass σ A) (h : Hash) : M σ Unit := do
  invalidateSubtree c h .failedBlock false
  revalidateSubtree c h .failedBlock false

/-- The block `h` is valid, not the root, and not on the active chain. -/
structure Tree.ValidFork (t : Tree A) (h : Hash) : Prop where
  valid : ∃ b, t.find? h = some b ∧ b.isRoot = false ∧ b.isValid = true
  inactive : t.onActiveChain h = false

/-- The two calls end, and the tree has the same statuses and tips as before. Nothing but the tree has changed. -/
def UndoesInvalidation (c : TreeClass σ A) (s : σ) : Prop :=
  ∀ h, (c.tree.get s).ValidFork h →
    ∃ t', invalidateAndRevalidate c h s = .ok () (c.tree.set t' s) ∧ (c.tree.get s).SameStatus t'

variable {c : TreeClass σ A} {s : σ} {min : BlockStateStatus}

theorem Tree.Inv.undoesInvalidation (ht : (c.tree.get s).Inv min []) : UndoesInvalidation c s := by
  rintro h ⟨⟨b, hb, hroot, hvalid⟩, hactive⟩
  obtain ⟨p, hp⟩ := Option.isSome_iff_exists.mp (Option.isNone_eq_false_iff.mp hroot)
  simp only [isValid, isValidUpTo, Bool.and_eq_true, Bool.not_eq_true', decide_eq_true_eq] at hvalid
  have hclear : b.hasFlags .failedBlock = false := by
    have hf := hvalid.1
    simp only [BlockIndex.isFailed, BlockStatus.isFailed, Bool.or_eq_false_iff] at hf
    exact hf.1.1
  have hd := ht.not_deleted hb hvalid.2 (BlockStateStatus.le_refl _)
  have hrun : twp (invalidateAndRevalidate c h) (fun _ s' => ∃ t', s' = c.tree.set t' s ∧ (c.tree.get s).SameStatus t') s := by
    simp only [invalidateAndRevalidate, twp_bind]
    refine twp_mono ((ht.mono (List.subset_cons_self h [])).twp_invalidateSubtree hb hp hd hactive rfl hclear
      (fun _ => by decide)) ?_
    rintro _ _ ⟨t1, rfl, ht1, hi1⟩
    have hget := c.tree.get_set t1 s
    have hshape : (c.tree.get s).SameShape t1 := (SameShape.update _ h (keepsShape_setFlag _)).trans hi1.shape
    obtain ⟨b1, hb1, hp1⟩ := (hshape.isChild h p).mpr ⟨b, hb, hp⟩
    refine twp_mono (Tree.Inv.twp_revalidateSubtree (c := c) (s := c.tree.set t1 s) (hget.symm ▸ ht1) (hget.symm ▸ hb1) hp1 rfl) ?_
    rintro _ _ ⟨t2, rfl, ht2, hi2⟩
    rw [hget] at hi2
    refine ⟨t2, c.tree.set_set t2 t1 s, ht.sameStatus ht2 ?_⟩
    -- the own status of the block is what it was, and no other has changed
    have hi := (hi1.update (h := h) (fun _ _ => own_setStatus (r := .failedBlock) false)).trans hi2
    rw [Tree.update_update] at hi
    refine (SameOn.trans (.update _ h (fun b' hb' => ?_)) hi.own).comp (fun o => (o.1, o.2.1))
    rw [hb] at hb'
    cases hb'
    exact own_unsetFlag_setFlag hclear
  obtain ⟨_, _, hok, t', rfl, hsame⟩ := twp_iff.mp hrun
  exact ⟨t', hok, hsame⟩

end Invalidation

/--
In every reachable state revalidating a subtree undoes its invalidation, in each tree in which no soft-deleted block
with `BLOCK_FAILED_POP` has been inserted again.
-/
theorem undoes_invalidation {cfg : Config} {s : AltState} (hs : Reachable cfg s) :
    (¬s.alt.RestoredFailedPop → UndoesInvalidation (altClass cfg) s) ∧
      (¬s.sp.vbk.RestoredFailedPop → UndoesInvalidation (vbkClass cfg) s.sp) ∧
      (¬s.sp.btc.RestoredFailedPop → UndoesInvalidation (btcClass cfg) s.sp.btc) :=
  ⟨fun h => (hs.inv.1 h).undoesInvalidation, fun h => (hs.inv.2.1 h).undoesInvalidation,
    fun h => (hs.inv.2.2 h).undoesInvalidation⟩

/-- A tip that gets lost refutes it. -/
theorem not_undoesInvalidation {cfg : Config} {s : AltState} {h x : Hash} (hf : s.alt.ValidFork h) (hx : x ∈ s.alt.tips)
    (hlost : x ∉ (finalState (invalidateAndRevalidate (altClass cfg) h) s).alt.tips) : ¬UndoesInvalidation (altClass cfg) s := by
  intro hall
  obtain ⟨t', hok, hsame⟩ := hall h hf
  unfold finalState at hlost
  rw [hok] at hlost
  exact hlost ((hsame.tips x).mp hx)

namespace Small

theorem validFork_of_any {A : Type} {t : Tree A} {h : Hash} (hb : (t.find? h).any (fun b => !b.isRoot && b.isValid) = true)
    (ha : t.onActiveChain h = false) : t.ValidFork h := by
  rw [Option.any_eq_true_iff_get] at hb
  obtain ⟨hsome, hb⟩ := hb
  rw [Bool.and_eq_true, Bool.not_eq_true'] at hb
  exact ⟨⟨_, Option.eq_some_of_isSome hsome, hb⟩, ha⟩

/-- Three connected blocks in a row, of which the middle one is invalid, and a header above them. -/
def mixed : List Op :=
  [.acceptBlockHeader (altBlock 2 1 1), .acceptBlockHeader (altBlock 3 2 2), .acceptBlockHeader (altBlock 4 3 3),
    .acceptBlockHeader (altBlock 5 2 2), .acceptBlock 2 ⟨[], [], []⟩, .acceptBlock 3 ⟨[], [], []⟩,
    .acceptBlock 4 ⟨[], [], []⟩, .invalidateSubtree 3 .failedBlock true]

theorem undoes_invalidation_mixed :
    UndoesInvalidation (altClass config) (after mixed) ∧ UndoesInvalidation (vbkClass config) (after mixed).sp ∧
      UndoesInvalidation (btcClass config) (after mixed).sp.btc ∧ (after mixed).alt.ValidFork 2 := by
  have h := undoes_invalidation (reachable_after mixed)
  exact ⟨h.1 (Tree.not_restored (by decide +kernel)), h.2.1 (Tree.not_restored (by decide +kernel)),
    h.2.2 (Tree.not_restored (by decide +kernel)), validFork_of_any (by decide +kernel) (by decide +kernel)⟩

/-- The block before the revalidated one should not have been a tip, and now it is none. -/
theorem invalidation_not_undone : ∃ s, Reachable config s ∧ ¬UndoesInvalidation (altClass config) s :=
  ⟨after staleTip, reachable_after staleTip, not_undoesInvalidation (h := 2) (x := 1)
    (validFork_of_any (by decide +kernel) (by decide +kernel)) (by decide +kernel) (by decide +kernel)⟩

end Small

section Bodies

variable {cfg : Config} {s : AltState} {t t' : Tree AltAddon} {h p x : Hash} {b : BlockIndex AltAddon} {q : PopData}

/-- A block that has no body, and may get one: it is known as a header, the block before it is connected. -/
structure Tree.Bodiless (t : Tree AltAddon) (h p : Hash) (b : BlockIndex AltAddon) : Prop where
  found : t.find? h = some b
  pprev : b.pprev = some p
  payloads : b.status.hasPayloads = false
  level : b.status.level = .validTree
  failedPop : b.status.failedPop = false
  active : b.status.active = false
  deleted : b.status.deleted = false
  parent : ∃ bp, t.find? p = some bp ∧ .connected ≤ bp.status.level
  next : ∀ c bc, t.find? c = some bc → bc.pprev = some h → bc.status.hasPayloads = false ∧ bc.isConnected = false
  fork : t.onActiveChain h = false

/-- All blocks but `h` are as they were, but for what they inherit. -/
structure Tree.OwnElsewhere (h : Hash) (t t' : Tree AltAddon) : Prop where
  shape : t.SameShape t'
  own : ∀ x, x ≠ h → (t'.find? x).map own = (t.find? x).map own

namespace Tree.OwnElsewhere

theorem trans {t'' : Tree AltAddon} (ht : OwnElsewhere h t t') (ht' : OwnElsewhere h t' t'') : OwnElsewhere h t t'' :=
  ⟨ht.shape.trans ht'.shape, fun x hx => (ht'.own x hx).trans (ht.own x hx)⟩

theorem inherits (ht : t.Inherits t') : OwnElsewhere h t t' := ⟨ht.shape, fun x _ => ht.own.same x⟩

theorem update {f : BlockIndex AltAddon → BlockIndex AltAddon} (hf : KeepsShape f) : OwnElsewhere h t (t.update h f) :=
  ⟨SameShape.update t h hf, fun x hx => by rw [find?_update_of_ne (fun h => hx h.symm)]⟩

theorem find? (ht : OwnElsewhere h t t') (hx : x ≠ h) {b' : BlockIndex AltAddon} (hb' : t'.find? x = some b') :
    ∃ b, t.find? x = some b ∧ b.own = b'.own := by
  have h := ht.own x hx
  rw [hb', Option.map_some] at h
  exact Option.map_eq_some_iff.mp h.symm

end Tree.OwnElsewhere

theorem ownStatus_eq_of_own {b b' : BlockIndex AltAddon} (heq : b.own = b'.own) : b.ownStatus = b'.ownStatus :=
  (Prod.mk.inj (Prod.mk.inj heq).2).1

theorem status_of_own {b b' : BlockIndex AltAddon} (heq : b.own = b'.own) (hp : b.pprev = some p) :
    b'.pprev = some p ∧ ({ b'.status with failedChild := false } : BlockStatus) = { b.status with failedChild := false } := by
  have hp' : b'.pprev = some p := (shape_eq_iff.mp (Prod.mk.inj heq).1).2.1.symm.trans hp
  have h := ownStatus_eq_of_own heq
  rw [ownStatus_child (hp ▸ Option.some_ne_none p), ownStatus_child (hp' ▸ Option.some_ne_none p)] at h
  exact ⟨hp', h.symm⟩

open Delivery in
theorem delivered_elsewhere (h : Hash) (q : PopData) (t : Tree AltAddon) : Tree.OwnElsewhere h t (delivered h q t) where
  shape := ((AltBlockTree.sameCore_commitPayloadsIds h q t).core.comp Prod.fst).trans
    (Tree.SameShape.update _ h (keepsShape_setFlag _))
  own x hx := by rw [find?_delivered_of_ne (fun heq => hx heq.symm)]

namespace Tree.Bodiless

open Delivery in
theorem connectible (hb : t.Bodiless h p b) (ht : t.WF) : ∃ b', (delivered h q t).Connectible h p b' ∧
    b'.shape = b.shape ∧ b'.status = { b.status with hasPayloads := true } := by
  obtain ⟨b', hb', hshape, hstatus, _⟩ := find?_delivered_self (q := q) hb.found
  have hsame := (delivered_elsewhere h q t).shape
  have htip : (delivered h q t).activeTip = t.activeTip := by rw [delivered_eq]
  obtain ⟨bp, hbp, hl⟩ := hb.parent
  refine ⟨b', ⟨hb', ?_, ?_, ?_, ?_, ?_, ?_, ⟨bp, ?_, hl⟩, ?_, ?_⟩, hshape, hstatus⟩
  . exact (shape_eq_iff.mp hshape).2.1.trans hb.pprev
  . rw [hstatus]
  . rw [hstatus]
    exact hb.level
  . rw [hstatus]
    exact hb.failedPop
  . rw [hstatus]
    exact hb.active
  . rw [hstatus]
    exact hb.deleted
  . rw [find?_delivered_of_ne (ht.ne_parent hb.found hb.pprev).symm]
    exact hbp
  . refine (ht.congr hsame).anyNext_eq_false_iff.mpr (fun c bc hbc hpc => ?_)
    rw [find?_delivered_of_ne (ht.congr hsame |>.ne_parent hbc hpc)] at hbc
    exact (hb.next c bc hbc hpc).2
  . rw [hsame.onActiveChain htip]
    exact hb.fork

open Delivery in
theorem twp_setPayloads (hb : s.alt.Bodiless h p b) (hq : q.checkForDuplicates = true) :
    twp (AltBlockTree.setPayloads h q) (fun _ s' => s'.alt = delivered h q s.alt) s := by
  simp only [AltBlockTree.setPayloads, twp_bind, twp_zoom_derefBlock, twp_check]
  refine ⟨b, hb.found, ?_, ?_, ?_, ?_, hq, ?_⟩
  . rw [isValidUpTo, hb.level]
    rfl
  . rw [show b.hasFlags .hasPayloads = b.status.hasPayloads from rfl, hb.payloads]
    rfl
  . rw [show b.hasFlags .active = b.status.active from rfl, hb.active]
    rfl
  . rw [isRoot, hb.pprev]
    rfl
  . rw [twp_zoom, twp_modify, twp_modify, twp_zoom]
    rfl

open Delivery in
/-- The block is connected, and no block above it is. -/
theorem twp_acceptBlock (hb : s.alt.Bodiless h p b) (ht : s.alt.Inv .validTree []) (hq : q.checkForDuplicates = true) :
    twp (AltBlockTree.acceptBlock cfg h q) (fun _ s' => s'.alt.Inv .validTree [] ∧
      ∃ duplicate, ((delivered h q s.alt).update h (connectedAs duplicate)).Inherits s'.alt) s := by
  obtain ⟨b1, hc1, hshape1, _⟩ := hb.connectible (q := q) ht.wf
  have hcore := AltBlockTree.sameCore_commitPayloadsIds h q s.alt
  obtain ⟨b0, hb0, heq0⟩ := hcore.core.symm.find? hb.found
  have ht1 : (delivered h q s.alt).Inv .validTree [] := by
    refine (ht.congr hcore.core hcore.tips).setHasPayloads hb0 ?_
    rw [(core_eq_iff.mp heq0).2]
    exact hb.deleted
  simp only [AltBlockTree.acceptBlock, twp_bind, twp_get, twp_check]
  refine ⟨?_, twp_mono (hb.twp_setPayloads hq) (fun _ s1 h1 => ?_)⟩
  . rw [Option.isSome_iff_exists]
    exact ⟨b, Tree.getBlockIndex_eq_some.mpr ⟨hb.found, hb.deleted⟩⟩
  rw [← h1] at hc1 ht1 ⊢
  obtain ⟨bp, hbp, hl⟩ := hc1.parent
  simp only [twp_zoom_derefBlock, twp_getOrStop]
  refine ⟨b1, hc1.found, p, hc1.pprev, bp, hbp, twp_when.mpr ⟨fun _ => ?_, fun hn => ?_⟩⟩
  . simp only [AltBlockTree.connectSubtree, twp_bind, twp_zoom_derefBlock]
    refine ⟨b1, hc1.found, twp_when.mpr ⟨fun _ => ?_, fun hn => absurd (hc1.payloads.symm.trans hn) (by decide)⟩⟩
    simp only [twp_bind, twp_get]
    refine twp_mono (hc1.twp_connectBlock ht1) ?_
    rintro _ _ ⟨t2, rfl, ht2, hi2⟩
    -- the blocks after it have no bodies
    have helse : Tree.OwnElsewhere h s.alt t2 := by
      rw [h1] at hi2
      exact ((delivered_elsewhere h q s.alt).trans (.update (keepsShape_connectedAs _))).trans (.inherits hi2)
    refine twp_mono (twp_forEach (I := fun l s' => (∀ c ∈ l, t2.IsChild c h) ∧ s' = { s1 with alt := t2 }) ?_ ⟨?_, rfl⟩) ?_
    . rintro c l _ ⟨hl, rfl⟩
      obtain ⟨bc, hbc, hpc⟩ := hl c List.mem_cons_self
      obtain ⟨bc0, hbc0, heq⟩ := helse.find? (ht2.wf.ne_parent hbc hpc).symm hbc
      have hpc0 : bc0.pprev = some h := (shape_eq_iff.mp (Prod.mk.inj heq).1).2.1.trans hpc
      have hpay := (hb.next c bc0 hbc0 hpc0).1
      have hpay : bc.hasFlags .hasPayloads = false :=
        (congrArg BlockStatus.hasPayloads (status_of_own heq hpc0).2).trans hpay
      cases s.alt.maxHeight with
      | zero => exact ⟨fun c' hc' => hl c' (List.mem_cons_of_mem c hc'), rfl⟩
      | succ n =>
        simp only [AltBlockTree.connectSubtree, twp_bind, twp_zoom_derefBlock]
        refine ⟨bc, hbc, twp_when.mpr ⟨fun hp => absurd (hpay.symm.trans hp) (by decide), fun _ => ?_⟩⟩
        exact ⟨fun c' hc' => hl c' (List.mem_cons_of_mem c hc'), rfl⟩
    . exact fun c hc => ht2.wf.mem_pnext.mp (List.mem_reverse.mp hc)
    . rintro _ _ ⟨_, rfl⟩
      exact ⟨ht2, _, hi2⟩
  . rw [isConnected, isValidUpTo, decide_eq_false_iff_not] at hn
    exact absurd hl hn

end Tree.Bodiless

open AltBlockTree in
/-- The block after `clearSideEffects`, without `BLOCK_HAS_PAYLOADS` -/
theorem find?_withoutPayloads (hb : t.find? h = some b) : ∃ b', (withoutPayloads h t).find? h = some b' ∧
    b'.shape = b.shape ∧ b'.status = { b.status with hasPayloads := false } := by
  obtain ⟨b0, hb0, heq⟩ := (sameCore_clearSideEffects h t).core.symm.find? hb
  obtain ⟨hshape, hstatus⟩ := core_eq_iff.mp heq
  refine ⟨b0.unsetFlag .hasPayloads, ?_, (keepsShape_unsetFlag _ b0).trans hshape, ?_⟩
  . unfold withoutPayloads
    rw [Tree.find?_update_self, hb0]
    rfl
  . rw [unsetFlag_status, hstatus]
    rfl

open AltBlockTree in
theorem withoutPayloads_elsewhere (h : Hash) (t : Tree AltAddon) : Tree.OwnElsewhere h t (withoutPayloads h t) := by
  refine Tree.OwnElsewhere.trans ⟨(sameCore_clearSideEffects h t).core.comp Prod.fst, fun x hx => ?_⟩
    (.update (keepsShape_unsetFlag _))
  rcases clearSideEffects_cases h t with heq | ⟨b, _, heq⟩
  . rw [heq]
  . rw [heq, Tree.find?_update_of_ne (fun heq => hx heq.symm)]
    unfold Tree.find?
    rw [onBeforeLeafRemoved_blocks]

/-- A connected block that is not applied, and no block above it is connected. -/
structure Tree.ConnectedLeaf (t : Tree AltAddon) (h p : Hash) (b : BlockIndex AltAddon) : Prop where
  found : t.find? h = some b
  pprev : b.pprev = some p
  payloads : b.status.hasPayloads = true
  level : b.status.level = .connected
  active : b.status.active = false
  next : ∀ c bc, t.find? c = some bc → bc.pprev = some h → bc.isConnected = false

open AltBlockTree in
theorem Tree.ConnectedLeaf.twp_removePayloads (hb : s.alt.ConnectedLeaf h p b) (ht : s.alt.Inv .validTree []) :
    twp (removePayloads cfg h) (fun _ s' => s'.alt.Inv .validTree [] ∧ Tree.OwnElsewhere h s.alt s'.alt ∧
      ∃ b', s'.alt.find? h = some b' ∧ ({ b'.status with failedChild := false } : BlockStatus) =
        { b.status with level := .validTree, failedPop := false, hasPayloads := false, failedChild := false }) s := by
  have hle : .connected ≤ b.status.level := by
    rw [hb.level]
    exact BlockStateStatus.le_refl _
  have hd := ht.not_deleted hb.found hle (by decide)
  simp only [removePayloads, twp_bind, twp_get, twp_getOrStop, twp_check]
  refine ⟨b, Tree.getBlockIndex_eq_some.mpr ⟨hb.found, hd⟩, p, hb.pprev, hb.payloads, ?_, ?_, ?_⟩
  . rw [show b.hasFlags .active = b.status.active from rfl, hb.active]
    rfl
  . rw [ht.wf.anyNext_eq_false_iff.mpr hb.next]
    rfl
  rw [twp_zoom, twp_modify, twp_zoom, twp_modifyBlock]
  have hcore := sameCore_clearSideEffects h s.alt
  have ht1 : (withoutPayloads h s.alt).Inv .validTree [] := (ht.congr hcore.core hcore.tips).unsetFlag (.inr rfl)
  obtain ⟨b1, hb1, hshape1, hstatus1⟩ := find?_withoutPayloads hb.found
  have hp1 : b1.pprev = some p := (shape_eq_iff.mp hshape1).2.1.trans hb.pprev
  refine twp_mono (Tree.Inv.twp_revalidateSubtree (c := altClass cfg) (s := { s with alt := withoutPayloads h s.alt })
    ht1 hb1 hp1 rfl) ?_
  rintro _ _ ⟨t2, rfl, ht2, hi2⟩
  have hself : ((withoutPayloads h s.alt).update h (fun b => b.unsetFlag .failedPop)).find? h = some (b1.unsetFlag .failedPop) := by
    rw [Tree.find?_update_self, hb1]
    rfl
  obtain ⟨b2, hb2, heq2⟩ := hi2.own.symm.find? hself
  have hp1' : (b1.unsetFlag .failedPop).pprev = some p := ((keepsShape_unsetFlag .failedPop).pprev b1).trans hp1
  obtain ⟨hp2, hstatus2⟩ := status_of_own heq2.symm hp1'
  rw [unsetFlag_status, hstatus1] at hstatus2
  have hlevel2 : b2.status.level = .connected := (congrArg BlockStatus.level hstatus2).trans hb.level
  have hactive2 : b2.status.active = false := (congrArg BlockStatus.active hstatus2).trans hb.active
  have hpop2 : b2.status.failedPop = false := congrArg BlockStatus.failedPop hstatus2
  have helse2 : Tree.OwnElsewhere h s.alt t2 :=
    ((withoutPayloads_elsewhere h s.alt).trans (.update (keepsShape_unsetFlag .failedPop))).trans (.inherits hi2)
  have hle2 : .connected ≤ b2.status.level := by
    rw [hlevel2]
    exact BlockStateStatus.le_refl _
  simp only [twp_zoom, twp_bind, disconnect, twp_derefBlock, twp_when, lowerValidity, twp_ite, twp_modifyBlock, twp_pure,
    twp_check, twp_modify]
  have hcan : b2.canLowerValidity .validTree = true := by
    rw [canLowerValidity, show b2.hasFlags .failedPop = b2.status.failedPop from rfl, hpop2, hlevel2]
    rfl
  refine ⟨b2, hb2, fun _ => ⟨b2, hb2, fun _ => ⟨trivial, ?_⟩, fun h => absurd hcan h⟩, fun hn => ?_⟩
  . have hi3 := (Tree.Inherits.eraseTip (t2.update h (fun b => b.setLevel .validTree)) h).trans (.tryAddTip _ p)
    refine ⟨inv_lower ht2 hb2 hp2 hle2 hactive2 (fun x bx hbx hpx => ?_),
      (helse2.trans (.update (keepsShape_setLevel .validTree))).trans (.inherits hi3), b2.setLevel .validTree, ?_, ?_⟩
    . obtain ⟨b0, hb0, heq⟩ := helse2.find? (ht2.wf.ne_parent hbx hpx).symm hbx
      have hp0 : b0.pprev = some h := (shape_eq_iff.mp (Prod.mk.inj heq).1).2.1.trans hpx
      have hlevel := congrArg BlockStatus.level (status_of_own heq hp0).2
      have hlow := hb.next x b0 hb0 hp0
      rw [isConnected, isValidUpTo] at hlow ⊢
      rw [show bx.status.level = b0.status.level from hlevel]
      exact hlow
    . have hfind : (((t2.update h (fun b => b.setLevel .validTree)).eraseTip h).tryAddTip p).find? h =
          some (b2.setLevel .validTree) := by
        rw [Tree.find?_tryAddTip, Tree.find?_eraseTip, Tree.find?_update_self, hb2]
        rfl
      exact hfind
    . exact congrArg (fun s : BlockStatus => { s with level := .validTree, failedChild := false }) hstatus2
  . rw [isConnected, isValidUpTo, decide_eq_false_iff_not] at hn
    exact absurd hle2 hn

open Delivery in
/-- What `acceptBlock` leaves behind, as `removePayloads` finds it. -/
theorem Tree.Bodiless.connectedLeaf (hb : t.Bodiless h p b) (ht : t.WF) {duplicate : Bool}
    (hi : ((delivered h q t).update h (connectedAs duplicate)).Inherits t') : ∃ b', t'.ConnectedLeaf h p b' ∧
      ({ b'.status with level := .validTree, failedPop := false, hasPayloads := false, failedChild := false } : BlockStatus) =
        { b.status with failedChild := false } := by
  obtain ⟨b1, hc1, hshape1, hstatus1⟩ := hb.connectible (q := q) ht
  have helse : Tree.OwnElsewhere h t t' :=
    ((delivered_elsewhere h q t).trans (.update (keepsShape_connectedAs duplicate))).trans (.inherits hi)
  have hself : ((delivered h q t).update h (connectedAs duplicate)).find? h = some (b1.connectedAs duplicate) := by
    rw [Tree.find?_update_self, hc1.found]
    rfl
  obtain ⟨b2, hb2, heq2⟩ := hi.own.symm.find? hself
  obtain ⟨hp2, hstatus2⟩ := status_of_own heq2.symm (((keepsShape_connectedAs duplicate).pprev b1).trans hc1.pprev)
  rw [connectedAs_status duplicate hc1.failedPop, hstatus1] at hstatus2
  refine ⟨b2, ⟨hb2, hp2, congrArg BlockStatus.hasPayloads hstatus2, congrArg BlockStatus.level hstatus2,
    (congrArg BlockStatus.active hstatus2).trans hb.active, fun c bc hbc hpc => ?_⟩, ?_⟩
  . obtain ⟨bc0, hbc0, heq⟩ := helse.find? ((ht.congr helse.shape).ne_parent hbc hpc).symm hbc
    have hpc0 : bc0.pprev = some h := (shape_eq_iff.mp (Prod.mk.inj heq).1).2.1.trans hpc
    have hlevel := congrArg BlockStatus.level (status_of_own heq hpc0).2
    have hlow := (hb.next c bc0 hbc0 hpc0).2
    rw [isConnected, isValidUpTo] at hlow ⊢
    rw [show bc.status.level = bc0.status.level from hlevel]
    exact hlow
  . have h := congrArg (fun s : BlockStatus => { s with level := .validTree, failedPop := false, hasPayloads := false, failedChild := false })
      hstatus2
    refine Eq.trans h ?_
    have hlevel := hb.level
    have hpop := hb.failedPop
    have hpay := hb.payloads
    cases hs : b.status
    rw [hs] at hlevel hpop hpay
    cases hlevel
    cases hpop
    cases hpay
    rfl

/-- The statuses are the same when the block `h` has its own status back. -/
theorem Tree.OwnElsewhere.sameStatus {b' : BlockIndex AltAddon} (helse : Tree.OwnElsewhere h t t') (ht : t.Inv .validTree [])
    (ht' : t'.Inv .validTree []) (hb : t.find? h = some b) (hp : b.pprev = some p) (hb' : t'.find? h = some b')
    (hstatus : ({ b'.status with failedChild := false } : BlockStatus) = { b.status with failedChild := false }) :
    t.SameStatus t' := by
  refine ht.sameStatus ht' ⟨helse.shape.keys, fun x => ?_⟩
  by_cases hx : x = h
  . subst hx
    obtain ⟨b0, hb0, heq⟩ := helse.shape.find? hb'
    rw [hb] at hb0
    cases hb0
    have hp' : b'.pprev = some p := (shape_eq_iff.mp heq).2.1.symm.trans hp
    rw [hb, hb']
    refine congrArg some (Prod.ext heq.symm ?_)
    show b'.ownStatus = b.ownStatus
    rw [ownStatus_child (hp' ▸ Option.some_ne_none p), ownStatus_child (hp ▸ Option.some_ne_none p)]
    exact hstatus
  . have h := congrArg (Option.map (fun o : (Block × Option Hash × Nat) × BlockStatus × AltAddon => (o.1, o.2.1))) (helse.own x hx)
    rw [Option.map_map, Option.map_map] at h
    exact h

/-- `acceptBlock`, and then `removePayloads` -/
def acceptAndRemove (cfg : Config) (h : Hash) (p : PopData) : M AltState Unit := do
  AltBlockTree.acceptBlock cfg h p
  AltBlockTree.removePayloads cfg h

/-- The block `h` is a header without a body. The block before it is connected, and no block after it has a body. -/
structure Tree.AwaitsBody (t : Tree AltAddon) (h : Hash) : Prop where
  header : ∃ b p bp, t.getBlockIndex h = some b ∧ b.hasFlags .hasPayloads = false ∧ b.pprev = some p ∧
    t.find? p = some bp ∧ bp.isConnected = true
  next : t.anyNext h (·.hasFlags .hasPayloads) = false

/--
Both calls end, for every body. The statuses, the tips and the payloads index are the same as before, and the block may
get any body again.
-/
def UndoesDelivery (cfg : Config) (s : AltState) (h : Hash) : Prop :=
  ∀ p : PopData, p.checkForDuplicates = true → ∃ s', acceptAndRemove cfg h p s = .ok () s' ∧ s.alt.SameStatus s'.alt ∧
    (∀ e, e ∈ s.alt.payloadsIndex ↔ e ∈ s'.alt.payloadsIndex) ∧
    ∀ q : PopData, q.checkForDuplicates = true → ∃ s'', AltBlockTree.acceptBlock cfg h q s' = .ok () s''

theorem Tree.Bodiless.twp_acceptAndRemove (hb : s.alt.Bodiless h p b) (ht : s.alt.Inv .validTree [])
    (hq : q.checkForDuplicates = true) : twp (acceptAndRemove cfg h q) (fun _ s' => s'.alt.Inv .validTree [] ∧
      Tree.OwnElsewhere h s.alt s'.alt ∧ ∃ b', s'.alt.find? h = some b' ∧
        ({ b'.status with failedChild := false } : BlockStatus) = { b.status with failedChild := false }) s := by
  simp only [acceptAndRemove, twp_bind]
  refine twp_mono (hb.twp_acceptBlock ht hq) ?_
  rintro _ s1 ⟨ht1, duplicate, hi⟩
  obtain ⟨b1, hleaf, hstatus⟩ := hb.connectedLeaf ht.wf hi
  have helse := ((delivered_elsewhere h q s.alt).trans (.update (keepsShape_connectedAs duplicate))).trans (.inherits hi)
  refine twp_mono (hleaf.twp_removePayloads ht1) ?_
  rintro _ s2 ⟨ht2, helse2, b2, hb2, hstatus2⟩
  exact ⟨ht2, helse.trans helse2, b2, hb2, hstatus2.trans hstatus⟩

theorem Tree.AwaitsBody.congr (hb : t.AwaitsBody h) (ht : t.WF) (hshape : t.SameShape t') (hs : t.SameStatus t') :
    t'.AwaitsBody h := by
  have hfind : ∀ {x b}, t.find? x = some b → ∃ b', t'.find? x = some b' ∧ b'.pprev = b.pprev ∧ b'.status = b.status := by
    intro x b hb
    obtain ⟨b', hb', heq⟩ := hshape.symm.find? hb
    have hst := hs.status x
    rw [hb, hb'] at hst
    exact ⟨b', hb', (shape_eq_iff.mp heq).2.1, (Option.some.inj hst).symm⟩
  obtain ⟨b, p, bp, hindex, hpay, hp, hbp, hconn⟩ := hb.header
  obtain ⟨hfound, hd⟩ := Tree.getBlockIndex_eq_some.mp hindex
  obtain ⟨b', hb', hp', hst'⟩ := hfind hfound
  obtain ⟨bp', hbp', _, hstp'⟩ := hfind hbp
  refine ⟨⟨b', p, bp', Tree.getBlockIndex_eq_some.mpr ⟨hb', hst' ▸ hd⟩, ?_, hp'.trans hp, hbp', ?_⟩, ?_⟩
  . rw [hasFlags, hst']
    exact hpay
  . rw [isConnected, isValidUpTo, hstp']
    exact hconn
  . refine (ht.congr hshape).anyNext_eq_false_iff.mpr (fun c bc hbc hpc => ?_)
    obtain ⟨bc0, hbc0, heq⟩ := hshape.find? hbc
    obtain ⟨bc', hbc', _, hstc⟩ := hfind hbc0
    rw [hbc] at hbc'
    cases hbc'
    rw [hasFlags, hstc]
    exact ht.anyNext_eq_false_iff.mp hb.next c bc0 hbc0 ((shape_eq_iff.mp heq).2.1.trans hpc)

/-- A block without a body is not connected, so it is not applied either. -/
theorem Tree.AwaitsBody.bodiless (hb : t.AwaitsBody h) (ht : t.Inv .validTree []) (he : t.Embodied)
    (hpop : (t.find? h).any (·.hasFlags .failedPop) = false) : ∃ p b, t.Bodiless h p b := by
  obtain ⟨b, p, bp, hindex, hpay, hp, hbp, hconn⟩ := hb.header
  obtain ⟨hfound, hd⟩ := Tree.getBlockIndex_eq_some.mp hindex
  have hlow : ∀ {x bx p}, t.find? x = some bx → bx.pprev = some p → bx.status.hasPayloads = false → bx.isConnected = false := by
    intro x bx p hbx hpx hpay
    rw [← Bool.not_eq_true]
    intro hc
    rw [he.bodies hbx hpx hc] at hpay
    cases hpay
  have hlevel : b.status.level = .validTree := by
    have hmin := (ht.nodes hfound).validTree hd
    have hc := hlow hfound hp hpay
    rw [isConnected, isValidUpTo, decide_eq_false_iff_not] at hc
    cases hl : b.status.level with
    | validTree => rfl
    | validUnknown =>
      rw [hl] at hmin
      exact absurd hmin (by decide)
    | _ =>
      rw [hl] at hc
      exact absurd (by decide) hc
  have hactive : b.status.active = false := by
    rw [← Bool.not_eq_true]
    intro ha
    have hmin := (ht.nodes hfound).active ha
    rw [hlevel] at hmin
    exact absurd hmin (by decide)
  rw [hfound, Option.any_some] at hpop
  refine ⟨p, b, hfound, hp, hpay, hlevel, hpop, hactive, hd, ⟨bp, hbp, ?_⟩, fun c bc hbc hpc => ?_, ?_⟩
  . rw [isConnected, isValidUpTo, decide_eq_true_eq] at hconn
    exact hconn
  . have hcpay := ht.wf.anyNext_eq_false_iff.mp hb.next c bc hbc hpc
    exact ⟨hcpay, hlow hbc hpc hcpay⟩
  . rw [Tree.onActiveChain_eq_false_iff, ← he.applied hfound, hactive]
    exact Bool.false_ne_true

/-- The index lists the payloads of the blocks, and those of the block `h` are gone. -/
theorem Reachable.sameIndex {s' : AltState} (hs : Reachable cfg s) (hs' : Reachable cfg s')
    (helse : Tree.OwnElsewhere h s.alt s'.alt) (hb : s.alt.find? h = some b) (hpay : b.status.hasPayloads = false)
    {b' : BlockIndex AltAddon} (hb' : s'.alt.find? h = some b') (hpay' : b'.status.hasPayloads = false) :
    ∀ e, e ∈ s.alt.payloadsIndex ↔ e ∈ s'.alt.payloadsIndex := by
  have hindex : ∀ {s : AltState}, Reachable cfg s → ∀ id x, (id, x) ∈ s.alt.payloadsIndex ↔ s.alt.Holds altRules x id :=
    fun hs id x => hs.mirrored.alt.index id x (hs.mirrored.correct ▸ List.not_mem_nil)
  have hbare : ∀ {s : AltState} {b : BlockIndex AltAddon}, Reachable cfg s → s.alt.find? h = some b →
      b.status.hasPayloads = false → ∀ id, ¬s.alt.Holds altRules h id := by
    rintro s b hs hb hpay id ⟨b', hb', hid⟩
    rw [hb] at hb'
    cases hb'
    rw [hs.mirrored.alt.bare h b hb (.inr ⟨trivial, hpay⟩)] at hid
    cases hid
  rintro ⟨id, x⟩
  rw [hindex hs, hindex hs']
  by_cases hx : x = h
  . subst hx
    exact iff_of_false (hbare hs hb hpay id) (hbare hs' hb' hpay' id)
  . have hown := helse.own x hx
    constructor
    . rintro ⟨b, hb, hid⟩
      rw [hb, Option.map_some] at hown
      obtain ⟨b', hb', heq⟩ := Option.map_eq_some_iff.mp hown
      exact ⟨b', hb', (Prod.mk.inj (Prod.mk.inj heq).2).2 ▸ hid⟩
    . rintro ⟨b', hb', hid⟩
      obtain ⟨b, hb, heq⟩ := helse.find? hx hb'
      exact ⟨b, hb, (Prod.mk.inj (Prod.mk.inj heq).2).2 ▸ hid⟩

open Delivery in
/-- A block with `BLOCK_FAILED_POP` can not be connected. -/
theorem AltBlockTree.wlp_acceptBlock_failedPop (hb : s.alt.find? h = some b) (hpop : b.status.failedPop = true)
    (hp : b.pprev = some p) (hparent : ∃ bp, s.alt.find? p = some bp ∧ bp.isConnected = true) (ht : s.alt.WF) :
    wlp (AltBlockTree.acceptBlock cfg h q) (fun _ _ => False) s := by
  obtain ⟨b1, hb1, hshape1, hstatus1, _⟩ := find?_delivered_self (q := q) hb
  obtain ⟨bp, hbp, hconn⟩ := hparent
  have hp1 : b1.pprev = some p := (shape_eq_iff.mp hshape1).2.1.trans hp
  have hbp1 : (delivered h q s.alt).find? p = some bp := by
    rw [find?_delivered_of_ne (ht.ne_parent hb hp).symm]
    exact hbp
  have hset : wlp (setPayloads h q) (fun _ s' => s'.alt = delivered h q s.alt) s := by
    simp only [setPayloads, wlp_bind, wlp_zoom_derefBlock, wlp_check]
    intro _ _ _ _ _ _ _
    rw [wlp_zoom, wlp_modify, wlp_modify, wlp_zoom]
    rfl
  simp only [acceptBlock, wlp_bind, wlp_get, wlp_check]
  refine fun _ => wlp_mono hset (fun _ s1 h1 => ?_)
  rw [← h1] at hb1 hbp1
  simp only [wlp_zoom_derefBlock, wlp_getOrStop, wlp_when]
  intro b2 hb2 p2 hp2 bp2 hbp2
  rw [show s1.alt.find? h = some b2 from hb2] at hb1
  cases hb1
  rw [hp1] at hp2
  cases hp2
  rw [show s1.alt.find? p = some bp2 from hbp2] at hbp1
  cases hbp1
  refine ⟨fun _ => ?_, fun hn => absurd (hconn.symm.trans hn) (by decide)⟩
  simp only [connectSubtree, connectBlock, wlp_bind, wlp_zoom_derefBlock, wlp_when, wlp_check, wlp_getOrStop, wlp_get]
  intro b3 hb3
  rw [hb3] at hb2
  cases hb2
  refine ⟨fun _ b4 hb4 => ?_, fun hn => ?_⟩
  . rw [hb3] at hb4
    cases hb4
    intro _ _ _ _ _ _ _ _ _
    rw [wlp_zoom]
    refine wlp_raiseValidity hb3 (fun _ => (by cases ·)) (fun hn => ?_)
    rw [hstatus1] at hn
    exact absurd (hpop.symm.trans hn) (by decide)
  . have hpay := congrArg BlockStatus.hasPayloads hstatus1
    exact absurd (hpay.symm.trans hn) Bool.noConfusion

/--
In every reachable state in which no soft-deleted block with `BLOCK_FAILED_POP` has been inserted again, removing the
payloads of a block undoes their delivery if and only if the block did not carry `BLOCK_FAILED_POP` before.
-/
theorem undoes_delivery_iff (hs : Reachable cfg s) (hr : ¬s.alt.RestoredFailedPop) (hb : s.alt.AwaitsBody h) :
    UndoesDelivery cfg s h ↔ (s.alt.find? h).any (·.hasFlags .failedPop) = false := by
  have ht := hs.inv.1 hr
  constructor
  . intro hundoes
    obtain ⟨b, p, bp, hindex, _, hp, hbp, hconn⟩ := hb.header
    obtain ⟨hfound, _⟩ := Tree.getBlockIndex_eq_some.mp hindex
    rw [hfound, Option.any_some, ← Bool.not_eq_true]
    intro hpop
    obtain ⟨s', hok, _⟩ := hundoes ⟨[], [], []⟩ rfl
    have hstop : wlp (acceptAndRemove cfg h ⟨[], [], []⟩) (fun _ _ => False) s := by
      rw [acceptAndRemove, wlp_bind]
      exact wlp_mono (AltBlockTree.wlp_acceptBlock_failedPop hfound hpop hp ⟨bp, hbp, hconn⟩ ht.wf) (fun _ _ h => h.elim)
    exact wlp_ok hstop hok
  . intro hpop q hq
    obtain ⟨p, b, hless⟩ := hb.bodiless ht hs.embodied hpop
    have hrun : twp (acceptAndRemove cfg h q) _ s := hless.twp_acceptAndRemove ht hq
    obtain ⟨_, s', hok, ht', helse, b', hb', hstatus⟩ := twp_iff.mp hrun
    have hsame := helse.sameStatus ht ht' hless.found hless.pprev hb' hstatus
    have hpay' : b'.status.hasPayloads = false := (congrArg BlockStatus.hasPayloads hstatus).trans hless.payloads
    have hs' : Reachable cfg s' := by
      simp only [acceptAndRemove, bind, EStateM.bind] at hok
      split at hok
      . next s1 h1 =>
        have haccept : (Op.acceptBlock h q).exec cfg s = .ok () s1 := h1
        have hremove : (Op.removePayloads h).exec cfg s1 = .ok () s' := hok
        exact (hs.step haccept).step hremove
      . cases hok
    refine ⟨s', hok, hsame, hs.sameIndex hs' helse hless.found hless.payloads hb' hpay', fun q' hq' => ?_⟩
    have hpop' : (s'.alt.find? h).any (·.hasFlags .failedPop) = false := by
      rw [hb', Option.any_some]
      exact (congrArg BlockStatus.failedPop hstatus).trans hless.failedPop
    obtain ⟨p', b'', hless'⟩ := (hb.congr ht.wf helse.shape hsame).bodiless ht' hs'.embodied hpop'
    have hagain : twp (AltBlockTree.acceptBlock cfg h q') _ s' := hless'.twp_acceptBlock ht' hq'
    obtain ⟨_, s'', hok', _⟩ := twp_iff.mp hagain
    exact ⟨s'', hok'⟩

namespace Small

theorem awaitsBody_of_any {t : Tree AltAddon} (hb : (t.getBlockIndex h).any (fun b => !b.hasFlags .hasPayloads &&
    (b.pprev.bind t.find?).any (·.isConnected)) = true) (hn : t.anyNext h (·.hasFlags .hasPayloads) = false) :
    t.AwaitsBody h := by
  obtain ⟨b, hb, hall⟩ := (Option.any_eq_true _ _).mp hb
  rw [Bool.and_eq_true, Bool.not_eq_true'] at hall
  obtain ⟨bp, hbp, hconn⟩ := (Option.any_eq_true _ _).mp hall.2
  obtain ⟨p, hp, hbp⟩ := Option.bind_eq_some_iff.mp hbp
  exact ⟨⟨b, p, bp, hb, hall.1, hp, hbp, hconn⟩, hn⟩

theorem not_undoesDelivery {q : PopData} {e : Assertion} (hq : q.checkForDuplicates = true)
    (hstop : stoppedIn (acceptAndRemove cfg h q s) = some e) : ¬UndoesDelivery cfg s h := by
  intro hall
  obtain ⟨s', hok, _⟩ := hall q hq
  rw [hok] at hstop
  cases hstop

/-- A body that is to be delivered below a header. -/
def header : List Op :=
  [.acceptBlockHeader (altBlock 2 1 1), .acceptBlockHeader (altBlock 3 2 2), .acceptBlockHeader (altBlock 4 3 3),
    .acceptBlock 2 ⟨[forkVbk], [], []⟩]

theorem undoes_delivery_header : ((after header).alt.find? 3).any (·.hasFlags .failedPop) = false ∧
    UndoesDelivery config (after header) 3 := by
  have hpop : ((after header).alt.find? 3).any (·.hasFlags .failedPop) = false := by decide +kernel
  exact ⟨hpop, (undoes_delivery_iff (reachable_after header) (Tree.not_restored (by decide +kernel))
    (awaitsBody_of_any (by decide +kernel) (by decide +kernel))).mpr hpop⟩

/-- The body of a block is refused because of a payload of the block before it, and the block is deleted and inserted again. -/
def refused : List Op :=
  header ++ [.acceptBlock 3 ⟨[forkVbk], [], []⟩, .removeSubtree 3, .acceptBlockHeader (altBlock 3 2 2)]

/-- Removing the payloads would have taken `BLOCK_FAILED_POP` off the block, deleting it did not. -/
theorem delivery_not_undone : ∃ s h, Reachable config s ∧ s.alt.AwaitsBody h ∧ ¬UndoesDelivery config s h :=
  ⟨after refused, 3, reachable_after refused, awaitsBody_of_any (by decide +kernel) (by decide +kernel),
    not_undoesDelivery (q := ⟨[], [], []⟩) (e := .payloadsOfInvalidBlock) (by decide) (by decide +kernel)⟩

end Small

end Bodies

end AltIntegration
