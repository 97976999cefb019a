import AltIntegration.Control.Twp
import AltIntegration.Blockchain.Lemmas.Chain
import AltIntegration.Blockchain.Lemmas.Frame

/-!
This module contains which part of its status a block inherits. Flagging and unflagging a subtree changes only
that part of the blocks above, and the rest determines it.
-/

namespace AltIntegration

open Program BlockIndex

variable {A : Type} {t t' : Tree A} {h x : Hash}

/-- What a block does not inherit: all of its status but `BLOCK_FAILED_CHILD`, which the root has on its own. -/
def BlockIndex.ownStatus (b : BlockIndex A) : BlockStatus :=
  if b.pprev.isNone then b.status else { b.status with failedChild := false }

def BlockIndex.own (b : BlockIndex A) : (Block × Option Hash × Nat) × BlockStatus × A := (b.shape, b.ownStatus, b.addon)

theorem ownStatus_child {b : BlockIndex A} (hp : b.pprev ≠ none) :
    b.ownStatus = { b.status with failedChild := false } := by
  unfold ownStatus
  rw [Option.isNone_eq_false_iff.mpr (Option.ne_none_iff_isSome.mp hp)]
  rfl

theorem ownStatus_root {b : BlockIndex A} (hp : b.pprev = none) : b.ownStatus = b.status := by
  unfold ownStatus
  rw [hp]
  rfl

theorem own_assign_failedChild {b : BlockIndex A} (hb : b.pprev ≠ none) (v : Bool) :
    (b.setStatus (b.status.assign v .failedChild)).own = b.own := by
  have hshape : (b.setStatus (b.status.assign v .failedChild)).shape = b.shape := setStatus_shape _ _
  have hpprev := (shape_eq_iff.mp hshape).2.1
  unfold BlockIndex.own
  rw [ownStatus_child hb, ownStatus_child (hpprev ▸ hb), setStatus_status, hshape, setStatus_addon]
  rfl

theorem BlockStatus.assign_self {s : BlockStatus} {r : BlockValidityStatus} {v : Bool} (h : s.hasFlags r = v) : s.assign v r = s := by
  subst h
  cases r with
  | _ => rfl

theorem BlockStatus.assign_assign {s : BlockStatus} {r : BlockValidityStatus} {v w : Bool} :
    (s.assign v r).assign w r = s.assign w r := by
  cases r with
  | _ => rfl

theorem unsetFlag_of_clear {b : BlockIndex A} {r : BlockValidityStatus} (hb : b.hasFlags r = false) : b.unsetFlag r = b := by
  unfold unsetFlag setStatus
  rw [if_pos (BlockStatus.assign_self hb)]

/-- A flag that is set and taken off again leaves the block alone. -/
theorem own_unsetFlag_setFlag {b : BlockIndex A} {r : BlockValidityStatus} (hb : b.hasFlags r = false) :
    ((b.setFlag r).unsetFlag r).own = b.own := by
  have hstatus : ((b.setFlag r).unsetFlag r).status = b.status := by
    rw [unsetFlag_status, setFlag_status, BlockStatus.assign_assign, BlockStatus.assign_self hb]
  have hshape : ((b.setFlag r).unsetFlag r).shape = b.shape := (keepsShape_unsetFlag r _).trans (keepsShape_setFlag r b)
  refine Prod.ext hshape (Prod.ext ?_ ((setStatus_addon _ _).trans (setStatus_addon _ _)))
  show ((b.setFlag r).unsetFlag r).ownStatus = b.ownStatus
  unfold ownStatus
  rw [(shape_eq_iff.mp hshape).2.1, hstatus]

/-- Nothing but the status of a block is written, and its own status depends on the former one alone. -/
theorem own_setStatus {b b' : BlockIndex A} {r : BlockValidityStatus} (v : Bool) (heq : b.own = b'.own) :
    (b.setStatus (b.status.assign v r)).own = (b'.setStatus (b'.status.assign v r)).own := by
  obtain ⟨hshape, hstatus, haddon⟩ := (Prod.mk.inj heq).imp_right Prod.mk.inj
  have hpprev := (shape_eq_iff.mp hshape).2.1
  have hp : ∀ b : BlockIndex A, (b.setStatus (b.status.assign v r)).pprev = b.pprev :=
    fun b => (shape_eq_iff.mp (setStatus_shape b _)).2.1
  refine Prod.ext ?_ (Prod.ext ?_ ?_)
  . exact (setStatus_shape b _).trans (hshape.trans (setStatus_shape b' _).symm)
  . show (b.setStatus (b.status.assign v r)).ownStatus = (b'.setStatus (b'.status.assign v r)).ownStatus
    by_cases hroot : b.pprev = none
    . rw [ownStatus_root hroot, ownStatus_root (hpprev.symm.trans hroot)] at hstatus
      rw [ownStatus_root ((hp b).trans hroot), ownStatus_root ((hp b').trans (hpprev.symm.trans hroot)), setStatus_status,
        setStatus_status, hstatus]
    . rw [ownStatus_child hroot, ownStatus_child (hpprev ▸ hroot)] at hstatus
      rw [ownStatus_child (hp b ▸ hroot), ownStatus_child (hp b' ▸ hpprev ▸ hroot), setStatus_status, setStatus_status]
      have h := congrArg (fun s : BlockStatus => { s.assign v r with failedChild := false }) hstatus
      cases r with
      | _ => exact h
  . exact (setStatus_addon b _).trans (haddon.trans (setStatus_addon b' _).symm)

namespace Tree

/-- Only inherited flags and the tips have changed. -/
structure Inherits (t t' : Tree A) : Prop where
  own : t.SameOn own t'
  fixed : t'.fixed = t.fixed

namespace Inherits

theorem refl (t : Tree A) : t.Inherits t := ⟨.refl t, rfl⟩

theorem trans {t'' : Tree A} (h : t.Inherits t') (h' : t'.Inherits t'') : t.Inherits t'' :=
  ⟨h.own.trans h'.own, h'.fixed.trans h.fixed⟩

theorem shape (h : t.Inherits t') : t.SameShape t' := h.own.comp Prod.fst

theorem eraseTip (t : Tree A) (h : Hash) : t.Inherits (t.eraseTip h) := ⟨.of_blocks_eq rfl, rfl⟩

theorem tryAddTip [BlockAddon A] (t : Tree A) (h : Hash) : t.Inherits (t.tryAddTip h) :=
  ⟨.of_blocks_eq tryAddTip_blocks, tryAddTip_fixed⟩

/-- The same is done to a block on both sides. -/
theorem update {f : BlockIndex A → BlockIndex A} (ht : t.Inherits t')
    (hf : ∀ b b' : BlockIndex A, b.own = b'.own → (f b).own = (f b').own) : (t.update h f).Inherits (t'.update h f) := by
  refine ⟨⟨?_, fun x => ?_⟩, ht.fixed⟩
  . rw [show (t'.update h f).blocks.keys = _ from Store.keys_modify _ _ _,
      show (t.update h f).blocks.keys = _ from Store.keys_modify _ _ _, ht.own.keys]
  . rw [find?_update, find?_update]
    split
    . have hx := ht.own.same x
      cases hb : t.find? x with
      | none =>
        rw [hb, Option.map_none, Option.map_eq_none_iff] at hx
        rw [hx]
      | some b =>
        rw [hb, Option.map_some, Option.map_eq_some_iff] at hx
        obtain ⟨b', hb', heq⟩ := hx
        rw [hb']
        exact congrArg some (hf b' b heq)
    . exact ht.own.same x

end Inherits

theorem WF.pprev_ne_none {c : Hash} (ht : t.WF) (hc : c ∈ t.pnext h) (hs : t.SameShape t') {b : BlockIndex A}
    (hb : t'.find? c = some b) : b.pprev ≠ none := by
  obtain ⟨bc, hbc, hp⟩ := ht.mem_pnext.mp hc
  obtain ⟨bc', hbc', heq⟩ := hs.find? hb
  rw [hbc] at hbc'
  cases hbc'
  rw [← (shape_eq_iff.mp heq).2.1, hp]
  exact Option.some_ne_none h

end Tree

section Traversals

/-- A traversal from a block that is not the root, whose visits change only what blocks inherit. -/
theorem wlp_preorder_inherits {visit : Hash → M (Tree A) Bool} (hv : ∀ (t : Tree A) (h : Hash),
      (∀ b, t.find? h = some b → b.pprev ≠ none) → wlp (visit h) (fun _ => t.Inherits) t)
    (n : Nat) (ht : t.WF) (hh : ∀ b, t.find? h = some b → b.pprev ≠ none) :
    wlp (forEachNodePreorder visit n h) (fun _ => t.Inherits) t := by
  induction n generalizing t h with
  | zero => exact .refl t
  | succ n ih =>
    simp only [forEachNodePreorder, wlp_bind, wlp_pure, wlp_ite, wlp_get]
    refine wlp_mono (hv t h hh) (fun go t1 h1 => ⟨fun _ => ?_, fun _ => h1⟩)
    have hwf := ht.congr h1.shape
    refine wlp_forEach (I := t.Inherits) (fun c hc t2 h2 => ?_) h1
    exact wlp_mono (ih (ht.congr h2.shape) (fun _ => hwf.pprev_ne_none hc (h1.shape.symm.trans h2.shape)))
      (fun _ t3 h3 => h2.trans h3)

theorem wlp_children_inherits {visit : Hash → M (Tree A) Bool} (hv : ∀ (t : Tree A) (h : Hash),
      (∀ b, t.find? h = some b → b.pprev ≠ none) → wlp (visit h) (fun _ => t.Inherits) t)
    (n : Nat) (ht : t.WF) (h1 : t.Inherits t') :
    wlp (forEach (forEachNodePreorder visit n) (t'.pnext h)) (fun _ => t.Inherits) t' := by
  have hwf := ht.congr h1.shape
  refine wlp_forEach (fun c hc t2 h2 => ?_) h1
  have h12 := h1.shape.symm.trans h2.shape
  exact wlp_mono (wlp_preorder_inherits hv n (hwf.congr h12) (fun _ => hwf.pprev_ne_none hc h12)) (fun _ t3 h3 => h2.trans h3)

theorem wlp_invalidateChild_inherits (t : Tree A) (h : Hash) (hh : ∀ b, t.find? h = some b → b.pprev ≠ none) :
    wlp (invalidateChild h) (fun _ => t.Inherits) t := by
  simp only [invalidateChild, doInvalidate, wlp_bind, wlp_derefBlock, wlp_check, wlp_modifyBlock, wlp_modify, wlp_pure]
  intro _ _ _ _ _
  exact ⟨(Tree.SameOn.update t h (fun b hb => own_assign_failedChild (hh b hb) true)).eraseTip h, rfl⟩

variable [BlockAddon A]

theorem wlp_revalidateChild_inherits (t : Tree A) (h : Hash) (hh : ∀ b, t.find? h = some b → b.pprev ≠ none) :
    wlp (revalidateChild h) (fun _ => t.Inherits) t := by
  simp only [revalidateChild, doReValidate, wlp_bind, wlp_derefBlock, wlp_modifyBlock, wlp_modify, wlp_pure]
  intro _ _
  have h1 : t.Inherits (t.update h (fun b => b.unsetFlag .failedChild)) :=
    ⟨.update t h (fun b hb => own_assign_failedChild (hh b hb) false), rfl⟩
  exact h1.trans (.tryAddTip _ h)

theorem wlp_flagSubtree_own {prev : Hash} {r : BlockValidityStatus} (ht : t.WF) :
    wlp (flagSubtree h prev r) (fun _ t' => (t.update h (fun b => b.setFlag r)).Inherits t') t := by
  simp only [flagSubtree, doInvalidate, wlp_bind, wlp_derefBlock, wlp_check, wlp_modifyBlock, wlp_modify, wlp_get]
  intro b hb _
  have hwf := ht.congr (Tree.SameShape.update t h (keepsShape_setFlag r))
  exact wlp_mono (wlp_children_inherits wlp_invalidateChild_inherits _ hwf (.eraseTip _ h))
    (fun _ t2 h2 => h2.trans (.tryAddTip t2 prev))

theorem wlp_unflagSubtree_own {r : BlockValidityStatus} (ht : t.WF) :
    wlp (unflagSubtree h r) (fun _ t' => (t.update h (fun b => b.unsetFlag r)).Inherits t') t := by
  simp only [unflagSubtree, doReValidate, wlp_bind, wlp_modifyBlock, wlp_modify, wlp_get]
  have hwf := ht.congr (Tree.SameShape.update t h (keepsShape_unsetFlag r))
  exact wlp_children_inherits wlp_revalidateChild_inherits _ hwf (.tryAddTip _ h)

end Traversals

section Determined

variable {b b' : BlockIndex A}

theorem status_eq_of_ownStatus (hp : b'.pprev = b.pprev) (hown : b.ownStatus = b'.ownStatus)
    (hchild : b.pprev ≠ none → b.status.failedChild = b'.status.failedChild) : b.status = b'.status := by
  by_cases hroot : b.pprev = none
  . rw [← ownStatus_root hroot, ← ownStatus_root (hp.trans hroot)]
    exact hown
  . rw [ownStatus_child hroot, ownStatus_child (hp ▸ hroot)] at hown
    have h : ({ b.status with failedChild := b'.status.failedChild } : BlockStatus) = b'.status :=
      congrArg (fun s : BlockStatus => { s with failedChild := b'.status.failedChild }) hown
    rw [← h, ← hchild hroot]

variable [BlockAddon A] {min min' : BlockStateStatus}

namespace Tree

/-- The inherited flags follow from the others, from the root on. -/
theorem Inv.status_eq {U U' : List Hash} (ht : t.Inv min U) (ht' : t'.Inv min' U') (hs : t.SameShape t')
    (hown : ∀ a ∈ t.chainTo x, ∀ b b', t.find? a = some b → t'.find? a = some b' → b.ownStatus = b'.ownStatus)
    (hb : t.find? x = some b) (hb' : t'.find? x = some b') : b.status = b'.status := by
  have hsame : ∀ {x b b'}, t.find? x = some b → t'.find? x = some b' → b'.pprev = b.pprev := by
    intro x b b' hb hb'
    obtain ⟨b₁, hb₁, heq⟩ := hs.find? hb'
    rw [hb] at hb₁
    cases hb₁
    exact (shape_eq_iff.mp heq).2.1.symm
  refine ht.wf.chain_induction (P := fun x => (∀ a ∈ t.chainTo x, ∀ b b', t.find? a = some b → t'.find? a = some b' →
    b.ownStatus = b'.ownStatus) → ∀ b b', t.find? x = some b → t'.find? x = some b' → b.status = b'.status)
    ?_ ?_ hb hown b b' hb hb'
  . intro x b₀ hb₀ hp hown b b' hb hb'
    rw [hb₀] at hb
    cases hb
    exact status_eq_of_ownStatus (hsame hb₀ hb') (hown x (ht.wf.mem_chainTo_self hb₀) _ _ hb₀ hb') (fun hn => absurd hp hn)
  . intro x p hxp ih hown b b' hb hb'
    refine status_eq_of_ownStatus (hsame hb hb') (hown x (ht.wf.mem_chainTo_self hb) b b' hb hb') (fun _ => ?_)
    have hchain := ht.wf.chainTo_of_child hxp
    obtain ⟨b₁, hb₁, hp⟩ := hxp
    rw [hb] at hb₁
    cases hb₁
    obtain ⟨bp, hbp, _⟩ := ht.wf.parent hb hp
    obtain ⟨bp', hbp', _⟩ := ht'.wf.parent hb' ((hsame hb hb').trans hp)
    rw [(ht.flags hb hp hbp).inherited List.not_mem_nil,
      (ht'.flags hb' ((hsame hb hb').trans hp) hbp').inherited List.not_mem_nil, isFailed, isFailed,
      ih (fun a ha => hown a (hchain ▸ List.mem_cons_of_mem x ha)) bp bp' hbp hbp']

theorem Inv.mem_tips_iff (ht : t.Inv min []) : x ∈ t.tips ↔ t.Live x ∧ t.NoLiveChild x := by
  constructor
  . intro hx
    obtain ⟨hlive, hc⟩ := ht.sound x hx
    exact ⟨hlive, fun c hcx => hc c hcx List.not_mem_nil⟩
  . rintro ⟨hlive, hc⟩
    exact (ht.complete x hlive hc).resolve_right List.not_mem_nil

omit [BlockAddon A] in
/-- The statuses of the blocks, and the tips, are the same. -/
structure SameStatus (t t' : Tree A) : Prop where
  status : ∀ x, (t.find? x).map (fun b => b.status) = (t'.find? x).map (fun b => b.status)
  tips : ∀ x, x ∈ t.tips ↔ x ∈ t'.tips

/-- What the blocks do not inherit determines their statuses and the tips. -/
theorem Inv.sameStatus (ht : t.Inv min []) (ht' : t'.Inv min' []) (hs : t.SameOn (fun b => (b.shape, b.ownStatus)) t') :
    t.SameStatus t' := by
  have hshape : t.SameShape t' := hs.comp Prod.fst
  have hown : ∀ {a b b'}, t.find? a = some b → t'.find? a = some b' → b.ownStatus = b'.ownStatus := by
    intro a b b' hb hb'
    obtain ⟨b₁, hb₁, heq⟩ := hs.find? hb'
    rw [hb] at hb₁
    cases hb₁
    exact (Prod.mk.inj heq).2
  have hstatus : ∀ x, (t.find? x).map (fun b => b.status) = (t'.find? x).map (fun b => b.status) := by
    intro x
    cases hb : t.find? x with
    | none =>
      cases hb' : t'.find? x with
      | none => rfl
      | some b' =>
        obtain ⟨b, hb1, _⟩ := hshape.find? hb'
        rw [hb] at hb1
        cases hb1
    | some b =>
      obtain ⟨b', hb', _⟩ := hshape.symm.find? hb
      rw [hb']
      exact congrArg some (ht.status_eq ht' hshape (fun _ _ _ _ => hown) hb hb')
  have hcan : ∀ b : BlockIndex A, b.canBeATip =
      (!b.status.deleted && (!b.status.isFailed && decide (BlockAddon.validTipLevel A ≤ b.status.level))) := fun _ => rfl
  have hiff : ∀ {x}, t.Live x ↔ t'.Live x := by
    intro x
    have hx : (t.find? x).any (·.canBeATip) = (t'.find? x).any (·.canBeATip) := by
      have h := congrArg (fun o : Option BlockStatus => o.any
        (fun s => !s.deleted && (!s.isFailed && decide (BlockAddon.validTipLevel A ≤ s.level)))) (hstatus x)
      simp only [Option.any_map] at h
      exact h
    have hlive : ∀ t : Tree A, t.Live x ↔ (t.find? x).any (·.canBeATip) = true := by
      intro t
      unfold Live
      cases t.find? x with
      | none => simp
      | some b => simp
    rw [hlive, hlive, hx]
  refine ⟨hstatus, fun x => ?_⟩
  rw [ht.mem_tips_iff, ht'.mem_tips_iff, hiff]
  refine and_congr_right (fun _ => ?_)
  unfold NoLiveChild
  simp only [hiff, hshape.isChild]

end Tree

end Determined

section Classes

variable {σ : Type}

theorem twp_zoom_derefBlock {l : Lens σ (Tree A)} {Q : BlockIndex A → σ → Prop} {s : σ} :
    twp (zoom l (derefBlock h)) Q s ↔ ∃ b, (l.get s).find? h = some b ∧ Q b s := by
  simp only [twp_zoom, derefBlock, twp_bind, twp_get, twp_getOrStop, l.set_get]

@[simp]
theorem twp_modifyBlock {f : BlockIndex A → BlockIndex A} {Q : Unit → Tree A → Prop} :
    twp (modifyBlock h f) Q t ↔ Q () (t.update h f) := Iff.rfl

theorem twp_derefBlock {Q : BlockIndex A → Tree A → Prop} :
    twp (derefBlock h) Q t ↔ ∃ b, t.find? h = some b ∧ Q b t := by
  simp only [derefBlock, twp_bind, twp_get, twp_getOrStop]

variable [BlockAddon A] {c : TreeClass σ A} {s : σ} {p : Hash} {b : BlockIndex A} {min : BlockStateStatus} {U : List Hash}
  {r : BlockValidityStatus}

/-- What `invalidateSubtree` does to a block that is not on the active chain. -/
theorem Tree.Inv.twp_invalidateSubtree (ht : (c.tree.get s).Inv min (h :: U)) (hb : (c.tree.get s).find? h = some b)
    (hp : b.pprev = some p) (hd : b.status.deleted = false) (hactive : (c.tree.get s).onActiveChain h = false)
    (hr : isValidInvalidationReason r = true) (hclear : b.hasFlags r = false)
    (hlevel : b.isValidUpTo .canBeApplied = true → r ≠ .failedPop) :
    twp (invalidateSubtree c h r false) (fun _ s' => ∃ t', s' = c.tree.set t' s ∧ t'.Inv min U ∧
      ((c.tree.get s).update h (fun b => b.setFlag r)).Inherits t') s := by
  simp only [invalidateSubtree, TreeClass.getTree, twp_bind, twp_get, twp_pure, twp_getOrStop, twp_check, twp_ite]
  refine ⟨b, hb, p, hp, hr, fun h => absurd (hclear.symm.trans h) (by decide), fun _ => ⟨fun hvalid => ?_, fun _ => ?_⟩⟩
  . have hbf : b.isFailed = true := by
      have hv := (ht.nodes hb).validTree hd
      simpa [isValid, isValidUpTo, hv] using hvalid
    rw [twp_zoom]
    refine (wp_doInvalidate hb hlevel).mpr ⟨_, rfl, ?_, .eraseTip _ h⟩
    refine (ht.doInvalidate hb hbf hr).settle (Tree.not_live_of_isFailed (b := b.setFlag r) ?_
      (isFailed_setFlag (isFailure_of_valid hr)))
    rw [Tree.find?_eraseTip, Tree.find?_update_self, hb]
    rfl
  . refine twp_when.mpr ⟨fun h => absurd (hactive.symm.trans h) (by decide), fun _ => ?_⟩
    rw [twp_zoom]
    have hflag := Tree.flagSubtree_spec (E := fun _ _ => False) ht hb hp hr hlevel
    refine twp_mono (twp_and hflag (wlp_flagSubtree_own ht.wf)) ?_
    rintro _ t' ⟨⟨hinv, _⟩, hown⟩
    exact twp_when.mpr ⟨(by cases ·), fun _ => ⟨t', rfl, hinv, hown⟩⟩

/-- What `revalidateSubtree` does. -/
theorem Tree.Inv.twp_revalidateSubtree (ht : (c.tree.get s).Inv min U) (hb : (c.tree.get s).find? h = some b)
    (hp : b.pprev = some p) (hr : isValidInvalidationReason r = true) :
    twp (revalidateSubtree c h r false) (fun _ s' => ∃ t', s' = c.tree.set t' s ∧ t'.Inv min U ∧
      ((c.tree.get s).update h (fun b => b.unsetFlag r)).Inherits t') s := by
  simp only [revalidateSubtree, TreeClass.getTree, twp_bind, twp_get, twp_pure, twp_getOrStop, twp_check, twp_ite]
  refine ⟨b, hb, ?_, hr, fun hflag => ?_, fun hflag => ⟨fun hfailed => ?_, fun hfailed => ?_⟩⟩
  . rw [isRoot, hp]
    rfl
  . refine ⟨_, (c.tree.set_get s).symm, ht, ⟨.symm (.update _ h (fun b' hb' => ?_)), rfl⟩⟩
    rw [hb] at hb'
    cases hb'
    rw [unsetFlag_of_clear (by simpa using hflag)]
  . rw [twp_zoom, twp, wp_doReValidate]
    exact ⟨_, rfl, ht.doReValidate hb hfailed hr, .tryAddTip _ h⟩
  . rw [twp_zoom]
    have hunflag := Tree.unflagSubtree_spec (E := fun _ _ => False) ht hb hr (by simpa using hflag) (by simpa using hfailed)
    refine twp_mono (twp_and hunflag (wlp_unflagSubtree_own ht.wf)) ?_
    rintro _ t' ⟨⟨hinv, _⟩, hown⟩
    exact twp_when.mpr ⟨(by cases ·), fun _ => ⟨t', rfl, hinv, hown⟩⟩

end Classes

end AltIntegration
