import Mathlib.Data.Set.Insert
import AltIntegration.Blockchain.Pop.ForkResolution
import AltIntegration.Blockchain.Lemmas.Chain
import AltIntegration.Blockchain.Lemmas.Changes

/-!
This module contains which blocks of the protected tree the state machine has applied: those that carry
`BLOCK_ACTIVE`. Between two calls they are the blocks of the active chain.
-/

namespace AltIntegration

open Program BlockIndex

variable {σ τ A B C α : Type}

/-- What applying and unapplying a block leaves alone. -/
def BlockIndex.footing (b : BlockIndex A) : (Block × Option Hash × Nat) × Bool × Bool :=
  (b.shape, b.status.hasPayloads, b.isConnected)

namespace Tree

variable {t₀ t t' : Tree A} {S : Set Hash} {x y d h v : Hash} {b : BlockIndex A} {l l' : List Hash}

/-- A command or a failure flag leaves a tree as it was, as far as the active chain goes. -/
structure Quiet (t t' : Tree A) : Prop where
  same : t.SameOn unfailed t'
  activeTip : t'.activeTip = t.activeTip

namespace Quiet

theorem refl (t : Tree A) : Quiet t t := ⟨.refl t, rfl⟩

theorem trans {t'' : Tree A} (hs : Quiet t t') (hs' : Quiet t' t'') : Quiet t t'' :=
  ⟨hs.same.trans hs'.same, hs'.activeTip.trans hs.activeTip⟩

end Quiet

theorem Flagged.quiet (ht : t.Flagged t') : t.Quiet t' := ⟨ht.same.comp Prod.fst, fixed_activeTip ht.fixed⟩

/-- Of the tree `t₀` the blocks in `S` are applied. -/
structure Applied (t₀ : Tree A) (S : Set Hash) (t : Tree A) : Prop where
  same : t₀.SameOn footing t
  activeTip : t.activeTip = t₀.activeTip
  active : ∀ ⦃x b⦄, t.find? x = some b → (b.status.active = true ↔ x ∈ S)

/-- The blocks from `x` back to the root are applied, and no others. -/
abbrev AppliedTo (t₀ : Tree A) (x : Hash) (t : Tree A) : Prop := t₀.Applied {y | y ∈ t₀.chainTo x} t

namespace Applied

theorem shape (ht : t₀.Applied S t) : t₀.SameShape t := ht.same.comp Prod.fst

theorem quiet (ht : t₀.Applied S t) (hq : t.Quiet t') : t₀.Applied S t' := by
  have hsame : t.SameOn (fun b => (b.footing, b.status.active)) t' :=
    hq.same.comp (fun u => ((u.1, u.2.hasPayloads, decide (.connected ≤ u.2.level)), u.2.active))
  refine ⟨ht.same.trans (hsame.comp Prod.fst), hq.activeTip.trans ht.activeTip, fun x b' hb' => ?_⟩
  obtain ⟨b, hb, heq⟩ := hsame.find? hb'
  rw [← (Prod.mk.inj heq).2]
  exact ht.active hb

/-- One block is applied or unapplied. -/
theorem update {S' : Set Hash} {m : Nat} {f : BlockIndex A → BlockIndex A} (ht : t₀.Applied S t)
    (hf : ∀ b, t.find? h = some b → (f b).footing = b.footing) (hh : ∀ b, (f b).status.active = true ↔ h ∈ S')
    (hother : ∀ x, x ≠ h → (x ∈ S' ↔ x ∈ S)) : t₀.Applied S' { t.update h f with appliedBlockCount := m } := by
  refine ⟨ht.same.trans ((SameOn.update t h hf).trans (.of_blocks_eq rfl)), ht.activeTip, fun x b' hb' => ?_⟩
  have hb' : (t.update h f).find? x = some b' := hb'
  rw [find?_update] at hb'
  split at hb'
  . next heq =>
    subst heq
    obtain ⟨b, _, rfl⟩ := Option.map_eq_some_iff.mp hb'
    exact hh b
  . next hne =>
    rw [hother x (fun heq => hne heq.symm)]
    exact ht.active hb'

end Applied

/-- Two walks from one block, of which the second one stays above the end of the first one. -/
theorem Walk.split (hw : t.Walk x l d) (hw' : t.Walk x l' v) (hl' : ∀ y ∈ l', t.heightOf d < t.heightOf y) :
    ∃ l'', l = l' ++ l'' ∧ t.Walk v l'' d := by
  induction l' generalizing x l with
  | nil =>
    have heq : x = v := hw'
    exact ⟨l, rfl, heq ▸ hw⟩
  | cons y l' ih =>
    obtain ⟨rfl, p, hp, hw'⟩ := hw'
    cases l with
    | nil =>
      have heq : y = d := hw
      subst heq
      exact absurd (hl' y List.mem_cons_self) (Nat.lt_irrefl _)
    | cons z l =>
      obtain ⟨rfl, p', hp', hw⟩ := hw
      rw [Tree.IsChild.unique hp hp'] at hw
      obtain ⟨l'', rfl, hw''⟩ := ih hw hw' (fun y hy => hl' y (List.mem_cons_of_mem z hy))
      exact ⟨l'', rfl, hw''⟩

theorem Walk.unique (ht : t.WF) (hw : t.Walk x l d) (hw' : t.Walk x l' d) : l = l' := by
  have h := hw.chainTo ht
  rw [hw'.chainTo ht] at h
  exact (List.append_cancel_right h).symm

theorem Walk.disjoint (ht : t.WF) (hw : t.Walk x l d) : ∀ y ∈ l, y ∉ t.chainTo d := by
  intro y hy hd
  have h := ht.chainTo_nodup x
  rw [hw.chainTo ht] at h
  exact (List.nodup_append.mp h).2.2 y hy y hd rfl

theorem Walk.mem_chainTo_iff (ht : t.WF) (hw : t.Walk x l d) : y ∈ t.chainTo x ↔ y ∈ l ∨ y ∈ t.chainTo d := by
  rw [hw.chainTo ht, List.mem_append]

theorem Walk.chainTo_eq_union (ht : t.WF) (hw : t.Walk x l d) :
    {y | y ∈ t.chainTo x} = {y | y ∈ t.chainTo d} ∪ {y | y ∈ l} := by
  ext y
  exact (hw.mem_chainTo_iff ht).trans or_comm

theorem Walk.chainTo_sdiff (ht : t.WF) (hw : t.Walk x l d) :
    {y | y ∈ t.chainTo x} \ {y | y ∈ l} = {y | y ∈ t.chainTo d} := by
  ext y
  rw [Set.mem_sdiff, Set.mem_ofPred_eq, Set.mem_ofPred_eq, Set.mem_ofPred_eq, hw.mem_chainTo_iff ht]
  exact ⟨fun hy => hy.1.resolve_left hy.2, fun hy => ⟨.inr hy, fun hl => hw.disjoint ht y hl hy⟩⟩

/-- The blocks between `start` and `dest` lead from one to the other. -/
theorem WF.walk_chainBetween {start dest : Hash} {first : BlockIndex A} (ht : t.WF)
    (hb : t.find? dest = some b) (hfirst : (PopStateMachine.chainBetween t start dest).head?.bind t.find? = some first)
    (hp : first.pprev = some start) : t.Walk dest (PopStateMachine.chainBetween t start dest).reverse start := by
  unfold PopStateMachine.chainBetween at hfirst ⊢
  rw [List.reverse_reverse]
  rw [List.head?_reverse] at hfirst
  have hstep : ∀ x p, t.IsChild x p → t.heightOf start < t.heightOf x →
      (t.chainTo x).takeWhile (fun h => decide (t.heightOf start < t.heightOf h)) =
        x :: (t.chainTo p).takeWhile (fun h => decide (t.heightOf start < t.heightOf h)) := by
    intro x p hx hlt
    rw [ht.chainTo_of_child hx, List.takeWhile_cons, decide_eq_true hlt]
    rfl
  refine ht.chain_induction (P := fun x =>
    (((t.chainTo x).takeWhile (fun h => decide (t.heightOf start < t.heightOf h))).getLast?.bind t.find? = some first →
      t.Walk x ((t.chainTo x).takeWhile (fun h => decide (t.heightOf start < t.heightOf h))) start)) ?_ ?_ hb hfirst
  . intro x b hb hroot hlast
    rw [chainTo_of_root hb hroot, List.takeWhile_cons, List.takeWhile_nil] at hlast
    split at hlast
    . rw [List.getLast?_singleton, Option.bind_some, hb] at hlast
      cases hlast
      rw [hroot] at hp
      cases hp
    . cases hlast
  . intro x p hx ih hlast
    by_cases hlt : t.heightOf start < t.heightOf x
    . rw [hstep x p hx hlt] at hlast ⊢
      refine ⟨rfl, p, hx, ?_⟩
      cases hrest : (t.chainTo p).takeWhile (fun h => decide (t.heightOf start < t.heightOf h)) with
      | nil =>
        rw [hrest, List.getLast?_singleton, Option.bind_some] at hlast
        obtain ⟨bx, hbx, hpx⟩ := hx
        rw [hbx] at hlast
        cases hlast
        rw [hpx] at hp
        cases hp
        rfl
      | cons y l =>
        rw [hrest, List.getLast?_cons_cons, ← hrest] at hlast
        have hw := ih hlast
        rw [hrest] at hw
        exact hw
    . rw [ht.chainTo_of_child hx, List.takeWhile_cons, decide_eq_false hlt] at hlast
      cases hlast

end Tree

namespace PopStateMachine

/-- The commands leave alone what is applied, and the protected tree is not part of the protecting state. -/
structure Local (sm : PopStateMachine σ τ A B C) : Prop where
  ed_ing : ∀ x s, sm.ed.get (sm.ing.set x s) = sm.ed.get s
  getCommands : ∀ index, Stays (fun s s' => (sm.ed.get s).Quiet (sm.ed.get s')) (sm.getCommands index)
  execute : ∀ cmd, Stays (fun s s' => (sm.ed.get s).Quiet (sm.ed.get s')) (sm.execute cmd)
  unExecute : ∀ cmd, Stays (fun s s' => (sm.ed.get s).Quiet (sm.ed.get s')) (sm.unExecute cmd)

variable {sm : PopStateMachine σ τ A B C} {t₀ : Tree A} {S : Set Hash} {s : σ} {h p : Hash}

theorem wlp_finishApply [BlockAddon A] (hs : t₀.Applied S (sm.ed.get s))
    (hconn : ∀ b, (sm.ed.get s).find? h = some b → b.isConnected = true) :
    wlp (sm.finishApply h p) (fun _ s' => t₀.Applied (insert h S) (sm.ed.get s')) s := by
  simp only [finishApply, deref, getEd, markApplied, wlp_bind, wlp_derefBlock, wlp_get, wlp_pure, wlp_zoom,
    wlp_modifyBlock, wlp_modify, sm.ed.get_set]
  intro prev _
  have hother : ∀ x, x ≠ h → (x ∈ insert h S ↔ x ∈ S) :=
    fun x hx => Set.mem_insert_iff.trans (or_iff_right hx)
  have hlast : ∀ (n : Nat) (f : BlockIndex A → BlockIndex A),
      (∀ b, (sm.ed.get s).find? h = some b → (f b).footing = b.footing) →
      t₀.Applied (insert h S) { (sm.ed.get s).update h (fun b => (f b).setFlag .active) with appliedBlockCount := n } := by
    intro n f hf
    refine hs.update (fun b hb => ?_) (fun b => ?_) hother
    . rw [← hf b hb]
      unfold BlockIndex.footing BlockIndex.isConnected BlockIndex.isValidUpTo
      rw [setFlag_status, show ((f b).setFlag .active).shape = (f b).shape from setStatus_shape _ _]
      rfl
    . rw [setFlag_status]
      exact ⟨fun _ => Set.mem_insert h S, fun _ => rfl⟩
  cases hb : (sm.ed.get s).find? h with
  | none => simp [raiseValidity, wlp_derefBlock, hb]
  | some b =>
    refine wlp_raiseValidity hb (fun _ => hlast _ (fun b => b) (fun _ _ => rfl)) (fun _ hlt => ?_)
    rw [Tree.update_update]
    refine hlast _ _ (fun b' hb' => ?_)
    rw [hb] at hb'
    cases hb'
    have hc := hconn b hb
    have hc' : .connected ≤ b.status.level := by
      rw [isConnected, isValidUpTo, decide_eq_true_eq] at hc
      exact hc
    refine Prod.ext rfl (Prod.ext rfl ?_)
    exact (decide_eq_true (BlockStateStatus.le_trans hc' (BlockStateStatus.le_of_lt hlt))).trans hc.symm

theorem wlp_liftExcept {x : Except Assertion Int} {Q : Int → σ → Prop} :
    wlp (compareForks.liftExcept x) Q s ↔ ∀ r, x = .ok r → Q r s := by
  cases x with
  | ok r =>
    refine ⟨fun h r' heq => ?_, fun h => h r rfl⟩
    cases heq
    exact h
  | error e => exact ⟨fun _ r heq => (by cases heq), fun _ => wlp_throw⟩

namespace Local

variable (hsm : sm.Local)

include hsm

theorem executeGroup (cmds : List C) :
    Stays (fun s s' => (sm.ed.get s).Quiet (sm.ed.get s')) (sm.executeGroup cmds) :=
  .execAll hsm.execute hsm.unExecute cmds

theorem unExecuteGroup (cmds : List C) :
    Stays (fun s s' => (sm.ed.get s).Quiet (sm.ed.get s')) (sm.unExecuteGroup cmds) :=
  .undoAll hsm.unExecute cmds

/-- A program on the protecting trees does not touch the protected tree. -/
theorem wlp_zoom_ing {m : M τ α} {Q : α → σ → Prop} (hQ : ∀ a s', sm.ed.get s' = sm.ed.get s → Q a s') :
    wlp (zoom sm.ing m) Q s := by
  rw [wlp_zoom]
  refine wlp_iff.mpr (fun a x _ => ?_)
  exact hQ a _ (hsm.ed_ing x s)

variable [PopAddon A]

theorem executeBlock (index : BlockIndex A) :
    Stays (fun s s' => (sm.ed.get s).Quiet (sm.ed.get s')) (sm.executeBlock index) :=
  .ite (.bind (hsm.getCommands index) (fun _ => .execAll hsm.executeGroup hsm.unExecuteGroup _)) (.pure _)

theorem wlp_unapplyBlock (hs : t₀.Applied S (sm.ed.get s)) :
    wlp (sm.unapplyBlock h) (fun _ s' => h ∈ S ∧ t₀.Applied (S \ {h}) (sm.ed.get s')) s := by
  simp only [unapplyBlock, deref, getEd, wlp_bind, wlp_zoom_derefBlock, wlp_getOrStop, wlp_check]
  intro index hb p _ _ hactive prev _ _
  have hundo : Stays (fun s s' => (sm.ed.get s).Quiet (sm.ed.get s')) (when (PopAddon.hasPayloads index.addon) do
      let cgroups ← sm.getCommands index
      undoAll sm.unExecuteGroup cgroups) :=
    .when (.bind (hsm.getCommands index) (fun _ => .undoAll hsm.unExecuteGroup _))
  refine wlp_mono (hundo.wlp (fun s => .refl _) s) ?_
  intro _ s1 hquiet
  simp only [wlp_zoom, wlp_modifyBlock, wlp_modify, wlp_get, wlp_pure, sm.ed.get_set]
  intro _
  refine ⟨(hs.active hb).mp hactive, (hs.quiet hquiet).update (fun b _ => ?_) (fun b => ?_) (fun x hx => ?_)⟩
  . unfold BlockIndex.footing BlockIndex.isConnected BlockIndex.isValidUpTo
    rw [unsetFlag_status, show (b.unsetFlag .active).shape = b.shape from setStatus_shape _ _]
    rfl
  . rw [unsetFlag_status]
    exact ⟨(by cases ·), fun hmem => absurd rfl hmem.2⟩
  . exact ⟨fun hmem => hmem.1, fun hmem => ⟨hmem, hx⟩⟩

theorem wlp_unapplyWhile (pred : BlockIndex A → Bool) (dest : Hash) (fuel : Nat) (hs : t₀.Applied S (sm.ed.get s)) :
    wlp (sm.unapplyWhile pred dest fuel h) (fun last s' => ∃ l, t₀.Walk h l last ∧
      (∀ x ∈ l, x ∈ S ∧ t₀.heightOf dest < t₀.heightOf x) ∧ t₀.Applied (S \ {x | x ∈ l}) (sm.ed.get s')) s := by
  have hnil : ∀ {h : Hash} {S : Set Hash} {s : σ}, t₀.Applied S (sm.ed.get s) → ∃ l, t₀.Walk h l h ∧
      (∀ x ∈ l, x ∈ S ∧ t₀.heightOf dest < t₀.heightOf x) ∧ t₀.Applied (S \ {x | x ∈ l}) (sm.ed.get s) := by
    intro h S s hs
    refine ⟨[], rfl, List.forall_mem_nil _, ?_⟩
    rw [show {x : Hash | x ∈ ([] : List Hash)} = ∅ from Set.eq_empty_of_forall_notMem (fun x hx => by cases hx),
      Set.sdiff_empty]
    exact hs
  induction fuel generalizing s S h with
  | zero => exact wlp_throw
  | succ fuel ih =>
    simp only [unapplyWhile, wlp_ite, wlp_pure, wlp_bind, deref, getEd, wlp_zoom_derefBlock, wlp_get, wlp_check,
      decide_eq_true_eq]
    refine ⟨fun heq => ?_, fun _ index hb hlt => ⟨fun _ => hnil hs, fun _ => ?_⟩⟩
    . subst heq
      exact hnil hs
    . refine wlp_mono (hsm.wlp_unapplyBlock hs) ?_
      rintro _ s1 ⟨hmem, hs1⟩
      rw [wlp_getOrStop]
      intro p hp
      refine wlp_mono (ih hs1) ?_
      rintro last s2 ⟨l, hw, hall, hs2⟩
      have hchild : t₀.IsChild h p := (hs.shape.isChild h p).mp ⟨index, hb, hp⟩
      rw [← Tree.heightOf_eq hb, hs.shape.heightOf, hs.shape.heightOf] at hlt
      refine ⟨h :: l, ⟨rfl, p, hchild, hw⟩, fun x hx => ?_, ?_⟩
      . rcases List.mem_cons.mp hx with rfl | hx
        . exact ⟨hmem, hlt⟩
        . exact ⟨(hall x hx).1.1, (hall x hx).2⟩
      . rw [show S \ {x | x ∈ h :: l} = (S \ {h}) \ {x | x ∈ l} by
          ext x
          simp only [List.mem_cons, Set.mem_sdiff, Set.mem_ofPred_eq, Set.mem_singleton_iff, not_or, and_assoc]]
        exact hs2

theorem wlp_unapply (start dest : Hash) (hs : t₀.Applied S (sm.ed.get s)) :
    wlp (sm.unapply start dest) (fun _ s' => ∃ l, t₀.Walk start l dest ∧ t₀.Applied (S \ {x | x ∈ l}) (sm.ed.get s')) s := by
  simp only [unapply, getEd, wlp_bind, wlp_get, wlp_pure, wlp_check, decide_eq_true_eq]
  refine wlp_mono (hsm.wlp_unapplyWhile _ dest _ hs) ?_
  rintro last s1 ⟨l, hw, _, hs1⟩ rfl
  exact ⟨l, hw, hs1⟩

variable [BlockAddon A]

theorem wlp_applyBlock (hs : t₀.Applied S (sm.ed.get s)) :
    wlp (sm.applyBlock h) (fun ok s' => if ok then h ∉ S ∧ t₀.Applied (insert h S) (sm.ed.get s') else
      t₀.Applied S (sm.ed.get s')) s := by
  simp only [applyBlock, assertBlockCanBeApplied, deref, wlp_bind, wlp_zoom_derefBlock, wlp_getOrStop, wlp_check, wlp_pure,
    wlp_ite]
  intro index hb p _ prev _ _ hactive _
  have hnot : h ∉ S := by
    rw [← hs.active hb]
    intro ha
    rw [show index.hasFlags .active = index.status.active from rfl, ha] at hactive
    cases hactive
  refine ⟨fun _ => hs, fun _ hvalid => ?_⟩
  refine wlp_mono ((hsm.executeBlock index).wlp (fun s => .refl _) s) ?_
  intro ok s1 hquiet
  have hs1 := hs.quiet hquiet
  refine ⟨fun _ => ?_, fun _ => ?_⟩
  . refine wlp_mono (wlp_finishApply hs1 (fun b1 hb1 => ?_)) (fun _ s2 h2 => ⟨hnot, h2⟩)
    obtain ⟨b, hb', heq⟩ := hquiet.same.find? hb1
    rw [hb] at hb'
    cases hb'
    rw [isConnected, isValidUpTo, ← (clearFailed_level (unfailed_eq_iff.mp heq).2).1]
    exact (Bool.and_eq_true _ _ ▸ hvalid).2
  . simp only [invalidateSubtree, edClass, TreeClass.getTree, wlp_bind, wlp_get, wlp_pure, wlp_getOrStop, wlp_check,
      wlp_ite, wlp_when, setStateOrStop, wlp_zoom]
    intro b1 _ prev1 _ hr
    refine ⟨fun _ => hs1, fun _ => ⟨fun _ => ?_, fun _ => ⟨fun _ => ?_, fun _ => ?_⟩⟩⟩
    . refine wlp_mono (KeepsFlagged.doInvalidate h (.inr (.inl rfl)) _ _ (.refl _)) (fun _ t ht => ?_)
      rw [sm.ed.get_set]
      exact hs1.quiet ht.quiet
    . exact wlp_throw
    . refine wlp_mono (KeepsFlagged.flagSubtree h prev1 (.inr (.inl rfl)) _ _ (.refl _)) (fun _ t ht => ?_)
      refine ⟨(by cases ·), fun _ => ?_⟩
      rw [sm.ed.get_set]
      exact hs1.quiet ht.quiet

theorem wlp_apply (start dest : Hash) (ht : t₀.WF) (hs : t₀.Applied S (sm.ed.get s)) :
    wlp (sm.apply start dest) (fun ok s' => if ok then ∃ l, t₀.Walk dest l start ∧ (∀ x ∈ l, x ∉ S) ∧
      t₀.Applied (S ∪ {x | x ∈ l}) (sm.ed.get s') else t₀.Applied S (sm.ed.get s')) s := by
  have hnil : t₀.Applied (S ∪ {x | x ∈ ([] : List Hash)}) (sm.ed.get s) := by
    rw [show {x : Hash | x ∈ ([] : List Hash)} = ∅ from Set.eq_empty_of_forall_notMem (fun x hx => by cases hx),
      Set.union_empty]
    exact hs
  unfold apply
  rw [wlp_ite]
  refine ⟨fun heq => ?_, fun _ => ?_⟩
  . rw [wlp_pure, if_pos rfl, heq]
    exact ⟨[], rfl, List.forall_mem_nil _, hnil⟩
  simp only [deref, getEd, wlp_bind, wlp_zoom_derefBlock, wlp_ite, wlp_pure, wlp_get, wlp_getOrStop, wlp_check,
    decide_eq_true_eq]
  intro index hb
  refine ⟨fun _ => hs, fun _ first hfirst hp => ?_⟩
  have hwalk := (ht.congr hs.shape).walk_chainBetween hb hfirst hp
  rw [hs.shape.walk] at hwalk
  -- the list holds the blocks that have been applied so far, the last one first
  refine wlp_mono (wlp_execAll (S := []) (P := fun L s' => L.Nodup ∧ (∀ x ∈ L, x ∉ S) ∧
    t₀.Applied (S ∪ {x | x ∈ L}) (sm.ed.get s')) ?_ ?_ ?_) ?_
  . rintro h _ L s1 ⟨hnodup, hall, hs1⟩
    refine wlp_mono (hsm.wlp_applyBlock hs1) ?_
    intro ok s2 h2
    cases ok with
    | false => exact ⟨hnodup, hall, h2⟩
    | true =>
      obtain ⟨hnot, h2⟩ : h ∉ S ∪ {x | x ∈ L} ∧ _ := h2
      have hS : h ∉ S := fun hmem => hnot (.inl hmem)
      have hL : h ∉ L := fun hmem => hnot (.inr hmem)
      refine ⟨List.nodup_cons.mpr ⟨hL, hnodup⟩, fun x hx => ?_, ?_⟩
      . rcases List.mem_cons.mp hx with rfl | hx
        . exact hS
        . exact hall x hx
      . rw [show S ∪ {x | x ∈ h :: L} = insert h (S ∪ {x | x ∈ L}) by
          ext x
          simp only [List.mem_cons, Set.mem_union, Set.mem_ofPred_eq, Set.mem_insert_iff]
          tauto]
        exact h2
  . rintro h _ L s1 ⟨hnodup, hall, hs1⟩
    rw [List.nodup_cons] at hnodup
    refine wlp_mono (hsm.wlp_unapplyBlock hs1) ?_
    rintro _ s2 ⟨_, h2⟩
    refine ⟨hnodup.2, fun x hx => hall x (List.mem_cons_of_mem h hx), ?_⟩
    rw [show S ∪ {x | x ∈ L} = (S ∪ {x | x ∈ h :: L}) \ {h} by
      ext x
      simp only [List.mem_cons, Set.mem_union, Set.mem_ofPred_eq, Set.mem_sdiff, Set.mem_singleton_iff]
      constructor
      . rintro (hx | hx)
        . exact ⟨.inl hx, fun heq => hall h List.mem_cons_self (heq ▸ hx)⟩
        . exact ⟨.inr (.inr hx), fun heq => hnodup.1 (heq ▸ hx)⟩
      . rintro ⟨hx | hx | hx, hne⟩
        . exact .inl hx
        . exact absurd hx hne
        . exact .inr hx]
    exact h2
  . exact ⟨List.nodup_nil, List.forall_mem_nil _, hnil⟩
  . intro ok s1 h1
    cases ok with
    | false =>
      obtain ⟨_, _, h1⟩ := h1
      rw [show {x : Hash | x ∈ ([] : List Hash)} = ∅ from Set.eq_empty_of_forall_notMem (fun x hx => by cases hx),
        Set.union_empty] at h1
      exact h1
    | true =>
      rw [if_pos rfl, List.append_nil] at h1
      exact ⟨_, hwalk, h1.2⟩

theorem wlp_apply_appliedTo (start dest : Hash) (ht : t₀.WF) (hs : t₀.AppliedTo start (sm.ed.get s)) :
    wlp (sm.apply start dest) (fun ok s' => t₀.AppliedTo (if ok then dest else start) (sm.ed.get s')) s := by
  refine wlp_mono (hsm.wlp_apply start dest ht hs) (fun ok s' h => ?_)
  cases ok with
  | false => exact h
  | true =>
    obtain ⟨l, hw, _, h⟩ := h
    rw [if_pos rfl, Tree.AppliedTo, hw.chainTo_eq_union ht]
    exact h

/-- From one chain to another through a fork block. -/
theorem wlp_setState (start dest : Hash) (ht : t₀.WF) (hs : t₀.AppliedTo start (sm.ed.get s)) :
    wlp (sm.setState start dest) (fun ok s' => t₀.AppliedTo (if ok then dest else start) (sm.ed.get s')) s := by
  unfold setState
  rw [wlp_ite]
  refine ⟨fun heq => ?_, fun _ => ?_⟩
  . rw [wlp_pure, if_pos rfl, ← heq]
    exact hs
  simp only [getEd, wlp_bind, wlp_get, wlp_pure, wlp_getOrStop]
  intro fork _
  refine wlp_mono (hsm.wlp_unapply start fork hs) ?_
  rintro _ s1 ⟨l, hw, hs1⟩
  have hs1 : t₀.AppliedTo fork (sm.ed.get s1) := by
    rw [Tree.AppliedTo, ← hw.chainTo_sdiff ht]
    exact hs1
  refine wlp_mono (hsm.wlp_apply_appliedTo fork dest ht hs1) ?_
  intro ok s2 h2
  cases ok with
  | true => exact h2
  | false =>
    -- the former chain is put back
    simp only [Bool.false_eq_true, ↓reduceIte, wlp_bind, wlp_check, wlp_pure] at h2 ⊢
    refine wlp_mono (hsm.wlp_apply_appliedTo fork start ht h2) ?_
    intro ok s3 h3 hok
    rw [hok] at h3
    exact h3

variable [BlockAddon B]

omit [PopAddon A] [BlockAddon A] in
theorem wlp_withGuard {m : M σ α} {P : α → Tree A → Prop}
    (hm : ∀ s', sm.ed.get s' = sm.ed.get s → wlp m (fun a s'' => P a (sm.ed.get s'')) s') :
    wlp (sm.withGuard m) (fun a s' => P a (sm.ed.get s')) s := by
  simp only [withGuard, wlp_bind, wlp_pure]
  apply hsm.wlp_zoom_ing
  intro _ s1 h1
  refine wlp_mono (hm s1 h1) ?_
  intro a s2 h2
  apply hsm.wlp_zoom_ing
  intro _ s3 h3
  rw [h3]
  exact h2

omit [PopAddon A] [BlockAddon A] [BlockAddon B] in
theorem wlp_revertTo {originalTip : Hash} {P : Tree A → Prop} (hP : P (sm.ed.get s)) :
    wlp (sm.revertTo originalTip) (fun _ s' => P (sm.ed.get s')) s := by
  unfold revertTo
  apply hsm.wlp_zoom_ing
  intro _ s1 h1
  rw [h1]
  exact hP

omit [PopAddon A] [BlockAddon A] [BlockAddon B] in
theorem wlp_revertUnless {success : Bool} {originalTip : Hash} {P : Bool → Tree A → Prop} (hP : P success (sm.ed.get s)) :
    wlp (sm.revertUnless success originalTip) (fun ok s' => P ok (sm.ed.get s')) s := by
  simp only [revertUnless, wlp_bind, wlp_when, wlp_pure]
  exact ⟨fun _ => hsm.wlp_revertTo hP, fun _ => hP⟩

theorem wlp_comparatorSetState (dest : Hash) (ht : t₀.WF) (hs : t₀.AppliedTo t₀.activeTip (sm.ed.get s)) :
    wlp (sm.comparatorSetState dest) (fun ok s' => t₀.AppliedTo (if ok then dest else t₀.activeTip) (sm.ed.get s')) s := by
  have htip := hs.activeTip
  simp only [comparatorSetState, getEd, wlp_bind, wlp_get, wlp_pure, wlp_check, wlp_ite]
  intro _
  refine ⟨fun heq => ?_, fun _ => ?_⟩
  . rw [if_pos trivial, ← heq, htip]
    exact hs
  refine hsm.wlp_withGuard (P := fun (ok : Bool) t => t₀.AppliedTo (if ok then dest else t₀.activeTip) t) ?_
  intro s1 h1
  simp only [getIng, wlp_bind, wlp_get, wlp_pure, htip]
  refine wlp_mono (hsm.wlp_setState t₀.activeTip dest ht (by rw [h1]; exact hs)) ?_
  intro ok s2 h2
  exact hsm.wlp_revertUnless (P := fun (ok : Bool) t => t₀.AppliedTo (if ok then dest else t₀.activeTip) t) h2

omit [BlockAddon A] in
/-- Chain A stays applied when chain B, which has been applied beside it, loses. -/
theorem wlp_keepChainA {fork best candidate originalTip : Hash} {l : List Hash} (ht : t₀.WF)
    (hw : t₀.Walk candidate l fork) (hl : ∀ x ∈ l, x ∉ t₀.chainTo best)
    (hs : t₀.Applied ({x | x ∈ t₀.chainTo best} ∪ {x | x ∈ l}) (sm.ed.get s)) :
    wlp (sm.keepChainA fork candidate originalTip) (fun _ s' => t₀.AppliedTo best (sm.ed.get s')) s := by
  refine hsm.wlp_withGuard (P := fun _ t => t₀.AppliedTo best t) (fun s1 h1 => ?_)
  rw [wlp_bind]
  refine wlp_mono (hsm.wlp_unapply candidate fork (h1 ▸ hs)) ?_
  rintro _ s2 ⟨l', hw', hs2⟩
  have hdisj : {x | x ∈ t₀.chainTo best} ∩ {x | x ∈ l} ⊆ ∅ := fun x hx => hl x hx.2 hx.1
  rw [hw'.unique ht hw, Set.union_sdiff_cancel_right hdisj] at hs2
  exact hsm.wlp_revertTo (P := t₀.AppliedTo best) hs2

/-- Chain B takes the place of chain A, or chain A is put back. -/
theorem wlp_switchToChainB {fork best candidate originalTip : Hash} {l : List Hash} (ht : t₀.WF)
    (hw : t₀.Walk candidate l fork) (hl : ∀ x ∈ l, x ∉ t₀.chainTo best)
    (hs : t₀.Applied ({x | x ∈ t₀.chainTo best} ∪ {x | x ∈ l}) (sm.ed.get s)) :
    wlp (sm.switchToChainB fork best candidate originalTip) (fun ok s' =>
      t₀.AppliedTo (if ok then candidate else best) (sm.ed.get s')) s := by
  refine hsm.wlp_withGuard (P := fun (ok : Bool) t => t₀.AppliedTo (if ok then candidate else best) t) (fun s1 h1 => ?_)
  simp only [getEd, wlp_bind, wlp_get, wlp_pure]
  refine wlp_mono (hsm.wlp_unapplyWhile _ fork _ (h1 ▸ hs)) ?_
  rintro validFrom s2 ⟨l1, hw1, hall, hs2⟩
  obtain ⟨l2, rfl, hw2⟩ := hw.split hw1 (fun x hx => (hall x hx).2)
  refine wlp_mono (hsm.wlp_unapply best fork hs2) ?_
  rintro _ s3 ⟨la, hwa, hs3⟩
  -- chain A is off, and of chain B only what has been validated alone is left
  have hset : (({x | x ∈ t₀.chainTo best} ∪ {x | x ∈ l1 ++ l2}) \ {x | x ∈ l1}) \ {x | x ∈ la} =
      {x | x ∈ t₀.chainTo validFrom} := by
    ext x
    have h1 := hw1.disjoint ht x
    have ha := hwa.disjoint ht x
    have hb := hl x
    simp only [Set.mem_sdiff, Set.mem_union, Set.mem_ofPred_eq, List.mem_append] at hb ⊢
    rw [hwa.mem_chainTo_iff ht] at hb ⊢
    rw [hw2.mem_chainTo_iff ht] at h1 ⊢
    tauto
  rw [hset] at hs3
  refine wlp_mono (hsm.wlp_apply_appliedTo validFrom candidate ht hs3) ?_
  intro ok s4 h4
  cases ok with
  | true => exact h4
  | false =>
    simp only [Bool.false_eq_true, ↓reduceIte, wlp_bind, wlp_check, wlp_pure] at h4 ⊢
    refine wlp_mono (hsm.wlp_unapply validFrom fork h4) ?_
    rintro _ s5 ⟨l2', hw2', hs5⟩
    rw [hw2'.chainTo_sdiff ht] at hs5
    refine wlp_mono (hsm.wlp_apply_appliedTo fork best ht hs5) ?_
    intro ok s6 h6 hok
    rw [hok] at h6
    exact hsm.wlp_revertTo (P := t₀.AppliedTo best) h6

theorem wlp_compareForks {p : PopParams} {fork candidate : Hash} (ht : t₀.WF) (hs : t₀.AppliedTo t₀.activeTip (sm.ed.get s)) :
    wlp (sm.compareForks p fork t₀.activeTip candidate) (fun r s' =>
      t₀.AppliedTo (if r < 0 then candidate else t₀.activeTip) (sm.ed.get s')) s := by
  have hleft : ∀ {t : Tree A}, t₀.AppliedTo t₀.activeTip t →
      t₀.AppliedTo (if (1 : Int) < 0 then candidate else t₀.activeTip) t := fun h => h
  simp only [compareForks, getIng, getEd, wlp_bind, wlp_get, wlp_pure]
  refine wlp_mono (hsm.wlp_withGuard (P := fun (ok : Bool) t => if ok then ∃ l, t₀.Walk candidate l fork ∧
    (∀ x ∈ l, x ∉ t₀.chainTo t₀.activeTip) ∧ t₀.Applied ({x | x ∈ t₀.chainTo t₀.activeTip} ∪ {x | x ∈ l}) t else
    t₀.AppliedTo t₀.activeTip t) (fun s1 h1 => ?_)) ?_
  . rw [wlp_bind]
    refine wlp_mono (hsm.wlp_apply fork candidate ht (h1 ▸ hs)) (fun ok s2 h2 => ?_)
    exact hsm.wlp_revertUnless (P := fun (ok : Bool) t => if ok then ∃ l, t₀.Walk candidate l fork ∧
      (∀ x ∈ l, x ∉ t₀.chainTo t₀.activeTip) ∧ t₀.Applied ({x | x ∈ t₀.chainTo t₀.activeTip} ∪ {x | x ∈ l}) t else
      t₀.AppliedTo t₀.activeTip t) h2
  intro applied s3 h3
  cases applied with
  | false => exact hleft h3
  | true =>
    obtain ⟨l, hw, hl, hs3⟩ := h3
    simp only [Bool.not_true, Bool.false_eq_true, ↓reduceIte, wlp_bind, wlp_get, wlp_pure]
    refine wlp_liftExcept.mpr (fun result _ => ?_)
    simp only [wlp_pure, wlp_ite, wlp_bind]
    refine ⟨fun hpos => ?_, fun hneg => ?_⟩
    . refine wlp_mono (hsm.wlp_keepChainA ht hw hl hs3) (fun _ s4 h4 => ?_)
      rw [if_neg (Int.not_lt.mpr hpos)]
      exact h4
    . refine wlp_mono (hsm.wlp_switchToChainB ht hw hl hs3) (fun ok s4 h4 => ?_)
      refine ⟨fun hok => ?_, fun hok => ?_⟩
      . rw [if_pos (Int.not_le.mp hneg)]
        rw [hok] at h4
        exact h4
      . rw [Bool.not_eq_true] at hok
        rw [hok] at h4
        exact hleft h4

/-- The comparison leaves the chain applied that wins it. -/
theorem wlp_comparePopScore {p : PopParams} {candidate : Hash} (ht : t₀.WF) (hs : t₀.AppliedTo t₀.activeTip (sm.ed.get s)) :
    wlp (sm.comparePopScore p candidate) (fun r s' =>
      t₀.AppliedTo (if r < 0 then candidate else t₀.activeTip) (sm.ed.get s')) s := by
  have hleft : ∀ {t : Tree A}, t₀.AppliedTo t₀.activeTip t →
      t₀.AppliedTo (if (1 : Int) < 0 then candidate else t₀.activeTip) t := fun h => h
  simp only [comparePopScore, deref, getEd, getIng, wlp_bind, wlp_zoom_derefBlock, wlp_get, wlp_pure, wlp_ite, hs.activeTip,
    wlp_getOrStop]
  refine fun index _ best _ => ⟨fun _ => hleft hs, fun _ => ⟨fun _ => ?_, fun _ fork _ => ⟨fun _ => hleft hs,
    fun _ => ⟨fun _ => hs, fun _ => hsm.wlp_compareForks ht hs⟩⟩⟩⟩
  refine wlp_mono (hsm.wlp_withGuard (P := fun (ok : Bool) t =>
    t₀.AppliedTo (if ok then candidate else t₀.activeTip) t) (fun s1 h1 => ?_)) (fun ok s2 h2 => ?_)
  . rw [wlp_bind]
    refine wlp_mono (hsm.wlp_apply_appliedTo t₀.activeTip candidate ht (h1 ▸ hs)) (fun ok s2 h2 => ?_)
    exact hsm.wlp_revertUnless (P := fun (ok : Bool) t => t₀.AppliedTo (if ok then candidate else t₀.activeTip) t) h2
  . cases ok with
    | false => exact h2
    | true => exact h2

end Local

end PopStateMachine

end AltIntegration
