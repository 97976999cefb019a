import AltIntegration.System.Standing

/-!
This module contains the references that the commands of a state machine post to the protecting tree, and that the
references there are those of the blocks that are applied.
-/

namespace AltIntegration

open Program BlockIndex

variable {σ τ A B C γ α ν ρ : Type}

section Trees

variable [PowAddon A] [RefAddon A] {kept : A → ρ} {p : BlockTreeParams} {I : σ → Prop} {R : Multiset (Hash × Nat)} {c : TreeClass σ A}
  {s : σ} {h : Hash}

namespace TreeClass

/-- The references to the blocks of the tree -/
def references (c : TreeClass σ A) (s : σ) : Multiset (Hash × Nat) := (c.tree.get s).references

/-- The invariant holds, and the references to the blocks are `R`. -/
def Holding (c : TreeClass σ A) (I : σ → Prop) (R : Multiset (Hash × Nat)) (s : σ) : Prop := I s ∧ c.references s = R

/-- The invariant makes the tree well formed, and what is kept tells the references. -/
structure Referenced (c : TreeClass σ A) (kept : A → ρ) (I : σ → Prop) : Prop where
  wf : ∀ s, I s → (c.tree.get s).WF
  refs : ∃ f : ρ → List Nat, ∀ a, RefAddon.refs a = f (kept a)
  onBeforeLeafRemoved : Tree.OnlyPayloadsIndex c.onBeforeLeafRemoved

namespace Referenced

variable (hr : c.Referenced kept I)

include hr

theorem sameOn {t t' : Tree A} (hs : t.SameOn (fun b => kept b.addon) t') : t.SameOn (fun b => RefAddon.refs b.addon) t' := by
  obtain ⟨f, hf⟩ := hr.refs
  have hrefs : (fun b : BlockIndex A => RefAddon.refs b.addon) = fun b => f (kept b.addon) := funext (fun b => hf b.addon)
  rw [hrefs]
  exact hs.comp f

theorem settles {m : M σ α} (hm : c.Settles kept I m) : c.Settles kept (c.Holding I R) m := by
  intro t₀ s hs
  refine wlp_mono (hm t₀ s ⟨hs.1.1, hs.2⟩) (fun _ s' h => ⟨⟨h.1, ?_⟩, h.2⟩)
  exact (Tree.references_congr (hr.sameOn ((hs.2.symm.trans h.2).comp Prod.snd))).trans hs.1.2

theorem steady (hc : c.Steady kept I) : c.Steady kept (c.Holding I R) where
  alike s t' hs ht := by
    refine ⟨hc.alike s t' hs.1 ht, ?_⟩
    rw [references, c.tree.get_set]
    exact (Tree.references_congr (hr.sameOn (ht.same.comp (fun u => u.1.2)))).trans hs.2
  setState h := hr.settles (hc.setState h)
  determineBestChain h := hr.settles (hc.determineBestChain h)

theorem upholds (hc : c.Upholds p kept I) : c.Upholds p kept (c.Holding I R) where
  toSteady := hr.steady hc.toSteady
  validateAndAddBlock block ctx := by
    apply Upholding.of_wlp
    intro s hs
    have hinsert := (hc.validateAndAddBlock block ctx).wlp hs.1
    rw [wlp_zoom] at hinsert ⊢
    refine wlp_mono (wlp_and hinsert (wlp_validateAndAddBlock_inserts ctx)) (fun _ t' h => ⟨h.1, ?_⟩)
    have hwf := hr.wf _ h.1
    rw [c.tree.get_set] at hwf
    rw [references, c.tree.get_set]
    exact (Tree.references_of_refsAt (hr.wf s hs.1).nodup hwf.nodup h.2.refsAt).trans hs.2

/-- A leaf without references is removed. -/
theorem wlp_removeLeaf (hc : c.Steady kept I) (hdel : c.Deletes I) (hs : I s) (hp : (c.tree.get s).Present h)
    (hrefs : (c.tree.get s).refsAt h = []) :
    wlp (removeLeaf c h) (fun _ s' => I s' ∧ c.references s' = c.references s) s := by
  simp only [removeLeaf, removeSubtree, TreeClass.getTree, wlp_bind, wlp_get, wlp_pure, wlp_check, wlp_getOrStop]
  intro hleaf b hb prev hprev
  rw [Bool.not_eq_true'] at hleaf
  have hleave : c.Settles kept (c.Holding I (c.references s)) (when ((c.tree.get s).onActiveChain h) (setStateOrStop c prev)) :=
    .when ((hr.steady hc).setStateOrStop prev)
  refine wlp_mono (wlp_and (hdel s h prev hs ⟨b, hb, hprev⟩) (hleave.wlp ⟨hs, rfl⟩)) (fun _ s1 h1 => ?_)
  obtain ⟨hdelete, ⟨hI1, hR1⟩, hsame⟩ := h1
  have hlabour : (c.tree.get s).SameOn (·.standing PowAddon.chainWork) (c.tree.get s1) := hsame.comp Prod.fst
  obtain ⟨bp, hbp, hd⟩ := hp
  obtain ⟨b1, hb1, heq⟩ := hlabour.symm.find? hbp
  have hd1 : b1.status.deleted = false := (labour_eq_iff.mp heq).2.1.trans hd
  have hspares : wlp (zoom c.tree (deleteSubtree c.onBeforeLeafRemoved h prev))
      (fun _ s2 => (c.tree.get s2).refsAt = (c.tree.get s).refsAt) s1 := by
    rw [wlp_zoom]
    apply wlp_iff.mpr
    intro _ t' hrun
    have hrefs1 : (c.tree.get s1).refsAt = (c.tree.get s).refsAt := Tree.refsAt_congr (hr.sameOn (hsame.comp Prod.snd))
    rw [run_deleteSubtree hb1 hd1 (hlabour.leaf (hr.wf s hs) hleaf)] at hrun
    cases hrun
    rw [c.tree.get_set, ← hrefs1]
    rw [← hrefs1] at hrefs
    exact Tree.refsAt_deleted hr.onBeforeLeafRemoved hrefs
  refine wlp_mono (wlp_and hdelete hspares) (fun _ s2 h2 => ?_)
  have hR2 : c.references s2 = c.references s :=
    Tree.references_of_refsAt (hr.wf s hs).nodup (hr.wf s2 h2.1).nodup h2.2
  have htips : c.Settles kept (c.Holding I (c.references s)) (when ((c.tree.get s).onActiveChain h) (updateTips c)) :=
    .when (hr.steady hc).updateTips
  exact htips.upholding.wlp ⟨h2.1, hR2⟩

end Referenced

namespace Upholds

variable (hc : c.Upholds p kept I) (hr : c.Referenced kept I) (hcount : c.Counts I)

include hc hr hcount

/-- The command posts one reference. -/
theorem addBlock_posts (block : PowBlock) (n : Nat) :
    Posts c.references I {(block.getHash, RefAddon.label A n)} (AddBlock.execute p c block n) := by
  intro s hs
  have haccept : Upholding (c.Holding I (c.references s)) (AddBlock.execute.acceptUnknown p c block (c.tree.get s)) := by
    unfold AddBlock.execute.acceptUnknown
    split
    . exact .pure _
    . exact (hr.upholds hc).acceptBlockHeader block
  simp only [AddBlock.execute, TreeClass.getTree, wlp_bind, wlp_get, wlp_pure]
  refine wlp_mono (haccept.wlp ⟨hs, rfl⟩) (fun ok s1 h1 => ?_)
  rw [wlp_ite]
  refine ⟨fun _ => ?_, fun _ => ⟨h1.1, h1.2.trans (add_zero _).symm⟩⟩
  simp only [wlp_bind, wlp_get, wlp_pure, wlp_check, wlp_zoom, wlp_modify, ↓reduceIte]
  intro hsome
  obtain ⟨b, hb⟩ := Option.isSome_iff_exists.mp hsome
  obtain ⟨hb, hd⟩ := Tree.getBlockIndex_eq_some.mp hb
  refine ⟨hcount.addRef s1 _ n b h1.1 hb hd, ?_⟩
  rw [← h1.2, references, c.tree.get_set]
  exact Tree.references_addRef (hr.wf s1 h1.1).nodup hb

/-- Undoing the command takes the reference off, and with the last one the block goes. -/
theorem addBlock_reverses (block : PowBlock) (n : Nat) :
    Reverses c.references I {(block.getHash, RefAddon.label A n)} (AddBlock.unExecute c block n) := by
  intro s hs
  simp only [AddBlock.unExecute, TreeClass.getTree, wlp_bind, wlp_get, wlp_pure, wlp_getOrStop, wlp_zoom, wlp_modify]
  intro index hindex addon haddon
  obtain ⟨hb, hd⟩ := Tree.getBlockIndex_eq_some.mp hindex
  have hs1 := hcount.removeRef s _ n index addon hs hb haddon
  have hR1 := Tree.references_removeRef (hr.wf s hs).nodup hb haddon
  have hpresent : (c.tree.get (c.tree.set ((c.tree.get s).updateAddon block.getHash (fun _ => addon)) s)).Present block.getHash := by
    rw [c.tree.get_set]
    refine ⟨index.setAddon addon, ?_, hd⟩
    unfold Tree.updateAddon
    rw [Tree.find?_update_self, hb]
    rfl
  have hnone : PowAddon.refCount addon = 0 →
      (c.tree.get (c.tree.set ((c.tree.get s).updateAddon block.getHash (fun _ => addon)) s)).refsAt block.getHash = [] := by
    intro hzero
    rw [c.tree.get_set]
    unfold Tree.refsAt Tree.updateAddon
    rw [Tree.find?_update_self, hb]
    exact RefAddon.refs_eq_nil addon hzero
  rw [wlp_when, wlp_bind, wlp_check]
  refine ⟨fun hzero _ => ?_, fun _ => ⟨hs1, ?_⟩⟩
  . refine wlp_mono (hr.wlp_removeLeaf hc.toSteady hcount.delete hs1 hpresent (hnone (of_decide_eq_true hzero)))
      (fun _ s2 h2 => ⟨h2.1, ?_⟩)
    rw [h2.2, references, c.tree.get_set]
    exact hR1
  . rw [references, c.tree.get_set]
    exact hR1

/-- A bootstrap block gets one reference. -/
theorem wlp_bootstrapBlock_references (block : PowBlock) (hs : I s) : wlp (AltIntegration.bootstrapBlock p c block)
    (fun _ s' => I s' ∧ c.references s' = c.references s + {(block.getHash, RefAddon.label A 0)}) s := by
  refine wlp_mono ((hr.upholds hc).wlp_bootstrapBlock block ⟨hs, rfl⟩) ?_
  rintro _ _ ⟨s1, b, hs1, hb, hd, rfl⟩
  refine ⟨hcount.addRef s1 _ 0 b hs1.1 hb hd, ?_⟩
  rw [← hs1.2, references, c.tree.get_set]
  exact Tree.references_addRef (hr.wf s1 hs1.1).nodup hb

theorem wlp_bootstrapBlocks (blocks : List PowBlock) (hs : I s) : wlp (forEach (AltIntegration.bootstrapBlock p c) blocks)
    (fun _ s' => I s' ∧ c.references s' = c.references s +
      Multiset.ofList (blocks.map (fun block => (block.getHash, RefAddon.label A 0)))) s := by
  induction blocks generalizing s with
  | nil => exact ⟨hs, (add_zero _).symm⟩
  | cons block blocks ih =>
    rw [forEach, wlp_bind]
    refine wlp_mono (hc.wlp_bootstrapBlock_references hr hcount block hs) (fun _ s1 h1 => ?_)
    refine wlp_mono (ih h1.1) (fun _ s2 h2 => ⟨h2.1, ?_⟩)
    rw [h2.2, h1.2, add_assoc, List.map_cons, Multiset.singleton_add, Multiset.cons_coe]

end Upholds

end TreeClass

end Trees

section Owed

variable [AddCommMonoid ν] {g : BlockIndex A → γ} {due : γ → ν} {t t' : Tree A} {S : Set Hash} {h : Hash} {b b' : BlockIndex A}

/-- What the applied blocks owe -/
def Tree.owed (g : BlockIndex A → γ) (due : γ → ν) (t : Tree A) : ν :=
  t.total (fun b => (b.status.active, g b)) (fun _ u => if u.1 then due u.2 else 0)

namespace Tree

theorem owed_congr (hs : t.SameOn (fun b => (b.status.active, g b)) t') : t'.owed g due = t.owed g due := total_congr hs

theorem SameOn.map_active {x : Hash} (hg : t.SameOn g t')
    (hx : ∀ b b', t.find? x = some b → t'.find? x = some b' → b'.status.active = b.status.active) :
    (t'.find? x).map (fun b => (b.status.active, g b)) = (t.find? x).map (fun b => (b.status.active, g b)) := by
  have hsame := hg.same x
  cases hb : t.find? x with
  | none =>
    rw [hb, Option.map_none, Option.map_eq_none_iff] at hsame
    rw [hsame]
  | some b =>
    obtain ⟨b', hb', heq⟩ := hg.symm.find? hb
    rw [hb', Option.map_some, Option.map_some, heq, hx b b' hb hb']

/-- One more block is applied. -/
theorem owed_insert (hn : t.blocks.keys.Nodup) (hg : t.SameOn g t') (hb : t.find? h = some b) (hoff : b.status.active = false)
    (hon : ∀ b', t'.find? h = some b' → b'.status.active = true)
    (hother : ∀ x b b', x ≠ h → t.find? x = some b → t'.find? x = some b' → b'.status.active = b.status.active) :
    t'.owed g due = t.owed g due + due (g b) := by
  obtain ⟨b', hb', heq⟩ := hg.symm.find? hb
  refine (add_zero _).symm.trans (total_replace hn hg.keys hb hb' ?_ (fun x hx => hg.map_active (fun c c' => hother x c c' hx)))
  rw [hon b' hb', hoff, heq]
  exact add_comm _ _

theorem applied_self (t : Tree A) : t.Applied {x | t.At (fun b => b.status.active = true) x} t := by
  refine ⟨.refl t, rfl, fun x b hb => ⟨fun ha => ⟨b, hb, ha⟩, ?_⟩⟩
  rintro ⟨b', hb', ha⟩
  rw [hb] at hb'
  cases hb'
  exact ha

theorem Applied.owed_eq (ht : t.Applied S t) (ht' : t.Applied S t') (hg : t.SameOn g t') : t'.owed g due = t.owed g due := by
  refine owed_congr ⟨hg.keys, fun x => hg.map_active (fun b b' hb hb' => ?_)⟩
  rw [Bool.eq_iff_iff, ht'.active hb', ht.active hb]

theorem Applied.owed_insert (ht : t.Applied S t) (ht' : t.Applied (insert h S) t') (hh : h ∉ S) (hn : t.blocks.keys.Nodup)
    (hg : t.SameOn g t') (hb : t.find? h = some b) : t'.owed g due = t.owed g due + due (g b) := by
  refine Tree.owed_insert hn hg hb ?_ (fun b' hb' => (ht'.active hb').mpr (Set.mem_insert h S)) (fun x c c' hx hc hc' => ?_)
  . rw [← Bool.not_eq_true, ht.active hb]
    exact hh
  . rw [Bool.eq_iff_iff, ht'.active hc', ht.active hc, Set.mem_insert_iff]
    exact or_iff_right hx

theorem Applied.owed_sdiff (ht : t.Applied S t) (ht' : t.Applied (S \ {h}) t') (hh : h ∈ S) (hn : t.blocks.keys.Nodup)
    (hg : t.SameOn g t') (hb : t.find? h = some b) : t'.owed g due + due (g b) = t.owed g due := by
  obtain ⟨b', hb', heq⟩ := hg.symm.find? hb
  rw [← heq]
  have hn' : t'.blocks.keys.Nodup := by
    rw [hg.keys]
    exact hn
  refine (Tree.owed_insert hn' hg.symm hb' ?_ (fun b hb => (ht.active hb).mpr hh) (fun x c c' hx hc hc' => ?_)).symm
  . rw [← Bool.not_eq_true, ht'.active hb']
    exact fun hmem => hmem.2 rfl
  . rw [Bool.eq_iff_iff, ht.active hc', ht'.active hc]
    exact ⟨fun hmem => ⟨hmem, hx⟩, fun hmem => hmem.1⟩

end Tree

/-- A new block is not applied. -/
theorem Tree.owed_create [BlockAddon A] {header : Block} {prev : BlockIndex A} (hnew : t.find? header.hash = none) :
    (t.createBlockIndex header prev).owed g due = t.owed g due := total_create hnew rfl

theorem Tree.owed_applied {d : A → γ} (hs : t.SameOn BlockIndex.applied t') :
    t'.owed (fun b => d b.addon) due = t.owed (fun b => d b.addon) due := by
  have happlied : ∀ t : Tree A, t.owed (fun b => d b.addon) due = t.total BlockIndex.applied (fun _ o => o.elim 0 (fun a => due (d a))) := by
    refine fun t => Program.total_congr (fun x _ => congrArg (fun f => Option.elim (t.find? x) 0 f) (funext (fun b => ?_)))
    show (if b.status.active then due (d b.addon) else 0) = Option.elim (if b.status.active then some b.addon else none) 0 _
    split
    . rfl
    . rfl
  rw [happlied, happlied]
  exact total_congr hs

section Insertion

variable {d : A → γ}

theorem Tree.sameOn_setStatus (t : Tree A) (h : Hash) {u : BlockStatus → BlockStatus} (hu : ∀ s, (u s).active = s.active) :
    t.SameOn (fun b => (b.status.active, d b.addon)) (t.update h (fun b => b.setStatus (u b.status))) := by
  refine .update t h (fun b _ => ?_)
  rw [setStatus_status, setStatus_addon, hu]

theorem wlp_raiseValidity_owed {upTo : BlockStateStatus} :
    wlp (raiseValidity h upTo) (fun _ t' => t.SameOn (fun b => (b.status.active, d b.addon)) t') t := by
  cases hb : t.find? h with
  | none => simp [raiseValidity, wlp_derefBlock, hb]
  | some b => exact wlp_raiseValidity hb (fun _ => .refl t) (fun _ _ => .update t h (fun _ _ => rfl))

variable [PowAddon A] (hd : ∀ w a, d (PowAddon.setChainWork w a) = d a) {p : BlockTreeParams} {block : PowBlock}

include hd

theorem wlp_insertRestored_owed : wlp (insertBlockHeader.insertRestored (Tree.onBlockInserted p) block.toBlock)
    (fun _ t' => t.SameOn (fun b => (b.status.active, d b.addon)) t') t := by
  simp only [insertBlockHeader.insertRestored, restore, wlp_bind, wlp_derefBlock, wlp_check, wlp_when, wlp_modify, wlp_modifyBlock,
    wlp_pure]
  intro b _ _
  have hinsert : ∀ {t1 : Tree A}, t1.blocks = t.blocks →
      wlp (raiseValidity block.toBlock.hash .validTree) (fun _ t' => t.SameOn (fun b => (b.status.active, d b.addon)) t')
        (Tree.onBlockInserted p block.toBlock.hash
          ((t1.update block.toBlock.hash (fun b => b.unsetFlag .deleted)).tryAddTip block.toBlock.hash)) := by
    intro t1 hblocks
    refine wlp_mono (wlp_raiseValidity_owed (d := d)) (fun _ t' ht' => ?_)
    refine (Tree.SameOn.of_blocks_eq hblocks).trans (.trans (t1.sameOn_setStatus block.toBlock.hash (u := (·.assign false .deleted))
      (fun _ => rfl)) (.trans (.of_blocks_eq Tree.tryAddTip_blocks) (.trans (.update _ _ (fun b _ => ?_)) ht')))
    exact Prod.ext rfl (hd _ b.addon)
  exact ⟨fun _ => hinsert rfl, fun _ => hinsert rfl⟩

/-- What is owed does not change when a block is inserted. -/
theorem wlp_validateAndAddBlock_owed (ctx : Bool) : wlp (validateAndAddBlock p block ctx)
    (fun _ t' => t'.owed (fun b => d b.addon) due = t.owed (fun b => d b.addon) due) t := by
  have hinsert : wlp (insertBlockHeader (Tree.onBlockInserted p) block.toBlock)
      (fun _ t' => t'.owed (fun b => d b.addon) due = t.owed (fun b => d b.addon) due) t := by
    simp only [insertBlockHeader, wlp_bind, wlp_check, wlp_get]
    intro _
    split
    . simp only [wlp_ite, wlp_bind, wlp_check, wlp_pure]
      exact ⟨fun _ _ => wlp_mono (wlp_insertRestored_owed hd) (fun _ _ hs => Tree.owed_congr hs), fun _ => trivial⟩
    . next hnew =>
      simp only [doInsertBlockHeader, wlp_bind, wlp_get, wlp_getOrStop, wlp_modify]
      intro prev _
      exact wlp_mono (wlp_insertRestored_owed hd) (fun _ _ hs => (Tree.owed_congr hs).trans (Tree.owed_create hnew))
  simp only [validateAndAddBlock, wlp_bind, wlp_get, wlp_ite, wlp_pure]
  refine ⟨fun _ => trivial, fun _ => ?_⟩
  split
  . rfl
  . simp only [wlp_bind, wlp_getOrStop, wlp_ite, wlp_pure]
    intro _ _
    refine ⟨fun _ => trivial, fun _ => wlp_mono hinsert (fun _ t1 ht1 => ?_)⟩
    refine wlp_mono (wlp_raiseValidity_owed (d := d)) (fun _ t2 ht2 => ⟨fun _ => ?_, fun _ => (Tree.owed_congr ht2).trans ht1⟩)
    simp only [wlp_modifyBlock, wlp_modify]
    have hfail := t2.sameOn_setStatus (d := d) block.getHash (u := (·.assign true .failedChild)) (fun _ => rfl)
    exact (Tree.owed_congr (ht2.trans (hfail.trans (.of_blocks_eq rfl)))).trans ht1

end Insertion

end Owed

namespace PopStateMachine

variable [PowAddon B] [PopAddon A] [AddCancelCommMonoid ν] {sm : PopStateMachine σ τ A B C} {kept : B → ρ} {g : BlockIndex A → γ}
  {I : Tree A → σ → Prop} {K : τ → Prop} {account : σ → ν} {charge : C → ν} {due : γ → ν} {t : Tree A} {s : σ} {h : Hash} {n : ν}

/-- The commands of a block post what is due for it, and nothing else is posted to the account. -/
structure Accounts (sm : PopStateMachine σ τ A B C) (kept : B → ρ) (g : BlockIndex A → γ) (I : Tree A → σ → Prop) (account : σ → ν)
    (charge : C → ν) (due : γ → ν) : Prop where
  same : ∀ t s, I t s → t.SameOn g (sm.ed.get s)
  nodup : ∀ t s, I t s → (sm.ed.get s).blocks.keys.Nodup
  ed : ∀ s t', account (sm.ed.set t' s) = account s
  ing : ∀ s x, (sm.protecting.tree.get (sm.ing.get s)).SameOn (fun b => (b.labour, kept b.addon)) (sm.protecting.tree.get x) →
    account (sm.ing.set x s) = account s
  execute : ∀ t cmd, Posts account (I t) (charge cmd) (sm.execute cmd)
  unExecute : ∀ t cmd, Reverses account (I t) (charge cmd) (sm.unExecute cmd)
  getCommands : ∀ t s h b, I t s → (sm.ed.get s).find? h = some b →
    wlp (sm.getCommands b) (fun cgroups s' => s' = s ∧ Program.total (Program.total charge) cgroups = due (g b)) s
  bodiless : ∀ b, PopAddon.hasPayloads b.addon = false → due (g b) = 0

/-- The account has what it started with, and what the applied blocks owe. -/
def Booked (sm : PopStateMachine σ τ A B C) (g : BlockIndex A → γ) (account : σ → ν) (due : γ → ν) (n : ν) (s : σ) : Prop :=
  account s = n + (sm.ed.get s).owed g due

namespace Accounts

variable (ha : sm.Accounts kept g I account charge due)

include ha

/-- The account does not lie in the protected tree. -/
theorem zoom_ed {α : Type} {m : M (Tree A) α} : Keeping (fun n s => account s = n) (zoom sm.ed m) := by
  intro n s hs
  show wlp _ _ _
  rw [wlp_zoom]
  exact wlp_iff.mpr (fun _ t' _ => (ha.ed s t').trans hs)

theorem executeGroup (cmds : List C) : Posts account (I t) (Program.total charge cmds) (sm.executeGroup cmds) :=
  .execAll (ha.execute t) (ha.unExecute t) cmds

theorem unExecuteGroup (cmds : List C) : Reverses account (I t) (Program.total charge cmds) (sm.unExecuteGroup cmds) :=
  .undoAll (ha.unExecute t) cmds

theorem wlp_executeBlock {b : BlockIndex A} (hs : I t s) (hb : (sm.ed.get s).find? h = some b) :
    wlp (sm.executeBlock b) (fun ok s' => I t s' ∧ account s' = account s + if ok then due (g b) else 0) s := by
  unfold PopStateMachine.executeBlock
  rw [wlp_ite]
  refine ⟨fun _ => ?_, fun hnone => ⟨hs, ?_⟩⟩
  . rw [wlp_bind]
    refine wlp_mono (ha.getCommands t s h b hs hb) ?_
    rintro cgroups _ ⟨rfl, hdue⟩
    have hposts : Posts account (I t) (Program.total (Program.total charge) cgroups) _ :=
      .execAll ha.executeGroup ha.unExecuteGroup cgroups
    rw [hdue] at hposts
    exact hposts _ hs
  . rw [Bool.not_eq_true] at hnone
    rw [ha.bodiless b hnone, ite_self, add_zero]

variable (hsm : sm.Upholds kept g I K)

include hsm

/-- Fork resolution in the protecting tree does not post anything. -/
theorem zoom_ing_booked {α : Type} {m : M τ α} (hloc : sm.Local) (hm : sm.protecting.Settles kept K m) :
    Keeping (fun t s => I t s ∧ sm.Booked g account due n s) (zoom sm.ing m) := by
  intro t s hs
  refine wlp_and (hsm.zoom_ing hm t s hs.1) ?_
  show wlp _ _ _
  rw [wlp_zoom]
  refine wlp_mono (hm.wlp (hsm.ing_get t s hs.1)) (fun _ x hx => ?_)
  unfold Booked
  rw [ha.ing s x hx.2, hloc.ed_ing]
  exact hs.2

theorem wlp_finishApply {q : Hash} (hs : I t s) :
    wlp (sm.finishApply h q) (fun _ s' => I t s' ∧ account s' = account s) s := by
  have hspares : Keeping (fun n s => account s = n) (sm.finishApply h q) :=
    .bind (Moves.deref q) (fun _ => .bind Moves.getEd (fun _ => ha.zoom_ed))
  exact wlp_and (hsm.finishApply h q t s hs) (hspares _ s rfl)

/-- Unapplying a block takes off what is due for it. -/
theorem wlp_unapplyBlock (hs : I t s) : wlp (sm.unapplyBlock h)
    (fun _ s' => I t s' ∧ ∃ b, (sm.ed.get s).find? h = some b ∧ account s' + due (g b) = account s) s := by
  have hI := hsm.unapplyBlock h t s hs
  have hI : wlp _ _ _ := hI
  refine wlp_and hI ?_
  simp only [unapplyBlock, deref, wlp_bind, wlp_zoom_derefBlock, wlp_getOrStop, wlp_check]
  intro index hb q _ _ _ prev _ _
  have hundo : wlp (when (PopAddon.hasPayloads index.addon) do
      let cgroups ← sm.getCommands index
      undoAll sm.unExecuteGroup cgroups) (fun _ s' => account s' + due (g index) = account s) s := by
    rw [wlp_when]
    refine ⟨fun _ => ?_, fun hnone => ?_⟩
    . rw [wlp_bind]
      refine wlp_mono (ha.getCommands t s h index hs hb) ?_
      rintro cgroups _ ⟨rfl, hdue⟩
      have hreverses : Reverses account (I t) (Program.total (Program.total charge) cgroups) _ := .undoAll ha.unExecuteGroup cgroups
      rw [hdue] at hreverses
      exact wlp_mono (hreverses _ hs) (fun _ _ h => h.2)
    . rw [ha.bodiless index hnone, add_zero]
  refine wlp_mono hundo (fun _ s1 h1 => ?_)
  refine wlp_mono (ha.zoom_ed.wlp rfl) (fun _ s2 h2 => ?_)
  simp only [getEd, wlp_bind, wlp_get, wlp_pure]
  intro _
  refine wlp_mono (ha.zoom_ed.wlp h2) (fun _ s3 h3 => ?_)
  rw [h3]
  exact ⟨index, hb, h1⟩

variable [BlockAddon A]

theorem wlp_fail (hs : I t s) :
    wlp (invalidateSubtree sm.edClass h .failedPop false) (fun _ s' => I t s' ∧ account s' = account s) s := by
  have hspares : Keeping (fun n s => account s = n) (invalidateSubtree sm.edClass h .failedPop false) := by
    refine .bind Keeping.getTree (fun _ => .bind Keeping.getOrStop (fun _ => .bind Keeping.getOrStop (fun _ => .bind Keeping.check (fun _ =>
      .ite (.pure _) (.ite ha.zoom_ed ?_)))))
    exact .bind (.when (.bind Keeping.throw (fun _ => Keeping.check))) (fun _ => .bind ha.zoom_ed (fun _ => .pure _))
  exact wlp_and (hsm.fail h t s hs) (hspares _ s rfl)

/-- Applying a block posts what is due for it. -/
theorem wlp_applyBlock (hs : I t s) : wlp (sm.applyBlock h)
    (fun ok s' => I t s' ∧ ∃ b, (sm.ed.get s).find? h = some b ∧ account s' = account s + if ok then due (g b) else 0) s := by
  simp only [applyBlock, assertBlockCanBeApplied, deref, wlp_bind, wlp_zoom_derefBlock, wlp_getOrStop, wlp_check, wlp_pure, wlp_ite]
  intro index hb q _ prev _ _ _ _
  refine ⟨fun _ => ⟨hs, index, hb, (add_zero _).symm⟩, fun _ _ => ?_⟩
  refine wlp_mono (ha.wlp_executeBlock hs hb) (fun ok s1 h1 => ⟨fun hok => ?_, fun hok => ?_⟩)
  . rw [if_pos hok] at h1
    exact wlp_mono (ha.wlp_finishApply hsm h1.1) (fun _ s2 h2 => ⟨h2.1, index, hb, h2.2.trans h1.2⟩)
  . rw [if_neg hok] at h1
    exact wlp_mono (ha.wlp_fail hsm h1.1) (fun _ s2 h2 => ⟨h2.1, index, hb, h2.2.trans h1.2⟩)

/-- Between two steps the account has what it started with, and what the applied blocks owe. -/
theorem moves (hloc : sm.Local) (n : ν) : sm.Moves (fun t s => I t s ∧ sm.Booked g account due n s) where
  applyBlock h := by
    intro t s hs
    have hself := (sm.ed.get s).applied_self
    refine wlp_mono (wlp_and (ha.wlp_applyBlock hsm hs.1) (hloc.wlp_applyBlock (h := h) hself)) ?_
    rintro ok s' ⟨⟨hI, b, hb, hposted⟩, happlied⟩
    refine ⟨hI, ?_⟩
    have hg : (sm.ed.get s).SameOn g (sm.ed.get s') := (ha.same t s hs.1).symm.trans (ha.same t s' hI)
    cases ok with
    | true =>
      have howed : (sm.ed.get s').owed g due = (sm.ed.get s).owed g due + due (g b) :=
        hself.owed_insert happlied.2 happlied.1 (ha.nodup t s hs.1) hg hb
      unfold Booked
      rw [hposted, hs.2, howed, if_pos rfl, add_assoc]
    | false =>
      have howed : (sm.ed.get s').owed g due = (sm.ed.get s).owed g due := hself.owed_eq happlied hg
      unfold Booked
      rw [hposted, hs.2, howed, if_neg Bool.false_ne_true, add_zero]
  unapplyBlock h := by
    intro t s hs
    have hself := (sm.ed.get s).applied_self
    refine wlp_mono (wlp_and (ha.wlp_unapplyBlock hsm hs.1) (hloc.wlp_unapplyBlock (h := h) hself)) ?_
    rintro _ s' ⟨⟨hI, b, hb, hposted⟩, hmem, happlied⟩
    refine ⟨hI, ?_⟩
    have hg : (sm.ed.get s).SameOn g (sm.ed.get s') := (ha.same t s hs.1).symm.trans (ha.same t s' hI)
    have howed : (sm.ed.get s').owed g due + due (g b) = (sm.ed.get s).owed g due :=
      hself.owed_sdiff happlied hmem (ha.nodup t s hs.1) hg hb
    have hsum : account s' + due (g b) = n + (sm.ed.get s').owed g due + due (g b) := by
      rw [hposted, hs.2, ← howed, add_assoc]
    exact add_right_cancel hsum
  deferForkResolution := ha.zoom_ing_booked hsm hloc hsm.protecting.deferForkResolution
  continueForkResolution := ha.zoom_ing_booked hsm hloc hsm.protecting.continueForkResolution
  revertTo h := ha.zoom_ing_booked hsm hloc (hsm.protecting.overrideDeferredForkResolution h)

end Accounts

end PopStateMachine

end AltIntegration
