import AltIntegration.Blockchain.Storage
import AltIntegration.Blockchain.Lemmas.Finalize
import AltIntegration.Blockchain.Lemmas.SystemChanges

/-!
This module contains what finalization does to a tree: which unsaved blocks it deallocates, and whether
the tips are what they should be afterwards.
-/

namespace AltIntegration

open Program

variable {A : Type} {obr : BlockIndex A → Tree A → Tree A} {payloadIds : A → List PayloadId}

namespace Tree

variable {t : Tree A} {index : Hash} {preserve : Nat} {tips : List Hash}

/-- The tree after `finalizeBlockImpl`, whether or not its last assertion held. -/
def finalized (obr : BlockIndex A → Tree A → Tree A) (payloadIds : A → List PayloadId) (t : Tree A)
    (tips : List Hash) (index : Hash) (preserve : Nat) : Tree A :=
  finalState (finalizeBlockImpl obr payloadIds tips index preserve) t

/-- The block that the call makes final. -/
def finalBlock (t : Tree A) (tips : List Hash) (index : Hash) : Hash :=
  if index = t.root then index else ((t.eraseOutdatedTips tips (t.lowestDirty index)).map (·.2)).getD index

/-- What the call leaves, in the case that it changes the tree and in the case that it does not. -/
structure FinalizedAs (t : Tree A) (obr : BlockIndex A → Tree A → Tree A) (newRoot final : Hash)
    (tips' : List Hash) (t' : Tree A) : Prop where
  mem : newRoot ∈ t.chainTo final
  active : final ∈ t.chainTo t.activeTip
  marked : Marked (setTips tips' (rerooted obr newRoot final t)) t'

theorem Consistent.finalized_root (ht : t.Consistent) (obr : BlockIndex A → Tree A → Tree A)
    (payloadIds : A → List PayloadId) (tips : List Hash) (preserve : Nat) :
    Marked t (t.finalized obr payloadIds tips t.root preserve) := by
  obtain ⟨b, hb, _⟩ := ht.root
  have hmark := finalState_marked (t := t) (.when (p := !b.finalized) (keeps_markFinalized payloadIds t.root))
  unfold finalized
  unfold finalState at hmark ⊢
  rw [ht.finalizeBlockImpl_root hb]
  exact hmark

theorem Consistent.finalized_spec (ht : t.Consistent) (obr : BlockIndex A → Tree A → Tree A)
    (payloadIds : A → List PayloadId) (preserve : Nat) (ha : index ∈ t.chainTo t.activeTip) (hne : index ≠ t.root)
    (htips : tips ⊆ t.tips) :
    ∃ tips' newRoot, t.Erases tips (t.lowestDirty index) tips' (t.finalBlock tips index) ∧
      t.heightOf newRoot = t.firstBlockHeight (t.finalBlock tips index) preserve ∧
      t.FinalizedAs obr newRoot (t.finalBlock tips index) tips' (t.finalized obr payloadIds tips index preserve) := by
  obtain ⟨tips', final, newRoot, heq, he, hmem, hheight, hrun⟩ :=
    ht.finalizeBlockImpl_eq obr payloadIds ha hne htips preserve
  have hfinal : t.finalBlock tips index = final := by
    unfold finalBlock
    rw [if_neg hne, heq]
    rfl
  rw [hfinal]
  have hlow := ht.lowestDirty_active ha
  refine ⟨tips', newRoot, he, hheight, hmem, ht.wf.mem_chainTo_trans (he.final_mem ht.wf hlow) hlow, ?_⟩
  have hmark := finalState_marked (t := setTips tips' (rerooted obr newRoot final t))
    (keeps_markFinalizedChain payloadIds ((rerooted obr newRoot final t).chainTo final))
  unfold finalized
  unfold finalState at hmark ⊢
  rw [hrun]
  exact hmark

section Unsaved

/-- The last block of the chain of `x` that is on the active chain, and whether it is below the tip. -/
theorem Consistent.next_of_fork (ht : t.Consistent) {x f : Hash} (hf : t.findFork x = some f)
    (hx : t.activeTip ∉ t.chainTo x) :
    ∃ y, y ∈ t.chainTo t.activeTip ∧ t.heightOf y = t.heightOf f + 1 := by
  obtain ⟨b, hb⟩ := ht.tip
  have hself := ht.wf.mem_chainTo_self hb
  have hfa := (findFork_mem hf).2
  obtain ⟨bf, hbf⟩ := ht.wf.find?_of_mem_chainTo hfa
  have hlow := ht.wf.heightOf_le (ht.root_mem hbf)
  have hlt : ¬t.heightOf t.activeTip ≤ t.heightOf f := by
    intro hle
    exact hx ((ht.wf.mem_chainTo_iff_findFork hf hself).mpr hle)
  exact ht.wf.exists_heightOf_eq ht.rooted hb (by omega) (by omega)

/-- A block that goes forks off below the final block. -/
theorem Consistent.fork_lt_of_dropped (ht : t.Consistent) {newRoot final x f : Hash} (hmem : newRoot ∈ t.chainTo final)
    (ha : final ∈ t.chainTo t.activeTip) (hf : t.findFork x = some f) (hk : ¬t.Kept newRoot final x) :
    t.heightOf f < t.heightOf final := by
  rw [← Nat.not_le]
  intro hle
  exact hk (ht.kept_of_final hmem ((ht.wf.mem_chainTo_iff_findFork hf ha).mpr hle))

/-- The final block is not above an unsaved block of the active chain or of the chain of a tip. -/
theorem Consistent.finalBlock_le (ht : t.Consistent) (ha : index ∈ t.chainTo t.activeTip) {tips' : List Hash}
    {final d f : Hash} (he : t.Erases tips (t.lowestDirty index) tips' final) (hd : t.isDirty d = true)
    (hf : t.findFork d = some f) (hmem : d ∈ t.chainTo t.activeTip ∨ ∃ tip ∈ tips, d ∈ t.chainTo tip) :
    t.heightOf final ≤ t.heightOf f ∨ t.heightOf index < t.heightOf f := by
  have hlow := ht.lowestDirty_active ha
  have hfinal := he.final_mem ht.wf hlow
  by_cases hact : d ∈ t.chainTo t.activeTip
  . rw [ht.wf.findFork_of_active hact] at hf
    cases hf
    by_cases hle : t.heightOf d ≤ t.heightOf index
    . have hdi := ht.wf.mem_chainTo_of_le hact ha hle
      exact .inl (ht.wf.heightOf_le (ht.wf.mem_chainTo_trans hfinal (ht.wf.lowestDirty_le hdi hd)))
    . exact .inr (by omega)
  . obtain ⟨tip, htip, hdtip⟩ := hmem.resolve_left hact
    have hoff : tip ∉ t.chainTo t.activeTip := fun htip => hact (ht.wf.mem_chainTo_trans hdtip htip)
    have hun : t.Unsaved tip := by
      unfold Unsaved
      rw [List.any_eq_true]
      exact ⟨d, ht.wf.mem_branch.mpr ⟨hdtip, hact⟩, hd⟩
    have hin := he.final_le ht.wf hlow htip hoff hun
    rw [ht.wf.findFork_of_mem_branch hdtip hact] at hf
    exact .inl ((ht.wf.mem_chainTo_iff_findFork hf (ht.wf.mem_chainTo_trans hfinal hlow)).mp hin)

end Unsaved

end Tree

namespace Small

/-- A chain of two blocks after the root is active and saved. Then a header arrives on top of the root. -/
def unsavedFork : List SavedOp :=
  [.call (.acceptBlockHeader (altBlock 2 1 1)), .call (.acceptBlock 2 ⟨[], [], []⟩),
    .call (.acceptBlockHeader (altBlock 3 2 2)), .call (.acceptBlock 3 ⟨[], [], []⟩), .call (.setState 3),
    .saveTrees, .call (.acceptBlockHeader (altBlock 4 1 1))]

/-- The same chain, and then a fork with its body. -/
def unsavedTip : List SavedOp := unsavedFork ++ [.call (.acceptBlock 4 ⟨[], [], []⟩)]

end Small

namespace Tree

section Tips

variable {t : Tree A} {index : Hash} {preserve : Nat} {tips : List Hash}

/-- What a tree should look like when the block `final` has become final. -/
structure ConsistentAfter (t : Tree A) (final : Hash) (t' : Tree A) : Prop where
  allocated : ∀ x ∈ t'.tips, (t'.find? x).isSome = true
  tips : ∀ x, x ∈ t'.tips ↔
    x ∈ t.tips ∧ (t.onActiveChain x = true ∨ t.isBlockOutdated final (t.heightOf x + 1) x = false)
  connected : ∀ x b, t'.find? x = some b → t'.root ∈ t'.chainTo x
  count : t'.appliedBlockCount = (t'.chainTo t'.activeTip).length

/-- Two trees that differ in the order of the tips only. -/
def SameButOrder (t t' : Tree A) : Prop := t = setTips t.tips t' ∧ t.tips.Perm t'.tips

/-- The unsaved branches of the tips fork off at or above the block that is to be final. -/
def SavedBelow (t : Tree A) (index : Hash) : Prop :=
  ∀ tip ∈ t.tips, t.onActiveChain tip = false → (∃ d ∈ t.branch tip, t.isDirty d = true) →
    index ∈ t.chainTo tip ∨ ∃ d ∈ t.chainTo index, t.isDirty d = true ∧ d ∈ t.chainTo tip

/-- A listed tip on the active chain is not further behind than blocks are preserved. -/
def TipsPreserved (t : Tree A) (index : Hash) (preserve : Nat) : Prop :=
  ∀ tip ∈ t.tips, t.onActiveChain tip = true → t.heightOf index ≤ t.heightOf tip + preserve ∨
    ∃ d ∈ t.chainTo index, t.isDirty d = true ∧ t.heightOf d ≤ t.heightOf tip + preserve

/-- The conditions in terms of the block that the search of the active chain finds. -/
theorem Consistent.tipsPreserved_iff (ht : t.Consistent) (ha : index ∈ t.chainTo t.activeTip) :
    t.TipsPreserved index preserve ↔ ∀ tip ∈ t.tips, tip ∈ t.chainTo t.activeTip →
      t.heightOf (t.lowestDirty index) ≤ t.heightOf tip + preserve := by
  obtain ⟨bi, hbi⟩ := ht.wf.find?_of_mem_chainTo ha
  have hlow := ht.wf.lowestDirty_mem hbi
  unfold TipsPreserved
  simp only [onActiveChain_iff]
  refine forall_congr' (fun tip => forall_congr' (fun _ => forall_congr' (fun _ => ?_)))
  constructor
  . rintro (hle | ⟨d, hd, hdirty, hle⟩)
    . exact Nat.le_trans (ht.wf.heightOf_le hlow) hle
    . exact Nat.le_trans (ht.wf.heightOf_le (ht.wf.lowestDirty_le hd hdirty)) hle
  . intro hle
    rcases t.lowestDirty_eq_or index with heq | hdirty
    . exact .inl (heq ▸ hle)
    . exact .inr ⟨_, hlow, hdirty, hle⟩

theorem Consistent.savedBelow_iff (ht : t.Consistent) (ha : index ∈ t.chainTo t.activeTip) :
    t.SavedBelow index ↔
      ∀ tip ∈ t.tips, tip ∉ t.chainTo t.activeTip → t.Unsaved tip → t.lowestDirty index ∈ t.chainTo tip := by
  obtain ⟨bi, hbi⟩ := ht.wf.find?_of_mem_chainTo ha
  have hlow := ht.wf.lowestDirty_mem hbi
  unfold SavedBelow Unsaved
  simp only [onActiveChain_eq_false_iff, List.any_eq_true]
  refine forall_congr' (fun tip => forall_congr' (fun _ => forall_congr' (fun _ => forall_congr' (fun _ => ?_))))
  constructor
  . rintro (hin | ⟨d, hd, hdirty, hin⟩)
    . exact ht.wf.mem_chainTo_trans hlow hin
    . exact ht.wf.mem_chainTo_trans (ht.wf.lowestDirty_le hd hdirty) hin
  . intro hin
    rcases t.lowestDirty_eq_or index with heq | hdirty
    . exact .inl (heq ▸ hin)
    . exact .inr ⟨_, hlow, hdirty, hin⟩

variable {newRoot final : Hash} {tips' : List Hash} {t' : Tree A}

/-- Whatever the order of the tips, the tree hangs together. -/
theorem Consistent.finalizedAs_allocated (ht : t.Consistent) (hobr : OnlyPayloadsIndex obr)
    (has : t.FinalizedAs obr newRoot final tips' t') (hsub : tips' ⊆ t.tips)
    (hkept : ∀ x ∈ tips', t.Kept newRoot final x) : ∀ x ∈ t'.tips, (t'.find? x).isSome = true := by
  intro x hx
  rw [has.marked.tips] at hx
  obtain ⟨b, hb⟩ := ht.tips x (hsub hx)
  have hsome := (ht.rerooted_find? hobr has.mem).mpr ⟨hkept x hx, Option.isSome_iff_exists.mpr ⟨b, hb⟩⟩
  obtain ⟨b1, hb1⟩ := Option.isSome_iff_exists.mp hsome
  obtain ⟨b2, hb2, _⟩ := has.marked.same.symm.find? (show (setTips tips' _).find? x = some b1 from hb1)
  exact Option.isSome_iff_exists.mpr ⟨b2, hb2⟩

theorem Consistent.finalizedAs_connected (ht : t.Consistent) (hobr : OnlyPayloadsIndex obr)
    (has : t.FinalizedAs obr newRoot final tips' t') {x : Hash} {b : BlockIndex A} (hb : t'.find? x = some b) :
    t'.root ∈ t'.chainTo x := by
  obtain ⟨b1, hb1, _⟩ := has.marked.same.find? hb
  rw [has.marked.root, has.marked.shape.chainTo, chainTo_setTips]
  exact ht.rerooted_root_mem hobr has.mem (show (rerooted obr newRoot final t).find? x = some b1 from hb1)

theorem FinalizedAs.count (has : t.FinalizedAs obr newRoot final tips' t') :
    t'.appliedBlockCount = (t'.chainTo t'.activeTip).length := by
  rw [has.marked.count, has.marked.activeTip, has.marked.shape.chainTo, chainTo_setTips]
  show (((reroot obr newRoot final t).chainTo _).length) = _
  rw [(rerooted_same obr newRoot final t).chainTo]
  rfl

theorem Consistent.outdated_iff (ht : t.Consistent) {x : Hash} (hx : x ∈ t.tips) :
    t.isBlockOutdated final (t.heightOf x + 1) x = false ↔ final ∈ t.chainTo x := by
  obtain ⟨b, hb⟩ := ht.tips x hx
  rw [ht.wf.isBlockOutdated_eq _ hb]
  simp

/-- When nothing unsaved forks off below, the order of the tips does not matter. -/
theorem Consistent.finalized_of_savedBelow (ht : t.Consistent) (hobr : OnlyPayloadsIndex obr)
    (ha : index ∈ t.chainTo t.activeTip) (hperm : tips.Perm t.tips) (hsaved : t.SavedBelow index)
    (hpres : t.TipsPreserved index preserve) :
    t.ConsistentAfter (t.finalBlock tips index) (t.finalized obr payloadIds tips index preserve) := by
  by_cases hne : index = t.root
  . subst hne
    have hm := ht.finalized_root obr payloadIds tips preserve
    have hfinal : t.finalBlock tips t.root = t.root := by
      unfold finalBlock
      rw [if_pos rfl]
    refine ⟨fun x hx => ?_, fun x => ?_, fun x b hb => ?_, ?_⟩
    . obtain ⟨b, hb⟩ := ht.tips x (hm.tips ▸ hx)
      obtain ⟨b', hb', _⟩ := hm.same.symm.find? hb
      exact Option.isSome_iff_exists.mpr ⟨b', hb'⟩
    . rw [hm.tips, hfinal]
      refine ⟨fun hx => ⟨hx, .inr ?_⟩, And.left⟩
      obtain ⟨b, hb⟩ := ht.tips x hx
      exact (ht.outdated_iff hx).mpr (ht.root_mem hb)
    . obtain ⟨b', hb', _⟩ := hm.same.find? hb
      rw [hm.root, hm.shape.chainTo]
      exact ht.root_mem hb'
    . rw [hm.count, hm.activeTip, hm.shape.chainTo]
      exact ht.count
  . obtain ⟨tips', newRoot, he, hheight, has⟩ :=
      ht.finalized_spec obr payloadIds preserve ha hne hperm.subset
    have hlow := ht.lowestDirty_active ha
    obtain ⟨hfinal, htips'⟩ := he.settled (fun x hx => (ht.savedBelow_iff ha).mp hsaved x (hperm.subset hx))
    have hsub : tips' ⊆ t.tips := fun x hx => hperm.subset (he.subset.subset hx)
    have hkept : ∀ x ∈ tips', t.Kept newRoot (t.finalBlock tips index) x := by
      intro x hx
      rcases he.mem_descends ht.wf hlow hx with hact | hin
      . refine ht.kept_of_active has.active hact ?_
        have hle := (ht.tipsPreserved_iff ha).mp hpres x (hsub hx) hact
        obtain ⟨b, hb⟩ := ht.tips x (hsub hx)
        have hroot := ht.wf.heightOf_le (ht.root_mem hb)
        rw [hfinal, firstBlockHeight] at hheight
        exact ht.wf.mem_chainTo_of_le (ht.wf.mem_chainTo_trans has.mem has.active) hact (by omega)
      . exact ht.kept_of_final has.mem hin
    refine ⟨ht.finalizedAs_allocated hobr has hsub hkept, fun x => ?_,
      fun x b hb => ht.finalizedAs_connected hobr has hb, has.count⟩
    rw [has.marked.tips]
    show x ∈ tips' ↔ _
    rw [htips', List.mem_filter, hperm.mem_iff, decide_eq_true_eq, onActiveChain_iff, hfinal]
    exact and_congr_right (fun hx => or_congr_right (ht.outdated_iff hx).symm)

theorem Consistent.finalized_order (ht : t.Consistent) (ha : index ∈ t.chainTo t.activeTip)
    (hsaved : t.SavedBelow index) {tips₁ tips₂ : List Hash} (h₁ : tips₁.Perm t.tips) (h₂ : tips₂.Perm t.tips) :
    SameButOrder (t.finalized obr payloadIds tips₁ index preserve)
      (t.finalized obr payloadIds tips₂ index preserve) := by
  by_cases hne : index = t.root
  . subst hne
    obtain ⟨b, hb, _⟩ := ht.root
    have heq : t.finalized obr payloadIds tips₁ t.root preserve =
        t.finalized obr payloadIds tips₂ t.root preserve := by
      unfold finalized finalState
      rw [ht.finalizeBlockImpl_root hb, ht.finalizeBlockImpl_root hb]
    rw [heq]
    exact ⟨rfl, .refl _⟩
  . obtain ⟨tips₁', final₁, newRoot₁, _, he₁, hm₁, hn₁, hrun₁⟩ :=
      ht.finalizeBlockImpl_eq obr payloadIds ha hne h₁.subset preserve
    obtain ⟨tips₂', final₂, newRoot₂, _, he₂, hm₂, hn₂, hrun₂⟩ :=
      ht.finalizeBlockImpl_eq obr payloadIds ha hne h₂.subset preserve
    have hcond := (ht.savedBelow_iff ha).mp hsaved
    obtain ⟨rfl, ht₁⟩ := he₁.settled (fun x hx => hcond x (h₁.subset hx))
    obtain ⟨rfl, ht₂⟩ := he₂.settled (fun x hx => hcond x (h₂.subset hx))
    obtain rfl := ht.wf.eq_of_heightOf_eq hm₁ hm₂ (hn₁.trans hn₂.symm)
    have hstate : ∀ ts : List Hash, ∀ l, finalState (markFinalizedChain payloadIds l)
        (setTips ts (rerooted obr newRoot₁ (t.lowestDirty index) t)) =
        setTips ts (finalState (markFinalizedChain payloadIds l) (rerooted obr newRoot₁ (t.lowestDirty index) t)) :=
      fun ts l => (commutes_markFinalizedChain l).finalState _
    have hrun : ∀ {ts tips}, finalizeBlockImpl obr payloadIds tips index preserve t =
        markFinalizedChain payloadIds ((rerooted obr newRoot₁ (t.lowestDirty index) t).chainTo (t.lowestDirty index))
          (setTips ts (rerooted obr newRoot₁ (t.lowestDirty index) t)) →
        t.finalized obr payloadIds tips index preserve = setTips ts (finalState (markFinalizedChain payloadIds
          ((rerooted obr newRoot₁ (t.lowestDirty index) t).chainTo (t.lowestDirty index)))
          (rerooted obr newRoot₁ (t.lowestDirty index) t)) := by
      intro ts tips h
      rw [← hstate]
      unfold finalized finalState
      rw [h]
    rw [hrun hrun₁, hrun hrun₂]
    refine ⟨rfl, ?_⟩
    show tips₁'.Perm tips₂'
    rw [ht₁, ht₂]
    exact (h₁.trans h₂.symm).filter _

/-- The tip that moved the final block should have stayed. -/
theorem Consistent.savedBelow_of_after (ht : t.Consistent) (ha : index ∈ t.chainTo t.activeTip)
    (hafter : t.ConsistentAfter (t.finalBlock t.tips index) (t.finalized obr payloadIds t.tips index preserve)) :
    t.SavedBelow index := by
  rw [ht.savedBelow_iff ha]
  intro tip htip hoff hun
  have hlow := ht.lowestDirty_active ha
  by_cases hne : index = t.root
  . obtain ⟨b, hb⟩ := ht.tips tip htip
    obtain ⟨bi, hbi⟩ := ht.wf.find?_of_mem_chainTo ha
    have hmem := ht.wf.lowestDirty_mem hbi
    have heq : t.lowestDirty index = t.root := by
      obtain ⟨br, hbr, hpr⟩ := ht.root
      rw [hne] at hmem ⊢
      rw [chainTo_of_root hbr hpr] at hmem
      exact List.mem_singleton.mp hmem
    rw [heq]
    exact ht.root_mem hb
  . obtain ⟨tips', newRoot, he, _, has⟩ := ht.finalized_spec obr payloadIds preserve ha hne (List.Subset.refl t.tips)
    have hin := he.final_le ht.wf hlow htip hoff hun
    rcases he.lost hlow ht.nodup with heq | ⟨x, hx, hx', _, _, hfork⟩
    . rw [← heq]
      exact hin
    . have hmem := (hafter.tips x).mpr ⟨hx, .inr ((ht.outdated_iff hx).mpr (findFork_mem hfork).1)⟩
      rw [has.marked.tips] at hmem
      exact absurd hmem hx'

/-- A tip of the active chain that stays in the list must not be behind the new root. -/
theorem Consistent.tipsPreserved_of_after (ht : t.Consistent) (hobr : OnlyPayloadsIndex obr)
    (ha : index ∈ t.chainTo t.activeTip)
    (hafter : t.ConsistentAfter (t.finalBlock t.tips index) (t.finalized obr payloadIds t.tips index preserve)) :
    t.TipsPreserved index preserve := by
  intro tip htip hact
  obtain ⟨b, hb⟩ := ht.tips tip htip
  have hroot := ht.wf.heightOf_le (ht.root_mem hb)
  by_cases hne : index = t.root
  . rw [hne]
    exact .inl (by omega)
  . have hsaved := ht.savedBelow_of_after ha hafter
    obtain ⟨tips', newRoot, he, hheight, has⟩ :=
      ht.finalized_spec obr payloadIds preserve ha hne (List.Subset.refl t.tips)
    obtain ⟨hfinal, _⟩ := he.settled ((ht.savedBelow_iff ha).mp hsaved)
    have hmem : tip ∈ (t.finalized obr payloadIds t.tips index preserve).tips := by
      rw [has.marked.tips]
      exact he.active_mem htip (onActiveChain_iff.mp hact)
    obtain ⟨b', hb'⟩ := Option.isSome_iff_exists.mp (hafter.allocated tip hmem)
    obtain ⟨b'', hb'', _⟩ := has.marked.same.find? hb'
    have hk := ((ht.rerooted_find? hobr has.mem).mp (Option.isSome_iff_exists.mpr ⟨b'', hb''⟩)).1
    have hle := ht.wf.heightOf_le (hk.above ht hb)
    rw [hfinal, firstBlockHeight] at hheight
    have hlow : t.heightOf (t.lowestDirty index) ≤ t.heightOf tip + preserve := by omega
    rcases t.lowestDirty_eq_or index with heq | hdirty
    . exact .inl (heq ▸ hlow)
    . obtain ⟨bi, hbi⟩ := ht.wf.find?_of_mem_chainTo ha
      exact .inr ⟨_, ht.wf.lowestDirty_mem hbi, hdirty, hlow⟩

/--
`finalizeBlockImpl` leaves a consistent tree, the same for every order of the tips, if and only if no
listed tip with an unsaved block on its branch forks off below both the block that is to be final and the
unsaved blocks of the active chain, and the listed tips of the active chain are not too far behind.
-/
theorem finalize_consistent_iff (payloadIds : A → List PayloadId) (index : Hash) (preserve : Nat)
    (hobr : OnlyPayloadsIndex obr) (ht : t.Consistent) (ha : index ∈ t.chainTo t.activeTip) :
    ((∀ tips, tips.Perm t.tips →
        t.ConsistentAfter (t.finalBlock tips index) (t.finalized obr payloadIds tips index preserve)) ∧
      (∀ tips₁ tips₂, tips₁.Perm t.tips → tips₂.Perm t.tips →
        SameButOrder (t.finalized obr payloadIds tips₁ index preserve)
          (t.finalized obr payloadIds tips₂ index preserve))) ↔
      t.SavedBelow index ∧ t.TipsPreserved index preserve := by
  constructor
  . rintro ⟨hafter, _⟩
    have hafter := hafter t.tips (.refl _)
    exact ⟨ht.savedBelow_of_after ha hafter, ht.tipsPreserved_of_after hobr ha hafter⟩
  . rintro ⟨hsaved, hpres⟩
    exact ⟨fun tips hperm => ht.finalized_of_savedBelow hobr ha hperm hsaved hpres,
      fun tips₁ tips₂ h₁ h₂ => ht.finalized_order ha hsaved h₁ h₂⟩

end Tips

end Tree

namespace Small

/-- A fork without a body is not listed, so that nothing moves the final block. -/
theorem finalize_consistent_fork :
    (∀ tips, tips.Perm (savedAfter unsavedFork).trees.alt.tips →
      (savedAfter unsavedFork).trees.alt.ConsistentAfter
        ((savedAfter unsavedFork).trees.alt.finalBlock tips 2)
        ((savedAfter unsavedFork).trees.alt.finalized AltBlockTree.onBeforeLeafRemoved AltAddon.indexedIds tips 2 0)) ∧
      (savedAfter unsavedFork).trees.alt.finalBlock (savedAfter unsavedFork).trees.alt.tips 2 = 2 := by
  have h := Tree.finalize_consistent_iff (t := (savedAfter unsavedFork).trees.alt) AltAddon.indexedIds
    2 0 AltBlockTree.onlyPayloadsIndex (Tree.consistent_of_isConsistent (by decide +kernel)) (by decide +kernel)
  exact ⟨(h.mpr ⟨by unfold Tree.SavedBelow; decide +kernel, by unfold Tree.TipsPreserved; decide +kernel⟩).1,
    by decide +kernel⟩

/-- The fork moves the final block back to the root, and is forgotten all the same. -/
theorem finalize_forgets_tip :
    (savedAfter unsavedTip).trees.alt.Consistent ∧
      2 ∈ (savedAfter unsavedTip).trees.alt.chainTo (savedAfter unsavedTip).trees.alt.activeTip ∧
      ¬(savedAfter unsavedTip).trees.alt.ConsistentAfter
        ((savedAfter unsavedTip).trees.alt.finalBlock (savedAfter unsavedTip).trees.alt.tips 2)
        ((savedAfter unsavedTip).trees.alt.finalized AltBlockTree.onBeforeLeafRemoved AltAddon.indexedIds
          (savedAfter unsavedTip).trees.alt.tips 2 0) := by
  refine ⟨Tree.consistent_of_isConsistent (by decide +kernel), by decide +kernel, fun h => ?_⟩
  have hmem := (h.tips 4).mpr (by decide +kernel)
  exact absurd hmem (by decide +kernel)

end Small

end AltIntegration
