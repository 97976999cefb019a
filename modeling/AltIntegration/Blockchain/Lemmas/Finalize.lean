import AltIntegration.Control.Wp
import AltIntegration.Blockchain.Lemmas.Outdated
import AltIntegration.Blockchain.Lemmas.Prune

/-!
This module contains what a call of `finalizeBlockImpl` does to a consistent tree.
-/

namespace AltIntegration

open Program BlockIndex

variable {A : Type}

namespace Tree

/-- The blocks hang together under the root, and the active chain and the tips are among them. -/
structure Consistent (t : Tree A) : Prop where
  wf : t.WF
  rooted : t.Rooted
  root : ∃ b, t.find? t.root = some b ∧ b.pprev = none
  tip : ∃ b, t.find? t.activeTip = some b
  count : t.appliedBlockCount = (t.chainTo t.activeTip).length
  tips : ∀ x ∈ t.tips, ∃ b, t.find? x = some b
  nodup : t.tips.Nodup

/-- A block has the hash it is stored under, its parent is there, and only the root has none. -/
def isConnectedBlock (t : Tree A) (e : Hash × BlockIndex A) : Bool :=
  decide (e.2.header.hash = e.1) &&
    match e.2.pprev with
    | none => decide (e.1 = t.root)
    | some p => decide (e.2.header.previousBlock = p) && (t.find? p).any (fun bp => decide (e.2.height = bp.height + 1))

/-- Whether a tree is consistent. -/
def isConsistent (t : Tree A) : Bool :=
  decide t.blocks.keys.Nodup && t.blocks.entries.all t.isConnectedBlock &&
    (t.find? t.root).any (·.pprev.isNone) && (t.find? t.activeTip).isSome &&
    decide (t.appliedBlockCount = (t.chainTo t.activeTip).length) && t.tips.all (fun x => (t.find? x).isSome) &&
    decide t.tips.Nodup

theorem consistent_of_isConsistent {t : Tree A} (h : t.isConsistent = true) : t.Consistent := by
  simp only [isConsistent, Bool.and_eq_true, decide_eq_true_eq, List.all_eq_true] at h
  obtain ⟨⟨⟨⟨⟨⟨hnodup, hall⟩, hroot⟩, htip⟩, hcount⟩, htips⟩, htn⟩ := h
  have hblock : ∀ {x b}, t.find? x = some b → t.isConnectedBlock (x, b) = true :=
    fun hb => hall _ (Store.mem_of_find? hb)
  have hwf : t.WF := by
    refine ⟨hnodup, fun {x b} hb => ?_, fun {x b p} hb hp => ?_, fun {x b p} hb hp => ?_⟩
    . have hx := hblock hb
      simp only [isConnectedBlock, Bool.and_eq_true, decide_eq_true_eq] at hx
      exact hx.1
    . have hx := hblock hb
      simp only [isConnectedBlock, hp, Bool.and_eq_true, decide_eq_true_eq] at hx
      exact hx.2.1
    . have hx := hblock hb
      simp only [isConnectedBlock, hp, Bool.and_eq_true, decide_eq_true_eq] at hx
      exact (Option.any_eq_true_iff_get (fun bp => decide (b.height = bp.height + 1)) (t.find? p)).mp hx.2.2 |>.elim
        (fun hs hg => ⟨(t.find? p).get hs, (Option.some_get hs).symm, by simpa using hg⟩)
  refine ⟨hwf, fun x b hb hp => ?_, ?_, Option.isSome_iff_exists.mp htip, hcount,
    fun x hx => Option.isSome_iff_exists.mp (htips x hx), htn⟩
  . have hx := hblock hb
    simp only [isConnectedBlock, hp, Bool.and_eq_true, decide_eq_true_eq] at hx
    exact hx.2
  . cases hb : t.find? t.root with
    | none => simp [hb] at hroot
    | some b => exact ⟨b, rfl, by simpa [hb] using hroot⟩

/-- Only the finality of blocks has changed. -/
structure Marked (t t' : Tree A) : Prop where
  same : t.SameOn (fun b => { b with finalized := false }) t'
  tips : t'.tips = t.tips
  root : t'.root = t.root
  activeTip : t'.activeTip = t.activeTip
  count : t'.appliedBlockCount = t.appliedBlockCount

variable {t t' t'' : Tree A} {x index final newRoot : Hash} {b : BlockIndex A} {tips : List Hash}
  {obr : BlockIndex A → Tree A → Tree A} {payloadIds : A → List PayloadId}

theorem Marked.refl (t : Tree A) : Marked t t := ⟨.refl t, rfl, rfl, rfl, rfl⟩

theorem Marked.trans (hm : Marked t t') (hm' : Marked t' t'') : Marked t t'' :=
  ⟨hm.same.trans hm'.same, hm'.tips.trans hm.tips, hm'.root.trans hm.root, hm'.activeTip.trans hm.activeTip,
    hm'.count.trans hm.count⟩

theorem Marked.shape (hm : Marked t t') : t.SameShape t' := hm.same.comp BlockIndex.shape

section Mark

theorem keeps_addToFinalizedPayloadsIndex (h : Hash) (id : PayloadId) :
    Keeps (fun _ : Unit => Marked t) (fun _ => Marked t) (addToFinalizedPayloadsIndex h id) :=
  .bind .get (fun _ => .bind (.check (fun _ _ h => h)) (fun _ => .modify (fun _ _ hm =>
    hm.trans ⟨.of_blocks_eq rfl, rfl, rfl, rfl, rfl⟩)))

theorem keeps_markFinalized (payloadIds : A → List PayloadId) (h : Hash) :
    Keeps (fun _ : Unit => Marked t) (fun _ => Marked t) (markFinalized payloadIds h) := by
  refine .bind (.modify (fun _ t' hm => hm.trans ⟨.update t' h (fun _ _ => rfl), rfl, rfl, rfl, rfl⟩)) (fun _ => ?_)
  refine .bind (.bind .get (fun _ => .getOrStop (fun _ _ h => h))) (fun b => ?_)
  exact .forEach (fun id => keeps_addToFinalizedPayloadsIndex h id) _

theorem keeps_markFinalizedChain (payloadIds : A → List PayloadId) (l : List Hash) :
    Keeps (fun _ : Unit => Marked t) (fun _ => Marked t) (markFinalizedChain payloadIds l) := by
  induction l with
  | nil => exact .pure _
  | cons h l ih =>
    refine .bind (.bind .get (fun _ => .getOrStop (fun _ _ h => h))) (fun b => ?_)
    exact .when (.bind (keeps_markFinalized payloadIds h) (fun _ => ih))

theorem finalState_marked {m : M (Tree A) Unit} (hm : Keeps (fun _ : Unit => Marked t) (fun _ => Marked t) m) :
    Marked t (finalState m t) := wp_finalState (hm () t (.refl t))

def setTips (tips : List Hash) (t : Tree A) : Tree A := { t with tips := tips }

theorem chainTo_setTips (tips : List Hash) (t : Tree A) (x : Hash) : (setTips tips t).chainTo x = t.chainTo x := by
  have hs : SameShape t (setTips tips t) := .of_blocks_eq rfl
  exact hs.chainTo x

theorem commutes_markFinalized (h : Hash) : Commutes (setTips tips) (markFinalized payloadIds h : M (Tree A) Unit) := by
  refine .bind (.modify (fun _ => rfl)) (fun _ => ?_)
  refine .bind (.get (fun _ => rfl) (fun _ => .getOrStop _ _)) (fun b => ?_)
  refine .forEach (fun id => ?_) _
  exact .get (fun _ => rfl) (fun _ => .bind (.check _ _) (fun _ => .modify (fun _ => rfl)))

theorem commutes_markFinalizedChain (l : List Hash) :
    Commutes (setTips tips) (markFinalizedChain payloadIds l : M (Tree A) Unit) := by
  induction l with
  | nil => exact .pure _
  | cons h l ih =>
    refine .bind (.get (fun _ => rfl) (fun _ => .getOrStop _ _)) (fun b => ?_)
    exact .when (.bind (commutes_markFinalized h) (fun _ => ih))

end Mark

section Spec

/-- The tree behind the new root and without the parallel blocks. -/
def rerooted (obr : BlockIndex A → Tree A → Tree A) (newRoot final : Hash) (t : Tree A) : Tree A :=
  let u := reroot obr newRoot final t
  { u with root := newRoot, appliedBlockCount := (u.chainTo u.activeTip).length }

theorem rerooted_same (obr : BlockIndex A → Tree A → Tree A) (newRoot final : Hash) (t : Tree A) :
    SameShape (reroot obr newRoot final t) (rerooted obr newRoot final t) := .of_blocks_eq rfl

theorem Consistent.activeAt_spec (ht : t.Consistent) (ha : x ∈ t.chainTo t.activeTip) {n : Nat}
    (hlow : t.heightOf t.root ≤ n) (hhigh : n ≤ t.heightOf x) :
    ∃ y, t.activeAt n = some y ∧ y ∈ t.chainTo x ∧ t.heightOf y = n := by
  obtain ⟨b, hb⟩ := ht.wf.find?_of_mem_chainTo ha
  obtain ⟨y, hy, hyn⟩ := ht.wf.exists_heightOf_eq ht.rooted hb hlow hhigh
  have hya := ht.wf.mem_chainTo_trans hy ha
  unfold activeAt
  cases hfind : (t.chainTo t.activeTip).find? (fun h => decide (t.heightOf h = n)) with
  | none =>
    have := List.find?_eq_none.mp hfind y hya
    simp [hyn] at this
  | some z =>
    have hz : t.heightOf z = n := by simpa using List.find?_some hfind
    have heq := ht.wf.eq_of_heightOf_eq (List.mem_of_find?_eq_some hfind) hya (hz.trans hyn.symm)
    exact ⟨z, rfl, heq ▸ hy, hz⟩

theorem Consistent.root_mem (ht : t.Consistent) (hb : t.find? x = some b) : t.root ∈ t.chainTo x :=
  ht.wf.root_mem_chainTo ht.rooted hb

theorem Consistent.exists_findFork (ht : t.Consistent) (hb : t.find? x = some b) : ∃ f, t.findFork x = some f := by
  obtain ⟨bt, hbt⟩ := ht.tip
  unfold findFork
  rw [← Option.isSome_iff_exists, List.find?_isSome]
  exact ⟨t.root, ht.root_mem hb, onActiveChain_iff.mpr (ht.root_mem hbt)⟩

theorem Consistent.lowestDirty_active (ht : t.Consistent) (ha : index ∈ t.chainTo t.activeTip) :
    t.lowestDirty index ∈ t.chainTo t.activeTip := by
  obtain ⟨b, hb⟩ := ht.wf.find?_of_mem_chainTo ha
  exact ht.wf.mem_chainTo_trans (ht.wf.lowestDirty_mem hb) ha

theorem Consistent.finalizeBlockImpl_root (ht : t.Consistent) (hb : t.find? t.root = some b) (preserve : Nat) :
    finalizeBlockImpl obr payloadIds tips t.root preserve t =
      when (!b.finalized) (markFinalized payloadIds t.root) t := by
  have hderef : derefBlock t.root t = .ok b t := by
    unfold derefBlock
    rw [run_get, hb]
    rfl
  unfold finalizeBlockImpl
  rw [run_get, run_check (decide_eq_true ht.count), run_ok hderef, if_pos rfl]

/-- The call reduces to re-rooting the tree and marking a chain. -/
theorem Consistent.finalizeBlockImpl_eq (ht : t.Consistent) (obr : BlockIndex A → Tree A → Tree A)
    (payloadIds : A → List PayloadId) (ha : index ∈ t.chainTo t.activeTip)
    (hne : index ≠ t.root) (htips : tips ⊆ t.tips) (preserve : Nat) :
    ∃ tips' final newRoot, t.eraseOutdatedTips tips (t.lowestDirty index) = some (tips', final) ∧
      t.Erases tips (t.lowestDirty index) tips' final ∧
      newRoot ∈ t.chainTo final ∧ t.heightOf newRoot = t.firstBlockHeight final preserve ∧
      finalizeBlockImpl obr payloadIds tips index preserve t =
        markFinalizedChain payloadIds ((rerooted obr newRoot final t).chainTo final)
          (setTips tips' (rerooted obr newRoot final t)) := by
  obtain ⟨b, hb⟩ := ht.wf.find?_of_mem_chainTo ha
  have hforks : ∀ tip ∈ tips, ∃ b f, t.find? tip = some b ∧ t.findFork tip = some f := by
    intro x hx
    obtain ⟨b, hb⟩ := ht.tips x (htips hx)
    obtain ⟨f, hf⟩ := ht.exists_findFork hb
    exact ⟨b, f, hb, hf⟩
  obtain ⟨tips', final, heq, he⟩ := ht.wf.eraseOutdatedTips_spec hforks (t.lowestDirty index)
  have hlow := ht.lowestDirty_active ha
  have hfa := ht.wf.mem_chainTo_trans (he.final_mem ht.wf hlow) hlow
  obtain ⟨bf, hbf⟩ := ht.wf.find?_of_mem_chainTo hfa
  have hrf := ht.wf.heightOf_le (ht.root_mem hbf)
  obtain ⟨newRoot, hat, hmem, hheight⟩ := ht.activeAt_spec (n := t.firstBlockHeight final preserve) hfa
    (Nat.le_max_left _ _) (Nat.max_le.mpr ⟨hrf, Nat.sub_le _ _⟩)
  refine ⟨tips', final, newRoot, heq, he, hmem, hheight, ?_⟩
  have hactive := onActiveChain_iff.mpr ha
  rw [← chainTo_setTips tips']
  have hderef : derefBlock index t = .ok b t := by
    unfold derefBlock
    rw [run_get, hb]
    rfl
  unfold finalizeBlockImpl
  rw [run_get, run_check (decide_eq_true ht.count), run_ok hderef, if_neg hne, run_check hactive, run_getOrStop heq,
    run_getOrStop hat, run_modify, run_modify, run_get]
  rfl

end Spec

section Rerooted

variable {y : Hash}

theorem Kept.above (ht : t.Consistent) (hk : t.Kept newRoot final y) (hb : t.find? y = some b) :
    newRoot ∈ t.chainTo y := by
  rcases hk with heq | hs
  . rw [heq]
    exact ht.root_mem hb
  . exact hs.above

/-- What descends from the final block is kept. -/
theorem Consistent.kept_of_final (ht : t.Consistent) (hfinal : newRoot ∈ t.chainTo final)
    (hy : final ∈ t.chainTo y) : t.Kept newRoot final y := by
  refine .inr ⟨ht.wf.mem_chainTo_trans hfinal hy, fun _ p par hp hpar hne hmem => ?_⟩
  exact hne (ht.wf.eq_of_heightOf_eq hmem hy (by rw [ht.wf.heightOf_child hp, ht.wf.heightOf_child hpar]))

/-- The active chain is kept from the new root on. -/
theorem Consistent.kept_of_active (ht : t.Consistent) (ha : final ∈ t.chainTo t.activeTip)
    (hy : y ∈ t.chainTo t.activeTip) (hnew : newRoot ∈ t.chainTo y) : t.Kept newRoot final y := by
  refine .inr ⟨hnew, fun _ p par hp hpar hne hmem => hne ?_⟩
  refine ht.wf.eq_of_heightOf_eq (ht.wf.mem_chainTo_trans hmem hy) ha ?_
  rw [ht.wf.heightOf_child hp, ht.wf.heightOf_child hpar]

variable (hobr : OnlyPayloadsIndex obr)

include hobr

theorem Consistent.rerooted_restricts (ht : t.Consistent) (hfinal : newRoot ∈ t.chainTo final) :
    Restricts (t.Kept newRoot final) (t.disconnectFromPrev newRoot) (reroot obr newRoot final t) := by
  obtain ⟨br, hbr, hpr⟩ := ht.root
  refine ht.wf.reroot_kept ht.rooted hobr hfinal (fun b hb => ?_)
  rw [hbr] at hb
  cases hb
  exact hpr

theorem Consistent.rerooted_activeTip (ht : t.Consistent) (hfinal : newRoot ∈ t.chainTo final) :
    (rerooted obr newRoot final t).activeTip = t.activeTip := by
  have h := congrArg (fun u : Tree A => u.activeTip) (ht.rerooted_restricts hobr hfinal).outline_eq
  exact h

theorem Consistent.rerooted_find? (ht : t.Consistent) (hfinal : newRoot ∈ t.chainTo final) :
    ((rerooted obr newRoot final t).find? y).isSome = true ↔ t.Kept newRoot final y ∧ (t.find? y).isSome = true := by
  have hr := ht.rerooted_restricts hobr hfinal
  by_cases hk : t.Kept newRoot final y
  . rw [show (rerooted obr newRoot final t).find? y = _ from hr.kept hk, find?_disconnectFromPrev_isSome]
    simp [hk]
  . rw [show (rerooted obr newRoot final t).find? y = _ from hr.dropped hk]
    simp [hk]

theorem Consistent.rerooted_wf (ht : t.Consistent) (hfinal : newRoot ∈ t.chainTo final) :
    (rerooted obr newRoot final t).WF := by
  have hwf := (ht.rerooted_restricts hobr hfinal).wf ht.wf.closed_kept (ht.wf.disconnect newRoot)
  exact hwf.congr (rerooted_same obr newRoot final t)

/-- A chain of the new tree is the upper part of a chain of the old one. -/
theorem Consistent.rerooted_chainTo (ht : t.Consistent) (hfinal : newRoot ∈ t.chainTo final)
    (hk : t.Kept newRoot final y) (hb : t.find? y = some b) :
    (rerooted obr newRoot final t).chainTo y ++ (t.chainTo newRoot).tail = t.chainTo y := by
  have hr := ht.rerooted_restricts hobr hfinal
  rw [(rerooted_same obr newRoot final t).chainTo, hr.chainTo ht.wf.closed_kept (ht.wf.disconnect newRoot) hk]
  exact (ht.wf.chainTo_disconnect hb).2 (hk.above ht hb)

theorem Consistent.rerooted_root_mem (ht : t.Consistent) (hfinal : newRoot ∈ t.chainTo final)
    (hb : (rerooted obr newRoot final t).find? y = some b) :
    newRoot ∈ (rerooted obr newRoot final t).chainTo y := by
  have hsome : ((rerooted obr newRoot final t).find? y).isSome = true := by
    rw [hb]
    rfl
  obtain ⟨hk, hy⟩ := (ht.rerooted_find? hobr hfinal).mp hsome
  obtain ⟨b', hb'⟩ := Option.isSome_iff_exists.mp hy
  have hmem := hk.above ht hb'
  obtain ⟨bn, hbn⟩ := ht.wf.find?_of_mem_chainTo hmem
  obtain ⟨tail, heq⟩ := chainTo_eq_cons hbn
  have hn := ht.wf.chainTo_nodup newRoot
  rw [← ht.rerooted_chainTo hobr hfinal hk hb', List.mem_append] at hmem
  rw [heq] at hn hmem
  exact hmem.resolve_right (List.nodup_cons.mp hn).1

theorem Consistent.rerooted_consistent (ht : t.Consistent) (hfinal : newRoot ∈ t.chainTo final)
    (ha : final ∈ t.chainTo t.activeTip) {tips' : List Hash} (hsub : tips'.Sublist tips) (hperm : tips.Perm t.tips)
    (hkept : ∀ x ∈ tips', t.Kept newRoot final x) : (setTips tips' (rerooted obr newRoot final t)).Consistent := by
  have hr := ht.rerooted_restricts hobr hfinal
  have hwf := ht.rerooted_wf hobr hfinal
  have htip := ht.rerooted_activeTip hobr hfinal
  have hsame : SameShape (rerooted obr newRoot final t) (setTips tips' (rerooted obr newRoot final t)) :=
    .of_blocks_eq rfl
  have hfind : ∀ {x b}, t.find? x = some b → t.Kept newRoot final x →
      ∃ b', (setTips tips' (rerooted obr newRoot final t)).find? x = some b' := by
    intro x b hb hk
    exact Option.isSome_iff_exists.mp ((ht.rerooted_find? hobr hfinal).mpr ⟨hk, Option.isSome_iff_exists.mpr ⟨b, hb⟩⟩)
  obtain ⟨bn, hbn⟩ := ht.wf.find?_of_mem_chainTo hfinal
  obtain ⟨bt, hbt⟩ := ht.tip
  have hself := ht.wf.mem_chainTo_self hbt
  refine ⟨hwf.congr hsame, fun x b hb hp => ?_, ?_, ?_, ?_, fun x hx => ?_, ?_⟩
  . have hb : (rerooted obr newRoot final t).find? x = some b := hb
    have hmem := ht.rerooted_root_mem hobr hfinal hb
    rw [chainTo_of_root hb hp, List.mem_singleton] at hmem
    exact hmem.symm
  . have hk : t.Kept newRoot final newRoot := ht.kept_of_active ha (ht.wf.mem_chainTo_trans hfinal ha)
      (ht.wf.mem_chainTo_self hbn)
    obtain ⟨b', hb'⟩ := hfind hbn hk
    refine ⟨b', hb', ?_⟩
    have hd : (t.disconnectFromPrev newRoot).find? newRoot = some b' := (hr.of_find? hb').2
    obtain ⟨_, _, _, _, hp⟩ := find?_disconnectFromPrev_cases hd
    rw [if_pos rfl] at hp
    exact hp
  . show ∃ b, (rerooted obr newRoot final t).find? (rerooted obr newRoot final t).activeTip = some b
    rw [htip]
    exact hfind hbt (ht.kept_of_active ha hself (ht.wf.mem_chainTo_trans hfinal ha))
  . rw [hsame.chainTo]
    show ((reroot obr newRoot final t).chainTo _).length = _
    rw [(rerooted_same obr newRoot final t).chainTo]
    rfl
  . obtain ⟨b, hb⟩ := ht.tips x (hperm.subset (hsub.subset hx))
    exact hfind hb (hkept x hx)
  . exact hsub.nodup (hperm.nodup_iff.mpr ht.nodup)

end Rerooted

theorem Consistent.congr (ht : t.Consistent) (hs : t.SameShape t') (htips : t'.tips = t.tips) (hroot : t'.root = t.root)
    (hactive : t'.activeTip = t.activeTip) (hcount : t'.appliedBlockCount = t.appliedBlockCount) : t'.Consistent := by
  have hfind : ∀ {x b}, t.find? x = some b → ∃ b', t'.find? x = some b' ∧ b'.shape = b.shape :=
    fun hb => hs.symm.find? hb
  refine ⟨ht.wf.congr hs, fun x b hb hp => ?_, ?_, ?_, ?_, fun x hx => ?_, ?_⟩
  . obtain ⟨b', hb', heq⟩ := hs.find? hb
    rw [hroot]
    exact ht.rooted hb' ((shape_eq_iff.mp heq).2.1.trans hp)
  . obtain ⟨b, hb, hp⟩ := ht.root
    obtain ⟨b', hb', heq⟩ := hfind hb
    rw [hroot]
    exact ⟨b', hb', (shape_eq_iff.mp heq).2.1.trans hp⟩
  . obtain ⟨b, hb⟩ := ht.tip
    obtain ⟨b', hb', _⟩ := hfind hb
    rw [hactive]
    exact ⟨b', hb'⟩
  . rw [hcount, hactive, hs.chainTo]
    exact ht.count
  . rw [htips] at hx
    obtain ⟨b, hb⟩ := ht.tips x hx
    obtain ⟨b', hb', _⟩ := hfind hb
    exact ⟨b', hb'⟩
  . rw [htips]
    exact ht.nodup

theorem Consistent.marked (ht : t.Consistent) (hm : t.Marked t') : t'.Consistent :=
  ht.congr hm.shape hm.tips hm.root hm.activeTip hm.count

end Tree

end AltIntegration
