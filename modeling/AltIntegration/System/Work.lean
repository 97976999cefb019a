import AltIntegration.Blockchain.Lemmas.Frame
import AltIntegration.Blockchain.Lemmas.Insert
import AltIntegration.Blockchain.Lemmas.Prune

/-!
This module contains the cumulative work of the blocks of a proof-of-work tree: it is the work of a block on top of
the work of its parent, whatever has been deleted and inserted again. Work is only counted when a block is inserted,
and at that time all blocks above it are deleted.
-/

namespace AltIntegration

open Program BlockIndex

/-- Work is written by nothing but `setChainWork`. -/
class LawfulPowAddon (A : Type) [PowAddon A] : Prop where
  chainWork_setChainWork : ∀ w (a : A), PowAddon.chainWork (PowAddon.setChainWork w a) = w
  chainWork_addRef : ∀ n (a : A), PowAddon.chainWork (PowAddon.addRef n a) = PowAddon.chainWork a
  chainWork_removeRef : ∀ n (a a' : A), PowAddon.removeRef n a = some a' → PowAddon.chainWork a' = PowAddon.chainWork a
  chainWork_setBlockOfProofEndorsements : ∀ l (a : A),
    PowAddon.chainWork (PowAddon.setBlockOfProofEndorsements l a) = PowAddon.chainWork a

variable {A : Type} [PowAddon A] {p : BlockTreeParams} {t t' : Tree A} {h x c prev : Hash} {b : BlockIndex A}
  {f : BlockIndex A → BlockIndex A}

/-- What cumulative work depends on. -/
def BlockIndex.labour (b : BlockIndex A) : (Block × Option Hash × Nat) × Bool × Nat :=
  (b.shape, b.status.deleted, PowAddon.chainWork b.addon)

theorem labour_eq_iff {b b' : BlockIndex A} : b.labour = b'.labour ↔
    b.shape = b'.shape ∧ b.status.deleted = b'.status.deleted ∧ PowAddon.chainWork b.addon = PowAddon.chainWork b'.addon := by
  simp [labour]

theorem labour_setStatus (b : BlockIndex A) {s : BlockStatus} (hd : s.deleted = b.status.deleted) :
    (b.setStatus s).labour = b.labour := by
  rw [labour_eq_iff, setStatus_shape, setStatus_status, setStatus_addon]
  exact ⟨rfl, hd, rfl⟩

namespace Tree

/-- A block that is not deleted has a parent that is not deleted, and its work on top of the work of its parent. -/
structure WorkOk (p : BlockTreeParams) (_ : Hash) (b bp : BlockIndex A) : Prop where
  deleted : bp.status.deleted = true → b.status.deleted = true
  work : b.status.deleted = false →
    PowAddon.chainWork b.addon = toUint256 (p.getBlockProof b.header + PowAddon.chainWork bp.addon)

structure Worked (p : BlockTreeParams) (t : Tree A) : Prop where
  wf : t.WF
  shape : t.PowShape
  root : ∀ ⦃x b⦄, t.find? x = some b → b.pprev = none →
    b.status.deleted = false ∧ PowAddon.chainWork b.addon = toUint256 (p.getBlockProof b.header)
  edges : t.Edges (WorkOk p)

namespace Worked

theorem congr (ht : t.Worked p) (hs : t.SameOn labour t') : t'.Worked p := by
  have hshape : t.SameShape t' := hs.comp Prod.fst
  refine ⟨ht.wf.congr hshape, ht.shape.congr hshape, fun x b' hb' hp => ?_, ht.edges.congr hs ?_ ?_⟩
  . obtain ⟨b, hb, heq⟩ := hs.find? hb'
    obtain ⟨hsh, hd, hw⟩ := labour_eq_iff.mp heq
    obtain ⟨hheader, hpprev, _⟩ := shape_eq_iff.mp hsh
    rw [← hd, ← hw, ← hheader]
    exact ht.root hb (hpprev.trans hp)
  . intro b b' heq
    exact (shape_eq_iff.mp (labour_eq_iff.mp heq).1).2.1
  . intro x b b' bp bp' heq heq' hok
    obtain ⟨hb, hd, hw⟩ := labour_eq_iff.mp heq
    obtain ⟨_, hd', hw'⟩ := labour_eq_iff.mp heq'
    have hheader := (shape_eq_iff.mp hb).1
    refine ⟨fun hdp => ?_, fun hdb => ?_⟩
    . rw [← hd]
      exact hok.deleted (hd'.trans hdp)
    . rw [← hw, ← hw', ← hheader]
      exact hok.work (hd.trans hdb)

/-- A created block is deleted, so it has no work yet. -/
theorem create {block : PowBlock} {prev : BlockIndex A} (ht : t.Worked p) (hnew : t.find? block.getHash = none)
    (hprev : t.getBlockIndex block.previousBlock = some prev) : (t.createBlockIndex block.toBlock prev).Worked p := by
  have hprev := (Tree.getBlockIndex_eq_some.mp hprev).1
  have hok : WorkOk p block.toBlock.hash (.create block.toBlock prev) prev := ⟨fun _ => rfl, (by cases ·)⟩
  refine ⟨ht.wf.create hnew hprev, ht.shape.create hprev, fun x b hb hp => ?_, ht.edges.create ht.wf hnew hprev hok⟩
  rcases Tree.find?_createBlockIndex_cases hb with ⟨_, rfl⟩ | hb
  . cases hp
  . exact ht.root hb hp

/-- A deleted block is inserted again. The blocks above it are deleted, so that they have no work yet. -/
theorem restore (ht : t.Worked p) (hf : KeepsShape f) (hb : t.find? h = some b) (hd : b.status.deleted = true)
    (hparent : ∀ q bq, b.pprev = some q → t.find? q = some bq → bq.status.deleted = false ∧
      PowAddon.chainWork (f b).addon = toUint256 (p.getBlockProof b.header + PowAddon.chainWork bq.addon)) :
    (t.update h f).Worked p := by
  have hshape := Tree.SameShape.update t h hf
  refine ⟨ht.wf.congr hshape, ht.shape.congr hshape, fun x bx hbx hp => ?_,
    Edges.update ht.edges ht.wf hf ?_ ?_ (fun _ _ _ _ _ _ hok => hok)⟩
  . rw [Tree.find?_update] at hbx
    split at hbx
    . next heq =>
      -- the root is never deleted
      subst heq
      rw [hb] at hbx
      cases hbx
      rw [hf.pprev] at hp
      rw [(ht.root hb hp).1] at hd
      cases hd
    . exact ht.root hbx hp
  . intro b' q bq hb' hq hbq _
    rw [hb] at hb'
    cases hb'
    obtain ⟨hdq, hwork⟩ := hparent q bq hq hbq
    refine ⟨fun hdq' => ?_, fun _ => ?_⟩
    . rw [hdq] at hdq'
      cases hdq'
    . rw [hwork, (shape_eq_iff.mp (hf b)).1]
  . intro x bx b' hbx _ hb' hok
    rw [hb] at hb'
    cases hb'
    have hdx := hok.deleted hd
    refine ⟨fun _ => hdx, fun hdx' => ?_⟩
    rw [hdx] at hdx'
    cases hdx'

/-- A block is deleted after the blocks above it. -/
theorem delete (ht : t.Worked p) (hh : t.IsChild h prev) (hchild : ∀ c, t.IsChild c h → t.At (fun b => b.status.deleted = true) c) :
    (t.update h (fun b => b.deleteTemporarily)).Worked p := by
  have hkeep : KeepsShape (fun b : BlockIndex A => b.deleteTemporarily) := keepsShape_deleteTemporarily
  have hshape := Tree.SameShape.update t h hkeep
  refine ⟨ht.wf.congr hshape, ht.shape.congr hshape, fun x bx hbx hp => ?_,
    Edges.update ht.edges ht.wf hkeep ?_ ?_ (fun _ _ _ _ _ _ hok => hok)⟩
  . rw [Tree.find?_update] at hbx
    split at hbx
    . next heq =>
      subst heq
      obtain ⟨b, hb, hprev⟩ := hh
      rw [hb] at hbx
      cases hbx
      have hp : b.pprev = none := hp
      rw [hprev] at hp
      cases hp
    . exact ht.root hbx hp
  . exact fun _ _ _ _ _ _ _ => ⟨fun _ => rfl, (by cases ·)⟩
  . intro x bx _ hbx hpx _ _
    obtain ⟨bx', hbx', hd⟩ := hchild x ⟨bx, hbx, hpx⟩
    rw [hbx] at hbx'
    cases hbx'
    refine ⟨fun _ => hd, fun hd' => ?_⟩
    rw [hd] at hd'
    cases hd'

end Worked

/-- What it took to mine the chain that ends in the block `h`. -/
def totalProof (p : BlockTreeParams) (t : Tree A) (h : Hash) : Nat :=
  (t.chainTo h).foldr (fun x work => (t.find? x).elim 0 (fun b => p.getBlockProof b.header) + work) 0

omit [PowAddon A] in
theorem totalProof_cons (hb : t.find? h = some b) {l : List Hash} (hc : t.chainTo h = h :: l) :
    t.totalProof p h = p.getBlockProof b.header +
      l.foldr (fun x work => (t.find? x).elim 0 (fun b => p.getBlockProof b.header) + work) 0 := by
  unfold totalProof
  rw [hc, List.foldr_cons, hb]
  rfl

/-- The cumulative work of a block is that of its chain, of which no block is deleted. -/
theorem Worked.chainWork_eq (ht : t.Worked p) (hb : t.find? h = some b) (hd : b.status.deleted = false) :
    PowAddon.chainWork b.addon = toUint256 (t.totalProof p h) ∧ ∀ x ∈ t.chainTo h, t.At (fun b => b.status.deleted = false) x := by
  refine ht.wf.chain_induction (P := fun h => ∀ b, t.find? h = some b → b.status.deleted = false →
    PowAddon.chainWork b.addon = toUint256 (t.totalProof p h) ∧ ∀ x ∈ t.chainTo h, t.At (fun b => b.status.deleted = false) x)
    ?_ ?_ hb b hb hd
  . intro x b hb hp b' hb' hd
    rw [hb] at hb'
    cases hb'
    have hchain := chainTo_of_root hb hp
    refine ⟨?_, fun y hy => ?_⟩
    . rw [totalProof_cons hb hchain]
      exact (ht.root hb hp).2
    . rw [hchain, List.mem_singleton] at hy
      exact hy ▸ ⟨b, hb, hd⟩
  . intro x q hchild ih b hb hd
    have hchain := ht.wf.chainTo_of_child hchild
    obtain ⟨b', hb', hp⟩ := hchild
    rw [hb] at hb'
    cases hb'
    obtain ⟨bq, hbq, _⟩ := ht.wf.parent hb hp
    have hok := ht.edges hb hp hbq
    have hdq : bq.status.deleted = false := by
      cases hdq : bq.status.deleted with
      | false => rfl
      | true =>
        rw [hok.deleted hdq] at hd
        cases hd
    obtain ⟨hwork, hlive⟩ := ih bq hbq hdq
    refine ⟨?_, fun y hy => ?_⟩
    . rw [totalProof_cons hb hchain, hok.work hd, hwork]
      -- the work of the parent has been cut to 256 bits before
      exact Nat.add_mod_mod _ _ _
    . rw [hchain] at hy
      rcases List.mem_cons.mp hy with rfl | hy
      . exact ⟨b, hb, hd⟩
      . exact hlive y hy

end Tree

section Programs

variable {E : Assertion → Tree A → Prop}

theorem wlp_deleteLeaf_worked {obr : BlockIndex A → Tree A → Tree A} (hobr : Tree.OnlyPayloadsIndex obr) (ht : t.Worked p)
    (hh : t.IsChild h prev) (hchild : ∀ c, t.IsChild c h → t.At (fun b => b.status.deleted = true) c) (q : Hash) (W : List Hash) :
    wlp (deleteLeaf obr h) (fun _ t' => Finished (fun _ => Tree.Worked p) (fun b => b.status.deleted = true) (q :: W) [h] t t') t := by
  simp only [deleteLeaf, wlp_bind, wlp_derefBlock, wlp_modify, wlp_check, wlp_modifyBlock]
  intro b hb _
  obtain ⟨f, g, hf⟩ := hobr b
  have hblocks : ((obr b t).eraseTip h).blocks = t.blocks := by
    rw [hf]
    rfl
  have hfind : ∀ x, ((obr b t).eraseTip h).find? x = t.find? x := by
    intro x
    unfold Tree.find?
    rw [hblocks]
  have hsame : t.SameShape ((obr b t).eraseTip h) := .of_blocks_eq hblocks
  have hshape := Tree.SameShape.update ((obr b t).eraseTip h) h (keepsShape_deleteTemporarily (A := A))
  have hdel : ∀ {x bx}, t.find? x = some bx → bx.status.deleted = true ∨ x = h →
      (((obr b t).eraseTip h).update h (fun b => b.deleteTemporarily)).At (fun b => b.status.deleted = true) x := by
    intro x bx hbx hd
    by_cases hx : h = x
    . subst hx
      refine ⟨bx.deleteTemporarily, ?_, rfl⟩
      rw [Tree.find?_update_self, hfind, hbx]
      rfl
    . refine ⟨bx, ?_, hd.resolve_right (fun heq => hx heq.symm)⟩
      rw [Tree.find?_update_of_ne hx, hfind]
      exact hbx
  refine ⟨hsame.trans hshape, ?_, ?_, ?_⟩
  . refine (ht.congr (.of_blocks_eq hblocks)).delete ((hsame.isChild h prev).mpr hh) (fun c hc => ?_)
    obtain ⟨bc, hbc, hd⟩ := hchild c ((hsame.isChild c h).mp hc)
    exact ⟨bc, (hfind c).trans hbc, hd⟩
  . intro c hc
    rw [List.mem_singleton.mp hc]
    exact hdel hb (.inr rfl)
  . rintro x ⟨bx, hbx, hd⟩
    exact hdel hbx (.inl hd)

theorem wlp_deleteSubtree_worked {obr : BlockIndex A → Tree A → Tree A} (hobr : Tree.OnlyPayloadsIndex obr) (ht : t.Worked p)
    (hh : t.IsChild h prev) : wlp (deleteSubtree obr h prev) (fun _ t' => t'.Worked p) t := by
  have hfin : Finishes (fun _ _ => True) (fun _ => Tree.Worked p) (fun b => b.status.deleted = true) (t.maxHeight + 1)
      (forEachNodePostorder (deleteLeaf obr) (fun next => !next.isDeleted) (t.maxHeight + 1)) := by
    refine Finishes.postorder (fun _ _ _ _ h => h) ?_ ?_ _
    . exact fun c q W t' _ ht' hc hchild => wlp_deleteLeaf_worked hobr ht' hc hchild q W
    . intro b hb
      simpa [isDeleted, hasFlags, BlockStatus.hasFlags] using hb
  obtain ⟨b, hb, _⟩ := id hh
  simp only [deleteSubtree, wlp_bind, wlp_get, wlp_modify]
  refine wlp_mono (hfin h prev [] t ht.wf ht hh (.maxHeight hb)) (fun _ t' hf => ?_)
  exact hf.inv.congr (.of_blocks_eq Tree.tryAddTip_blocks)

/-- Raising the level of a block does not concern its work. -/
theorem wlp_raiseValidity_worked {upTo : BlockStateStatus} (ht : t.Worked p) :
    wlp (raiseValidity h upTo) (fun _ t' => t'.Worked p) t := by
  cases hb : t.find? h with
  | none => simp [raiseValidity, wlp_derefBlock, hb]
  | some b => exact wlp_raiseValidity hb (fun _ => ht) (fun _ _ => ht.congr (.update t h (fun _ _ => rfl)))

variable [LawfulPowAddon A] {block : PowBlock}

/-- What `onBlockInserted` does to a block of a tree in which it has been restored. -/
def count (p : BlockTreeParams) (t : Tree A) (b : BlockIndex A) : BlockIndex A :=
  { b with addon := PowAddon.setChainWork (toUint256 (p.getBlockProof b.header + b.pprev.elim 0 t.chainWork)) b.addon }

theorem wlp_insertRestored_worked (ht : t.Worked p) (hparent : ∀ b q bq, t.find? block.getHash = some b → b.pprev = some q →
      t.find? q = some bq → bq.status.deleted = false) :
    wlp (insertBlockHeader.insertRestored (Tree.onBlockInserted p) block.toBlock) (fun _ t' => t'.Worked p) t := by
  simp only [insertBlockHeader.insertRestored, restore, wlp_bind, wlp_derefBlock, wlp_check, wlp_when, wlp_modify, wlp_modifyBlock,
    wlp_pure]
  intro b hb hd
  have hinsert : ∀ {t1 : Tree A}, t1.blocks = t.blocks →
      wlp (raiseValidity block.toBlock.hash .validTree) (fun _ t' => t'.Worked p) (Tree.onBlockInserted p block.toBlock.hash
        ((t1.update block.toBlock.hash (fun b => b.unsetFlag .deleted)).tryAddTip block.toBlock.hash)) := by
    intro t1 hblocks
    have ht1 : t1.Worked p := ht.congr (.of_blocks_eq hblocks)
    have hfind : ∀ x, t1.find? x = t.find? x := by
      intro x
      unfold Tree.find?
      rw [hblocks]
    have hb1 : t1.find? block.toBlock.hash = some b := (hfind _).trans hb
    have hd1 : b.status.deleted = true := by simpa [isDeleted, hasFlags, BlockStatus.hasFlags] using hd
    apply wlp_raiseValidity_worked
    generalize ht2 : (t1.update block.toBlock.hash (fun b => b.unsetFlag .deleted)).tryAddTip block.toBlock.hash = t2
    have hblocks2 : t2.blocks = (t1.update block.toBlock.hash (fun b => b.unsetFlag .deleted)).blocks := by
      rw [← ht2, Tree.tryAddTip_blocks]
    -- the work of the parent is read after the block has been restored
    have hwork : ∀ q bq, b.pprev = some q → t1.find? q = some bq → t2.chainWork q = PowAddon.chainWork bq.addon := by
      intro q bq hq hbq
      have hne : block.toBlock.hash ≠ q := by
        rintro rfl
        obtain ⟨bq', hbq', hheight⟩ := ht1.wf.parent hb1 hq
        rw [hb1] at hbq'
        cases hbq'
        omega
      have hbq2 : t2.find? q = some bq := by
        unfold Tree.find?
        rw [hblocks2]
        exact (Tree.find?_update_of_ne hne).trans hbq
      simp [Tree.chainWork, hbq2]
    refine (ht1.restore (f := fun b => count p t2 (b.unsetFlag .deleted)) (fun b => keepsShape_unsetFlag .deleted b) hb1 hd1
      (fun q bq hq hbq => ⟨hparent b q bq hb hq ((hfind q).symm.trans hbq), ?_⟩)).congr (.of_blocks_eq ?_)
    . obtain ⟨hheader, hpprev, _⟩ := shape_eq_iff.mp (keepsShape_unsetFlag .deleted b)
      simp only [count]
      rw [LawfulPowAddon.chainWork_setChainWork, hheader, hpprev, hq]
      simp [hwork q bq hq hbq]
    . rw [← Tree.update_update]
      simp only [Tree.onBlockInserted, Tree.update, hblocks2]
      rfl
  exact ⟨fun _ => hinsert rfl, fun _ => hinsert rfl⟩

theorem wlp_insertBlockHeader_worked {prev : BlockIndex A} (ht : t.Worked p) (hprev : t.getBlockIndex block.previousBlock = some prev) :
    wlp (insertBlockHeader (Tree.onBlockInserted p) block.toBlock) (fun _ t' => t'.Worked p) t := by
  obtain ⟨hfind, hd⟩ := Tree.getBlockIndex_eq_some.mp hprev
  simp only [insertBlockHeader, wlp_bind, wlp_check, wlp_get]
  intro _
  split
  . simp only [wlp_ite, wlp_bind, wlp_check, wlp_pure]
    refine ⟨fun _ _ => wlp_insertRestored_worked ht (fun b q bq hb hq hbq => ?_), fun _ => ht⟩
    have hpprev := ht.shape.pprev ht.wf hb hfind
    rw [hq] at hpprev
    cases hpprev
    rw [hfind] at hbq
    cases hbq
    exact hd
  . next hnew =>
    simp only [doInsertBlockHeader, wlp_bind, wlp_get, wlp_getOrStop, wlp_modify]
    intro prev' hprev'
    have hprev' : t.getBlockIndex block.previousBlock = some prev' := hprev'
    rw [hprev] at hprev'
    cases hprev'
    refine wlp_insertRestored_worked (ht.create hnew hprev) (fun b q bq hb hq hbq => ?_)
    rw [Tree.find?_createBlockIndex, if_pos (show block.toBlock.hash = block.getHash from rfl)] at hb
    cases hb
    rw [← Option.some.inj hq, ht.wf.hash hfind, Tree.find?_createBlockIndex_of_some hnew hfind] at hbq
    cases hbq
    exact hd

theorem wlp_validateAndAddBlock_worked (ht : t.Worked p) (ctx : Bool) :
    wlp (validateAndAddBlock p block ctx) (fun _ t' => t'.Worked p) t := by
  simp only [validateAndAddBlock, wlp_bind, wlp_get, wlp_ite, wlp_pure]
  refine ⟨fun _ => ht, fun _ => ?_⟩
  split
  . exact ht
  . next prev hprev =>
    simp only [wlp_bind, wlp_getOrStop, wlp_ite, wlp_pure]
    intro _ _
    refine ⟨fun _ => ht, fun _ => wlp_mono (wlp_insertBlockHeader_worked ht hprev) (fun _ t1 ht1 => ?_)⟩
    refine wlp_mono (wlp_raiseValidity_worked ht1) (fun _ t2 ht2 => ⟨fun _ => ?_, fun _ => ht2⟩)
    simp only [wlp_modifyBlock, wlp_modify]
    have hsame : t2.SameOn labour (t2.update block.getHash (fun b => b.setFlag .failedChild)) :=
      .update t2 block.getHash (fun b _ => labour_setStatus b rfl)
    exact ht2.congr (hsame.trans (.of_blocks_eq rfl))

end Programs

instance : LawfulPowAddon BtcAddon where
  chainWork_setChainWork _ _ := rfl
  chainWork_addRef _ _ := rfl
  chainWork_removeRef n a a' h := by
    simp only [PowAddon.removeRef, Option.ite_none_right_eq_some, Option.some.injEq] at h
    rw [← h.2]
    rfl
  chainWork_setBlockOfProofEndorsements _ _ := rfl

instance : LawfulPowAddon VbkAddon where
  chainWork_setChainWork _ _ := rfl
  chainWork_addRef _ _ := rfl
  chainWork_removeRef n a a' h := by
    simp only [PowAddon.removeRef, Option.ite_none_right_eq_some, Option.some.injEq] at h
    rw [← h.2]
    rfl
  chainWork_setBlockOfProofEndorsements _ _ := rfl

end AltIntegration
