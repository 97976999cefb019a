import AltIntegration.Data.Postorder
import AltIntegration.Blockchain.Chain
import AltIntegration.Blockchain.Lemmas.Flags
import AltIntegration.Blockchain.Lemmas.SystemChanges

/-!
This module contains `forEachNodePostorder` of `tree_algo.hpp` as a loop with a stack and a set, on the blocks of a
tree, and the two visitors that change the tree while it is traversed.
-/

namespace AltIntegration

open Program

variable {A : Type}

namespace Tree

/-- `forEachNodePostorder`, with a visitor and a predicate that may look at the whole tree. -/
def postorderLoop (visit : Hash → Tree A → Tree A) (shouldVisit : Tree A → Hash → Bool) : Postorder Hash (Tree A) where
  next := pnext
  shouldVisit := shouldVisit
  visit := visit

section Shape

variable {t : Tree A} {h root x : Hash} {b : BlockIndex A}

/-- The blocks of a tree are one for the traversal. -/
theorem WF.isTree (ht : t.WF) : Postorder.IsTree t.pnext t.heightOf t.blocks.keys where
  nodup x := Store.nodup_keysWhere ht.nodup _
  unique hx hy := IsChild.unique (ht.mem_pnext.mp hy) (ht.mem_pnext.mp hx)
  rank_lt hc := by
    rw [ht.heightOf_child (ht.mem_pnext.mp hc)]
    exact Nat.lt_succ_self _
  closed _ hc := by
    obtain ⟨b, hb, _⟩ := ht.mem_pnext.mp hc
    exact Store.mem_keys_of_find? hb

theorem WF.below_iff (ht : t.WF) (hb : t.find? root = some b) :
    Postorder.Below t.pnext root x ↔ root ∈ t.chainTo x := by
  constructor
  . intro h
    induction h with
    | refl => exact ht.mem_chainTo_self hb
    | tail _ hc ih =>
      rw [ht.chainTo_of_child (ht.mem_pnext.mp hc)]
      exact List.mem_cons_of_mem _ ih
  . intro hmem
    obtain ⟨b', hb'⟩ : ∃ b', t.find? x = some b' := by
      cases hx : t.find? x with
      | some b' => exact ⟨b', rfl⟩
      | none =>
        rw [chainTo_of_none hx] at hmem
        cases hmem
    revert hmem
    refine ht.chain_induction (P := fun x => root ∈ t.chainTo x → Postorder.Below t.pnext root x) ?_ ?_ hb'
    . intro x b hb hp hmem
      rw [chainTo_of_root hb hp, List.mem_singleton] at hmem
      rw [hmem]
      exact .refl
    . intro x p hp ih hmem
      rw [ht.chainTo_of_child hp, List.mem_cons] at hmem
      cases hmem with
      | inl heq =>
        rw [heq]
        exact .refl
      | inr hmem => exact (ih hmem).tail (ht.mem_pnext.mpr hp)

theorem heightOf_le_maxHeight (t : Tree A) (x : Hash) : t.heightOf x ≤ t.maxHeight := by
  unfold heightOf
  cases hx : t.find? x with
  | none => exact Nat.zero_le _
  | some b => exact height_le_maxHeight hx

end Shape

section Visitors

variable {obr : BlockIndex A → Tree A → Tree A} {t : Tree A} {h y : Hash} {shouldVisit : Tree A → Hash → Bool}

theorem OnlyPayloadsIndex.blocks_eq (hobr : OnlyPayloadsIndex obr) (b : BlockIndex A) (t : Tree A) :
    (obr b t).blocks = t.blocks := by
  obtain ⟨f, g, hf⟩ := hobr b
  rw [hf]

theorem erase_update (t : Tree A) (h : Hash) (f : BlockIndex A → BlockIndex A) :
    { t.update h f with blocks := (t.update h f).blocks.erase h } = { t with blocks := t.blocks.erase h } := by
  rw [update]
  simp only [Store.erase_modify]

variable [BlockAddon A]

/-- The visitor of `deallocateTree`: the block is disconnected and freed. -/
def deallocateNode (obr : BlockIndex A → Tree A → Tree A) (h : Hash) (t : Tree A) : Tree A :=
  match t.find? h with
  | none => t
  | some b =>
    let t := if b.isDeleted then t else (obr b t).update h (·.deleteTemporarily)
    let t := t.disconnectFromPrev h
    { t with blocks := t.blocks.erase h }

/-- The visitor of `removeSubtree`: the block is marked as deleted. -/
def removeNode (obr : BlockIndex A → Tree A → Tree A) (h : Hash) (t : Tree A) : Tree A := finalState (deleteLeaf obr h) t

/-- What the visitor changes of a block goes with the block. -/
theorem deallocateNode_eq (obr : BlockIndex A → Tree A → Tree A) (h : Hash) (t : Tree A) :
    deallocateNode obr h t = deallocateBlock obr t h := by
  rw [deallocateNode, deallocateBlock]
  cases t.find? h with
  | none => rfl
  | some b =>
    apply (erase_update _ h _).trans
    simp only
    split
    . rfl
    . exact erase_update (obr b t) h _

theorem local_deallocateNode (hobr : OnlyPayloadsIndex obr) : (postorderLoop (deallocateNode obr) shouldVisit).Local := by
  intro x t y _ hmem
  change (deallocateNode obr x t).pnext y = t.pnext y
  rw [deallocateNode_eq, deallocateBlock]
  split
  . rfl
  . next b hb =>
    rw [pnext, pnext]
    simp only
    split
    . exact Store.keysWhere_erase hmem
    . rw [hobr.blocks_eq]
      exact Store.keysWhere_erase hmem

theorem keeps_deleteLeaf (hobr : OnlyPayloadsIndex obr) (l : List Hash) (h : Hash) :
    Keeps (fun _ : Unit => fun u : Tree A => u.pnext y = l) (fun _ u => u.pnext y = l) (deleteLeaf obr h) := by
  refine .bind (.bind .get (fun _ => .getOrStop (fun _ _ hu => hu))) (fun b => ?_)
  refine .bind (.modify (fun _ u hu => ?_)) (fun _ => ?_)
  . rw [pnext, hobr.blocks_eq]
    exact hu
  . refine .bind (.modify (fun _ _ hu => hu)) (fun _ => ?_)
    refine .bind (.check (fun _ _ hu => hu)) (fun _ => ?_)
    refine .modify (fun _ u hu => ?_)
    rw [pnext, update, Store.keysWhere_modify]
    . exact hu
    . exact fun _ => rfl

theorem local_removeNode (hobr : OnlyPayloadsIndex obr) : (postorderLoop (removeNode obr) shouldVisit).Local := by
  intro x t y _ _
  exact wp_finalState (keeps_deleteLeaf hobr (t.pnext y) x () t rfl)

end Visitors

section Links

variable {t : Tree A} {obr : BlockIndex A → Tree A → Tree A} {root x : Hash} {b : BlockIndex A}
variable {visit : Hash → Tree A → Tree A} {shouldVisit : Tree A → Hash → Bool}

theorem order_pnext (t : Tree A) (n : Nat) (h : Hash) : Postorder.order t.pnext n h = t.postorder n h := by
  induction n generalizing h with
  | zero => rfl
  | succ n ih => rw [Postorder.order, postorder, funext ih]

/-- The recursion of the model goes as deep as the loop does. -/
theorem WF.exists_run_recursive (ht : t.WF) (root : Hash) (hl : (postorderLoop visit shouldVisit).Local) :
    ∃ k, ((postorderLoop visit shouldVisit).run k (.start root t)).stack = [] ∧
      ((postorderLoop visit shouldVisit).run k (.start root t)).memory =
        (postorderLoop visit shouldVisit).recursive (t.maxHeight + 1) root t ∧
      ((∀ u x, shouldVisit u x = true) →
        ((postorderLoop visit shouldVisit).run k (.start root t)).visited = t.postorder (t.maxHeight + 1) root) := by
  have hbound : ∀ y, Postorder.Below t.pnext root y → t.heightOf y < t.maxHeight + 1 := by
    intro y _
    exact Nat.lt_succ_of_le (heightOf_le_maxHeight t y)
  have hdeep : t.maxHeight + 1 ≤ t.heightOf root + (t.maxHeight + 1) := Nat.le_add_left _ _
  rw [← order_pnext]
  exact Postorder.exists_run_recursive t ht.isTree hl hbound hdeep

/-- The recursion does what the loop does, unless a visit stops it. -/
theorem wlp_forEachNodePostorder {visit : Hash → M (Tree A) Unit} {shouldVisit : BlockIndex A → Bool} (n : Nat)
    (h : Hash) (t : Tree A) :
    wlp (forEachNodePostorder visit shouldVisit n h) (fun _ t' =>
      t' = (postorderLoop (fun x => finalState (visit x)) (fun u c => (u.find? c).any shouldVisit)).recursive n h t) t := by
  induction n generalizing h t with
  | zero => rfl
  | succ n ih =>
    simp only [forEachNodePostorder, wlp_bind, wlp_get]
    apply wlp_mono (wlp_forEach_foldl (fun c u => ih c u) _ t)
    intro _ t' ht'
    apply wlp_mono (wlp_finalState (visit h) t')
    intro _ t'' ht''
    rw [ht'', ht']
    rfl

variable [BlockAddon A]

theorem memory_deallocate (obr : BlockIndex A → Tree A → Tree A) (shouldVisit : Tree A → Hash → Bool) (root : Hash)
    (t : Tree A) (k : Nat) :
    ((postorderLoop (deallocateNode obr) shouldVisit).run k (.start root t)).memory =
      ((postorderLoop (deallocateNode obr) shouldVisit).run k (.start root t)).visited.foldl (deallocateBlock obr) t := by
  rw [Postorder.memory_run (m := t) rfl]
  congr
  funext u x
  exact deallocateNode_eq obr x u

/-- The loop of `deallocateTree` leaves the tree that `deallocateTree` returns. -/
theorem WF.deallocateTree_eq_loop (ht : t.WF) (hobr : OnlyPayloadsIndex obr)
    (hlast : (t.chainTo x).getLast? = some root) :
    ∃ k, ((postorderLoop (deallocateNode obr) (fun _ _ => true)).run k (.start root t)).stack = [] ∧
      ((postorderLoop (deallocateNode obr) (fun _ _ => true)).run k (.start root t)).memory = t.deallocateTree obr x := by
  obtain ⟨k, hstack, _, hvisited⟩ := ht.exists_run_recursive root (local_deallocateNode hobr)
  refine ⟨k, hstack, ?_⟩
  rw [memory_deallocate, hvisited (fun _ _ => rfl), deallocateTree, hlast]

/-- A block that is about to be freed is still there, and has no children left. -/
theorem WF.deallocateTree_leaf (ht : t.WF) (hobr : OnlyPayloadsIndex obr) (hb : t.find? root = some b) (k : Nat)
    {stack : List Hash}
    (hs : ((postorderLoop (deallocateNode obr) (fun _ _ => true)).run k (.start root t)).stack = x :: stack)
    (hx : x ∈ ((postorderLoop (deallocateNode obr) (fun _ _ => true)).run k (.start root t)).keys) :
    ((postorderLoop (deallocateNode obr) (fun _ _ => true)).run k (.start root t)).memory.find? x ≠ none ∧
      ((postorderLoop (deallocateNode obr) (fun _ _ => true)).run k (.start root t)).memory.pnext x = [] := by
  have hlocal : (postorderLoop (deallocateNode obr) (fun _ _ => true)).Local := local_deallocateNode hobr
  have hmemory := memory_deallocate obr (fun _ _ => true) root t k
  have hinv : (postorderLoop (deallocateNode obr) (fun _ _ => true)).Inv t.pnext root
      ((postorderLoop (deallocateNode obr) (fun _ _ => true)).run k (.start root t)) :=
    Postorder.inv_start.run ht.isTree hlocal k
  generalize (postorderLoop (deallocateNode obr) (fun _ _ => true)).run k (.start root t) = s at *
  have hr := foldl_deallocateBlock_restricts hobr ht.nodup s.visited
  rw [← hmemory] at hr
  have hmem : x ∈ s.stack := by
    rw [hs]
    exact List.mem_cons_self
  constructor
  . rw [hr.kept (hinv.disjoint x hmem)]
    have hbelow := (ht.below_iff hb).mp (hinv.below (.inl hmem))
    intro hnone
    rw [chainTo_of_none hnone] at hbelow
    cases hbelow
  . rw [List.eq_nil_iff_forall_not_mem]
    intro c hc
    obtain ⟨bc, hfind, hp⟩ := (Store.mem_keysWhere hr.nodup).mp hc
    obtain ⟨hkeep, hbc⟩ := hr.of_find? hfind
    have hchild : c ∈ t.pnext x := ht.mem_pnext.mpr ⟨bc, hbc, of_decide_eq_true hp⟩
    -- the children of an expanded block were visited, so that they are gone
    obtain ⟨m, hm⟩ := Postorder.State.mem_keys_iff.mp hx
    apply hkeep
    apply hinv.visited_of_top hs
    refine ⟨m, hm, List.mem_filter.mpr ⟨?_, rfl⟩⟩
    have hnext : (postorderLoop (deallocateNode obr) (fun _ _ => true)).next m x = t.pnext x :=
      hinv.next_expanded (x, m) hm
    rw [hnext]
    exact hchild

/-- The loop of `removeSubtree` leaves the blocks that `deleteSubtree` leaves. -/
theorem WF.deleteSubtree_eq_loop (ht : t.WF) (hobr : OnlyPayloadsIndex obr) (root prev : Hash) :
    ∃ k, ((postorderLoop (removeNode obr) (fun u c => (u.find? c).any (fun next => !next.isDeleted))).run k
          (.start root t)).stack = [] ∧
      wlp (deleteSubtree obr root prev) (fun _ t' =>
        t' = ((postorderLoop (removeNode obr) (fun u c => (u.find? c).any (fun next => !next.isDeleted))).run k
          (.start root t)).memory.tryAddTip prev) t := by
  have hlocal : (postorderLoop (removeNode obr) (fun u c => (u.find? c).any (fun next => !next.isDeleted))).Local :=
    local_removeNode hobr
  obtain ⟨k, hstack, hmemory, _⟩ := ht.exists_run_recursive root hlocal
  refine ⟨k, hstack, ?_⟩
  simp only [deleteSubtree, wlp_bind, wlp_get]
  apply wlp_mono (wlp_forEachNodePostorder (t.maxHeight + 1) root t)
  intro _ t' ht'
  rw [ht', hmemory]
  rfl

end Links

section Complete

variable [BlockAddon A] {t : Tree A} {root : Hash} {b : BlockIndex A}

end Complete

end Tree

namespace Small

end Small

end AltIntegration
