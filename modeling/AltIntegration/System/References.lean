import Mathlib.Algebra.Order.Group.Multiset
import AltIntegration.Blockchain.Lemmas.AddBlock
import AltIntegration.Control.Ledger
import AltIntegration.System.Work

/-!
This module contains the references to the blocks of a proof-of-work tree. They outlive everything but their own
removal and the deletion of the block, and a deleted block has none.
-/

namespace AltIntegration

open Program BlockIndex

/--
The references to a block as a list: a tree may tell them apart by the height at which they were made, or only count
them.
-/
class RefAddon (A : Type) [PowAddon A] where
  refs : A → List Nat
  label : Nat → Nat
  refs_empty : refs BlockAddon.empty = []
  refs_setNull : ∀ a, refs (BlockAddon.setNull a) = []
  refs_setChainWork : ∀ w a, refs (PowAddon.setChainWork w a) = refs a
  refs_setBlockOfProofEndorsements : ∀ l a, refs (PowAddon.setBlockOfProofEndorsements l a) = refs a
  refs_addRef : ∀ n a, (refs (PowAddon.addRef n a)).Perm (label n :: refs a)
  refs_removeRef : ∀ n a a', PowAddon.removeRef n a = some a' → (refs a).Perm (label n :: refs a')
  refs_eq_nil : ∀ a, PowAddon.refCount a = 0 → refs a = []

instance : RefAddon BtcAddon where
  refs := (·.refs)
  label n := n
  refs_empty := rfl
  refs_setNull _ := rfl
  refs_setChainWork _ _ := rfl
  refs_setBlockOfProofEndorsements _ _ := rfl
  refs_addRef n a := List.perm_append_singleton n a.refs
  refs_removeRef n a a' h := by
    simp only [PowAddon.removeRef, Option.ite_none_right_eq_some, Option.some.injEq] at h
    rw [← h.2]
    exact List.perm_cons_erase h.1
  refs_eq_nil _ := List.length_eq_zero_iff.mp

instance : RefAddon VbkAddon where
  refs a := List.replicate a.refCount 0
  label _ := 0
  refs_empty := rfl
  refs_setNull _ := rfl
  refs_setChainWork _ _ := rfl
  refs_setBlockOfProofEndorsements _ _ := rfl
  refs_addRef _ a := .of_eq List.replicate_succ
  refs_removeRef n a a' h := by
    simp only [PowAddon.removeRef, Option.ite_none_right_eq_some, Option.some.injEq] at h
    rw [← h.2, ← List.replicate_succ]
    show (List.replicate a.refCount 0).Perm (List.replicate (a.refCount - 1 + 1) 0)
    rw [Nat.sub_add_cancel h.1]
  refs_eq_nil a h := by
    have h : a.refCount = 0 := h
    rw [h]
    rfl

section Total

variable {A γ ν : Type} [AddCommMonoid ν] {g : BlockIndex A → γ} {f : Hash → γ → ν} {t t' : Tree A} {h : Hash} {b : BlockIndex A}

namespace Tree

/-- The sum of `f` over the blocks, of which it sees what `g` tells -/
def total (g : BlockIndex A → γ) (f : Hash → γ → ν) (t : Tree A) : ν :=
  Program.total (fun x => (t.find? x).elim 0 (fun b => f x (g b))) t.blocks.keys

theorem total_congr (hs : t.SameOn g t') : t'.total g f = t.total g f := by
  unfold total
  rw [hs.keys]
  refine Program.total_congr (fun x _ => ?_)
  have hx := congrArg (fun o => Option.elim o 0 (f x)) (hs.same x)
  rw [Option.elim_map, Option.elim_map] at hx
  exact hx

/-- What changes at one block changes the sum. -/
theorem total_replace {b' : BlockIndex A} {n m : ν} (hn : t.blocks.keys.Nodup) (hkeys : t'.blocks.keys = t.blocks.keys)
    (hb : t.find? h = some b) (hb' : t'.find? h = some b') (hf : f h (g b') + n = f h (g b) + m)
    (hother : ∀ x, x ≠ h → (t'.find? x).map g = (t.find? x).map g) : t'.total g f + n = t.total g f + m := by
  unfold total
  rw [hkeys]
  refine Program.total_replace hn (Store.mem_keys_of_find? hb) ?_ (fun x _ hx => ?_)
  . rw [hb, hb']
    exact hf
  . have hx := congrArg (fun o => Option.elim o 0 (f x)) (hother x hx)
    rw [Option.elim_map, Option.elim_map] at hx
    exact hx

/-- A new block of which nothing is counted -/
theorem total_create [BlockAddon A] {header : Block} {prev : BlockIndex A} (hnew : t.find? header.hash = none)
    (hf : f header.hash (g (BlockIndex.create header prev)) = 0) : (t.createBlockIndex header prev).total g f = t.total g f := by
  have hfresh : ∀ x ∈ t.blocks.keys, x ≠ header.hash :=
    fun x hx heq => (Store.find?_eq_none_iff _ _).mp hnew (heq ▸ hx)
  have hhead : (t.createBlockIndex header prev).find? header.hash = some (.create header prev) := by
    rw [find?_createBlockIndex, if_pos rfl]
  have htail : ∀ x ∈ t.blocks.keys, ((t.createBlockIndex header prev).find? x).elim 0 (fun b => f x (g b)) =
      (t.find? x).elim 0 (fun b => f x (g b)) := by
    intro x hx
    rw [find?_createBlockIndex, if_neg (Ne.symm (hfresh x hx))]
  show ((t.createBlockIndex header prev).find? header.hash).elim 0 (fun b => f header.hash (g b)) +
    Program.total _ t.blocks.keys = Program.total _ t.blocks.keys
  rw [hhead, Program.total_congr htail]
  show f header.hash (g (.create header prev)) + _ = _
  rw [hf, zero_add]

end Tree

end Total

variable {A : Type} [PowAddon A] [RefAddon A] {p : BlockTreeParams} {t t' t'' : Tree A} {h x : Hash} {b : BlockIndex A} {n : Nat}

namespace Tree

/-- All references, each with the block that it is a reference to -/
def references (t : Tree A) : Multiset (Hash × Nat) :=
  t.total (fun b => RefAddon.refs b.addon) (fun x refs => Multiset.map (fun n => (x, n)) (Multiset.ofList refs))

theorem references_congr (hs : t.SameOn (fun b => RefAddon.refs b.addon) t') : t'.references = t.references := total_congr hs

/-- The references to the block `x` -/
def refsAt (t : Tree A) (x : Hash) : List Nat := (t.find? x).elim [] (fun b => RefAddon.refs b.addon)

/-- A deleted block has no references. -/
def Freed (t : Tree A) : Prop := ∀ ⦃x b⦄, t.find? x = some b → b.status.deleted = true → RefAddon.refs b.addon = []

theorem refsAt_congr (hs : t.SameOn (fun b => RefAddon.refs b.addon) t') : t'.refsAt = t.refsAt := by
  funext x
  have hx := hs.same x
  unfold refsAt
  cases hb : t.find? x with
  | none =>
    rw [hb, Option.map_none, Option.map_eq_none_iff] at hx
    rw [hx]
  | some b =>
    obtain ⟨b', hb', heq⟩ := hs.symm.find? hb
    rw [hb']
    exact heq

theorem count_references (ht : t.blocks.keys.Nodup) : t.references.count (x, n) = (t.refsAt x).count n := by
  have hcount : ∀ l : List Hash, l.Nodup →
      (Program.total (fun y => Multiset.map (fun n => (y, n)) (Multiset.ofList (t.refsAt y))) l).count (x, n) =
        if x ∈ l then (t.refsAt x).count n else 0 := by
    intro l hl
    induction l with
    | nil => rfl
    | cons y l ih =>
      obtain ⟨hy, hl⟩ := List.nodup_cons.mp hl
      show Multiset.count _ (_ + _) = _
      rw [Multiset.count_add, ih hl]
      by_cases heq : x = y
      . subst heq
        have hinj : Function.Injective (fun n : Nat => (x, n)) := fun _ _ heq => (Prod.mk.inj heq).2
        rw [if_neg hy, if_pos List.mem_cons_self, Nat.add_zero]
        exact (Multiset.count_map_eq_count' _ (Multiset.ofList (t.refsAt x)) hinj n).trans (Multiset.coe_count n _)
      . have hnone : (Multiset.map (fun n => (y, n)) (Multiset.ofList (t.refsAt y))).count (x, n) = 0 := by
          rw [Multiset.count_eq_zero, Multiset.mem_map]
          rintro ⟨_, _, heq'⟩
          exact heq (Prod.mk.inj heq').1.symm
        rw [hnone, Nat.zero_add]
        simp only [heq, List.mem_cons, false_or]
  have htotal : t.references = Program.total (fun y => Multiset.map (fun n => (y, n)) (Multiset.ofList (t.refsAt y)))
      t.blocks.keys := by
    refine Program.total_congr (fun y _ => ?_)
    unfold refsAt
    cases t.find? y with
    | none => rfl
    | some b => rfl
  rw [htotal, hcount _ ht]
  split
  . rfl
  . next hx =>
    unfold refsAt Tree.find?
    rw [(Store.find?_eq_none_iff _ _).mpr hx]
    rfl

theorem mem_references (ht : t.blocks.keys.Nodup) : (x, n) ∈ t.references ↔ n ∈ t.refsAt x := by
  rw [← Multiset.count_pos, count_references ht, List.count_pos_iff]

theorem references_of_refsAt (ht : t.blocks.keys.Nodup) (ht' : t'.blocks.keys.Nodup) (hrefs : t'.refsAt = t.refsAt) :
    t'.references = t.references := by
  refine Multiset.ext.mpr (fun e => ?_)
  rw [count_references ht, count_references ht', hrefs]

/-- The references to one block change. -/
theorem references_update {f : A → A} {r r' : Multiset (Hash × Nat)} (ht : t.blocks.keys.Nodup) (hb : t.find? h = some b)
    (hf : Multiset.map (fun n => (h, n)) (Multiset.ofList (RefAddon.refs (f b.addon))) + r =
      Multiset.map (fun n => (h, n)) (Multiset.ofList (RefAddon.refs b.addon)) + r') :
    (t.updateAddon h f).references + r = t.references + r' := by
  have hself : (t.updateAddon h f).find? h = some (b.setAddon (f b.addon)) := by
    unfold updateAddon
    rw [find?_update_self, hb]
    rfl
  refine total_replace ht (Store.keys_modify _ _ _) hb hself hf (fun x hx => ?_)
  unfold updateAddon
  rw [find?_update_of_ne (Ne.symm hx)]

theorem references_addRef (ht : t.blocks.keys.Nodup) (hb : t.find? h = some b) :
    (t.updateAddon h (PowAddon.addRef n)).references = t.references + {(h, RefAddon.label A n)} := by
  refine (add_zero _).symm.trans (references_update ht hb ?_)
  rw [Multiset.coe_eq_coe.mpr (RefAddon.refs_addRef n b.addon), ← Multiset.cons_coe, Multiset.map_cons, add_zero, add_comm,
    Multiset.singleton_add]

theorem references_removeRef {a : A} (ht : t.blocks.keys.Nodup) (hb : t.find? h = some b)
    (ha : PowAddon.removeRef n b.addon = some a) :
    (t.updateAddon h (fun _ => a)).references + {(h, RefAddon.label A n)} = t.references := by
  refine (references_update ht hb ?_).trans (add_zero _)
  rw [Multiset.coe_eq_coe.mpr (RefAddon.refs_removeRef n b.addon a ha), ← Multiset.cons_coe, Multiset.map_cons, add_zero, add_comm,
    Multiset.singleton_add]

/-- Blocks may have been restored, with the references that they had. -/
structure Restores (t t' : Tree A) : Prop where
  refs : t.SameOn (fun b => RefAddon.refs b.addon) t'
  deleted : ∀ ⦃x b b'⦄, t.find? x = some b → t'.find? x = some b' → b'.status.deleted = true → b.status.deleted = true

namespace Restores

theorem trans (h : t.Restores t') (h' : t'.Restores t'') : t.Restores t'' := by
  refine ⟨h.refs.trans h'.refs, fun x b b'' hb hb'' hd => ?_⟩
  obtain ⟨b', hb', _⟩ := h'.refs.find? hb''
  exact h.deleted hb hb' (h'.deleted hb' hb'' hd)

theorem of_blocks_eq (hblocks : t'.blocks = t.blocks) : t.Restores t' := by
  refine ⟨.of_blocks_eq hblocks, fun x b b' hb hb' hd => ?_⟩
  unfold Tree.find? at hb hb'
  rw [hblocks, hb] at hb'
  cases hb'
  exact hd

theorem update {f : BlockIndex A → BlockIndex A} (hrefs : ∀ b, RefAddon.refs (f b).addon = RefAddon.refs b.addon)
    (hd : ∀ b, (f b).status.deleted = true → b.status.deleted = true) : t.Restores (t.update h f) := by
  refine ⟨.update t h (fun b _ => hrefs b), fun x b b' hb hb' hd' => ?_⟩
  rw [find?_update] at hb'
  split at hb'
  . rw [hb] at hb'
    cases hb'
    exact hd b hd'
  . rw [hb] at hb'
    cases hb'
    exact hd'

theorem setStatus (t : Tree A) (h : Hash) (s : BlockStatus → BlockStatus) (hd : ∀ u, (s u).deleted = true → u.deleted = true) :
    t.Restores (t.update h (fun b => b.setStatus (s b.status))) := by
  refine .update (fun b => ?_) (fun b hb => hd b.status ?_)
  . rw [setStatus_addon]
  . rw [setStatus_status] at hb
    exact hb

theorem onBlockInserted (t : Tree A) : t.Restores (Tree.onBlockInserted p h t) :=
  .update (fun b => RefAddon.refs_setChainWork _ b.addon) (fun _ => id)

theorem freed (hs : t.Restores t') (ht : t.Freed) : t'.Freed := by
  intro x b' hb' hd
  obtain ⟨b, hb, heq⟩ := hs.refs.find? hb'
  rw [← heq]
  exact ht hb (hs.deleted hb hb' hd)

theorem present (hs : t.Restores t') (hp : t.Present h) : t'.Present h := by
  obtain ⟨b, hb, hd⟩ := hp
  obtain ⟨b', hb', _⟩ := hs.refs.symm.find? hb
  refine ⟨b', hb', ?_⟩
  rw [← Bool.not_eq_true]
  intro hd'
  rw [hs.deleted hb hb' hd'] at hd
  cases hd

end Restores

theorem Freed.congr (ht : t.Freed) (hs : t.SameOn (fun b => (b.status.deleted, RefAddon.refs b.addon)) t') : t'.Freed := by
  intro x b' hb' hd
  obtain ⟨b, hb, heq⟩ := hs.find? hb'
  obtain ⟨hdel, hrefs⟩ := Prod.mk.inj heq
  rw [← hrefs]
  exact ht hb (hdel.trans hd)

/-- A block that is not deleted may get references. -/
theorem Freed.update {f : A → A} (ht : t.Freed) (hf : ∀ b, t.find? h = some b → b.status.deleted = true →
    RefAddon.refs (f b.addon) = []) : (t.updateAddon h f).Freed := by
  intro x b hb hd
  unfold updateAddon at hb
  rw [find?_update] at hb
  split at hb
  . next heq =>
    subst heq
    obtain ⟨b₀, hb₀, rfl⟩ := Option.map_eq_some_iff.mp hb
    exact hf b₀ hb₀ hd
  . exact ht hb hd

/-- What the insertion of the block `h` does to references -/
structure Inserts (h : Hash) (ok : Bool) (t t' : Tree A) : Prop where
  refsAt : t'.refsAt = t.refsAt
  freed : t.Freed → t'.Freed
  present : ok = true → t'.Present h

theorem Inserts.refused (t : Tree A) : t.Inserts h false t := ⟨rfl, id, (by cases ·)⟩

theorem Inserts.restores {ok : Bool} (ht : t.Inserts h true t') (hs : t'.Restores t'') : t.Inserts h ok t'' :=
  ⟨(refsAt_congr hs.refs).trans ht.refsAt, fun hf => hs.freed (ht.freed hf), fun _ => hs.present (ht.present rfl)⟩

theorem refsAt_createBlockIndex {header : Block} {prev : BlockIndex A} (hnew : t.find? header.hash = none) :
    (t.createBlockIndex header prev).refsAt = t.refsAt := by
  funext x
  unfold refsAt
  rw [find?_createBlockIndex]
  split
  . next heq =>
    subst heq
    rw [hnew]
    exact RefAddon.refs_empty
  . rfl

theorem Freed.create {header : Block} {prev : BlockIndex A} (ht : t.Freed) : (t.createBlockIndex header prev).Freed := by
  intro x b hb hd
  rcases find?_createBlockIndex_cases hb with ⟨_, rfl⟩ | hb
  . exact RefAddon.refs_empty
  . exact ht hb hd

end Tree

section Programs

variable {block : PowBlock}

/-- A deleted block without references -/
theorem Tree.refsAt_deleted {obr : BlockIndex A → Tree A → Tree A} {prev : Hash} (hobr : Tree.OnlyPayloadsIndex obr)
    (hrefs : t.refsAt h = []) :
    ((((obr b t).eraseTip h).update h (·.deleteTemporarily)).tryAddTip prev).refsAt = t.refsAt := by
  funext x
  unfold refsAt at hrefs ⊢
  rw [Tree.find?_deleted hobr]
  split
  . next heq =>
    subst heq
    rw [hrefs]
    cases t.find? h with
    | none => rfl
    | some b => exact RefAddon.refs_setNull b.addon
  . rfl

theorem wlp_raiseValidity_restores {upTo : BlockStateStatus} : wlp (raiseValidity h upTo) (fun _ t' => t.Restores t') t := by
  cases hb : t.find? h with
  | none => simp [raiseValidity, wlp_derefBlock, hb]
  | some b => exact wlp_raiseValidity hb (fun _ => .of_blocks_eq rfl) (fun _ _ => .update (fun _ => rfl) (fun _ => id))

theorem wlp_insertRestored_inserts : wlp (insertBlockHeader.insertRestored (Tree.onBlockInserted p) block.toBlock)
    (fun _ t' => t.Inserts block.getHash true t') t := by
  simp only [insertBlockHeader.insertRestored, restore, wlp_bind, wlp_derefBlock, wlp_check, wlp_when, wlp_modify, wlp_modifyBlock,
    wlp_pure]
  intro b hb _
  have hinsert : ∀ {t1 : Tree A}, t1.blocks = t.blocks →
      wlp (raiseValidity block.toBlock.hash .validTree) (fun _ t' => t.Inserts block.getHash true t') (Tree.onBlockInserted p
        block.toBlock.hash ((t1.update block.toBlock.hash (fun b => b.unsetFlag .deleted)).tryAddTip block.toBlock.hash)) := by
    intro t1 hblocks
    have hrestored : t1.Restores (t1.update block.toBlock.hash (fun b => b.unsetFlag .deleted)) :=
      .setStatus t1 _ (·.assign false .deleted) (fun _ => (by cases ·))
    have hfirst : t.Inserts block.getHash true (t1.update block.toBlock.hash (fun b => b.unsetFlag .deleted)) := by
      have hall := (Tree.Restores.of_blocks_eq hblocks).trans hrestored
      refine ⟨Tree.refsAt_congr hall.refs, hall.freed, fun _ => ⟨b.unsetFlag .deleted, ?_, ?_⟩⟩
      . unfold Tree.find? at hb ⊢
        rw [show (t1.update _ _).blocks = t1.blocks.modify _ _ from rfl, hblocks]
        show ((t.blocks.modify block.toBlock.hash _).find? block.toBlock.hash) = _
        rw [Store.find?_modify_self, hb]
        rfl
      . rw [unsetFlag_status]
        rfl
    refine wlp_mono wlp_raiseValidity_restores (fun _ t' ht' => hfirst.restores ?_)
    exact Tree.Restores.trans (.of_blocks_eq Tree.tryAddTip_blocks) (.trans (.onBlockInserted _) ht')
  exact ⟨fun _ => hinsert rfl, fun _ => hinsert rfl⟩

theorem wlp_insertBlockHeader_inserts : wlp (insertBlockHeader (Tree.onBlockInserted p) block.toBlock)
    (fun _ t' => t.Inserts block.getHash true t') t := by
  simp only [insertBlockHeader, wlp_bind, wlp_check, wlp_get]
  intro _
  split
  . next b hb =>
    simp only [wlp_ite, wlp_bind, wlp_check, wlp_pure]
    refine ⟨fun _ _ => wlp_insertRestored_inserts, fun hd => ⟨rfl, id, fun _ => ⟨b, hb, ?_⟩⟩⟩
    rw [Bool.not_eq_true] at hd
    exact hd
  . next hnew =>
    simp only [doInsertBlockHeader, wlp_bind, wlp_get, wlp_getOrStop, wlp_modify]
    intro prev _
    refine wlp_mono wlp_insertRestored_inserts (fun _ t' ht' => ?_)
    exact ⟨ht'.refsAt.trans (Tree.refsAt_createBlockIndex hnew), fun hf => ht'.freed hf.create, ht'.present⟩

/-- The references to a block that is inserted again are those that it had. -/
theorem wlp_validateAndAddBlock_inserts (ctx : Bool) :
    wlp (validateAndAddBlock p block ctx) (fun ok t' => t.Inserts block.getHash ok t') t := by
  simp only [validateAndAddBlock, wlp_bind, wlp_get, wlp_ite, wlp_pure]
  refine ⟨fun _ => .refused t, fun _ => ?_⟩
  split
  . exact .refused t
  . simp only [wlp_bind, wlp_getOrStop, wlp_ite, wlp_pure]
    intro _ _
    refine ⟨fun _ => .refused t, fun _ => wlp_mono wlp_insertBlockHeader_inserts (fun _ t1 ht1 => ?_)⟩
    refine wlp_mono wlp_raiseValidity_restores (fun _ t2 ht2 => ⟨fun _ => ?_, fun _ => ht1.restores ht2⟩)
    simp only [wlp_modifyBlock, wlp_modify]
    have hfail : t2.Restores (t2.update block.getHash (fun b => b.setFlag .failedChild)) :=
      .setStatus t2 _ (·.assign true .failedChild) (fun _ => id)
    exact ht1.restores (ht2.trans (hfail.trans (.of_blocks_eq rfl)))

theorem wlp_deleteSubtree_freed {obr : BlockIndex A → Tree A → Tree A} {prev : Hash} (hobr : Tree.OnlyPayloadsIndex obr) (ht : t.Freed) :
    wlp (deleteSubtree obr h prev) (fun _ t' => t'.Freed) t := by
  have hdelete : ∀ c, Keeps (fun _ : Unit => Tree.Freed) (fun _ _ => True) (deleteLeaf obr c) := by
    intro c _ t1 ht1
    show wlp _ _ _
    simp only [deleteLeaf, wlp_bind, wlp_derefBlock, wlp_modify, wlp_check, wlp_modifyBlock]
    intro b _ _ x b' hb' hd
    obtain ⟨f, g, hf⟩ := hobr b
    rw [Tree.find?_update, hf] at hb'
    split at hb'
    . obtain ⟨b₀, _, rfl⟩ := Option.map_eq_some_iff.mp hb'
      exact RefAddon.refs_setNull b₀.addon
    . exact ht1 hb' hd
  simp only [deleteSubtree, wlp_bind, wlp_get, wlp_modify]
  refine wlp_mono (forEachNodePostorder_keeps hdelete _ h () t ht) (fun _ t1 ht1 => ?_)
  exact (Tree.Restores.of_blocks_eq Tree.tryAddTip_blocks).freed ht1

end Programs

/-- The work of the blocks is counted, and the references of the deleted blocks are gone. -/
structure Tree.Accounted (p : BlockTreeParams) (t : Tree A) : Prop extends t.Worked p where
  freed : t.Freed

namespace Tree.Accounted

theorem congr (ht : t.Accounted p) (hs : t.SameOn (fun b => (b.labour, RefAddon.refs b.addon)) t') : t'.Accounted p :=
  ⟨ht.toWorked.congr (hs.comp Prod.fst), ht.freed.congr (hs.comp (fun u => (u.1.2.1, u.2)))⟩

variable [LawfulPowAddon A]

theorem addRef {n : Nat} (ht : t.Accounted p) (hb : t.find? h = some b) (hd : b.status.deleted = false) :
    (t.updateAddon h (PowAddon.addRef n)).Accounted p := by
  refine ⟨ht.toWorked.congr (.update t h (fun b _ => ?_)), ht.freed.update (fun b' hb' hd' => ?_)⟩
  . exact labour_eq_iff.mpr ⟨rfl, rfl, LawfulPowAddon.chainWork_addRef n b.addon⟩
  . rw [hb] at hb'
    cases hb'
    rw [hd] at hd'
    cases hd'

theorem removeRef {n : Nat} {a : A} (ht : t.Accounted p) (hb : t.find? h = some b) (ha : PowAddon.removeRef n b.addon = some a) :
    (t.updateAddon h (fun _ => a)).Accounted p := by
  refine ⟨ht.toWorked.congr (.update t h (fun b' hb' => ?_)), ht.freed.update (fun b' hb' hd => ?_)⟩
  . rw [hb] at hb'
    cases hb'
    exact labour_eq_iff.mpr ⟨rfl, rfl, LawfulPowAddon.chainWork_removeRef n _ _ ha⟩
  . rw [hb] at hb'
    cases hb'
    have hperm := RefAddon.refs_removeRef n b.addon a ha
    rw [ht.freed hb hd] at hperm
    cases hperm.nil_eq

theorem wlp_validateAndAddBlock {block : PowBlock} (ht : t.Accounted p) (ctx : Bool) :
    wlp (validateAndAddBlock p block ctx) (fun _ t' => t'.Accounted p) t := by
  refine wlp_mono (wlp_and (wlp_validateAndAddBlock_worked ht.toWorked ctx) (wlp_validateAndAddBlock_inserts ctx)) ?_
  exact fun _ _ h => ⟨h.1, h.2.freed ht.freed⟩

omit [LawfulPowAddon A] in
theorem wlp_deleteSubtree {obr : BlockIndex A → Tree A → Tree A} {prev : Hash} (hobr : Tree.OnlyPayloadsIndex obr)
    (ht : t.Accounted p) (hh : t.IsChild h prev) : wlp (deleteSubtree obr h prev) (fun _ t' => t'.Accounted p) t := by
  refine wlp_mono (wlp_and (wlp_deleteSubtree_worked hobr ht.toWorked hh) (wlp_deleteSubtree_freed hobr ht.freed)) ?_
  exact fun _ _ h => ⟨h.1, h.2⟩

end Tree.Accounted

end AltIntegration
