import AltIntegration.Blockchain.Runs
import AltIntegration.Blockchain.Lemmas.AltTree

/-!
This module contains the invariants of the three trees over whole runs: failure flags are inherited
exactly, validity levels do not grow towards the leaves, and the tips are exact. All of them are lost
when a soft-deleted block that carries `BLOCK_FAILED_POP` is inserted again.
-/

namespace AltIntegration

open Program BlockIndex

variable (cfg : Config)

section OnTree

variable {σ A : Type} [BlockAddon A] {c : TreeClass σ A} {a : Around c.tree}

theorem withBlock_keeps {h : Hash} {m : M σ Unit} (hm : Keeps a.Holds a.Stops m) :
    Keeps a.Holds a.Stops (withBlock c h m) :=
  .bind TreeClass.Lawful.getTree (fun _ => .bind (Around.check_keeps (by decide)) (fun _ => hm))

theorem withBlock_invalidateSubtree_keeps (hc : c.Lawful a) (h : Hash) (r : BlockValidityStatus) (f : Bool) :
    Keeps a.Holds a.Stops (withBlock c h (invalidateSubtree c h r f)) := by
  intro i s hs
  simp only [withBlock, TreeClass.getTree, wp_bind, wp_get, wp_pure, wp_check]
  refine ⟨fun hsome => ?_, fun _ => .of_ne (by decide) s⟩
  obtain ⟨b, hb⟩ := Option.isSome_iff_exists.mp hsome
  obtain ⟨hfind, hd⟩ := Tree.getBlockIndex_eq_some.mp hb
  exact hc.invalidateSubtree_settles r f ⟨hs.1.unsettle h, hs.2⟩ (.inr ⟨b, hfind, hd⟩)

end OnTree

/-- All three trees are sane. -/
abbrev Sane (s : AltState) : Prop := altAround.Holds .any s

/-- A program keeps the three trees sane. -/
abbrev KeepsSane {α : Type} (m : M AltState α) : Prop := Keeps (fun _ : Unit => Sane) altAround.Stops m

namespace Op

theorem onVbk_keeps {α : Type} {m : M VbkState α}
    (hm : Keeps (fun _ : Unit => vbkAround.Holds .pow) vbkAround.Stops m) : KeepsSane (onVbk m) :=
  .bind ((Around.Frame.keeps (AltBlockTree.zoom_sp hm)).fix _) (fun _ => .pure _)

theorem onBtc_keeps {α : Type} {m : M (Tree BtcAddon) α}
    (hm : Keeps (fun _ : Unit => (btcAround cfg).Holds .pow) (btcAround cfg).Stops m) : KeepsSane (onBtc m) :=
  onVbk_keeps ((Around.Frame.keeps (VbkBlockTree.zoom_btc cfg hm)).fix _)

theorem setStateByHash_keeps (h : Hash) : Keeps vbkAround.Holds vbkAround.Stops (setStateByHash cfg h) := by
  refine .bind .get (fun _ => ?_)
  split
  . exact .pure _
  . exact VbkBlockTree.setState_keeps cfg h

/-- Every call keeps the trees sane. -/
theorem exec_keeps (op : Op) : KeepsSane (op.exec cfg) := by
  have halt := altClass_lawful cfg
  have hvbk := vbkClass_lawful cfg
  have hbtc := btcClass_lawful cfg
  cases op with
  | acceptBlockHeader b => exact .bind (AltBlockTree.acceptBlockHeader_keeps b) (fun _ => .pure _)
  | acceptBlock h p => exact (AltBlockTree.acceptBlock_keeps cfg h p).fix _
  | setState h => exact .bind ((AltBlockTree.setStateByHash_keeps cfg h).fix _) (fun _ => .pure _)
  | comparePopScore x y => exact .bind ((AltBlockTree.comparePopScore_keeps cfg x y).fix _) (fun _ => .pure _)
  | removePayloads h => exact (AltBlockTree.removePayloads_keeps cfg h).fix _
  | removeSubtree h => exact (withBlock_keeps (halt.removeSubtree h)).fix _
  | invalidateSubtree h r f => exact (withBlock_invalidateSubtree_keeps halt h r f).fix _
  | revalidateSubtree h r f => exact (withBlock_keeps (halt.revalidateSubtree h r f)).fix _
  | writePayloads p => exact .modify (fun _ _ hs => hs)
  | vbkAcceptBlockHeader b => exact onVbk_keeps (hvbk.acceptBlockHeader rfl b)
  | vbkAddPayloads h p => exact onVbk_keeps ((VbkBlockTree.addPayloads_keeps cfg h p).fix _)
  | vbkRemovePayloads h pids => exact onVbk_keeps ((VbkBlockTree.removePayloads_keeps cfg h pids).fix _)
  | vbkUnsafelyRemovePayload h pid f =>
    exact onVbk_keeps ((VbkBlockTree.unsafelyRemovePayload_keeps cfg h pid f).fix _)
  | vbkSetState h => exact onVbk_keeps ((setStateByHash_keeps cfg h).fix _)
  | vbkRemoveSubtree h => exact onVbk_keeps ((withBlock_keeps (hvbk.removeSubtree h)).fix _)
  | vbkRemoveLeaf h => exact onVbk_keeps ((withBlock_keeps (hvbk.removeLeaf h)).fix _)
  | vbkInvalidateSubtree h r f => exact onVbk_keeps ((withBlock_invalidateSubtree_keeps hvbk h r f).fix _)
  | vbkRevalidateSubtree h r f => exact onVbk_keeps ((withBlock_keeps (hvbk.revalidateSubtree h r f)).fix _)
  | btcAcceptBlockHeader b => exact onBtc_keeps cfg (hbtc.acceptBlockHeader rfl b)
  | btcRemoveSubtree h => exact onBtc_keeps cfg ((withBlock_keeps (hbtc.removeSubtree h)).fix _)
  | btcRemoveLeaf h => exact onBtc_keeps cfg ((withBlock_keeps (hbtc.removeLeaf h)).fix _)
  | btcInvalidateSubtree h r f => exact onBtc_keeps cfg ((withBlock_invalidateSubtree_keeps hbtc h r f).fix _)
  | btcRevalidateSubtree h r f => exact onBtc_keeps cfg ((withBlock_keeps (hbtc.revalidateSubtree h r f)).fix _)

end Op

section Bootstrap

theorem BlockStateStatus.le_canBeApplied (l : BlockStateStatus) : l ≤ .canBeApplied := by
  cases l with
  | _ => decide

/-- A tree with one block that is not failed. -/
theorem Tree.inv_singleton {A : Type} [BlockAddon A] {min : BlockStateStatus} {t : Tree A} {h : Hash}
    {b : BlockIndex A} (hblocks : t.blocks = Store.empty.insert h b) (htips : t.tips = [h])
    (hh : b.header.hash = h) (hp : b.pprev = none)
    (hst : b.status = { level := .canBeApplied, bootstrap := true, active := true }) : t.Inv min [] := by
  have hfind : ∀ {x b'}, t.find? x = some b' → h = x ∧ b' = b := by
    intro x b' hb'
    unfold Tree.find? at hb'
    rw [hblocks, Store.find?_insert] at hb'
    split at hb'
    . next heq => exact ⟨heq, (Option.some.inj hb').symm⟩
    . cases hb'
  have hroot : ∀ {x b' p}, t.find? x = some b' → b'.pprev = some p → False := by
    intro x b' p hb' hp'
    rw [(hfind hb').2, hp] at hp'
    cases hp'
  have hlive : t.Live h := by
    refine ⟨b, ?_, ?_⟩
    . unfold Tree.find?
      rw [hblocks, Store.find?_insert, if_pos rfl]
    . have hl := BlockStateStatus.le_canBeApplied (BlockAddon.validTipLevel A)
      simp [canBeATip, isDeleted, hasFlags, BlockStatus.hasFlags, isValid, BlockIndex.isFailed,
        BlockStatus.isFailed, isValidUpTo, hst, hl]
  refine ⟨⟨?_, ?_, ?_, ?_⟩, ?_, ?_, ?_, ?_, ?_⟩
  . rw [hblocks]
    simp [Store.keys, Store.insert, Store.empty]
  . intro x b' hb'
    rw [(hfind hb').2, hh]
    exact (hfind hb').1
  . exact fun hb' hp' => (hroot hb' hp').elim
  . exact fun hb' hp' => (hroot hb' hp').elim
  . intro x b' hb'
    rw [(hfind hb').2]
    constructor
    all_goals rw [hst]
    . exact (by cases ·)
    . exact fun _ => by decide
    . exact fun _ _ => BlockStateStatus.le_canBeApplied min
    . exact fun _ => by decide
    . exact (by cases ·)
  . exact fun x b' p bp hb' hp' => (hroot hb' hp').elim
  . exact fun x b' p bp hb' hp' => (hroot hb' hp').elim
  . intro x hx
    rw [htips, List.mem_singleton] at hx
    subst hx
    refine ⟨hlive, fun c hc => ?_⟩
    obtain ⟨bc, hbc, hpc⟩ := hc
    exact (hroot hbc hpc).elim
  . rintro x ⟨b', hb', _⟩ _
    rw [htips, ← (hfind hb').1]
    exact .inl (List.mem_singleton.mpr rfl)

theorem Tree.sane_bootstrap {A : Type} [PowAddon A] (p : BlockTreeParams) (block : PowBlock) (height : Nat) :
    (Tree.bootstrap p block height : Tree A).Sane .connected .pow := by
  refine .inr ⟨Tree.inv_singleton rfl rfl rfl rfl rfl, ?_, ?_⟩
  . intro x b hb
    unfold Tree.find? Tree.bootstrap at hb
    rw [Store.find?_insert] at hb
    split at hb
    . exact ⟨block, (Option.some.inj hb).symm ▸ rfl⟩
    . cases hb
  . intro x b y c hb _ hc
    unfold Tree.find? Tree.bootstrap at hb hc
    rw [Store.find?_insert] at hb hc
    split at hb
    . next hx =>
      split at hc
      . next hy => exact Nat.le_of_eq (hx.symm.trans hy)
      . cases hc
    . cases hb

theorem Bootstrap.sane_roots (b : Bootstrap) : Sane (b.roots cfg) :=
  ⟨.inr ⟨Tree.inv_singleton rfl rfl rfl rfl rfl, trivial⟩, Tree.sane_bootstrap _ _ _, Tree.sane_bootstrap _ _ _⟩

theorem Bootstrap.chains_keeps (b : Bootstrap) : KeepsSane (b.chains cfg) :=
  .bind (Op.onBtc_keeps cfg (.forEach ((btcClass_lawful cfg).bootstrapBlock rfl) _)) (fun _ =>
    Op.onVbk_keeps (.forEach ((vbkClass_lawful cfg).bootstrapBlock rfl) _))

end Bootstrap

variable {cfg}

/-- Whatever is called in whatever order, the trees stay sane. -/
theorem Reachable.sane {s : AltState} (hs : Reachable cfg s) : Sane s := by
  induction hs with
  | @bootstrap b _ h =>
    have hs := wp_ok (b.chains_keeps cfg () (b.roots cfg) (b.sane_roots cfg)) h
    exact hs
  | @step s _ op _ h ih =>
    have hs := wp_ok (op.exec_keeps cfg () s ih) h
    exact hs

/-- Every tree of a reachable state satisfies its invariant, unless it is spoiled. -/
theorem Reachable.inv {s : AltState} (hs : Reachable cfg s) :
    (¬s.alt.RestoredFailedPop → s.alt.Inv .validTree []) ∧
      (¬s.sp.vbk.RestoredFailedPop → s.sp.vbk.Inv .connected []) ∧
      (¬s.sp.btc.RestoredFailedPop → s.sp.btc.Inv .connected []) := by
  obtain ⟨halt, hvbk, hbtc⟩ := hs.sane
  exact ⟨fun h => (halt.resolve_left h).1, fun h => (hvbk.resolve_left h).1, fun h => (hbtc.resolve_left h).1⟩

namespace Tree

variable {A : Type} (t : Tree A)

/-- A block carries `BLOCK_FAILED_CHILD` if and only if its parent carries some failure flag. -/
def FlagsInherited : Prop :=
  ∀ x b p, t.find? x = some b → b.pprev = some p →
    ∃ bp, t.find? p = some bp ∧ (b.hasFlags .failedChild = true ↔ bp.isFailed = true)

/-- The level of a block that is not deleted is at most the level of its parent. -/
def LevelsDecrease : Prop :=
  ∀ x b p, t.find? x = some b → b.isDeleted = false → b.pprev = some p →
    ∃ bp, t.find? p = some bp ∧ b.status.level ≤ bp.status.level

/-- The tips are the blocks that are not deleted and are valid tips. -/
def TipsExact [BlockAddon A] : Prop :=
  ∀ x, x ∈ t.tips ↔ (t.getBlockIndex x).isSome = true ∧ t.isValidTip x = true

variable {t} [BlockAddon A] {min : BlockStateStatus}

theorem Inv.flagsInherited (ht : t.Inv min []) : t.FlagsInherited := by
  intro x b p hb hp
  obtain ⟨bp, hbp, _⟩ := ht.wf.parent hb hp
  refine ⟨bp, hbp, ?_⟩
  rw [← (ht.flags hb hp hbp).inherited (by simp)]
  rfl

theorem Inv.levelsDecrease (ht : t.Inv min []) : t.LevelsDecrease := by
  intro x b p hb _ hp
  obtain ⟨bp, hbp, _⟩ := ht.wf.parent hb hp
  exact ⟨bp, hbp, (ht.levels hb hp hbp).level⟩

theorem Inv.tipsExact (ht : t.Inv min []) : t.TipsExact := by
  intro x
  rw [ht.wf.isValidTip_iff]
  constructor
  . intro hx
    obtain ⟨hl, hc⟩ := ht.sound x hx
    refine ⟨?_, hl, fun c hcx => hc c hcx (by simp)⟩
    obtain ⟨b, hb, hl⟩ := hl
    simp only [canBeATip, Bool.and_eq_true, Bool.not_eq_true'] at hl
    rw [getBlockIndex_eq_some.mpr ⟨hb, hl.1⟩]
    rfl
  . rintro ⟨_, hl, hc⟩
    exact (ht.complete x hl hc).resolve_right (by simp)

end Tree

theorem Tree.not_restored {A : Type} {t : Tree A} (h : t.history = []) : ¬t.RestoredFailedPop := by
  rintro ⟨x, hx⟩
  rw [h] at hx
  cases hx

/--
In every reachable state failure flags are inherited exactly in each tree in which no soft-deleted block
with `BLOCK_FAILED_POP` has been inserted again.
-/
theorem flags_inherited {s : AltState} (hs : Reachable cfg s) :
    (¬s.alt.RestoredFailedPop → s.alt.FlagsInherited) ∧
      (¬s.sp.vbk.RestoredFailedPop → s.sp.vbk.FlagsInherited) ∧
      (¬s.sp.btc.RestoredFailedPop → s.sp.btc.FlagsInherited) :=
  ⟨fun h => (hs.inv.1 h).flagsInherited, fun h => (hs.inv.2.1 h).flagsInherited,
    fun h => (hs.inv.2.2 h).flagsInherited⟩

namespace Small

/-- Two blocks, of which the lower one is invalidated, deleted and inserted again. -/
def invalidated : List Op :=
  [.acceptBlockHeader (altBlock 2 1 1), .acceptBlockHeader (altBlock 3 2 2),
    .invalidateSubtree 2 .failedBlock true, .removeSubtree 2, .acceptBlockHeader (altBlock 2 1 1)]

theorem invalidated_not_restored : ¬(after invalidated).alt.RestoredFailedPop ∧
    ¬(after invalidated).sp.vbk.RestoredFailedPop ∧ ¬(after invalidated).sp.btc.RestoredFailedPop :=
  ⟨Tree.not_restored (by decide), Tree.not_restored (by decide), Tree.not_restored (by decide)⟩

theorem flags_inherited_invalidated :
    (after invalidated).alt.FlagsInherited ∧ (after invalidated).sp.vbk.FlagsInherited ∧
      (after invalidated).sp.btc.FlagsInherited ∧
      ((after invalidated).alt.find? 3).any (·.hasFlags .failedChild) = true := by
  have h := flags_inherited (reachable_after invalidated)
  obtain ⟨halt, hvbk, hbtc⟩ := invalidated_not_restored
  exact ⟨h.1 halt, h.2.1 hvbk, h.2.2 hbtc, by decide⟩

/--
The restored block gets no level, so that it counts as invalid also without its flag. The next
invalidation then stops at the block itself.
-/
def staleFlag : List Op :=
  [.acceptBlockHeader (altBlock 2 1 1), .acceptBlockHeader (altBlock 3 2 2),
    .invalidateSubtree 2 .failedPop true, .removeSubtree 2, .acceptBlockHeader (altBlock 2 1 1),
    .revalidateSubtree 2 .failedPop true, .invalidateSubtree 2 .failedBlock true]

theorem flags_not_inherited : ∃ s, Reachable config s ∧ ¬s.alt.FlagsInherited := by
  refine ⟨after staleFlag, reachable_after staleFlag, fun h => ?_⟩
  obtain ⟨b, hb⟩ := Option.isSome_iff_exists.mp
    (show ((after staleFlag).alt.find? 3).isSome = true by decide +kernel)
  have hp : ((after staleFlag).alt.find? 3).any (fun b => b.pprev = some 2 && !b.hasFlags .failedChild) = true := by
    decide +kernel
  rw [hb] at hp
  simp only [Option.any_some, Bool.and_eq_true, decide_eq_true_eq, Bool.not_eq_true'] at hp
  obtain ⟨bp, hbp, hiff⟩ := h 3 b 2 hb hp.1
  have hf : ((after staleFlag).alt.find? 2).any (·.isFailed) = true := by decide +kernel
  rw [hbp] at hf
  rw [hiff.mpr (by simpa using hf)] at hp
  cases hp.2

end Small

/--
In every reachable state validity levels do not grow towards the leaves of a tree in which no soft-deleted
block with `BLOCK_FAILED_POP` has been inserted again, and as long as that has not happened in any tree no
call stops in `raiseValidity`.
-/
theorem levels_decrease {s : AltState} (hs : Reachable cfg s) :
    ((¬s.alt.RestoredFailedPop → s.alt.LevelsDecrease) ∧
      (¬s.sp.vbk.RestoredFailedPop → s.sp.vbk.LevelsDecrease) ∧
      (¬s.sp.btc.RestoredFailedPop → s.sp.btc.LevelsDecrease)) ∧
    ∀ (op : Op) (s' : AltState), op.exec cfg s = .error .raiseValidity s' →
      s'.alt.RestoredFailedPop ∨ s'.sp.vbk.RestoredFailedPop ∨ s'.sp.btc.RestoredFailedPop := by
  refine ⟨⟨fun h => (hs.inv.1 h).levelsDecrease, fun h => (hs.inv.2.1 h).levelsDecrease,
    fun h => (hs.inv.2.2 h).levelsDecrease⟩, ?_⟩
  intro op s' h
  have hstops := wp_error (op.exec_keeps cfg () s hs.sane) h
  exact hstops rfl

namespace Small

theorem levels_decrease_invalidated :
    (after invalidated).alt.LevelsDecrease ∧
      ∀ s', Op.exec config (.acceptBlockHeader (altBlock 3 2 2)) (after invalidated) = .error .raiseValidity s' →
        s'.alt.RestoredFailedPop ∨ s'.sp.vbk.RestoredFailedPop ∨ s'.sp.btc.RestoredFailedPop := by
  have h := levels_decrease (reachable_after invalidated)
  exact ⟨h.1.1 invalidated_not_restored.1, h.2 _⟩

/-- The restored block gets no level, so the block after it must not get one. -/
def noLevel : List Op :=
  [.acceptBlockHeader (altBlock 2 1 1), .invalidateSubtree 2 .failedPop true, .removeSubtree 2,
    .acceptBlockHeader (altBlock 2 1 1)]

theorem raiseValidity_stops : ∃ s, Reachable config s ∧
    ∃ s', Op.exec config (.acceptBlockHeader (altBlock 3 2 2)) s = .error .raiseValidity s' := by
  refine ⟨after noLevel, reachable_after noLevel, ?_⟩
  have h : stoppedIn (Op.exec config (.acceptBlockHeader (altBlock 3 2 2)) (after noLevel)) = some .raiseValidity := by
    decide
  exact error_of_stoppedIn h

end Small

/--
In every reachable state the tips of a tree are exact when no soft-deleted block with `BLOCK_FAILED_POP` has
been inserted again.
-/
theorem tips_exact {s : AltState} (hs : Reachable cfg s) :
    (¬s.alt.RestoredFailedPop → s.alt.TipsExact) ∧
      (¬s.sp.vbk.RestoredFailedPop → s.sp.vbk.TipsExact) ∧
      (¬s.sp.btc.RestoredFailedPop → s.sp.btc.TipsExact) :=
  ⟨fun h => (hs.inv.1 h).tipsExact, fun h => (hs.inv.2.1 h).tipsExact, fun h => (hs.inv.2.2 h).tipsExact⟩

namespace Small

theorem tips_exact_invalidated :
    (after invalidated).alt.TipsExact ∧ (after invalidated).sp.vbk.TipsExact ∧
      (after invalidated).sp.btc.TipsExact ∧ (after invalidated).alt.tips = [1] := by
  have h := tips_exact (reachable_after invalidated)
  obtain ⟨halt, hvbk, hbtc⟩ := invalidated_not_restored
  exact ⟨h.1 halt, h.2.1 hvbk, h.2.2 hbtc, by decide⟩

/--
A block whose flag is stale is connected on top of an invalid block. When the latter is revalidated,
its child is a tip already, and nobody takes the block before it out of the tips.
-/
def staleTip : List Op :=
  staleFlag ++ [.removeSubtree 2, .acceptBlockHeader (altBlock 2 1 1), .acceptBlockHeader (altBlock 3 2 2),
    .acceptBlock 2 ⟨[], [], []⟩, .acceptBlock 3 ⟨[], [], []⟩, .revalidateSubtree 2 .failedBlock false]

theorem tips_not_exact : ∃ s, Reachable config s ∧ ¬s.alt.TipsExact := by
  refine ⟨after staleTip, reachable_after staleTip, fun h => ?_⟩
  have hmem : (1 : Hash) ∈ (after staleTip).alt.tips := by decide +kernel
  have hvalid : (after staleTip).alt.isValidTip 1 = false := by decide +kernel
  rw [((h 1).mp hmem).2] at hvalid
  cases hvalid

end Small

end AltIntegration
