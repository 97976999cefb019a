import AltIntegration.Control.Wlp
import AltIntegration.Blockchain.Pop.PopStateMachine
import AltIntegration.Blockchain.Lemmas.Sane

/-!
This module contains the rules for the partial correctness of the programs on a block, and what the programs that
write failure flags leave alone.
-/

namespace AltIntegration

open Program BlockIndex

variable {σ A : Type}

namespace BlockIndex

/-- All of a block but its failure flags. -/
def bare (b : BlockIndex A) : ((Block × Option Hash × Nat) × BlockStatus) × A := (b.unfailed, b.addon)

end BlockIndex

namespace Tree

/-- All of a tree but its blocks and what is written with them. -/
def fixed (t : Tree A) : Tree A := { t with blocks := Store.empty, tips := [], appliedBlockCount := 0 }

theorem fixed_activeTip {t t' : Tree A} (h : t'.fixed = t.fixed) : t'.activeTip = t.activeTip := by
  have h' := congrArg (fun u : Tree A => u.activeTip) h
  exact h'

theorem fixed_root {t t' : Tree A} (h : t'.fixed = t.fixed) : t'.root = t.root := by
  have h' := congrArg (fun u : Tree A => u.root) h
  exact h'

/-- Only failure flags and the tips have changed. -/
structure Flagged (t t' : Tree A) : Prop where
  same : t.SameOn bare t'
  fixed : t'.fixed = t.fixed
  count : t'.appliedBlockCount = t.appliedBlockCount

variable {t t' t'' : Tree A} {h : Hash} {b : BlockIndex A}

theorem Flagged.refl (t : Tree A) : Flagged t t := ⟨.refl t, rfl, rfl⟩

theorem Flagged.trans (hs : Flagged t t') (hs' : Flagged t' t'') : Flagged t t'' :=
  ⟨hs.same.trans hs'.same, hs'.fixed.trans hs.fixed, hs'.count.trans hs.count⟩

theorem Flagged.eraseTip (t : Tree A) (h : Hash) : Flagged t (t.eraseTip h) := ⟨.of_blocks_eq rfl, rfl, rfl⟩

theorem tryAddTip_fixed [BlockAddon A] : (t.tryAddTip h).fixed = t.fixed := by
  unfold tryAddTip insertTip Tree.eraseTip
  repeat' split
  all_goals rfl

theorem tryAddTip_appliedBlockCount [BlockAddon A] :
    (t.tryAddTip h).appliedBlockCount = t.appliedBlockCount := by
  unfold tryAddTip insertTip Tree.eraseTip
  repeat' split
  all_goals rfl

theorem Flagged.tryAddTip [BlockAddon A] (t : Tree A) (h : Hash) : Flagged t (t.tryAddTip h) :=
  ⟨.of_blocks_eq tryAddTip_blocks, tryAddTip_fixed, tryAddTip_appliedBlockCount⟩

theorem Flagged.setFlag (t : Tree A) (h : Hash) {r : BlockValidityStatus}
    (hr : r = .failedBlock ∨ r = .failedPop ∨ r = .failedChild) :
    Flagged t (t.update h (fun b => b.setFlag r)) := by
  refine ⟨SameOn.update t h (fun b _ => ?_), rfl, rfl⟩
  exact Prod.ext (unfailed_setFlag b hr) (setStatus_addon _ _)

theorem Flagged.unsetFlag (t : Tree A) (h : Hash) {r : BlockValidityStatus}
    (hr : r = .failedBlock ∨ r = .failedPop ∨ r = .failedChild) :
    Flagged t (t.update h (fun b => b.unsetFlag r)) := by
  refine ⟨SameOn.update t h (fun b _ => ?_), rfl, rfl⟩
  exact Prod.ext (unfailed_unsetFlag b hr) (setStatus_addon _ _)

end Tree

section Programs

variable {t : Tree A} {h : Hash} {b : BlockIndex A}

theorem wlp_derefBlock {Q : BlockIndex A → Tree A → Prop} :
    wlp (derefBlock h) Q t ↔ ∀ b, t.find? h = some b → Q b t := by
  simp [derefBlock]

@[simp]
theorem wlp_modifyBlock {f : BlockIndex A → BlockIndex A} {Q : Unit → Tree A → Prop} :
    wlp (modifyBlock h f) Q t ↔ Q () (t.update h f) := Iff.rfl

theorem wlp_zoom_derefBlock {l : Lens σ (Tree A)} {Q : BlockIndex A → σ → Prop} {s : σ} :
    wlp (zoom l (derefBlock h)) Q s ↔ ∀ b, (l.get s).find? h = some b → Q b s := by
  simp only [wlp_zoom, wlp_derefBlock, l.set_get]

/-- `raiseValidity` raises the level of a block or does nothing. -/
theorem wlp_raiseValidity {upTo : BlockStateStatus} {Q : Bool → Tree A → Prop} (hb : t.find? h = some b)
    (hsame : b.status.failedPop = true ∨ upTo ≤ b.status.level → Q false t)
    (hraise : b.status.failedPop = false → b.status.level < upTo →
      Q true (t.update h (fun b => b.setLevel upTo))) :
    wlp (raiseValidity h upTo) Q t := by
  simp only [raiseValidity, wlp_bind, wlp_derefBlock]
  intro b' hb'
  rw [hb] at hb'
  cases hb'
  simp only [wlp_ite, wlp_pure, wlp_bind]
  refine ⟨fun hf => hsame (.inl hf), fun hf => ⟨fun hl => ?_, fun hl => hsame (.inr (Nat.le_of_not_lt hl))⟩⟩
  rw [show b.hasFlags .failedPop = b.status.failedPop from rfl, Bool.not_eq_true] at hf
  have hlast : wlp (modifyBlock h (fun b => b.setLevel upTo) >>= fun _ => pure true) Q t := by
    rw [wlp_bind, wlp_modifyBlock]
    exact hraise hf hl
  unfold raiseValidity.assertAncestorLevel
  split
  . exact hlast
  . simp only [wlp_bind, wlp_derefBlock, wlp_check]
    exact fun _ _ _ => hlast

abbrev KeepsFlagged {α : Type} (m : M (Tree A) α) : Prop := Keeps Tree.Flagged (fun _ _ => True) m

namespace KeepsFlagged

theorem modify {f : Tree A → Tree A} (hf : ∀ t, Tree.Flagged t (f t)) :
    KeepsFlagged (modify f : M (Tree A) PUnit) :=
  Keeps.modify (fun _ t ht => ht.trans (hf t))

theorem derefBlock (h : Hash) : KeepsFlagged (derefBlock h : M (Tree A) (BlockIndex A)) :=
  .bind .get (fun _ => .getOrStop (fun _ _ _ => trivial))

theorem doInvalidate (h : Hash) {r : BlockValidityStatus}
    (hr : r = .failedBlock ∨ r = .failedPop ∨ r = .failedChild) :
    KeepsFlagged (doInvalidate h r : M (Tree A) Unit) :=
  .bind (derefBlock h) (fun _ => .bind (.check (fun _ _ _ => trivial)) (fun _ =>
    .bind (KeepsFlagged.modify (fun t => .setFlag t h hr)) (fun _ =>
      KeepsFlagged.modify (fun t => .eraseTip t h))))

variable [BlockAddon A]

theorem flagSubtree (h prev : Hash) {r : BlockValidityStatus}
    (hr : r = .failedBlock ∨ r = .failedPop ∨ r = .failedChild) :
    KeepsFlagged (flagSubtree h prev r : M (Tree A) Unit) := by
  have hvisit : ∀ c, KeepsFlagged (invalidateChild c : M (Tree A) Bool) :=
    fun c => .bind (derefBlock c) (fun _ => .bind (doInvalidate c isFailure_failedChild) (fun _ => .pure _))
  exact .bind (doInvalidate h hr) (fun _ => .bind .get (fun t =>
    .bind (.forEach (fun c => forEachNodePreorder_keeps hvisit _ c) _) (fun _ =>
      KeepsFlagged.modify (fun t => .tryAddTip t prev))))

theorem doReValidate (h : Hash) {r : BlockValidityStatus}
    (hr : r = .failedBlock ∨ r = .failedPop ∨ r = .failedChild) :
    KeepsFlagged (doReValidate h r : M (Tree A) Unit) :=
  .bind (KeepsFlagged.modify (fun t => .unsetFlag t h hr)) (fun _ => KeepsFlagged.modify (fun t => .tryAddTip t h))

theorem unflagSubtree (h : Hash) {r : BlockValidityStatus}
    (hr : r = .failedBlock ∨ r = .failedPop ∨ r = .failedChild) :
    KeepsFlagged (unflagSubtree h r : M (Tree A) Unit) := by
  have hvisit : ∀ c, KeepsFlagged (revalidateChild c : M (Tree A) Bool) :=
    fun c => .bind (doReValidate c isFailure_failedChild) (fun _ => .bind (derefBlock c) (fun _ => .pure _))
  exact .bind (doReValidate h hr) (fun _ => .bind .get (fun t =>
    .forEach (fun c => forEachNodePreorder_keeps hvisit _ c) _))

end KeepsFlagged

end Programs

end AltIntegration
