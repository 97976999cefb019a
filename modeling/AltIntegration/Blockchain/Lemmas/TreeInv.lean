import AltIntegration.Blockchain.Lemmas.Tips
import AltIntegration.Blockchain.Lemmas.Traversal

/-!
This module contains the invariant of a tree: failure flags are inherited, validity levels do not
grow towards the leaves, and the tips are exact. It holds as long as no soft-deleted block with
`BLOCK_FAILED_POP` is inserted again.
-/

namespace AltIntegration

open Program BlockIndex

namespace BlockStateStatus

theorem le_iff {a b : BlockStateStatus} : a ≤ b ↔ a.toNat ≤ b.toNat := Iff.rfl

theorem lt_iff {a b : BlockStateStatus} : a < b ↔ a.toNat < b.toNat := Iff.rfl

theorem validUnknown_le (a : BlockStateStatus) : .validUnknown ≤ a := Nat.zero_le _

theorem le_refl (a : BlockStateStatus) : a ≤ a := Nat.le_refl _

theorem le_trans {a b c : BlockStateStatus} (h : a ≤ b) (h' : b ≤ c) : a ≤ c := Nat.le_trans h h'

theorem le_of_not_le {a b : BlockStateStatus} (h : ¬a ≤ b) : b ≤ a := Nat.le_of_not_le h

theorem le_of_lt {a b : BlockStateStatus} (h : a < b) : a ≤ b := Nat.le_of_lt h

end BlockStateStatus

/-- The status of a block without its failure flags. -/
def BlockStatus.clearFailed (s : BlockStatus) : BlockStatus :=
  { s with failedBlock := false, failedPop := false, failedChild := false }

namespace BlockIndex

variable {A : Type}

/-- What the invariant reads of a block. -/
def core (b : BlockIndex A) : (Block × Option Hash × Nat) × BlockStatus := (b.shape, b.status)

/-- What the invariant reads of a block, but for the failure flags. -/
def unfailed (b : BlockIndex A) : (Block × Option Hash × Nat) × BlockStatus :=
  (b.shape, b.status.clearFailed)

theorem core_eq_iff {b b' : BlockIndex A} : b.core = b'.core ↔ b.shape = b'.shape ∧ b.status = b'.status :=
  Prod.mk.injEq _ _ _ _ ▸ Iff.rfl

theorem unfailed_eq_iff {b b' : BlockIndex A} :
    b.unfailed = b'.unfailed ↔ b.shape = b'.shape ∧ b.status.clearFailed = b'.status.clearFailed :=
  Prod.mk.injEq _ _ _ _ ▸ Iff.rfl

theorem clearFailed_level {s s' : BlockStatus} (h : s.clearFailed = s'.clearFailed) :
    s.level = s'.level ∧ s.deleted = s'.deleted ∧ s.active = s'.active ∧
      s.hasPayloads = s'.hasPayloads := by
  simp only [BlockStatus.clearFailed, BlockStatus.mk.injEq] at h
  obtain ⟨h1, _, _, _, _, h2, h3, h4⟩ := h
  exact ⟨h1, h4, h3, h2⟩

theorem clearFailed_assign (s : BlockStatus) (v : Bool) {r : BlockValidityStatus}
    (hr : r = .failedBlock ∨ r = .failedPop ∨ r = .failedChild) :
    (s.assign v r).clearFailed = s.clearFailed := by
  rcases hr with rfl | rfl | rfl
  . rfl
  . rfl
  . rfl

end BlockIndex

namespace Tree

variable {A : Type}

/-- A soft-deleted block with `BLOCK_FAILED_POP` has been inserted again. -/
def RestoredFailedPop (t : Tree A) : Prop := ∃ h, .restoredFailedPop h ∈ t.history

structure NodeOk (min : BlockStateStatus) (low : List Hash) (x : Hash) (b : BlockIndex A) : Prop where
  deleted : b.status.deleted = true → b.status.level = .validUnknown
  validTree : b.status.deleted = false → .validTree ≤ b.status.level
  level : b.status.deleted = false → x ∉ low → min ≤ b.status.level
  active : b.status.active = true → .canBeAppliedMaybeWithOtherChain ≤ b.status.level
  payloads : b.status.deleted = true → b.status.hasPayloads = false

structure LevelOk (_ : Hash) (b bp : BlockIndex A) : Prop where
  deleted : bp.status.deleted = true → b.status.deleted = true
  level : b.status.level ≤ bp.status.level

/--
A block carries `BLOCK_FAILED_CHILD` if and only if its parent is failed. The pending blocks are still
to be flagged, or unflagged, because their parent is failed, or not, as `v` says.
-/
structure FlagOk (v : Bool) (pend : List Hash) (x : Hash) (b bp : BlockIndex A) : Prop where
  pending : x ∈ pend → bp.isFailed = v
  inherited : x ∉ pend → b.status.failedChild = bp.isFailed

/--
The invariant of a tree. `min` is the level that a block in the tree has at least, the blocks in `U`
are not settled as tips.
-/
structure Inv [BlockAddon A] (min : BlockStateStatus) (U : List Hash) (t : Tree A) : Prop where
  wf : t.WF
  nodes : t.Nodes (NodeOk min [])
  levels : t.Edges LevelOk
  flags : t.Edges (FlagOk true [])
  sound : t.TipsSound U
  complete : t.TipsComplete U

section Congr

variable {t t' : Tree A} {min : BlockStateStatus} {low : List Hash}

theorem shape_of_unfailed (hs : SameOn unfailed t t') : SameShape t t' := hs.comp Prod.fst

theorem unfailed_of_core (hs : SameOn core t t') : SameOn unfailed t t' :=
  hs.comp (fun c => (c.1, c.2.clearFailed))

theorem nodes_congr (hs : SameOn unfailed t t') (ht : t.Nodes (NodeOk min low)) :
    t'.Nodes (NodeOk min low) := by
  refine ht.congr hs ?_
  intro x b b' heq hb
  obtain ⟨hl, hd, ha, hp⟩ := clearFailed_level (unfailed_eq_iff.mp heq).2
  exact ⟨hd ▸ hl ▸ hb.deleted, hd ▸ hl ▸ hb.validTree, hd ▸ hl ▸ hb.level, ha ▸ hl ▸ hb.active,
    hd ▸ hp ▸ hb.payloads⟩

theorem levels_congr (hs : SameOn unfailed t t') (ht : t.Edges LevelOk) : t'.Edges LevelOk := by
  refine ht.congr hs ?_ ?_
  . intro b b' heq
    exact (shape_eq_iff.mp (unfailed_eq_iff.mp heq).1).2.1
  . intro x b b' bp bp' heq heq' hb
    obtain ⟨hl, hd, _⟩ := clearFailed_level (unfailed_eq_iff.mp heq).2
    obtain ⟨hl', hd', _⟩ := clearFailed_level (unfailed_eq_iff.mp heq').2
    exact ⟨hd ▸ hd' ▸ hb.deleted, hl ▸ hl' ▸ hb.level⟩

theorem flags_congr {v : Bool} {pend : List Hash} (hs : SameOn core t t')
    (ht : t.Edges (FlagOk v pend)) : t'.Edges (FlagOk v pend) := by
  refine ht.congr hs ?_ ?_
  . intro b b' heq
    exact (shape_eq_iff.mp (core_eq_iff.mp heq).1).2.1
  . intro x b b' bp bp' heq heq' hb
    have hst := (core_eq_iff.mp heq).2
    have hst' := (core_eq_iff.mp heq').2
    refine ⟨?_, ?_⟩
    . intro hx
      rw [← hb.pending hx, isFailed, isFailed, hst']
    . intro hx
      rw [← hst, hb.inherited hx, isFailed, isFailed, hst']

variable [BlockAddon A]

theorem canBeATip_eq_of_core {b b' : BlockIndex A} (h : b.core = b'.core) :
    b.canBeATip = b'.canBeATip := by
  have hst := (core_eq_iff.mp h).2
  simp only [canBeATip, isDeleted, hasFlags, isValid, BlockIndex.isFailed, isValidUpTo, hst]

theorem sameTips_of_core (hs : SameOn core t t') (ht : t'.tips = t.tips) : SameTips t t' := by
  refine ⟨ht, (shape_of_unfailed (unfailed_of_core hs)).isChild, fun x => ?_⟩
  constructor
  . rintro ⟨b', hb', hl⟩
    obtain ⟨b, hb, heq⟩ := hs.find? hb'
    exact ⟨b, hb, (canBeATip_eq_of_core heq).trans hl⟩
  . rintro ⟨b, hb, hl⟩
    obtain ⟨b', hb', heq⟩ := hs.symm.find? hb
    exact ⟨b', hb', (canBeATip_eq_of_core heq).trans hl⟩

/-- The invariant reads only the core of the blocks, and the tips. -/
theorem Inv.congr {U : List Hash} (ht : t.Inv min U) (hs : SameOn core t t') (htips : t'.tips = t.tips) :
    t'.Inv min U where
  wf := ht.wf.congr (shape_of_unfailed (unfailed_of_core hs))
  nodes := nodes_congr (unfailed_of_core hs) ht.nodes
  levels := levels_congr (unfailed_of_core hs) ht.levels
  flags := flags_congr hs ht.flags
  sound := ht.sound.congr (sameTips_of_core hs htips)
  complete := ht.complete.congr (sameTips_of_core hs htips)

/-- Only a block that is not deleted has a level. -/
theorem Inv.not_deleted {U : List Hash} {h : Hash} {b : BlockIndex A} {l : BlockStateStatus} (ht : t.Inv min U)
    (hb : t.find? h = some b) (hl : l ≤ b.status.level) (hpos : .validTree ≤ l) : b.status.deleted = false := by
  rw [← Bool.not_eq_true]
  intro hd
  rw [(ht.nodes hb).deleted hd] at hl
  exact absurd (BlockStateStatus.le_trans hpos hl) (by decide)

theorem Inv.mono {U U' : List Hash} (ht : t.Inv min U) (hU : U ⊆ U') : t.Inv min U' :=
  { ht with sound := ht.sound.mono hU, complete := ht.complete.mono hU }

end Congr

end Tree

end AltIntegration
