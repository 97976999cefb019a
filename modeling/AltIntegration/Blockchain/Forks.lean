import Mathlib.Data.List.TakeWhile
import AltIntegration.Blockchain.Chain
import AltIntegration.Blockchain.Lemmas.Outdated
import AltIntegration.Blockchain.FinalizedTree

/-!
This module contains where two blocks of a tree fork: `getForkBlock` walks back from both of them, `findFork` looks a
block up in a `Chain`, and `isBlockOutdated` asks whether a block forks off below the final block.
-/

namespace AltIntegration

variable {A : Type}

namespace Tree

/-- The block `d` is the highest one that is an ancestor-or-self of both `x` and `y`. -/
structure IsLowestCommonAncestor (t : Tree A) (x y d : Hash) : Prop where
  left : d ∈ t.chainTo x
  right : d ∈ t.chainTo y
  highest : ∀ z ∈ t.chainTo x, z ∈ t.chainTo y → t.heightOf z ≤ t.heightOf d

variable {t : Tree A} {x y d d' p q final : Hash} {b b' : BlockIndex A}

namespace IsLowestCommonAncestor

theorem unique (ht : t.WF) (hd : t.IsLowestCommonAncestor x y d) (hd' : t.IsLowestCommonAncestor x y d') : d = d' := by
  apply ht.eq_of_heightOf_eq hd.left hd'.left
  apply Nat.le_antisymm
  . apply hd'.highest d hd.left hd.right
  . apply hd.highest d' hd'.left hd'.right

theorem symm (hd : t.IsLowestCommonAncestor x y d) : t.IsLowestCommonAncestor y x d :=
  ⟨hd.right, hd.left, fun z hy hx => hd.highest z hx hy⟩

theorem refl (ht : t.WF) (hb : t.find? x = some b) : t.IsLowestCommonAncestor x x x :=
  ⟨ht.mem_chainTo_self hb, ht.mem_chainTo_self hb, fun _ hz _ => ht.heightOf_le hz⟩

end IsLowestCommonAncestor

/-- What a function that looks for the fork of two blocks has to return: null if they are not connected. -/
def IsFork (t : Tree A) (x y : Hash) : Option Hash → Prop
  | some d => t.IsLowestCommonAncestor x y d
  | none => ∀ z ∈ t.chainTo x, z ∉ t.chainTo y

theorem IsFork.unique (ht : t.WF) {r r' : Option Hash} (hr : t.IsFork x y r) (hr' : t.IsFork x y r') : r = r' := by
  cases r with
  | none =>
    cases r' with
    | none => rfl
    | some d' => exact absurd hr'.right (hr d' hr'.left)
  | some d =>
    cases r' with
    | none => exact absurd hr.right (hr' d hr.left)
    | some d' => rw [IsLowestCommonAncestor.unique ht hr hr']

theorem IsFork.symm {r : Option Hash} (hr : t.IsFork x y r) : t.IsFork y x r := by
  cases r with
  | none => exact fun z hy hx => hr z hx hy
  | some d => exact IsLowestCommonAncestor.symm hr

/-- Two blocks fork where two ancestors of theirs do that are not below any common ancestor. -/
theorem IsFork.lift (ht : t.WF) {r : Option Hash} (hp : p ∈ t.chainTo x) (hq : q ∈ t.chainTo y)
    (hlow : ∀ z ∈ t.chainTo x, z ∈ t.chainTo y → t.heightOf z ≤ t.heightOf p ∧ t.heightOf z ≤ t.heightOf q)
    (hr : t.IsFork p q r) : t.IsFork x y r := by
  have hcommon : ∀ z ∈ t.chainTo x, z ∈ t.chainTo y → z ∈ t.chainTo p ∧ z ∈ t.chainTo q := by
    intro z hx hy
    exact ⟨ht.mem_chainTo_of_le hx hp (hlow z hx hy).1, ht.mem_chainTo_of_le hy hq (hlow z hx hy).2⟩
  cases r with
  | none =>
    intro z hx hy
    exact hr z (hcommon z hx hy).1 (hcommon z hx hy).2
  | some d =>
    refine ⟨ht.mem_chainTo_trans hr.left hp, ht.mem_chainTo_trans hr.right hq, ?_⟩
    intro z hx hy
    exact hr.highest z (hcommon z hx hy).1 (hcommon z hx hy).2

section GetForkBlock

/-- What two different blocks of one height have in common, their parents have. -/
theorem WF.mem_chainTo_parents {z : Hash} (ht : t.WF) (hx : t.IsChild x p) (hy : t.IsChild y q) (hne : x ≠ y)
    (heq : t.heightOf x = t.heightOf y) (hzx : z ∈ t.chainTo x) (hzy : z ∈ t.chainTo y) :
    z ∈ t.chainTo p ∧ z ∈ t.chainTo q := by
  have hnx : z ≠ x := by
    intro h
    rw [h] at hzy
    exact hne (ht.eq_of_heightOf_le hzy (by omega))
  have hny : z ≠ y := by
    intro h
    rw [h] at hzx
    exact hne (ht.eq_of_heightOf_le hzx (by omega)).symm
  rw [ht.chainTo_of_child hx, List.mem_cons] at hzx
  rw [ht.chainTo_of_child hy, List.mem_cons] at hzy
  exact ⟨hzx.resolve_left hnx, hzy.resolve_left hny⟩

/-- Two different blocks of one height fork where their parents do. -/
theorem IsFork.parents {r : Option Hash} (ht : t.WF) (hx : t.IsChild x p) (hy : t.IsChild y q) (hne : x ≠ y)
    (heq : t.heightOf x = t.heightOf y) (hr : t.IsFork p q r) : t.IsFork x y r := by
  cases r with
  | none =>
    intro z hzx hzy
    have hz := ht.mem_chainTo_parents hx hy hne heq hzx hzy
    exact hr z hz.1 hz.2
  | some d =>
    constructor
    . rw [ht.chainTo_of_child hx]
      exact List.mem_cons_of_mem _ hr.left
    . rw [ht.chainTo_of_child hy]
      exact List.mem_cons_of_mem _ hr.right
    . intro z hzx hzy
      have hz := ht.mem_chainTo_parents hx hy hne heq hzx hzy
      exact hr.highest z hz.1 hz.2

/-- The loop of `getForkBlock`, from two blocks of one height. The induction goes from the root up to `x`. -/
theorem WF.isFork_zip (ht : t.WF) (hx : t.find? x = some b) (hy : t.find? y = some b')
    (heq : t.heightOf x = t.heightOf y) :
    t.IsFork x y ((((t.chainTo x).zip (t.chainTo y)).find? (fun e => e.1 = e.2)).map (fun e => e.1)) := by
  revert y b'
  refine ht.chain_induction (P := fun x => ∀ {y : Hash} {b' : BlockIndex A}, t.find? y = some b' →
    t.heightOf x = t.heightOf y →
    t.IsFork x y ((((t.chainTo x).zip (t.chainTo y)).find? (fun e => e.1 = e.2)).map (fun e => e.1))) ?_ ?_ hx
  . intro x b hx hroot y b' hy heq
    obtain ⟨tail, hcons⟩ := chainTo_eq_cons hy
    have hself := ht.mem_chainTo_self hx
    rw [chainTo_of_root hx hroot, hcons, List.zip_cons_cons, List.find?_cons]
    by_cases hxy : x = y
    . subst hxy
      rw [decide_eq_true rfl]
      exact .refl ht hx
    . rw [decide_eq_false hxy]
      intro z hz hzy
      rw [chainTo_of_root hx hroot, List.mem_singleton] at hz
      subst hz
      exact hxy (ht.eq_of_heightOf_le hzy (by omega))
  . intro x p hp ih y b' hy heq
    obtain ⟨bx, hbx, _⟩ := id hp
    cases hpprev : b'.pprev with
    | none =>
      rw [ht.chainTo_of_child hp, chainTo_of_root hy hpprev, List.zip_cons_cons, List.find?_cons]
      by_cases hxy : x = y
      . subst hxy
        rw [decide_eq_true rfl]
        exact .refl ht hbx
      . rw [decide_eq_false hxy, List.zip_nil_right]
        intro z hzx hz
        rw [chainTo_of_root hy hpprev, List.mem_singleton] at hz
        subst hz
        exact hxy (ht.eq_of_heightOf_le hzx (by omega)).symm
    | some q =>
      have hq : t.IsChild y q := ⟨b', hy, hpprev⟩
      obtain ⟨bq, hbq, _⟩ := ht.parent hy hpprev
      have hhx := ht.heightOf_child hp
      have hhy := ht.heightOf_child hq
      rw [ht.chainTo_of_child hp, ht.chainTo_of_child hq, List.zip_cons_cons, List.find?_cons]
      by_cases hxy : x = y
      . subst hxy
        rw [decide_eq_true rfl]
        exact .refl ht hbx
      . rw [decide_eq_false hxy]
        apply IsFork.parents ht hp hq hxy heq
        exact ih hbq (by omega)

/-- Where the walk back from a block down to a height ends. -/
theorem WF.dropWhile_cases (ht : t.WF) (x : Hash) {low : Nat} (hlow : low ≤ t.heightOf x) :
    (∃ p bp, p ∈ t.chainTo x ∧ t.find? p = some bp ∧ t.heightOf p = low ∧
      (t.chainTo x).dropWhile (fun z => decide (low < t.heightOf z)) = t.chainTo p) ∨
    (∀ z ∈ t.chainTo x, low < t.heightOf z) ∧ (t.chainTo x).dropWhile (fun z => decide (low < t.heightOf z)) = [] := by
  by_cases hall : ∀ z ∈ t.chainTo x, low < t.heightOf z
  . refine .inr ⟨hall, ?_⟩
    rw [List.dropWhile_eq_nil_iff]
    intro z hz
    exact decide_eq_true (hall z hz)
  . left
    simp only [not_forall, not_lt] at hall
    obtain ⟨z, hz, hle⟩ := hall
    obtain ⟨p, hp, rfl⟩ := ht.exists_heightOf_eq_of_mem hz hle hlow
    obtain ⟨bp, hbp⟩ := ht.find?_of_mem_chainTo hp
    exact ⟨p, bp, hp, hbp, rfl, ht.dropWhile_chainTo hp⟩

/-- `getForkBlock` returns the lowest common ancestor, or null when there is no common ancestor. -/
theorem WF.isFork_getForkBlock (ht : t.WF) (x y : Hash) : t.IsFork x y (t.getForkBlock x y) := by
  have hnone : ∀ r, (∀ z ∈ t.chainTo x, min (t.heightOf x) (t.heightOf y) < t.heightOf z) ∨
      (∀ z ∈ t.chainTo y, min (t.heightOf x) (t.heightOf y) < t.heightOf z) → r = none → t.IsFork x y r := by
    rintro r hor rfl z hzx hzy
    have hle := ht.heightOf_le hzx
    have hle' := ht.heightOf_le hzy
    cases hor with
    | inl h =>
      have := h z hzx
      omega
    | inr h =>
      have := h z hzy
      omega
  unfold getForkBlock
  cases ht.dropWhile_cases x (Nat.min_le_left (t.heightOf x) (t.heightOf y)) with
  | inr habove =>
    apply hnone _ (.inl habove.1)
    simp only [habove.2, List.zip_nil_left]
    rfl
  | inl hleft =>
    obtain ⟨p, bp, hp, hbp, hhp, heqp⟩ := hleft
    cases ht.dropWhile_cases y (Nat.min_le_right (t.heightOf x) (t.heightOf y)) with
    | inr habove =>
      apply hnone _ (.inr habove.1)
      simp only [habove.2, List.zip_nil_right]
      rfl
    | inl hright =>
      obtain ⟨q, bq, hq, hbq, hhq, heqq⟩ := hright
      simp only [heqp, heqq]
      apply IsFork.lift ht hp hq _ (ht.isFork_zip hbp hbq (by omega))
      intro z hzx hzy
      have hle := ht.heightOf_le hzx
      have hle' := ht.heightOf_le hzy
      omega

end GetForkBlock

section FindFork

/-- The first block of one chain that is on the other one. -/
theorem WF.isFork_find? (ht : t.WF) (x y : Hash) {f : Hash → Bool} (hf : ∀ z ∈ t.chainTo x, f z = true ↔ z ∈ t.chainTo y) :
    t.IsFork x y ((t.chainTo x).find? f) := by
  cases hfind : (t.chainTo x).find? f with
  | none =>
    intro z hx hy
    rw [List.find?_eq_none] at hfind
    exact hfind z hx ((hf z hx).mpr hy)
  | some d =>
    obtain ⟨hd, before, after, heq, hbefore⟩ := List.find?_eq_some_iff_append.mp hfind
    have hmem := List.mem_of_find?_eq_some hfind
    refine ⟨hmem, (hf d hmem).mp hd, ?_⟩
    intro z hx hy
    have hpair := ht.chainTo_pairwise x
    have hz := (hf z hx).mpr hy
    rw [heq, List.mem_append, List.mem_cons] at hx
    rw [heq] at hpair
    cases hx with
    | inl hb =>
      have hno := hbefore z hb
      rw [hz] at hno
      cases hno
    | inr hor =>
      cases hor with
      | inl hself => rw [hself]
      | inr hafter =>
        have hpair := (List.pairwise_append.mp hpair).2.1
        exact ht.heightOf_le ((List.pairwise_cons.mp hpair).1 z hafter)

end FindFork

end Tree

namespace Chain

variable {t : Tree A} {c : Chain} {x tip : Hash} {b : BlockIndex A}

theorem Exact.contains_iff_mem (ht : t.WF) (hr : t.Rooted) (hc : c.Exact t tip) (hstart : c.startHeight = t.heightOf t.root)
    (hx : t.find? x = some b) : c.contains t x = true ↔ x ∈ t.chainTo tip := by
  rw [hc.contains_iff ht, hstart]
  have hle := ht.heightOf_le (ht.root_mem_chainTo hr hx)
  exact ⟨And.left, fun hmem => ⟨hmem, hle⟩⟩

/-- `findFork` returns the lowest common ancestor of a block and the tip of the chain. -/
theorem Exact.isFork_findFork (ht : t.WF) (hr : t.Rooted) (hc : c.Exact t tip) (hstart : c.startHeight = t.heightOf t.root)
    (hx : t.find? x = some b) : t.IsFork x tip (c.findFork t (some x)) := by
  have hfind : ∀ y ∈ t.chainTo x, t.IsFork y tip ((t.chainTo y).find? (c.contains t)) := by
    intro y hy
    apply ht.isFork_find?
    intro z hz
    obtain ⟨bz, hbz⟩ := ht.find?_of_mem_chainTo hz
    exact hc.contains_iff_mem ht hr hstart hbz
  obtain ⟨bt, hbt⟩ := hc.descends.find?
  have hself := ht.mem_chainTo_self hbt
  simp only [findFork, hc.tip_eq ht, hc.chainHeight_eq, Option.isNone_some, Bool.false_eq_true, ↓reduceIte]
  split
  . next hlt =>
    have hroot := ht.heightOf_le (ht.root_mem_chainTo hr hbt)
    obtain ⟨y, hy, hheight⟩ := ht.exists_heightOf_eq hr hx hroot (Nat.le_of_lt hlt)
    rw [← hheight, ht.getAncestor_eq hy, Option.bind_some]
    apply Tree.IsFork.lift ht hy hself _ (hfind y hy)
    intro z _ hz
    have hle := ht.heightOf_le hz
    omega
  . exact hfind x (ht.mem_chainTo_self hx)

/--
Both fork finders return the lowest common ancestor of a block of the tree and the tip of a chain that starts at the
height of the root.
-/
theorem findFork_eq_getForkBlock (ht : t.WF) (hr : t.Rooted) (hc : Built t (t.heightOf t.root) c)
    (htip : c.tip = some tip) (hx : t.find? x = some b) :
    ∃ d, c.findFork t (some x) = some d ∧ t.getForkBlock tip x = some d ∧ t.IsLowestCommonAncestor x tip d := by
  obtain ⟨hstart, hchain⟩ := hc.exact ht
  cases hchain with
  | inl hnil =>
    rw [Chain.tip, hnil] at htip
    cases htip
  | inr hexact =>
    obtain ⟨y, hy⟩ := hexact
    rw [hy.tip_eq ht, Option.some.injEq] at htip
    rw [htip] at hy
    obtain ⟨bt, hbt⟩ := hy.descends.find?
    have hfind := hy.isFork_findFork ht hr hstart hx
    have heq := hfind.unique ht (ht.isFork_getForkBlock tip x).symm
    cases hfork : c.findFork t (some x) with
    | some d =>
      rw [hfork] at hfind heq
      exact ⟨d, rfl, heq.symm, hfind⟩
    | none =>
      -- the root is on both chains
      rw [hfork] at hfind
      exact absurd (ht.root_mem_chainTo hr hbt) (hfind t.root (ht.root_mem_chainTo hr hx))

end Chain

namespace Small

theorem findFork_forked :
    ∃ d, upTo3.findFork forked (some 4) = some d ∧ forked.getForkBlock 3 4 = some d ∧
      forked.IsLowestCommonAncestor 4 3 d := by
  have hx : (forked.find? 4).isSome = true := by decide
  obtain ⟨b, hb⟩ := Option.isSome_iff_exists.mp hx
  exact Chain.findFork_eq_getForkBlock consistent_forked.wf consistent_forked.rooted built_upTo3
    (by decide) hb

example : upTo3.findFork forked (some 4) = some 1 := by decide

end Small

namespace Chain

variable {t : Tree A} {c : Chain} {x : Hash} {b : BlockIndex A}

/-- A chain up to the active tip contains what the tree takes for its active chain. -/
theorem Exact.contains_eq_onActiveChain (ht : t.WF) (hr : t.Rooted) (hc : c.Exact t t.activeTip)
    (hstart : c.startHeight = t.heightOf t.root) (hx : t.find? x = some b) : c.contains t x = t.onActiveChain x := by
  rw [Bool.eq_iff_iff, hc.contains_iff_mem ht hr hstart hx, Tree.onActiveChain_iff]

/-- The same fork is found on the tree. -/
theorem Exact.findFork_eq (ht : t.WF) (hr : t.Rooted) (hc : c.Exact t t.activeTip)
    (hstart : c.startHeight = t.heightOf t.root) (hx : t.find? x = some b) :
    c.findFork t (some x) = t.findFork x := by
  apply (hc.isFork_findFork ht hr hstart hx).unique ht
  apply ht.isFork_find?
  intro z _
  exact Tree.onActiveChain_iff

end Chain

namespace Tree

variable {t : Tree A} {x final : Hash} {b : BlockIndex A}

/-- `isBlockOutdated`, if it needs at most `n` calls of itself. -/
def isBlockOutdatedIn (t : Tree A) (finalBlock : Hash) : Nat → Hash → Option Bool
  | 0, _ => none
  | n + 1, candidate =>
    if t.getAncestor candidate (t.heightOf finalBlock) = some finalBlock then
      some false
    else if t.heightOf candidate < t.heightOf finalBlock then
      some true
    else if t.heightOf candidate = t.heightOf finalBlock ∧ finalBlock ≠ candidate then
      some true
    else if t.getAncestor finalBlock (t.heightOf candidate) = some candidate then
      some false
    else
      match t.getForkBlock finalBlock candidate with
      | none => some true
      | some fork => isBlockOutdatedIn t finalBlock n fork

/-- Finalization relies on a function that takes a block for outdated when the calls are not enough. -/
theorem isBlockOutdated_eq_getD (t : Tree A) (final : Hash) (n : Nat) (x : Hash) :
    t.isBlockOutdated final n x = (t.isBlockOutdatedIn final n x).getD true := by
  induction n generalizing x with
  | zero => rfl
  | succ n ih =>
    unfold isBlockOutdated isBlockOutdatedIn
    repeat' split
    all_goals simp_all

theorem getAncestor_of_lt {n : Nat} (h : t.heightOf x < n) : t.getAncestor x n = none := by
  rw [getAncestor, if_pos h]

/-- A block below the final one is outdated at once. -/
theorem isBlockOutdatedIn_of_lt (h : t.heightOf x < t.heightOf final) (n : Nat) :
    t.isBlockOutdatedIn final (n + 1) x = some true := by
  unfold isBlockOutdatedIn
  rw [getAncestor_of_lt h, if_neg (by simp), if_pos h]

/--
`isBlockOutdated` calls itself at most once, and a block is outdated if and only if the final block is not an
ancestor of it or the block itself.
-/
theorem WF.isBlockOutdatedIn_iff (ht : t.WF) (hx : t.find? x = some b) :
    ∃ outdated, (∀ n, 2 ≤ n → t.isBlockOutdatedIn final n x = some outdated) ∧
      (outdated = true ↔ final ∉ t.chainTo x) := by
  refine ⟨!decide (final ∈ t.chainTo x), ?_, by simp⟩
  intro n hn
  obtain ⟨n, rfl⟩ : ∃ m, n = m + 2 := ⟨n - 2, by omega⟩
  unfold isBlockOutdatedIn
  by_cases hmem : final ∈ t.chainTo x
  . rw [if_pos (ht.getAncestor_eq hmem)]
    simp [hmem]
  . have hne : final ≠ x := by
      intro heq
      rw [heq] at hmem
      exact hmem (ht.mem_chainTo_self hx)
    rw [if_neg (fun h => hmem (getAncestor_mem h)), decide_eq_false hmem]
    split
    . rfl
    . next hlow =>
      split
      . rfl
      . next hsame =>
        -- the candidate is higher, so that it is no ancestor of the final block
        have hlt : t.heightOf final < t.heightOf x := by
          have : t.heightOf x ≠ t.heightOf final := fun heq => hsame ⟨heq, hne⟩
          omega
        rw [getAncestor_of_lt hlt, if_neg (by simp)]
        split
        . rfl
        . next fork hfork =>
          have hfork := getForkBlock_mem hfork
          apply isBlockOutdatedIn_of_lt
          apply Decidable.byContradiction
          intro hle
          rw [ht.eq_of_heightOf_le hfork.1 (by omega)] at hfork
          exact hmem hfork.2

end Tree

namespace Small

/-- A block of the other fork is outdated, and the final block itself is not. -/
theorem isBlockOutdated_forked :
    forked.isBlockOutdatedIn 3 2 4 = some true ∧ forked.isBlockOutdatedIn 3 2 3 = some false ∧
      ∃ outdated, (∀ n, 2 ≤ n → forked.isBlockOutdatedIn 3 n 4 = some outdated) ∧
        (outdated = true ↔ 3 ∉ forked.chainTo 4) := by
  have hx : (forked.find? 4).isSome = true := by decide
  obtain ⟨b, hb⟩ := Option.isSome_iff_exists.mp hx
  exact ⟨by decide, by decide, Tree.WF.isBlockOutdatedIn_iff consistent_forked.wf hb⟩

end Small

end AltIntegration
