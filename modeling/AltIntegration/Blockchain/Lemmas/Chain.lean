import AltIntegration.Blockchain.Lemmas.Tree

/-!
This module contains the chains of a well formed tree: the chain that ends in a block, the walk from a
block back to one of its ancestors, and where two chains fork.
-/

namespace AltIntegration

open BlockIndex

variable {A : Type}

namespace Tree

variable {t t' : Tree A} {x y d p : Hash} {b : BlockIndex A} {l : List Hash}

theorem heightOf_eq (hb : t.find? x = some b) : t.heightOf x = b.height := by
  unfold heightOf
  rw [hb]
  rfl

theorem chainTo_of_none (hx : t.find? x = none) : t.chainTo x = [] := by
  simp [chainTo, ancestors, hx]

theorem chainTo_of_root (hb : t.find? x = some b) (hp : b.pprev = none) : t.chainTo x = [x] := by
  simp [chainTo, ancestors, hb, hp]

theorem WF.heightOf_child (ht : t.WF) (hx : t.IsChild x p) : t.heightOf x = t.heightOf p + 1 := by
  obtain ⟨b, hb, hp⟩ := hx
  obtain ⟨bp, hbp, hh⟩ := ht.parent hb hp
  rw [heightOf_eq hb, heightOf_eq hbp, hh]

theorem WF.chainTo_of_child (ht : t.WF) (hx : t.IsChild x p) : t.chainTo x = x :: t.chainTo p := by
  have hh := ht.heightOf_child hx
  obtain ⟨b, hb, hp⟩ := hx
  unfold chainTo
  rw [hh]
  simp only [ancestors, hb, hp]

/-- Induction over the blocks of a tree, from the root up. -/
theorem WF.chain_induction (ht : t.WF) {P : Hash → Prop}
    (hroot : ∀ x b, t.find? x = some b → b.pprev = none → P x)
    (hchild : ∀ x p, t.IsChild x p → P p → P x) (hb : t.find? x = some b) : P x := by
  generalize hn : b.height = n
  induction n generalizing x b with
  | zero =>
    cases hp : b.pprev with
    | none => exact hroot x b hb hp
    | some p =>
      obtain ⟨bp, _, hh⟩ := ht.parent hb hp
      omega
  | succ n ih =>
    cases hp : b.pprev with
    | none => exact hroot x b hb hp
    | some p =>
      obtain ⟨bp, hbp, hh⟩ := ht.parent hb hp
      exact hchild x p ⟨b, hb, hp⟩ (ih hbp (by omega))

theorem WF.mem_chainTo_self (ht : t.WF) (hb : t.find? x = some b) : x ∈ t.chainTo x := by
  refine ht.chain_induction (P := fun x => x ∈ t.chainTo x) ?_ ?_ hb
  . intro x b hb hp
    rw [chainTo_of_root hb hp]
    exact List.mem_singleton.mpr rfl
  . intro x p hx _
    rw [ht.chainTo_of_child hx]
    exact List.mem_cons_self

/-- From the block `x` back to its ancestor `d`, which is not part of the walk. -/
def Walk (t : Tree A) : Hash → List Hash → Hash → Prop
  | x, [], d => x = d
  | x, y :: l, d => y = x ∧ ∃ p, t.IsChild x p ∧ Walk t p l d

theorem walk_append_singleton {c : Hash} : t.Walk x (l ++ [c]) d ↔ t.Walk x l c ∧ t.IsChild c d := by
  induction l generalizing x with
  | nil =>
    constructor
    . rintro ⟨rfl, p, hp, rfl⟩
      exact ⟨rfl, hp⟩
    . rintro ⟨rfl, hc⟩
      exact ⟨rfl, d, hc, rfl⟩
  | cons y l ih =>
    constructor
    . rintro ⟨hy, p, hp, hw⟩
      obtain ⟨hw, hc⟩ := ih.mp hw
      exact ⟨⟨hy, p, hp, hw⟩, hc⟩
    . rintro ⟨⟨hy, p, hp, hw⟩, hc⟩
      exact ⟨hy, p, hp, ih.mpr ⟨hw, hc⟩⟩

theorem Walk.chainTo (ht : t.WF) (hw : t.Walk x l d) : t.chainTo x = l ++ t.chainTo d := by
  induction l generalizing x with
  | nil =>
    have hx : x = d := hw
    rw [hx]
    rfl
  | cons y l ih =>
    obtain ⟨rfl, p, hp, hw⟩ := hw
    rw [ht.chainTo_of_child hp, ih hw]
    rfl

/-- Every ancestor can be walked to. -/
theorem WF.exists_walk (ht : t.WF) (hd : d ∈ t.chainTo x) : ∃ l, t.Walk x l d := by
  cases hx : t.find? x with
  | none =>
    rw [chainTo_of_none hx] at hd
    cases hd
  | some b =>
    revert hd
    refine ht.chain_induction (P := fun x => d ∈ t.chainTo x → ∃ l, t.Walk x l d) ?_ ?_ hx
    . intro x b hb hp hd
      rw [chainTo_of_root hb hp, List.mem_singleton] at hd
      exact ⟨[], hd.symm⟩
    . intro x p hx ih hd
      rw [ht.chainTo_of_child hx, List.mem_cons] at hd
      rcases hd with rfl | hd
      . exact ⟨[], rfl⟩
      . obtain ⟨l, hw⟩ := ih hd
        exact ⟨x :: l, rfl, p, hx, hw⟩

theorem Walk.lt_heightOf (ht : t.WF) (hw : t.Walk x l d) : ∀ y ∈ l, t.heightOf d < t.heightOf y := by
  have hle : ∀ {l x}, t.Walk x l d → t.heightOf d ≤ t.heightOf x := by
    intro l
    induction l with
    | nil =>
      intro x hw
      have hx : x = d := hw
      rw [hx]
    | cons y l ih =>
      rintro x ⟨_, p, hp, hw⟩
      have := ht.heightOf_child hp
      have := ih hw
      omega
  induction l generalizing x with
  | nil => simp
  | cons y l ih =>
    obtain ⟨rfl, p, hp, hw⟩ := hw
    intro z hz
    rcases List.mem_cons.mp hz with rfl | hz
    . have := ht.heightOf_child hp
      have := hle hw
      omega
    . exact ih hw z hz

theorem Walk.mem_chainTo (ht : t.WF) (hw : t.Walk x l d) (hd : d ∈ t.chainTo d) : d ∈ t.chainTo x := by
  rw [hw.chainTo ht]
  exact List.mem_append_right _ hd

theorem WF.find?_of_mem_chainTo (ht : t.WF) (hy : y ∈ t.chainTo x) : ∃ b, t.find? y = some b := by
  obtain ⟨l, hw⟩ := ht.exists_walk hy
  induction l generalizing x with
  | nil =>
    have hx : x = y := hw
    subst hx
    cases hb : t.find? x with
    | none =>
      rw [chainTo_of_none hb] at hy
      cases hy
    | some b => exact ⟨b, rfl⟩
  | cons z l ih =>
    obtain ⟨_, p, hp, hw⟩ := hw
    rw [ht.chainTo_of_child hp, List.mem_cons] at hy
    rcases hy with rfl | hy
    . obtain ⟨b, hb, _⟩ := hp
      exact ⟨b, hb⟩
    . exact ih hy hw

theorem WF.chainTo_nodup (ht : t.WF) (x : Hash) : (t.chainTo x).Nodup := by
  cases hx : t.find? x with
  | none =>
    rw [chainTo_of_none hx]
    exact List.nodup_nil
  | some b =>
    refine ht.chain_induction (P := fun x => (t.chainTo x).Nodup) ?_ ?_ hx
    . intro x b hb hp
      rw [chainTo_of_root hb hp]
      simp
    . intro x p hx ih
      rw [ht.chainTo_of_child hx]
      refine List.nodup_cons.mpr ⟨fun hmem => ?_, ih⟩
      obtain ⟨l, hw⟩ := ht.exists_walk hmem
      have hlt : t.heightOf x ≤ t.heightOf p := by
        cases l with
        | nil =>
          have hx : p = x := hw
          rw [hx]
        | cons y l =>
          have := hw.lt_heightOf ht y List.mem_cons_self
          rw [hw.1] at this
          omega
      have := ht.heightOf_child hx
      omega

/-- A chain contains the parents of its blocks. -/
theorem WF.mem_chainTo_of_child (ht : t.WF) (hy : y ∈ t.chainTo x) (hp : t.IsChild y p) : p ∈ t.chainTo x := by
  obtain ⟨l, hw⟩ := ht.exists_walk hy
  rw [hw.chainTo ht, ht.chainTo_of_child hp]
  obtain ⟨b, hb, hpp⟩ := hp
  obtain ⟨bp, hbp, _⟩ := ht.parent hb hpp
  exact List.mem_append_right _ (List.mem_cons_of_mem _ (ht.mem_chainTo_self hbp))

theorem chainTo_eq_cons (hb : t.find? x = some b) : ∃ tail, t.chainTo x = x :: tail := by
  unfold chainTo
  simp only [ancestors, hb]
  split
  . exact ⟨_, rfl⟩
  . exact ⟨_, rfl⟩

section Order

variable {z : Hash}

theorem WF.mem_chainTo_trans (ht : t.WF) (hy : y ∈ t.chainTo z) (hz : z ∈ t.chainTo x) : y ∈ t.chainTo x := by
  obtain ⟨l, hw⟩ := ht.exists_walk hz
  rw [hw.chainTo ht]
  exact List.mem_append_right _ hy

theorem WF.heightOf_le (ht : t.WF) (hy : y ∈ t.chainTo x) : t.heightOf y ≤ t.heightOf x := by
  obtain ⟨l, hw⟩ := ht.exists_walk hy
  cases l with
  | nil =>
    have hx : x = y := hw
    rw [hx]
  | cons z l =>
    have hlt := hw.lt_heightOf ht z List.mem_cons_self
    rw [hw.1] at hlt
    omega

/-- The blocks of one chain are ordered by their heights. -/
theorem WF.mem_chainTo_of_le (ht : t.WF) (hy : y ∈ t.chainTo x) (hz : z ∈ t.chainTo x)
    (hle : t.heightOf y ≤ t.heightOf z) : y ∈ t.chainTo z := by
  obtain ⟨l, hw⟩ := ht.exists_walk hz
  rw [hw.chainTo ht, List.mem_append] at hy
  rcases hy with hy | hy
  . have hlt := hw.lt_heightOf ht y hy
    omega
  . exact hy

theorem WF.eq_of_heightOf_le (ht : t.WF) (hy : y ∈ t.chainTo x) (hle : t.heightOf x ≤ t.heightOf y) : y = x := by
  obtain ⟨l, hw⟩ := ht.exists_walk hy
  cases l with
  | nil => exact Eq.symm hw
  | cons z l =>
    have hlt := hw.lt_heightOf ht z List.mem_cons_self
    rw [hw.1] at hlt
    omega

theorem WF.eq_of_heightOf_eq (ht : t.WF) (hy : y ∈ t.chainTo x) (hz : z ∈ t.chainTo x)
    (heq : t.heightOf y = t.heightOf z) : y = z :=
  ht.eq_of_heightOf_le (ht.mem_chainTo_of_le hy hz (Nat.le_of_eq heq)) (Nat.le_of_eq heq.symm)

theorem WF.chainTo_antisymm (ht : t.WF) (hy : y ∈ t.chainTo x) (hx : x ∈ t.chainTo y) : y = x :=
  ht.eq_of_heightOf_le hy (ht.heightOf_le hx)

/-- The walk back to the height of an ancestor. -/
theorem WF.dropWhile_chainTo (ht : t.WF) (hd : d ∈ t.chainTo x) :
    (t.chainTo x).dropWhile (fun a => decide (t.heightOf d < t.heightOf a)) = t.chainTo d := by
  obtain ⟨l, hw⟩ := ht.exists_walk hd
  obtain ⟨b, hb⟩ := ht.find?_of_mem_chainTo hd
  obtain ⟨tail, heq⟩ := chainTo_eq_cons hb
  rw [hw.chainTo ht, List.dropWhile_append_of_pos]
  . rw [heq]
    simp
  . intro y hy
    have hlt := hw.lt_heightOf ht y hy
    simpa using hlt

theorem WF.getAncestor_eq (ht : t.WF) (hd : d ∈ t.chainTo x) : t.getAncestor x (t.heightOf d) = some d := by
  have hle := ht.heightOf_le hd
  obtain ⟨b, hb⟩ := ht.find?_of_mem_chainTo hd
  obtain ⟨tail, heq⟩ := chainTo_eq_cons hb
  unfold getAncestor
  rw [if_neg (by omega), ht.dropWhile_chainTo hd, heq]
  rfl

/-- A chain has a block at every height from one of its blocks on. -/
theorem WF.exists_heightOf_eq_of_mem (ht : t.WF) (hy : y ∈ t.chainTo x) {n : Nat} (hlow : t.heightOf y ≤ n)
    (hhigh : n ≤ t.heightOf x) : ∃ z ∈ t.chainTo x, t.heightOf z = n := by
  obtain ⟨l, hw⟩ := ht.exists_walk hy
  induction l generalizing x with
  | nil =>
    have hx : x = y := hw
    subst hx
    exact ⟨x, hy, by omega⟩
  | cons z l ih =>
    obtain ⟨_, p, hp, hw⟩ := hw
    have hh := ht.heightOf_child hp
    by_cases heq : t.heightOf x = n
    . obtain ⟨bx, hbx, _⟩ := hp
      exact ⟨x, ht.mem_chainTo_self hbx, heq⟩
    . obtain ⟨by', hby⟩ := ht.find?_of_mem_chainTo hy
      obtain ⟨w, hmem, hwn⟩ := ih (hw.mem_chainTo ht (ht.mem_chainTo_self hby)) (by omega) hw
      rw [ht.chainTo_of_child hp]
      exact ⟨w, List.mem_cons_of_mem _ hmem, hwn⟩

end Order

/-- Only the root has no parent. -/
def Rooted (t : Tree A) : Prop := ∀ ⦃x b⦄, t.find? x = some b → b.pprev = none → x = t.root

theorem WF.length_chainTo (ht : t.WF) (hr : t.Rooted) (hb : t.find? x = some b) :
    (t.chainTo x).length + t.heightOf t.root = t.heightOf x + 1 := by
  refine ht.chain_induction (P := fun x => (t.chainTo x).length + t.heightOf t.root = t.heightOf x + 1)
    ?_ ?_ hb
  . intro x b hb hp
    rw [chainTo_of_root hb hp, hr hb hp]
    simp only [List.length_singleton]
    omega
  . intro x p hx ih
    rw [ht.chainTo_of_child hx, ht.heightOf_child hx, List.length_cons]
    omega

theorem WF.root_mem_chainTo (ht : t.WF) (hr : t.Rooted) (hb : t.find? x = some b) : t.root ∈ t.chainTo x := by
  refine ht.chain_induction (P := fun x => t.root ∈ t.chainTo x) ?_ ?_ hb
  . intro x b hb hp
    rw [chainTo_of_root hb hp, hr hb hp]
    exact List.mem_singleton.mpr rfl
  . intro x p hx ih
    rw [ht.chainTo_of_child hx]
    exact List.mem_cons_of_mem _ ih

theorem WF.getLast?_chainTo (ht : t.WF) (hr : t.Rooted) (hb : t.find? x = some b) :
    (t.chainTo x).getLast? = some t.root := by
  refine ht.chain_induction (P := fun x => (t.chainTo x).getLast? = some t.root) ?_ ?_ hb
  . intro x b hb hp
    rw [chainTo_of_root hb hp, hr hb hp]
    rfl
  . intro x p hx ih
    rw [ht.chainTo_of_child hx, List.getLast?_cons, ih]
    rfl

/-- A chain has a block at every height from the root on. -/
theorem WF.exists_heightOf_eq (ht : t.WF) (hr : t.Rooted) (hb : t.find? x = some b) {n : Nat}
    (hlow : t.heightOf t.root ≤ n) (hhigh : n ≤ t.heightOf x) : ∃ y ∈ t.chainTo x, t.heightOf y = n :=
  ht.exists_heightOf_eq_of_mem (ht.root_mem_chainTo hr hb) hlow hhigh

section Extends

/-- `t'` has the blocks of `t`, maybe among others. -/
def Extends (t t' : Tree A) : Prop :=
  ∀ ⦃x b⦄, t.find? x = some b → ∃ b', t'.find? x = some b' ∧ b'.shape = b.shape

theorem Extends.refl (t : Tree A) : t.Extends t := fun _ b hb => ⟨b, hb, rfl⟩

theorem Extends.trans {t'' : Tree A} (hs : t.Extends t') (hs' : t'.Extends t'') : t.Extends t'' := by
  intro x b hb
  obtain ⟨b', hb', heq⟩ := hs hb
  obtain ⟨b'', hb'', heq'⟩ := hs' hb'
  exact ⟨b'', hb'', heq'.trans heq⟩

theorem SameShape.extends (hs : t.SameShape t') : t.Extends t' := fun _ _ hb => hs.symm.find? hb

theorem Extends.isChild (hs : t.Extends t') (hx : t.IsChild x p) : t'.IsChild x p := by
  obtain ⟨b, hb, hp⟩ := hx
  obtain ⟨b', hb', heq⟩ := hs hb
  exact ⟨b', hb', (shape_eq_iff.mp heq).2.1.trans hp⟩

theorem Extends.heightOf (hs : t.Extends t') (hb : t.find? x = some b) : t'.heightOf x = t.heightOf x := by
  obtain ⟨b', hb', heq⟩ := hs hb
  rw [heightOf_eq hb, heightOf_eq hb', (shape_eq_iff.mp heq).2.2]

theorem Extends.chainTo (hs : t.Extends t') (ht : t.WF) (ht' : t'.WF) (hb : t.find? x = some b) :
    t'.chainTo x = t.chainTo x := by
  refine ht.chain_induction (P := fun x => t'.chainTo x = t.chainTo x) ?_ ?_ hb
  . intro x b hb hp
    obtain ⟨b', hb', heq⟩ := hs hb
    rw [chainTo_of_root hb hp, chainTo_of_root hb' ((shape_eq_iff.mp heq).2.1.trans hp)]
  . intro x p hx ih
    rw [ht.chainTo_of_child hx, ht'.chainTo_of_child (hs.isChild hx), ih]

end Extends

section Same

variable (hs : t.SameShape t')

include hs

theorem SameShape.heightOf (x : Hash) : t'.heightOf x = t.heightOf x := by
  cases hb : t.find? x with
  | some b => exact hs.extends.heightOf hb
  | none =>
    cases hb' : t'.find? x with
    | none =>
      unfold Tree.heightOf
      rw [hb, hb']
    | some b' =>
      obtain ⟨b, hb'', _⟩ := hs.find? hb'
      rw [hb] at hb''
      cases hb''

theorem SameShape.ancestors (n : Nat) (x : Hash) : t'.ancestors n x = t.ancestors n x := by
  induction n generalizing x with
  | zero => rfl
  | succ n ih =>
    unfold Tree.ancestors
    cases hb : t.find? x with
    | none =>
      cases hb' : t'.find? x with
      | none => rfl
      | some b' =>
        obtain ⟨b, hb'', _⟩ := hs.find? hb'
        rw [hb] at hb''
        cases hb''
    | some b =>
      obtain ⟨b', hb', heq⟩ := hs.symm.find? hb
      rw [hb']
      simp only [(shape_eq_iff.mp heq).2.1]
      cases b.pprev with
      | none => rfl
      | some p => simp only [ih]

theorem SameShape.chainTo (x : Hash) : t'.chainTo x = t.chainTo x := by
  unfold Tree.chainTo
  rw [hs.heightOf, hs.ancestors]

theorem SameShape.getAncestor (x : Hash) (n : Nat) : t'.getAncestor x n = t.getAncestor x n := by
  have hh : t'.heightOf = t.heightOf := funext hs.heightOf
  unfold Tree.getAncestor
  rw [hs.chainTo, hh]

theorem SameShape.getForkBlock (x y : Hash) : t'.getForkBlock x y = t.getForkBlock x y := by
  have hh : t'.heightOf = t.heightOf := funext hs.heightOf
  have hc : t'.chainTo = t.chainTo := funext hs.chainTo
  unfold Tree.getForkBlock
  rw [hc, hh]

theorem SameShape.onActiveChain (htip : t'.activeTip = t.activeTip) (x : Hash) :
    t'.onActiveChain x = t.onActiveChain x := by
  unfold Tree.onActiveChain
  rw [hs.chainTo, htip]

theorem SameShape.walk (x : Hash) (l : List Hash) (d : Hash) : t'.Walk x l d ↔ t.Walk x l d := by
  induction l generalizing x with
  | nil => exact Iff.rfl
  | cons y l ih => simp only [Walk, hs.isChild, ih]

end Same

section Fork

theorem getForkBlock_mem (h : t.getForkBlock x y = some d) : d ∈ t.chainTo x ∧ d ∈ t.chainTo y := by
  simp only [getForkBlock, Option.map_eq_some_iff] at h
  obtain ⟨⟨a, b⟩, hfind, rfl⟩ := h
  have heq : a = b := by simpa using List.find?_some hfind
  have hmem := List.of_mem_zip (List.mem_of_find?_eq_some hfind)
  have hx := (List.dropWhile_sublist _).subset hmem.1
  have hy := (List.dropWhile_sublist _).subset hmem.2
  exact ⟨hx, heq ▸ hy⟩

theorem findFork_mem (h : t.findFork x = some d) : d ∈ t.chainTo x ∧ d ∈ t.chainTo t.activeTip := by
  unfold findFork at h
  refine ⟨List.mem_of_find?_eq_some h, ?_⟩
  have := List.find?_some h
  simpa [onActiveChain] using this

theorem onActiveChain_iff : t.onActiveChain x = true ↔ x ∈ t.chainTo t.activeTip := by
  simp [onActiveChain]

theorem onActiveChain_eq_false_iff : t.onActiveChain x = false ↔ x ∉ t.chainTo t.activeTip := by
  rw [← Bool.not_eq_true, onActiveChain_iff]

/-- Whatever is on the active chain and on the chain of `x` is on the chain of their fork. -/
theorem WF.mem_chainTo_findFork (ht : t.WF) (hd : t.findFork x = some d) (hy : y ∈ t.chainTo x)
    (ha : y ∈ t.chainTo t.activeTip) : y ∈ t.chainTo d := by
  obtain ⟨b, hb⟩ : ∃ b, t.find? x = some b := by
    cases hb : t.find? x with
    | none =>
      rw [chainTo_of_none hb] at hy
      cases hy
    | some b => exact ⟨b, rfl⟩
  revert hd hy
  refine ht.chain_induction
    (P := fun x => t.findFork x = some d → y ∈ t.chainTo x → y ∈ t.chainTo d) ?_ ?_ hb
  . intro x b hb hp hd hy
    have heq : d = x := by
      have := (findFork_mem hd).1
      rw [chainTo_of_root hb hp] at this
      exact List.mem_singleton.mp this
    rw [heq]
    exact hy
  . intro x p hx ih hd hy
    unfold findFork at hd
    rw [ht.chainTo_of_child hx, List.find?_cons] at hd
    cases hact : t.onActiveChain x with
    | true =>
      rw [hact] at hd
      cases hd
      exact hy
    | false =>
      rw [hact] at hd
      rw [ht.chainTo_of_child hx, List.mem_cons] at hy
      rcases hy with rfl | hy
      . exact absurd ha (onActiveChain_eq_false_iff.mp hact)
      . exact ih hd hy

/-- A block of the active chain is on the chain of `x` if it is not above the fork. -/
theorem WF.mem_chainTo_iff_findFork (ht : t.WF) (hd : t.findFork x = some d) (ha : y ∈ t.chainTo t.activeTip) :
    y ∈ t.chainTo x ↔ t.heightOf y ≤ t.heightOf d := by
  constructor
  . intro hy
    exact ht.heightOf_le (ht.mem_chainTo_findFork hd hy ha)
  . intro hle
    exact ht.mem_chainTo_trans (ht.mem_chainTo_of_le ha (findFork_mem hd).2 hle) (findFork_mem hd).1

theorem WF.findFork_of_active (ht : t.WF) (ha : x ∈ t.chainTo t.activeTip) : t.findFork x = some x := by
  obtain ⟨b, hb⟩ := ht.find?_of_mem_chainTo ha
  have hact := onActiveChain_iff.mpr ha
  unfold findFork
  cases hp : b.pprev with
  | none => simp [chainTo_of_root hb hp, hact]
  | some p => simp [ht.chainTo_of_child ⟨b, hb, hp⟩, hact]

/-- The blocks of a branch fork where its last block does. -/
theorem WF.findFork_of_mem_branch (ht : t.WF) (hy : y ∈ t.chainTo x) (hoff : y ∉ t.chainTo t.activeTip) :
    t.findFork y = t.findFork x := by
  obtain ⟨l, hw⟩ := ht.exists_walk hy
  unfold findFork
  rw [hw.chainTo ht, List.find?_append]
  have hnone : l.find? t.onActiveChain = none := by
    rw [List.find?_eq_none]
    intro z hz hact
    have hzx : z ∈ t.chainTo x := by
      rw [hw.chainTo ht]
      exact List.mem_append_left _ hz
    have hle := hw.lt_heightOf ht z hz
    exact hoff (ht.mem_chainTo_trans (ht.mem_chainTo_of_le hy hzx (by omega)) (onActiveChain_iff.mp hact))
  rw [hnone]
  rfl

theorem getAncestor_mem {n : Nat} (h : t.getAncestor x n = some d) : d ∈ t.chainTo x := by
  unfold getAncestor at h
  split at h
  . cases h
  . exact (List.dropWhile_sublist _).subset (List.mem_of_head? h)

end Fork

end Tree

end AltIntegration
