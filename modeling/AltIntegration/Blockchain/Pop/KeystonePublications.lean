import Mathlib.Order.Bounds.Basic
import AltIntegration.Blockchain.TreeInvariants
import AltIntegration.Blockchain.Lemmas.Chain
import AltIntegration.Blockchain.Pop.PublicationViews

/-!
This module contains what the height of the first publication of a keystone is: the least of the heights at
which the endorsements that count for the keystone were published.
-/

namespace AltIntegration

section

variable {α : Type} {height : α → Nat} {l : List α}

theorem dropWhile_eq_filter (hl : l.Pairwise (fun x y => height x < height y)) (n : Nat) :
    l.dropWhile (fun x => decide (height x ≤ n)) = l.filter (fun x => decide (n < height x)) := by
  induction l with
  | nil => rfl
  | cons x l ih =>
    have ⟨hx, hl⟩ := List.pairwise_cons.mp hl
    by_cases hle : height x ≤ n
    . rw [List.dropWhile_cons_of_pos (by simpa using hle), List.filter_cons_of_neg (by simpa using hle), ih hl]
    . rw [List.dropWhile_cons_of_neg (by simpa using hle), eq_comm, List.filter_eq_self]
      intro y hy
      rw [decide_eq_true_eq]
      cases List.mem_cons.mp hy with
      | inl heq =>
        rw [heq]
        omega
      | inr hy =>
        have := hx y hy
        omega

/-- In a list with increasing heights, what is found first is the lowest. -/
theorem height_find?_le {q : α → Bool} (hl : l.Pairwise (fun x y => height x < height y)) {y z : α}
    (h : l.find? q = some y) (hz : z ∈ l) (hqz : q z = true) : height y ≤ height z := by
  obtain ⟨_, before, after, heq, hbefore⟩ := List.find?_eq_some_iff_append.mp h
  rw [heq, List.mem_append, List.mem_cons] at hz
  rcases hz with hz | rfl | hz
  . have := hbefore z hz
    simp [hqz] at this
  . exact Nat.le_refl _
  . rw [heq] at hl
    exact ((List.pairwise_cons.mp (List.pairwise_append.mp hl).2.1).1 z hz).le

end

namespace Tree

variable {A : Type} {t : Tree A}

theorem WF.chainTo_increasing (ht : t.WF) (x : Hash) :
    (t.chainTo x).reverse.Pairwise (fun y z => t.heightOf y < t.heightOf z) := by
  rw [List.pairwise_reverse]
  cases hx : t.find? x with
  | none =>
    rw [chainTo_of_none hx]
    exact List.Pairwise.nil
  | some b =>
    apply ht.chain_induction (P := fun x => (t.chainTo x).Pairwise (fun z y => t.heightOf y < t.heightOf z)) _ _ hx
    . intro x b hb hp
      rw [chainTo_of_root hb hp]
      exact List.pairwise_singleton _ _
    . intro x p hx ih
      rw [ht.chainTo_of_child hx]
      apply List.pairwise_cons.mpr ⟨_, ih⟩
      intro y hy
      have hle := ht.heightOf_le hy
      have hchild := ht.heightOf_child hx
      omega

end Tree

section Publications

variable {A B : Type} [PopAddon A] (p : PopParams) (ed : Tree A) (ing : Tree B)

/-- The block `h` is newer than a keystone with this timestamp. -/
def isNewer (timestamp : Nat) (h : Hash) : Bool :=
  (ing.find? h).any (fun b => decide (timestamp < b.header.timestamp))

/--
The height at which a publication in the block `h` counts: its own one if the block is newer than the keystone,
or if nothing is adjusted, else that of the first higher block of the best chain which is newer, if there is one.
-/
def IsAdjustedHeight (timestamp : Nat) (h : Hash) (height : Nat) : Prop :=
  if p.enableTimeAdjustment = false ∨ isNewer ing timestamp h = true then
    height = ing.heightOf h
  else
    IsLeast {n | ∃ y, ing.onActiveChain y = true ∧ isNewer ing timestamp y = true ∧ ing.heightOf h < ing.heightOf y ∧
      ing.heightOf y = n} height

/-- The endorsement of a block of the chain, from the height `first` on and below `bound`, counts. -/
structure IsCounted (chain : List Hash) (first bound : Nat) (e : Endorsement) : Prop where
  endorsed : ∃ height index, first ≤ height ∧ height < bound ∧ chainAt ed chain height = some index ∧
    e ∈ (PopAddon.popState index.addon).endorsedBy
  containing : e.containingHash ∈ chain
  blockOfProof : ing.onActiveChain e.blockOfProof = true

omit [PopAddon A] in
theorem mem_referencedBy {chain : List Hash} {es : List Endorsement} {refs : List Hash}
    (h : referencedBy ed ing chain es = .ok refs) (x : Hash) :
    x ∈ refs ↔ ∃ e ∈ es, e.containingHash ∈ chain ∧ ing.onActiveChain e.blockOfProof = true ∧ e.blockOfProof = x := by
  induction es generalizing refs with
  | nil =>
    cases h
    simp
  | cons e es ih =>
    simp only [referencedBy] at h
    simp only [List.mem_cons, exists_eq_or_imp]
    split at h
    . cases h
    . split at h
      . next hout =>
        simp only [Bool.not_eq_eq_eq_not, Bool.not_true, List.contains_eq_mem, decide_eq_false_iff_not] at hout
        rw [ih h]
        simp [hout]
      . next hin =>
        simp only [Bool.not_eq_true', Bool.not_eq_false, List.contains_eq_mem, decide_eq_true_eq] at hin
        split at h
        . cases h
        . split at h
          . next hoff =>
            rw [Bool.not_eq_true'] at hoff
            rw [ih h]
            simp [hoff]
          . next hon =>
            rw [Bool.not_eq_true', Bool.not_eq_false] at hon
            cases hr : referencedBy ed ing chain es with
            | error e' =>
              rw [hr] at h
              cases h
            | ok rest =>
              rw [hr] at h
              cases h
              rw [List.mem_cons, ih hr]
              simp only [hin, hon, true_and, eq_comm (a := x)]

/-- The blocks of proof that are collected are those of the endorsements that count. -/
theorem mem_getProtoKeystoneContext {chain : List Hash} {n first : Nat} {refs : List Hash}
    (h : getProtoKeystoneContext ed ing chain n first = .ok refs) (x : Hash) :
    x ∈ refs ↔ ∃ e, IsCounted ed ing chain first (first + n) e ∧ e.blockOfProof = x := by
  induction n generalizing first refs with
  | zero =>
    cases h
    simp only [List.not_mem_nil, false_iff]
    intro hex
    obtain ⟨e, ⟨⟨height, index, hle, hlt, _⟩, _, _⟩, _⟩ := hex
    omega
  | succ n ih =>
    simp only [getProtoKeystoneContext] at h
    split at h
    . cases h
    . next index hindex =>
      split at h
      . cases h
      . next refs' hrefs' =>
        cases hr : getProtoKeystoneContext ed ing chain n (first + 1) with
        | error e' =>
          rw [hr] at h
          cases h
        | ok rest =>
          rw [hr] at h
          cases h
          rw [List.mem_append, mem_referencedBy ed ing hrefs', ih hr]
          constructor
          . intro hx
            cases hx with
            | inl hx =>
              obtain ⟨e, he, hcontaining, hactive, heq⟩ := hx
              exact ⟨e, ⟨⟨first, index, Nat.le_refl _, by omega, hindex, he⟩, hcontaining, hactive⟩, heq⟩
            | inr hx =>
              obtain ⟨e, ⟨⟨height, index', hle, hlt, hat⟩, hcontaining, hactive⟩, heq⟩ := hx
              exact ⟨e, ⟨⟨height, index', by omega, by omega, hat⟩, hcontaining, hactive⟩, heq⟩
          . intro hx
            obtain ⟨e, ⟨⟨height, index', hle, hlt, hat, he⟩, hcontaining, hactive⟩, heq⟩ := hx
            by_cases hfirst : height = first
            . subst hfirst
              rw [hindex] at hat
              cases hat
              exact .inl ⟨e, he, hcontaining, hactive, heq⟩
            . exact .inr ⟨e, ⟨⟨height, index', by omega, by omega, hat, he⟩, hcontaining, hactive⟩, heq⟩

variable {ing}

/-- The block that the code looks for is the first higher one that is newer. -/
theorem adjustedEndorsementIndex_eq (hing : ing.WF) (timestamp height : Nat) :
    (∃ n, IsLeast {n | ∃ y, ing.onActiveChain y = true ∧ isNewer ing timestamp y = true ∧ height < ing.heightOf y ∧
      ing.heightOf y = n} n ∧ adjustedEndorsementIndex ing timestamp height = n) ∨
    (¬∃ y, ing.onActiveChain y = true ∧ isNewer ing timestamp y = true ∧ height < ing.heightOf y) ∧
      adjustedEndorsementIndex ing timestamp height = noEndorsement := by
  have hsorted := hing.chainTo_increasing ing.activeTip
  simp only [adjustedEndorsementIndex]
  rw [dropWhile_eq_filter hsorted, List.find?_filter]
  split
  . next y hy =>
    have hq := List.find?_some hy
    simp only [decide_eq_true_eq] at hq
    have hmem := List.mem_reverse.mp (List.mem_of_find?_eq_some hy)
    apply Or.inl
    refine ⟨_, ⟨⟨y, Tree.onActiveChain_iff.mpr hmem, hq.2, hq.1, rfl⟩, ?_⟩, rfl⟩
    intro n hn
    obtain ⟨z, hz, hnew, hlt, heq⟩ := hn
    rw [← heq]
    apply height_find?_le hsorted hy (List.mem_reverse.mpr (Tree.onActiveChain_iff.mp hz))
    simp only [decide_eq_true_eq]
    exact ⟨hlt, hnew⟩
  . next hnone =>
    apply Or.inr
    refine ⟨?_, rfl⟩
    intro hex
    obtain ⟨z, hz, hnew, hlt⟩ := hex
    rw [List.find?_eq_none] at hnone
    apply hnone z (List.mem_reverse.mpr (Tree.onActiveChain_iff.mp hz))
    simp only [decide_eq_true_eq]
    exact ⟨hlt, hnew⟩

variable {p}

theorem isAdjustedHeight_iff {timestamp height : Nat} {h : Hash}
    (hown : p.enableTimeAdjustment = false ∨ isNewer ing timestamp h = true) :
    IsAdjustedHeight p ing timestamp h height ↔ height = ing.heightOf h := by
  rw [IsAdjustedHeight, if_pos hown]

/-- No publication counts below the block it is in. -/
theorem IsAdjustedHeight.heightOf_le {timestamp height : Nat} {h : Hash}
    (hadj : IsAdjustedHeight p ing timestamp h height) : ing.heightOf h ≤ height := by
  rw [IsAdjustedHeight] at hadj
  split at hadj
  . exact Nat.le_of_eq hadj.symm
  . obtain ⟨y, _, _, hlt, heq⟩ := hadj.1
    omega

/-- The least of the heights at which the publications in some blocks count, `noEndorsement` among them. -/
theorem getKeystoneContext_isLeast (hing : ing.WF) (timestamp : Nat) (l : List Hash) :
    IsLeast (insert noEndorsement {height | ∃ h ∈ l, IsAdjustedHeight p ing timestamp h height})
      (getKeystoneContext p ing timestamp l) := by
  induction l with
  | nil => simp [getKeystoneContext]
  | cons h l ih =>
    have hunion : insert noEndorsement {height | ∃ h' ∈ h :: l, IsAdjustedHeight p ing timestamp h' height} =
        insert noEndorsement {height | ∃ h' ∈ l, IsAdjustedHeight p ing timestamp h' height} ∪
          {height | IsAdjustedHeight p ing timestamp h height} := by
      ext height
      simp only [List.mem_cons, exists_eq_or_imp, Set.mem_insert_iff, Set.mem_ofPred_eq, Set.mem_union]
      rw [or_assoc, or_comm (a := IsAdjustedHeight p ing timestamp h height)]
    rw [hunion]
    simp only [getKeystoneContext]
    split
    . next hle =>
      -- what is not lower before it is adjusted, is not lower afterwards
      refine ⟨.inl ih.1, ?_⟩
      intro height hheight
      cases hheight with
      | inl hrest => exact ih.2 hrest
      | inr hadj => exact hle.trans (IsAdjustedHeight.heightOf_le hadj)
    . next hlt =>
      split
      . next hown =>
        have hown : p.enableTimeAdjustment = false ∨ isNewer ing timestamp h = true := by simpa [isNewer] using hown
        have hsingle : {height | IsAdjustedHeight p ing timestamp h height} = {ing.heightOf h} := by
          ext height
          exact isAdjustedHeight_iff hown
        have hmin := ih.union (isLeast_singleton (a := ing.heightOf h))
        rw [hsingle]
        rwa [min_eq_right (by omega)] at hmin
      . next hown =>
        have hown : ¬(p.enableTimeAdjustment = false ∨ isNewer ing timestamp h = true) := by simpa [isNewer] using hown
        rcases adjustedEndorsementIndex_eq hing timestamp (ing.heightOf h) with ⟨n, hn, heq⟩ | ⟨hnone, heq⟩
        . have hsingle : {height | IsAdjustedHeight p ing timestamp h height} = {n} := by
            ext height
            simp only [IsAdjustedHeight, if_neg hown, Set.mem_ofPred_eq, Set.mem_singleton_iff]
            constructor
            . intro hheight
              exact hheight.unique hn
            . intro hheight
              rwa [hheight]
          rw [hsingle, heq]
          exact ih.union isLeast_singleton
        . have hempty : {height | IsAdjustedHeight p ing timestamp h height} = ∅ := by
            ext height
            simp only [IsAdjustedHeight, if_neg hown, Set.mem_ofPred_eq, Set.mem_empty_iff_false, iff_false]
            intro hheight
            obtain ⟨y, hactive, hnew, hlt, _⟩ := hheight.1
            exact hnone ⟨y, hactive, hnew, hlt⟩
          rw [hempty, heq, Set.union_empty, min_eq_left (ih.2 (Set.mem_insert _ _))]
          exact ih

/--
The height of the first publication of a keystone is the least one at which a publication counts, of all
endorsements of the blocks from the keystone to the highest one that connects it to the next keystone. The order
in which the blocks of proof are gone through makes no difference.
-/
theorem firstBlockPublicationHeight_isLeast (hing : ing.WF) {chain : List Hash} {keystone tip : Nat} {refs : List Hash}
    (hrefs : getProtoKeystoneContext ed ing chain
      (min (highestBlockWhichConnectsKeystoneToPrevious keystone p.keystoneInterval) tip + 1 - keystone) keystone =
        .ok refs) {referencedByBlocks : List Hash} (hset : ∀ h, h ∈ referencedByBlocks ↔ h ∈ refs) (timestamp : Nat) :
    IsLeast
      (insert noEndorsement
        {height | ∃ e, IsCounted ed ing chain keystone
          (min (highestBlockWhichConnectsKeystoneToPrevious keystone p.keystoneInterval) tip + 1) e ∧
            IsAdjustedHeight p ing timestamp e.blockOfProof height})
      (getKeystoneContext p ing timestamp referencedByBlocks) := by
  have hleast := getKeystoneContext_isLeast (p := p) hing timestamp referencedByBlocks
  have heq : {height | ∃ h ∈ referencedByBlocks, IsAdjustedHeight p ing timestamp h height} =
      {height | ∃ e, IsCounted ed ing chain keystone
        (min (highestBlockWhichConnectsKeystoneToPrevious keystone p.keystoneInterval) tip + 1) e ∧
          IsAdjustedHeight p ing timestamp e.blockOfProof height} := by
    ext height
    simp only [Set.mem_ofPred_eq]
    constructor
    . intro hex
      obtain ⟨h, hmem, hadj⟩ := hex
      obtain ⟨e, ⟨⟨n, index, hle, hlt, hat⟩, hcontaining, hactive⟩, he⟩ :=
        (mem_getProtoKeystoneContext ed ing hrefs h).mp ((hset h).mp hmem)
      rw [← he] at hadj
      exact ⟨e, ⟨⟨n, index, hle, by omega, hat⟩, hcontaining, hactive⟩, hadj⟩
    . intro hex
      obtain ⟨e, ⟨⟨n, index, hle, hlt, hat⟩, hcontaining, hactive⟩, hadj⟩ := hex
      apply Exists.intro e.blockOfProof
      apply And.intro _ hadj
      rw [hset, mem_getProtoKeystoneContext ed ing hrefs]
      exact ⟨e, ⟨⟨n, index, hle, by omega, hat⟩, hcontaining, hactive⟩, rfl⟩
  rw [← heq]
  exact hleast

end Publications

namespace Small

/-- A BTC block that is newer than the block of proof below it. -/
def laterBtc : AltState := after [.btcAcceptBlockHeader (powBlock btcRoot.getHash 1 0)]

def rootEndorsement : Endorsement where
  id := 0
  endorsedHash := vbkRoot.getHash
  containingHash := vbkRoot.getHash
  blockOfProof := btcRoot.getHash

/-- The VBK tree with an endorsement of its root. -/
def endorsedRoot : Tree VbkAddon := laterBtc.sp.vbk.updatePopState vbkRoot.getHash (·.insertEndorsedBy rootEndorsement)

/-- The block of proof is not newer than the keystone, so the publication counts one block later. -/
theorem firstBlockPublicationHeight_endorsedRoot :
    IsLeast
      (insert noEndorsement
        {height | ∃ e, IsCounted endorsedRoot laterBtc.sp.btc [vbkRoot.getHash] 0
          (min (highestBlockWhichConnectsKeystoneToPrevious 0 popParams.keystoneInterval) 0 + 1) e ∧
            IsAdjustedHeight popParams laterBtc.sp.btc 0 e.blockOfProof height})
      1 := by
  have hwf : laterBtc.sp.btc.WF := ((reachable_after _).inv.2.2 (Tree.not_restored rfl)).wf
  have hrefs : getProtoKeystoneContext endorsedRoot laterBtc.sp.btc [vbkRoot.getHash] 1 0 = .ok [btcRoot.getHash] := rfl
  have hset : ∀ h, h ∈ [btcRoot.getHash] ↔ h ∈ [btcRoot.getHash] := fun _ => Iff.rfl
  exact firstBlockPublicationHeight_isLeast endorsedRoot hwf hrefs hset 0

end Small

end AltIntegration
