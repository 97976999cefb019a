import AltIntegration.Merkle.MerkleTree

/-!
This module shows that `buildTree` builds the layers of a pair tree, and that the merkle paths of both kinds of trees
lead to their roots.
-/

namespace AltIntegration.Merkle

open PairTree

variable {α : Type} (hash : α → α → α) (zero : α)

namespace MerkleTree

section Buffer

theorem getD_set (l : List α) {i : Nat} (hi : i < l.length) (v : α) (j : Nat) :
    (l.set i v).getD j zero = if i = j then v else l.getD j zero := by
  rw [List.getD_eq_getElem?_getD, List.getElem?_set, List.getD_eq_getElem?_getD]
  split
  . rw [Option.getD_some]
  . rfl

theorem length_hashLayer (n i : Nat) (layer : List α) : (hashLayer hash zero n i layer).length = layer.length := by
  induction n generalizing i layer with
  | zero => rfl
  | succ n ih => rw [hashLayer, ih, List.length_set]

/-- A node is written only after it is read for the last time. -/
theorem getD_hashLayer (n i : Nat) (layer : List α) (h : i + n ≤ layer.length) (j : Nat) :
    (hashLayer hash zero n i layer).getD j zero =
      if i ≤ j ∧ j < i + n then hash (layer.getD (2 * j) zero) (layer.getD (2 * j + 1) zero) else layer.getD j zero := by
  induction n generalizing i layer with
  | zero => rw [hashLayer, if_neg (by omega)]
  | succ n ih =>
    have hi : i < layer.length := by omega
    rw [hashLayer, ih _ _ (by rw [List.length_set]; omega)]
    split
    . next hj =>
      rw [if_pos (by omega), getD_set _ _ hi, getD_set _ _ hi, if_neg (by omega), if_neg (by omega)]
    . next hj =>
      rw [getD_set _ _ hi]
      split
      . next heq => rw [if_pos (by omega), heq]
      . next hne => rw [if_neg (by omega)]

theorem getD_parents (l : List α) {j : Nat} (hj : j < halve l.length) :
    (parents hash l).getD j zero =
      hash (l.getD (2 * j) zero) (if 2 * j + 1 < l.length then l.getD (2 * j + 1) zero else l.getD (2 * j) zero) := by
  induction l using layerPairs.induct generalizing j with
  | case1 =>
    unfold halve at hj
    simp at hj
  | case2 x =>
    have hzero : j = 0 := by
      unfold halve at hj
      simp at hj
      exact hj
    rw [hzero]
    rfl
  | case3 x y l ih =>
    rw [List.length_cons, List.length_cons] at hj ⊢
    cases j with
    | zero => 
      rw [if_pos (by omega)]
      rfl
    | succ j =>
      have hj' : j < halve l.length := by
        unfold halve at hj ⊢
        omega
      have h := ih hj'
      rw [parents, layerPairs, List.map_cons, List.getD_cons_succ, ← parents, h, show 2 * (j + 1) = 2 * j + 1 + 1 by omega]
      simp only [List.getD_cons_succ]
      congr 1
      split
      . rw [if_pos (by omega)]
      . rw [if_neg (by omega)]

theorem getD_take (l : List α) {n j : Nat} (hj : j < n) : (l.take n).getD j zero = l.getD j zero := by
  rw [List.getD_eq_getElem?_getD, List.getElem?_take_of_lt hj, List.getD_eq_getElem?_getD]

theorem eq_of_getD {l l' : List α} (hlen : l.length = l'.length) (h : ∀ j < l.length, l.getD j zero = l'.getD j zero) :
    l = l' := by
  apply List.ext_getElem hlen
  intro j hj hj'
  have heq := h j hj
  rw [List.getD_eq_getElem?_getD, List.getD_eq_getElem?_getD, List.getElem?_eq_getElem hj,
    List.getElem?_eq_getElem hj'] at heq
  exact heq

/-- One round of `buildTree` -/
theorem take_hashLayer {n : Nat} {layer : List α} (hlen : n + n % 2 ≤ layer.length) :
    (hashLayer hash zero (halve n) 0 (if n % 2 ≠ 0 then layer.set n (layer.getD (n - 1) zero) else layer)).take (halve n) =
      parents hash (layer.take n) := by
  have htake : (layer.take n).length = n := List.length_take_of_le (by omega)
  have hpad : (if n % 2 ≠ 0 then layer.set n (layer.getD (n - 1) zero) else layer).length = layer.length := by
    split
    . rw [List.length_set]
    . rfl
  have hread : ∀ j, (if n % 2 ≠ 0 then layer.set n (layer.getD (n - 1) zero) else layer).getD j zero =
      if n % 2 ≠ 0 ∧ n = j then layer.getD (n - 1) zero else layer.getD j zero := by
    intro j
    by_cases hodd : n % 2 ≠ 0
    . rw [if_pos hodd, getD_set _ _ (by omega)]
      by_cases hj : n = j
      . rw [if_pos hj, if_pos ⟨hodd, hj⟩]
      . rw [if_neg hj, if_neg (fun h => hj h.2)]
    . rw [if_neg hodd, if_neg (fun h => hodd h.1)]
  have hhalf : 2 * halve n = n + n % 2 := by
    unfold halve
    omega
  apply eq_of_getD zero
  . rw [length_parents, htake, List.length_take, length_hashLayer, hpad]
    omega
  . intro j hj
    rw [List.length_take] at hj
    rw [getD_take _ _ (by omega), getD_hashLayer _ _ _ _ _ (by rw [hpad]; omega), if_pos (by omega),
      getD_parents _ _ _ (by rw [htake]; omega), htake, hread, hread, if_neg (by omega), getD_take _ _ (by omega)]
    congr 1
    split
    . next hlast =>
      rw [if_neg (by omega)]
      congr 1
      omega
    . rw [if_pos (by omega), getD_take _ _ (by omega)]

theorem buildLoop_eq (fuel n : Nat) (layer : List α) (hpos : 0 < n) (hfuel : n ≤ fuel)
    (hlen : n + n % 2 ≤ layer.length) :
    layer.take n :: buildLoop hash zero fuel n layer = levels hash (depth n) (layer.take n) := by
  induction fuel generalizing n layer with
  | zero => omega
  | succ fuel ih =>
    rw [buildLoop]
    split
    . next hlt =>
      have hn : (if n % 2 ≠ 0 then n + 1 else n) / 2 = halve n := by
        unfold halve
        split
        . rfl
        . omega
      have hhalf : 2 * halve n = n + n % 2 := by
        unfold halve
        omega
      have hround := take_hashLayer hash zero hlen
      have hbuffer : (hashLayer hash zero (halve n) 0
          (if n % 2 ≠ 0 then layer.set n (layer.getD (n - 1) zero) else layer)).length = layer.length := by
        rw [length_hashLayer]
        split
        . rw [List.length_set]
        . rfl
      simp only
      rw [hn, ih _ _ (by omega) (by omega) (by rw [hbuffer]; omega), hround, depth_of_one_lt hlt, levels]
    . next hle =>
      rw [depth_of_le_one (by omega), levels]

theorem buildTree_eq {l : List α} (h : l ≠ []) : buildTree hash zero l = levels hash (depth l.length) l := by
  have hpos := List.length_pos_iff.mpr h
  unfold buildTree
  simp only
  rw [if_neg (by omega)]
  split
  . next hone => rw [hone, depth_of_le_one (by decide), levels]
  . split
    . next heven =>
      have hloop := buildLoop_eq hash zero l.length l.length l hpos (Nat.le_refl _) (by omega)
      rwa [List.take_length] at hloop
    . next hodd =>
      have hloop := buildLoop_eq hash zero l.length l.length (l ++ [zero]) hpos (Nat.le_refl _)
        (by rw [List.length_append, List.length_singleton]; omega)
      rwa [List.take_left] at hloop

theorem buildTree_eq_nil_iff {l : List α} : buildTree hash zero l = [] ↔ l = [] := by
  constructor
  . intro hnil
    by_cases h : l = []
    . exact h
    . rw [buildTree_eq hash zero h] at hnil
      cases hk : depth l.length with
      | zero => rw [hk, levels] at hnil; cases hnil
      | succ k => rw [hk, levels] at hnil; cases hnil
  . intro h
    rw [h]
    rfl

end Buffer

section Root

variable {hash zero} {hashes : List α}

theorem getLast?_levels (k : Nat) (l : List α) : (levels hash k l).getLast? = some (level hash k l) := by
  induction k generalizing l with
  | zero => rfl
  | succ k ih =>
    cases k with
    | zero => rfl
    | succ k =>
      have h := ih (parents hash l)
      rw [levels] at h
      rw [levels, levels, List.getLast?_cons_cons, h]
      rfl

/-- The assertion on the last layer holds. -/
theorem getMerkleRoot_new : (new hash zero hashes).getMerkleRoot zero = some (root hash zero hashes) := by
  unfold getMerkleRoot new
  simp only
  by_cases h : hashes = []
  . rw [h, root_nil]
    rfl
  . rw [buildTree_eq hash zero h, getLast?_levels, level_depth_eq h]

theorem layers_new_eq_nil_iff : (new hash zero hashes).layers = [] ↔ hashes = [] := buildTree_eq_nil_iff hash zero

theorem length_levels (k : Nat) (l : List α) : (levels hash k l).length = k + 1 := by
  induction k generalizing l with
  | zero => rfl
  | succ k ih => rw [levels, List.length_cons, ih]

theorem length_layers_new_eq_one_iff : (new hash zero hashes).layers.length = 1 ↔ hashes.length = 1 := by
  by_cases h : hashes = []
  . rw [h]
    rfl
  . have hpos := List.length_pos_iff.mpr h
    unfold new
    simp only
    rw [buildTree_eq hash zero h, length_levels]
    cases Nat.lt_or_ge 1 hashes.length with
    | inl hlt =>
      rw [depth_of_one_lt hlt]
      omega
    | inr hle =>
      rw [depth_of_le_one hle]
      omega

end Root

section Path

variable {hashes : List α}

theorem getMerklePathLayers_new {j : Nat} (hj : j < hashes.length) :
    (new hash zero hashes).getMerklePathLayers j = path j (levels hash (depth hashes.length) hashes) := by
  have hne : hashes ≠ [] := by
    intro h
    rw [h] at hj
    cases hj
  unfold getMerklePathLayers new
  simp only
  rw [buildTree_eq hash zero hne]
  cases hk : depth hashes.length with
  | zero =>
    have hone : hashes.length = 1 := by
      have := le_two_pow_depth hashes.length
      rw [hk] at this
      omega
    rw [levels]
    simp only [hone, if_true]
    rw [path]
    simp
  | succ k =>
    have hlt : hashes.length ≠ 1 := by
      intro hone
      rw [hone, depth_of_le_one (by decide)] at hk
      cases hk
    rw [levels]
    simp only [hlt, if_false, hj, if_true]

theorem exists_path {j : Nat} {x : α} (hx : hashes[j]? = some x) :
    ∃ layers, (new hash zero hashes).getMerklePathLayers j = some layers ∧ layers.length = depth hashes.length ∧
      climb hash x j layers = root hash zero hashes := by
  obtain ⟨hj, -⟩ := List.getElem?_eq_some_iff.mp hx
  have hne : hashes ≠ [] := by
    intro h
    rw [h] at hj
    cases hj
  obtain ⟨layers, hpath, hlen, hnode⟩ := climb_path hash (depth hashes.length) hx
  refine ⟨layers, ?_, hlen, ?_⟩
  . rw [getMerklePathLayers_new hash zero hj, hpath]
  . have htop : j / 2 ^ depth hashes.length = 0 :=
      Nat.div_eq_of_lt (Nat.lt_of_lt_of_le hj (le_two_pow_depth _))
    have hroot : level hash (depth hashes.length) hashes = [root hash zero hashes] := level_depth_eq hne
    rw [hroot, htop] at hnode
    exact (Option.some.inj hnode).symm

theorem foldl_hashIndex [DecidableEq α] (h : α) (l : List α) (i : Nat) (found : Option Nat) :
    (h ∉ l → (l.zipIdx i).foldl (fun found p => if p.1 = h then some p.2 else found) found = found) ∧
    (h ∈ l → ∃ j, (l.zipIdx i).foldl (fun found p => if p.1 = h then some p.2 else found) found = some (i + j) ∧
      l[j]? = some h) := by
  induction l generalizing i found with
  | nil => exact ⟨fun _ => rfl, fun hmem => absurd hmem List.not_mem_nil⟩
  | cons a l ih =>
    rw [List.zipIdx_cons, List.foldl_cons]
    obtain ⟨habsent, hpresent⟩ := ih (i + 1) (if a = h then some i else found)
    by_cases hl : h ∈ l
    . obtain ⟨j, hj, hget⟩ := hpresent hl
      apply And.intro
      . intro hmem
        exact absurd (List.mem_cons_of_mem a hl) hmem
      . intro _
        exact ⟨j + 1, by rw [hj, Nat.add_assoc, Nat.add_comm 1], by rw [List.getElem?_cons_succ, hget]⟩
    . rw [habsent hl]
      by_cases ha : a = h
      . apply And.intro
        . intro hmem
          exact absurd (by rw [ha]; exact List.mem_cons_self) hmem
        . intro _
          exact ⟨0, by rw [if_pos ha, Nat.add_zero], by rw [List.getElem?_cons_zero, ha]⟩
      . apply And.intro
        . intro _
          rw [if_neg ha]
        . intro hmem
          cases hmem with
          | head => exact absurd rfl ha
          | tail _ hmem => exact absurd hmem hl

theorem exists_hashIndex [DecidableEq α] {h : α} (hmem : h ∈ hashes) :
    ∃ j, (new hash zero hashes).hashIndex h = some j ∧ hashes[j]? = some h := by
  obtain ⟨j, hj, hget⟩ := (foldl_hashIndex h hashes 0 none).2 hmem
  rw [Nat.zero_add] at hj
  exact ⟨j, hj, hget⟩

/-- The path of a member leads to the root. -/
theorem getMerklePath_verifies [DecidableEq α] {h : α} (hmem : h ∈ hashes) :
    ∃ p, (new hash zero hashes).getMerklePath h = some p ∧ p.calculateMerkleRoot hash = root hash zero hashes := by
  obtain ⟨j, hj, hget⟩ := exists_hashIndex hash zero hmem
  obtain ⟨layers, hpath, -, hroot⟩ := exists_path hash zero hget
  refine ⟨{ index := j, subject := h, layers := layers }, ?_, hroot⟩
  rw [getMerklePath, hj, Option.bind_some, hpath, Option.map_some]

end Path

end MerkleTree

namespace VbkMerkleTree

open MerkleTree

variable {hash zero}

/-- The root over both subtrees -/
def joinRoots (hash : α → α → α) (zero : α) (normalHashes popHashes : List α) : α :=
  hash zero (hash (root hash zero popHashes) (root hash zero normalHashes))

section Climb

section Side

variable {size i : Nat}

theorem sideOf_below (treeIndex layerIndex : Nat) (h : i + 2 < size) :
    VbkMerklePath.sideOf size treeIndex i layerIndex = layerIndex := by
  rw [VbkMerklePath.sideOf, if_neg (by omega), if_neg (by omega)]

theorem sideOf_join (treeIndex layerIndex : Nat) (h : i + 2 = size) :
    VbkMerklePath.sideOf size treeIndex i layerIndex = treeIndex := by
  rw [VbkMerklePath.sideOf, if_neg (by omega), if_pos (by omega)]

theorem sideOf_metapackage (treeIndex layerIndex : Nat) (h : i + 1 = size) :
    VbkMerklePath.sideOf size treeIndex i layerIndex = 1 := by
  rw [VbkMerklePath.sideOf, if_pos (by omega)]

end Side

/-- Above the subtree the two fixed layers follow. -/
theorem climbLoop_append {size treeIndex i : Nat} (cursor : α) (j : Nat) (layers : List α) (opposite : α)
    (hsize : i + layers.length + 2 = size) :
    VbkMerklePath.climbLoop hash size treeIndex i cursor j (layers ++ [opposite] ++ [zero]) =
      hash zero (if treeIndex % 2 = 0 then hash (climb hash cursor j layers) opposite
        else hash opposite (climb hash cursor j layers)) := by
  induction layers generalizing i cursor j with
  | nil =>
    rw [List.length_nil] at hsize
    have hjoin := fun layerIndex => sideOf_join treeIndex layerIndex hsize
    have hmetapackage := fun layerIndex => sideOf_metapackage treeIndex layerIndex (i := i + 1) hsize
    simp only [List.nil_append, List.cons_append, VbkMerklePath.climbLoop, hjoin, hmetapackage, climb]
    rw [if_neg (by decide)]
  | cons layer layers ih =>
    rw [List.length_cons] at hsize
    have hbelow := sideOf_below treeIndex j (show i + 2 < size by omega)
    rw [List.cons_append, List.cons_append, VbkMerklePath.climbLoop, climb]
    simp only [hbelow]
    exact ih _ _ (by omega)

end Climb

section Root

variable {normalHashes popHashes : List α}

theorem getMerkleRoot_new : (new hash zero normalHashes popHashes).getMerkleRoot hash zero =
    some (if normalHashes = [] ∧ popHashes.length ≤ 1 then root hash zero popHashes
      else if popHashes = [] ∧ normalHashes.length ≤ 1 then root hash zero normalHashes
      else joinRoots hash zero normalHashes popHashes) := by
  unfold VbkMerkleTree.getMerkleRoot VbkMerkleTree.new
  simp only [layers_new_eq_nil_iff, length_layers_new_eq_one_iff, MerkleTree.getMerkleRoot_new, Option.bind_some,
    Option.map_some]
  have hlen : ∀ l : List α, l.length ≤ 1 → l = [] ∨ l.length = 1 := by
    intro l hl
    cases l with
    | nil => exact Or.inl rfl
    | cons x l =>
      rw [List.length_cons] at hl
      exact Or.inr (by rw [List.length_cons]; omega)
  split
  . next h => rw [if_pos ⟨h.2, by rw [h.1]; exact Nat.zero_le 1⟩, h.1, root_nil]
  . next hempty =>
    split
    . next h => rw [if_pos ⟨h.2, Nat.le_of_eq h.1⟩]
    . next hpop =>
      have hfirst : ¬(normalHashes = [] ∧ popHashes.length ≤ 1) := by
        intro h
        cases hlen popHashes h.2 with
        | inl hnil => exact hempty ⟨hnil, h.1⟩
        | inr hone => exact hpop ⟨hone, h.1⟩
      rw [if_neg hfirst]
      split
      . next h => rw [if_pos ⟨h.2, Nat.le_of_eq h.1⟩]
      . next hnormal =>
        have hsecond : ¬(popHashes = [] ∧ normalHashes.length ≤ 1) := by
          intro h
          cases hlen normalHashes h.2 with
          | inl hnil => exact hempty ⟨h.1, hnil⟩
          | inr hone => exact hnormal ⟨hone, h.1⟩
        rw [if_neg hsecond]
        rfl

end Root

section Path

variable (hash zero) {normalHashes popHashes : List α}

/-- The hashes of a subtree -/
def hashesOf (normalHashes popHashes : List α) : TreeIndex → List α
  | .pop => popHashes
  | .normal => normalHashes

theorem treeOf_new (treeIndex : TreeIndex) : (new hash zero normalHashes popHashes).treeOf treeIndex =
    MerkleTree.new hash zero (hashesOf normalHashes popHashes treeIndex) := by
  cases treeIndex with
  | pop => rfl
  | normal => rfl

theorem oppositeOf_new (treeIndex : TreeIndex) : (new hash zero normalHashes popHashes).oppositeOf treeIndex =
    MerkleTree.new hash zero (hashesOf popHashes normalHashes treeIndex) := by
  cases treeIndex with
  | pop => rfl
  | normal => rfl

theorem finalizePath_new (layers : List α) (treeIndex : TreeIndex) :
    (new hash zero normalHashes popHashes).finalizePath zero layers treeIndex =
      some (if layers = [] ∧ hashesOf popHashes normalHashes treeIndex = [] then []
        else layers ++ [root hash zero (hashesOf popHashes normalHashes treeIndex)] ++ [zero]) := by
  unfold finalizePath
  simp only [oppositeOf_new, layers_new_eq_nil_iff, MerkleTree.getMerkleRoot_new, Option.map_some]
  split
  . next h => rw [h.1]
  . rfl

/-- The root, as one of the subtrees sees it -/
theorem getMerkleRoot_of_ne_nil {treeIndex : TreeIndex} (hne : hashesOf normalHashes popHashes treeIndex ≠ []) :
    (new hash zero normalHashes popHashes).getMerkleRoot hash zero =
      some (if hashesOf popHashes normalHashes treeIndex = [] ∧ (hashesOf normalHashes popHashes treeIndex).length ≤ 1 then
          root hash zero (hashesOf normalHashes popHashes treeIndex)
        else joinRoots hash zero normalHashes popHashes) := by
  rw [getMerkleRoot_new]
  cases treeIndex with
  | pop =>
    have hpop : popHashes ≠ [] := hne
    rw [if_neg (fun h : popHashes = [] ∧ _ => hpop h.1)]
    rfl
  | normal =>
    have hnormal : normalHashes ≠ [] := hne
    rw [if_neg (fun h : normalHashes = [] ∧ _ => hnormal h.1)]
    rfl

/-- The path of the hash `x` at index `j` -/
def pathOf (hash : α → α → α) (zero : α) (normalHashes popHashes : List α) (treeIndex : TreeIndex) (j : Nat) (x : α)
    (layers : List α) : VbkMerklePath α where
  treeIndex := treeIndex.toNat
  index := j
  subject := x
  layers :=
    if layers = [] ∧ hashesOf popHashes normalHashes treeIndex = [] then []
    else layers ++ [root hash zero (hashesOf popHashes normalHashes treeIndex)] ++ [zero]

theorem exists_getMerklePath [DecidableEq α] {treeIndex : TreeIndex} {x : α}
    (hmem : x ∈ hashesOf normalHashes popHashes treeIndex) :
    ∃ j layers, (new hash zero normalHashes popHashes).getMerklePath zero x treeIndex =
        some (pathOf hash zero normalHashes popHashes treeIndex j x layers) ∧
      (hashesOf normalHashes popHashes treeIndex)[j]? = some x ∧
      path j (levels hash (depth (hashesOf normalHashes popHashes treeIndex).length)
        (hashesOf normalHashes popHashes treeIndex)) = some layers ∧
      layers.length = depth (hashesOf normalHashes popHashes treeIndex).length ∧
      climb hash x j layers = root hash zero (hashesOf normalHashes popHashes treeIndex) := by
  obtain ⟨j, hj, hget⟩ := exists_hashIndex hash zero hmem
  obtain ⟨layers, hpath, hlen, hroot⟩ := exists_path hash zero hget
  obtain ⟨hlt, -⟩ := List.getElem?_eq_some_iff.mp hget
  refine ⟨j, layers, ?_, hget, ?_, hlen, hroot⟩
  . rw [getMerklePath, treeOf_new, hj, Option.bind_some, hpath, Option.bind_some, finalizePath_new, Option.map_some]
    rfl
  . rw [← getMerklePathLayers_new hash zero hlt, hpath]

/-- The path of a member of either subtree leads to the root. -/
theorem getMerklePath_verifies [DecidableEq α] {treeIndex : TreeIndex} {x : α}
    (hmem : x ∈ hashesOf normalHashes popHashes treeIndex) :
    ∃ p, (new hash zero normalHashes popHashes).getMerklePath zero x treeIndex = some p ∧
      (new hash zero normalHashes popHashes).getMerkleRoot hash zero = some (p.calculateMerkleRoot hash) := by
  obtain ⟨j, layers, hpath, -, -, hlen, hroot⟩ := exists_getMerklePath hash zero hmem
  have hne : hashesOf normalHashes popHashes treeIndex ≠ [] := List.ne_nil_of_mem hmem
  have hshape : layers = [] ↔ (hashesOf normalHashes popHashes treeIndex).length ≤ 1 := by
    rw [← List.length_eq_zero_iff, hlen]
    constructor
    . intro hzero
      have hle := le_two_pow_depth (hashesOf normalHashes popHashes treeIndex).length
      rwa [hzero, Nat.pow_zero] at hle
    . exact depth_of_le_one
  refine ⟨_, hpath, ?_⟩
  rw [getMerkleRoot_of_ne_nil hash zero hne, VbkMerklePath.calculateMerkleRoot, pathOf]
  simp only
  by_cases hsingle : layers = [] ∧ hashesOf popHashes normalHashes treeIndex = []
  . rw [if_pos hsingle, if_pos ⟨hsingle.2, hshape.mp hsingle.1⟩, ← hroot, hsingle.1]
    rfl
  . rw [if_neg hsingle, if_neg (fun h => hsingle ⟨hshape.mpr h.2, h.1⟩)]
    rw [climbLoop_append x j layers _ (by simp), hroot, joinRoots]
    cases treeIndex with
    | pop => rfl
    | normal => rfl

end Path

end VbkMerkleTree

section Main

open Serde

theorem merkle_paths_verify :
    (∀ txes : List (Blob 32), ∀ h ∈ txes, ∃ p, (btcMerkleTree txes).getMerklePath h = some p ∧
      btcMerkleRoot txes = some (p.calculateMerkleRoot sha256twicePair).reverse) ∧
    ∀ normalHashes popHashes : List (Blob 32), ∀ treeIndex,
      ∀ h ∈ VbkMerkleTree.hashesOf normalHashes popHashes treeIndex,
      ∃ p, (vbkMerkleTree normalHashes popHashes).getMerklePath (Blob.zero 32) h treeIndex = some p ∧
        ((vbkMerkleTree normalHashes popHashes).getMerkleRoot sha256Pair (Blob.zero 32)).map trimRoot =
          some (trimRoot (p.calculateMerkleRoot sha256Pair)) := by
  apply And.intro
  . intro txes h hmem
    obtain ⟨p, hp, hroot⟩ :=
      MerkleTree.getMerklePath_verifies sha256twicePair (Blob.zero 32) hmem
    refine ⟨p, hp, ?_⟩
    rw [btcMerkleRoot, btcMerkleTree, MerkleTree.getMerkleRoot_new, Option.map_some, hroot]
  . intro normalHashes popHashes treeIndex h hmem
    obtain ⟨p, hp, hroot⟩ :=
      VbkMerkleTree.getMerklePath_verifies sha256Pair (Blob.zero 32) hmem
    refine ⟨p, hp, ?_⟩
    rw [vbkMerkleTree, hroot, Option.map_some]

end Main

end AltIntegration.Merkle
