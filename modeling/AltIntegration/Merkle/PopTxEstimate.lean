import AltIntegration.Merkle.MerklePaths
import Mathlib.Data.Finset.Card
import Mathlib.Data.Fintype.Basic

/-!
This module contains `estimateNumberOfPopTxs` of `merkle_tree.hpp`, which reads the number of POP transactions of a
VBK block off the merkle path with the largest index: a layer that equals the node below it pads the tree.
-/

namespace AltIntegration.Merkle

open PairTree

variable {α : Type} [DecidableEq α]

section Estimate

/-- Subtraction of `uint32_t` -/
def sub32 (a b : Nat) : Nat := (a + (2 ^ 32 - b % 2 ^ 32)) % 2 ^ 32

/-- `1 << shift` -/
def oneShifted (shift : Nat) : Nat := 2 ^ shift % 2 ^ 32

variable (hash : α → α → α)

def maxIndex (paths : List (VbkMerklePath α)) : Int :=
  paths.foldl
    (fun maxIndex path => if path.treeIndex = TreeIndex.pop.toNat ∧ maxIndex < path.index then path.index else maxIndex) (-1)

/-- The leaves below `depth` layers, of which `vec` are equal -/
def leavesOf (depth index : Nat) : List Nat → Nat
  | [] => oneShifted depth
  | 0 :: _ => index + 1
  | vec => vec.foldl (fun n i => sub32 n (oneShifted i)) (oneShifted depth)

/-- The leaves that one path tells of -/
def approximateLeavesNumber (path : VbkMerklePath α) : Nat :=
  if path.layers = [] then
    1
  else
    leavesOf (path.layers.length - 2) path.index (path.equalLayerIndexes hash)

def estimateNumberOfPopTxs (paths : List (VbkMerklePath α)) : Nat :=
  match paths.find? (fun path => path.treeIndex = TreeIndex.pop.toNat ∧ maxIndex paths = path.index) with
  | none => 0
  | some path => approximateLeavesNumber hash path

def isPopSubTreeFull (paths : List (VbkMerklePath α)) : Bool :=
  paths.length % 2 ^ 32 = estimateNumberOfPopTxs hash paths

/-- `readVtb` reads the merkle path of a VTB; `none` is the assertion that it is there. -/
def estimateMissedNumberOfVTBs (readVtb : Nat → Option (VbkMerklePath α)) (vtbIds : List Nat) : Option Nat :=
  if vtbIds = [] then
    some (2 ^ 32 - 1)
  else
    (vtbIds.mapM readVtb).map (fun vtbPaths => sub32 (estimateNumberOfPopTxs hash vtbPaths) vtbPaths.length)

end Estimate

section Padding

/-- The layers from layer `i` on, of width `w`, in which the node above the leaf `j` stands last and alone -/
def paddedLayers : Nat → Nat → Nat → Nat → List Nat
  | 0, _, _, _ => []
  | k + 1, i, w, j =>
    let rest := paddedLayers k (i + 1) (halve w) (j / 2)
    if j % 2 = 0 ∧ j + 1 = w then i :: rest else rest

/-- What these layers stand for, in leaves -/
def paddedSum : Nat → Nat → Nat → Nat
  | 0, _, _ => 0
  | k + 1, w, j => (if j % 2 = 0 ∧ j + 1 = w then 1 else 0) + 2 * paddedSum k (halve w) (j / 2)

theorem sum_paddedLayers (k i w j : Nat) :
    ((paddedLayers k i w j).map (fun l => 2 ^ l)).sum = 2 ^ i * paddedSum k w j := by
  induction k generalizing i w j with
  | zero => rfl
  | succ k ih =>
    have hrest := ih (i + 1) (halve w) (j / 2)
    rw [paddedLayers, paddedSum, Nat.mul_add, ← Nat.mul_assoc, ← Nat.pow_succ, ← hrest]
    split
    . rw [List.map_cons, List.sum_cons, Nat.mul_one]
    . rw [Nat.mul_zero, Nat.zero_add]

theorem mem_paddedLayers_lt {k i w j l : Nat} (h : l ∈ paddedLayers k i w j) : i ≤ l ∧ l < i + k := by
  induction k generalizing i w j with
  | zero => cases h
  | succ k ih =>
    rw [paddedLayers] at h
    split at h
    . cases h with
      | head => omega
      | tail _ h =>
        have := ih h
        omega
    . have := ih h
      omega

/-- Without the padding there are at least as many leaves as the index says, and just as many for the last leaf. -/
theorem leaves_of_padding {k w j : Nat} (hk : depth w = k) (hj : j < w) :
    j + 1 + paddedSum k w j ≤ 2 ^ k ∧ (j + 1 = w → w + paddedSum k w j = 2 ^ k) := by
  induction k generalizing w j with
  | zero =>
    have hle := le_two_pow_depth w
    rw [hk] at hle
    rw [paddedSum]
    omega
  | succ k ih =>
    have hlt : 1 < w := by
      apply Nat.lt_of_not_le
      intro hle
      rw [depth_of_le_one hle] at hk
      cases hk
    rw [depth_of_one_lt hlt] at hk
    have hhalf : halve w = (w + 1) / 2 := rfl
    obtain ⟨hle, heq⟩ := ih (Nat.succ.inj hk) (show j / 2 < halve w by omega)
    rw [paddedSum, Nat.pow_succ]
    split
    . next hpad =>
      have hlast := heq (by omega)
      omega
    . next hpad =>
      apply And.intro
      . omega
      . intro hlast
        have := heq (by omega)
        omega

variable {k i w j : Nat}

theorem zero_mem_paddedLayers_iff : 0 ∈ paddedLayers k 0 w j ↔ 0 < k ∧ j % 2 = 0 ∧ j + 1 = w := by
  cases k with
  | zero =>
    simp [paddedLayers]
  | succ k =>
    have habove : 0 ∉ paddedLayers k 1 (halve w) (j / 2) := by
      intro hmem
      have := mem_paddedLayers_lt hmem
      omega
    rw [paddedLayers]
    split
    . next hpad => simp [hpad]
    . next hpad =>
      constructor
      . intro hmem
        exact absurd hmem habove
      . intro h
        exact absurd h.2 hpad

theorem paddedSum_eq_zero_iff : paddedSum k w j = 0 ↔ paddedLayers k 0 w j = [] := by
  have hsum := sum_paddedLayers k 0 w j
  rw [Nat.pow_zero, Nat.one_mul] at hsum
  rw [← hsum]
  cases paddedLayers k 0 w j with
  | nil => simp
  | cons l layers =>
    have hpos := Nat.two_pow_pos l
    rw [List.map_cons, List.sum_cons]
    simp
    

end Padding

section Leaves

variable {k i w j : Nat}

theorem sub32_of_le {a b : Nat} (h : b ≤ a) (ha : a < 2 ^ 32) : sub32 a b = a - b := by
  unfold sub32
  omega

theorem sub32_of_lt {a b : Nat} (h : a < b) (hb : b < 2 ^ 32) : sub32 a b = 2 ^ 32 - (b - a) := by
  unfold sub32
  omega

theorem foldl_sub32 (l : List Nat) {a : Nat} (ha : a < 2 ^ 32) (hsum : (l.map (fun i => 2 ^ i)).sum ≤ a) :
    l.foldl (fun n i => sub32 n (oneShifted i)) a = a - (l.map (fun i => 2 ^ i)).sum := by
  induction l generalizing a with
  | nil => rfl
  | cons i l ih =>
    rw [List.map_cons, List.sum_cons] at hsum
    have hone : oneShifted i = 2 ^ i := Nat.mod_eq_of_lt (by omega)
    have hstep : sub32 a (oneShifted i) = a - 2 ^ i := by
      rw [hone]
      apply sub32_of_le
      . omega
      . exact ha
    have hlt : a - 2 ^ i < 2 ^ 32 := Nat.lt_of_le_of_lt (Nat.sub_le _ _) ha
    rw [List.foldl_cons, hstep, ih hlt (Nat.le_sub_of_add_le' hsum), List.map_cons, List.sum_cons, Nat.sub_add_eq]

/-- When only padding is equal, the number of leaves without the padding is found. -/
theorem leavesOf_paddedLayers (hk : depth w = k) (hk32 : k < 32) (hj : j < w) :
    leavesOf k j (paddedLayers k 0 w j) = 2 ^ k - paddedSum k w j := by
  have hpow : 2 ^ k < 2 ^ 32 := Nat.pow_lt_pow_right (by decide) hk32
  obtain ⟨hle, hlast⟩ := leaves_of_padding hk hj
  have hsum := sum_paddedLayers k 0 w j
  have hone : oneShifted k = 2 ^ k := Nat.mod_eq_of_lt hpow
  rw [Nat.pow_zero, Nat.one_mul] at hsum
  have hzero := @zero_mem_paddedLayers_iff k w j
  unfold leavesOf
  split
  . next hnil =>
    rw [hnil] at hsum
    rw [← hsum, hone]
    rfl
  . next hcons =>
    rw [hcons] at hzero
    have hj := (hzero.mp List.mem_cons_self).2.2
    have := hlast hj
    omega
  . rw [foldl_sub32 _ (by rw [hone]; exact hpow) (by rw [hone, hsum]; omega), hone, hsum]

/-- When the layer above the subtree is equal too, it takes all the leaves away. -/
theorem leavesOf_paddedLayers_append (hk : depth w = k) (hk32 : k < 32) (hj : j < w) :
    leavesOf k j (paddedLayers k 0 w j ++ [k]) =
      if k = 0 ∨ 0 ∈ paddedLayers k 0 w j then j + 1
      else if paddedLayers k 0 w j = [] then 0
      else 2 ^ 32 - paddedSum k w j := by
  have hpow : 2 ^ k < 2 ^ 32 := Nat.pow_lt_pow_right (by decide) hk32
  obtain ⟨hle, -⟩ := leaves_of_padding hk hj
  have hsum := sum_paddedLayers k 0 w j
  have hone : oneShifted k = 2 ^ k := Nat.mod_eq_of_lt hpow
  have hempty := @paddedSum_eq_zero_iff k w j
  rw [Nat.pow_zero, Nat.one_mul] at hsum
  cases hlayers : paddedLayers k 0 w j with
  | nil =>
    by_cases hzero : k = 0
    . rw [if_pos (Or.inl hzero), hzero]
      rfl
    . rw [if_neg (by simp [hzero]), if_pos rfl, List.nil_append, leavesOf]
      . rw [List.foldl_cons, List.foldl_nil, sub32_of_le (Nat.le_refl _), Nat.sub_self]
        rw [hone]
        exact hpow
      . simp
      . intro l heq
        cases heq
        exact hzero rfl
  | cons l layers =>
    have hk0 : k ≠ 0 := by
      intro hzero
      rw [hzero, paddedLayers] at hlayers
      cases hlayers
    cases l with
    | zero =>
      rw [if_pos (Or.inr List.mem_cons_self), List.cons_append]
      rfl
    | succ l =>
      have hfront : 0 ∉ (l + 1) :: layers := by
        intro hmem
        rw [← hlayers, zero_mem_paddedLayers_iff] at hmem
        obtain ⟨k', hk'⟩ := Nat.exists_eq_succ_of_ne_zero hk0
        rw [hk', paddedLayers, if_pos hmem.2] at hlayers
        cases hlayers
      have hpos : paddedSum k w j ≠ 0 := by
        intro hzero
        rw [hempty, hlayers] at hzero
        cases hzero
      rw [if_neg (by simp [hk0, hfront]), if_neg (by simp), List.cons_append, leavesOf, ← List.cons_append,
        List.foldl_append, ← hlayers]
      . rw [List.foldl_cons, List.foldl_nil, foldl_sub32 _ (by rw [hone]; exact hpow) (by rw [hone, hsum]; omega), hsum,
          hone, sub32_of_lt]
        . omega
        . omega
        . exact hpow
      . simp
      . intro l' heq
        cases heq

end Leaves

section Layers

variable {hash : α → α → α} {l : List α} {j : Nat} {x s : α}

omit [DecidableEq α] in
/-- Without repetitions only a padded node has itself beside it. -/
theorem sibling_eq_iff (hnodup : l.Nodup) (hx : l[j]? = some x) (hs : sibling l j = some s) :
    s = x ↔ j % 2 = 0 ∧ j + 1 = l.length := by
  obtain ⟨hj, hxj⟩ := List.getElem?_eq_some_iff.mp hx
  have hne : ∀ i, i ≠ j → l[i]? = some s → s ≠ x := by
    intro i hi hsi heq
    obtain ⟨hlt, hget⟩ := List.getElem?_eq_some_iff.mp hsi
    exact hi (hnodup.getElem_inj_iff.mp (hget.trans (heq.trans hxj.symm)))
  unfold sibling at hs
  split at hs
  . next heven =>
    split at hs
    . next hlast =>
      rw [hx, Option.some_inj] at hs
      exact iff_of_true hs.symm ⟨heven, hlast.symm⟩
    . next hlast =>
      have := hne (j + 1) (by omega) hs
      exact iff_of_false this (fun h => hlast h.2.symm)
  . next hodd =>
    have := hne (j - 1) (by omega) hs
    exact iff_of_false this (fun h => hodd h.1)

/-- `equalLayerIndexes` below the fixed layers, from layer `i` on -/
def equalBelow (hash : α → α → α) : Nat → α → Nat → List α → List Nat
  | _, _, _, [] => []
  | i, cursor, j, layer :: layers =>
    let rest := equalBelow hash (i + 1) (if j % 2 = 0 then hash cursor layer else hash layer cursor) (j / 2) layers
    if layer = cursor then i :: rest else rest

theorem equalBelow_path (k i : Nat) {layers : List α} (hnodup : l.Nodup) (hinj : InjectiveOn hash (pairs hash k l))
    (hx : l[j]? = some x) (hpath : path j (levels hash k l) = some layers) :
    equalBelow hash i x j layers = paddedLayers k i l.length j := by
  induction k generalizing i l j x layers with
  | zero =>
    cases hpath
    rfl
  | succ k ih =>
    obtain ⟨hj, -⟩ := List.getElem?_eq_some_iff.mp hx
    obtain ⟨a, s, ha, hs, hpair⟩ := getElem?_layerPairs hj
    have heq : a = x := by
      rw [ha] at hx
      exact Option.some.inj hx
    have hparent : (parents hash l)[j / 2]? = some (if j % 2 = 0 then hash x s else hash s x) := by
      rw [parents, List.getElem?_map, hpair, Option.map_some, heq]
      split
      . rfl
      . rfl
    rw [path_levels_succ hash k j hs, Option.map_eq_some_iff] at hpath
    obtain ⟨above, hpath, hlayers⟩ := hpath
    rw [pairs] at hinj
    have hrest := ih (i + 1) (nodup_parents hnodup (hinj.mono (List.subset_append_left _ _)))
      (hinj.mono (List.subset_append_right _ _)) hparent hpath
    rw [length_parents] at hrest
    rw [← hlayers, equalBelow, paddedLayers, hrest]
    simp only [sibling_eq_iff hnodup hx hs]

theorem equalLoop_append {size treeIndex i : Nat} (cursor : α) (j : Nat) (layers : List α) (opposite zero : α)
    (hsize : i + layers.length + 2 = size) (hpop : treeIndex % 2 = 0)
    (hzero : hash (climb hash cursor j layers) opposite ≠ zero) :
    VbkMerklePath.equalLoop hash size treeIndex i cursor j (layers ++ [opposite] ++ [zero]) =
      equalBelow hash i cursor j layers ++ if opposite = climb hash cursor j layers then [i + layers.length] else [] := by
  induction layers generalizing i cursor j with
  | nil =>
    rw [List.length_nil] at hsize
    have hjoin := fun layerIndex => VbkMerkleTree.sideOf_join treeIndex layerIndex hsize
    rw [climb] at hzero
    simp only [List.nil_append, List.cons_append, VbkMerklePath.equalLoop, hjoin, climb, equalBelow]
    rw [if_pos hpop, if_neg hzero.symm]
    rfl
  | cons layer layers ih =>
    rw [List.length_cons] at hsize
    have hbelow := VbkMerkleTree.sideOf_below treeIndex j (show i + 2 < size by omega)
    rw [climb] at hzero
    rw [List.cons_append, List.cons_append, VbkMerklePath.equalLoop, climb, equalBelow]
    simp only [hbelow]
    rw [ih _ _ (by omega) hzero, List.length_cons, Nat.add_right_comm i 1, ← Nat.add_assoc]
    split
    . rfl
    . rfl

end Layers

section Main

variable (hash : α → α → α) (zero : α) (normalHashes popHashes : List α)

/-- The hash function as the POP subtree sees it, and the join of the subtrees -/
structure PopCollisionFree : Prop where
  injective : InjectiveOn hash (pairs hash (depth popHashes.length) popHashes)
  join_ne_zero : hash (root hash zero popHashes) (root hash zero normalHashes) ≠ zero

/-- A path taken from the POP subtree -/
def IsPopPath (path : VbkMerklePath α) : Prop :=
  ∃ x ∈ popHashes, (VbkMerkleTree.new hash zero normalHashes popHashes).getMerklePath zero x .pop = some path

/-- The subtree can be told from the path of the leaf `j`. -/
def Readable (j : Nat) : Prop :=
  root hash zero normalHashes ≠ root hash zero popHashes ∨
    popHashes.length % 2 = 1 ∧ j + 1 = popHashes.length ∨
    paddedLayers (depth popHashes.length) 0 popHashes.length j ≠ [] ∧ j + 1 ≠ popHashes.length

variable {hash zero normalHashes popHashes} {path : VbkMerklePath α}

theorem approximateLeavesNumber_of_isPopPath (hfree : PopCollisionFree hash zero normalHashes popHashes)
    (hnodup : popHashes.Nodup) (hpath : IsPopPath hash zero normalHashes popHashes path) :
    path.treeIndex = TreeIndex.pop.toNat ∧ popHashes[path.index]? = some path.subject ∧
      approximateLeavesNumber hash path = leavesOf (depth popHashes.length) path.index
        (paddedLayers (depth popHashes.length) 0 popHashes.length path.index ++
          if root hash zero normalHashes = root hash zero popHashes then [depth popHashes.length] else []) := by
  obtain ⟨x, hmem, hpath⟩ := hpath
  have hmem : x ∈ VbkMerkleTree.hashesOf normalHashes popHashes .pop := hmem
  obtain ⟨j, layers, hget, hx, hlayers, hlen, hroot⟩ := VbkMerkleTree.exists_getMerklePath hash zero hmem
  change popHashes[j]? = some x at hx
  change layers.length = depth popHashes.length at hlen
  change climb hash x j layers = root hash zero popHashes at hroot
  rw [hget, Option.some_inj] at hpath
  rw [← hpath]
  refine ⟨rfl, hx, ?_⟩
  have hbelow := equalBelow_path (depth popHashes.length) 0 hnodup hfree.injective hx hlayers
  unfold approximateLeavesNumber VbkMerklePath.equalLayerIndexes
  by_cases hsingle : layers = [] ∧ normalHashes = []
  . have hempty : (VbkMerkleTree.pathOf hash zero normalHashes popHashes .pop j x layers).layers = [] := if_pos hsingle
    have hone : popHashes.length = 1 := by
      have hle := le_two_pow_depth popHashes.length
      have hpos : 0 < popHashes.length := List.length_pos_of_mem hmem
      rw [hsingle.1, List.length_nil] at hlen
      rw [← hlen, Nat.pow_zero] at hle
      omega
    have hj : j = 0 := by
      have := (List.getElem?_eq_some_iff.mp hx).1
      omega
    rw [if_pos hempty, hone, depth_of_le_one (Nat.le_refl 1)]
    change 1 = leavesOf 0 j _
    rw [hj]
    split
    . rfl
    . rfl
  . have happend : (VbkMerkleTree.pathOf hash zero normalHashes popHashes .pop j x layers).layers =
        layers ++ [root hash zero normalHashes] ++ [zero] := if_neg hsingle
    have hlength : (layers ++ [root hash zero normalHashes] ++ [zero]).length - 2 = depth popHashes.length := by
      rw [List.length_append, List.length_append, hlen]
      rfl
    rw [happend, if_neg (by simp), hlength]
    change leavesOf _ j (VbkMerklePath.equalLoop hash _ _ 0 x j _) = leavesOf _ j _
    rw [equalLoop_append x j layers _ _ (by simp) rfl (by rw [hroot]; exact hfree.join_ne_zero), hbelow, hroot,
      Nat.zero_add, hlen]
    rfl

omit [DecidableEq α] in
theorem foldl_maxIndex (paths : List (VbkMerklePath α)) (hpop : ∀ q ∈ paths, q.treeIndex = TreeIndex.pop.toNat) (m : Int) :
    let largest := paths.foldl
      (fun maxIndex path => if path.treeIndex = TreeIndex.pop.toNat ∧ maxIndex < path.index then path.index else maxIndex) m
    m ≤ largest ∧ (∀ q ∈ paths, (q.index : Int) ≤ largest) ∧ (largest = m ∨ ∃ q ∈ paths, largest = q.index) := by
  induction paths generalizing m with
  | nil => exact ⟨Int.le_refl m, fun q hq => absurd hq List.not_mem_nil, Or.inl rfl⟩
  | cons p paths ih =>
    obtain ⟨hle, hall, hfound⟩ := ih (fun q hq => hpop q (List.mem_cons_of_mem p hq))
      (if p.treeIndex = TreeIndex.pop.toNat ∧ m < p.index then p.index else m)
    have hstep : m ≤ (if p.treeIndex = TreeIndex.pop.toNat ∧ m < p.index then (p.index : Int) else m) ∧
        p.index ≤ (if p.treeIndex = TreeIndex.pop.toNat ∧ m < p.index then (p.index : Int) else m) := by
      have := hpop p List.mem_cons_self
      split
      . omega
      . omega
    refine ⟨Int.le_trans hstep.1 hle, ?_, ?_⟩
    . intro q hq
      cases hq with
      | head => exact Int.le_trans hstep.2 hle
      | tail _ hq => exact hall q hq
    . cases hfound with
      | inr hfound =>
        obtain ⟨q, hq, heq⟩ := hfound
        exact Or.inr ⟨q, List.mem_cons_of_mem p hq, heq⟩
      | inl heq =>
        rw [List.foldl_cons, heq]
        split
        . exact Or.inr ⟨p, List.mem_cons_self, rfl⟩
        . exact Or.inl rfl

variable (hash) in
/-- The number of leaves is read off a path with the largest index. -/
theorem estimateNumberOfPopTxs_eq {paths : List (VbkMerklePath α)} (hne : paths ≠ [])
    (hpop : ∀ q ∈ paths, q.treeIndex = TreeIndex.pop.toNat) :
    ∃ p ∈ paths, (∀ q ∈ paths, q.index ≤ p.index) ∧
      estimateNumberOfPopTxs hash paths = approximateLeavesNumber hash p := by
  obtain ⟨-, hall, hfound⟩ := foldl_maxIndex paths hpop (-1)
  change ∀ q ∈ paths, (q.index : Int) ≤ maxIndex paths at hall
  change maxIndex paths = -1 ∨ ∃ q ∈ paths, maxIndex paths = q.index at hfound
  obtain ⟨q, hq, hlargest⟩ := hfound.resolve_left (by
    intro hnone
    obtain ⟨q, hq⟩ := List.exists_mem_of_ne_nil paths hne
    have := hall q hq
    omega)
  unfold estimateNumberOfPopTxs
  cases hfind : paths.find? (fun path => path.treeIndex = TreeIndex.pop.toNat ∧ maxIndex paths = path.index) with
  | none =>
    rw [List.find?_eq_none] at hfind
    exact absurd (decide_eq_true ⟨hpop q hq, hlargest⟩) (hfind q hq)
  | some p =>
    have hindex := List.find?_some hfind
    rw [decide_eq_true_iff] at hindex
    refine ⟨p, List.mem_of_find?_eq_some hfind, ?_, rfl⟩
    intro q hq
    have := hall q hq
    omega

/-- What an estimate is to say of a subtree with that many leaves: no less than the largest index does, and just their
number when the last leaf is there. So no VTB is missed less than never. -/
structure EstimatesLeaves (hash : α → α → α) (leaves : Nat) (paths : List (VbkMerklePath α)) : Prop where
  index_lt : ∀ p ∈ paths, p.index + 1 ≤ estimateNumberOfPopTxs hash paths
  eq_of_last : ∀ p ∈ paths, p.index + 1 = leaves → estimateNumberOfPopTxs hash paths = leaves
  missed : ∀ (readVtb : Nat → Option (VbkMerklePath α)) (vtbIds : List Nat), vtbIds.mapM readVtb = some paths →
    (paths.map VbkMerklePath.subject).Nodup → paths.length ≤ estimateNumberOfPopTxs hash paths ∧
      estimateMissedNumberOfVTBs hash readVtb vtbIds = some (estimateNumberOfPopTxs hash paths - paths.length)

variable {paths : List (VbkMerklePath α)}

omit [DecidableEq α] in
/-- Paths of different leaves have different indices. -/
theorem length_le_of_nodup {m : Nat} (hsubjects : (paths.map VbkMerklePath.subject).Nodup)
    (hleaf : ∀ q ∈ paths, popHashes[q.index]? = some q.subject) (hmax : ∀ q ∈ paths, q.index ≤ m) :
    paths.length ≤ m + 1 := by
  have hmap : (paths.map VbkMerklePath.index).map (fun i => popHashes[i]?) = (paths.map VbkMerklePath.subject).map some := by
    rw [List.map_map, List.map_map]
    exact List.map_congr_left hleaf
  have hindices : (paths.map VbkMerklePath.index).Nodup := by
    apply List.Nodup.of_map (fun i => popHashes[i]?)
    rw [hmap]
    exact hsubjects.map (Option.some_injective α)
  have hsub : (paths.map VbkMerklePath.index).toFinset ⊆ Finset.range (m + 1) := by
    intro i hi
    rw [List.mem_toFinset, List.mem_map] at hi
    obtain ⟨q, hq, hi⟩ := hi
    rw [Finset.mem_range, ← hi]
    exact Nat.lt_succ_of_le (hmax q hq)
  have hcard := Finset.card_le_card hsub
  rwa [List.toFinset_card_of_nodup hindices, Finset.card_range, List.length_map] at hcard

theorem missed_of_index_lt (hleaf : ∀ q ∈ paths, popHashes[q.index]? = some q.subject)
    (hlt : estimateNumberOfPopTxs hash paths < 2 ^ 32) {p : VbkMerklePath α} (hp : p ∈ paths)
    (hmax : ∀ q ∈ paths, q.index ≤ p.index) (hle : p.index + 1 ≤ estimateNumberOfPopTxs hash paths)
    (readVtb : Nat → Option (VbkMerklePath α)) (vtbIds : List Nat) (hread : vtbIds.mapM readVtb = some paths)
    (hsubjects : (paths.map VbkMerklePath.subject).Nodup) : paths.length ≤ estimateNumberOfPopTxs hash paths ∧
      estimateMissedNumberOfVTBs hash readVtb vtbIds = some (estimateNumberOfPopTxs hash paths - paths.length) := by
  have hlen := Nat.le_trans (length_le_of_nodup hsubjects hleaf hmax) hle
  have hne : vtbIds ≠ [] := by
    intro hnil
    rw [hnil] at hread
    cases hread
    cases hp
  refine ⟨hlen, ?_⟩
  rw [estimateMissedNumberOfVTBs, if_neg hne, hread, Option.map_some, sub32_of_le hlen hlt]

variable (hash) in
/-- It is enough to look at the largest index. -/
theorem estimatesLeaves_of_le {leaves : Nat} (hleaf : ∀ q ∈ paths, popHashes[q.index]? = some q.subject)
    {p : VbkMerklePath α} (hp : p ∈ paths) (hmax : ∀ q ∈ paths, q.index ≤ p.index) (hj : p.index < leaves)
    (hlt : estimateNumberOfPopTxs hash paths < 2 ^ 32) (hle : p.index + 1 ≤ estimateNumberOfPopTxs hash paths)
    (hlast : p.index + 1 = leaves → estimateNumberOfPopTxs hash paths = leaves) : EstimatesLeaves hash leaves paths where
  index_lt q hq := Nat.le_trans (Nat.succ_le_succ (hmax q hq)) hle
  eq_of_last q hq heq := by
    have := hmax q hq
    exact hlast (by omega)
  missed := missed_of_index_lt hleaf hlt hp hmax hle

theorem estimatesLeaves_iff (hfree : PopCollisionFree hash zero normalHashes popHashes) (hnodup : popHashes.Nodup)
    (hfits : popHashes.length ≤ 2 ^ 31) (hpaths : ∀ q ∈ paths, IsPopPath hash zero normalHashes popHashes q)
    {p : VbkMerklePath α} (hp : p ∈ paths) (hmax : ∀ q ∈ paths, q.index ≤ p.index) :
    EstimatesLeaves hash popHashes.length paths ↔ Readable hash zero normalHashes popHashes p.index := by
  have hleaf := fun q hq => approximateLeavesNumber_of_isPopPath hfree hnodup (hpaths q hq)
  obtain ⟨p', hp', hmax', hestimate⟩ := estimateNumberOfPopTxs_eq hash (List.ne_nil_of_mem hp)
    (fun q hq => (hleaf q hq).1)
  have hindex : p'.index = p.index := Nat.le_antisymm (hmax p' hp') (hmax' p hp)
  rw [(hleaf p' hp').2.2, hindex] at hestimate
  have hj : p.index < popHashes.length := (List.getElem?_eq_some_iff.mp (hleaf p hp).2.1).1
  have hdepth : depth popHashes.length ≤ 31 := Nat.clog_le_of_le_pow hfits
  have hpow : 2 ^ depth popHashes.length ≤ 2 ^ 31 := Nat.pow_le_pow_right (by decide) hdepth
  obtain ⟨hle, hlast⟩ := leaves_of_padding rfl hj
  have hholds := estimatesLeaves_of_le hash (fun q hq => (hleaf q hq).2.1) hp hmax hj
  have hfront := @zero_mem_paddedLayers_iff (depth popHashes.length) popHashes.length p.index
  unfold Readable
  by_cases hroots : root hash zero normalHashes = root hash zero popHashes
  . rw [if_pos hroots, leavesOf_paddedLayers_append rfl (by omega) hj] at hestimate
    simp only [hroots, ne_eq, not_true_eq_false, false_or]
    by_cases hzero : depth popHashes.length = 0 ∨ 0 ∈ paddedLayers (depth popHashes.length) 0 popHashes.length p.index
    . rw [if_pos hzero] at hestimate
      have hsize := le_two_pow_depth popHashes.length
      have hodd : popHashes.length % 2 = 1 ∧ p.index + 1 = popHashes.length := by
        cases hzero with
        | inl hzero =>
          rw [hzero] at hsize
          omega
        | inr hzero =>
          have := hfront.mp hzero
          omega
      exact iff_of_true (hholds (by omega) (by omega) (by omega)) (Or.inl hodd)
    . rw [if_neg hzero] at hestimate
      have hodd : ¬(popHashes.length % 2 = 1 ∧ p.index + 1 = popHashes.length) := by
        intro hodd
        apply hzero
        by_cases hempty : depth popHashes.length = 0
        . exact Or.inl hempty
        . exact Or.inr (hfront.mpr (by omega))
      by_cases hpadded : paddedLayers (depth popHashes.length) 0 popHashes.length p.index = []
      . rw [if_pos hpadded] at hestimate
        apply iff_of_false
        . intro hestimates
          have := hestimates.index_lt p hp
          omega
        . intro hreadable
          exact hreadable.elim hodd (fun h => h.1 hpadded)
      . rw [if_neg hpadded] at hestimate
        have hsum : paddedSum (depth popHashes.length) popHashes.length p.index ≠ 0 :=
          fun h => hpadded (paddedSum_eq_zero_iff.mp h)
        by_cases hend : p.index + 1 = popHashes.length
        . apply iff_of_false
          . intro hestimates
            have := hestimates.eq_of_last p hp hend
            omega
          . intro hreadable
            exact hreadable.elim hodd (fun h => h.2 hend)
        . exact iff_of_true (hholds (by omega) (by omega) (fun h => absurd h hend)) (Or.inr ⟨hpadded, hend⟩)
  . rw [if_neg hroots, List.append_nil, leavesOf_paddedLayers rfl (by omega) hj] at hestimate
    exact iff_of_true (hholds (by omega) (by omega) (by omega)) (Or.inl hroots)

end Main

section Samples

open Serde

/-- Two transactions -/
def twoLeaves : List (Blob 32) := [⟨List.replicate 32 1, rfl⟩, ⟨List.replicate 32 2, rfl⟩]

/-- The path of the second one in the POP subtree -/
def pathOfLast (normalHashes : List (Blob 32)) : VbkMerklePath (Blob 32) where
  treeIndex := 0
  index := 1
  subject := twoLeaves[1]
  layers := [twoLeaves[0], root sha256Pair (Blob.zero 32) normalHashes, Blob.zero 32]

theorem popCollisionFree_twoLeaves {normalHashes : List (Blob 32)}
    (h : sha256Pair (root sha256Pair (Blob.zero 32) twoLeaves) (root sha256Pair (Blob.zero 32) normalHashes) ≠ Blob.zero 32) :
    PopCollisionFree sha256Pair (Blob.zero 32) normalHashes twoLeaves where
  injective := by
    intro a ha b hb _
    have hone : ∀ q ∈ pairs sha256Pair (depth twoLeaves.length) twoLeaves, q = (twoLeaves[0], twoLeaves[1]) := by
      decide +kernel
    rw [hone a ha, hone b hb]
  join_ne_zero := h

theorem estimatesLeaves_iff_twoLeaves : EstimatesLeaves sha256Pair 2 [pathOfLast []] := by
  have hpaths : ∀ q ∈ [pathOfLast []], IsPopPath sha256Pair (Blob.zero 32) [] twoLeaves q := by
    intro q hq
    rw [List.mem_singleton.mp hq]
    exact ⟨twoLeaves[1], by decide, by decide +kernel⟩
  have hmax : ∀ q ∈ [pathOfLast []], q.index ≤ (pathOfLast []).index := by decide
  apply (estimatesLeaves_iff (popCollisionFree_twoLeaves (by decide +kernel)) (by decide) (by decide) hpaths
    List.mem_cons_self hmax).mpr
  exact Or.inl (by decide +kernel)

/-- With the same transactions in both subtrees no leaf is found. -/
theorem not_estimatesLeaves_sameSubtrees : PopCollisionFree sha256Pair (Blob.zero 32) twoLeaves twoLeaves ∧
    IsPopPath sha256Pair (Blob.zero 32) twoLeaves twoLeaves (pathOfLast twoLeaves) ∧
    estimateNumberOfPopTxs sha256Pair [pathOfLast twoLeaves] = 0 ∧
    ¬EstimatesLeaves sha256Pair twoLeaves.length [pathOfLast twoLeaves] := by
  have hzero : estimateNumberOfPopTxs sha256Pair [pathOfLast twoLeaves] = 0 := by decide +kernel
  refine ⟨popCollisionFree_twoLeaves (by decide +kernel), ⟨twoLeaves[1], by decide, by decide +kernel⟩, hzero, ?_⟩
  intro h
  have := h.index_lt (pathOfLast twoLeaves) List.mem_cons_self
  omega

end Samples

end AltIntegration.Merkle
