import Mathlib.Algebra.GroupWithZero.Nat
import Mathlib.Data.List.Nodup
import Mathlib.Data.Nat.Log

/-!
This module contains binary hash trees over a list of leaves. A layer is hashed pair by pair, and a layer of odd
length is padded with its last node.
-/

namespace PairTree

variable {α : Type}

section Layers

/-- The pairs of a layer -/
def layerPairs : List α → List (α × α)
  | [] => []
  | [x] => [(x, x)]
  | x :: y :: l => (x, y) :: layerPairs l

/-- The number of pairs of a layer -/
def halve (n : Nat) : Nat := (n + 1) / 2

theorem length_layerPairs (l : List α) : (layerPairs l).length = halve l.length := by
  induction l using layerPairs.induct with
  | case1 => simp [layerPairs, halve]
  | case2 => simp [layerPairs, halve]
  | case3 x y l ih =>
    rw [layerPairs, List.length_cons, ih, List.length_cons, List.length_cons]
    unfold halve
    omega

/-- What stands beside the node `j` of a layer -/
def sibling (l : List α) (j : Nat) : Option α :=
  if j % 2 = 0 then
    if l.length = j + 1 then l[j]? else l[j + 1]?
  else
    l[j - 1]?

theorem sibling_cons_cons (x y : α) (l : List α) (j : Nat) : sibling (x :: y :: l) (j + 2) = sibling l j := by
  unfold sibling
  rw [List.length_cons, List.length_cons]
  cases Nat.mod_two_eq_zero_or_one j with
  | inl heven =>
    rw [if_pos (by omega), if_pos heven]
    simp
  | inr hodd =>
    rw [if_neg (by omega), if_neg (by omega), show j + 2 - 1 = j - 1 + 2 by omega]
    simp

/-- A node and its sibling are a pair, the even one first. -/
theorem getElem?_layerPairs {l : List α} {j : Nat} (hj : j < l.length) :
    ∃ x s, l[j]? = some x ∧ sibling l j = some s ∧
      (layerPairs l)[j / 2]? = some (if j % 2 = 0 then (x, s) else (s, x)) := by
  induction l using layerPairs.induct generalizing j with
  | case1 => cases hj
  | case2 x =>
    have hzero : j = 0 := by
      rw [List.length_singleton] at hj
      omega
    rw [hzero]
    exact ⟨x, x, rfl, rfl, rfl⟩
  | case3 x y l ih =>
    match j with
    | 0 => exact ⟨x, y, rfl, by simp [sibling], rfl⟩
    | 1 => exact ⟨y, x, rfl, rfl, rfl⟩
    | j + 2 =>
      rw [List.length_cons, List.length_cons] at hj
      obtain ⟨a, s, ha, hs, hpair⟩ := ih (j := j) (by omega)
      refine ⟨a, s, ha, ?_, ?_⟩
      . rw [sibling_cons_cons, hs]
      . rw [layerPairs, show (j + 2) / 2 = j / 2 + 1 by omega, List.getElem?_cons_succ, hpair,
          show (j + 2) % 2 = j % 2 by omega]

variable (hash : α → α → α)

/-- The layer above -/
def parents (l : List α) : List α := (layerPairs l).map (fun p => hash p.1 p.2)

/-- The layer `k` above -/
def level : Nat → List α → List α
  | 0, l => l
  | k + 1, l => level k (parents hash l)

/-- A layer and the `k` layers above it -/
def levels : Nat → List α → List (List α)
  | 0, l => [l]
  | k + 1, l => l :: levels k (parents hash l)

/-- The pairs that are hashed for the `k` layers above -/
def pairs : Nat → List α → List (α × α)
  | 0, _ => []
  | k + 1, l => layerPairs l ++ pairs k (parents hash l)

theorem length_parents (l : List α) : (parents hash l).length = halve l.length := by
  rw [parents, List.length_map, length_layerPairs]

theorem level_add (i k : Nat) (l : List α) : level hash (i + k) l = level hash k (level hash i l) := by
  induction i generalizing l with
  | zero => rw [Nat.zero_add, level]
  | succ i ih => rw [Nat.succ_add, level, level, ih]

theorem level_succ (i : Nat) (l : List α) : level hash (i + 1) l = parents hash (level hash i l) := level_add hash i 1 l

theorem pairs_add (i k : Nat) (l : List α) : pairs hash (i + k) l = pairs hash i l ++ pairs hash k (level hash i l) := by
  induction i generalizing l with
  | zero => rw [Nat.zero_add, level, pairs, List.nil_append]
  | succ i ih => rw [Nat.succ_add, pairs, pairs, level, ih, List.append_assoc]

end Layers

section Depth

/-- The number of layers above `n` leaves -/
def depth (n : Nat) : Nat := Nat.clog 2 n

theorem depth_of_le_one {n : Nat} (h : n ≤ 1) : depth n = 0 := Nat.clog_of_right_le_one h 2

theorem depth_of_one_lt {n : Nat} (h : 1 < n) : depth n = depth (halve n) + 1 :=
  Nat.clog_of_two_le (by decide) h

theorem le_two_pow_depth (n : Nat) : n ≤ 2 ^ depth n := Nat.le_pow_clog (by decide) n

theorem two_pow_depth_lt {n : Nat} (h : 1 < n) : 2 ^ (depth n - 1) < n := by
  apply Nat.pow_pred_clog_lt_self (by decide) h

theorem length_level_depth (hash : α → α → α) {l : List α} (h : l ≠ []) :
    (level hash (depth l.length) l).length = 1 := by
  induction hn : l.length using Nat.strong_induction_on generalizing l with
  | _ n ih =>
    have hpos : 0 < l.length := List.length_pos_iff.mpr h
    cases Nat.lt_or_ge 1 n with
    | inl hlt =>
      have hlen := length_parents hash l
      have hhalf : halve n < n := by
        unfold halve
        omega
      rw [hn] at hlen
      rw [depth_of_one_lt hlt, level]
      apply ih (halve n) hhalf _ hlen
      intro hnil
      rw [hnil] at hlen
      unfold halve at hlen
      simp at hlen
      omega
    | inr hle =>
      rw [depth_of_le_one hle, level]
      omega

end Depth

section Climb

/-- The siblings on the way up from the node `j` of the first layer -/
def path : Nat → List (List α) → Option (List α)
  | j, l :: l' :: rest =>
    match sibling l j with
    | none => none
    | some s => (path (j / 2) (l' :: rest)).map (fun layers => s :: layers)
  | _, _ => some []

variable (hash : α → α → α)

theorem path_levels_succ (k j : Nat) {l : List α} {s : α} (hs : sibling l j = some s) :
    path j (levels hash (k + 1) l) = (path (j / 2) (levels hash k (parents hash l))).map (fun layers => s :: layers) := by
  cases k with
  | zero => simp only [levels, path, hs]
  | succ k => simp only [levels, path, hs]

/-- The node that a node and siblings above it lead to -/
def climb : α → Nat → List α → α
  | cursor, _, [] => cursor
  | cursor, j, s :: layers => climb (if j % 2 = 0 then hash cursor s else hash s cursor) (j / 2) layers

/-- The siblings of a node lead to the node above it, `k` layers up. -/
theorem climb_path (k : Nat) {l : List α} {j : Nat} {x : α} (hx : l[j]? = some x) :
    ∃ layers, path j (levels hash k l) = some layers ∧ layers.length = k ∧
      (level hash k l)[j / 2 ^ k]? = some (climb hash x j layers) := by
  induction k generalizing l j x with
  | zero =>
    refine ⟨[], rfl, rfl, ?_⟩
    rw [Nat.pow_zero, Nat.div_one, level, hx, climb]
  | succ k ih =>
    obtain ⟨hj, -⟩ := List.getElem?_eq_some_iff.mp hx
    obtain ⟨a, s, ha, hs, hpair⟩ := getElem?_layerPairs hj
    have heq : a = x := by
      rw [ha] at hx
      exact Option.some.inj hx
    have hparent : (parents hash l)[j / 2]? = some (if j % 2 = 0 then hash x s else hash s x) := by
      rw [parents, List.getElem?_map, hpair, Option.map_some, heq]
      split
      . rfl
      . rfl
    obtain ⟨layers, hpath, hlen, hnode⟩ := ih hparent
    refine ⟨s :: layers, ?_, ?_, ?_⟩
    . rw [path_levels_succ hash k j hs, hpath, Option.map_some]
    . rw [List.length_cons, hlen]
    . rw [level, climb, ← hnode, Nat.pow_succ', Nat.div_div_eq_div_mul]

end Climb

section Injective

theorem map_fst_layerPairs (l : List α) : ((layerPairs l).map Prod.fst).Sublist l := by
  induction l using layerPairs.induct with
  | case1 => exact List.Sublist.slnil
  | case2 x => exact List.Sublist.refl [x]
  | case3 x y l ih =>
    rw [layerPairs, List.map_cons]
    exact List.Sublist.cons_cons x (ih.cons y)

theorem nodup_layerPairs {l : List α} (h : l.Nodup) : (layerPairs l).Nodup :=
  List.Nodup.of_map Prod.fst (h.sublist (map_fst_layerPairs l))

/-- Without repetitions a padded layer has the pairs of no other layer. -/
theorem layerPairs_injective {l l' : List α} (h : l.Nodup) (h' : l'.Nodup) (heq : layerPairs l = layerPairs l') : l = l' := by
  induction l using layerPairs.induct generalizing l' with
  | case1 =>
    match l' with
    | [] => rfl
    | [_] => cases heq
    | _ :: _ :: _ => cases heq
  | case2 x =>
    match l', h' with
    | [], _ => cases heq
    | [_], _ =>
      cases heq
      rfl
    | a :: b :: l', h' =>
      have hpair : (x, x) = (a, b) := (List.cons.inj heq).1
      cases hpair
      exact absurd h' (by simp)
  | case3 x y l ih =>
    match l', h' with
    | [], _ => cases heq
    | [a], _ =>
      have hpair : (x, y) = (a, a) := (List.cons.inj heq).1
      cases hpair
      exact absurd h (by simp)
    | a :: b :: l', h' =>
      rw [layerPairs, layerPairs, List.cons.injEq, Prod.mk.injEq] at heq
      rw [heq.1.1, heq.1.2, ih h.of_cons.of_cons h'.of_cons.of_cons heq.2]

variable (hash : α → α → α)

/-- No two of the pairs collide. -/
def InjectiveOn (ps : List (α × α)) : Prop := ∀ p ∈ ps, ∀ q ∈ ps, hash p.1 p.2 = hash q.1 q.2 → p = q

variable {hash} {l l' : List α}

theorem InjectiveOn.mono {ps qs : List (α × α)} (h : InjectiveOn hash qs) (hsub : ps ⊆ qs) : InjectiveOn hash ps :=
  fun p hp q hq => h p (hsub hp) q (hsub hq)

theorem map_eq_of_injectiveOn {ps qs : List (α × α)} (h : InjectiveOn hash (ps ++ qs))
    (heq : ps.map (fun p => hash p.1 p.2) = qs.map (fun p => hash p.1 p.2)) : ps = qs := by
  induction ps generalizing qs with
  | nil =>
    rw [List.map_nil, eq_comm, List.map_eq_nil_iff] at heq
    exact heq.symm
  | cons p ps ih =>
    cases qs with
    | nil => cases heq
    | cons q qs =>
      rw [List.map_cons, List.map_cons, List.cons.injEq] at heq
      have hpq := h p (by simp) q (by simp) heq.1
      rw [hpq, ih (h.mono (by grind)) heq.2]

theorem nodup_parents (h : l.Nodup) (hinj : InjectiveOn hash (layerPairs l)) : (parents hash l).Nodup :=
  (nodup_layerPairs h).map_on (fun p hp q hq => hinj p hp q hq)

theorem nodup_level (k : Nat) (h : l.Nodup) (hinj : InjectiveOn hash (pairs hash k l)) : (level hash k l).Nodup := by
  induction k generalizing l with
  | zero => exact h
  | succ k ih =>
    rw [pairs] at hinj
    rw [level]
    apply ih
    . exact nodup_parents h (hinj.mono (List.subset_append_left _ _))
    . exact hinj.mono (List.subset_append_right _ _)

/-- A layer determines the leaves below it. -/
theorem eq_of_level_eq (k : Nat) (h : l.Nodup) (h' : l'.Nodup)
    (hinj : InjectiveOn hash (pairs hash k l ++ pairs hash k l')) (heq : level hash k l = level hash k l') : l = l' := by
  induction k generalizing l l' with
  | zero => exact heq
  | succ k ih =>
    rw [pairs, pairs] at hinj
    have hparents : parents hash l = parents hash l' := by
      apply ih _ _ _ heq
      . exact nodup_parents h (hinj.mono (by grind))
      . exact nodup_parents h' (hinj.mono (by grind))
      . exact hinj.mono (by grind)
    exact layerPairs_injective h h' (map_eq_of_injectiveOn (hinj.mono (by grind)) hparents)

end Injective

section Root

variable (hash : α → α → α) (zero : α)

/-- The last node, and `zero` when there are no leaves -/
def root (l : List α) : α := (level hash (depth l.length) l).headD zero

theorem root_nil : root hash zero [] = zero := by
  rw [root, List.length_nil, depth_of_le_one (by decide)]
  rfl

variable {hash zero} {l l' : List α}

theorem level_depth_eq (h : l ≠ []) : level hash (depth l.length) l = [root hash zero l] := by
  obtain ⟨r, hr⟩ := List.length_eq_one_iff.mp (length_level_depth hash h)
  rw [root, hr]
  rfl

/-- The hash function as the pairs of two trees see it: no collision, and no hash is a leaf or `zero`. -/
structure CollisionFree (hash : α → α → α) (zero : α) (l l' : List α) : Prop where
  injective : InjectiveOn hash (pairs hash (depth l.length) l ++ pairs hash (depth l'.length) l')
  ne_leaf : ∀ p ∈ pairs hash (depth l.length) l ++ pairs hash (depth l'.length) l', ∀ x ∈ l ++ l', hash p.1 p.2 ≠ x
  ne_zero : ∀ p ∈ pairs hash (depth l.length) l ++ pairs hash (depth l'.length) l', hash p.1 p.2 ≠ zero
  leaf_ne_zero : ∀ x ∈ l ++ l', x ≠ zero

theorem CollisionFree.symm (h : CollisionFree hash zero l l') : CollisionFree hash zero l' l where
  injective := h.injective.mono (by grind)
  ne_leaf p hp x hx := h.ne_leaf p (by grind) x (by grind)
  ne_zero p hp := h.ne_zero p (by grind)
  leaf_ne_zero x hx := h.leaf_ne_zero x (by grind)

/-- A node above the leaves is a hash. -/
theorem exists_pair_of_mem_level {k : Nat} {x : α} (hx : x ∈ level hash (k + 1) l) :
    ∃ p ∈ pairs hash (k + 1) l, hash p.1 p.2 = x := by
  rw [level_succ, parents, List.mem_map] at hx
  obtain ⟨p, hp, heq⟩ := hx
  refine ⟨p, ?_, heq⟩
  rw [pairs_add, List.mem_append]
  apply Or.inr
  rw [pairs, pairs, List.append_nil]
  exact hp

theorem root_ne_zero (hfree : CollisionFree hash zero l l') (h : l ≠ []) : root hash zero l ≠ zero := by
  have hmem : root hash zero l ∈ level hash (depth l.length) l := by
    rw [level_depth_eq h]
    exact List.mem_singleton_self _
  cases hk : depth l.length with
  | zero =>
    rw [hk] at hmem
    exact hfree.leaf_ne_zero _ (List.mem_append_left _ hmem)
  | succ k =>
    rw [hk] at hmem
    obtain ⟨p, hp, heq⟩ := exists_pair_of_mem_level hmem
    rw [← heq]
    apply hfree.ne_zero
    rw [hk]
    exact List.mem_append_left _ hp

theorem eq_of_root_eq_of_le (h : l.Nodup) (h' : l'.Nodup) (hne : l ≠ []) (hne' : l' ≠ [])
    (hfree : CollisionFree hash zero l l') (hle : depth l.length ≤ depth l'.length)
    (heq : root hash zero l = root hash zero l') : l = l' := by
  obtain ⟨k, hk⟩ := Nat.exists_eq_add_of_le' hle
  have hpairs := pairs_add hash k (depth l.length) l'
  rw [← hk] at hpairs
  have hinj := hfree.injective
  rw [hpairs] at hinj
  have hlevel : level hash (depth l.length) l = level hash (depth l.length) (level hash k l') := by
    rw [← level_add, ← hk, level_depth_eq hne, level_depth_eq hne', heq]
  have hnodup : (level hash k l').Nodup := nodup_level k h' (hinj.mono (by grind))
  have hleaves := eq_of_level_eq _ h hnodup (hinj.mono (by grind)) hlevel
  cases k with
  | zero => exact hleaves
  | succ k =>
    -- the leaves of the first tree would be hashes of the second one
    obtain ⟨x, hx⟩ := List.exists_mem_of_ne_nil l hne
    obtain ⟨p, hp, hpx⟩ := exists_pair_of_mem_level (hleaves ▸ hx)
    exact absurd hpx (hfree.ne_leaf p (by grind) x (by grind))

/-- The root commits to the leaves. -/
theorem eq_of_root_eq (h : l.Nodup) (h' : l'.Nodup) (hfree : CollisionFree hash zero l l')
    (heq : root hash zero l = root hash zero l') : l = l' := by
  by_cases hne : l = []
  . by_cases hne' : l' = []
    . rw [hne, hne']
    . rw [hne, root_nil] at heq
      exact absurd heq.symm (root_ne_zero hfree.symm hne')
  . by_cases hne' : l' = []
    . rw [hne', root_nil] at heq
      exact absurd heq (root_ne_zero hfree hne)
    . cases Nat.le_total (depth l.length) (depth l'.length) with
      | inl hle => exact eq_of_root_eq_of_le h h' hne hne' hfree hle heq
      | inr hle => exact (eq_of_root_eq_of_le h' h hne' hne hfree.symm hle heq.symm).symm

end Root

end PairTree
