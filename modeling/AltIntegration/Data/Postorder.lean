import Mathlib.Data.List.Nodup
import Mathlib.Data.List.Perm.Subperm
import Mathlib.Logic.Relation

/-!
This module contains the postorder traversal of a tree with an explicit stack and a set of expanded nodes. The tree is
kept in a memory which the visitor may change.
-/

/-- The children of a node, whether to descend to a node, and the visitor. -/
structure Postorder (α σ : Type) where
  next : σ → α → List α
  shouldVisit : σ → α → Bool
  visit : α → σ → σ

namespace Postorder

variable {α σ : Type}

/-- The set of expanded nodes is kept with the memory in which each of them was expanded. -/
structure State (α σ : Type) where
  stack : List α
  expanded : List (α × σ)
  visited : List α
  memory : σ

namespace State

def keys (s : State α σ) : List α := s.expanded.map (fun e => e.1)

def start (root : α) (memory : σ) : State α σ := ⟨[root], [], [], memory⟩

end State

section Run

variable (p : Postorder α σ)

/-- The children to descend to. -/
def accepted (m : σ) (x : α) : List α := (p.next m x).filter (p.shouldVisit m)

variable [DecidableEq α]

/-- A node that is found on the stack a second time is visited. -/
def step (s : State α σ) : State α σ :=
  match s.stack with
  | [] => s
  | item :: stack =>
    if item ∈ s.keys then
      { s with stack := stack, visited := s.visited ++ [item], memory := p.visit item s.memory }
    else
      { s with
        stack := (p.accepted s.memory item).reverse ++ item :: stack
        expanded := (item, s.memory) :: s.expanded }

def run : Nat → State α σ → State α σ
  | 0, s => s
  | n + 1, s => run n (p.step s)

/-- The same traversal by recursion. -/
def recursive : Nat → α → σ → σ
  | 0, _, m => m
  | n + 1, x, m => p.visit x ((p.accepted m x).reverse.foldl (fun m c => recursive n c m) m)

end Run

/-- The order in which a tree is traversed when every child is accepted, down to the depth `n`. -/
def order (next : α → List α) : Nat → α → List α
  | 0, _ => []
  | n + 1, x => (next x).reverse.flatMap (order next n) ++ [x]

/-- A node was expanded, and the other one was a child of it to descend to. -/
def Edge (p : Postorder α σ) (s : State α σ) (x c : α) : Prop := ∃ m, (x, m) ∈ s.expanded ∧ c ∈ p.accepted m x

/-- A finite tree: parents are unique, and children are farther from the root. -/
structure IsTree (next : α → List α) (rank : α → Nat) (nodes : List α) : Prop where
  nodup : ∀ x, (next x).Nodup
  unique : ∀ {x y c}, c ∈ next x → c ∈ next y → x = y
  rank_lt : ∀ {x c}, c ∈ next x → rank x < rank c
  closed : ∀ {x c}, x ∈ nodes → c ∈ next x → c ∈ nodes

/-- A visit changes the children of the visited node and of its parent at most. -/
def Local (p : Postorder α σ) : Prop :=
  ∀ x m y, y ≠ x → x ∉ p.next m y → p.next (p.visit x m) y = p.next m y

/--
After `n` turns the loop has ended. It has visited the root and what is reached from it over the children to descend
to, each node once and children before their parents. No node was expanded twice, and none was on the stack after its
visit.
-/
structure Complete [DecidableEq α] (p : Postorder α σ) (m : σ) (root : α) (n : Nat) : Prop where
  stack_eq : (p.run n (State.start root m)).stack = []
  keys_nodup : (p.run n (State.start root m)).keys.Nodup
  visited_nodup : (p.run n (State.start root m)).visited.Nodup
  mem_visited_iff : ∀ x, x ∈ (p.run n (State.start root m)).visited ↔
    Relation.ReflTransGen (p.Edge (p.run n (State.start root m))) root x
  child_first : ∀ x c, x ∈ (p.run n (State.start root m)).visited → c ∈ (p.run n (State.start root m)).visited →
    c ∈ p.next m x → [c, x].Sublist (p.run n (State.start root m)).visited
  disjoint : ∀ k, ∀ x ∈ (p.run k (State.start root m)).stack, x ∉ (p.run k (State.start root m)).visited

section Below

variable {next : α → List α} {rank : α → Nat} {nodes : List α} {root x y : α}

/-- The nodes of the subtree of the root. -/
def Below (next : α → List α) (root : α) : α → Prop := Relation.ReflTransGen (fun x c => c ∈ next x) root

theorem Below.rank_le (ht : IsTree next rank nodes) (h : Below next root x) : rank root ≤ rank x := by
  induction h with
  | refl => exact Nat.le_refl _
  | tail _ hc ih =>
    have := ht.rank_lt hc
    omega

theorem Below.mem_nodes (ht : IsTree next rank nodes) (hroot : root ∈ nodes) (h : Below next root x) : x ∈ nodes := by
  induction h with
  | refl => exact hroot
  | tail _ hc ih => exact ht.closed ih hc

/-- The root is not below itself. -/
theorem Below.root_not_mem (ht : IsTree next rank nodes) (h : Below next root x) : root ∉ next x := by
  intro hmem
  have hle := h.rank_le ht
  have hlt := ht.rank_lt hmem
  omega

end Below

/-- The invariant of the loop, for a tree whose children are `next` in the beginning. -/
structure Inv (p : Postorder α σ) (next : α → List α) (root : α) (s : State α σ) : Prop where
  stack_nodup : s.stack.Nodup
  visited_nodup : s.visited.Nodup
  disjoint : ∀ x ∈ s.stack, x ∉ s.visited
  keys_nodup : s.keys.Nodup
  known : ∀ x ∈ s.keys, x ∈ s.stack ∨ x ∈ s.visited
  visited_keys : ∀ x ∈ s.visited, x ∈ s.keys
  next_expanded : ∀ e ∈ s.expanded, p.next e.2 e.1 = next e.1
  next_memory : ∀ x, Below next root x → x ∉ s.keys → p.next s.memory x = next x
  root_mem : root ∈ s.stack ∨ root ∈ s.visited
  reached : ∀ x, x ∈ s.stack ∨ x ∈ s.visited → Relation.ReflTransGen (p.Edge s) root x
  /-- The children of an expanded node are above it on the stack, unless they were visited. -/
  pending : ∀ x ∈ s.stack, ∀ c, p.Edge s x c → c ∈ s.visited ∨ [c, x].Sublist s.stack
  ordered : ∀ x ∈ s.visited, ∀ c, p.Edge s x c → [c, x].Sublist s.visited

section Start

variable {p : Postorder α σ} {root : α} {m : σ}

theorem inv_start : p.Inv (p.next m) root (State.start root m) where
  stack_nodup := List.nodup_singleton root
  visited_nodup := List.nodup_nil
  disjoint := fun _ _ => List.not_mem_nil
  keys_nodup := List.nodup_nil
  known := fun _ hx => absurd hx List.not_mem_nil
  visited_keys := fun _ hx => absurd hx List.not_mem_nil
  next_expanded := fun _ he => absurd he List.not_mem_nil
  next_memory := fun _ _ _ => rfl
  root_mem := .inl List.mem_cons_self
  reached := by
    intro x hx
    have hroot : x = root := List.mem_singleton.mp (hx.resolve_right List.not_mem_nil)
    rw [hroot]
  pending := fun _ _ _ he => absurd he.choose_spec.1 List.not_mem_nil
  ordered := fun _ hx => absurd hx List.not_mem_nil

end Start

section Step

variable {p : Postorder α σ} {next : α → List α} {rank : α → Nat} {nodes : List α} {root x y c : α} {s : State α σ}

theorem State.mem_keys_iff : x ∈ s.keys ↔ ∃ m, (x, m) ∈ s.expanded := by
  simp only [State.keys, List.mem_map, Prod.exists, exists_and_right, exists_eq_right]

theorem Edge.mem_keys (h : p.Edge s x c) : x ∈ s.keys := by
  obtain ⟨m, hm, _⟩ := h
  exact State.mem_keys_iff.mpr ⟨m, hm⟩

theorem Inv.edge_next (h : p.Inv next root s) (he : p.Edge s x c) : c ∈ next x := by
  obtain ⟨m, hm, hc⟩ := he
  have hnext : p.next m x = next x := h.next_expanded (x, m) hm
  rw [← hnext]
  exact List.mem_of_mem_filter hc

theorem Inv.below (h : p.Inv next root s) (hx : x ∈ s.stack ∨ x ∈ s.visited) : Below next root x :=
  Relation.ReflTransGen.mono (fun _ _ => h.edge_next) _ _ (h.reached x hx)

/-- A node is on the stack or visited only after its parent was expanded. -/
theorem Inv.parent_mem_keys (ht : IsTree next rank nodes) (h : p.Inv next root s) (hx : x ∈ s.stack ∨ x ∈ s.visited)
    (hy : Below next root y) (hxy : x ∈ next y) : y ∈ s.keys := by
  cases (h.reached x hx).cases_tail with
  | inl hroot =>
    rw [hroot] at hxy
    exact absurd hxy (hy.root_not_mem ht)
  | inr hedge =>
    obtain ⟨q, _, hq⟩ := hedge
    rw [ht.unique hxy (h.edge_next hq)]
    exact hq.mem_keys

/-- The children of a node that is not expanded yet are new. -/
theorem Inv.child_fresh (ht : IsTree next rank nodes) (h : p.Inv next root s) (hx : x ∈ s.stack) (hk : x ∉ s.keys)
    (hc : c ∈ next x) : ¬(c ∈ s.stack ∨ c ∈ s.visited) :=
  fun hmem => hk (h.parent_mem_keys ht hmem (h.below (.inl hx)) hc)

/-- Nothing is above the top of the stack, so that its children were visited. -/
theorem Inv.visited_of_top {stack : List α} (h : p.Inv next root s) (hs : s.stack = x :: stack) (hc : p.Edge s x c) :
    c ∈ s.visited := by
  have hmem : x ∈ s.stack := by
    rw [hs]
    exact List.mem_cons_self
  have hnodup := h.stack_nodup
  rw [hs, List.nodup_cons] at hnodup
  apply (h.pending x hmem c hc).resolve_right
  rw [hs]
  intro hsub
  cases List.cons_sublist_cons'.mp hsub with
  | inl hsub => exact hnodup.1 (hsub.subset (List.mem_cons_of_mem _ (List.mem_singleton.mpr rfl)))
  | inr hsub => exact hnodup.1 (List.singleton_sublist.mp hsub.2)

theorem Inv.visit {stack : List α} {item : α} {expanded : List (α × σ)} {visited : List α} {m : σ}
    (ht : IsTree next rank nodes) (hl : p.Local) (h : p.Inv next root ⟨item :: stack, expanded, visited, m⟩)
    (hk : item ∈ State.keys ⟨item :: stack, expanded, visited, m⟩) :
    p.Inv next root ⟨stack, expanded, visited ++ [item], p.visit item m⟩ := by
  have hnodup := List.nodup_cons.mp h.stack_nodup
  have hitem : item ∉ visited := h.disjoint item List.mem_cons_self
  have hvisited : ∀ {x}, x ∈ visited ++ [item] ↔ x ∈ visited ∨ x = item := by
    intro x
    rw [List.mem_append, List.mem_singleton]
  have hmove : ∀ {x}, x ∈ stack ∨ x ∈ visited ++ [item] ↔ x ∈ item :: stack ∨ x ∈ visited := by
    intro x
    rw [hvisited, List.mem_cons]
    tauto
  constructor
  . exact hnodup.2
  . rw [List.nodup_append]
    refine ⟨h.visited_nodup, List.nodup_singleton item, ?_⟩
    intro x hx y hy heq
    rw [List.mem_singleton.mp hy] at heq
    rw [heq] at hx
    exact hitem hx
  . intro x hx hmem
    cases hvisited.mp hmem with
    | inl hold => exact h.disjoint x (List.mem_cons_of_mem _ hx) hold
    | inr heq =>
      rw [heq] at hx
      exact hnodup.1 hx
  . exact h.keys_nodup
  . intro x hx
    exact hmove.mpr (h.known x hx)
  . intro x hx
    cases hvisited.mp hx with
    | inl hold => exact h.visited_keys x hold
    | inr heq =>
      rw [heq]
      exact hk
  . exact h.next_expanded
  . intro x hx hnot
    have hnext := h.next_memory x hx hnot
    have hne : x ≠ item := by
      intro heq
      rw [heq] at hnot
      exact hnot hk
    -- the parent of the visited node was expanded before
    rw [hl item m x hne, hnext]
    rw [hnext]
    intro hmem
    have hkeys := h.parent_mem_keys ht (.inl List.mem_cons_self) hx hmem
    exact hnot hkeys
  . exact hmove.mpr h.root_mem
  . intro x hx
    exact h.reached x (hmove.mp hx)
  . intro x hx c hc
    rw [hvisited]
    cases h.pending x (List.mem_cons_of_mem _ hx) c hc with
    | inl hold => exact .inl (.inl hold)
    | inr hsub =>
      cases List.cons_sublist_cons'.mp hsub with
      | inl hsub => exact .inr hsub
      | inr heq => exact .inl (.inr heq.1)
  . intro x hx c hc
    cases hvisited.mp hx with
    | inl hold => exact (h.ordered x hold c hc).trans (List.sublist_append_left _ _)
    | inr heq =>
      subst heq
      have hvisited := h.visited_of_top rfl hc
      exact (List.singleton_sublist.mpr hvisited).append (List.Sublist.refl [x])

theorem Inv.expand {stack : List α} {item : α} {expanded : List (α × σ)} {visited : List α} {m : σ}
    (ht : IsTree next rank nodes) (h : p.Inv next root ⟨item :: stack, expanded, visited, m⟩)
    (hk : item ∉ State.keys ⟨item :: stack, expanded, visited, m⟩) :
    p.Inv next root ⟨(p.accepted m item).reverse ++ item :: stack, (item, m) :: expanded, visited, m⟩ := by
  have hnext : p.next m item = next item := h.next_memory item (h.below (.inl List.mem_cons_self)) hk
  have hchild : ∀ {c}, c ∈ (p.accepted m item).reverse → c ∈ next item := by
    intro c hc
    rw [← hnext]
    exact List.mem_of_mem_filter (List.mem_reverse.mp hc)
  have hfresh : ∀ {c}, c ∈ (p.accepted m item).reverse → ¬(c ∈ item :: stack ∨ c ∈ visited) := by
    intro c hc
    exact h.child_fresh ht List.mem_cons_self hk (hchild hc)
  have hitem : item ∉ visited := h.disjoint item List.mem_cons_self
  have hmono : ∀ {x c}, p.Edge ⟨item :: stack, expanded, visited, m⟩ x c →
      p.Edge ⟨(p.accepted m item).reverse ++ item :: stack, (item, m) :: expanded, visited, m⟩ x c := by
    intro x c he
    obtain ⟨m', hm', hc⟩ := he
    exact ⟨m', List.mem_cons_of_mem _ hm', hc⟩
  have hcases : ∀ {x c}, p.Edge ⟨(p.accepted m item).reverse ++ item :: stack, (item, m) :: expanded, visited, m⟩ x c →
      x = item ∧ c ∈ (p.accepted m item).reverse ∨ p.Edge ⟨item :: stack, expanded, visited, m⟩ x c := by
    intro x c he
    obtain ⟨m', hm', hc⟩ := he
    cases List.mem_cons.mp hm' with
    | inl heq =>
      cases heq
      exact .inl ⟨rfl, List.mem_reverse.mpr hc⟩
    | inr hold => exact .inr ⟨m', hold, hc⟩
  constructor
  . rw [List.nodup_append]
    refine ⟨?_, h.stack_nodup, ?_⟩
    . rw [List.nodup_reverse, accepted, hnext]
      exact (ht.nodup item).filter _
    . intro x hx y hy heq
      rw [heq] at hx
      exact hfresh hx (.inl hy)
  . exact h.visited_nodup
  . intro x hx hmem
    cases List.mem_append.mp hx with
    | inl hnew => exact hfresh hnew (.inr hmem)
    | inr hold => exact h.disjoint x hold hmem
  . exact List.nodup_cons.mpr ⟨hk, h.keys_nodup⟩
  . intro x hx
    cases List.mem_cons.mp hx with
    | inl heq =>
      rw [heq]
      exact .inl (List.mem_append_right _ List.mem_cons_self)
    | inr hold => exact (h.known x hold).imp_left (List.mem_append_right _)
  . intro x hx
    exact List.mem_cons_of_mem _ (h.visited_keys x hx)
  . intro e he
    cases List.mem_cons.mp he with
    | inl heq =>
      rw [heq]
      exact hnext
    | inr hold => exact h.next_expanded e hold
  . intro x hx hnot
    exact h.next_memory x hx (fun hmem => hnot (List.mem_cons_of_mem _ hmem))
  . exact h.root_mem.imp_left (List.mem_append_right _)
  . intro x hx
    have hold : ∀ {x}, x ∈ item :: stack ∨ x ∈ visited → Relation.ReflTransGen
        (p.Edge ⟨(p.accepted m item).reverse ++ item :: stack, (item, m) :: expanded, visited, m⟩) root x := by
      intro x hx
      exact Relation.ReflTransGen.mono (fun _ _ => hmono) _ _ (h.reached x hx)
    rw [List.mem_append, or_assoc] at hx
    cases hx with
    | inl hnew => exact (hold (.inl List.mem_cons_self)).tail ⟨m, List.mem_cons_self, List.mem_reverse.mp hnew⟩
    | inr hmem => exact hold hmem
  . intro x hx c hc
    cases hcases hc with
    | inl hnew =>
      obtain ⟨rfl, hc⟩ := hnew
      have hself : [x].Sublist (x :: stack) := List.singleton_sublist.mpr List.mem_cons_self
      exact .inr ((List.singleton_sublist.mpr hc).append hself)
    | inr hedge =>
      have hx : x ∈ item :: stack ∨ x ∈ visited := h.known x hedge.mem_keys
      cases hx with
      | inl hx =>
        exact (h.pending x hx c hedge).imp_right (fun hsub => hsub.trans (List.sublist_append_right _ _))
      | inr hx => exact .inl ((h.ordered x hx c hedge).subset List.mem_cons_self)
  . intro x hx c hc
    cases hcases hc with
    | inl hnew =>
      rw [hnew.1] at hx
      exact absurd hx hitem
    | inr hedge => exact h.ordered x hx c hedge

theorem Inv.mem_visited_iff (h : p.Inv next root s) (hs : s.stack = []) :
    x ∈ s.visited ↔ Relation.ReflTransGen (p.Edge s) root x := by
  have hempty : ∀ y, y ∉ s.stack := by
    rw [hs]
    exact fun _ => List.not_mem_nil
  constructor
  . intro hx
    exact h.reached x (.inr hx)
  . intro hx
    induction hx with
    | refl => exact h.root_mem.resolve_left (hempty root)
    | tail _ hc ih => exact (h.ordered _ ih _ hc).subset List.mem_cons_self

/-- Of two visited nodes, a child is visited before its parent. -/
theorem Inv.child_first (ht : IsTree next rank nodes) (h : p.Inv next root s) (hx : x ∈ s.visited) (hc : c ∈ s.visited)
    (hxc : c ∈ next x) : [c, x].Sublist s.visited := by
  cases (h.reached c (.inr hc)).cases_tail with
  | inl hroot =>
    rw [hroot] at hxc
    exact absurd hxc ((h.below (.inr hx)).root_not_mem ht)
  | inr hedge =>
    obtain ⟨q, _, hq⟩ := hedge
    rw [ht.unique (h.edge_next hq) hxc] at hq
    exact h.ordered x hx c hq

/-- How many turns of the loop were made. -/
def State.turns (s : State α σ) : Nat := s.expanded.length + s.visited.length

theorem Inv.turns_le (ht : IsTree next rank nodes) (hroot : root ∈ nodes) (h : p.Inv next root s) :
    s.turns ≤ 2 * nodes.length := by
  have hvisited : s.visited ⊆ nodes := by
    intro x hx
    exact (h.below (.inr hx)).mem_nodes ht hroot
  have hkeys : s.keys ⊆ nodes := by
    intro x hx
    exact (h.below (h.known x hx)).mem_nodes ht hroot
  have hle := (List.Nodup.subperm h.visited_nodup hvisited).length_le
  have hle' := (List.Nodup.subperm h.keys_nodup hkeys).length_le
  rw [State.keys, List.length_map] at hle'
  rw [State.turns]
  omega

variable [DecidableEq α]

/-- A turn of the loop keeps the invariant. -/
theorem Inv.step (ht : IsTree next rank nodes) (hl : p.Local) (h : p.Inv next root s) : p.Inv next root (p.step s) := by
  obtain ⟨stack, expanded, visited, m⟩ := s
  cases stack with
  | nil => exact h
  | cons item stack =>
    rw [Postorder.step]
    simp only
    split
    . next hk => exact h.visit ht hl hk
    . next hk => exact h.expand ht hk

theorem Inv.run (ht : IsTree next rank nodes) (hl : p.Local) (h : p.Inv next root s) (n : Nat) :
    p.Inv next root (p.run n s) := by
  induction n generalizing s with
  | zero => exact h
  | succ n ih => exact ih (h.step ht hl)

theorem step_of_nil (h : s.stack = []) : p.step s = s := by
  rw [step, h]

theorem run_of_nil (h : s.stack = []) (n : Nat) : p.run n s = s := by
  induction n with
  | zero => rfl
  | succ n ih => rw [run, step_of_nil h, ih]

theorem turns_step (h : s.stack ≠ []) : (p.step s).turns = s.turns + 1 := by
  obtain ⟨stack, expanded, visited, m⟩ := s
  cases stack with
  | nil => exact absurd rfl h
  | cons item stack =>
    rw [step]
    simp only
    split
    . simp only [State.turns, List.length_append, List.length_singleton]
      omega
    . simp only [State.turns, List.length_cons]
      omega

theorem turns_run (n : Nat) : (p.run n s).stack = [] ∨ (p.run n s).turns = s.turns + n := by
  induction n generalizing s with
  | zero => exact .inr rfl
  | succ n ih =>
    rw [run]
    by_cases hs : s.stack = []
    . left
      rw [step_of_nil hs, run_of_nil hs, hs]
    . apply ih.imp_right
      intro hn
      rw [hn, turns_step hs]
      omega

/-- The loop ends. -/
theorem Inv.exists_run (ht : IsTree next rank nodes) (hl : p.Local) (hroot : root ∈ nodes) (h : p.Inv next root s) :
    ∃ n, (p.run n s).stack = [] := by
  refine ⟨2 * nodes.length + 1, ?_⟩
  apply (turns_run _).resolve_right
  intro hturns
  have hle := (h.run ht hl (2 * nodes.length + 1)).turns_le ht hroot
  omega

/-- The traversal visits what it has to. -/
theorem exists_complete (m : σ) (ht : IsTree (p.next m) rank nodes) (hl : p.Local) (hroot : root ∈ nodes) :
    ∃ n, p.Complete m root n := by
  have hinv : ∀ k, p.Inv (p.next m) root (p.run k (State.start root m)) := fun k => inv_start.run ht hl k
  obtain ⟨n, hn⟩ := (hinv 0).exists_run ht hl hroot
  refine ⟨n, hn, (hinv n).keys_nodup, (hinv n).visited_nodup, ?_, ?_, ?_⟩
  . intro x
    exact (hinv n).mem_visited_iff hn
  . intro x c hx hc hxc
    exact (hinv n).child_first ht hx hc hxc
  . intro k
    exact (hinv k).disjoint

end Step

section Recursion

variable [DecidableEq α] {p : Postorder α σ} {next : α → List α} {rank : α → Nat} {nodes : List α} {root x y c : α}
variable {s : State α σ} {bound : Nat}

theorem run_add (n k : Nat) (s : State α σ) : p.run (n + k) s = p.run k (p.run n s) := by
  induction n generalizing s with
  | zero => rw [Nat.zero_add, run]
  | succ n ih => rw [Nat.add_right_comm, run, run, ih]

theorem subset_step : s.keys ⊆ (p.step s).keys ∧ s.visited ⊆ (p.step s).visited := by
  rw [step]
  split
  . exact ⟨List.Subset.refl _, List.Subset.refl _⟩
  . split
    . exact ⟨List.Subset.refl _, List.subset_append_left _ _⟩
    . exact ⟨List.subset_cons_self _ _, List.Subset.refl _⟩

theorem subset_run (n : Nat) : s.keys ⊆ (p.run n s).keys ∧ s.visited ⊆ (p.run n s).visited := by
  induction n generalizing s with
  | zero => exact ⟨List.Subset.refl _, List.Subset.refl _⟩
  | succ n ih => exact ⟨List.Subset.trans subset_step.1 ih.1, List.Subset.trans subset_step.2 ih.2⟩

/-- The loop takes `xs` off the stack, with the effect of calls that are `n` deep, and visits what it expands. -/
structure FollowsIn (p : Postorder α σ) (next : α → List α) (n : Nat) (s : State α σ) (xs rest : List α) (k : Nat) :
    Prop where
  stack_eq : (p.run k s).stack = rest
  memory_eq : (p.run k s).memory = xs.foldl (fun m x => p.recursive n x m) s.memory
  visits : ∀ y ∈ (p.run k s).keys, y ∈ s.keys ∨ y ∈ (p.run k s).visited
  order : (∀ m x, p.shouldVisit m x = true) → (p.run k s).visited = s.visited ++ xs.flatMap (order next n)

/-- What holds of one node holds of several on top of the stack. -/
theorem FollowsIn.all {n : Nat} (ht : IsTree next rank nodes) (hl : p.Local)
    (hone : ∀ {s x rest}, p.Inv next root s → s.stack = x :: rest → x ∉ s.keys → bound ≤ rank x + n →
      ∃ k, p.FollowsIn next n s [x] rest k) {xs rest : List α} (h : p.Inv next root s) (hs : s.stack = xs ++ rest)
    (hkeys : ∀ x ∈ xs, x ∉ s.keys) (hdeep : ∀ x ∈ xs, bound ≤ rank x + n) :
    ∃ k, p.FollowsIn next n s xs rest k := by
  induction xs generalizing s with
  | nil => exact ⟨0, hs, rfl, fun _ => .inl, fun _ => (List.append_nil _).symm⟩
  | cons x xs ih =>
    obtain ⟨k, hfirst⟩ := hone h hs (hkeys x List.mem_cons_self) (hdeep x List.mem_cons_self)
    have hrun := h.run ht hl k
    have hkeys' : ∀ y ∈ xs, y ∉ (p.run k s).keys := by
      intro y hy hmem
      cases hfirst.visits y hmem with
      | inl hold => exact hkeys y (List.mem_cons_of_mem _ hy) hold
      | inr hvisited =>
        apply hrun.disjoint y _ hvisited
        rw [hfirst.stack_eq]
        exact List.mem_append_left _ hy
    obtain ⟨k', hothers⟩ := ih hrun hfirst.stack_eq hkeys' (fun y hy => hdeep y (List.mem_cons_of_mem _ hy))
    refine ⟨k + k', ?_, ?_, ?_, ?_⟩
    . rw [run_add, hothers.stack_eq]
    . rw [run_add, hothers.memory_eq, hfirst.memory_eq, List.foldl_cons, List.foldl_cons, List.foldl_nil]
    . rw [run_add]
      intro y hy
      cases hothers.visits y hy with
      | inl hmem => exact (hfirst.visits y hmem).imp_right (fun hvisited => (subset_run k').2 hvisited)
      | inr hvisited => exact .inr hvisited
    . intro hall
      rw [run_add, hothers.order hall, hfirst.order hall, List.append_assoc, ← List.flatMap_append]
      rfl

/-- An expanded node is visited as soon as its children are. -/
theorem FollowsIn.close {n k : Nat} {expanded : List (α × σ)} {visited rest : List α} {m : σ}
    (h : p.FollowsIn next n ⟨(p.accepted m x).reverse ++ x :: rest, (x, m) :: expanded, visited, m⟩
      (p.accepted m x).reverse (x :: rest) k)
    (hx : x ∉ State.keys ⟨x :: rest, expanded, visited, m⟩) (hnext : p.next m x = next x) :
    p.FollowsIn next (n + 1) ⟨x :: rest, expanded, visited, m⟩ [x] rest (1 + (k + 1)) := by
  have hmem : x ∈ (p.run k ⟨(p.accepted m x).reverse ++ x :: rest, (x, m) :: expanded, visited, m⟩).keys :=
    (subset_run k).1 List.mem_cons_self
  have hfirst : p.step ⟨x :: rest, expanded, visited, m⟩ =
      ⟨(p.accepted m x).reverse ++ x :: rest, (x, m) :: expanded, visited, m⟩ := if_neg hx
  obtain ⟨hstack, hmemory, hvisits, horder⟩ := h
  generalize hlast : p.run k ⟨(p.accepted m x).reverse ++ x :: rest, (x, m) :: expanded, visited, m⟩ = last
    at hstack hmemory hvisits horder hmem
  have hrun : p.run (1 + (k + 1)) ⟨x :: rest, expanded, visited, m⟩ = p.step last := by
    rw [run_add, run_add, ← hlast, ← hfirst]
    rfl
  obtain ⟨stack, expanded', visited', m'⟩ := last
  subst hstack
  have hvisit : p.step ⟨x :: rest, expanded', visited', m'⟩ = ⟨rest, expanded', visited' ++ [x], p.visit x m'⟩ :=
    if_pos hmem
  rw [hvisit] at hrun
  constructor
  . rw [hrun]
  . rw [hrun, List.foldl_cons, List.foldl_nil, recursive]
    exact congrArg (p.visit x) hmemory
  . rw [hrun]
    intro y hy
    cases hvisits y hy with
    | inl hmem =>
      cases List.mem_cons.mp hmem with
      | inl heq => exact .inr (List.mem_append_right _ (List.mem_singleton.mpr heq))
      | inr hold => exact .inl hold
    | inr hvisited => exact .inr (List.mem_append_left _ hvisited)
  . intro hall
    have haccepted : p.accepted m x = next x := by
      rw [accepted, hnext, List.filter_eq_self]
      exact fun c _ => hall m c
    have hvisited : visited' = visited ++ (next x).reverse.flatMap (Postorder.order next n) := by
      rw [← haccepted]
      exact horder hall
    rw [hrun, List.flatMap_singleton, Postorder.order, ← List.append_assoc, ← hvisited]

/-- The induction is on how deep the calls go. -/
theorem Inv.exists_followsIn (ht : IsTree next rank nodes) (hl : p.Local)
    (hbound : ∀ y, Below next root y → rank y < bound) (n : Nat) {rest : List α} (h : p.Inv next root s)
    (hs : s.stack = x :: rest) (hx : x ∉ s.keys) (hdeep : bound ≤ rank x + n) :
    ∃ k, p.FollowsIn next n s [x] rest k := by
  induction n generalizing s x rest with
  | zero =>
    have hmem : x ∈ s.stack := by
      rw [hs]
      exact List.mem_cons_self
    have hlt := hbound x (h.below (.inl hmem))
    omega
  | succ n ih =>
    obtain ⟨stack, expanded, visited, m⟩ := s
    subst hs
    have hexpand := h.expand ht hx
    have hnext : p.next m x = next x := h.next_memory x (h.below (.inl List.mem_cons_self)) hx
    have hchild : ∀ c ∈ (p.accepted m x).reverse, c ∈ next x := by
      intro c hc
      exact hexpand.edge_next ⟨m, List.mem_cons_self, List.mem_reverse.mp hc⟩
    have hkeys : ∀ c ∈ (p.accepted m x).reverse,
        c ∉ State.keys ⟨(p.accepted m x).reverse ++ x :: rest, (x, m) :: expanded, visited, m⟩ := by
      intro c hc hmem
      have hfresh := h.child_fresh ht List.mem_cons_self hx (hchild c hc)
      cases List.mem_cons.mp hmem with
      | inl heq =>
        apply hfresh
        rw [show c = x from heq]
        exact .inl List.mem_cons_self
      | inr hold => exact hfresh (h.known c hold)
    have hdeeper : ∀ c ∈ (p.accepted m x).reverse, bound ≤ rank c + n := by
      intro c hc
      have hlt := ht.rank_lt (hchild c hc)
      omega
    obtain ⟨k, hfollows⟩ := FollowsIn.all ht hl ih hexpand rfl hkeys hdeeper
    exact ⟨_, hfollows.close hx hnext⟩

/-- The loop does to the memory what the recursion does, if its calls go deep enough. -/
theorem exists_run_recursive (m : σ) (ht : IsTree (p.next m) rank nodes) (hl : p.Local)
    (hbound : ∀ y, Below (p.next m) root y → rank y < bound) {n : Nat} (hdeep : bound ≤ rank root + n) :
    ∃ k, (p.run k (State.start root m)).stack = [] ∧
      (p.run k (State.start root m)).memory = p.recursive n root m ∧
      ((∀ m x, p.shouldVisit m x = true) → (p.run k (State.start root m)).visited = order (p.next m) n root) := by
  have hinv : p.Inv (p.next m) root (State.start root m) := inv_start
  obtain ⟨k, h⟩ := hinv.exists_followsIn ht hl hbound n rfl List.not_mem_nil hdeep
  refine ⟨k, h.stack_eq, h.memory_eq, ?_⟩
  intro hall
  rw [h.order hall, List.flatMap_singleton]
  exact List.nil_append _

/-- The memory is the one that the visits of the visited nodes make, one after the other. -/
theorem memory_run {m : σ} (h : s.memory = s.visited.foldl (fun m x => p.visit x m) m) (n : Nat) :
    (p.run n s).memory = (p.run n s).visited.foldl (fun m x => p.visit x m) m := by
  induction n generalizing s with
  | zero => exact h
  | succ n ih =>
    apply ih
    rw [step]
    split
    . exact h
    . split
      . rw [List.foldl_append, List.foldl_cons, List.foldl_nil, ← h]
      . exact h

end Recursion

end Postorder
