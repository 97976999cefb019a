import AltIntegration.Blockchain.Lemmas.Finalize
import AltIntegration.Blockchain.Runs

/-!
This module contains `Chain` of `chain.hpp`: the array behind the active chain of a tree, and what `setTip` leaves in
it. A block is a pointer that is not null; the walk back from a block over `getPrev` is `chainTo`.
-/

namespace AltIntegration

/-- `Chain`, without its iterators -/
structure Chain where
  startHeight : Nat
  chain : List (Option Hash)
  deriving DecidableEq, Repr

namespace Chain

def new (startHeight : Nat) : Chain := ⟨startHeight, []⟩

def toInnerHeight (c : Chain) (height : Nat) : Nat := height - c.startHeight

/-- `operator[]` -/
def get (c : Chain) (height : Nat) : Option Hash :=
  if height < c.startHeight then none else c.chain.getD (c.toInnerHeight height) none

/-- The height of the last entry. An empty chain is not asked for it. -/
def chainHeight (c : Chain) : Nat := c.chain.length + c.startHeight - 1

def tip (c : Chain) : Option Hash := if c.chain.isEmpty then none else c.get c.chainHeight

def clear (c : Chain) : Chain := { c with chain := [] }

/-- `chain.resize(size)` -/
def resize (c : Chain) (size : Nat) : Chain :=
  { c with chain := c.chain.take size ++ List.replicate (size - c.chain.length) none }

/-- `chain[toInnerHeight(height)] = index` -/
def put (c : Chain) (height : Nat) (index : Hash) : Chain :=
  { c with chain := c.chain.set (c.toInnerHeight height) (some index) }

section Tree

variable {A : Type} (t : Tree A)

def contains (c : Chain) (index : Hash) : Bool := c.get (t.heightOf index) = some index

/-- `setTip`. What it does not overwrite are entries of the chain before. -/
def setTip (c : Chain) : Option Hash → Chain
  | none => c.clear
  | some index =>
    if t.heightOf index < c.startHeight then
      c.clear
    else
      rewrite (t.chainTo index) (c.resize (c.toInnerHeight (t.heightOf index) + 1))
where
  rewrite : List Hash → Chain → Chain
    | [], c => c
    | index :: ancestors, c =>
      if !c.contains t index && decide (c.startHeight ≤ t.heightOf index) then
        rewrite ancestors (c.put (t.heightOf index) index)
      else
        c

/-- `findFork`: the walk back from the block, or from its ancestor at the height of the chain, to a block of the chain. -/
def findFork (c : Chain) : Option Hash → Option Hash
  | none => none
  | some index =>
    if c.tip.isNone then
      none
    else if c.chainHeight < t.heightOf index then
      (t.getAncestor index c.chainHeight).bind (fun ancestor => (t.chainTo ancestor).find? (c.contains t))
    else
      (t.chainTo index).find? (c.contains t)

/-- The block `x` has an ancestor-or-self at the height `start`. -/
def Descends (start : Nat) (x : Hash) : Prop := ∃ y ∈ t.chainTo x, t.heightOf y = start

/-- The chains that calls of `setTip` make of a new chain. -/
inductive Built (start : Nat) : Chain → Prop where
  | new : Built start (Chain.new start)
  | clear {c : Chain} (hc : Built start c) : Built start (c.setTip t none)
  | setTip {c : Chain} {target : Hash} (hc : Built start c) (ht : Descends t start target) :
    Built start (c.setTip t (some target))

end Tree

section

variable {c : Chain} {height n size : Nat} {index : Hash}

@[simp]
theorem put_startHeight : (c.put height index).startHeight = c.startHeight := rfl

@[simp]
theorem resize_startHeight : (c.resize size).startHeight = c.startHeight := rfl

theorem length_put : (c.put height index).chain.length = c.chain.length := List.length_set

theorem length_resize : (c.resize size).chain.length = size := by
  simp only [resize, List.length_append, List.length_take, List.length_replicate]
  omega

theorem get_eq_some_iff :
    c.get height = some index ↔
      c.startHeight ≤ height ∧ c.chain[height - c.startHeight]? = some (some index) := by
  rw [get, toInnerHeight, List.getD_eq_getElem?_getD]
  split
  . next hlt =>
    constructor
    . intro h
      cases h
    . intro h
      omega
  . next hle =>
    cases c.chain[height - c.startHeight]? with
    | none => simp
    | some entry =>
      rw [Option.getD_some, Option.some.injEq]
      constructor
      . intro h
        exact ⟨by omega, h⟩
      . exact And.right

theorem lt_of_get (h : c.get height = some index) :
    c.startHeight ≤ height ∧ height < c.startHeight + c.chain.length := by
  rw [get_eq_some_iff] at h
  have hlt := (List.getElem?_eq_some_iff.mp h.2).1
  omega

theorem get_put_self (hlow : c.startHeight ≤ height) (hhigh : height < c.startHeight + c.chain.length) :
    (c.put height index).get height = some index := by
  rw [get_eq_some_iff]
  refine ⟨hlow, ?_⟩
  simp only [put, toInnerHeight]
  rw [List.getElem?_set_self (by omega)]

theorem get_put_of_ne {y : Hash} (hlow : c.startHeight ≤ height) (hne : n ≠ height) :
    (c.put height index).get n = some y ↔ c.get n = some y := by
  rw [get_eq_some_iff, get_eq_some_iff]
  apply and_congr_right
  intro hn
  simp only [put, toInnerHeight] at *
  rw [List.getElem?_set_ne (by omega)]

theorem get_resize (hn : n < c.startHeight + size) : (c.resize size).get n = some index ↔ c.get n = some index := by
  rw [get_eq_some_iff, get_eq_some_iff]
  apply and_congr_right
  intro hlow
  simp only [resize, List.getElem?_append, List.getElem?_replicate, List.length_take] at *
  split
  . rw [List.getElem?_take_of_lt (by omega)]
  . next hge =>
    rw [List.getElem?_eq_none (by omega)]
    split
    . simp
    . simp

end

section Exact

variable {A : Type} {t : Tree A} {c : Chain} {start n height : Nat} {x y z : Hash} {b : BlockIndex A}

theorem contains_iff : c.contains t x = true ↔ c.get (t.heightOf x) = some x := by
  rw [contains, decide_eq_true_eq]

/-- Below the height `n`, the chain holds with a block its ancestors. -/
def Closed (t : Tree A) (c : Chain) (n : Nat) : Prop :=
  ∀ y, t.heightOf y < n → c.contains t y = true →
    ∀ z ∈ t.chainTo y, c.startHeight ≤ t.heightOf z → c.contains t z = true

/-- From the height `n` on, the chain holds the ancestors of the block `x`. -/
def HoldsFrom (t : Tree A) (c : Chain) (x : Hash) (n : Nat) : Prop :=
  ∀ z ∈ t.chainTo x, n ≤ t.heightOf z → c.startHeight ≤ t.heightOf z → c.contains t z = true

/-- The entries are the ancestors of the block `x`, and nothing else. -/
structure Exact (t : Tree A) (c : Chain) (x : Hash) : Prop where
  length : c.startHeight + c.chain.length = t.heightOf x + 1
  holds : c.HoldsFrom t x 0
  descends : Descends t c.startHeight x

theorem contains_put_self (hlow : c.startHeight ≤ t.heightOf y)
    (hhigh : t.heightOf y < c.startHeight + c.chain.length) :
    (c.put (t.heightOf y) y).contains t y = true := by
  rw [contains_iff]
  exact get_put_self hlow hhigh

theorem contains_put_of_ne (hlow : c.startHeight ≤ height) (hne : t.heightOf z ≠ height) :
    (c.put height y).contains t z = true ↔ c.contains t z = true := by
  rw [contains_iff, contains_iff]
  exact get_put_of_ne hlow hne

/-- Where the loop stops, the entries below are right because what is stored is closed under ancestors. -/
theorem HoldsFrom.stop (ht : t.WF) (hy : y ∈ t.chainTo x) (hclosed : c.Closed t (t.heightOf y + 1))
    (hholds : c.HoldsFrom t x (t.heightOf y + 1))
    (hstop : c.contains t y = true ∨ t.heightOf y < c.startHeight) : c.HoldsFrom t x 0 := by
  intro z hz _ hstart
  by_cases hlt : t.heightOf y < t.heightOf z
  . apply hholds z hz hlt hstart
  . cases hstop with
    | inl hcontains => exact hclosed y (by omega) hcontains z (ht.mem_chainTo_of_le hz hy (by omega)) hstart
    | inr hbelow => omega

theorem HoldsFrom.put (ht : t.WF) (hy : y ∈ t.chainTo x) (hlen : t.heightOf x < c.startHeight + c.chain.length)
    (hlow : c.startHeight ≤ t.heightOf y) (hholds : c.HoldsFrom t x (t.heightOf y + 1)) :
    (c.put (t.heightOf y) y).HoldsFrom t x (t.heightOf y) := by
  intro z hz hle hstart
  have hhigh := ht.heightOf_le hy
  by_cases heq : t.heightOf z = t.heightOf y
  . rw [ht.eq_of_heightOf_eq hz hy heq]
    apply contains_put_self hlow (by omega)
  . rw [contains_put_of_ne hlow heq]
    apply hholds z hz (by omega) hstart

theorem Closed.put (ht : t.WF) (hlow : c.startHeight ≤ t.heightOf y) (hclosed : c.Closed t (t.heightOf y + 1)) :
    (c.put (t.heightOf y) y).Closed t (t.heightOf y) := by
  intro w hw hcontains z hz hstart
  have hle := ht.heightOf_le hz
  rw [contains_put_of_ne hlow (by omega)] at hcontains ⊢
  exact hclosed w (by omega) hcontains z hz hstart

/-- The loop of `setTip`, at the ancestor `y` of the new tip `x`. The induction goes from the root up to `y`. -/
theorem rewrite_spec (ht : t.WF) (hb : t.find? y = some b) (hy : y ∈ t.chainTo x)
    (hlen : t.heightOf x < c.startHeight + c.chain.length) (hclosed : c.Closed t (t.heightOf y + 1))
    (hholds : c.HoldsFrom t x (t.heightOf y + 1)) :
    (setTip.rewrite t (t.chainTo y) c).startHeight = c.startHeight ∧
      (setTip.rewrite t (t.chainTo y) c).chain.length = c.chain.length ∧
      (setTip.rewrite t (t.chainTo y) c).HoldsFrom t x 0 := by
  revert c hy
  refine ht.chain_induction (P := fun y => ∀ {c : Chain}, y ∈ t.chainTo x →
    t.heightOf x < c.startHeight + c.chain.length → c.Closed t (t.heightOf y + 1) →
    c.HoldsFrom t x (t.heightOf y + 1) →
    (setTip.rewrite t (t.chainTo y) c).startHeight = c.startHeight ∧
      (setTip.rewrite t (t.chainTo y) c).chain.length = c.chain.length ∧
      (setTip.rewrite t (t.chainTo y) c).HoldsFrom t x 0) ?_ ?_ hb
  . intro y b hb hp c hy hlen hclosed hholds
    rw [Tree.chainTo_of_root hb hp]
    simp only [setTip.rewrite]
    split
    . next hgo =>
      rw [Bool.and_eq_true, decide_eq_true_eq] at hgo
      refine ⟨rfl, length_put, ?_⟩
      intro z hz _ hstart
      apply hholds.put ht hy hlen hgo.2 z hz _ hstart
      -- nothing is below the root
      apply Decidable.byContradiction
      intro hlt
      have hzy := ht.mem_chainTo_of_le hz hy (by omega)
      rw [Tree.chainTo_of_root hb hp, List.mem_singleton] at hzy
      rw [hzy] at hlt
      omega
    . next hgo =>
      rw [Bool.and_eq_true, decide_eq_true_eq, not_and_or, Bool.not_eq_true', Bool.not_eq_false, not_le] at hgo
      exact ⟨rfl, rfl, hholds.stop ht hy hclosed hgo⟩
  . intro y p hp ih c hy hlen hclosed hholds
    have hheight := ht.heightOf_child hp
    rw [ht.chainTo_of_child hp]
    simp only [setTip.rewrite]
    split
    . next hgo =>
      rw [Bool.and_eq_true, decide_eq_true_eq] at hgo
      have hput := hholds.put ht hy hlen hgo.2
      have hclosed := hclosed.put ht hgo.2
      rw [hheight] at hput hclosed
      have hlength : (c.put (t.heightOf y) y).chain.length = c.chain.length := length_put
      rw [← hlength] at hlen ⊢
      rw [hheight] at hlen ⊢
      exact ih (ht.mem_chainTo_of_child hy hp) hlen hclosed hput
    . next hgo =>
      rw [Bool.and_eq_true, decide_eq_true_eq, not_and_or, Bool.not_eq_true', Bool.not_eq_false, not_le] at hgo
      exact ⟨rfl, rfl, hholds.stop ht hy hclosed hgo⟩

theorem Descends.find? (hx : Descends t start x) : ∃ b, t.find? x = some b := by
  cases hb : t.find? x with
  | some b => exact ⟨b, rfl⟩
  | none =>
    obtain ⟨y, hy, _⟩ := hx
    rw [Tree.chainTo_of_none hb] at hy
    cases hy

theorem Descends.le (ht : t.WF) (hx : Descends t start x) : start ≤ t.heightOf x := by
  obtain ⟨y, hy, rfl⟩ := hx
  exact ht.heightOf_le hy

namespace Exact

theorem contains_iff (ht : t.WF) (hc : c.Exact t x) :
    c.contains t z = true ↔ z ∈ t.chainTo x ∧ c.startHeight ≤ t.heightOf z := by
  constructor
  . intro hz
    have hget := Chain.contains_iff.mp hz
    have hrange := lt_of_get hget
    have hlength := hc.length
    obtain ⟨w, hw, hstart⟩ := hc.descends
    obtain ⟨y, hy, hheight⟩ := ht.exists_heightOf_eq_of_mem hw (by omega) (show t.heightOf z ≤ t.heightOf x by omega)
    have hy' := hc.holds y hy (Nat.zero_le _) (by omega)
    rw [Chain.contains_iff, hheight, hget, Option.some.injEq] at hy'
    rw [hy']
    exact ⟨hy, by omega⟩
  . intro hz
    exact hc.holds z hz.1 (Nat.zero_le _) hz.2

theorem closed (ht : t.WF) (hc : c.Exact t x) (n : Nat) : c.Closed t n := by
  intro y _ hy z hz hstart
  rw [hc.contains_iff ht] at hy ⊢
  exact ⟨ht.mem_chainTo_trans hz hy.1, hstart⟩

theorem get_eq (ht : t.WF) (hc : c.Exact t x) (hlow : c.startHeight ≤ height) (hhigh : height ≤ t.heightOf x) :
    ∃ y, t.getAncestor x height = some y ∧ c.get height = some y := by
  obtain ⟨w, hw, hstart⟩ := hc.descends
  obtain ⟨y, hy, rfl⟩ := ht.exists_heightOf_eq_of_mem hw (by omega) hhigh
  exact ⟨y, ht.getAncestor_eq hy, Chain.contains_iff.mp (hc.holds y hy (Nat.zero_le _) hlow)⟩

theorem chainHeight_eq (hc : c.Exact t x) : c.chainHeight = t.heightOf x := by
  have hlength := hc.length
  rw [chainHeight]
  omega

theorem tip_eq (ht : t.WF) (hc : c.Exact t x) : c.tip = some x := by
  obtain ⟨b, hb⟩ := hc.descends.find?
  have hle := hc.descends.le ht
  have hlength := hc.length
  have hne : c.chain.isEmpty = false := by
    rw [List.isEmpty_eq_false_iff, ← List.length_pos_iff]
    omega
  rw [tip, hne, hc.chainHeight_eq, if_neg Bool.false_ne_true, ← Chain.contains_iff, hc.contains_iff ht]
  exact ⟨ht.mem_chainTo_self hb, hle⟩

end Exact

/-- `setTip` leaves the ancestors of the new tip in a chain whose entries are closed under ancestors. -/
theorem exact_setTip (ht : t.WF) (hx : Descends t c.startHeight x) (hclosed : ∀ n, c.Closed t n) :
    (c.setTip t (some x)).startHeight = c.startHeight ∧ (c.setTip t (some x)).Exact t x := by
  obtain ⟨b, hb⟩ := hx.find?
  have hle := hx.le ht
  have hlength : (c.resize (c.toInnerHeight (t.heightOf x) + 1)).chain.length = t.heightOf x - c.startHeight + 1 :=
    length_resize
  have hspec := rewrite_spec (c := c.resize (c.toInnerHeight (t.heightOf x) + 1)) ht hb (ht.mem_chainTo_self hb)
    (by rw [hlength, resize_startHeight]; omega) ?_ ?_
  . rw [resize_startHeight, hlength] at hspec
    rw [setTip, if_neg (by omega)]
    refine ⟨hspec.1, ⟨?_, hspec.2.2, ?_⟩⟩
    . rw [hspec.1, hspec.2.1]
      omega
    . rw [hspec.1]
      exact hx
  . intro y hy hcontains z hz hstart
    have hle' := ht.heightOf_le hz
    rw [Chain.contains_iff, get_resize (by rw [toInnerHeight]; omega)] at hcontains ⊢
    exact contains_iff.mp (hclosed _ y hy (contains_iff.mpr hcontains) z hz hstart)
  . intro z hz hlt
    have := ht.heightOf_le hz
    omega

theorem closed_of_isEmpty (h : c.chain = []) (n : Nat) : c.Closed t n := by
  intro y _ hy
  have hrange := lt_of_get (contains_iff.mp hy)
  rw [h, List.length_nil] at hrange
  omega

/-- Between two calls the array is empty or exact. -/
theorem Built.exact (ht : t.WF) (hc : Built t start c) : c.startHeight = start ∧ (c.chain = [] ∨ ∃ x, c.Exact t x) := by
  induction hc with
  | new => exact ⟨rfl, .inl rfl⟩
  | clear _ ih => exact ⟨ih.1, .inl rfl⟩
  | @setTip c target _ hx ih =>
    obtain ⟨rfl, hchain⟩ := ih
    have hclosed : ∀ n, c.Closed t n := by
      cases hchain with
      | inl hnil => exact closed_of_isEmpty hnil
      | inr hexact =>
        obtain ⟨y, hy⟩ := hexact
        exact hy.closed ht
    obtain ⟨hstart, hexact⟩ := exact_setTip ht hx hclosed
    exact ⟨hstart, .inr ⟨_, hexact⟩⟩

theorem Built.closed (ht : t.WF) (hc : Built t start c) (n : Nat) : c.Closed t n := by
  cases (hc.exact ht).2 with
  | inl hnil => exact closed_of_isEmpty hnil n
  | inr hexact =>
    obtain ⟨y, hy⟩ := hexact
    exact hy.closed ht n

/--
Whatever calls were made before, after a call of `setTip` the chain holds at every height up to the target the
target's ancestor at that height, and contains these ancestors and nothing else.
-/
theorem setTip_correct (ht : t.WF) (hc : Built t start c) (hx : Descends t start x) :
    (∀ height, start ≤ height → height ≤ t.heightOf x →
      ∃ y, t.getAncestor x height = some y ∧ (c.setTip t (some x)).get height = some y) ∧
    ∀ y, (c.setTip t (some x)).contains t y = true ↔ y ∈ t.chainTo x ∧ start ≤ t.heightOf y := by
  obtain ⟨rfl, _⟩ := hc.exact ht
  obtain ⟨hstart, hexact⟩ := exact_setTip ht hx (hc.closed ht)
  constructor
  . intro height hlow hhigh
    apply hexact.get_eq ht _ hhigh
    rw [hstart]
    exact hlow
  . intro y
    rw [hexact.contains_iff ht, hstart]

end Exact

end Chain

namespace Small

/-- Two forks over the root: the blocks 2 and 3 on the one, 4 on the other. -/
def forked : Tree AltAddon :=
  (after [.acceptBlockHeader (altBlock 2 1 1), .acceptBlockHeader (altBlock 3 2 2), .acceptBlockHeader (altBlock 4 1 1)]).alt

theorem consistent_forked : forked.Consistent := Tree.consistent_of_isConsistent (by decide)

def upTo3 : Chain := (Chain.new 0).setTip forked (some 3)

theorem built_upTo3 : Chain.Built forked 0 upTo3 := .setTip .new ⟨1, by decide, by decide⟩

/-- To the shorter fork and back. -/
theorem setTip_forked :
    ((upTo3.setTip forked (some 4)).setTip forked (some 3)).get 1 = some 2 ∧
      (upTo3.setTip forked (some 4)).contains forked 3 = false ∧
      ∀ y, ((upTo3.setTip forked (some 4)).setTip forked (some 3)).contains forked y = true ↔
        y ∈ forked.chainTo 3 ∧ 0 ≤ forked.heightOf y := by
  have h4 : Chain.Descends forked 0 4 := ⟨1, by decide, by decide⟩
  have h3 : Chain.Descends forked 0 3 := ⟨1, by decide, by decide⟩
  have hspec := Chain.setTip_correct consistent_forked.wf (.setTip built_upTo3 h4) h3
  exact ⟨by decide, by decide, hspec.2⟩

end Small

end AltIntegration
