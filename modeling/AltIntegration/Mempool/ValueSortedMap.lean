import AltIntegration.Data.OrderedMultiset
import AltIntegration.Data.Store
import AltIntegration.Blockchain.Entities

/-!
This module contains `ValueSortedMap` of `value_sorted_map.hpp`, a map that keeps its values sorted beside
it, and shows when the two stay in step. The sorted values are searched by rank, so what is taken out of
them is the first value of the rank, whatever key it is stored under.
-/

namespace AltIntegration

/-- `map_` is an `unordered_map`, which has every key once; `set_` is a `multiset`. -/
structure ValueSortedMap (κ β : Type) where
  set : List β
  map : Store κ β
  nodup_keys : map.keys.Nodup

namespace ValueSortedMap

open OrderedMultiset

variable {κ β : Type}

def empty : ValueSortedMap κ β := ⟨[], Store.empty, List.nodup_nil⟩

def getSortedValues (s : ValueSortedMap κ β) : List β := s.set

/-- The values currently held by the map. -/
def values (s : ValueSortedMap κ β) : List β := s.map.entries.map (fun e => e.2)

/-- The assertion on the sizes at the end of every operation. -/
def checkSizes (s : ValueSortedMap κ β) : Option (ValueSortedMap κ β) :=
  if s.map.entries.length = s.set.length then some s else none

section

variable [DecidableEq κ]

def find (s : ValueSortedMap κ β) (key : κ) : Option β := s.map.find? key

theorem nodup_erase (s : ValueSortedMap κ β) (key : κ) : (s.map.erase key).keys.Nodup := by
  rw [Store.keys_erase]
  exact s.nodup_keys.filter _

theorem nodup_modify (s : ValueSortedMap κ β) (key : κ) (value : β) :
    (s.map.modify key (fun _ => value)).keys.Nodup := by
  rw [Store.keys_modify]
  exact s.nodup_keys

theorem nodup_insert (s : ValueSortedMap κ β) (key : κ) (value : β) (h : s.map.find? key = none) :
    (s.map.insert key value).keys.Nodup := by
  rw [Store.keys_insert]
  exact List.nodup_cons.mpr ⟨(s.map.find?_eq_none_iff key).mp h, s.nodup_keys⟩

variable (lt : β → β → Prop) [DecidableRel lt]

/-- `set_.erase(set_.find(value))`; the search has to end at a value. -/
def eraseValue (set : List β) (value : β) : Option (List β) :=
  (OrderedMultiset.find? lt value set).map (fun _ => eraseFound lt value set)

/-- Take out the entry of `key`, whose value is `value`. -/
def eraseEntry (s : ValueSortedMap κ β) (key : κ) (value : β) : Option (ValueSortedMap κ β) :=
  (eraseValue lt s.set value).bind (fun set => checkSizes ⟨set, s.map.erase key, s.nodup_erase key⟩)

/-- `erase(key)` -/
def erase (s : ValueSortedMap κ β) (key : κ) : Option (ValueSortedMap κ β) :=
  (s.map.find? key).elim (some s) (s.eraseEntry lt key)

/-- `erase(it)`, for the iterator at `key` where there is one; here no assertion follows the search. -/
def eraseAt (s : ValueSortedMap κ β) (key : κ) : Option (ValueSortedMap κ β) :=
  (s.map.find? key).elim (some s) (s.eraseEntry lt key)

def insert (s : ValueSortedMap κ β) (key : κ) (value : β) : Option (ValueSortedMap κ β) :=
  match h : s.map.find? key with
  | some old =>
    (eraseValue lt s.set old).bind (fun set => checkSizes
      ⟨OrderedMultiset.insert lt value set, s.map.modify key (fun _ => value), s.nodup_modify key value⟩)
  | none =>
    checkSizes ⟨OrderedMultiset.insert lt value s.set, s.map.insert key value, s.nodup_insert key value h⟩

/-- The operations that change the map. -/
inductive Op (κ β : Type) where
  | insert (key : κ) (value : β)
  | erase (key : κ)
  | eraseAt (key : κ)
  deriving DecidableEq, Repr

def Op.key : Op κ β → κ
  | insert key _ => key
  | erase key => key
  | eraseAt key => key

/-- `none`: an assertion fails, or a search that has to end at a value does not. -/
def exec (s : ValueSortedMap κ β) : Op κ β → Option (ValueSortedMap κ β)
  | .insert key value => s.insert lt key value
  | .erase key => s.erase lt key
  | .eraseAt key => s.eraseAt lt key

/-- The sorted values are the values of the map, in the order of the comparator. -/
structure InStep (s : ValueSortedMap κ β) : Prop where
  perm : s.getSortedValues.Perm s.values
  sorted : Sorted lt s.getSortedValues

/-- Every state of the run is reached and in step. -/
def AlwaysInStep : List (Op κ β) → ValueSortedMap κ β → Prop
  | [], s => InStep lt s
  | op :: ops, s => InStep lt s ∧ (s.exec lt op).elim False (AlwaysInStep ops)

/-- Where the key is in the map already, its value is the first of its rank that is held. -/
def OwnValueFirst (s : ValueSortedMap κ β) (op : Op κ β) : Prop :=
  ∀ value ∈ s.map.find? op.key, (s.set.filter (fun w => SameRank lt value w)).head? = some value

def AlwaysOwnValueFirst : List (Op κ β) → ValueSortedMap κ β → Prop
  | [], _ => True
  | op :: ops, s => OwnValueFirst lt s op ∧ (s.exec lt op).elim True (AlwaysOwnValueFirst ops)

instance decidableOwnValueFirst [DecidableEq β] (s : ValueSortedMap κ β) (op : Op κ β) :
    Decidable (OwnValueFirst lt s op) :=
  inferInstanceAs (Decidable (∀ value ∈ s.map.find? op.key,
    (s.set.filter (fun w => SameRank lt value w)).head? = some value))

instance decidableAlwaysOwnValueFirst [DecidableEq β] :
    (ops : List (Op κ β)) → (s : ValueSortedMap κ β) → Decidable (AlwaysOwnValueFirst lt ops s)
  | [], _ => .isTrue trivial
  | op :: ops, s =>
    have : Decidable ((s.exec lt op).elim True (AlwaysOwnValueFirst lt ops)) :=
      match s.exec lt op with
      | none => .isTrue trivial
      | some s' => decidableAlwaysOwnValueFirst ops s'
    inferInstanceAs (Decidable (OwnValueFirst lt s op ∧ _))

end

theorem checkSizes_eq_some {s s' : ValueSortedMap κ β} (h : checkSizes s = some s') : s' = s := by
  simp only [checkSizes] at h
  split at h
  . exact (Option.some.inj h).symm
  . cases h

theorem checkSizes_of_perm {s : ValueSortedMap κ β} (h : s.set.Perm s.values) : checkSizes s = some s := by
  have : s.map.entries.length = s.set.length := by
    rw [h.length_eq, values, List.length_map]
  simp [checkSizes, this]

/-- Two lists that agree up to one value each agree without them just when the two values are the same. -/
theorem perm_iff_of_cons {v w : β} {l l' : List β} (h : (w :: l).Perm (v :: l')) : l.Perm l' ↔ w = v := by
  constructor
  . intro hl
    have : (w ::ₘ (l : Multiset β)) = v ::ₘ l := Multiset.coe_eq_coe.mpr (h.trans (hl.symm.cons v))
    exact (Multiset.cons_inj_left _).mp this
  . intro heq
    subst heq
    exact h.cons_inv

theorem inStep_empty {lt : β → β → Prop} : InStep lt (empty : ValueSortedMap κ β) :=
  ⟨List.Perm.refl _, List.Pairwise.nil⟩

theorem inStep_checkSizes_iff {lt : β → β → Prop} {s : ValueSortedMap κ β} (hsorted : Sorted lt s.set) :
    (checkSizes s).elim False (InStep lt) ↔ s.set.Perm s.values := by
  constructor
  . intro h
    cases hc : checkSizes s with
    | none =>
      rw [hc] at h
      exact h.elim
    | some s' =>
      rw [hc] at h
      rw [← checkSizes_eq_some hc]
      exact h.perm
  . intro h
    rw [checkSizes_of_perm h]
    exact ⟨h, hsorted⟩

section

variable [DecidableEq κ] {lt : β → β → Prop} [DecidableRel lt]

theorem ownValueFirst_iff {s : ValueSortedMap κ β} {op : Op κ β} {value : β}
    (h : s.map.find? op.key = some value) :
    OwnValueFirst lt s op ↔ (s.set.filter (fun w => SameRank lt value w)).head? = some value := by
  simp [OwnValueFirst, h]

variable [IsStrictWeakOrder β lt]

theorem values_perm {s : ValueSortedMap κ β} {key : κ} {value : β} (h : s.map.find? key = some value) :
    s.values.Perm (value :: (s.map.erase key).entries.map (fun e => e.2)) :=
  (Store.entries_perm_of_find? s.nodup_keys h).map _

/-- What is taken out for `key` is the first value of the rank, and nothing else changes. -/
theorem InStep.eraseValue {s : ValueSortedMap κ β} (hs : InStep lt s) {key : κ} {value : β}
    (h : s.map.find? key = some value) :
    ∃ w set, (s.set.filter (fun w => SameRank lt value w)).head? = some w ∧
      ValueSortedMap.eraseValue lt s.set value = some set ∧ Sorted lt set ∧
      (w :: set).Perm (value :: (s.map.erase key).entries.map (fun e => e.2)) := by
  have hperm : s.set.Perm _ := hs.perm.trans (values_perm h)
  have hsorted : Sorted lt s.set := hs.sorted
  have hmem : value ∈ s.set.filter (fun w => SameRank lt value w) := by
    rw [List.mem_filter]
    exact ⟨hperm.mem_iff.mpr List.mem_cons_self, by simpa using SameRank.refl lt value⟩
  cases hw : (s.set.filter (fun w => SameRank lt value w)).head? with
  | none =>
    rw [List.head?_eq_none_iff.mp hw] at hmem
    cases hmem
  | some w =>
    have hfind : OrderedMultiset.find? lt value s.set = some w := by
      rw [find?_eq_head? lt hsorted, hw]
    refine ⟨w, eraseFound lt value s.set, rfl, ?_, hsorted.eraseFound lt value, ?_⟩
    . rw [ValueSortedMap.eraseValue, hfind]
      rfl
    . exact (perm_of_find? lt hfind).symm.trans hperm

theorem InStep.eraseEntry_iff {s : ValueSortedMap κ β} (hs : InStep lt s) {key : κ} {value : β}
    (h : s.map.find? key = some value) :
    (s.eraseEntry lt key value).elim False (InStep lt) ↔
      (s.set.filter (fun w => SameRank lt value w)).head? = some value := by
  obtain ⟨w, set, hw, hset, hsorted, hperm⟩ := hs.eraseValue h
  rw [eraseEntry, hset, Option.bind_some, inStep_checkSizes_iff hsorted, hw, Option.some_inj]
  exact perm_iff_of_cons hperm

theorem InStep.insert_iff {s : ValueSortedMap κ β} (hs : InStep lt s) {key : κ} {old : β} (value : β)
    (h : s.map.find? key = some old) :
    (s.insert lt key value).elim False (InStep lt) ↔
      (s.set.filter (fun w => SameRank lt old w)).head? = some old := by
  obtain ⟨w, set, hw, hset, hsorted, hperm⟩ := hs.eraseValue h
  have hvalues := (Store.entries_modify_perm s.nodup_keys h (fun _ => value)).map (fun e => e.2)
  have hins := insert_perm lt value set
  rw [ValueSortedMap.insert]
  split
  . next old' hold =>
    rw [h] at hold
    cases hold
    rw [hset, Option.bind_some, inStep_checkSizes_iff (hsorted.insert lt value), hw, Option.some_inj,
      ← perm_iff_of_cons hperm]
    constructor
    . intro hp
      exact ((hins.symm.trans hp).trans hvalues).cons_inv
    . intro hp
      exact (hins.trans (hp.cons value)).trans hvalues.symm
  . next hnone =>
    rw [h] at hnone
    cases hnone

theorem InStep.insert_new {s : ValueSortedMap κ β} (hs : InStep lt s) {key : κ} (value : β)
    (h : s.map.find? key = none) : (s.insert lt key value).elim False (InStep lt) := by
  rw [ValueSortedMap.insert]
  split
  . next hsome =>
    rw [h] at hsome
    cases hsome
  . rw [inStep_checkSizes_iff (Sorted.insert lt hs.sorted value)]
    exact (insert_perm lt value s.set).trans (hs.perm.cons value)

/-- One operation keeps the two in step just when it takes out the value of its own key. -/
theorem InStep.exec_iff {s : ValueSortedMap κ β} (hs : InStep lt s) (op : Op κ β) :
    (s.exec lt op).elim False (InStep lt) ↔ OwnValueFirst lt s op := by
  cases h : s.map.find? op.key with
  | none =>
    have hown : OwnValueFirst lt s op := by simp [OwnValueFirst, h]
    simp only [hown, iff_true]
    cases op with
    | insert key value => exact hs.insert_new value h
    | erase key | eraseAt key =>
      simp only [Op.key] at h
      simp only [exec, erase, eraseAt, h, Option.elim]
      exact hs
  | some value =>
    rw [ownValueFirst_iff h]
    cases op with
    | insert key new => exact hs.insert_iff new h
    | erase key | eraseAt key =>
      simp only [Op.key] at h
      simp only [exec, erase, eraseAt, h]
      exact hs.eraseEntry_iff h

theorem alwaysInStep_iff {s : ValueSortedMap κ β} (hs : InStep lt s) (ops : List (Op κ β)) :
    AlwaysInStep lt ops s ↔ AlwaysOwnValueFirst lt ops s := by
  induction ops generalizing s with
  | nil => simp [AlwaysInStep, AlwaysOwnValueFirst, hs]
  | cons op ops ih =>
    have hstep := hs.exec_iff op
    simp only [AlwaysInStep, AlwaysOwnValueFirst, hs, true_and]
    cases hexec : s.exec lt op with
    | none =>
      rw [hexec] at hstep
      simp only [Option.elim, false_iff] at hstep
      simp [hstep]
    | some s' =>
      rw [hexec] at hstep
      simp only [Option.elim] at hstep
      simp only [Option.elim]
      constructor
      . intro halways
        have hs' : InStep lt s' := by
          cases ops with
          | nil => exact halways
          | cons op' ops' => exact halways.1
        exact ⟨hstep.mp hs', (ih hs').mp halways⟩
      . intro hfirst
        exact (ih (hstep.mpr hfirst.1)).mpr hfirst.2

/-- In a run from the empty map, the sorted values are always the values of the map just when every
operation on a key that is there finds the value of this key before any other one of its rank. -/
theorem in_step_iff (ops : List (Op κ β)) :
    AlwaysInStep lt ops empty ↔ AlwaysOwnValueFirst lt ops empty :=
  alwaysInStep_iff inStep_empty ops

end

/-- The order of the payloads in flight: the lower block comes first. -/
def LowerFirst (height : β → Nat) (v w : β) : Prop := height v < height w

instance (height : β → Nat) : DecidableRel (LowerFirst height) := fun v w =>
  inferInstanceAs (Decidable (height v < height w))

instance (height : β → Nat) : IsStrictWeakOrder β (LowerFirst height) where
  irrefl v := Nat.lt_irrefl (height v)
  trans _ _ _ h h' := Nat.lt_trans h h'
  incomp_trans u v w h h' := by
    simp only [LowerFirst] at *
    omega

section

variable {height : β → Nat}

theorem sameRank_lowerFirst_iff {v w : β} : SameRank (LowerFirst height) v w ↔ height v = height w := by
  simp only [SameRank, LowerFirst]
  omega

/--
The sorted values are at the heights of the values of the map, whichever of the values at a height they are.
This is what taking out another value of the rank leaves.
-/
structure Levelled (height : β → Nat) (s : ValueSortedMap κ β) : Prop where
  heights : (s.getSortedValues.map height).Perm (s.values.map height)
  sorted : Sorted (LowerFirst height) s.getSortedValues

theorem levelled_empty : Levelled height (empty : ValueSortedMap κ β) := ⟨List.Perm.refl _, List.Pairwise.nil⟩

theorem Levelled.checkSizes {s : ValueSortedMap κ β} (hs : s.Levelled height) : s.checkSizes = some s := by
  have hlen := hs.heights.length_eq
  rw [List.length_map, List.length_map, values, List.length_map] at hlen
  exact if_pos hlen.symm

/-- What the operation leaves under its key -/
def Op.stored : Op κ β → Option β
  | insert _ value => some value
  | _ => none

variable [DecidableEq κ]

/-- The search for a value of the map ends, and what is taken out is at its height. -/
theorem Levelled.eraseValue {s : ValueSortedMap κ β} (hs : s.Levelled height) {key : κ} {value : β}
    (h : s.map.find? key = some value) :
    ∃ set, ValueSortedMap.eraseValue (LowerFirst height) s.set value = some set ∧ Sorted (LowerFirst height) set ∧
      (set.map height).Perm (((s.map.erase key).entries.map (fun e => e.2)).map height) := by
  have hsorted : Sorted (LowerFirst height) s.set := hs.sorted
  have hvalues := (values_perm h).map height
  have hmem : height value ∈ s.set.map height :=
    hs.heights.mem_iff.mpr (hvalues.mem_iff.mpr List.mem_cons_self)
  obtain ⟨u, hu, hheight⟩ := List.mem_map.mp hmem
  cases hfind : OrderedMultiset.find? (LowerFirst height) value s.set with
  | none =>
    rw [find?_eq_head? _ hsorted, List.head?_eq_none_iff, List.filter_eq_nil_iff] at hfind
    have hne := hfind u hu
    rw [decide_eq_true_eq, sameRank_lowerFirst_iff] at hne
    exact absurd hheight.symm hne
  | some w =>
    have hw : height w = height value := by
      rw [find?_eq_head? _ hsorted] at hfind
      have hrank := (List.mem_filter.mp (List.mem_of_head? hfind)).2
      rw [decide_eq_true_eq, sameRank_lowerFirst_iff] at hrank
      exact hrank.symm
    refine ⟨_, by rw [ValueSortedMap.eraseValue, hfind]; rfl, hsorted.eraseFound _ value, ?_⟩
    have hset := (perm_of_find? _ hfind).map height
    rw [List.map_cons, hw] at hset
    exact ((hset.symm.trans hs.heights).trans hvalues).cons_inv

theorem Levelled.eraseEntry {s : ValueSortedMap κ β} (hs : s.Levelled height) {key : κ} {value : β}
    (h : s.map.find? key = some value) :
    ∃ s', s.eraseEntry (LowerFirst height) key value = some s' ∧ s'.Levelled height ∧ s'.map = s.map.erase key := by
  obtain ⟨set, hset, hsorted, hheights⟩ := hs.eraseValue h
  let s' : ValueSortedMap κ β := ⟨set, s.map.erase key, s.nodup_erase key⟩
  have hs' : s'.Levelled height := ⟨hheights, hsorted⟩
  exact ⟨s', by rw [ValueSortedMap.eraseEntry, hset, Option.bind_some, hs'.checkSizes], hs', rfl⟩

theorem Levelled.insert {s : ValueSortedMap κ β} (hs : s.Levelled height) (key : κ) (value : β) :
    ∃ s', s.insert (LowerFirst height) key value = some s' ∧ s'.Levelled height ∧
      ∀ key', s'.map.find? key' = if key = key' then some value else s.map.find? key' := by
  rw [ValueSortedMap.insert]
  split
  . next old h =>
    obtain ⟨set, hset, hsorted, hheights⟩ := hs.eraseValue h
    let s' : ValueSortedMap κ β :=
      ⟨OrderedMultiset.insert (LowerFirst height) value set, s.map.modify key (fun _ => value), s.nodup_modify key value⟩
    have hs' : s'.Levelled height := by
      constructor
      . have hvalues := ((Store.entries_modify_perm s.nodup_keys h (fun _ => value)).map (fun e => e.2)).map height
        exact (((insert_perm _ value set).map height).trans (hheights.cons _)).trans hvalues.symm
      . exact hsorted.insert _ value
    refine ⟨s', by rw [hset, Option.bind_some, hs'.checkSizes], hs', ?_⟩
    intro key'
    rw [Store.find?_modify]
    split
    . next heq => rw [← heq, h, Option.map_some]
    . rfl
  . next h =>
    let s' : ValueSortedMap κ β :=
      ⟨OrderedMultiset.insert (LowerFirst height) value s.set, s.map.insert key value, s.nodup_insert key value h⟩
    have hs' : s'.Levelled height :=
      ⟨((insert_perm _ value s.set).map height).trans (hs.heights.cons _), Sorted.insert _ hs.sorted value⟩
    exact ⟨s', hs'.checkSizes, hs', fun key' => Store.find?_insert _ _ _ _⟩

/-- No operation fails, whatever values it takes out, and the map is changed as the operation says. -/
theorem Levelled.exec {s : ValueSortedMap κ β} (hs : s.Levelled height) (op : Op κ β) :
    ∃ s', s.exec (LowerFirst height) op = some s' ∧ s'.Levelled height ∧
      ∀ key, s'.map.find? key = if op.key = key then op.stored else s.map.find? key := by
  cases op with
  | insert key value => exact hs.insert key value
  | erase key | eraseAt key =>
    simp only [ValueSortedMap.exec, erase, eraseAt]
    cases h : s.map.find? key with
    | none =>
      refine ⟨s, rfl, hs, ?_⟩
      intro key'
      show _ = if key = key' then none else s.map.find? key'
      split
      . next heq => rw [← heq, h]
      . rfl
    | some value =>
      obtain ⟨s', hexec, hs', hmap⟩ := hs.eraseEntry h
      refine ⟨s', hexec, hs', ?_⟩
      intro key'
      rw [hmap]
      exact Store.find?_erase _ _ _

/-- Every value is stored under its own id. -/
def Labelled (id : β → κ) (s : ValueSortedMap κ β) : Prop := ∀ key value, s.map.find? key = some value → id value = key

/-- What the operation stores, it stores under its own id. -/
def Op.Labelled (id : β → κ) (op : Op κ β) : Prop := ∀ value ∈ op.stored, id value = op.key

theorem Labelled.empty {id : β → κ} : (ValueSortedMap.empty : ValueSortedMap κ β).Labelled id := nofun

theorem Labelled.exec {id : β → κ} {s s' : ValueSortedMap κ β} (hs : s.Labelled id) {op : Op κ β} (hop : op.Labelled id)
    (h : ∀ key, s'.map.find? key = if op.key = key then op.stored else s.map.find? key) : s'.Labelled id := by
  intro key value hfind
  rw [h key] at hfind
  split at hfind
  . next heq =>
    rw [← heq]
    exact hop value hfind
  . exact hs key value hfind

end

/-- Two VBK blocks of one height, as they are in flight. -/
def blockInFlight (nonce : Nat) : PowBlock where
  previousBlock := 0
  height := 5
  timestamp := 0
  difficulty := 0
  nonce := nonce

/-- The first block is erased under its own key. -/
theorem in_step_blocksInFlight : AlwaysInStep (LowerFirst PowBlock.height)
    [.insert 1 (blockInFlight 1), .insert 2 (blockInFlight 2), .erase 1] (empty : ValueSortedMap Nat PowBlock) :=
  (in_step_iff _).mpr (by decide)

/-- Erasing the second block takes the first one out of the sorted values. -/
theorem blocksInFlight_out_of_step : ¬AlwaysInStep (LowerFirst PowBlock.height)
    [.insert 1 (blockInFlight 1), .insert 2 (blockInFlight 2), .erase 2] (empty : ValueSortedMap Nat PowBlock) := by
  rw [alwaysInStep_iff inStep_empty]
  decide

end ValueSortedMap

end AltIntegration
