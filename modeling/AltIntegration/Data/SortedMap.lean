import Mathlib.Data.List.Lex
import Mathlib.Data.List.Nodup
import Mathlib.Algebra.BigOperators.Group.List.Basic
import Mathlib.Algebra.GroupWithZero.Nat
import Mathlib.Order.Lattice

/-!
This module contains finite maps that are kept sorted by their keys, so that maps with the same values are equal.
-/

/-- A finite map from keys to values, sorted by key -/
structure SortedMap (κ β : Type) [LinearOrder κ] where
  entries : List (κ × β)
  sorted : entries.Pairwise (fun a b => a.1 < b.1)
  deriving DecidableEq

namespace SortedMap

variable {κ β : Type} [LinearOrder κ]

section Entries

def findEntry (k : κ) : List (κ × β) → Option β
  | [] => none
  | e :: l => if e.1 = k then some e.2 else findEntry k l

/-- The value under `k` becomes `f` of what was there. -/
def upsertEntry (k : κ) (f : Option β → β) : List (κ × β) → List (κ × β)
  | [] => [(k, f none)]
  | e :: l =>
    if k < e.1 then
      (k, f none) :: e :: l
    else if e.1 = k then
      (k, f (some e.2)) :: l
    else
      e :: upsertEntry k f l

variable {k k' : κ} {f : Option β → β} {l : List (κ × β)}

theorem findEntry_eq_none (h : ∀ e ∈ l, k < e.1) : findEntry k l = none := by
  induction l with
  | nil => rfl
  | cons e l ih =>
    rw [findEntry, if_neg (ne_of_gt (h e List.mem_cons_self))]
    exact ih (fun e' he' => h e' (List.mem_cons_of_mem e he'))

theorem findEntry_eq_some_iff {b : β} (h : l.Pairwise (fun a b => a.1 < b.1)) : findEntry k l = some b ↔ (k, b) ∈ l := by
  induction l with
  | nil => simp [findEntry]
  | cons e l ih =>
    rw [List.pairwise_cons] at h
    rw [findEntry, List.mem_cons]
    split
    . next heq =>
      have habsent : (k, b) ∉ l := by
        intro hmem
        exact absurd (h.1 _ hmem) (by simp [heq])
      rw [Option.some_inj, ← heq]
      constructor
      . intro hb
        exact Or.inl (by rw [← hb])
      . intro hor
        cases hor with
        | inl hpair => rw [← hpair]
        | inr hmem => exact absurd (heq ▸ hmem) habsent
    . next hne =>
      rw [ih h.2]
      constructor
      . exact Or.inr
      . intro hor
        cases hor with
        | inl hpair => exact absurd (by rw [← hpair]) hne
        | inr hmem => exact hmem

theorem mem_upsertEntry {a : κ × β} (h : a ∈ upsertEntry k f l) : a.1 = k ∨ a ∈ l := by
  induction l with
  | nil =>
    rw [upsertEntry, List.mem_singleton] at h
    exact Or.inl (by rw [h])
  | cons e l ih =>
    rw [upsertEntry] at h
    split at h
    . cases h with
      | head => exact Or.inl rfl
      | tail _ h => exact Or.inr h
    . split at h
      . cases h with
        | head => exact Or.inl rfl
        | tail _ h => exact Or.inr (List.mem_cons_of_mem e h)
      . cases h with
        | head => exact Or.inr List.mem_cons_self
        | tail _ h => exact (ih h).imp id (List.mem_cons_of_mem e)

theorem pairwise_upsertEntry (h : l.Pairwise (fun a b => a.1 < b.1)) :
    (upsertEntry k f l).Pairwise (fun a b => a.1 < b.1) := by
  induction l with
  | nil => exact List.pairwise_singleton _ _
  | cons e l ih =>
    rw [upsertEntry]
    split
    . next hlt =>
      rw [List.pairwise_cons]
      refine ⟨?_, h⟩
      intro a ha
      cases ha with
      | head => exact hlt
      | tail _ ha => exact lt_trans hlt ((List.pairwise_cons.mp h).1 a ha)
    . next hlt =>
      split
      . next heq =>
        rw [List.pairwise_cons] at h
        rw [List.pairwise_cons, ← heq]
        exact h
      . next hne =>
        rw [List.pairwise_cons] at h
        rw [List.pairwise_cons]
        refine ⟨?_, ih h.2⟩
        intro a ha
        cases mem_upsertEntry ha with
        | inl hk =>
          rw [hk]
          exact lt_of_le_of_ne (not_lt.mp hlt) hne
        | inr ha => exact h.1 a ha

theorem findEntry_upsertEntry (h : l.Pairwise (fun a b => a.1 < b.1)) :
    findEntry k' (upsertEntry k f l) = if k = k' then some (f (findEntry k l)) else findEntry k' l := by
  induction l with
  | nil => rw [upsertEntry, findEntry]; rfl
  | cons e l ih =>
    have hpw := List.pairwise_cons.mp h
    rw [upsertEntry]
    split
    . next hlt =>
      have habsent : findEntry k (e :: l) = none := by
        apply findEntry_eq_none
        intro a ha
        cases ha with
        | head => exact hlt
        | tail _ ha => exact lt_trans hlt (hpw.1 a ha)
      rw [findEntry, habsent]
    . split
      . next heq =>
        rw [findEntry]
        simp only [findEntry, heq, if_true]
        split
        . rfl
        . rfl
      . next hne =>
        rw [findEntry, ih hpw.2, findEntry, findEntry, if_neg hne]
        split
        . next hek =>
          rw [if_neg (fun hk => hne (hek.trans hk.symm))]
        . rfl

/-- The sum of what `g` makes of the values -/
def sumEntries (g : β → Nat) (l : List (κ × β)) : Nat := (l.map (fun e => g e.2)).sum

theorem sumEntries_upsertEntry (g : β → Nat) (h : l.Pairwise (fun a b => a.1 < b.1)) :
    sumEntries g (upsertEntry k f l) + (findEntry k l).elim 0 g = sumEntries g l + g (f (findEntry k l)) := by
  induction l with
  | nil => simp [sumEntries, upsertEntry, findEntry]
  | cons e l ih =>
    have hpw := List.pairwise_cons.mp h
    rw [upsertEntry]
    split
    . next hlt =>
      have habsent : findEntry k (e :: l) = none := by
        apply findEntry_eq_none
        intro a ha
        cases ha with
        | head => exact hlt
        | tail _ ha => exact lt_trans hlt (hpw.1 a ha)
      rw [habsent, Option.elim_none, Nat.add_zero, Nat.add_comm]
      rfl
    . split
      . next heq =>
        unfold sumEntries
        rw [findEntry, if_pos heq, Option.elim_some, List.map_cons, List.sum_cons, List.map_cons, List.sum_cons]
        simp only
        omega
      . next hne =>
        have hsum := ih hpw.2
        unfold sumEntries at hsum ⊢
        rw [findEntry, if_neg hne, List.map_cons, List.sum_cons, List.map_cons, List.sum_cons]
        omega

end Entries

def empty : SortedMap κ β := ⟨[], List.Pairwise.nil⟩

def find? (m : SortedMap κ β) (k : κ) : Option β := findEntry k m.entries

def upsert (m : SortedMap κ β) (k : κ) (f : Option β → β) : SortedMap κ β where
  entries := upsertEntry k f m.entries
  sorted := pairwise_upsertEntry m.sorted

def sum (m : SortedMap κ β) (g : β → Nat) : Nat := sumEntries g m.entries

@[simp]
theorem find?_empty (k : κ) : (empty : SortedMap κ β).find? k = none := rfl

@[simp]
theorem sum_empty (g : β → Nat) : (empty : SortedMap κ β).sum g = 0 := rfl

theorem find?_upsert (m : SortedMap κ β) (k k' : κ) (f : Option β → β) :
    (m.upsert k f).find? k' = if k = k' then some (f (m.find? k)) else m.find? k' :=
  findEntry_upsertEntry m.sorted

theorem sum_upsert (m : SortedMap κ β) (k : κ) (f : Option β → β) (g : β → Nat) :
    (m.upsert k f).sum g + (m.find? k).elim 0 g = m.sum g + g (f (m.find? k)) :=
  sumEntries_upsertEntry g m.sorted

theorem ext_find? {m m' : SortedMap κ β} (h : ∀ k, m.find? k = m'.find? k) : m = m' := by
  have hnodup : ∀ m : SortedMap κ β, m.entries.Nodup :=
    fun m => m.sorted.imp (fun hlt heq => absurd hlt (by rw [heq]; exact lt_irrefl _))
  have hperm : m.entries.Perm m'.entries := by
    rw [List.perm_ext_iff_of_nodup (hnodup m) (hnodup m')]
    intro e
    have he := h e.1
    unfold find? at he
    rw [← findEntry_eq_some_iff (k := e.1) (b := e.2) m.sorted, he, findEntry_eq_some_iff m'.sorted]
  have hentries : m.entries = m'.entries :=
    hperm.eq_of_pairwise (fun _ _ _ _ hab hba => absurd hab (not_lt.mpr (le_of_lt hba))) m.sorted m'.sorted
  cases m
  cases m'
  cases hentries
  rfl

/-- Updates commute when they do under each key. -/
theorem upsert_comm (m : SortedMap κ β) {k k' : κ} {f f' : Option β → β}
    (h : k = k' → ∀ b, f (some (f' b)) = f' (some (f b))) :
    (m.upsert k f).upsert k' f' = (m.upsert k' f').upsert k f := by
  apply ext_find?
  intro key
  rw [find?_upsert, find?_upsert, find?_upsert, find?_upsert, find?_upsert, find?_upsert]
  by_cases heq : k = k'
  . rw [if_pos heq, if_pos heq.symm, heq]
    split
    . rw [h heq]
    . rfl
  . rw [if_neg heq, if_neg (Ne.symm heq)]
    by_cases hk : k = key
    . rw [if_neg (fun hk' => heq (hk.trans hk'.symm)), if_pos hk, if_pos hk]
    . rw [if_neg hk, if_neg hk]

end SortedMap
