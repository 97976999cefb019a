import AltIntegration.Data.Store

/-!
This module contains what it takes to keep a store of values by their ids in step with the lists that hold the
values. A list is found under a key, and the id of a value says under which key it is held; several values of
one id may be held.
-/

variable {κ ι α : Type} [DecidableEq ι]

/--
The ids in the store are the ids of the values held, each of them under the key that its id says. Under an id the
store has a value of this id.
-/
structure Catalogued (held : κ → List α) (id : α → ι) (home : ι → κ) (stored : Store ι α) : Prop where
  home_eq : ∀ {k a}, a ∈ held k → home (id a) = k
  stored_iff : ∀ i, (stored.find? i).isSome = true ↔ ∃ a ∈ held (home i), id a = i
  id_eq : ∀ {i a}, stored.find? i = some a → id a = i

namespace Catalogued

variable {held held' : κ → List α} {id : α → ι} {home : ι → κ} {stored : Store ι α}

theorem empty (h : ∀ k, held k = []) : Catalogued held id home (Store.empty : Store ι α) where
  home_eq {k a} ha := by
    rw [h k] at ha
    cases ha
  stored_iff i := by
    rw [h (home i)]
    constructor
    . nofun
    . rintro ⟨a, ha, _⟩
      cases ha
  id_eq := nofun

theorem congr (h : Catalogued held id home stored) (hheld : ∀ k, held' k = held k) : Catalogued held' id home stored := by
  rwa [funext hheld]

theorem exists_iff (h : Catalogued held id home stored) (i : ι) :
    (stored.find? i).isSome = true ↔ ∃ k, ∃ a ∈ held k, id a = i := by
  rw [h.stored_iff]
  constructor
  . intro ha
    exact ⟨home i, ha⟩
  . rintro ⟨k, a, ha, rfl⟩
    rw [h.home_eq ha]
    exact ⟨a, ha, rfl⟩

theorem insert (h : Catalogued held id home stored) (a : α)
    (hheld : ∀ k c, c ∈ held' k ↔ (k = home (id a) ∧ c = a) ∨ c ∈ held k) :
    Catalogued held' id home (stored.assign (id a) a) where
  home_eq {k c} hc := by
    cases (hheld k c).mp hc with
    | inl heq => rw [heq.1, heq.2]
    | inr hmem => exact h.home_eq hmem
  stored_iff i := by
    rw [Store.assign, Store.find?_insert, Store.find?_erase]
    by_cases heq : id a = i
    . subst heq
      simp only [↓reduceIte, Option.isSome_some, true_iff]
      exact ⟨a, (hheld _ _).mpr (Or.inl ⟨rfl, rfl⟩), rfl⟩
    . rw [if_neg heq, if_neg heq, h.stored_iff]
      constructor
      . rintro ⟨c, hc, hid⟩
        exact ⟨c, (hheld _ _).mpr (Or.inr hc), hid⟩
      . rintro ⟨c, hc, hid⟩
        cases (hheld _ _).mp hc with
        | inl heq' =>
          rw [heq'.2] at hid
          exact absurd hid heq
        | inr hmem => exact ⟨c, hmem, hid⟩
  id_eq {i c} hfind := by
    rw [Store.assign, Store.find?_insert, Store.find?_erase] at hfind
    split at hfind
    . next heq =>
      cases hfind
      exact heq
    . exact h.id_eq hfind

/-- Taking values out of one list leaves the store in step, if values of one id go together. -/
theorem erase [DecidableEq κ] (h : Catalogued held id home stored) {k : κ} {stale : α → Bool}
    (hstale : ∀ a ∈ held k, ∀ b ∈ held k, id a = id b → stale a = stale b)
    (hheld : ∀ k', held' k' = if k = k' then (held k).filter (fun a => !stale a) else held k') :
    Catalogued held' id home (((held k).filter stale).foldl (fun stored a => stored.erase (id a)) stored) where
  home_eq {k' a} ha := by
    rw [hheld k'] at ha
    split at ha
    . next heq =>
      rw [← heq]
      exact h.home_eq (List.mem_of_mem_filter ha)
    . exact h.home_eq ha
  stored_iff i := by
    rw [Store.find?_foldl_erase]
    by_cases hgone : i ∈ ((held k).filter stale).map id
    . rw [if_pos hgone]
      obtain ⟨b, hb, rfl⟩ := List.mem_map.mp hgone
      have ⟨hb, hbstale⟩ := List.mem_filter.mp hb
      rw [h.home_eq hb, hheld k, if_pos rfl]
      constructor
      . nofun
      . rintro ⟨a, ha, hid⟩
        have ⟨ha, hastale⟩ := List.mem_filter.mp ha
        rw [hstale a ha b hb hid, hbstale] at hastale
        cases hastale
    . rw [if_neg hgone, h.stored_iff, hheld (home i)]
      split
      . next heq =>
        rw [← heq]
        constructor
        . rintro ⟨a, ha, hid⟩
          refine ⟨a, List.mem_filter.mpr ⟨ha, ?_⟩, hid⟩
          cases hs : stale a with
          | false => rfl
          | true => exact absurd (List.mem_map.mpr ⟨a, List.mem_filter.mpr ⟨ha, hs⟩, hid⟩) hgone
        . rintro ⟨a, ha, hid⟩
          exact ⟨a, List.mem_of_mem_filter ha, hid⟩
      . rfl
  id_eq {i a} hfind := by
    rw [Store.find?_foldl_erase] at hfind
    split at hfind
    . cases hfind
    . exact h.id_eq hfind

end Catalogued
