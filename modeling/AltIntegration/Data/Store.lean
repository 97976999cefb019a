import Mathlib.Data.List.Basic

/-!
This module contains a finite map kept as an association list. An entry is only ever replaced in
place, so the order of creation survives every update.
-/

/-- A finite map from keys to values; the first entry of a key is the one that counts. -/
structure Store (κ β : Type) where
  entries : List (κ × β)
  deriving DecidableEq

namespace Store

variable {κ β : Type}

def empty : Store κ β := ⟨[]⟩

/-- Put `b` under `k`, in front of every older entry. -/
def insert (m : Store κ β) (k : κ) (b : β) : Store κ β :=
  ⟨(k, b) :: m.entries⟩

/-- The keys whose value satisfies `p`, newest first. -/
def keysWhere (m : Store κ β) (p : β → Bool) : List κ :=
  m.entries.filterMap (fun e => if p e.2 then some e.1 else none)

def map {γ : Type} (m : Store κ β) (f : β → γ) : Store κ γ := ⟨m.entries.map (fun e => (e.1, f e.2))⟩

/-- All keys, newest first. -/
def keys (m : Store κ β) : List κ := m.entries.map (fun e => e.1)

@[simp]
theorem keys_insert (m : Store κ β) (k : κ) (b : β) : (m.insert k b).keys = k :: m.keys := rfl

/-- Keep the entries that satisfy `p`. -/
def filter (m : Store κ β) (p : κ → β → Bool) : Store κ β := ⟨m.entries.filter (fun e => p e.1 e.2)⟩

theorem keys_map {γ : Type} (m : Store κ β) (f : β → γ) : (m.map f).keys = m.keys := by
  simp only [keys, map, List.map_map]
  rfl

section

variable [DecidableEq κ]

/-- The value stored under `k`. -/
def find? (m : Store κ β) (k : κ) : Option β := go k m.entries
where
  go (k : κ) : List (κ × β) → Option β
    | [] => none
    | (k', b) :: m => if k' = k then some b else go k m

/-- Apply `f` to the value under `k`; a map without `k` stays as it is. -/
def modify (m : Store κ β) (k : κ) (f : β → β) : Store κ β :=
  ⟨m.entries.map (fun e => if e.1 = k then (e.1, f e.2) else e)⟩

def erase (m : Store κ β) (k : κ) : Store κ β := ⟨m.entries.filter (fun e => e.1 ≠ k)⟩

/-- Put `b` under `k`, in the place of what is there. -/
def assign (m : Store κ β) (k : κ) (b : β) : Store κ β := (m.erase k).insert k b

/-- Put `b` under `k` unless there is something already. -/
def emplace (m : Store κ β) (k : κ) (b : β) : Store κ β :=
  if (m.find? k).isSome then m else m.insert k b

@[simp]
theorem find?_empty (k : κ) : (empty : Store κ β).find? k = none := rfl

@[simp]
theorem find?_insert (m : Store κ β) (k k' : κ) (b : β) :
    (m.insert k b).find? k' = if k = k' then some b else m.find? k' := rfl

theorem find?_modify (m : Store κ β) (k k' : κ) (f : β → β) :
    (m.modify k f).find? k' = if k = k' then (m.find? k').map f else m.find? k' := by
  simp only [find?, modify]
  induction m.entries with
  | nil => simp [find?.go]
  | cons e l ih =>
    obtain ⟨ke, b⟩ := e
    simp only [List.map_cons]
    by_cases hk : ke = k
    . subst hk
      simp only [↓reduceIte, find?.go]
      split
      . simp
      . next hne =>
        rw [ih]
        simp [hne]
    . simp only [hk, ↓reduceIte, find?.go]
      split
      . next heq =>
        have hne : k ≠ k' := by
          intro h
          exact hk (heq.trans h.symm)
        simp [hne]
      . rw [ih]

theorem find?_map {γ : Type} (m : Store κ β) (f : β → γ) (k : κ) : (m.map f).find? k = (m.find? k).map f := by
  simp only [find?, map]
  induction m.entries with
  | nil => rfl
  | cons e l ih =>
    obtain ⟨ke, b⟩ := e
    simp only [List.map_cons, find?.go]
    split
    . rfl
    . exact ih

theorem find?_erase (m : Store κ β) (k k' : κ) :
    (m.erase k).find? k' = if k = k' then none else m.find? k' := by
  simp only [find?, erase]
  induction m.entries with
  | nil => simp [find?.go]
  | cons e l ih =>
    obtain ⟨ke, b⟩ := e
    by_cases hk : ke = k
    . rw [List.filter_cons_of_neg (by simp [hk]), ih]
      subst hk
      split
      . rfl
      . next hne => simp [find?.go, hne]
    . rw [List.filter_cons_of_pos (by simp [hk])]
      simp only [find?.go]
      split
      . next heq =>
        have hne : k ≠ k' := by
          intro h
          exact hk (heq.trans h.symm)
        simp [hne]
      . rw [ih]

theorem keys_erase (m : Store κ β) (k : κ) : (m.erase k).keys = m.keys.filter (· ≠ k) := by
  simp only [keys, erase, List.filter_map]
  rfl

@[simp]
theorem find?_modify_self (m : Store κ β) (k : κ) (f : β → β) :
    (m.modify k f).find? k = (m.find? k).map f := by
  simp [find?_modify]

theorem find?_modify_of_ne (m : Store κ β) {k k' : κ} (f : β → β) (h : k ≠ k') :
    (m.modify k f).find? k' = m.find? k' := by
  simp [find?_modify, h]

@[simp]
theorem keys_modify (m : Store κ β) (k : κ) (f : β → β) : (m.modify k f).keys = m.keys := by
  simp only [keys, modify, List.map_map]
  apply List.map_congr_left
  intro e _
  simp only [Function.comp_apply]
  split
  . rfl
  . rfl

theorem find?_eq_none_iff (m : Store κ β) (k : κ) : m.find? k = none ↔ k ∉ m.keys := by
  simp only [find?, keys]
  induction m.entries with
  | nil => simp [find?.go]
  | cons e l ih =>
    obtain ⟨ke, b⟩ := e
    simp only [find?.go, List.map_cons, List.mem_cons]
    split
    . next h => simp [h]
    . next h =>
      rw [ih]
      have : ¬k = ke := fun hk => h hk.symm
      simp [this]

theorem mem_keys_of_find? {m : Store κ β} {k : κ} {b : β} (h : m.find? k = some b) : k ∈ m.keys := by
  have := m.find?_eq_none_iff k
  rw [h] at this
  simpa using this

theorem find?_of_mem {m : Store κ β} (hm : m.keys.Nodup) {k : κ} {b : β} (h : (k, b) ∈ m.entries) :
    m.find? k = some b := by
  simp only [find?, keys] at *
  generalize m.entries = l at *
  induction l with
  | nil => cases h
  | cons e l ih =>
    obtain ⟨ke, be⟩ := e
    simp only [List.map_cons, List.nodup_cons] at hm
    cases List.mem_cons.mp h with
    | inl heq =>
      cases heq
      simp [find?.go]
    | inr hmem =>
      have hne : ke ≠ k := by
        intro heq
        apply hm.1
        rw [heq]
        exact List.mem_map.mpr ⟨(k, b), hmem, rfl⟩
      simp only [find?.go, hne, ↓reduceIte]
      exact ih hm.2 hmem

theorem mem_of_find? {m : Store κ β} {k : κ} {b : β} (h : m.find? k = some b) :
    (k, b) ∈ m.entries := by
  simp only [find?] at h
  generalize m.entries = l at *
  induction l with
  | nil => cases h
  | cons e l ih =>
    obtain ⟨ke, be⟩ := e
    simp only [find?.go] at h
    split at h
    . next heq =>
      cases heq
      cases h
      exact List.mem_cons_self
    . exact List.mem_cons_of_mem _ (ih h)

theorem mem_keysWhere {m : Store κ β} (hm : m.keys.Nodup) {p : β → Bool} {k : κ} :
    k ∈ m.keysWhere p ↔ ∃ b, m.find? k = some b ∧ p b = true := by
  simp only [keysWhere, List.mem_filterMap]
  constructor
  . rintro ⟨⟨k', b⟩, hmem, heq⟩
    split at heq
    . next hp =>
      cases heq
      exact ⟨b, find?_of_mem hm hmem, hp⟩
    . cases heq
  . rintro ⟨b, hfind, hp⟩
    exact ⟨(k, b), mem_of_find? hfind, by simp [hp]⟩

omit [DecidableEq κ] in
theorem nodup_keysWhere {m : Store κ β} (hm : m.keys.Nodup) (p : β → Bool) : (m.keysWhere p).Nodup := by
  refine List.Nodup.sublist ?_ hm
  simp only [keysWhere, keys]
  induction m.entries with
  | nil => exact List.Sublist.refl []
  | cons e l ih =>
    rw [List.filterMap_cons, List.map_cons]
    cases p e.2 with
    | true => exact ih.cons_cons e.1
    | false => exact ih.cons e.1

/-- What `insert` of some of the entries writes. -/
theorem find?_foldl_insert {γ : Type} {m : Store κ β} (hm : m.keys.Nodup) (p : β → Bool) (f : β → γ) (m' : Store κ γ)
    (k : κ) : ((m.entries.filter (fun e => p e.2)).foldl (fun m e => m.insert e.1 (f e.2)) m').find? k =
      (((m.find? k).filter p).map f).or (m'.find? k) := by
  simp only [keys, find?] at *
  generalize m.entries = l at *
  induction l generalizing m' with
  | nil => rfl
  | cons e l ih =>
    obtain ⟨ke, b⟩ := e
    rw [List.map_cons, List.nodup_cons] at hm
    have hnone : ke = k → find?.go k l = none := by
      intro heq
      subst heq
      exact (find?_eq_none_iff ⟨l⟩ ke).mpr hm.1
    cases hp : p b with
    | false =>
      rw [List.filter_cons_of_neg (by simp [hp]), ih _ hm.2]
      simp only [find?.go]
      split
      . next heq => simp [hnone heq, Option.filter, hp]
      . rfl
    | true =>
      rw [List.filter_cons_of_pos (by simp [hp]), List.foldl_cons, ih _ hm.2]
      simp only [find?.go, insert]
      split
      . next heq => simp [hnone heq, Option.filter, hp]
      . rfl

theorem erase_eq_self {m : Store κ β} {k : κ} (h : k ∉ m.keys) : m.erase k = m := by
  have : m.entries.filter (fun e => e.1 ≠ k) = m.entries := by
    rw [List.filter_eq_self]
    intro e he
    simp only [decide_eq_true_eq]
    intro heq
    exact h (List.mem_map.mpr ⟨e, he, heq⟩)
  rw [erase, this]

theorem mem_keys_iff (m : Store κ β) (k : κ) : k ∈ m.keys ↔ (m.find? k).isSome = true := by
  rw [← Option.isNone_eq_false_iff, Bool.eq_false_iff, ne_eq, Option.isNone_iff_eq_none, find?_eq_none_iff, not_not]

theorem nodup_keys_erase {m : Store κ β} (hm : m.keys.Nodup) (k : κ) : (m.erase k).keys.Nodup := by
  rw [keys_erase]
  exact hm.filter _

theorem mem_keys_erase (m : Store κ β) (k k' : κ) : k' ∈ (m.erase k).keys ↔ k' ∈ m.keys ∧ k' ≠ k := by
  rw [keys_erase, List.mem_filter, decide_eq_true_eq]

theorem find?_emplace (m : Store κ β) (k k' : κ) (b : β) :
    (m.emplace k b).find? k' = if k = k' then some ((m.find? k).getD b) else m.find? k' := by
  rw [emplace]
  cases hk : m.find? k with
  | none => rw [Option.isSome_none, if_neg Bool.false_ne_true, find?_insert, Option.getD_none]
  | some b' =>
    rw [Option.isSome_some, if_pos rfl, Option.getD_some]
    split
    . next heq => rw [← heq, hk]
    . rfl

/-- What holds of the entries and of the one that is put in holds afterwards. -/
theorem of_find?_emplace {m : Store κ β} {P : κ → β → Prop} (hm : ∀ k b, m.find? k = some b → P k b) {k : κ} {b : β}
    (hb : P k b) {k' : κ} {b' : β} (h : (m.emplace k b).find? k' = some b') : P k' b' := by
  rw [find?_emplace] at h
  split at h
  . next heq =>
    subst heq
    cases hold : m.find? k with
    | none =>
      rw [hold] at h
      cases h
      exact hb
    | some c =>
      rw [hold] at h
      cases h
      exact hm k c hold
  . exact hm k' b' h

theorem mem_keys_emplace (m : Store κ β) (k k' : κ) (b : β) : k' ∈ (m.emplace k b).keys ↔ k' = k ∨ k' ∈ m.keys := by
  rw [mem_keys_iff, mem_keys_iff, find?_emplace]
  split
  . next heq => simp [heq]
  . next hne => simp [Ne.symm hne]

theorem nodup_keys_emplace {m : Store κ β} (hm : m.keys.Nodup) (k : κ) (b : β) : (m.emplace k b).keys.Nodup := by
  rw [emplace]
  split
  . exact hm
  . next hnone =>
    rw [keys_insert]
    exact List.nodup_cons.mpr ⟨fun hmem => hnone ((m.mem_keys_iff k).mp hmem), hm⟩

theorem find?_foldl_erase {γ : Type} (f : γ → κ) (l : List γ) (m : Store κ β) (k : κ) :
    (l.foldl (fun m a => m.erase (f a)) m).find? k = if k ∈ l.map f then none else m.find? k := by
  induction l generalizing m with
  | nil => rfl
  | cons a l ih =>
    rw [List.foldl_cons, ih, find?_erase, List.map_cons]
    by_cases hmem : k ∈ l.map f
    . rw [if_pos hmem, if_pos (List.mem_cons_of_mem _ hmem)]
    . rw [if_neg hmem]
      by_cases heq : f a = k
      . rw [if_pos heq, if_pos (List.mem_cons.mpr (Or.inl heq.symm))]
      . rw [if_neg heq, if_neg (fun h => (List.mem_cons.mp h).elim (fun h => heq h.symm) hmem)]

theorem keysWhere_erase {m : Store κ β} {k : κ} {p : β → Bool} (h : k ∉ m.keysWhere p) :
    (m.erase k).keysWhere p = m.keysWhere p := by
  obtain ⟨l⟩ := m
  simp only [keysWhere, erase] at h ⊢
  induction l with
  | nil => rfl
  | cons e l ih =>
    rw [List.filterMap_cons] at h ⊢
    cases hp : p e.2 with
    | false =>
      simp only [hp, Bool.false_eq_true, ↓reduceIte] at h ⊢
      by_cases he : e.1 = k
      . rw [List.filter_cons_of_neg (by simp [he]), ih h]
      . rw [List.filter_cons_of_pos (by simp [he]), List.filterMap_cons]
        simp only [hp, Bool.false_eq_true, ↓reduceIte]
        exact ih h
    | true =>
      simp only [hp, ↓reduceIte, List.mem_cons, not_or] at h ⊢
      rw [List.filter_cons_of_pos (by simp [Ne.symm h.1]), List.filterMap_cons]
      simp only [hp, ↓reduceIte]
      rw [ih h.2]

/-- The keys are found by what the change leaves alone. -/
theorem keysWhere_modify (m : Store κ β) (k : κ) {f : β → β} {p : β → Bool} (h : ∀ b, p (f b) = p b) :
    (m.modify k f).keysWhere p = m.keysWhere p := by
  obtain ⟨l⟩ := m
  simp only [keysWhere, modify]
  induction l with
  | nil => rfl
  | cons e l ih =>
    rw [List.map_cons, List.filterMap_cons, List.filterMap_cons, ih]
    by_cases he : e.1 = k
    . simp only [he, ↓reduceIte, h]
    . simp only [he, ↓reduceIte]

theorem entries_perm_of_find? {m : Store κ β} (hm : m.keys.Nodup) {k : κ} {b : β} (h : m.find? k = some b) :
    m.entries.Perm ((k, b) :: (m.erase k).entries) := by
  obtain ⟨l⟩ := m
  induction l with
  | nil => cases h
  | cons e l ih =>
    obtain ⟨ke, be⟩ := e
    have ⟨hke, hl⟩ := List.nodup_cons.mp hm
    simp only [find?, find?.go] at h
    split at h
    . next heq =>
      cases h
      have herase := erase_eq_self (m := ⟨l⟩) hke
      simp only [erase, Store.mk.injEq] at herase
      simp only [erase, ← heq]
      rw [List.filter_cons_of_neg (by simp), herase]
    . next hne =>
      simp only [erase]
      rw [List.filter_cons_of_pos (by simp [hne])]
      exact ((ih hl h).cons _).trans (List.Perm.swap _ _ _)

theorem erase_modify (m : Store κ β) (k : κ) (f : β → β) : (m.modify k f).erase k = m.erase k := by
  obtain ⟨l⟩ := m
  simp only [erase, modify, Store.mk.injEq]
  induction l with
  | nil => rfl
  | cons e l ih =>
    rw [List.map_cons]
    by_cases he : e.1 = k
    . rw [List.filter_cons_of_neg (by simp [he]), List.filter_cons_of_neg (by simp [he]), ih]
    . rw [List.filter_cons_of_pos (by simp [he]), List.filter_cons_of_pos (by simp [he]), ih]
      simp [he]

theorem entries_modify_perm {m : Store κ β} (hm : m.keys.Nodup) {k : κ} {b : β} (h : m.find? k = some b)
    (f : β → β) : (m.modify k f).entries.Perm ((k, f b) :: (m.erase k).entries) := by
  rw [← erase_modify m k f]
  apply entries_perm_of_find?
  . rwa [keys_modify]
  . simp [h]

end

end Store
