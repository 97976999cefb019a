import AltIntegration.Data.OrderedMultiset

/-!
This module contains an ordered set with a comparator, as the list of its values from the first to the last.
Two values are the same to the set when neither comes before the other. The operations are those of a sorted
list; on a list that the comparator does not sort, a search can miss a value that is there.
-/

namespace OrderedSet

open OrderedMultiset

variable {β : Type} (lt : β → β → Prop)

/-- Every value comes before the values after it. -/
def Increasing (l : List β) : Prop := l.Pairwise lt

instance [DecidableRel lt] (l : List β) : Decidable (Increasing lt l) := inferInstanceAs (Decidable (l.Pairwise lt))

variable {lt}

theorem Increasing.congr {lt' : β → β → Prop} {l : List β} (h : Increasing lt l)
    (hlt : ∀ v ∈ l, ∀ w ∈ l, lt v w → lt' v w) : Increasing lt' l :=
  h.imp_of_mem (fun hv hw hvw => hlt _ hv _ hw hvw)

theorem Increasing.filter {l : List β} (h : Increasing lt l) (p : β → Bool) : Increasing lt (l.filter p) :=
  List.Pairwise.filter p h

variable [DecidableRel lt]

variable (lt) in
/-- A value that is the same as one in the set is not put in. -/
def insert (v : β) (l : List β) : List β :=
  if (find? lt v l).isSome then l else OrderedMultiset.insert lt v l

variable [IsStrictOrder β lt]

omit [DecidableRel lt] in
theorem Increasing.nodup {l : List β} (h : Increasing lt l) : l.Nodup := by
  apply List.Pairwise.imp _ h
  intro v w hvw heq
  rw [heq] at hvw
  exact irrefl w hvw

omit [DecidableRel lt] in
/-- A set is sorted under another comparator exactly if this one keeps the order of its values. -/
theorem Increasing.congr_iff {lt' : β → β → Prop} {l : List β} (h : Increasing lt l) :
    Increasing lt' l ↔ ∀ v ∈ l, ∀ w ∈ l, lt v w → lt' v w := by
  constructor
  . intro h'
    induction l with
    | nil => exact nofun
    | cons u l ih =>
      obtain ⟨hu, hl⟩ := List.pairwise_cons.mp h
      obtain ⟨hu', hl'⟩ := List.pairwise_cons.mp h'
      intro v hv w hw hvw
      cases List.mem_cons.mp hv with
      | inl hvu =>
        cases List.mem_cons.mp hw with
        | inl hwu =>
          rw [hvu, hwu] at hvw
          exact absurd hvw (irrefl u)
        | inr hw =>
          rw [hvu]
          exact hu' w hw
      | inr hv =>
        cases List.mem_cons.mp hw with
        | inl hwu =>
          rw [hwu] at hvw
          exact absurd (trans_of lt hvw (hu v hv)) (irrefl v)
        | inr hw => exact ih hl hl' v hv w hw hvw
  . exact h.congr

theorem Increasing.find?_of_mem {l : List β} (h : Increasing lt l) {v : β} (hv : v ∈ l) : find? lt v l = some v := by
  induction l with
  | nil => cases hv
  | cons w l ih =>
    obtain ⟨hw, hl⟩ := List.pairwise_cons.mp h
    cases List.mem_cons.mp hv with
    | inl heq => simp only [find?, heq, irrefl w, ↓reduceIte]
    | inr hmem =>
      rw [find?, if_pos (hw v hmem)]
      exact ih hl hmem

theorem Increasing.eraseFound_of_mem {l : List β} (h : Increasing lt l) {v : β} (hv : v ∈ l) :
    l.Perm (v :: eraseFound lt v l) :=
  perm_of_find? lt (h.find?_of_mem hv)

theorem insert_of_mem {l : List β} (h : Increasing lt l) {v : β} (hv : v ∈ l) : insert lt v l = l := by
  rw [insert, h.find?_of_mem hv, Option.isSome_some, if_pos rfl]

/-- A search that fails has compared the value with all others. -/
theorem Increasing.comparable {l : List β} (h : Increasing lt l) {v : β} (hv : find? lt v l = none) :
    ∀ w ∈ l, lt v w ∨ lt w v := by
  induction l with
  | nil => exact nofun
  | cons w l ih =>
    obtain ⟨hw, hl⟩ := List.pairwise_cons.mp h
    simp only [find?] at hv
    intro u hu
    split at hv
    . next hlt =>
      cases List.mem_cons.mp hu with
      | inl heq => exact Or.inr (heq ▸ hlt)
      | inr hmem => exact ih hl hv u hmem
    . split at hv
      . next hlt =>
        cases List.mem_cons.mp hu with
        | inl heq => exact Or.inl (heq ▸ hlt)
        | inr hmem => exact Or.inl (trans_of lt hlt (hw u hmem))
      . cases hv

theorem Increasing.insert {l : List β} (h : Increasing lt l) (v : β) : Increasing lt (insert lt v l) := by
  rw [OrderedSet.insert]
  split
  . exact h
  . next hnone =>
    have hcomp := h.comparable (Option.not_isSome_iff_eq_none.mp hnone)
    clear hnone
    induction l with
    | nil => exact List.pairwise_singleton lt v
    | cons w l ih =>
      obtain ⟨hw, hl⟩ := List.pairwise_cons.mp h
      have hvw := hcomp w List.mem_cons_self
      rw [OrderedMultiset.insert]
      split
      . next hlt =>
        apply List.pairwise_cons.mpr ⟨_, h⟩
        intro u hu
        cases List.mem_cons.mp hu with
        | inl heq => rwa [heq]
        | inr hmem => exact trans_of lt hlt (hw u hmem)
      . next hnlt =>
        apply List.pairwise_cons.mpr ⟨_, ih hl (fun u hu => hcomp u (List.mem_cons_of_mem w hu))⟩
        intro u hu
        cases List.mem_cons.mp ((insert_perm lt v l).mem_iff.mp hu) with
        | inl heq =>
          rw [heq]
          exact hvw.resolve_left hnlt
        | inr hmem => exact hw u hmem

/-- `v` is told apart from every other value in the list. -/
def Separated (lt : β → β → Prop) (v : β) (l : List β) : Prop := ∀ w ∈ l, ¬lt v w → ¬lt w v → w = v

omit [IsStrictOrder β lt] in
theorem find?_eq {l : List β} {v w : β} (h : find? lt v l = some w) : w ∈ l ∧ ¬lt v w ∧ ¬lt w v := by
  induction l with
  | nil => cases h
  | cons u l ih =>
    simp only [find?] at h
    split at h
    . have := ih h
      exact ⟨List.mem_cons_of_mem u this.1, this.2⟩
    . next hlt =>
      split at h
      . cases h
      . next hlt' =>
        cases h
        exact ⟨List.mem_cons_self, hlt', hlt⟩

omit [IsStrictOrder β lt] in
/-- The value is in the set afterwards, whether or not the list is sorted. -/
theorem mem_insert {l : List β} {v : β} (hv : Separated lt v l) (w : β) : w ∈ insert lt v l ↔ w = v ∨ w ∈ l := by
  rw [insert]
  split
  . next hfound =>
    obtain ⟨u, hu⟩ := Option.isSome_iff_exists.mp hfound
    obtain ⟨hmem, hvu, huv⟩ := find?_eq hu
    have heq := hv u hmem hvu huv
    rw [heq] at hmem
    constructor
    . exact Or.inr
    . intro h
      cases h with
      | inl heq => rwa [heq]
      | inr h => exact h
  . rw [(insert_perm lt v l).mem_iff, List.mem_cons]

end OrderedSet
