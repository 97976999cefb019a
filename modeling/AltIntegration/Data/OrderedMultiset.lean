import Mathlib.Data.Multiset.ZeroCons
import Mathlib.Order.RelClasses

/-!
This module contains the part of an ordered multiset with a comparator that a search by value uses. Values
of one rank stand in the order of their insertion. A search compares ranks only: it ends at the first value
of the rank it looks for.
-/

namespace OrderedMultiset

variable {β : Type} (lt : β → β → Prop)

/-- Neither of two values comes before the other. -/
def SameRank (v w : β) : Prop := ¬lt v w ∧ ¬lt w v

instance [DecidableRel lt] (v w : β) : Decidable (SameRank lt v w) :=
  inferInstanceAs (Decidable (¬lt v w ∧ ¬lt w v))

/-- No value stands after one that it comes before. -/
def Sorted (l : List β) : Prop := l.Pairwise (fun v w => ¬lt w v)

instance [DecidableRel lt] (l : List β) : Decidable (Sorted lt l) :=
  inferInstanceAs (Decidable (l.Pairwise (fun v w => ¬lt w v)))

section

variable [DecidableRel lt]

/-- Put `v` after all values of its rank. -/
def insert (v : β) : List β → List β
  | [] => [v]
  | w :: l => if lt v w then v :: w :: l else w :: insert v l

/-- The first value that does not come before `v`, if it is of the rank of `v`. -/
def find? (v : β) : List β → Option β
  | [] => none
  | w :: l => if lt w v then find? v l else if lt v w then none else some w

/-- Take out the value that `find?` ends at. -/
def eraseFound (v : β) : List β → List β
  | [] => []
  | w :: l => if lt w v then w :: eraseFound v l else if lt v w then w :: l else l

theorem insert_perm (v : β) (l : List β) : (insert lt v l).Perm (v :: l) := by
  induction l with
  | nil => exact List.Perm.refl _
  | cons w l ih =>
    simp only [insert]
    split
    . exact List.Perm.refl _
    . apply (ih.cons w).trans
      exact List.Perm.swap v w l

theorem length_insert (v : β) (l : List β) : (insert lt v l).length = l.length + 1 :=
  (insert_perm lt v l).length_eq

/-- A value that comes before none is put at the end. -/
theorem insert_of_forall_not_lt {v : β} {l : List β} (h : ∀ w ∈ l, ¬lt v w) : insert lt v l = l ++ [v] := by
  induction l with
  | nil => rfl
  | cons w l ih =>
    rw [List.forall_mem_cons] at h
    rw [insert, if_neg h.1, ih h.2, List.cons_append]

theorem foldl_insert_perm (l l' : List β) : (l.foldl (fun l v => insert lt v l) l').Perm (l ++ l') := by
  induction l generalizing l' with
  | nil => exact .refl _
  | cons v l ih => exact ((ih _).trans ((insert_perm lt v l').append_left l)).trans List.perm_middle

/-- The values of a sorted list, put in one after the other, come to stand in their order. -/
theorem foldl_insert_of_sorted {l l' : List β} (h : Sorted lt (l ++ l')) :
    l'.foldl (fun l v => insert lt v l) l = l ++ l' := by
  induction l' generalizing l with
  | nil => rw [List.foldl_nil, List.append_nil]
  | cons v l' ih =>
    have hv : ∀ w ∈ l, ¬lt v w := fun w hw => (List.pairwise_append.mp h).2.2 w hw v List.mem_cons_self
    rw [List.append_cons] at h
    rw [List.foldl_cons, insert_of_forall_not_lt lt hv, ih h, List.append_assoc, List.singleton_append]

theorem perm_of_find? {v w : β} {l : List β} (h : find? lt v l = some w) :
    l.Perm (w :: eraseFound lt v l) := by
  induction l with
  | nil => cases h
  | cons u l ih =>
    simp only [find?] at h
    simp only [eraseFound]
    split at h
    . next hlt =>
      simp only [hlt, ↓reduceIte]
      apply ((ih h).cons u).trans
      exact List.Perm.swap w u _
    . next hlt =>
      split at h
      . cases h
      . next hlt' =>
        cases h
        simp [hlt, hlt']

theorem eraseFound_sublist (v : β) (l : List β) : (eraseFound lt v l).Sublist l := by
  induction l with
  | nil => exact List.Sublist.refl _
  | cons w l ih =>
    simp only [eraseFound]
    split
    . exact ih.cons_cons w
    . split
      . exact List.Sublist.refl _
      . exact List.sublist_cons_self w l

theorem Sorted.eraseFound {l : List β} (h : Sorted lt l) (v : β) : Sorted lt (eraseFound lt v l) :=
  h.sublist (eraseFound_sublist lt v l)

end

section

variable [IsStrictWeakOrder β lt]

theorem not_lt_trans {a b c : β} (hab : ¬lt a b) (hbc : ¬lt b c) : ¬lt a c := by
  intro hac
  by_cases hba : lt b a
  . exact hbc (trans_of lt hba hac)
  . by_cases hcb : lt c b
    . exact hab (trans_of lt hac hcb)
    . exact (IsStrictWeakOrder.incomp_trans a b c ⟨hab, hba⟩ ⟨hbc, hcb⟩).1 hac

theorem SameRank.refl (v : β) : SameRank lt v v := ⟨irrefl v, irrefl v⟩

variable [DecidableRel lt]

theorem Sorted.insert {l : List β} (h : Sorted lt l) (v : β) : Sorted lt (insert lt v l) := by
  induction l with
  | nil => exact List.pairwise_singleton _ v
  | cons w l ih =>
    have ⟨hw, hl⟩ := List.pairwise_cons.mp h
    simp only [OrderedMultiset.insert]
    split
    . next hlt =>
      apply List.pairwise_cons.mpr ⟨_, h⟩
      intro u hu
      cases List.mem_cons.mp hu with
      | inl heq =>
        rw [heq]
        exact asymm hlt
      | inr hmem =>
        intro huv
        exact hw u hmem (trans_of lt huv hlt)
    . next hlt =>
      apply List.pairwise_cons.mpr ⟨_, ih hl⟩
      intro u hu
      cases List.mem_cons.mp ((insert_perm lt v l).mem_iff.mp hu) with
      | inl heq =>
        rw [heq]
        exact hlt
      | inr hmem => exact hw u hmem

/-- In a sorted list the search ends at the first value of the rank. -/
theorem find?_eq_head? {l : List β} (h : Sorted lt l) (v : β) :
    find? lt v l = (l.filter (fun w => SameRank lt v w)).head? := by
  induction l with
  | nil => rfl
  | cons w l ih =>
    have ⟨hw, hl⟩ := List.pairwise_cons.mp h
    simp only [find?]
    split
    . next hlt =>
      rw [ih hl]
      have : ¬SameRank lt v w := fun hr => hr.2 hlt
      simp [this]
    . next hlt =>
      split
      . next hlt' =>
        have : (w :: l).filter (fun w => SameRank lt v w) = [] := by
          rw [List.filter_eq_nil_iff]
          intro u hu
          simp only [decide_eq_true_eq]
          intro hr
          cases List.mem_cons.mp hu with
          | inl heq =>
            rw [heq] at hr
            exact hr.1 hlt'
          | inr hmem => exact not_lt_trans lt hr.1 (hw u hmem) hlt'
        rw [this]
        rfl
      . next hlt' =>
        have : SameRank lt v w := ⟨hlt', hlt⟩
        simp [this]

end

end OrderedMultiset
