import AltIntegration.Mempool.Calls

/-!
This module shows when the ATVs of a VBK block stay sorted. The set compares them through the ALT tree, which
changes under it: what has been sorted stays so exactly if the change keeps the order of the ATVs that are held.
-/

namespace AltIntegration

open Program
open OrderedSet

namespace Mempool

/-- The ATVs that are held for one VBK block come in the same order in the new trees. -/
def KeepsAtvOrder (s : State) (trees : AltState) : Prop :=
  ∀ id, ∀ a ∈ s.pool.atvsAt id, ∀ b ∈ s.pool.atvsAt id, ComesBefore s.trees.alt a b → ComesBefore trees.alt a b

/-- The ATVs of every VBK block are sorted. -/
def AtvsSorted (s : State) : Prop := ∀ id, Increasing (ComesBefore s.trees.alt) (s.pool.atvsAt id)

variable {p : Params} {s : State}

theorem keeps_atvsSorted : Keeps p KeepsAtvOrder AtvsSorted where
  change {trees m m'} hm h id := by
    have hm : Increasing (ComesBefore trees.alt) (m.atvsAt id) := hm id
    show Increasing (ComesBefore trees.alt) (m'.atvsAt id)
    cases h.atvsAt id with
    | inl h =>
      obtain ⟨a, _, heq⟩ := h
      rw [heq]
      exact hm.insert a
    | inr h =>
      obtain ⟨kept, heq⟩ := h
      rw [heq]
      exact hm.filter kept
  trees hs hR id := (hs id).congr (hR id)

theorem atvsSorted_iff (hs : AtvsSorted s) (trees : AltState) : AtvsSorted ⟨s.pool, trees⟩ ↔ KeepsAtvOrder s trees :=
  forall_congr' (fun id => (hs id).congr_iff)

section OldATVs

variable {s0 : State}

/-- The loop over the ATVs of a relation that is too old finds the first of them, and reads it once it is erased. -/
theorem wp_cleanUpRelation_old {id : Hash} (hsorted : Increasing (ComesBefore s.trees.alt) (s.pool.atvsAt id))
    (hold : HoldsOldATVs p s.trees s.pool id) : wp (cleanUpRelation p id) (fun _ _ => False) (fun e _ => e = .readsErased) s := by
  obtain ⟨rel, hrel, htooOld, hne⟩ := hold
  rw [MemPool.atvsAt, hrel, Option.elim_some] at hsorted
  rw [cleanUpRelation, wp_bind, wp_get, hrel]
  simp only [htooOld, wp_bind, wp_when, forall_const, Bool.true_eq_false, false_implies, and_true]
  cases hatvs : rel.atvs with
  | nil => exact absurd hatvs hne
  | cons a as =>
    rw [hatvs] at hsorted
    have hfind := hsorted.find?_of_mem (v := a) List.mem_cons_self
    rw [eraseOldATVs, wp_bind, wp_get, wp_bind, wp_check, hrel, Option.bind_some, hatvs, hfind]
    exact ⟨nofun, fun _ => rfl⟩

/-- The loop over the relations stops at the first of them that holds old ATVs. -/
theorem wp_cleanUpRelations_old (hsorted : AtvsSorted s0) {l : List Hash} (hnodup : l.Nodup) (hs : Evolves p s0 s)
    (hsame : ∀ id ∈ l, s.pool.relations.find? id = s0.pool.relations.find? id)
    (hold : ∃ id ∈ l, HoldsOldATVs p s0.trees s0.pool id) :
    wp (forEach (cleanUpRelation p) l) (fun _ _ => False) (fun e _ => e = .readsErased) s := by
  induction l generalizing s with
  | nil =>
    obtain ⟨id, hid, _⟩ := hold
    cases hid
  | cons id l ih =>
    obtain ⟨hid, hnodup⟩ := List.nodup_cons.mp hnodup
    have hsameId := hsame id List.mem_cons_self
    rw [forEach, wp_bind]
    by_cases hholds : HoldsOldATVs p s0.trees s0.pool id
    . refine wp_mono (wp_cleanUpRelation_old ?_ ?_) (fun _ _ h => h.elim) (fun _ _ h => h)
      . rw [hs.2, MemPool.atvsAt, hsameId]
        exact hsorted id
      . rw [hs.2]
        exact (HoldsOldATVs.congr hsameId).mpr hholds
    . have hholds' : ¬HoldsOldATVs p s0.trees s.pool id := fun h => hholds ((HoldsOldATVs.congr hsameId).mp h)
      refine wp_mono (wp_cleanUpRelation hs hholds') ?_ (fun _ _ h => h)
      intro _ s' hs'
      apply ih hnodup hs'.evolves
      . intro id' hid'
        have hne : id ≠ id' := fun heq => hid (heq ▸ hid')
        rw [hs'.others id' hne]
        exact hsame id' (List.mem_cons_of_mem id hid')
      . obtain ⟨id', hid', hold⟩ := hold
        cases List.mem_cons.mp hid' with
        | inl heq =>
          rw [heq] at hold
          exact absurd hold hholds
        | inr hid' => exact ⟨id', hid', hold⟩

end OldATVs

/-- The trees change without changing the order of the ATVs that are held, and no clean-up meets old ATVs. -/
def OrderKept (p : Params) (s : State) (op : Op) : Prop := MeetsNoOldATVs p s op ∧ op.ChangesTrees p KeepsAtvOrder s

theorem Reachable.atvsSorted (h : Reachable p (OrderKept p) s) : s.pool.Inv p ∧ AtvsSorted s :=
  h.inv (fun _ _ h => h) keeps_atvsSorted (fun _ _ => List.Pairwise.nil)

namespace Small

theorem reachable_connected_ordered : Reachable params (OrderKept params) connected :=
  .step (.start _) (isSound_start _ _) ⟨nofun, trivial⟩ submitATV_connected

end Small

/-- A clean-up reads an ATV that it has erased exactly if a relation that is too old holds ATVs. -/
theorem cleanUp_readsErased_iff (h : Reachable p (OrderKept p) s) :
    (∃ s', cleanUp p s = .error .readsErased s') ↔ ∃ id, HoldsOldATVs p s.trees s.pool id := by
  obtain ⟨hinv, hsorted⟩ := h.atvsSorted
  constructor
  . rintro ⟨s', hexec⟩
    by_contra hnone
    have hstop := wp_error (wp_cleanUp hinv (fun id hid => hnone ⟨id, hid⟩)) hexec
    obtain ⟨a, ha⟩ := hstop
    cases ha
  . rintro ⟨id, hid⟩
    have hmem : id ∈ s.pool.relations.keys := by
      obtain ⟨rel, hrel, _⟩ := hid
      exact Store.mem_keys_of_find? hrel
    have hloop := wp_cleanUpRelations_old hsorted hinv.nodup_relations (.refl s) (fun _ _ => rfl) ⟨id, hmem, hid⟩
    have hstop : wp (cleanUp p) (fun _ _ => False) (fun e _ => e = .readsErased) s := by
      rw [cleanUp, wp_bind, wp_get, wp_bind]
      exact wp_mono hloop (fun _ _ h => h.elim) (fun _ _ h => h)
    cases hexec : cleanUp p s with
    | ok _ s' => exact (wp_ok hstop hexec).elim
    | error e s' =>
      obtain rfl := wp_error hstop hexec
      exact ⟨s', rfl⟩

namespace Small

/-- Where one ATV at most is held for a block, there is no order to be changed. -/
theorem keepsAtvOrder_of_forall_eq (s : State) (trees : AltState)
    (h : s.pool.relations.entries.all (fun e => decide (∀ a ∈ e.2.atvs, ∀ b ∈ e.2.atvs, a = b)) = true) : KeepsAtvOrder s trees := by
  intro id a ha b hb hab
  obtain ⟨rel, hrel, ha⟩ := MemPool.mem_atvsAt_iff.mp ha
  obtain ⟨rel', hrel', hb⟩ := MemPool.mem_atvsAt_iff.mp hb
  rw [hrel] at hrel'
  cases hrel'
  have heq := List.all_eq_true.mp h _ (Store.mem_of_find? hrel)
  rw [decide_eq_true_eq] at heq
  rw [heq a ha b hb] at hab
  exact absurd hab (irrefl b)

theorem reachable_outdated : Reachable params (OrderKept params) outdated := by
  have hop : (Op.changeTrees grownTrees).IsSound connected := trivial
  have hkeeps : KeepsAtvOrder connected grownTrees := keepsAtvOrder_of_forall_eq _ _ (by decide +kernel)
  exact .step reachable_connected_ordered hop ⟨nofun, hkeeps⟩ rfl

theorem holdsOldATVs_outdated : HoldsOldATVs params outdated.trees outdated.pool vbkBlock1.getHash := by
  have h : (outdated.pool.relations.find? vbkBlock1.getHash).any
      (fun rel => isTooOld params outdated.trees rel.header && !rel.atvs.isEmpty) = true := by decide +kernel
  obtain ⟨rel, hrel, h⟩ := Option.any_eq_true _ _ |>.mp h
  rw [Bool.and_eq_true, Bool.not_eq_true', List.isEmpty_eq_false_iff] at h
  exact ⟨rel, hrel, h.1, h.2⟩

theorem cleanUp_outdated : ∃ s', cleanUp params outdated = .error .readsErased s' :=
  (cleanUp_readsErased_iff reachable_outdated).mpr ⟨_, holdsOldATVs_outdated⟩

end Small

end Mempool

end AltIntegration
