import AltIntegration.Blockchain.Finalization
import AltIntegration.Blockchain.Lemmas.Chain

/-!
This module contains which block `finalizeBlockImpl` makes final, and which tips it forgets.
-/

namespace AltIntegration

variable {A : Type}

namespace Tree

variable {t : Tree A} {x d final index : Hash} {b : BlockIndex A} {l tips : List Hash}

section Outdated

/-- A block is outdated if it does not descend from the final block. -/
theorem WF.isBlockOutdated_eq (ht : t.WF) (n : Nat) (hb : t.find? x = some b) :
    t.isBlockOutdated final (n + 1) x = !decide (final ∈ t.chainTo x) := by
  by_cases hmem : final ∈ t.chainTo x
  . unfold isBlockOutdated
    rw [if_pos (ht.getAncestor_eq hmem)]
    simp [hmem]
  . rw [show (!decide (final ∈ t.chainTo x)) = true by simp [hmem]]
    have hmain : ∀ n x b, t.find? x = some b → final ∉ t.chainTo x → t.isBlockOutdated final n x = true := by
      intro n
      induction n with
      | zero =>
        intro x b _ _
        rfl
      | succ n ih =>
        intro x b hb hmem
        have hne : final ≠ x := by
          intro heq
          apply hmem
          rw [heq]
          exact ht.mem_chainTo_self hb
        unfold isBlockOutdated
        rw [if_neg (fun h => hmem (getAncestor_mem h))]
        split
        . rfl
        . next hlt =>
          rw [if_neg (fun h => hne (ht.eq_of_heightOf_le (getAncestor_mem h) (by omega)).symm)]
          split
          . rfl
          . split
            . rfl
            . next fork hfork =>
              have hmem' := getForkBlock_mem hfork
              obtain ⟨b', hb'⟩ := ht.find?_of_mem_chainTo hmem'.2
              exact ih fork b' hb' (fun h => hmem (ht.mem_chainTo_trans h hmem'.2))
    exact hmain (n + 1) x b hb hmem

end Outdated

section LowestDirty

/-- The last element of a list that satisfies `p`, or else `a`. -/
theorem foldl_last_eq {α : Type} (p : α → Bool) (l : List α) (a : α) :
    l.foldl (fun acc x => if p x then x else acc) a = ((l.filter p).getLast?).getD a := by
  induction l generalizing a with
  | nil => rfl
  | cons x l ih =>
    rw [List.foldl_cons, ih]
    cases hp : p x with
    | false => simp [hp]
    | true => simp [hp, List.getLast?_cons]

theorem WF.lowestDirty_mem (ht : t.WF) (hb : t.find? index = some b) : t.lowestDirty index ∈ t.chainTo index := by
  unfold lowestDirty
  rw [foldl_last_eq]
  cases hlast : ((t.chainTo index).filter t.isDirty).getLast? with
  | none => exact ht.mem_chainTo_self hb
  | some d => exact (List.mem_filter.mp (List.mem_of_getLast? hlast)).1

theorem lowestDirty_eq_or (t : Tree A) (index : Hash) :
    t.lowestDirty index = index ∨ t.isDirty (t.lowestDirty index) = true := by
  unfold lowestDirty
  rw [foldl_last_eq]
  cases hlast : ((t.chainTo index).filter t.isDirty).getLast? with
  | none => exact .inl rfl
  | some d => exact .inr (List.mem_filter.mp (List.mem_of_getLast? hlast)).2

/-- Blocks of a chain come from the highest down. -/
theorem WF.chainTo_pairwise (ht : t.WF) (x : Hash) : (t.chainTo x).Pairwise (fun y z => z ∈ t.chainTo y) := by
  cases hx : t.find? x with
  | none =>
    rw [chainTo_of_none hx]
    exact List.Pairwise.nil
  | some b =>
    refine ht.chain_induction (P := fun x => (t.chainTo x).Pairwise (fun y z => z ∈ t.chainTo y)) ?_ ?_ hx
    . intro x b hb hp
      rw [chainTo_of_root hb hp]
      exact List.pairwise_singleton _ _
    . intro x p hx ih
      have heq := ht.chainTo_of_child hx
      rw [heq]
      refine List.pairwise_cons.mpr ⟨fun z hz => ?_, ih⟩
      rw [heq]
      exact List.mem_cons_of_mem _ hz

theorem WF.lowestDirty_le (ht : t.WF) (hd : d ∈ t.chainTo index) (hdirty : t.isDirty d = true) :
    t.lowestDirty index ∈ t.chainTo d := by
  have hmem : d ∈ (t.chainTo index).filter t.isDirty := List.mem_filter.mpr ⟨hd, hdirty⟩
  have hpair := (ht.chainTo_pairwise index).sublist (List.filter_sublist (p := t.isDirty))
  unfold lowestDirty
  rw [foldl_last_eq, List.getLast?_eq_some_getLast (List.ne_nil_of_mem hmem), Option.getD_some]
  obtain ⟨b, hb⟩ := ht.find?_of_mem_chainTo hd
  generalize (t.chainTo index).filter t.isDirty = l at *
  induction l with
  | nil => cases hmem
  | cons y l ih =>
    rw [List.pairwise_cons] at hpair
    cases l with
    | nil =>
      rw [List.mem_singleton] at hmem
      subst hmem
      exact ht.mem_chainTo_self hb
    | cons z l =>
      rw [List.getLast_cons (List.cons_ne_nil z l)]
      rcases List.mem_cons.mp hmem with rfl | hmem
      . exact hpair.1 _ (List.getLast_mem _)
      . exact ih hmem hpair.2

end LowestDirty

section Tips

theorem WF.mem_branch (ht : t.WF) : d ∈ t.branch x ↔ d ∈ t.chainTo x ∧ d ∉ t.chainTo t.activeTip := by
  unfold branch
  cases hx : t.find? x with
  | none => simp [chainTo_of_none hx]
  | some b =>
    refine ht.chain_induction (P := fun x => d ∈ (t.chainTo x).takeWhile (fun h => !t.onActiveChain h) ↔
      d ∈ t.chainTo x ∧ d ∉ t.chainTo t.activeTip) ?_ ?_ hx
    . intro x b hb hp
      rw [chainTo_of_root hb hp]
      cases hact : t.onActiveChain x with
      | true =>
        have := onActiveChain_iff.mp hact
        simp only [List.takeWhile_cons, hact, Bool.not_true, Bool.false_eq_true, ↓reduceIte, List.not_mem_nil,
          List.mem_singleton, false_iff, not_and, Decidable.not_not]
        rintro rfl
        exact this
      | false =>
        have := onActiveChain_eq_false_iff.mp hact
        simp only [List.takeWhile_cons, hact, Bool.not_false, ↓reduceIte, List.takeWhile_nil,
          List.mem_singleton, iff_self_and]
        rintro rfl
        exact this
    . intro x p hx ih
      rw [ht.chainTo_of_child hx]
      cases hact : t.onActiveChain x with
      | true =>
        have hxa := onActiveChain_iff.mp hact
        simp only [List.takeWhile_cons, hact, Bool.not_true, Bool.false_eq_true, ↓reduceIte, List.not_mem_nil,
          false_iff, not_and, Decidable.not_not]
        intro hd
        rw [← ht.chainTo_of_child hx] at hd
        exact ht.mem_chainTo_trans hd hxa
      | false =>
        have hxa := onActiveChain_eq_false_iff.mp hact
        simp only [List.takeWhile_cons, hact, Bool.not_false, ↓reduceIte, List.mem_cons, ih]
        constructor
        . rintro (rfl | hd)
          . exact ⟨.inl rfl, hxa⟩
          . exact ⟨.inr hd.1, hd.2⟩
        . rintro ⟨rfl | hd, hd'⟩
          . exact .inl rfl
          . exact .inr ⟨hd, hd'⟩

/-- The tip is on a branch that was not saved. -/
def Unsaved (t : Tree A) (tip : Hash) : Prop := (t.branch tip).any t.isDirty = true

instance (t : Tree A) (tip : Hash) : Decidable (t.Unsaved tip) := inferInstanceAs (Decidable (_ = true))

/-- The tips that go, and how they move the final block, one tip after the other. -/
inductive Erases (t : Tree A) : List Hash → Hash → List Hash → Hash → Prop where
  | nil {final : Hash} : Erases t [] final [] final
  | keep {tip final final' : Hash} {tips tips' : List Hash}
      (h : tip ∈ t.chainTo t.activeTip ∨ final ∈ t.chainTo tip) (hs : Erases t tips final tips' final') :
      Erases t (tip :: tips) final (tip :: tips') final'
  | erase {tip final final' : Hash} {tips tips' : List Hash} (hoff : tip ∉ t.chainTo t.activeTip)
      (h : final ∉ t.chainTo tip) (hsaved : ¬t.Unsaved tip) (hs : Erases t tips final tips' final') :
      Erases t (tip :: tips) final tips' final'
  | lower {tip final fork final' : Hash} {tips tips' : List Hash} (hoff : tip ∉ t.chainTo t.activeTip)
      (h : final ∉ t.chainTo tip) (hunsaved : t.Unsaved tip) (hfork : t.findFork tip = some fork)
      (hs : Erases t tips fork tips' final') : Erases t (tip :: tips) final tips' final'

/-- `eraseOutdatedTips` does not follow a null pointer. -/
theorem WF.eraseOutdatedTips_spec (ht : t.WF) (hfork : ∀ tip ∈ tips, ∃ b f, t.find? tip = some b ∧ t.findFork tip = some f)
    (final : Hash) :
    ∃ tips' final', t.eraseOutdatedTips tips final = some (tips', final') ∧ t.Erases tips final tips' final' := by
  induction tips generalizing final with
  | nil => exact ⟨[], final, rfl, .nil⟩
  | cons tip tips ih =>
    obtain ⟨b, f, hb, hf⟩ := hfork tip List.mem_cons_self
    have ih := fun final => ih (fun x hx => hfork x (List.mem_cons_of_mem _ hx)) final
    unfold eraseOutdatedTips
    rw [ht.isBlockOutdated_eq _ hb]
    split
    . next hout =>
      rw [Bool.and_eq_true, Bool.not_eq_true', onActiveChain_eq_false_iff, Bool.not_eq_true',
        decide_eq_false_iff_not] at hout
      simp only [hf]
      by_cases hun : t.Unsaved tip
      . rw [if_pos (show (t.branch tip).any t.isDirty = true from hun)]
        obtain ⟨tips', final', heq, he⟩ := ih f
        exact ⟨tips', final', heq, .lower hout.1 hout.2 hun hf he⟩
      . rw [if_neg (show ¬(t.branch tip).any t.isDirty = true from hun)]
        obtain ⟨tips', final', heq, he⟩ := ih final
        exact ⟨tips', final', heq, .erase hout.1 hout.2 hun he⟩
    . next hout =>
      rw [Bool.and_eq_true, Bool.not_eq_true', onActiveChain_eq_false_iff, Bool.not_eq_true',
        decide_eq_false_iff_not, not_and_or, Decidable.not_not, Decidable.not_not] at hout
      obtain ⟨tips', final', heq, he⟩ := ih final
      exact ⟨tip :: tips', final', by rw [heq]; rfl, .keep hout he⟩

namespace Erases

variable {tips' : List Hash} {final' : Hash}

theorem subset (he : t.Erases tips final tips' final') : tips'.Sublist tips := by
  induction he with
  | nil => exact List.Sublist.refl _
  | keep _ _ ih => exact ih.cons_cons _
  | erase _ _ _ _ ih => exact ih.cons _
  | lower _ _ _ _ _ ih => exact ih.cons _

/-- The final block moves down the active chain. -/
theorem final_mem (ht : t.WF) (he : t.Erases tips final tips' final') (ha : final ∈ t.chainTo t.activeTip) :
    final' ∈ t.chainTo final := by
  induction he with
  | nil =>
    obtain ⟨b, hb⟩ := ht.find?_of_mem_chainTo ha
    exact ht.mem_chainTo_self hb
  | keep _ _ ih => exact ih ha
  | erase _ _ _ _ ih => exact ih ha
  | lower hoff h _ hfork _ ih =>
    have hf := findFork_mem hfork
    refine ht.mem_chainTo_trans (ih hf.2) (ht.mem_chainTo_of_le hf.2 ha ?_)
    rw [ht.mem_chainTo_iff_findFork hfork ha] at h
    omega

/-- The final block is not above the fork of an unsaved branch. -/
theorem final_le (ht : t.WF) (he : t.Erases tips final tips' final') (ha : final ∈ t.chainTo t.activeTip)
    (hx : x ∈ tips) (hoff : x ∉ t.chainTo t.activeTip) (hun : t.Unsaved x) : final' ∈ t.chainTo x := by
  induction he with
  | nil => cases hx
  | keep h hs ih =>
    rcases List.mem_cons.mp hx with rfl | hx
    . exact ht.mem_chainTo_trans (hs.final_mem ht ha) (h.resolve_left hoff)
    . exact ih ha hx
  | erase _ _ hsaved _ ih =>
    rcases List.mem_cons.mp hx with rfl | hx
    . exact absurd hun hsaved
    . exact ih ha hx
  | lower _ _ _ hfork hs ih =>
    have hf := findFork_mem hfork
    rcases List.mem_cons.mp hx with rfl | hx
    . exact ht.mem_chainTo_trans (hs.final_mem ht hf.2) hf.1
    . exact ih hf.2 hx

/-- The final block has moved only if a tip was forgotten that descends from where it is now. -/
theorem lost (he : t.Erases tips final tips' final') (ha : final ∈ t.chainTo t.activeTip)
    (hn : tips.Nodup) : final' = final ∨
      ∃ x ∈ tips, x ∉ tips' ∧ x ∉ t.chainTo t.activeTip ∧ t.Unsaved x ∧ t.findFork x = some final' := by
  induction he with
  | nil => exact .inl rfl
  | keep _ _ ih =>
    rw [List.nodup_cons] at hn
    rcases ih ha hn.2 with heq | ⟨x, hx, hx', hrest⟩
    . exact .inl heq
    . refine .inr ⟨x, List.mem_cons_of_mem _ hx, ?_, hrest⟩
      intro hmem
      rcases List.mem_cons.mp hmem with rfl | hmem
      . exact hn.1 hx
      . exact hx' hmem
  | erase _ _ _ _ ih =>
    rw [List.nodup_cons] at hn
    rcases ih ha hn.2 with heq | ⟨x, hx, hrest⟩
    . exact .inl heq
    . exact .inr ⟨x, List.mem_cons_of_mem _ hx, hrest⟩
  | @lower tip _ fork _ _ _ hoff _ hun hfork hs ih =>
    rw [List.nodup_cons] at hn
    rcases ih (findFork_mem hfork).2 hn.2 with rfl | ⟨x, hx, hrest⟩
    . exact .inr ⟨tip, List.mem_cons_self, fun hmem => hn.1 (hs.subset.subset hmem), hoff, hun, hfork⟩
    . exact .inr ⟨x, List.mem_cons_of_mem _ hx, hrest⟩

theorem active_mem (he : t.Erases tips final tips' final') (hx : x ∈ tips) (ha : x ∈ t.chainTo t.activeTip) :
    x ∈ tips' := by
  induction he with
  | nil => cases hx
  | keep _ _ ih =>
    rcases List.mem_cons.mp hx with rfl | hx
    . exact List.mem_cons_self
    . exact List.mem_cons_of_mem _ (ih hx)
  | erase hoff _ _ _ ih =>
    rcases List.mem_cons.mp hx with rfl | hx
    . exact absurd ha hoff
    . exact ih hx
  | lower hoff _ _ _ _ ih =>
    rcases List.mem_cons.mp hx with rfl | hx
    . exact absurd ha hoff
    . exact ih hx

/-- A tip that stays is on the active chain or not outdated. -/
theorem mem_descends (ht : t.WF) (he : t.Erases tips final tips' final') (ha : final ∈ t.chainTo t.activeTip)
    (hx : x ∈ tips') : x ∈ t.chainTo t.activeTip ∨ final' ∈ t.chainTo x := by
  induction he with
  | nil => cases hx
  | keep h hs ih =>
    rcases List.mem_cons.mp hx with rfl | hx
    . exact h.imp_right (ht.mem_chainTo_trans (hs.final_mem ht ha))
    . exact ih ha hx
  | erase _ _ _ _ ih => exact ih ha hx
  | lower _ _ _ hfork _ ih => exact ih (findFork_mem hfork).2 hx

/-- Nothing moves when every unsaved tip descends from the final block. -/
theorem settled (he : t.Erases tips final tips' final')
    (hall : ∀ x ∈ tips, x ∉ t.chainTo t.activeTip → t.Unsaved x → final ∈ t.chainTo x) :
    final' = final ∧ tips' = tips.filter (fun x => x ∈ t.chainTo t.activeTip ∨ final ∈ t.chainTo x) := by
  induction he with
  | nil => exact ⟨rfl, rfl⟩
  | keep h _ ih =>
    obtain ⟨h1, h2⟩ := ih (fun x hx => hall x (List.mem_cons_of_mem _ hx))
    refine ⟨h1, ?_⟩
    rw [List.filter_cons_of_pos (by simpa using h), ← h2]
  | erase hoff h _ _ ih =>
    obtain ⟨h1, h2⟩ := ih (fun x hx => hall x (List.mem_cons_of_mem _ hx))
    refine ⟨h1, ?_⟩
    rw [List.filter_cons_of_neg (by simp [hoff, h]), ← h2]
  | lower hoff h hun _ _ _ => exact absurd (hall _ List.mem_cons_self hoff hun) h

end Erases

end Tips

end Tree

end AltIntegration
