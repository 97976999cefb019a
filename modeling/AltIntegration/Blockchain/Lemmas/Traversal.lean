import AltIntegration.Control.Wp
import AltIntegration.Blockchain.Lemmas.Tree

/-!
This module contains the rules for the two traversals of a tree. The preorder traversal works off a
list of pending blocks; the fuel of both is enough when no block is that much higher than the block
they start from.
-/

namespace AltIntegration

open Program BlockIndex

variable {A : Type} {t : Tree A}

theorem Tree.height_le_maxHeight {x : Hash} {b : BlockIndex A} (hb : t.find? x = some b) :
    b.height ≤ t.maxHeight := by
  have hmem := Store.mem_of_find? hb
  unfold Tree.maxHeight
  generalize t.blocks.entries = l at hmem
  induction l with
  | nil => cases hmem
  | cons e l ih =>
    simp only [List.foldr_cons]
    cases List.mem_cons.mp hmem with
    | inl heq =>
      cases heq
      exact Nat.le_max_left _ _
    | inr hmem => exact Nat.le_trans (ih hmem) (Nat.le_max_right _ _)

/-- No block is as high as `n`. -/
def Tree.HeightBelow (t : Tree A) (n : Nat) : Prop := ∀ ⦃x b⦄, t.find? x = some b → b.height < n

theorem Tree.heightBelow_maxHeight (t : Tree A) : t.HeightBelow (t.maxHeight + 1) :=
  fun _ _ hb => Nat.lt_succ_of_le (height_le_maxHeight hb)

theorem Tree.HeightBelow.congr {t t' : Tree A} {n : Nat} (ht : t.HeightBelow n)
    (hs : SameShape t t') : t'.HeightBelow n := by
  intro x b' hb'
  obtain ⟨b, hb, heq⟩ := hs.find? hb'
  rw [← (shape_eq_iff.mp heq).2.2]
  exact ht hb

/-- The block `c` is there, and below it are fewer than `n` generations. -/
def Tree.Depth (t : Tree A) (c : Hash) (n : Nat) : Prop :=
  ∃ b, t.find? c = some b ∧ t.HeightBelow (b.height + n)

namespace Tree.Depth

theorem congr {t t' : Tree A} {c : Hash} {n : Nat} (ht : t.Depth c n) (hs : SameShape t t') :
    t'.Depth c n := by
  obtain ⟨b, hb, hn⟩ := ht
  obtain ⟨b', hb', heq⟩ := hs.symm.find? hb
  refine ⟨b', hb', ?_⟩
  rw [(shape_eq_iff.mp heq).2.2]
  exact hn.congr hs

theorem child {c x : Hash} {n : Nat} (ht : t.Depth x (n + 1)) (hwf : t.WF) (hc : t.IsChild c x) :
    t.Depth c n := by
  obtain ⟨b, hb, hn⟩ := ht
  obtain ⟨bc, hbc, hp⟩ := hc
  obtain ⟨bp, hbp, hh⟩ := hwf.parent hbc hp
  rw [hb] at hbp
  cases hbp
  refine ⟨bc, hbc, ?_⟩
  rw [hh, Nat.add_assoc, Nat.add_comm 1 n]
  exact hn

theorem not_zero {c : Hash} (ht : t.Depth c 0) : False := by
  obtain ⟨b, hb, hn⟩ := ht
  exact Nat.lt_irrefl _ (hn hb)

theorem maxHeight {c : Hash} {b : BlockIndex A} (hb : t.find? c = some b) :
    t.Depth c (t.maxHeight + 1) := by
  refine ⟨b, hb, ?_⟩
  intro x bx hbx
  have := height_le_maxHeight hbx
  omega

end Tree.Depth

section Keeps

variable {ι : Type} {I : ι → Tree A → Prop} {E : Assertion → Tree A → Prop}

theorem forEachNodePreorder_keeps {visit : Hash → M (Tree A) Bool} (hv : ∀ h, Keeps I E (visit h)) (n : Nat)
    (h : Hash) : Keeps I E (forEachNodePreorder visit n h) := by
  induction n generalizing h with
  | zero => exact .pure _
  | succ n ih =>
    refine .bind (hv h) (fun go => ?_)
    cases go with
    | false => exact .pure _
    | true => exact .bind .get (fun t => .forEach ih _)

theorem forEachNodePostorder_keeps {visit : Hash → M (Tree A) Unit} {shouldVisit : BlockIndex A → Bool}
    (hv : ∀ h, Keeps I E (visit h)) (n : Nat) (h : Hash) :
    Keeps I E (forEachNodePostorder visit shouldVisit n h) := by
  induction n generalizing h with
  | zero => exact .pure _
  | succ n ih => exact .bind .get (fun t => .bind (.forEach ih _) (fun _ => hv h))

end Keeps

section Preorder

variable {E : Assertion → Tree A → Prop} {P : List Hash → Tree A → Prop}

/-- The program takes the block `c` off the pending ones. -/
def WorksOff (E : Assertion → Tree A → Prop) (P : List Hash → Tree A → Prop) (n : Nat)
    (f : Hash → M (Tree A) Unit) : Prop :=
  ∀ c rest t, t.WF → P (c :: rest) t → t.Depth c n →
    wp (f c) (fun _ t' => t.SameShape t' ∧ P rest t') E t

/-- The visitor takes a block off the pending ones, and puts its children on when it goes on. -/
def Expands (E : Assertion → Tree A → Prop) (P : List Hash → Tree A → Prop)
    (visit : Hash → M (Tree A) Bool) : Prop :=
  ∀ c rest t b, t.WF → P (c :: rest) t → t.find? c = some b →
    wp (visit c)
      (fun go t' => t.SameShape t' ∧ P (if go = true then t'.pnext c ++ rest else rest) t') E t

theorem WorksOff.forEach {n : Nat} {f : Hash → M (Tree A) Unit} (hf : WorksOff E P n f)
    (l rest : List Hash) (t : Tree A) (hwf : t.WF) (hP : P (l ++ rest) t) (hl : ∀ c ∈ l, t.Depth c n) :
    wp (forEach f l) (fun _ t' => t.SameShape t' ∧ P rest t') E t := by
  induction l generalizing t with
  | nil =>
    simp only [Program.forEach, wp_pure]
    exact ⟨.refl t, hP⟩
  | cons c l ih =>
    simp only [Program.forEach, wp_bind]
    refine wp_mono (hf c (l ++ rest) t hwf hP (hl c (by simp))) ?_ (fun _ _ h => h)
    rintro _ t' ⟨hs, hP'⟩
    refine wp_mono (ih t' (hwf.congr hs) hP' ?_) ?_ (fun _ _ h => h)
    . exact fun c' hc' => (hl c' (by simp [hc'])).congr hs
    . rintro _ t'' ⟨hs', hP''⟩
      exact ⟨hs.trans hs', hP''⟩

theorem Expands.worksOff {visit : Hash → M (Tree A) Bool} (hv : Expands E P visit) (n : Nat) :
    WorksOff E P n (forEachNodePreorder visit n) := by
  induction n with
  | zero =>
    intro c rest t _ _ hd
    exact hd.not_zero.elim
  | succ n ih =>
    intro c rest t hwf hP hd
    obtain ⟨b, hb, _⟩ := id hd
    simp only [forEachNodePreorder, wp_bind]
    refine wp_mono (hv c rest t b hwf hP hb) ?_ (fun _ _ h => h)
    rintro go t' ⟨hs, hP'⟩
    have hwf' := hwf.congr hs
    cases go with
    | false =>
      simp only [Bool.false_eq_true, ↓reduceIte, wp_pure] at hP' ⊢
      exact ⟨hs, hP'⟩
    | true =>
      simp only [↓reduceIte, wp_bind, wp_get] at hP' ⊢
      refine wp_mono (ih.forEach _ rest t' hwf' hP' ?_) ?_ (fun _ _ h => h)
      . intro c' hc'
        exact (hd.congr hs).child hwf' (hwf'.mem_pnext.mp hc')
      . rintro _ t'' ⟨hs', hP''⟩
        exact ⟨hs.trans hs', hP''⟩

end Preorder

section Postorder

variable {E : Assertion → Tree A → Prop} {P : List Hash → Tree A → Prop} {D : BlockIndex A → Prop}
  {visit : Hash → M (Tree A) Unit} {shouldVisit : BlockIndex A → Bool}

/-- The block `c` satisfies `D`. -/
def Tree.At (t : Tree A) (D : BlockIndex A → Prop) (c : Hash) : Prop := ∃ b, t.find? c = some b ∧ D b

/-- `t'` comes from `t` by work after which the block `c` satisfies `D`, and `P` holds up to `W`. -/
structure Finished (P : List Hash → Tree A → Prop) (D : BlockIndex A → Prop) (W l : List Hash)
    (t t' : Tree A) : Prop where
  shape : t.SameShape t'
  inv : P W t'
  finished : ∀ c ∈ l, t'.At D c
  stays : ∀ x, t.At D x → t'.At D x

/-- `f` finishes the block `c`; the parent of `c` is then among the blocks that `P` exempts. -/
def Finishes (E : Assertion → Tree A → Prop) (P : List Hash → Tree A → Prop) (D : BlockIndex A → Prop)
    (n : Nat) (f : Hash → M (Tree A) Unit) : Prop :=
  ∀ c p W t, t.WF → P W t → t.IsChild c p → t.Depth c n →
    wp (f c) (fun _ t' => Finished P D (p :: W) [c] t t') E t

theorem Finishes.forEach {n : Nat} {f : Hash → M (Tree A) Unit} (hf : Finishes E P D n f)
    (hmono : ∀ W W' t, W ⊆ W' → P W t → P W' t) (p : Hash) (l W : List Hash) (t : Tree A) (hwf : t.WF)
    (hP : P W t) (hl : ∀ c ∈ l, t.IsChild c p ∧ t.Depth c n) :
    wp (forEach f l) (fun _ t' => Finished P D (p :: W) l t t') E t := by
  induction l generalizing t W with
  | nil =>
    simp only [Program.forEach, wp_pure]
    exact ⟨.refl t, hmono W _ t (List.subset_cons_self p W) hP, by simp, fun _ h => h⟩
  | cons c l ih =>
    simp only [Program.forEach, wp_bind]
    obtain ⟨hcp, hcd⟩ := hl c (by simp)
    refine wp_mono (hf c p W t hwf hP hcp hcd) ?_ (fun _ _ h => h)
    intro _ t' hc
    refine wp_mono (ih (p :: W) t' (hwf.congr hc.shape) hc.inv ?_) ?_ (fun _ _ h => h)
    . intro c' hc'
      obtain ⟨hcp', hcd'⟩ := hl c' (by simp [hc'])
      exact ⟨(hc.shape.isChild c' p).mpr hcp', hcd'.congr hc.shape⟩
    . intro _ t'' hr
      refine ⟨hc.shape.trans hr.shape, hmono _ _ _ (by simp) hr.inv, ?_, ?_⟩
      . intro c' hc'
        cases List.mem_cons.mp hc' with
        | inl heq =>
          subst heq
          exact hr.stays c' (hc.finished c' (by simp))
        | inr hmem => exact hr.finished c' hmem
      . exact fun x hx => hr.stays x (hc.stays x hx)

/-- The visitor may rely on the children being finished. -/
theorem Finishes.postorder (hmono : ∀ W W' t, W ⊆ W' → P W t → P W' t)
    (hv : ∀ c p W t, t.WF → P (c :: W) t → t.IsChild c p → (∀ c', t.IsChild c' c → t.At D c') →
      wp (visit c) (fun _ t' => Finished P D (p :: W) [c] t t') E t)
    (hskip : ∀ b, shouldVisit b = false → D b) (n : Nat) :
    Finishes E P D n (forEachNodePostorder visit shouldVisit n) := by
  induction n with
  | zero =>
    intro c p W t _ _ _ hd
    exact hd.not_zero.elim
  | succ n ih =>
    intro c p W t hwf hP hcp hd
    simp only [forEachNodePostorder, wp_bind, wp_get]
    refine wp_mono (ih.forEach hmono c _ W t hwf hP ?_) ?_ (fun _ _ h => h)
    . intro c' hc'
      have hc' := hwf.mem_pnext.mp (List.mem_filter.mp (List.mem_reverse.mp hc')).1
      exact ⟨hc', hd.child hwf hc'⟩
    . intro _ t' hl
      have hs := hl.shape
      refine wp_mono (hv c p W t' (hwf.congr hs) hl.inv ((hs.isChild c p).mpr hcp) ?_) ?_
        (fun _ _ h => h)
      . -- a child is finished by its visit, or was finished when its parent was expanded
        intro c' hc'
        obtain ⟨bc, hbc, hp⟩ := (hs.isChild c' c).mp hc'
        cases hsv : shouldVisit bc with
        | false => exact hl.stays c' ⟨bc, hbc, hskip bc hsv⟩
        | true =>
          apply hl.finished
          rw [List.mem_reverse, List.mem_filter]
          exact ⟨hwf.mem_pnext.mpr ⟨bc, hbc, hp⟩, by simp [hbc, hsv]⟩
      . intro _ t'' hc
        exact ⟨hs.trans hc.shape, hc.inv, hc.finished, fun x hx => hc.stays x (hl.stays x hx)⟩

end Postorder

end AltIntegration
