import AltIntegration.Blockchain.Lemmas.TreeInv

/-!
This module contains what flagging and unflagging a subtree does: the traversals of
`invalidateSubtree` and `revalidateSubtree` keep the invariant of the tree.
-/

namespace AltIntegration

open Program BlockIndex

variable {A : Type} [BlockAddon A]

namespace BlockIndex

theorem canBeATip_of_isFailed {b : BlockIndex A} (h : b.isFailed = true) : b.canBeATip = false := by
  simp [canBeATip, isValid, h]

theorem not_isFailed_of_canBeATip {b : BlockIndex A} (h : b.canBeATip = true) : b.isFailed = false := by
  rw [← Bool.not_eq_true]
  intro hf
  rw [canBeATip_of_isFailed hf] at h
  cases h

omit [BlockAddon A] in
theorem isFailed_setFlag {b : BlockIndex A} {r : BlockValidityStatus}
    (hr : r = .failedBlock ∨ r = .failedPop ∨ r = .failedChild) : (b.setFlag r).isFailed = true := by
  simp only [isFailed, setFlag_status]
  rcases hr with rfl | rfl | rfl
  . simp [BlockStatus.assign, BlockStatus.isFailed]
  . simp [BlockStatus.assign, BlockStatus.isFailed]
  . simp [BlockStatus.assign, BlockStatus.isFailed]

omit [BlockAddon A] in
theorem unfailed_setFlag (b : BlockIndex A) {r : BlockValidityStatus}
    (hr : r = .failedBlock ∨ r = .failedPop ∨ r = .failedChild) : (b.setFlag r).unfailed = b.unfailed := by
  rw [unfailed_eq_iff, setFlag_status]
  exact ⟨keepsShape_setFlag r b, clearFailed_assign _ _ hr⟩

omit [BlockAddon A] in
theorem unfailed_unsetFlag (b : BlockIndex A) {r : BlockValidityStatus}
    (hr : r = .failedBlock ∨ r = .failedPop ∨ r = .failedChild) :
    (b.unsetFlag r).unfailed = b.unfailed := by
  rw [unfailed_eq_iff, unsetFlag_status]
  exact ⟨keepsShape_unsetFlag r b, clearFailed_assign _ _ hr⟩

end BlockIndex

theorem isFailure_of_valid {r : BlockValidityStatus} (hr : isValidInvalidationReason r = true) :
    r = .failedBlock ∨ r = .failedPop ∨ r = .failedChild := by
  cases r with
  | failedBlock => exact .inl rfl
  | failedPop => exact .inr (.inl rfl)
  | _ => simp [isValidInvalidationReason] at hr

theorem isFailure_failedChild : BlockValidityStatus.failedChild = .failedBlock ∨
    BlockValidityStatus.failedChild = .failedPop ∨ BlockValidityStatus.failedChild = .failedChild :=
  .inr (.inr rfl)

section Wp

variable {t : Tree A} {h : Hash} {b : BlockIndex A} {E : Assertion → Tree A → Prop}

omit [BlockAddon A] in
theorem wp_derefBlock {Q : BlockIndex A → Tree A → Prop} (hb : t.find? h = some b) :
    wp (derefBlock h) Q E t ↔ Q b t := by
  simp [derefBlock, hb]

omit [BlockAddon A] in
@[simp]
theorem wp_modifyBlock {f : BlockIndex A → BlockIndex A} {Q : Unit → Tree A → Prop} :
    wp (modifyBlock h f) Q E t ↔ Q () (t.update h f) := Iff.rfl

omit [BlockAddon A] in
theorem wp_doInvalidate {r : BlockValidityStatus} {Q : Unit → Tree A → Prop} (hb : t.find? h = some b)
    (hr : b.isValidUpTo .canBeApplied = true → r ≠ .failedPop) :
    wp (doInvalidate h r) Q E t ↔ Q () ((t.update h (fun b => b.setFlag r)).eraseTip h) := by
  have hcheck : (!b.isValidUpTo .canBeApplied || r != .failedPop) = true := by
    cases hv : b.isValidUpTo .canBeApplied with
    | false => rfl
    | true => simpa using hr hv
  simp only [doInvalidate, wp_bind, wp_derefBlock hb, wp_check, hcheck, wp_modifyBlock, wp_modify,
    true_implies, reduceCtorEq, false_implies, and_true]

theorem wp_doReValidate {r : BlockValidityStatus} {Q : Unit → Tree A → Prop} :
    wp (doReValidate h r) Q E t ↔ Q () ((t.update h (fun b => b.unsetFlag r)).tryAddTip h) := by
  simp [doReValidate]

omit [BlockAddon A] in
theorem wp_invalidateChild {Q : Bool → Tree A → Prop} (hb : t.find? h = some b) :
    wp (invalidateChild h) Q E t ↔
      Q (!b.isFailed) ((t.update h (fun b => b.setFlag .failedChild)).eraseTip h) := by
  have hr : b.isValidUpTo .canBeApplied = true → BlockValidityStatus.failedChild ≠ .failedPop :=
    fun _ => by decide
  simp only [invalidateChild, wp_bind, wp_derefBlock hb, wp_doInvalidate hb hr, wp_pure]

theorem wp_revalidateChild {Q : Bool → Tree A → Prop} (hb : t.find? h = some b) :
    wp (revalidateChild h) Q E t ↔
      Q (!(b.unsetFlag .failedChild).isFailed)
        ((t.update h (fun b => b.unsetFlag .failedChild)).tryAddTip h) := by
  have hb' : ((t.update h (fun b => b.unsetFlag .failedChild)).tryAddTip h).find? h =
      some (b.unsetFlag .failedChild) := by
    unfold Tree.find?
    rw [Tree.tryAddTip_blocks]
    have := t.find?_update_self h (fun b => b.unsetFlag .failedChild)
    rw [hb] at this
    exact this
  simp only [revalidateChild, wp_bind, wp_doReValidate, wp_derefBlock hb', wp_pure]

end Wp

namespace Tree

variable {t t₀ : Tree A} {c p : Hash} {b : BlockIndex A} {S W rest : List Hash}

omit [BlockAddon A] in
theorem IsChild.unique {p' : Hash} (h : t.IsChild c p) (h' : t.IsChild c p') : p' = p := by
  obtain ⟨b, hb, hp⟩ := h
  obtain ⟨b', hb', hp'⟩ := h'
  rw [hb] at hb'
  cases hb'
  rw [hp] at hp'
  exact (Option.some.inj hp').symm

/-- The state of a traversal that writes failure flags. -/
structure Flagging (t₀ : Tree A) (v : Bool) (S W pend : List Hash) (t : Tree A) : Prop where
  same : SameOn unfailed t₀ t
  flags : t.Edges (FlagOk v pend)
  sound : t.TipsSound S
  complete : t.TipsComplete W
  history : t.history = t₀.history

omit [BlockAddon A] in
/-- Flag a pending block. Its children are pending next, unless they are flagged already. -/
theorem flags_setFlag {pend : List Hash} (hwf : t.WF) (hb : t.find? c = some b)
    (ht : t.Edges (FlagOk true (c :: rest)))
    (hpend : ∀ x, x ∈ pend ↔ (b.isFailed = false ∧ t.IsChild x c) ∨ x ∈ rest) :
    (t.update c (fun b => b.setFlag .failedChild)).Edges (FlagOk true pend) := by
  have hf : ∀ b : BlockIndex A, (b.setFlag .failedChild).isFailed = true :=
    fun _ => isFailed_setFlag isFailure_failedChild
  refine ht.update hwf (keepsShape_setFlag _) ?_ ?_ ?_
  . intro b' p bp hb' hp hbp hR
    refine ⟨fun _ => hR.pending (by simp), fun _ => ?_⟩
    rw [hR.pending (by simp), setFlag_status]
    rfl
  . intro x bx bp hbx hpx hbp hR
    rw [hb] at hbp
    cases hbp
    refine ⟨fun _ => hf b, fun hx => ?_⟩
    rw [hpend] at hx
    push Not at hx
    have hbf : b.isFailed = true := by
      rw [← Bool.not_eq_false]
      intro hbf
      exact hx.1 hbf ⟨bx, hbx, hpx⟩
    have hxc : x ≠ c := (hwf.ne_parent hbx hpx).symm
    rw [hf, hR.inherited (by simp [hxc, hx.2]), hbf]
  . intro x bx bp hbx hpx hxc hR
    have hiff : x ∈ pend ↔ x ∈ c :: rest := by
      have hx : ¬t.IsChild x c := by
        rintro ⟨bx', hbx', hpx'⟩
        rw [hbx] at hbx'
        cases hbx'
        exact hpx hpx'
      simp [hpend, hxc, hx]
    exact ⟨fun hx => hR.pending (hiff.mp hx), fun hx => hR.inherited (fun h => hx (hiff.mpr h))⟩

/-- A failed block leaves no new tip behind when its parent is failed too. -/
theorem TipsComplete.kill_pending {r : BlockValidityStatus} (ht : t.TipsComplete W) (hwf : t.WF)
    (hr : r = .failedBlock ∨ r = .failedPop ∨ r = .failedChild) (hb : t.find? c = some b)
    (hparent : ∀ p bp, b.pprev = some p → t.find? p = some bp → bp.isFailed = true) :
    ((t.update c (fun b => b.setFlag r)).eraseTip c).TipsComplete W := by
  have hdead : ∀ b', t.find? c = some b' → (b'.setFlag r).canBeATip = false :=
    fun b' _ => canBeATip_of_isFailed (isFailed_setFlag hr)
  cases hpp : b.pprev with
  | none =>
    have hc : ∀ x, t.IsChild c x → x = c := by
      rintro x ⟨b', hb', hp'⟩
      rw [hb] at hb'
      cases hb'
      rw [hpp] at hp'
      cases hp'
    refine (ht.kill (keepsShape_setFlag r) hdead hc).settle ?_
    intro hl
    have hl := (live_update_self hb).mp hl
    rw [hdead b hb] at hl
    cases hl
  | some p =>
    have hcp : t.IsChild c p := ⟨b, hb, hpp⟩
    refine (ht.kill (keepsShape_setFlag r) hdead (fun x hx => hcp.unique hx)).settle ?_
    intro hl
    obtain ⟨bp, hbp, hl⟩ := (live_update_of_ne (hwf.ne_parent hb hpp)).mp hl
    rw [canBeATip_of_isFailed (hparent p bp hpp hbp)] at hl
    cases hl

theorem invalidateChild_expands (t₀ : Tree A) (S W : List Hash) (E : Assertion → Tree A → Prop) :
    Expands E (Flagging t₀ true S W) invalidateChild := by
  intro c rest t b hwf hP hb
  have hkeep : KeepsShape (fun b : BlockIndex A => b.setFlag .failedChild) := keepsShape_setFlag _
  have hs := (SameShape.update t c hkeep).eraseTip c
  rw [wp_invalidateChild hb]
  refine ⟨hs, hP.same.trans ?_, ?_, ?_, ?_, hP.history⟩
  . exact (SameOn.update t c (fun b _ => unfailed_setFlag b isFailure_failedChild)).eraseTip c
  . apply flags_setFlag hwf hb hP.flags
    intro x
    have hmem : x ∈ ((t.update c (fun b => b.setFlag .failedChild)).eraseTip c).pnext c ↔ t.IsChild x c :=
      (hwf.pnext_eq_of_sameShape hs).trans hwf.mem_pnext
    cases b.isFailed with
    | true => simp
    | false => simp [hmem]
  . exact hP.sound.kill hkeep (fun b _ => canBeATip_of_isFailed (isFailed_setFlag isFailure_failedChild))
  . apply hP.complete.kill_pending hwf isFailure_failedChild hb
    intro p bp hpp hbp
    exact (hP.flags hb hpp hbp).pending (by simp)

/-- What a traversal has left when nothing is pending. -/
theorem Flagging.inv {min : BlockStateStatus} {v : Bool} (hP : Flagging t₀ v S S [] t) (hwf : t.WF)
    (hnodes : t₀.Nodes (NodeOk min [])) (hlevels : t₀.Edges LevelOk) : t.Inv min S where
  wf := hwf
  nodes := nodes_congr hP.same hnodes
  levels := levels_congr hP.same hlevels
  flags := by
    intro x b p bp hb hp hbp
    exact ⟨fun h => by simp at h, (hP.flags hb hp hbp).inherited⟩
  sound := hP.sound
  complete := hP.complete

theorem flagSubtree_spec {min : BlockStateStatus} {U : List Hash} {h prev : Hash}
    {r : BlockValidityStatus} {E : Assertion → Tree A → Prop} (ht : t.Inv min (h :: U))
    (hb : t.find? h = some b) (hp : b.pprev = some prev) (hr : isValidInvalidationReason r = true)
    (hE : b.isValidUpTo .canBeApplied = true → r ≠ .failedPop) :
    wp (flagSubtree h prev r)
      (fun _ t' => t'.Inv min U ∧ SameOn unfailed t t' ∧ t'.history = t.history) E t := by
  have hfail := isFailure_of_valid hr
  have hdead : ∀ b', t.find? h = some b' → (b'.setFlag r).canBeATip = false :=
    fun b' _ => canBeATip_of_isFailed (isFailed_setFlag hfail)
  have hkeep : KeepsShape (fun b : BlockIndex A => b.setFlag r) := keepsShape_setFlag r
  have hs := (SameShape.update t h hkeep).eraseTip h
  have hwf := ht.wf.congr hs
  have hlive : ¬((t.update h (fun b => b.setFlag r)).eraseTip h).Live h := by
    intro hl
    have hl := (live_update_self hb).mp hl
    rw [hdead b hb] at hl
    cases hl
  simp only [flagSubtree, wp_bind, wp_doInvalidate hb hE, wp_get, wp_modify]
  generalize ht1 : (t.update h (fun b => b.setFlag r)).eraseTip h = t1 at hs hwf hlive ⊢
  have hpnext : ∀ x, x ∈ t1.pnext h ↔ t.IsChild x h :=
    fun x => (ht.wf.pnext_eq_of_sameShape hs).trans ht.wf.mem_pnext
  -- the children of the flagged block are pending, the block before it may have become a tip
  have hP : Flagging t true U (prev :: U) (t1.pnext h ++ []) t1 := by
    rw [List.append_nil]
    refine ⟨?_, ?_, ?_, ?_, ?_⟩
    . rw [← ht1]
      exact (SameOn.update t h (fun b _ => unfailed_setFlag b hfail)).eraseTip h
    . have hedges : (t.update h (fun b => b.setFlag r)).Edges (FlagOk true (t1.pnext h)) := by
        refine ht.flags.update ht.wf hkeep ?_ ?_ ?_
        . intro b' p bp hb' hpp hbp hR
          refine ⟨fun hx => ?_, fun _ => ?_⟩
          . obtain ⟨b'', hb'', hpp''⟩ := (hpnext h).mp hx
            exact absurd rfl (ht.wf.ne_parent hb'' hpp'')
          . rw [← hR.inherited (by simp), setFlag_status]
            cases r with
            | failedBlock => rfl
            | failedPop => rfl
            | _ => simp [isValidInvalidationReason] at hr
        . intro x bx bp hbx hpx hbp hR
          exact ⟨fun _ => isFailed_setFlag hfail,
            fun hx => absurd ((hpnext x).mpr ⟨bx, hbx, hpx⟩) hx⟩
        . intro x bx bp hbx hpx hxh hR
          refine ⟨fun hx => ?_, fun _ => hR.inherited (by simp)⟩
          obtain ⟨bx', hbx', hpx'⟩ := (hpnext x).mp hx
          rw [hbx] at hbx'
          cases hbx'
          exact absurd hpx' hpx
      refine flags_congr ?_ hedges
      rw [← ht1]
      exact .of_blocks_eq rfl
    . refine TipsSound.settle ?_ hlive
      rw [← ht1]
      exact ht.sound.kill hkeep hdead
    . refine TipsComplete.settle (TipsComplete.mono (U := prev :: h :: U) ?_ (by simp)) hlive
      rw [← ht1]
      exact ht.complete.kill hkeep hdead (fun x hx => IsChild.unique ⟨b, hb, hp⟩ hx)
    . rw [← ht1]
      rfl
  refine wp_mono (((invalidateChild_expands t U (prev :: U) E).worksOff _).forEach _ [] t1 hwf hP ?_) ?_
    (fun _ _ h => h)
  . intro c hc
    obtain ⟨bc, hbc, _⟩ := hwf.mem_pnext.mp hc
    exact .maxHeight hbc
  . rintro _ t2 ⟨hs2, hP2⟩
    have hwf2 := hwf.congr hs2
    have hP3 : Flagging t true U U [] (t2.tryAddTip prev) := by
      refine ⟨hP2.same.tryAddTip prev, ?_, hP2.sound.tryAddTip_settled hwf2, hP2.complete.tryAddTip hwf2, ?_⟩
      . exact flags_congr (.of_blocks_eq tryAddTip_blocks) hP2.flags
      . rw [tryAddTip_history, hP2.history]
    exact ⟨hP3.inv (hwf2.congr (.of_blocks_eq tryAddTip_blocks)) ht.nodes ht.levels, hP3.same, hP3.history⟩

omit [BlockAddon A] in
/-- A block does not get worse when a flag is taken off it. -/
theorem isFailed_of_unsetFlag {b : BlockIndex A} {r : BlockValidityStatus}
    (h : (b.unsetFlag r).isFailed = true) : b.isFailed = true := by
  simp only [BlockIndex.isFailed, unsetFlag_status, BlockStatus.isFailed, Bool.or_eq_true] at h ⊢
  cases r with
  | failedBlock =>
    simp only [BlockStatus.assign, Bool.false_eq_true, false_or] at h
    cases h with
    | inl h => exact .inl (.inr h)
    | inr h => exact .inr h
  | failedPop =>
    simp only [BlockStatus.assign, Bool.false_eq_true, or_false] at h
    cases h with
    | inl h => exact .inl (.inl h)
    | inr h => exact .inr h
  | failedChild =>
    simp only [BlockStatus.assign, Bool.false_eq_true, or_false] at h
    exact .inl h
  | _ => simpa [BlockStatus.assign] using h

theorem canBeATip_unsetFlag {b : BlockIndex A} {r : BlockValidityStatus}
    (hr : r = .failedBlock ∨ r = .failedPop ∨ r = .failedChild) (h : b.canBeATip = true) :
    (b.unsetFlag r).canBeATip = true := by
  have hf : (b.unsetFlag r).isFailed = false := by
    rw [← Bool.not_eq_true]
    intro hf
    rw [canBeATip_of_isFailed (isFailed_of_unsetFlag hf)] at h
    cases h
  obtain ⟨hl, hd, _⟩ := clearFailed_level (clearFailed_assign b.status false hr)
  simp only [canBeATip, isDeleted, hasFlags, BlockStatus.hasFlags, isValid, isValidUpTo, hf,
    unsetFlag_status, hl, hd, Bool.not_false, Bool.true_and, Bool.and_eq_true] at h ⊢
  exact ⟨h.1, h.2.2⟩

omit [BlockAddon A] in
/-- Take the flag off a pending block. Its children are pending next, unless it is still failed. -/
theorem flags_unsetFlag {pend : List Hash} (hwf : t.WF) (hb : t.find? c = some b)
    (ht : t.Edges (FlagOk false (c :: rest)))
    (hpend : ∀ x, x ∈ pend ↔ ((b.unsetFlag .failedChild).isFailed = false ∧ t.IsChild x c) ∨ x ∈ rest) :
    (t.update c (fun b => b.unsetFlag .failedChild)).Edges (FlagOk false pend) := by
  refine ht.update hwf (keepsShape_unsetFlag _) ?_ ?_ ?_
  . intro b' p bp hb' hp hbp hR
    refine ⟨fun _ => hR.pending (by simp), fun _ => ?_⟩
    rw [hR.pending (by simp), unsetFlag_status]
    rfl
  . intro x bx bp hbx hpx hbp hR
    rw [hb] at hbp
    cases hbp
    have hxc : x ≠ c := (hwf.ne_parent hbx hpx).symm
    refine ⟨fun hx => ?_, fun hx => ?_⟩
    . rcases (hpend x).mp hx with ⟨hf, _⟩ | hx
      . exact hf
      . rw [← Bool.not_eq_true]
        intro hf
        have hbf := hR.pending (by simp [hx])
        rw [isFailed_of_unsetFlag hf] at hbf
        cases hbf
    . rw [hpend] at hx
      push Not at hx
      have hf : (b.unsetFlag .failedChild).isFailed = true := by
        rw [← Bool.not_eq_false]
        intro hf
        exact hx.1 hf ⟨bx, hbx, hpx⟩
      rw [hf, hR.inherited (by simp [hxc, hx.2]), isFailed_of_unsetFlag hf]
  . intro x bx bp hbx hpx hxc hR
    have hiff : x ∈ pend ↔ x ∈ c :: rest := by
      have hx : ¬t.IsChild x c := by
        rintro ⟨bx', hbx', hpx'⟩
        rw [hbx] at hbx'
        cases hbx'
        exact hpx hpx'
      simp [hpend, hxc, hx]
    exact ⟨fun hx => hR.pending (hiff.mp hx), fun hx => hR.inherited (fun h => hx (hiff.mpr h))⟩

/-- Taking a flag off a block whose children are all flagged. -/
theorem tips_unsetFlag {r : BlockValidityStatus} (hwf : t.WF) (hb : t.find? c = some b)
    (hr : r = .failedBlock ∨ r = .failedPop ∨ r = .failedChild) (hsound : t.TipsSound S)
    (hcomplete : t.TipsComplete S) (hchild : b.isFailed = true → t.NoLiveChild c) :
    ((t.update c (fun b => b.unsetFlag r)).tryAddTip c).TipsSound S ∧
      ((t.update c (fun b => b.unsetFlag r)).tryAddTip c).TipsComplete S := by
  have hkeep : KeepsShape (fun b : BlockIndex A => b.unsetFlag r) := keepsShape_unsetFlag r
  have hs := SameShape.update t c hkeep
  have hlive : ∀ b', t.find? c = some b' → b'.canBeATip = true → (b'.unsetFlag r).canBeATip = true :=
    fun b' _ => canBeATip_unsetFlag hr
  refine ⟨?_, (hcomplete.revive hkeep hlive).tryAddTip (hwf.congr hs)⟩
  cases hf : b.isFailed with
  | true =>
    refine (hsound.revive hkeep hlive).tryAddTip (hwf.congr hs) ?_
    intro _ x hx hlx
    have hx := (hs.isChild x c).mp hx
    have hxc : x ≠ c := by
      obtain ⟨bx, hbx, hpx⟩ := hx
      exact (hwf.ne_parent hbx hpx).symm
    exact hchild hf x hx ((live_update_of_ne hxc).mp hlx)
  | false =>
    -- the block was not failed, so nothing about the tips changes
    have hsame : ∀ b', t.find? c = some b' → (b'.unsetFlag r).canBeATip = b'.canBeATip := by
      intro b' hb'
      rw [hb] at hb'
      cases hb'
      have hf' : (b.unsetFlag r).isFailed = false := by
        rw [← Bool.not_eq_true]
        intro hf'
        rw [isFailed_of_unsetFlag hf'] at hf
        cases hf
      obtain ⟨hl, hd, _⟩ := clearFailed_level (clearFailed_assign b.status false hr)
      simp only [canBeATip, isDeleted, hasFlags, BlockStatus.hasFlags, isValid, isValidUpTo, hf, hf',
        unsetFlag_status, hl, hd]
    exact (hsound.congr (SameTips.update hkeep hsame)).tryAddTip_settled (hwf.congr hs)

theorem noLiveChild_of_flags {v : Bool} {pend : List Hash} (ht : t.Edges (FlagOk v pend))
    (hb : t.find? c = some b) (hf : b.isFailed = true) (hpend : ∀ x ∈ pend, ¬t.IsChild x c) :
    t.NoLiveChild c := by
  rintro x ⟨bx, hbx, hpx⟩ ⟨bx', hbx', hl⟩
  rw [hbx] at hbx'
  cases hbx'
  have hfc := (ht hbx hpx hb).inherited (fun hx => hpend x hx ⟨bx, hbx, hpx⟩)
  rw [hf] at hfc
  have hbxf : bx.isFailed = true := by
    simp [BlockIndex.isFailed, BlockStatus.isFailed, hfc]
  rw [canBeATip_of_isFailed hbxf] at hl
  cases hl

theorem revalidateChild_expands (t₀ : Tree A) (S : List Hash) (E : Assertion → Tree A → Prop) :
    Expands E (Flagging t₀ false S S) revalidateChild := by
  intro c rest t b hwf hP hb
  have hkeep : KeepsShape (fun b : BlockIndex A => b.unsetFlag .failedChild) := keepsShape_unsetFlag _
  have hs := (SameShape.update t c hkeep).tryAddTip c
  have hchild : b.isFailed = true → t.NoLiveChild c := by
    intro hf
    refine noLiveChild_of_flags hP.flags hb hf ?_
    -- a pending child would say that the block is not failed
    rintro x hx ⟨bx, hbx, hpx⟩
    have := (hP.flags hbx hpx hb).pending hx
    rw [hf] at this
    cases this
  obtain ⟨hsound, hcomplete⟩ := tips_unsetFlag hwf hb isFailure_failedChild hP.sound hP.complete hchild
  rw [wp_revalidateChild hb]
  refine ⟨hs, hP.same.trans ?_, ?_, hsound, hcomplete, ?_⟩
  . exact (SameOn.update t c (fun b _ => unfailed_unsetFlag b isFailure_failedChild)).tryAddTip c
  . refine flags_congr (.of_blocks_eq tryAddTip_blocks) (flags_unsetFlag hwf hb hP.flags ?_)
    intro x
    have hmem : x ∈ ((t.update c (fun b => b.unsetFlag .failedChild)).tryAddTip c).pnext c ↔
        t.IsChild x c := (hwf.pnext_eq_of_sameShape hs).trans hwf.mem_pnext
    cases (b.unsetFlag .failedChild).isFailed with
    | true => simp
    | false => simp [hmem]
  . rw [tryAddTip_history]
    exact hP.history

theorem unflagSubtree_spec {min : BlockStateStatus} {U : List Hash} {h : Hash}
    {r : BlockValidityStatus} {E : Assertion → Tree A → Prop} (ht : t.Inv min U)
    (hb : t.find? h = some b) (hr : isValidInvalidationReason r = true) (hbr : b.hasFlags r = true)
    (hclear : (b.status.assign false r).isFailed = false) :
    wp (unflagSubtree h r)
      (fun _ t' => t'.Inv min U ∧ SameOn unfailed t t' ∧ t'.history = t.history) E t := by
  have hfail := isFailure_of_valid hr
  have hkeep : KeepsShape (fun b : BlockIndex A => b.unsetFlag r) := keepsShape_unsetFlag r
  have hs := (SameShape.update t h hkeep).tryAddTip h
  have hwf := ht.wf.congr hs
  have hbf : b.isFailed = true := by
    rcases hfail with rfl | rfl | rfl
    all_goals simp [hasFlags, BlockStatus.hasFlags] at hbr
    all_goals simp [BlockIndex.isFailed, BlockStatus.isFailed, hbr]
  have hbf' : (b.unsetFlag r).isFailed = false := by
    rw [BlockIndex.isFailed, unsetFlag_status]
    exact hclear
  obtain ⟨hsound, hcomplete⟩ := tips_unsetFlag ht.wf hb hfail ht.sound ht.complete
    (fun hf => noLiveChild_of_flags ht.flags hb hf (by simp))
  simp only [unflagSubtree, wp_bind, wp_doReValidate, wp_get]
  generalize ht1 : (t.update h (fun b => b.unsetFlag r)).tryAddTip h = t1 at hs hwf hsound hcomplete ⊢
  have hpnext : ∀ x, x ∈ t1.pnext h ↔ t.IsChild x h :=
    fun x => (ht.wf.pnext_eq_of_sameShape hs).trans ht.wf.mem_pnext
  have hP : Flagging t false U U (t1.pnext h ++ []) t1 := by
    rw [List.append_nil]
    refine ⟨?_, ?_, hsound, hcomplete, ?_⟩
    . rw [← ht1]
      exact (SameOn.update t h (fun b _ => unfailed_unsetFlag b hfail)).tryAddTip h
    . have hedges : (t.update h (fun b => b.unsetFlag r)).Edges (FlagOk false (t1.pnext h)) := by
        refine ht.flags.update ht.wf hkeep ?_ ?_ ?_
        . intro b' p bp hb' hpp hbp hR
          refine ⟨fun hx => ?_, fun _ => ?_⟩
          . obtain ⟨b'', hb'', hpp''⟩ := (hpnext h).mp hx
            exact absurd rfl (ht.wf.ne_parent hb'' hpp'')
          . rw [← hR.inherited (by simp), unsetFlag_status]
            cases r with
            | failedBlock => rfl
            | failedPop => rfl
            | _ => simp [isValidInvalidationReason] at hr
        . intro x bx bp hbx hpx hbp hR
          rw [hb] at hbp
          cases hbp
          exact ⟨fun _ => hbf', fun hx => absurd ((hpnext x).mpr ⟨bx, hbx, hpx⟩) hx⟩
        . intro x bx bp hbx hpx hxh hR
          refine ⟨fun hx => ?_, fun _ => hR.inherited (by simp)⟩
          obtain ⟨bx', hbx', hpx'⟩ := (hpnext x).mp hx
          rw [hbx] at hbx'
          cases hbx'
          exact absurd hpx' hpx
      refine flags_congr ?_ hedges
      rw [← ht1]
      exact .of_blocks_eq tryAddTip_blocks
    . rw [← ht1, tryAddTip_history]
      rfl
  refine wp_mono (((revalidateChild_expands t U E).worksOff _).forEach _ [] t1 hwf hP ?_) ?_
    (fun _ _ h => h)
  . intro c hc
    obtain ⟨bc, hbc, _⟩ := hwf.mem_pnext.mp hc
    exact .maxHeight hbc
  . rintro _ t2 ⟨hs2, hP2⟩
    exact ⟨hP2.inv (hwf.congr hs2) ht.nodes ht.levels, hP2.same, hP2.history⟩

end Tree

end AltIntegration
