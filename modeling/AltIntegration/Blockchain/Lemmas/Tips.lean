import AltIntegration.Blockchain.Lemmas.Tree

/-!
This module contains the facts about the set of tips: when it is sound (every tip is a valid tip), when
it is complete (every valid tip is in it), and what the operations on it do to both. While an
operation is under way a few blocks may be unsettled.
-/

namespace AltIntegration

open BlockIndex

namespace Tree

variable {A : Type} [BlockAddon A] {t t' : Tree A} {h x : Hash}
  {f : BlockIndex A → BlockIndex A} {U : List Hash}

/-- The block `x` can be a tip. -/
def Live (t : Tree A) (x : Hash) : Prop := ∃ b, t.find? x = some b ∧ b.canBeATip = true

/-- No block right after `x` can be a tip. -/
def NoLiveChild (t : Tree A) (x : Hash) : Prop := ∀ c, t.IsChild c x → ¬t.Live c

theorem WF.isValidTip_iff (ht : t.WF) : t.isValidTip x = true ↔ t.Live x ∧ t.NoLiveChild x := by
  unfold Tree.isValidTip
  rw [Bool.and_eq_true, Bool.not_eq_true', ht.anyNext_eq_false_iff]
  constructor
  . rintro ⟨hx, hc⟩
    refine ⟨?_, ?_⟩
    . cases hb : t.find? x with
      | none => simp [hb] at hx
      | some b => exact ⟨b, hb, by simpa [hb] using hx⟩
    . rintro c ⟨b, hb, hp⟩ ⟨b', hb', hlive⟩
      rw [hb] at hb'
      cases hb'
      rw [hc c b hb hp] at hlive
      cases hlive
  . rintro ⟨⟨b, hb, hlive⟩, hc⟩
    refine ⟨by simp [hb, hlive], ?_⟩
    intro c bc hbc hp
    rw [← Bool.not_eq_true]
    intro hlc
    exact hc c ⟨bc, hbc, hp⟩ ⟨bc, hbc, hlc⟩

/-- Every tip is a valid tip, but for its children in `U`. -/
def TipsSound (U : List Hash) (t : Tree A) : Prop :=
  ∀ x ∈ t.tips, t.Live x ∧ ∀ c, t.IsChild c x → c ∉ U → ¬t.Live c

/-- Every valid tip that is not in `U` is a tip. -/
def TipsComplete (U : List Hash) (t : Tree A) : Prop :=
  ∀ x, t.Live x → t.NoLiveChild x → x ∈ t.tips ∨ x ∈ U

/-- What the tips depend on is the same in both trees. -/
structure SameTips (t t' : Tree A) : Prop where
  tips : t'.tips = t.tips
  child : ∀ c x, t'.IsChild c x ↔ t.IsChild c x
  live : ∀ x, t'.Live x ↔ t.Live x

theorem TipsSound.congr (hs : SameTips t t') (ht : t.TipsSound U) : t'.TipsSound U := by
  intro x hx
  rw [hs.tips] at hx
  obtain ⟨hlive, hc⟩ := ht x hx
  refine ⟨(hs.live x).mpr hlive, ?_⟩
  intro c hcx hcU hlc
  exact hc c ((hs.child c x).mp hcx) hcU ((hs.live c).mp hlc)

theorem TipsComplete.congr (hs : SameTips t t') (ht : t.TipsComplete U) : t'.TipsComplete U := by
  intro x hx hn
  rw [hs.tips]
  refine ht x ((hs.live x).mp hx) ?_
  intro c hcx hlc
  exact hn c ((hs.child c x).mpr hcx) ((hs.live c).mpr hlc)

theorem TipsSound.mono {U' : List Hash} (ht : t.TipsSound U) (hU : U ⊆ U') : t.TipsSound U' := by
  intro x hx
  obtain ⟨hlive, hc⟩ := ht x hx
  exact ⟨hlive, fun c hcx hcU => hc c hcx (fun hmem => hcU (hU hmem))⟩

theorem TipsComplete.mono {U' : List Hash} (ht : t.TipsComplete U) (hU : U ⊆ U') :
    t.TipsComplete U' := by
  intro x hx hn
  cases ht x hx hn with
  | inl h => exact .inl h
  | inr h => exact .inr (hU h)

/-- A block that can not be a tip needs no exemption. -/
theorem TipsSound.settle (ht : t.TipsSound (h :: U)) (hh : ¬t.Live h) : t.TipsSound U := by
  intro x hx
  obtain ⟨hlive, hc⟩ := ht x hx
  refine ⟨hlive, ?_⟩
  intro c hcx hcU hlc
  by_cases heq : c = h
  . subst heq
    exact hh hlc
  . exact hc c hcx (by simp [heq, hcU]) hlc

theorem TipsComplete.settle (ht : t.TipsComplete (h :: U)) (hh : ¬t.Live h) : t.TipsComplete U := by
  intro x hx hn
  cases ht x hx hn with
  | inl hmem => exact .inl hmem
  | inr hmem =>
    cases List.mem_cons.mp hmem with
    | inl heq =>
      subst heq
      exact absurd hx hh
    | inr hmem => exact .inr hmem

section Update

theorem live_update_of_ne (hx : x ≠ h) : (t.update h f).Live x ↔ t.Live x := by
  unfold Live
  rw [find?_update_of_ne (fun heq => hx heq.symm)]

theorem live_update_self {b : BlockIndex A} (hb : t.find? h = some b) :
    (t.update h f).Live h ↔ (f b).canBeATip = true := by
  unfold Live
  rw [find?_update_self, hb]
  simp

/-- An update that does not touch whether the block can be a tip. -/
theorem SameTips.update (hf : KeepsShape f)
    (hlive : ∀ b, t.find? h = some b → (f b).canBeATip = b.canBeATip) :
    SameTips t (t.update h f) := by
  refine ⟨rfl, (SameShape.update t h hf).isChild, fun x => ?_⟩
  by_cases hx : x = h
  . subst hx
    cases hb : t.find? x with
    | none => simp [Live, hb]
    | some b =>
      rw [live_update_self hb, hlive b hb]
      simp [Live, hb]
  . exact live_update_of_ne hx

theorem SameTips.trans {t'' : Tree A} (hs : SameTips t t') (hs' : SameTips t' t'') : SameTips t t'' :=
  ⟨hs'.tips.trans hs.tips, fun c x => (hs'.child c x).trans (hs.child c x),
    fun x => (hs'.live x).trans (hs.live x)⟩

theorem SameTips.of_blocks_eq (hb : t'.blocks = t.blocks) (ht : t'.tips = t.tips) : SameTips t t' := by
  refine ⟨ht, ?_, ?_⟩
  . intro c x
    unfold IsChild Tree.find?
    rw [hb]
  . intro x
    unfold Live Tree.find?
    rw [hb]

end Update

section Erase

/-- Erasing a block that can not be a tip changes nothing. -/
theorem TipsSound.erase (ht : t.TipsSound U) : (t.eraseTip h).TipsSound U :=
  fun x hx => ht x (mem_eraseTip.mp hx).1

theorem TipsComplete.erase (ht : t.TipsComplete U) (hh : ¬t.Live h) : (t.eraseTip h).TipsComplete U := by
  intro x hx hn
  cases ht x hx hn with
  | inl hmem =>
    refine .inl (mem_eraseTip.mpr ⟨hmem, ?_⟩)
    rintro rfl
    exact hh hx
  | inr hmem => exact .inr hmem

/-- The block `h` has been changed such that it can not be a tip. -/
theorem TipsSound.kill (ht : t.TipsSound U) (hf : KeepsShape f)
    (hdead : ∀ b, t.find? h = some b → (f b).canBeATip = false) :
    ((t.update h f).eraseTip h).TipsSound U := by
  intro x hx
  obtain ⟨hx, hne⟩ := mem_eraseTip.mp hx
  obtain ⟨hlive, hc⟩ := ht x hx
  refine ⟨(live_update_of_ne hne).mpr hlive, ?_⟩
  intro c hcx hcU hlc
  by_cases heq : c = h
  . subst heq
    obtain ⟨b, hb, hp⟩ := ((SameShape.update t _ hf).isChild c x).mp hcx
    have hlc := (live_update_self hb).mp hlc
    rw [hdead b hb] at hlc
    cases hlc
  . exact hc c (((SameShape.update t _ hf).isChild c x).mp hcx) hcU ((live_update_of_ne heq).mp hlc)

/-- When `h` can not be a tip any more its parent may have become one. -/
theorem TipsComplete.kill {p : Hash} (ht : t.TipsComplete U) (hf : KeepsShape f)
    (hdead : ∀ b, t.find? h = some b → (f b).canBeATip = false) (hp : ∀ x, t.IsChild h x → x = p) :
    ((t.update h f).eraseTip h).TipsComplete (p :: U) := by
  intro x hx hn
  have hne : x ≠ h := by
    rintro rfl
    obtain ⟨b', hb', hl⟩ := hx
    rw [find?_eraseTip, find?_update_self] at hb'
    obtain ⟨b, hb, rfl⟩ := Option.map_eq_some_iff.mp hb'
    rw [hdead b hb] at hl
    cases hl
  by_cases hxp : x = p
  . exact .inr (by simp [hxp])
  . have hn' : t.NoLiveChild x := by
      intro c hcx hlc
      refine hn c (((SameShape.update t _ hf).isChild c x).mpr hcx) ((live_update_of_ne ?_).mpr hlc)
      rintro rfl
      exact hxp (hp x hcx)
    cases ht x ((live_update_of_ne hne).mp hx) hn' with
    | inl hmem => exact .inl (mem_eraseTip.mpr ⟨hmem, hne⟩)
    | inr hmem => exact .inr (by simp [hmem])

end Erase

section Revive

/-- The block `h` may have become able to be a tip. -/
theorem TipsSound.revive (ht : t.TipsSound U) (hf : KeepsShape f)
    (hlive : ∀ b, t.find? h = some b → b.canBeATip = true → (f b).canBeATip = true) :
    (t.update h f).TipsSound (h :: U) := by
  intro x hx
  obtain ⟨hl, hc⟩ := ht x hx
  refine ⟨?_, ?_⟩
  . by_cases heq : x = h
    . subst heq
      obtain ⟨b, hb, hl⟩ := hl
      exact (live_update_self hb).mpr (hlive b hb hl)
    . exact (live_update_of_ne heq).mpr hl
  . intro c hcx hcU hlc
    simp only [List.mem_cons, not_or] at hcU
    exact hc c (((SameShape.update t _ hf).isChild c x).mp hcx) hcU.2 ((live_update_of_ne hcU.1).mp hlc)

theorem TipsComplete.revive (ht : t.TipsComplete U) (hf : KeepsShape f)
    (hlive : ∀ b, t.find? h = some b → b.canBeATip = true → (f b).canBeATip = true) :
    (t.update h f).TipsComplete (h :: U) := by
  intro x hx hn
  by_cases heq : x = h
  . exact .inr (by simp [heq])
  . have hn' : t.NoLiveChild x := by
      intro c hcx hlc
      refine hn c (((SameShape.update t _ hf).isChild c x).mpr hcx) ?_
      by_cases hch : c = h
      . subst hch
        obtain ⟨b, hb, hl⟩ := hlc
        exact (live_update_self hb).mpr (hlive b hb hl)
      . exact (live_update_of_ne hch).mpr hlc
    cases ht x ((live_update_of_ne heq).mp hx) hn' with
    | inl hmem => exact .inl hmem
    | inr hmem => exact .inr (by simp [hmem])

end Revive

section TryAdd

@[simp]
theorem tryAddTip_blocks : (t.tryAddTip h).blocks = t.blocks := by
  unfold tryAddTip insertTip eraseTip
  repeat' split
  all_goals rfl

@[simp]
theorem find?_tryAddTip : (t.tryAddTip h).find? x = t.find? x := by
  unfold Tree.find?
  rw [tryAddTip_blocks]

theorem SameOn.tryAddTip {γ : Type} {g : BlockIndex A → γ} (hs : SameOn g t t') (h : Hash) :
    SameOn g t (t'.tryAddTip h) :=
  hs.trans (of_blocks_eq tryAddTip_blocks)

@[simp]
theorem tryAddTip_history : (t.tryAddTip h).history = t.history := by
  unfold tryAddTip insertTip eraseTip
  repeat' split
  all_goals rfl

theorem WF.mem_tryAddTip (ht : t.WF) (hv : t.isValidTip h = true) :
    x ∈ (t.tryAddTip h).tips ↔ x = h ∨ (x ∈ t.tips ∧ ¬t.IsChild h x) := by
  obtain ⟨⟨b, hb, _⟩, _⟩ := ht.isValidTip_iff.mp hv
  have hchild : t.IsChild h x ↔ b.pprev = some x := by
    unfold IsChild
    rw [hb]
    simp
  unfold tryAddTip
  rw [if_pos hv, hb, hchild]
  simp only [Option.bind_some]
  cases hp : b.pprev with
  | none =>
    simp only [mem_insertTip, reduceCtorEq, not_false_eq_true, and_true]
  | some p =>
    simp only [mem_insertTip, mem_eraseTip, Option.some.injEq]
    constructor
    . rintro (rfl | ⟨hx, hne⟩)
      . exact .inl rfl
      . exact .inr ⟨hx, fun heq => hne heq.symm⟩
    . rintro (rfl | ⟨hx, hne⟩)
      . exact .inl rfl
      . exact .inr ⟨hx, fun heq => hne heq.symm⟩

theorem tryAddTip_of_not_valid (hv : t.isValidTip h = false) : t.tryAddTip h = t := by
  unfold tryAddTip
  rw [hv]
  rfl

theorem sameTips_tryAddTip_live (t : Tree A) (h x : Hash) : (t.tryAddTip h).Live x ↔ t.Live x := by
  unfold Live Tree.find?
  rw [tryAddTip_blocks]

theorem sameTips_tryAddTip_child (t : Tree A) (h c x : Hash) :
    (t.tryAddTip h).IsChild c x ↔ t.IsChild c x := by
  unfold IsChild Tree.find?
  rw [tryAddTip_blocks]

/-- After `tryAddTip` a block without live children needs no exemption. -/
theorem TipsSound.tryAddTip (ht : t.TipsSound (h :: U)) (hwf : t.WF)
    (hh : t.Live h → t.NoLiveChild h) : (t.tryAddTip h).TipsSound U := by
  by_cases hlive : t.Live h
  . have hv := hwf.isValidTip_iff.mpr ⟨hlive, hh hlive⟩
    intro x hx
    rw [sameTips_tryAddTip_live]
    simp only [sameTips_tryAddTip_live, sameTips_tryAddTip_child]
    rcases (hwf.mem_tryAddTip hv).mp hx with rfl | ⟨hx, hnc⟩
    . exact ⟨hlive, fun c hcx _ => hh hlive c hcx⟩
    . obtain ⟨hlx, hc⟩ := ht x hx
      refine ⟨hlx, ?_⟩
      intro c hcx hcU
      refine hc c hcx ?_
      simp only [List.mem_cons, not_or]
      refine ⟨?_, hcU⟩
      rintro rfl
      exact hnc hcx
  . have hv : t.isValidTip h = false := by
      rw [← Bool.not_eq_true, hwf.isValidTip_iff]
      exact fun hl => hlive hl.1
    rw [tryAddTip_of_not_valid hv]
    exact ht.settle hlive

/-- `tryAddTip` on a block that needs no exemption. -/
theorem TipsSound.tryAddTip_settled (ht : t.TipsSound U) (hwf : t.WF) : (t.tryAddTip h).TipsSound U := by
  cases hv : t.isValidTip h with
  | false =>
    rw [tryAddTip_of_not_valid hv]
    exact ht
  | true =>
    obtain ⟨hlive, hnc⟩ := hwf.isValidTip_iff.mp hv
    exact (ht.mono (List.subset_cons_self h U)).tryAddTip hwf (fun _ => hnc)

theorem TipsComplete.tryAddTip (ht : t.TipsComplete (h :: U)) (hwf : t.WF) :
    (t.tryAddTip h).TipsComplete U := by
  intro x hx hn
  rw [sameTips_tryAddTip_live] at hx
  have hn' : t.NoLiveChild x := by
    intro c hcx hlc
    exact hn c ((sameTips_tryAddTip_child t h c x).mpr hcx) ((sameTips_tryAddTip_live t h c).mpr hlc)
  cases hv : t.isValidTip h with
  | false =>
    rw [tryAddTip_of_not_valid hv]
    cases ht x hx hn' with
    | inl hmem => exact .inl hmem
    | inr hmem =>
      cases List.mem_cons.mp hmem with
      | inl heq =>
        subst heq
        rw [← Bool.not_eq_true, hwf.isValidTip_iff] at hv
        exact absurd ⟨hx, hn'⟩ hv
      | inr hmem => exact .inr hmem
  | true =>
    rw [hwf.mem_tryAddTip hv]
    have hlive := (hwf.isValidTip_iff.mp hv).1
    cases ht x hx hn' with
    | inl hmem => exact .inl (.inr ⟨hmem, fun hcx => hn' h hcx hlive⟩)
    | inr hmem =>
      cases List.mem_cons.mp hmem with
      | inl heq => exact .inl (.inl heq)
      | inr hmem => exact .inr hmem

end TryAdd

end Tree

end AltIntegration
