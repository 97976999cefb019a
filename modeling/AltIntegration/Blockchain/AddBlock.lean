import AltIntegration.Blockchain.Runs
import AltIntegration.Blockchain.TreeInvariants
import AltIntegration.Blockchain.PayloadIndices
import AltIntegration.Blockchain.Lemmas.AddBlock
import AltIntegration.Blockchain.Lemmas.Inherited

/-!
This module contains when the command `AddBlock` is atomic, and when `UnExecute` right after it restores the tree.
-/

namespace AltIntegration

open Program BlockIndex

variable {σ A S κ ρ : Type}

namespace Tree

/-- The blocks that are not deleted, their references and the tips are the same. -/
structure SameContents (refs : A → List Nat) (t t' : Tree A) : Prop where
  present : ∀ x, t'.Present x ↔ t.Present x
  refs : ∀ x b b', t.getBlockIndex x = some b → t'.getBlockIndex x = some b' → (refs b'.addon).Perm (refs b.addon)
  tips : ∀ x, x ∈ t'.tips ↔ x ∈ t.tips

/-- The flags of the blocks are the same, too. -/
structure Untouched (refs : A → List Nat) (t t' : Tree A) : Prop extends SameContents refs t t' where
  flags : ∀ x b b', t.getBlockIndex x = some b → t'.getBlockIndex x = some b' → b'.status = b.status

theorem Untouched.refl (refs : A → List Nat) (t : Tree A) : t.Untouched refs t := by
  refine ⟨⟨fun _ => .rfl, ?_, fun _ => .rfl⟩, ?_⟩
  . intro x b b' hb hb'
    rw [hb] at hb'
    cases hb'
    exact .refl _
  . intro x b b' hb hb'
    rw [hb] at hb'
    cases hb'
    rfl

section Tips

variable {k : BlockIndex A → κ} {t t' : Tree A} {h x : Hash} {min min' : BlockStateStatus}

/-- Blocks that are the same under `k` have the same failure flags, but for those that they inherit. -/
def TellsFailures (k : BlockIndex A → κ) : Prop :=
  ∀ ⦃b b'⦄, k b = k b' → b.status.failedBlock = b'.status.failedBlock ∧ b.status.failedPop = b'.status.failedPop ∧
    (b.pprev.isNone && b.status.failedChild) = (b'.pprev.isNone && b'.status.failedChild)

variable [BlockAddon A] {kept : A → ρ}

theorem Inv.isFailed_eq (ht : t.Inv min []) (ht' : t'.Inv min' []) (hk : Tells kept k) (hf : TellsFailures k)
    (hs : Elsewhere k h t t') (hh : ¬t.Present h) {b b' : BlockIndex A} (hb : t.find? x = some b)
    (hd : b.status.deleted = false) (hb' : t'.find? x = some b') : b'.isFailed = b.isFailed := by
  have hsame : ∀ {x b b'}, t.find? x = some b → b.status.deleted = false → t'.find? x = some b' → k b = k b' := by
    intro x b b' hb hd hb'
    obtain ⟨b₁, hb₁, heq⟩ := hs.find? (fun hx => hh ⟨b, hx ▸ hb, hd⟩) hb'
    rw [hb] at hb₁
    cases hb₁
    exact heq
  refine ht.wf.chain_induction (P := fun x => ∀ b b', t.find? x = some b → b.status.deleted = false →
    t'.find? x = some b' → b'.isFailed = b.isFailed) ?_ ?_ hb b b' hb hd hb'
  . intro x b₀ hb₀ hp b b' hb hd hb'
    rw [hb₀] at hb
    cases hb
    have heq := hsame hb₀ hd hb'
    obtain ⟨h1, h2, h3⟩ := hf heq
    have hp' : b'.pprev = none := (shape_eq_iff.mp (Prod.mk.inj (hk heq)).1).2.1.symm.trans hp
    rw [hp, hp'] at h3
    simp only [Option.isNone_none, Bool.true_and] at h3
    simp only [isFailed, BlockStatus.isFailed, h1, h2, h3]
  . intro x p hxp ih b b' hb hd hb'
    obtain ⟨b₁, hb₁, hp⟩ := hxp
    rw [hb] at hb₁
    cases hb₁
    have heq := hsame hb hd hb'
    obtain ⟨h1, h2, _⟩ := hf heq
    have hp' : b'.pprev = some p := (shape_eq_iff.mp (Prod.mk.inj (hk heq)).1).2.1.symm.trans hp
    obtain ⟨bp, hbp, _⟩ := ht.wf.parent hb hp
    obtain ⟨bp', hbp', _⟩ := ht'.wf.parent hb' hp'
    have hdp : bp.status.deleted = false := by
      rw [← Bool.not_eq_true]
      intro hdp
      rw [(ht.levels hb hp hbp).deleted hdp] at hd
      cases hd
    have hfail := ih bp bp' hbp hdp hbp'
    simp only [isFailed, BlockStatus.isFailed] at hfail
    simp only [isFailed, BlockStatus.isFailed, ← h1, ← h2, (ht.flags hb hp hbp).inherited List.not_mem_nil,
      (ht'.flags hb' hp' hbp').inherited List.not_mem_nil, hfail]

theorem Inv.live_iff (ht : t.Inv min []) (hl : BlockAddon.validTipLevel A = .validTree) :
    t.Live x ↔ ∃ b, t.find? x = some b ∧ b.status.deleted = false ∧ b.isFailed = false := by
  refine exists_congr (fun b => and_congr_right (fun hb => ?_))
  unfold canBeATip isValid isValidUpTo
  rw [hl, show b.isDeleted = b.status.deleted from rfl]
  constructor
  . intro hcan
    simp only [Bool.and_eq_true, Bool.not_eq_true'] at hcan
    exact ⟨hcan.1, hcan.2.1⟩
  . rintro ⟨hd, hv⟩
    rw [hd, hv]
    simpa using (ht.nodes hb).validTree hd

theorem Inv.live_elsewhere (ht : t.Inv min []) (ht' : t'.Inv min' []) (hl : BlockAddon.validTipLevel A = .validTree)
    (hk : Tells kept k) (hf : TellsFailures k) (hs : Elsewhere k h t t') (hh : ¬t.Present h) (hx : t.Live x) :
    t'.Live x := by
  obtain ⟨b, hb, hd, hv⟩ := (ht.live_iff hl).mp hx
  obtain ⟨b', hb', heq⟩ := hs.symm.find? (fun hx => hh ⟨b, hx ▸ hb, hd⟩) hb
  have hd' : b'.status.deleted = b.status.deleted := (Prod.mk.inj (Prod.mk.inj (hk heq)).2).1
  exact (ht'.live_iff hl).mpr ⟨b', hb', hd'.trans hd, (ht.isFailed_eq ht' hk hf hs hh hb hd hb').trans hv⟩

/-- Where nothing but the deleted block `h` has changed, the tips are the same. -/
theorem Inv.tips_elsewhere (ht : t.Inv min []) (ht' : t'.Inv min' []) (hl : BlockAddon.validTipLevel A = .validTree)
    (hk : Tells kept k) (hf : TellsFailures k) (hs : Elsewhere k h t t') (hh : ¬t.Present h) (hh' : ¬t'.Present h) :
    x ∈ t'.tips ↔ x ∈ t.tips := by
  have hlive : ∀ x, t'.Live x ↔ t.Live x :=
    fun x => ⟨ht'.live_elsewhere ht hl hk hf hs.symm hh', ht.live_elsewhere ht' hl hk hf hs hh⟩
  have hchild : ∀ {t t' : Tree A} {c : Hash}, Elsewhere k h t t' → c ≠ h → t'.IsChild c x → t.IsChild c x := by
    rintro t t' c hs hc ⟨b', hb', hp⟩
    obtain ⟨b, hb, heq⟩ := hs.find? hc hb'
    exact ⟨b, hb, (shape_eq_iff.mp (Prod.mk.inj (hk heq)).1).2.1.trans hp⟩
  have hne : ∀ {t : Tree A} {c : Hash}, ¬t.Present h → t.Live c → c ≠ h := by
    rintro t c hh hc rfl
    obtain ⟨b, hb, hcan⟩ := hc
    simp only [canBeATip, Bool.and_eq_true, Bool.not_eq_true'] at hcan
    exact hh ⟨b, hb, hcan.1⟩
  rw [ht.mem_tips_iff, ht'.mem_tips_iff, hlive]
  refine and_congr_right (fun _ => ⟨fun hno c hc hl => ?_, fun hno c hc hl => ?_⟩)
  . have hl' := (hlive c).mpr hl
    exact hno c (hchild hs.symm (hne hh hl) hc) hl'
  . have hl' := (hlive c).mp hl
    exact hno c (hchild hs (hne hh' hl) hc) hl'

end Tips

end Tree

namespace AddBlock.Outcome

variable [PowAddon A] [StoredAddon A S] {R : TreeRules A} {kept : A → ρ} {k : BlockIndex A → κ} {t t' : Tree A} {h : Hash}
  {min : BlockStateStatus}

omit [StoredAddon A S] in
theorem releasable (ho : AddBlock.Outcome R kept k h t t') (hs : t.SameContents R.refs t') : t.Releasable h := by
  cases ho with
  | released _ hr => exact hr
  | lost hp _ hgone => exact absurd ((hs.present h).mpr hp) hgone
  | undone _ hr => exact hr
  | left hp _ hp' => exact absurd ((hs.present h).mp hp') hp

theorem sameContents (ho : AddBlock.Outcome R kept k h t t') (hR : R.Counting kept) (hk : Tells kept k)
    (hf : Tree.TellsFailures k) (hl : BlockAddon.validTipLevel A = .validTree) (ht : t.Inv min [])
    (ht' : t'.history = t.history → t'.Inv min []) (hpop : ∀ b, t.find? h = some b → b.status.deleted = true →
      b.status.failedPop = false) (hr : t.Releasable h) : t.SameContents R.refs t' := by
  cases ho with
  | lost _ hr' _ => exact absurd hr hr'
  | left _ hr' _ => exact absurd hr hr'
  | released hp _ htips hs helse hrefs =>
    refine ⟨fun x => ?_, fun x b b' hb hb' => ?_, fun x => by rw [htips]⟩
    . constructor
      . rintro ⟨b', hb', hd⟩
        obtain ⟨b, hb, heq⟩ := hs.find? hb'
        exact ⟨b, hb, (congrArg BlockStatus.deleted (Prod.mk.inj heq).2).trans hd⟩
      . rintro ⟨b, hb, hd⟩
        obtain ⟨b', hb', heq⟩ := hs.symm.find? hb
        exact ⟨b', hb', (congrArg BlockStatus.deleted (Prod.mk.inj heq).2).trans hd⟩
    . have hb := (Tree.getBlockIndex_eq_some.mp hb).1
      have hb' := (Tree.getBlockIndex_eq_some.mp hb').1
      by_cases hx : x = h
      . subst hx
        exact hrefs b b' hb hb'
      . rw [helse x hx, hb] at hb'
        cases hb'
        exact .refl _
  | undone hp _ helse hgone hh _ =>
    have hinv : t'.Inv min [] := by
      apply ht'
      apply hh
      intro b hb
      apply hpop b hb
      rw [← Bool.not_eq_false]
      exact fun hd => hp ⟨b, hb, hd⟩
    have hne : ∀ {x b}, t.find? x = some b → b.status.deleted = false → x ≠ h :=
      fun hb hd hx => hp ⟨_, hx ▸ hb, hd⟩
    have hdel : ∀ {b b' : BlockIndex A}, k b = k b' → b.status.deleted = b'.status.deleted :=
      fun heq => (Prod.mk.inj (Prod.mk.inj (hk heq)).2).1
    refine ⟨fun x => ?_, fun x b b' hb hb' => ?_, fun x => ht.tips_elsewhere hinv hl hk hf helse hp hgone⟩
    . constructor
      . rintro ⟨b', hb', hd⟩
        obtain ⟨b, hb, heq⟩ := helse.find? (fun hx => hgone ⟨b', hx ▸ hb', hd⟩) hb'
        exact ⟨b, hb, (hdel heq).trans hd⟩
      . rintro ⟨b, hb, hd⟩
        obtain ⟨b', hb', heq⟩ := helse.symm.find? (hne hb hd) hb
        exact ⟨b', hb', (hdel heq).trans hd⟩
    . obtain ⟨hb, hd⟩ := Tree.getBlockIndex_eq_some.mp hb
      obtain ⟨hb', _⟩ := Tree.getBlockIndex_eq_some.mp hb'
      obtain ⟨b₁, hb₁, heq⟩ := helse.find? (hne hb hd) hb'
      rw [hb] at hb₁
      cases hb₁
      rw [hR.refs_eq (Prod.mk.inj (Prod.mk.inj (hk heq)).2).2]

end AddBlock.Outcome

/-- No soft-deleted block with `BLOCK_FAILED_POP` has been inserted again, and `h` is none. -/
structure Tree.Unspoiled (t : Tree A) (h : Hash) : Prop where
  restored : ¬t.RestoredFailedPop
  failedPop : ∀ b, t.find? h = some b → b.status.deleted = true → b.status.failedPop = false

theorem Tree.Unspoiled.failedPop_of_absent {t : Tree A} {h : Hash} (hu : t.Unspoiled h) (hp : ¬t.Present h) :
    ∀ b, t.find? h = some b → b.status.failedPop = false := by
  intro b hb
  apply hu.failedPop b hb
  rw [← Bool.not_eq_false]
  exact fun hd => hp ⟨b, hb, hd⟩

section Execute

variable [PowAddon A] [StoredAddon A S] {R : TreeRules A} {kept : A → ρ} {k : BlockIndex A → κ} {c : TreeClass σ A}
  {a : Around c.tree} {p : BlockTreeParams} {block : PowBlock} {n : Nat} {s s' s₁ : σ}

/-- `Execute` adds the reference in a state in which the tree satisfies its invariant. -/
theorem AddBlock.run_execute (hR : R.Keeping kept) (hk : Tells kept k) (hc : c.Leaves R k) (hlaw : c.Lawful a)
    (hmin : a.min = .connected) (hs : a.Holds .pow s) (hu : (c.tree.get s).Unspoiled block.getHash)
    (hready : (c.tree.get s).Unfailing R) (hrun : AddBlock.execute p c block n s = .ok true s₁) :
    ∃ s₀, AddBlock.Accepted R kept k c block s s₀ ∧
      s₁ = c.tree.set ((c.tree.get s₀).updateAddon block.getHash (PowAddon.addRef n)) s₀ ∧
      (c.tree.get s₀).Inv .connected [] ∧ (c.tree.get s₀).PowShape := by
  obtain ⟨s₀, hs₀, rfl⟩ := wlp_ok (AddBlock.wlp_execute hR hk hc hready) hrun rfl
  have hholds := wp_ok (hlaw.addBlock_execute (p := p) hmin block n () s hs) hrun
  have hsane := hholds.1
  rw [c.tree.get_set, hmin] at hsane
  have hsame := Tree.sameCore_updateAddon (c.tree.get s₀) block.getHash (PowAddon.addRef n)
  have hh : (c.tree.get s₀).history = (c.tree.get s).history := by
    cases hs₀ with
    | known _ => rfl
    | placed hp hplaced _ => exact hplaced.history (hu.failedPop_of_absent hp)
  rcases hsane with hspoiled | ⟨hinv, hpow⟩
  . exact absurd (hspoiled.of_history (hsame.history.trans hh).symm) hu.restored
  . exact ⟨s₀, hs₀, rfl, hinv.congr hsame.core.symm hsame.tips.symm, hpow.congr (hsame.core.symm.comp Prod.fst)⟩

/-- When `Execute` returns false, it has changed nothing, unless the parent of the block is invalid. -/
theorem AddBlock.untouched_iff (hR : R.PoW) (hn : (c.tree.get s).blocks.keys.Nodup)
    (hrun : AddBlock.execute p c block n s = .ok false s') :
    (c.tree.get s).Untouched R.refs (c.tree.get s') ↔ ¬LateRejected p block (c.tree.get s) := by
  rcases wlp_ok (AddBlock.wlp_execute_false hR hn) hrun rfl with ⟨rfl, hlate⟩ | ⟨hlate, habsent, hpresent⟩
  . exact ⟨fun _ => hlate, fun _ => .refl _ _⟩
  . constructor
    . exact fun ht => absurd ((ht.present _).mp hpresent) habsent
    . exact fun hno => absurd hlate hno

theorem AddBlock.run_unExecute (hR : R.Counting kept) (hk : Tells kept k) (hf : Tree.TellsFailures k)
    (hl : BlockAddon.validTipLevel A = .validTree) (hc : c.Leaves R k) (hlaw : c.Lawful a) (hmin : a.min = .connected)
    (hs : a.Holds .pow s) (hu : (c.tree.get s).Unspoiled block.getHash) (hready : (c.tree.get s).Unfailing R)
    (hrun : AddBlock.execute p c block n s = .ok true s₁) (hrun' : AddBlock.unExecute c block n s₁ = .ok () s') :
    AddBlock.Outcome R kept k block.getHash (c.tree.get s) (c.tree.get s') ∧
      ((c.tree.get s).SameContents R.refs (c.tree.get s') ↔ (c.tree.get s).Releasable block.getHash) := by
  have hinv : (c.tree.get s).Inv .connected [] := (hmin ▸ hs.1.resolve_left hu.restored).1
  have hs₁ := wp_ok (hlaw.addBlock_execute (p := p) hmin block n () s hs) hrun
  have hkeeps : wp (AddBlock.unExecute c block n) (fun _ => a.Holds .pow) a.Stops s₁ :=
    hlaw.addBlock_unExecute block n .pow s₁ hs₁
  have hs' := wp_ok hkeeps hrun'
  obtain ⟨s₀, hs₀, heq, hinv₀, _⟩ := AddBlock.run_execute hR.toKeeping hk hc hlaw hmin hs hu hready hrun
  have ho := wlp_ok (AddBlock.wlp_unExecute hR hk hc hinv.wf hinv₀.wf hready hs₀ heq) hrun'
  refine ⟨ho, ho.releasable, fun hr => ho.sameContents hR hk hf hl hinv ?_ hu.failedPop hr⟩
  intro hh
  have hsane := hs'.1
  rw [hmin] at hsane
  rcases hsane with hspoiled | ⟨hinv', _⟩
  . exact absurd (hspoiled.of_history hh.symm) hu.restored
  . exact hinv'

end Execute

variable {cfg : Config}

section Btc

/-- What the BTC tree keeps with a block -/
def btcKept (a : BtcAddon) : List Nat × List Endorsement := (a.refs, a.blockOfProofEndorsements)

theorem btcRules_counting : btcRules.Counting btcKept where
  toPoW := btcRules_pow
  setChainWork_kept _ _ := rfl
  empty_ids := rfl
  setNull_ids _ := rfl
  refs_eq h := (Prod.mk.inj h).1
  empty_refs := rfl
  refCount _ := rfl
  removeRef_addRef n a := by
    have hmem : n ∈ a.refs ++ [n] := List.mem_append_right _ (List.mem_singleton.mpr rfl)
    refine ⟨{ a with refs := (a.refs ++ [n]).erase n }, if_pos hmem, ?_, rfl⟩
    apply (List.perm_cons n).mp
    exact (List.perm_cons_erase hmem).symm.trans (List.perm_append_singleton n a.refs)

theorem btc_unfailing {t : Tree BtcAddon} (ht : t.blocks.keys.Nodup) : t.Unfailing btcRules :=
  ⟨ht, fun _ _ _ hids => absurd rfl hids⟩

theorem btcClass_leaves : (btcClass cfg).Leaves btcRules (fun b => b) := by
  have hset : ∀ (h : Hash) (t : Tree BtcAddon), t.Unfailing btcRules →
      wlp ((btcClass cfg).setState h) (fun _ t' => t.Unmoved btcRules (fun b => b) t') t :=
    fun h t ht => ⟨ht.of_blocks_eq rfl, .of_blocks_eq rfl, rfl⟩
  refine ⟨hset, fun h t ht => ?_, fun b => ⟨fun index => index, fun log => log, fun _ => rfl⟩⟩
  simp only [btcClass, determineBestChainByWork, wlp_bind, wlp_get, wlp_getOrStop, wlp_when, wlp_pure]
  exact fun _ _ => ⟨fun _ => hset h t ht, fun _ => ⟨ht, .refl t, rfl⟩⟩

theorem tells_btcKept : Tells btcKept (fun b => b) := by
  rintro b _ rfl
  rfl

theorem tellsFailures_id : Tree.TellsFailures (fun b : BlockIndex BtcAddon => b) := by
  rintro b _ rfl
  exact ⟨rfl, rfl, rfl⟩

section Total

variable {t t₀ : Tree BtcAddon} {block : PowBlock} {n : Nat}

/-- Fork resolution of BTC does not stop. -/
theorem twp_updateTips_btc (ht : t.Inv .connected []) (horder : ∀ n l, (cfg.btcTipsOrder n l).Perm l) :
    twp (updateTips (btcClass cfg)) (fun _ _ => True) t := by
  have hloop : ∀ (l : List Hash) (t' : Tree BtcAddon), t'.blocks = t.blocks → t'.tips = t.tips → (∀ x ∈ l, x ∈ t.tips) →
      twp (forEach (doUpdateTips.visitTip (btcClass cfg) t.tips) l) (fun _ _ => True) t' := by
    intro l t' hb htips hl
    apply twp_mono (twp_forEach (I := fun l (t' : Tree BtcAddon) => t'.blocks = t.blocks ∧ t'.tips = t.tips ∧
      ∀ x ∈ l, x ∈ t.tips) ?_ ⟨hb, htips, hl⟩)
    . exact fun _ _ _ => trivial
    . rintro tip l t' ⟨hb, htips, hl⟩
      have ht' : t'.Inv .connected [] := ht.congr (.of_blocks_eq hb) htips
      have htip : tip ∈ t'.tips := htips ▸ hl tip List.mem_cons_self
      obtain ⟨hlive, hchild⟩ := ht'.sound tip htip
      have hvalid : t'.isValidTip tip = true :=
        ht'.wf.isValidTip_iff.mpr ⟨hlive, fun c hc => hchild c hc List.not_mem_nil⟩
      obtain ⟨b, hfind, _⟩ := hlive
      have hrest : ∀ x ∈ l, x ∈ t.tips := fun x hx => hl x (List.mem_cons_of_mem tip hx)
      simp only [doUpdateTips.visitTip, TreeClass.getTree, btcClass, btcClass.setState, determineBestChainByWork, twp_bind,
        twp_get, twp_pure, twp_check, twp_getOrStop, twp_when, twp_modify]
      refine ⟨hvalid, b, hfind, fun _ => ⟨?_, hb, htips, hrest⟩, fun _ => ⟨?_, hb, htips, hrest⟩⟩
      . exact decide_eq_true htips
      . exact decide_eq_true htips
  simp only [updateTips, doUpdateTips, TreeClass.getTree, twp_bind, twp_get, twp_pure, twp_ite, twp_zoom, twp_modify]
  refine ⟨fun _ => ?_, fun _ => trivial⟩
  exact hloop _ _ rfl rfl (fun x hx => (horder _ _).mem_iff.mp hx)

theorem Tree.SameCore.standing {t t' : Tree A} (hs : t.SameCore t') : t.SameOn (·.standing (fun _ => ())) t' :=
  hs.core.comp (fun c : _ × BlockStatus => (c.1, c.2.deleted, ()))

/-- A leaf of BTC can always be taken away. -/
theorem twp_removeLeaf_btc {b : BlockIndex BtcAddon} {h prev : Hash} (ht : t.Inv .connected [])
    (horder : ∀ n l, (cfg.btcTipsOrder n l).Perm l) (hb : t.find? h = some b) (hd : b.status.deleted = false)
    (hprev : b.pprev = some prev) (hleaf : t.anyNext h (fun next => !next.isDeleted) = false) :
    twp (removeLeaf (btcClass cfg) h) (fun _ _ => True) t := by
  have hdelete : ∀ (t' : Tree BtcAddon) (isOnMainChain : Bool), t.SameCore t' →
      twp (do
        zoom (btcClass cfg).tree (deleteSubtree (btcClass cfg).onBeforeLeafRemoved h prev)
        when isOnMainChain (updateTips (btcClass cfg))) (fun _ _ => True) t' := by
    intro t' isOnMainChain hs
    have ht' : t'.Inv .connected [] := ht.congr hs.core hs.tips
    obtain ⟨b', hb', heq⟩ := hs.core.symm.find? hb
    have hd' : b'.status.deleted = false := hd ▸ congrArg BlockStatus.deleted (Prod.mk.inj heq).2
    have hleaf' : t'.anyNext h (fun next => !next.isDeleted) = false := hs.standing.leaf ht.wf hleaf
    have hrun := @run_deleteSubtree _ _ _ _ prev _ (btcClass cfg).onBeforeLeafRemoved hb' hd' hleaf'
    rw [twp_bind, twp_zoom, twp_iff]
    refine ⟨_, _, hrun, ?_⟩
    have hchild : t'.IsChild h prev := ⟨b', hb', (shape_eq_iff.mp (Prod.mk.inj heq).1).2.1.trans hprev⟩
    have hinv := wp_ok (Tree.deleteSubtree_spec (E := fun _ _ => True) ht' (btcClass_lawful cfg).onBeforeLeafRemoved
      (fun _ => trivial) hchild) hrun
    rw [twp_when]
    exact ⟨fun _ => twp_updateTips_btc hinv.1 horder, fun _ => trivial⟩
  simp only [removeLeaf, removeSubtree, TreeClass.getTree]
  rw [twp_bind, twp_bind, twp_get, twp_pure, twp_bind, twp_check]
  refine ⟨by rw [Bool.not_eq_true']; exact hleaf, ?_⟩
  rw [twp_bind, twp_bind, twp_get, twp_pure, twp_bind, twp_getOrStop]
  refine ⟨b, hb, ?_⟩
  rw [twp_bind, twp_getOrStop]
  refine ⟨prev, hprev, ?_⟩
  rw [twp_bind, twp_when]
  refine ⟨fun _ => ?_, fun _ => hdelete t _ (.refl t)⟩
  exact hdelete _ _ (Tree.sameCore_overrideTip t prev)

theorem canBeRemoved_iff_of_keptOf {h : Hash} {a : BtcAddon} (hkept : btcKept a = t.keptOf btcKept h) :
    PowAddon.canBeRemoved a = true ↔ ∀ b, t.find? h = some b → PowAddon.canBeRemoved b.addon = true := by
  unfold Tree.keptOf at hkept
  show a.blockOfProofEndorsements.isEmpty = true ↔ ∀ b, t.find? h = some b → b.addon.blockOfProofEndorsements.isEmpty = true
  cases hb : t.find? h with
  | none =>
    rw [hb] at hkept
    rw [show a.blockOfProofEndorsements = [] from (Prod.mk.inj hkept).2]
    simp
  | some b =>
    rw [hb] at hkept
    rw [show a.blockOfProofEndorsements = b.addon.blockOfProofEndorsements from (Prod.mk.inj hkept).2]
    simp

/-- A block that has been put back is a leaf. -/
theorem Tree.Placed.anyNext {h : Hash} (hp : t.Placed btcRules btcKept (fun b => b) h t₀) (ht : t.Inv .connected [])
    (habsent : ¬t.Present h) (ht₀ : t₀.WF) : t₀.anyNext h (fun next => !next.isDeleted) = false := by
  rw [ht₀.anyNext_eq_false_iff]
  intro c b hb hparent
  have hc : c ≠ h := by
    rintro rfl
    exact ht₀.ne_parent hb hparent rfl
  obtain ⟨b₁, hb₁, rfl⟩ := hp.elsewhere.find? hc hb
  obtain ⟨bp, hbp, _⟩ := ht.wf.parent hb₁ hparent
  have hdel : bp.status.deleted = true := by
    rw [← Bool.not_eq_false]
    exact fun hd => habsent ⟨bp, hbp, hd⟩
  rw [Bool.not_eq_false']
  exact (ht.levels hb₁ hparent hbp).deleted hdel

theorem Tree.Placed.hangs (hp : t.Placed btcRules btcKept (fun b => b) block.getHash t₀) (hpow : t₀.PowShape)
    (ht₀ : t₀.WF) (hprev : t.Present block.previousBlock) {b : BlockIndex BtcAddon} (hb : t₀.find? block.getHash = some b) :
    b.pprev = some block.previousBlock := by
  obtain ⟨prev, hfind, _⟩ := hprev
  obtain ⟨prev', hfind', _⟩ := hp.elsewhere.symm.find? (Nat.ne_of_lt (previousBlock_lt_getHash block)) hfind
  exact hpow.pprev ht₀ hb hfind'

/-- `AddBlock` can be undone on BTC where the block had references as long as it was in the tree. -/
theorem AddBlock.twp_unExecute_btc (ht : t.Inv .connected [])
    (hs₀ : AddBlock.Accepted btcRules btcKept (fun b => b) (btcClass cfg) block t t₀) (ht₀ : t₀.Inv .connected [])
    (hpow : t₀.PowShape) (horder : ∀ n l, (cfg.btcTipsOrder n l).Perm l) (hr : t.Releasable block.getHash)
    (hcan : ∀ b, t.find? block.getHash = some b → b.status.deleted = true → PowAddon.canBeRemoved b.addon = true) :
    twp (AddBlock.unExecute (btcClass cfg) block n) (fun _ _ => True)
      (t₀.updateAddon block.getHash (PowAddon.addRef n)) := by
  obtain ⟨b, hb, hd⟩ : t₀.Present block.getHash := by
    cases hs₀ with
    | known hp => exact hp
    | placed _ hp _ => exact hp.present
  obtain ⟨a, ha, hperm, hcana⟩ := btcRules_counting.removeRef_addRef n b.addon
  have hcount : PowAddon.refCount a = PowAddon.refCount b.addon := by
    rw [btcRules_counting.refCount, btcRules_counting.refCount, hperm.length_eq]
  have hindex : (t₀.updateAddon block.getHash (PowAddon.addRef n)).getBlockIndex block.getHash =
      some (b.setAddon (PowAddon.addRef n b.addon)) := by
    rw [Tree.getBlockIndex_eq_some]
    refine ⟨?_, hd⟩
    unfold Tree.updateAddon
    rw [Tree.find?_update_self, hb]
    rfl
  simp only [AddBlock.unExecute, TreeClass.getTree]
  rw [twp_bind, twp_bind, twp_get, twp_pure, twp_bind, twp_getOrStop]
  refine ⟨_, hindex, ?_⟩
  rw [twp_bind, twp_getOrStop]
  refine ⟨a, ha, ?_⟩
  rw [twp_bind, twp_zoom, twp_modify, twp_when]
  refine ⟨fun h0 => ?_, fun _ => trivial⟩
  have h0 : PowAddon.refCount b.addon = 0 := by simpa [hcount] using h0
  cases hs₀ with
  | known hp =>
    rw [(hr b hb).mp h0] at hd
    cases hd
  | placed habsent hp hprev =>
    have hsame : t₀.SameCore ((t₀.updateAddon block.getHash (PowAddon.addRef n)).updateAddon block.getHash (fun _ => a)) :=
      (Tree.sameCore_updateAddon _ _ _).trans (Tree.sameCore_updateAddon _ _ _)
    have hleaf := hsame.standing.leaf ht₀.wf (hp.anyNext ht habsent ht₀.wf)
    rw [twp_bind, twp_check]
    constructor
    . rw [hcana]
      obtain ⟨b', hb', _, hkept⟩ := hp.here
      have hbb : some b = some b' := hb.symm.trans hb'
      cases hbb
      apply (canBeRemoved_iff_of_keptOf hkept).mpr
      intro b₀ hb₀
      apply hcan b₀ hb₀
      rw [← Bool.not_eq_false]
      exact fun hd₀ => habsent ⟨b₀, hb₀, hd₀⟩
    . apply twp_removeLeaf_btc (b := (b.setAddon (PowAddon.addRef n b.addon)).setAddon a) (ht₀.congr hsame.core hsame.tips) horder
      . unfold Tree.updateAddon
        rw [Tree.find?_update_self, Tree.find?_update_self, hb]
        rfl
      . exact hd
      . exact hp.hangs (b := b) hpow ht₀.wf hprev hb
      . exact hleaf

/-- On BTC `AddBlock` is undone if the block had references as long as it was in the tree, and nothing else held it. -/
theorem AddBlock.restores_btc_iff (ht : t.Sane .connected .pow) (hu : t.Unspoiled block.getHash)
    (horder : ∀ n l, (cfg.btcTipsOrder n l).Perm l) {p : BlockTreeParams} {t₁ : Tree BtcAddon}
    (hrun : AddBlock.execute p (btcClass cfg) block n t = .ok true t₁) :
    (∃ t₂, AddBlock.unExecute (btcClass cfg) block n t₁ = .ok () t₂ ∧ t.SameContents btcRules.refs t₂) ↔
      t.Releasable block.getHash ∧ ∀ b, t.find? block.getHash = some b → b.status.deleted = true →
        PowAddon.canBeRemoved b.addon = true := by
  have hinv : t.Inv .connected [] := (ht.resolve_left hu.restored).1
  have hready : t.Unfailing btcRules := btc_unfailing hinv.wf.nodup
  have hundone : ∀ t₂, AddBlock.unExecute (btcClass cfg) block n t₁ = .ok () t₂ →
      AddBlock.Outcome btcRules btcKept (fun b => b) block.getHash t t₂ ∧
        (t.SameContents btcRules.refs t₂ ↔ t.Releasable block.getHash) :=
    fun t₂ hrun' => AddBlock.run_unExecute btcRules_counting tells_btcKept tellsFailures_id rfl btcClass_leaves
      (btcClass_lawful cfg) rfl ⟨ht, trivial⟩ hu hready hrun hrun'
  constructor
  . rintro ⟨t₂, hrun', hsame⟩
    obtain ⟨ho, hiff⟩ := hundone t₂ hrun'
    refine ⟨hiff.mp hsame, fun b hb hd => ?_⟩
    cases ho with
    | undone _ _ _ _ _ hcan =>
      obtain ⟨a, hkept, hcan⟩ := hcan
      exact (canBeRemoved_iff_of_keptOf hkept).mp hcan b hb
    | released hp _ _ _ _ _ =>
      obtain ⟨b', hb', hd'⟩ := hp
      rw [hb] at hb'
      cases hb'
      rw [hd] at hd'
      cases hd'
    | lost _ hr _ => exact absurd (hiff.mp hsame) hr
    | left _ hr _ => exact absurd (hiff.mp hsame) hr
  . rintro ⟨hr, hcan⟩
    obtain ⟨t₀, ht₀, ht₁, hinv₀, hpow₀⟩ := AddBlock.run_execute btcRules_counting.toKeeping tells_btcKept btcClass_leaves
      (btcClass_lawful cfg) rfl ⟨ht, trivial⟩ hu hready hrun
    have hreturns := AddBlock.twp_unExecute_btc (n := n) hinv ht₀ hinv₀ hpow₀ horder hr hcan
    obtain ⟨_, t₂, hrun', _⟩ := twp_iff.mp hreturns
    have hrun' : AddBlock.unExecute (btcClass cfg) block n t₁ = .ok () t₂ := ht₁ ▸ hrun'
    exact ⟨t₂, hrun', (hundone t₂ hrun').2.mpr hr⟩

end Total

end Btc

section Vbk

theorem vbkRules_counting : vbkRules.Counting vbkRules.refs where
  toPoW := vbkRules_pow
  setChainWork_kept _ _ := rfl
  empty_ids := rfl
  setNull_ids _ := rfl
  refs_eq h := h
  empty_refs := rfl
  refCount a := by
    show a.refCount = (List.replicate a.refCount 0).length
    rw [List.length_replicate]
  removeRef_addRef n a := by
    refine ⟨a, ?_, .refl _, rfl⟩
    simp [PowAddon.removeRef, PowAddon.addRef]

theorem tells_steady : Tells vbkRules.refs vbkRules.steady := by
  intro b b' heq
  obtain ⟨hbody, hrest⟩ := Prod.mk.inj heq
  obtain ⟨hshape, hflags⟩ := Prod.mk.inj hbody
  unfold BlockIndex.standing
  rw [hshape, (Prod.mk.inj (Prod.mk.inj hflags).2).1, (Prod.mk.inj hrest).1]

theorem tellsFailures_steady : Tree.TellsFailures vbkRules.steady := by
  intro b b' heq
  have hfailed := (Prod.mk.inj (Prod.mk.inj (Prod.mk.inj heq).2).2).2
  exact ⟨(Prod.mk.inj hfailed).1, (Prod.mk.inj (Prod.mk.inj hfailed).2).1, (Prod.mk.inj (Prod.mk.inj hfailed).2).2⟩

/-- Fork resolution of VBK changes no bodies, and fails only blocks whose payloads have never been applied. -/
theorem vbkClass_leaves : (vbkClass cfg).Leaves vbkRules vbkRules.steady := by
  have hkeeps : ∀ {α : Type} {m : M VbkState α} (s : VbkState), Stays (VbkState.Changes ⟨True, False, True, False⟩) m →
      s.vbk.Unfailing vbkRules → wlp m (fun _ s' => s.vbk.Unmoved vbkRules vbkRules.steady s'.vbk) s := by
    intro α m s hm hs
    apply wlp_mono (hm.wlp VbkState.lifts_vbk.refl s)
    intro _ s' hs'
    obtain ⟨happ, hsame, hh⟩ := hs'.vbk.steady id id hs.nodup hs.applied
    exact ⟨⟨hs'.vbk.nodup vbkRules_pow.toLawful hs.nodup, happ⟩, hsame, hh⟩
  exact
    { setState := fun h s hs => hkeeps s (vbkClass_obeys.setState h) hs
      determineBestChain := fun h s hs => hkeeps s (vbkClass_obeys.determineBestChain h) hs
      onBeforeLeafRemoved := vbkRules_pow.onBeforeLeafRemoved }

end Vbk

variable {s : AltState}

theorem Reachable.keyed (hs : Reachable cfg s) : s.Keyed := by
  obtain ⟨b, hb⟩ := hs.changes
  exact hb.keyed b.keyed_roots

namespace Small

def nextBtc : PowBlock := powBlock btcRoot.getHash 1 1

/-- The block after `forkVbk` -/
def afterFork : PowBlock := powBlock forkVbk.getHash 2 0

/-- `forkVbk` is in the tree without a reference. -/
def unreferenced : AltState := after [.vbkAcceptBlockHeader forkVbk]

/-- `forkVbk` is invalid. -/
def rejectedFork : AltState := after [.vbkAcceptBlockHeader forkVbk, .vbkInvalidateSubtree forkVbk.getHash .failedBlock true]

/-- A fork of VBK on which there are no VTBs. -/
def rivalVbk : Nat → PowBlock
  | 0 => powBlock vbkRoot.getHash 1 1
  | n + 1 => powBlock (rivalVbk n).getHash (n + 2) 1

/-- The fork of VBK that has a VTB twice falls behind. -/
def rivalForks : List Op :=
  [.acceptBlockHeader (altBlock 2 1 5), .acceptBlockHeader (altBlock 3 1 5),
    .acceptBlock 2 ⟨[rivalVbk 0, rivalVbk 1, forkVbk], [sharedVTB, ownVTB], []⟩, .acceptBlock 3 ⟨[forkVbk], [sharedVTB], []⟩,
    .setState 2, .comparePopScore 2 3, .acceptBlockHeader (altBlock 4 2 6),
    .acceptBlock 4 ⟨[rivalVbk 2, rivalVbk 3, rivalVbk 4, rivalVbk 5], [], []⟩, .setState 4]

def outgrown : AltState := finalState (Op.run config rivalForks) beforeKeystone

theorem outgrown_stops : stoppedIn (Op.run config rivalForks beforeKeystone) = none ∧
    returned (AddBlock.execute config.vbk (vbkClass config) (rivalVbk 6) 0 outgrown.sp) = some true ∧
    stoppedIn (AddBlock.unExecute (vbkClass config) (rivalVbk 6) 0
      (finalState (AddBlock.execute config.vbk (vbkClass config) (rivalVbk 6) 0) outgrown.sp)) =
        some .failedPopOfApplicableBlock := by
  decide +kernel

theorem outgrown_reachable : Reachable config outgrown := by
  have hstart : Reachable config beforeKeystone := .bootstrap (b := { bootstrap with alt := altBlock 1 0 4 }) rfl
  have hrun := outgrown_stops.1
  unfold outgrown finalState
  cases h : Op.run config rivalForks beforeKeystone with
  | ok _ s => exact hstart.run h
  | error e s =>
    rw [h] at hrun
    cases hrun

/-- `Execute` returns false and leaves the block in the tree, so that it returns true the next time. -/
theorem addBlock_rejectedFork : ∃ s₁ s₂, AddBlock.execute config.vbk (vbkClass config) afterFork 0 rejectedFork.sp = .ok false s₁ ∧
    AddBlock.execute config.vbk (vbkClass config) afterFork 0 s₁ = .ok true s₂ ∧
    ¬rejectedFork.sp.vbk.Untouched vbkRules.refs s₁.vbk := by
  refine ⟨_, _, ok_finalState (by decide +kernel), ok_finalState (by decide +kernel), fun hs => ?_⟩
  have hp := Tree.present_iff.mpr (Option.isSome_iff_exists.mp (show ((finalState (AddBlock.execute config.vbk
    (vbkClass config) afterFork 0) rejectedFork.sp).vbk.getBlockIndex afterFork.getHash).isSome = true by decide +kernel))
  exact Tree.absent_of_none (by decide +kernel) ((hs.present afterFork.getHash).mp hp)

/-- `UnExecute` takes a block away that was in the tree before. -/
theorem addBlock_unreferenced : ∃ s₁ s₂, AddBlock.execute config.vbk (vbkClass config) forkVbk 0 unreferenced.sp = .ok true s₁ ∧
    AddBlock.unExecute (vbkClass config) forkVbk 0 s₁ = .ok () s₂ ∧
    ¬unreferenced.sp.vbk.SameContents vbkRules.refs s₂.vbk := by
  refine ⟨_, _, ok_finalState (by decide +kernel), ok_finalState (by decide +kernel), fun hs => ?_⟩
  have hp := Tree.present_iff.mpr (Option.isSome_iff_exists.mp (show (unreferenced.sp.vbk.getBlockIndex
    forkVbk.getHash).isSome = true by decide +kernel))
  exact Tree.absent_of_none (by decide +kernel) ((hs.present forkVbk.getHash).mpr hp)

/-- `UnExecute` stops when the fork resolution after it comes to the fork that has a VTB twice. -/
theorem addBlock_outgrown : ∃ s₁ s₂, AddBlock.execute config.vbk (vbkClass config) (rivalVbk 6) 0 outgrown.sp = .ok true s₁ ∧
    AddBlock.unExecute (vbkClass config) (rivalVbk 6) 0 s₁ = .error .failedPopOfApplicableBlock s₂ := by
  have hrun := ok_finalState outgrown_stops.2.1
  obtain ⟨s₂, hstop⟩ := error_of_stoppedIn outgrown_stops.2.2
  exact ⟨_, s₂, hrun, hstop⟩

end Small

end AltIntegration
