import AltIntegration.Blockchain.Lemmas.SystemChanges

/-!
This module contains what the command `AddBlock` does to the blocks of a tree when it is executed and when it is
undone. The fork resolution in between leaves the blocks alone, as far as `k` can tell.
-/

namespace AltIntegration

open Program BlockIndex

variable {σ A S κ ρ : Type}

/-- Where a block stands, and what is kept with it -/
def BlockIndex.standing (kept : A → ρ) (b : BlockIndex A) : (Block × Option Hash × Nat) × Bool × ρ :=
  (b.shape, b.status.deleted, kept b.addon)

/-- Blocks that are the same under `k` stand the same. -/
def Tells (kept : A → ρ) (k : BlockIndex A → κ) : Prop :=
  ∀ ⦃b b'⦄, k b = k b' → b.standing kept = b'.standing kept

namespace Tree

variable {R : TreeRules A} {k : BlockIndex A → κ} {t t' t'' : Tree A} {h x : Hash} {f : BlockIndex A → BlockIndex A}
  {kept : A → ρ}

theorem present_iff : t.Present h ↔ ∃ b, t.getBlockIndex h = some b :=
  exists_congr (fun _ => getBlockIndex_eq_some.symm)

theorem absent_of_none (hnone : t.getBlockIndex h = none) : ¬t.Present h := by
  intro hp
  obtain ⟨b, hb⟩ := present_iff.mp hp
  rw [hnone] at hb
  cases hb

/-- Nothing but the block `h` has changed. -/
def Elsewhere (k : BlockIndex A → κ) (h : Hash) (t t' : Tree A) : Prop :=
  ∀ x, x ≠ h → (t'.find? x).map k = (t.find? x).map k

namespace Elsewhere

theorem trans (hs : Elsewhere k h t t') (hs' : Elsewhere k h t' t'') : Elsewhere k h t t'' :=
  fun x hx => (hs' x hx).trans (hs x hx)

theorem symm (hs : Elsewhere k h t t') : Elsewhere k h t' t := fun x hx => (hs x hx).symm

theorem of_blocks_eq (hb : t'.blocks = t.blocks) : Elsewhere k h t t' :=
  fun x _ => (SameOn.of_blocks_eq (g := k) hb).same x

theorem update : Elsewhere k h t (t.update h f) := by
  intro x hx
  rw [find?_update_of_ne hx.symm]

theorem find? (hs : Elsewhere k h t t') (hx : x ≠ h) {b' : BlockIndex A} (hb' : t'.find? x = some b') :
    ∃ b, t.find? x = some b ∧ k b = k b' := by
  have heq := hs x hx
  rw [hb'] at heq
  obtain ⟨b, hb, hk⟩ := Option.map_eq_some_iff.mp heq.symm
  exact ⟨b, hb, hk⟩

end Elsewhere

/-- A tree in which fork resolution does not fail a block. -/
structure Unfailing (R : TreeRules A) (t : Tree A) : Prop where
  nodup : t.blocks.keys.Nodup
  applied : t.PayloadsApplied R

namespace Unfailing

theorem of_blocks_eq (ht : t.Unfailing R) (hb : t'.blocks = t.blocks) : t'.Unfailing R := by
  refine ⟨hb ▸ ht.nodup, fun x b hx => ht.applied (x := x) ?_⟩
  unfold Tree.find? at hx ⊢
  rw [← hb]
  exact hx

theorem update (ht : t.Unfailing R) (hf : ∀ b, t.find? h = some b →
    R.payloadIds (f b).addon ≠ [] → R.payloadIds b.addon ≠ [] ∧ b.status.level ≤ (f b).status.level) :
    (t.update h f).Unfailing R := by
  refine ⟨?_, fun x b hb hids => ?_⟩
  . rw [show (t.update h f).blocks.keys = t.blocks.keys from Store.keys_modify _ _ _]
    exact ht.nodup
  . rw [find?_update] at hb
    split at hb
    . next heq =>
      subst heq
      obtain ⟨b', hb', rfl⟩ := Option.map_eq_some_iff.mp hb
      obtain ⟨hids', hl⟩ := hf b' hb' hids
      exact Nat.le_trans (ht.applied hb' hids') hl
    . exact ht.applied hb hids

theorem create [BlockAddon A] {header : Block} {prev : BlockIndex A} (ht : t.Unfailing R) (hnew : t.find? header.hash = none)
    (hempty : R.payloadIds BlockAddon.empty = []) : (t.createBlockIndex header prev).Unfailing R := by
  refine ⟨List.nodup_cons.mpr ⟨(Store.find?_eq_none_iff _ _).mp hnew, ht.nodup⟩, fun x b hb hids => ?_⟩
  rcases find?_createBlockIndex_cases hb with ⟨_, rfl⟩ | hb
  . exact absurd hempty hids
  . exact ht.applied hb hids

end Unfailing

/-- What fork resolution leaves alone. -/
structure Unmoved (R : TreeRules A) (k : BlockIndex A → κ) (t t' : Tree A) : Prop where
  ready : t'.Unfailing R
  same : t.SameOn k t'
  history : t'.history = t.history

theorem Unmoved.elsewhere (hs : Unmoved R k t t') : Elsewhere k h t t' := fun x _ => hs.same.same x

/-- What is kept with the block `h`, deleted or not -/
def keptOf [BlockAddon A] (kept : A → ρ) (t : Tree A) (h : Hash) : ρ :=
  (t.find? h).elim (kept BlockAddon.empty) (fun b => kept b.addon)

/-- The block `h` has been put back, and nothing else. -/
structure Placed [BlockAddon A] (R : TreeRules A) (kept : A → ρ) (k : BlockIndex A → κ) (h : Hash) (t t' : Tree A) :
    Prop where
  elsewhere : Elsewhere k h t t'
  here : ∃ b, t'.find? h = some b ∧ b.status.deleted = false ∧ kept b.addon = t.keptOf kept h
  history : (∀ b, t.find? h = some b → b.status.failedPop = false) → t'.history = t.history
  ready : t'.Unfailing R

namespace Placed

variable [BlockAddon A]

theorem present (hp : Placed R kept k h t t') : t'.Present h := by
  obtain ⟨b, hb, hd, _⟩ := hp.here
  exact ⟨b, hb, hd⟩

theorem of_fields (hp : Placed R kept k h t t') (hb : t''.blocks = t'.blocks) (hh : t''.history = t'.history) :
    Placed R kept k h t t'' := by
  refine ⟨hp.elsewhere.trans (.of_blocks_eq hb), ?_, fun hf => hh.trans (hp.history hf), hp.ready.of_blocks_eq hb⟩
  obtain ⟨b, hfind, hd, hkept⟩ := hp.here
  refine ⟨b, ?_, hd, hkept⟩
  unfold Tree.find? at hfind ⊢
  rw [hb]
  exact hfind

theorem update (hp : Placed R kept k h t t') (hd : ∀ b, (f b).status.deleted = b.status.deleted)
    (hf : ∀ b, kept (f b).addon = kept b.addon) (hids : ∀ b, R.payloadIds (f b).addon = R.payloadIds b.addon)
    (hl : ∀ b, t'.find? h = some b → b.status.level ≤ (f b).status.level) : Placed R kept k h t (t'.update h f) := by
  refine ⟨hp.elsewhere.trans .update, ?_, hp.history, hp.ready.update (fun b hb h => ⟨hids b ▸ h, hl b hb⟩)⟩
  obtain ⟨b, hb, hdel, hkept⟩ := hp.here
  refine ⟨f b, ?_, (hd b).trans hdel, (hf b).trans hkept⟩
  rw [find?_update_self, hb]
  rfl

/-- Fork resolution does not take it away. -/
theorem unmoved (hp : Placed R kept k h t t') (hk : Tells kept k) (hs : t'.Unmoved R k t'') : Placed R kept k h t t'' := by
  refine ⟨hp.elsewhere.trans hs.elsewhere, ?_, fun hf => hs.history.trans (hp.history hf), hs.ready⟩
  obtain ⟨b, hb, hdel, hkept⟩ := hp.here
  obtain ⟨b', hb', heq⟩ := hs.same.symm.find? hb
  have hstand := Prod.mk.inj (Prod.mk.inj (hk heq)).2
  exact ⟨b', hb', hstand.1.trans hdel, hstand.2.trans hkept⟩

end Placed

end Tree

/-- What is kept with a block does not concern its work, and a block without payloads has no payload ids. -/
structure TreeRules.Keeping [PowAddon A] [StoredAddon A S] (R : TreeRules A) (kept : A → ρ) : Prop extends R.PoW where
  setChainWork_kept : ∀ w a, kept (PowAddon.setChainWork w a) = kept a
  empty_ids : R.payloadIds BlockAddon.empty = []
  setNull_ids : ∀ a, R.payloadIds (BlockAddon.setNull a) = []

/-- The rules of a tree whose blocks keep nothing -/
def bareRules : TreeRules A where
  onBeforeLeafRemoved _ t := t
  payloadIds _ := []
  refs _ := []
  payloads _ _ := False
  drafts _ _ := False

theorem bareRules_keeping [PowAddon A] [StoredAddon A S] {R : TreeRules A} (hR : R.PoW) :
    (bareRules : TreeRules A).Keeping (fun _ => ()) where
  onBeforeLeafRemoved _ := ⟨fun index => index, fun log => log, fun _ => rfl⟩
  payloads _ _ h := (h.elim id id).elim
  keys _ _ h := (h.elim id id).elim
  setChainWork_ids _ _ := rfl
  setChainWork_refs _ _ := rfl
  setChainWork_stored := hR.setChainWork_stored
  addRef_ids _ _ := rfl
  removeRef_ids _ _ _ _ := rfl
  setBlockOfProofEndorsements_ids _ _ := rfl
  setBlockOfProofEndorsements_refs _ _ := rfl
  setChainWork_kept _ _ := rfl
  empty_ids := rfl
  setNull_ids _ := rfl

section Insert

variable [PowAddon A] [StoredAddon A S] {R : TreeRules A} {kept : A → ρ} {k : BlockIndex A → κ} {t t₀ : Tree A} {h : Hash}
  {b : BlockIndex A} {p : BlockTreeParams} {block : PowBlock}

omit [StoredAddon A S] in
theorem wlp_raiseValidity_placed {upTo : BlockStateStatus} (hp : Tree.Placed R kept k h t₀ t) :
    wlp (raiseValidity h upTo) (fun _ => Tree.Placed R kept k h t₀) t := by
  obtain ⟨b, hb, _⟩ := hp.here
  apply wlp_raiseValidity hb
  . exact fun _ => hp
  . intro _ hlow
    apply hp.update
    . exact fun _ => rfl
    . exact fun _ => rfl
    . exact fun _ => rfl
    . intro b' hb'
      rw [hb] at hb'
      cases hb'
      exact Nat.le_of_lt hlow

theorem wlp_insertRestored_placed (hR : R.Keeping kept) {header : Block} (helse : Tree.Elsewhere k header.hash t₀ t)
    (hready : t.Unfailing R) (hb : t.find? header.hash = some b) (hkept : kept b.addon = t₀.keptOf kept header.hash)
    (hh : t.history = t₀.history)
    (hpop : (∀ b, t₀.find? header.hash = some b → b.status.failedPop = false) → b.status.failedPop = false) :
    wlp (insertBlockHeader.insertRestored (Tree.onBlockInserted p) header)
      (fun _ => Tree.Placed R kept k header.hash t₀) t := by
  have hrest : ∀ t1 : Tree A, t1.blocks = t.blocks →
      ((∀ b, t₀.find? header.hash = some b → b.status.failedPop = false) → t1.history = t₀.history) →
      Tree.Placed R kept k header.hash t₀ (t1.update header.hash (fun b => b.unsetFlag .deleted)) := by
    intro t1 hb1 hh1
    have haddon : ∀ b : BlockIndex A, (b.unsetFlag .deleted).addon = b.addon := fun b => setStatus_addon b _
    refine ⟨(helse.trans (.of_blocks_eq hb1)).trans .update, ⟨b.unsetFlag .deleted, ?_, ?_, ?_⟩, hh1, ?_⟩
    . have hfind : t1.find? header.hash = some b := by
        unfold Tree.find? at hb ⊢
        rw [hb1]
        exact hb
      rw [Tree.find?_update_self, hfind]
      rfl
    . rw [unsetFlag_status]
      rfl
    . rw [haddon]
      exact hkept
    . apply (hready.of_blocks_eq hb1).update
      intro b _ hids
      rw [haddon] at hids
      rw [unsetFlag_status]
      exact ⟨hids, Nat.le_refl _⟩
  simp only [insertBlockHeader.insertRestored, restore, wlp_bind, wlp_derefBlock, wlp_check, wlp_when, wlp_modify,
    wlp_modifyBlock, wlp_pure]
  intro b' hb' _
  rw [hb] at hb'
  cases hb'
  have hlast : ∀ t1 : Tree A, Tree.Placed R kept k header.hash t₀ t1 →
      wlp (raiseValidity header.hash .validTree) (fun _ => Tree.Placed R kept k header.hash t₀)
        (Tree.onBlockInserted p header.hash (t1.tryAddTip header.hash)) := by
    intro t1 ht1
    apply wlp_raiseValidity_placed
    apply Tree.Placed.update
    . exact ht1.of_fields Tree.tryAddTip_blocks Tree.tryAddTip_history
    . exact fun _ => rfl
    . exact fun _ => hR.setChainWork_kept _ _
    . exact fun _ => hR.setChainWork_ids _ _
    . exact fun _ _ => Nat.le_refl _
  constructor
  . intro hf
    apply hlast
    apply hrest (t.record (.restoredFailedPop header.hash)) rfl
    intro hall
    rw [show b.hasFlags .failedPop = b.status.failedPop from rfl, hpop hall] at hf
    cases hf
  . intro _
    apply hlast
    exact hrest t rfl (fun _ => hh)

theorem wlp_insertBlockHeader_placed (hR : R.Keeping kept) (hready : t.Unfailing R)
    (hnone : t.getBlockIndex block.getHash = none) :
    wlp (insertBlockHeader (Tree.onBlockInserted p) block.toBlock) (fun _ => Tree.Placed R kept k block.getHash t) t := by
  simp only [insertBlockHeader, wlp_bind, wlp_check, wlp_get]
  intro _
  split
  . next current hcurrent =>
    have hcurrent : t.find? block.getHash = some current := hcurrent
    rw [wlp_ite]
    constructor
    . intro _
      rw [wlp_bind, wlp_check]
      intro _
      apply wlp_insertRestored_placed hR (fun _ _ => rfl) hready hcurrent ?_ rfl (fun hall => hall current hcurrent)
      unfold Tree.keptOf
      rw [show block.toBlock.hash = block.getHash from rfl, hcurrent]
      rfl
    . intro hd
      have hsome : t.getBlockIndex block.getHash = some current :=
        Tree.getBlockIndex_eq_some.mpr ⟨hcurrent, (Bool.not_eq_true _).mp hd⟩
      rw [hnone] at hsome
      cases hsome
  . next hnew =>
    have hnew : t.find? block.getHash = none := hnew
    simp only [doInsertBlockHeader, wlp_bind, wlp_get, wlp_getOrStop, wlp_modify]
    intro prev _
    apply wlp_insertRestored_placed hR (b := .create block.toBlock prev)
    . intro x hx
      rw [Tree.find?_createBlockIndex, if_neg hx.symm]
    . exact hready.create hnew hR.empty_ids
    . rw [Tree.find?_createBlockIndex, if_pos rfl]
    . unfold Tree.keptOf
      rw [show block.toBlock.hash = block.getHash from rfl, hnew]
      rfl
    . rfl
    . exact fun _ => rfl

end Insert

/-- The header passes the checks, and then its parent turns out to be invalid. -/
structure LateRejected [PowAddon A] (p : BlockTreeParams) (block : PowBlock) (t : Tree A) : Prop where
  checked : p.checkBlock block.toBlock = true
  context : p.contextuallyCheckBlock (t.headers block.previousBlock) block.toBlock = some true
  parent : ∃ prev, t.getBlockIndex block.previousBlock = some prev ∧ prev.isValid = false

section Execute

variable [PowAddon A] [StoredAddon A S] {R : TreeRules A} {kept : A → ρ} {k : BlockIndex A → κ} {t : Tree A}
  {p : BlockTreeParams} {block : PowBlock} {n : Nat} {s s' : σ} {c : TreeClass σ A}

/-- What `validateAndAddBlock` does to a tree that does not have the block -/
theorem wlp_validateAndAddBlock_placed (hR : R.Keeping kept) (hready : t.Unfailing R)
    (hnone : t.getBlockIndex block.getHash = none) :
    wlp (validateAndAddBlock p block true) (fun ok t' =>
      if ok then Tree.Placed R kept k block.getHash t t' ∧ t.Present block.previousBlock
      else t' = t ∧ ¬LateRejected p block t ∨ LateRejected p block t ∧ t'.Present block.getHash) t := by
  simp only [validateAndAddBlock, wlp_bind, wlp_get, wlp_ite, wlp_pure]
  refine ⟨fun hcheck => ?_, fun hcheck => ?_⟩
  . apply Or.inl
    refine ⟨trivial, fun hlate => ?_⟩
    rw [hlate.checked] at hcheck
    cases hcheck
  . split
    . next hprev =>
      apply Or.inl
      refine ⟨rfl, fun hlate => ?_⟩
      obtain ⟨prev, hprev', _⟩ := hlate.parent
      rw [hprev] at hprev'
      cases hprev'
    . next prev hprev =>
      simp only [wlp_bind, wlp_getOrStop, wlp_ite, wlp_pure, wlp_modifyBlock, wlp_modify]
      intro ok hcontext
      refine ⟨fun hok => ?_, fun hok => ?_⟩
      . apply Or.inl
        refine ⟨trivial, fun hlate => ?_⟩
        have hsome := hlate.context.symm.trans hcontext
        cases hsome
        cases hok
      . apply wlp_mono (wlp_insertBlockHeader_placed (k := k) hR hready hnone)
        intro _ t1 ht1
        apply wlp_mono (wlp_raiseValidity_placed ht1)
        intro _ t2 ht2
        refine ⟨fun hinvalid => ?_, fun _ => ⟨ht2, Tree.present_iff.mpr ⟨prev, hprev⟩⟩⟩
        apply Or.inr
        constructor
        . refine ⟨by simpa using hcheck, ?_, prev, hprev, by simpa using hinvalid⟩
          rw [show ok = true by simpa using hok] at hcontext
          exact hcontext
        . obtain ⟨b, hb, hd⟩ := ht2.present
          refine ⟨b.setFlag .failedChild, ?_, ?_⟩
          . show (t2.update block.getHash _).find? block.getHash = _
            rw [Tree.find?_update_self, hb]
            rfl
          . rw [setFlag_status]
            exact hd

/-- What the virtual functions of a tree leave alone. -/
structure TreeClass.Leaves (c : TreeClass σ A) (R : TreeRules A) (k : BlockIndex A → κ) : Prop where
  setState : ∀ h s, (c.tree.get s).Unfailing R → wlp (c.setState h) (fun _ s' => (c.tree.get s).Unmoved R k (c.tree.get s')) s
  determineBestChain : ∀ h s, (c.tree.get s).Unfailing R →
    wlp (c.determineBestChain h) (fun _ s' => (c.tree.get s).Unmoved R k (c.tree.get s')) s
  onBeforeLeafRemoved : Tree.OnlyPayloadsIndex c.onBeforeLeafRemoved

theorem wlp_acceptBlockHeader_placed (hR : R.Keeping kept) (hk : Tells kept k) (hc : c.Leaves R k)
    (hready : (c.tree.get s).Unfailing R) (hnone : (c.tree.get s).getBlockIndex block.getHash = none) :
    wlp (acceptBlockHeader p c block) (fun ok s' => ok = true →
      Tree.Placed R kept k block.getHash (c.tree.get s) (c.tree.get s') ∧ (c.tree.get s).Present block.previousBlock) s := by
  rw [acceptBlockHeader, wlp_bind, wlp_zoom]
  apply wlp_mono (wlp_validateAndAddBlock_placed (k := k) hR hready hnone)
  intro ok t1 ht1
  cases ok with
  | false => exact fun hf => absurd hf Bool.false_ne_true
  | true =>
    rw [if_pos rfl] at ht1
    rw [if_pos rfl, wlp_bind, wlp_zoom, wlp_modify, wlp_bind, c.tree.get_set]
    have htip : Tree.Placed R kept k block.getHash (c.tree.get s) (t1.tryAddTip block.getHash) :=
      ht1.1.of_fields Tree.tryAddTip_blocks Tree.tryAddTip_history
    have hbest := hc.determineBestChain block.getHash (c.tree.set (t1.tryAddTip block.getHash) (c.tree.set t1 s))
    rw [c.tree.get_set] at hbest
    apply wlp_mono (hbest htip.ready)
    intro _ s2 hs2 _
    exact ⟨htip.unmoved hk hs2, ht1.2⟩

/-- The state in which `Execute` adds the reference: the block was there, or it has been put back. -/
inductive AddBlock.Accepted (R : TreeRules A) (kept : A → ρ) (k : BlockIndex A → κ) (c : TreeClass σ A) (block : PowBlock)
    (s : σ) : σ → Prop where
  | known (hp : (c.tree.get s).Present block.getHash) : Accepted R kept k c block s s
  | placed {s' : σ} (hp : ¬(c.tree.get s).Present block.getHash)
      (hs : Tree.Placed R kept k block.getHash (c.tree.get s) (c.tree.get s'))
      (hprev : (c.tree.get s).Present block.previousBlock) : Accepted R kept k c block s s'

theorem AddBlock.wlp_execute (hR : R.Keeping kept) (hk : Tells kept k) (hc : c.Leaves R k)
    (hready : (c.tree.get s).Unfailing R) :
    wlp (AddBlock.execute p c block n) (fun ok s' => ok = true → ∃ s0, AddBlock.Accepted R kept k c block s s0 ∧
      s' = c.tree.set ((c.tree.get s0).updateAddon block.getHash (PowAddon.addRef n)) s0) s := by
  simp only [execute, TreeClass.getTree, wlp_bind, wlp_get, wlp_pure]
  have haccept : wlp (execute.acceptUnknown p c block (c.tree.get s))
      (fun ok s' => ok = true → AddBlock.Accepted R kept k c block s s') s := by
    unfold execute.acceptUnknown
    split
    . next b hb => exact fun _ => .known (Tree.present_iff.mpr ⟨b, hb⟩)
    . next hnone =>
      apply wlp_mono (wlp_acceptBlockHeader_placed hR hk hc hready hnone)
      exact fun ok s' hs' hok => .placed (Tree.absent_of_none hnone) (hs' hok).1 (hs' hok).2
  apply wlp_mono haccept
  intro ok s1 hs1
  cases ok with
  | false => exact fun hf => absurd hf Bool.false_ne_true
  | true =>
    simp only [if_true, wlp_bind, wlp_get, wlp_pure, wlp_check, wlp_zoom, wlp_modify]
    exact fun _ _ => ⟨s1, hs1 rfl, rfl⟩

/-- When `Execute` returns false, nothing has changed, or the block is in the tree after all. -/
theorem AddBlock.wlp_execute_false (hR : R.PoW) (hn : (c.tree.get s).blocks.keys.Nodup) :
    wlp (AddBlock.execute p c block n) (fun ok s' => ok = false →
      s' = s ∧ ¬LateRejected p block (c.tree.get s) ∨ LateRejected p block (c.tree.get s) ∧
        ¬(c.tree.get s).Present block.getHash ∧ (c.tree.get s').Present block.getHash) s := by
  have hbare : (bareRules : TreeRules A).Keeping (fun _ => ()) := bareRules_keeping hR
  have hready : (c.tree.get s).Unfailing bareRules := ⟨hn, fun _ _ _ hids => absurd rfl hids⟩
  simp only [execute, TreeClass.getTree, wlp_bind, wlp_get, wlp_pure]
  have haccept : wlp (execute.acceptUnknown p c block (c.tree.get s)) (fun ok s' => ok = false →
      s' = s ∧ ¬LateRejected p block (c.tree.get s) ∨ LateRejected p block (c.tree.get s) ∧
        ¬(c.tree.get s).Present block.getHash ∧ (c.tree.get s').Present block.getHash) s := by
    unfold execute.acceptUnknown
    split
    . exact fun hf => absurd hf.symm Bool.false_ne_true
    . next hnone =>
      rw [acceptBlockHeader, wlp_bind, wlp_zoom]
      apply wlp_mono (wlp_validateAndAddBlock_placed (k := fun b => b) hbare hready hnone)
      intro ok t1 ht1
      cases ok with
      | true =>
        rw [if_pos rfl, wlp_bind, wlp_zoom, wlp_modify, wlp_bind]
        exact wlp_iff.mpr (fun _ _ _ hf => absurd hf.symm Bool.false_ne_true)
      | false =>
        rw [if_neg Bool.false_ne_true] at ht1 ⊢
        rw [wlp_pure, c.tree.get_set]
        intro _
        rcases ht1 with ⟨rfl, hlate⟩ | ⟨hlate, hp⟩
        . exact .inl ⟨c.tree.set_get s, hlate⟩
        . exact .inr ⟨hlate, Tree.absent_of_none hnone, hp⟩
  apply wlp_mono haccept
  intro ok s1 hs1
  cases ok with
  | false => exact hs1
  | true =>
    simp only [if_true, wlp_bind, wlp_get, wlp_pure, wlp_check, wlp_zoom, wlp_modify]
    exact fun _ hf => absurd hf.symm Bool.false_ne_true

end Execute

namespace Tree

variable {R : TreeRules A} {k : BlockIndex A → κ} {kept : A → ρ} {t t' t'' : Tree A} {h : Hash}

/-- The block `h` has been taken away, and nothing else. -/
structure Removed (R : TreeRules A) (k : BlockIndex A → κ) (h : Hash) (t t' : Tree A) : Prop where
  elsewhere : Elsewhere k h t t'
  gone : ¬t'.Present h
  history : t'.history = t.history
  ready : t'.Unfailing R

theorem Unmoved.present (hk : Tells kept k) (hs : t.Unmoved R k t') : t'.Present h ↔ t.Present h := by
  have hdel : ∀ {b b' : BlockIndex A}, k b = k b' → b.status.deleted = b'.status.deleted :=
    fun heq => (Prod.mk.inj (Prod.mk.inj (hk heq)).2).1
  constructor
  . rintro ⟨b', hb', hd⟩
    obtain ⟨b, hb, heq⟩ := hs.same.find? hb'
    exact ⟨b, hb, (hdel heq).trans hd⟩
  . rintro ⟨b, hb, hd⟩
    obtain ⟨b', hb', heq⟩ := hs.same.symm.find? hb
    exact ⟨b', hb', (hdel heq).trans hd⟩

theorem Unmoved.removed (hs : t.Unmoved R k t') (hr : Removed R k h t' t'') : Removed R k h t t'' :=
  ⟨hs.elsewhere.trans hr.elsewhere, hr.gone, hr.history.trans hs.history, hr.ready⟩

theorem Removed.unmoved (hk : Tells kept k) (hr : Removed R k h t t') (hs : t'.Unmoved R k t'') : Removed R k h t t'' :=
  ⟨hr.elsewhere.trans hs.elsewhere, fun hp => hr.gone ((hs.present hk).mp hp), hs.history.trans hr.history, hs.ready⟩

theorem SameOn.standing (hk : Tells kept k) (hs : t.SameOn k t') : t.SameOn (·.standing kept) t' := by
  refine ⟨hs.keys, fun x => ?_⟩
  have hx := hs.same x
  cases hb : t.find? x with
  | none =>
    rw [hb] at hx
    rw [Option.map_eq_none_iff.mp hx]
  | some b =>
    rw [hb] at hx
    obtain ⟨b', hb', heq⟩ := Option.map_eq_some_iff.mp hx
    rw [hb']
    exact congrArg some (hk heq)

/-- No block in the tree comes after `h`. -/
theorem SameOn.leaf (hs : t.SameOn (·.standing kept) t') (ht : t.WF)
    (hleaf : t.anyNext h (fun next => !next.isDeleted) = false) : t'.anyNext h (fun next => !next.isDeleted) = false := by
  rw [(ht.congr (hs.comp Prod.fst)).anyNext_eq_false_iff]
  rw [ht.anyNext_eq_false_iff] at hleaf
  intro x b' hb' hp
  obtain ⟨b, hb, heq⟩ := hs.find? hb'
  obtain ⟨hshape, hrest⟩ := Prod.mk.inj heq
  have hd : b.status.deleted = b'.status.deleted := (Prod.mk.inj hrest).1
  have hx := hleaf x b hb ((shape_eq_iff.mp hshape).2.1.trans hp)
  rw [show b'.isDeleted = b'.status.deleted from rfl, ← hd]
  exact hx

end Tree

section Remove

variable [BlockAddon A] {t : Tree A} {h prev : Hash} {b : BlockIndex A} {obr : BlockIndex A → Tree A → Tree A}

/-- A leaf is soft-deleted. -/
theorem run_deleteSubtree (hb : t.find? h = some b) (hd : b.status.deleted = false)
    (hleaf : t.anyNext h (fun next => !next.isDeleted) = false) :
    deleteSubtree obr h prev t =
      .ok () ((((obr b t).eraseTip h).update h (·.deleteTemporarily)).tryAddTip prev) := by
  have hnone : (t.pnext h).filter (fun c => (t.find? c).any (fun next : BlockIndex A => !next.isDeleted)) = [] := by
    rw [List.filter_eq_nil_iff]
    intro x hx hany
    unfold Tree.anyNext at hleaf
    rw [List.any_eq_false] at hleaf
    exact hleaf x hx hany
  have hderef : derefBlock h t = .ok b t := by
    simp only [derefBlock]
    rw [run_get, hb]
    rfl
  have hvisit : deleteLeaf obr h t = .ok () (((obr b t).eraseTip h).update h (·.deleteTemporarily)) := by
    simp only [deleteLeaf]
    rw [run_ok hderef, run_modify, run_modify, run_check]
    . rfl
    . rw [show b.isDeleted = b.status.deleted from rfl, hd]
      rfl
  have hpost : forEachNodePostorder (deleteLeaf obr) (fun next => !next.isDeleted) (t.maxHeight + 1) h t =
      .ok () (((obr b t).eraseTip h).update h (·.deleteTemporarily)) := by
    simp only [forEachNodePostorder]
    rw [run_get, hnone]
    exact hvisit
  simp only [deleteSubtree]
  rw [run_get, run_ok hpost]
  rfl

theorem Tree.find?_deleted (hobr : Tree.OnlyPayloadsIndex obr) (x : Hash) :
    ((((obr b t).eraseTip h).update h (·.deleteTemporarily)).tryAddTip prev).find? x =
      if h = x then (t.find? x).map (·.deleteTemporarily) else t.find? x := by
  obtain ⟨f, g, hfg⟩ := hobr b
  rw [Tree.find?_tryAddTip, Tree.find?_update, hfg]
  rfl

theorem Tree.history_deleted (hobr : Tree.OnlyPayloadsIndex obr) :
    ((((obr b t).eraseTip h).update h (·.deleteTemporarily)).tryAddTip prev).history = t.history := by
  obtain ⟨f, g, hfg⟩ := hobr b
  rw [Tree.tryAddTip_history, hfg]
  rfl

end Remove

section UnExecute

variable [PowAddon A] [StoredAddon A S] {R : TreeRules A} {kept : A → ρ} {k : BlockIndex A → κ} {t : Tree A} {h prev : Hash}
  {b : BlockIndex A} {obr : BlockIndex A → Tree A → Tree A} {block : PowBlock} {n : Nat} {s : σ} {c : TreeClass σ A}

theorem Tree.removed_deleted (hR : R.Keeping kept) (hobr : Tree.OnlyPayloadsIndex obr) (hready : t.Unfailing R) :
    Tree.Removed R k h t ((((obr b t).eraseTip h).update h (·.deleteTemporarily)).tryAddTip prev) where
  elsewhere x hx := by rw [Tree.find?_deleted hobr, if_neg hx.symm]
  gone := by
    rintro ⟨b', hb', hd⟩
    rw [Tree.find?_deleted hobr, if_pos rfl] at hb'
    obtain ⟨b, _, rfl⟩ := Option.map_eq_some_iff.mp hb'
    cases hd
  history := Tree.history_deleted hobr
  ready := by
    obtain ⟨f, g, hfg⟩ := hobr b
    apply Tree.Unfailing.of_blocks_eq (t := (obr b t).update h (·.deleteTemporarily))
    . apply Tree.Unfailing.update
      . apply hready.of_blocks_eq
        rw [hfg]
      . exact fun _ _ hids => absurd (hR.setNull_ids _) hids
    . exact Tree.tryAddTip_blocks

namespace TreeClass.Leaves

variable (hc : c.Leaves R k) (hk : Tells kept k)

omit [PowAddon A] [StoredAddon A S] in
theorem Unmoved.trans {t' t'' : Tree A} (hs : t.Unmoved R k t') (hs' : t'.Unmoved R k t'') : t.Unmoved R k t'' :=
  ⟨hs'.ready, hs.same.trans hs'.same, hs'.history.trans hs.history⟩

include hc

omit [PowAddon A] [StoredAddon A S] in
theorem wlp_setStateOrStop (hready : (c.tree.get s).Unfailing R) :
    wlp (setStateOrStop c prev) (fun _ s' => (c.tree.get s).Unmoved R k (c.tree.get s')) s := by
  simp only [setStateOrStop, wlp_bind, wlp_check]
  apply wlp_mono (hc.setState prev s hready)
  exact fun _ _ h _ => h

omit [StoredAddon A S] in
theorem wlp_doUpdateTips (hready : (c.tree.get s).Unfailing R) :
    wlp (doUpdateTips c) (fun _ s' => (c.tree.get s).Unmoved R k (c.tree.get s')) s := by
  simp only [doUpdateTips, TreeClass.getTree, wlp_bind, wlp_get, wlp_pure, wlp_zoom, wlp_modify]
  apply wlp_forEach (I := fun s' => (c.tree.get s).Unmoved R k (c.tree.get s'))
  . intro tip _ s1 hs1
    simp only [doUpdateTips.visitTip, TreeClass.getTree, wlp_bind, wlp_get, wlp_pure, wlp_check]
    intro _
    apply wlp_mono (hc.determineBestChain tip s1 hs1.ready)
    exact fun _ _ h _ => Unmoved.trans hs1 h
  . rw [c.tree.get_set]
    exact ⟨hready.of_blocks_eq rfl, .of_blocks_eq rfl, rfl⟩

omit [StoredAddon A S] in
theorem wlp_updateTips (hready : (c.tree.get s).Unfailing R) :
    wlp (updateTips c) (fun _ s' => (c.tree.get s).Unmoved R k (c.tree.get s')) s := by
  simp only [updateTips, TreeClass.getTree, wlp_bind, wlp_get, wlp_pure, wlp_ite, wlp_zoom, wlp_modify]
  refine ⟨fun _ => hc.wlp_doUpdateTips hready, fun _ => ?_⟩
  rw [c.tree.get_set]
  exact ⟨hready.of_blocks_eq rfl, .of_blocks_eq rfl, rfl⟩

include hk

/-- A leaf is taken away. -/
theorem wlp_removeLeaf (hR : R.Keeping kept) (ht : (c.tree.get s).WF) (hready : (c.tree.get s).Unfailing R)
    (hp : (c.tree.get s).Present h) :
    wlp (removeLeaf c h) (fun _ s' => Tree.Removed R k h (c.tree.get s) (c.tree.get s')) s := by
  simp only [removeLeaf, removeSubtree, TreeClass.getTree, wlp_bind, wlp_get, wlp_pure, wlp_check, wlp_getOrStop]
  intro hleaf b hb prev _
  have hleaf : (c.tree.get s).anyNext h (fun next => !next.isDeleted) = false := by
    rw [Bool.not_eq_true'] at hleaf
    exact hleaf
  have hdelete : ∀ s1, (c.tree.get s).Unmoved R k (c.tree.get s1) →
      wlp (zoom c.tree (deleteSubtree c.onBeforeLeafRemoved h prev))
        (fun _ s2 => Tree.Removed R k h (c.tree.get s) (c.tree.get s2)) s1 := by
    intro s1 hs1
    obtain ⟨b1, hb1, hd1⟩ := (hs1.present hk).mpr hp
    rw [wlp_zoom]
    apply wlp_iff.mpr
    intro _ t' hrun
    rw [run_deleteSubtree hb1 hd1 ((hs1.same.standing hk).leaf ht hleaf)] at hrun
    cases hrun
    rw [c.tree.get_set]
    exact hs1.removed (Tree.removed_deleted hR hc.onBeforeLeafRemoved hs1.ready)
  have hrefl : (c.tree.get s).Unmoved R k (c.tree.get s) := ⟨hready, .refl _, rfl⟩
  rw [wlp_when]
  constructor
  . intro _
    apply wlp_mono (hc.wlp_setStateOrStop hready)
    intro _ s1 hs1
    apply wlp_mono (hdelete s1 hs1)
    intro _ s2 hs2
    rw [wlp_when]
    refine ⟨fun _ => ?_, fun _ => hs2⟩
    apply wlp_mono (hc.wlp_updateTips hs2.ready)
    exact fun _ _ hs3 => hs2.unmoved hk hs3
  . intro _
    apply wlp_mono (hdelete s hrefl)
    intro _ s2 hs2
    rw [wlp_when]
    refine ⟨fun _ => ?_, fun _ => hs2⟩
    apply wlp_mono (hc.wlp_updateTips hs2.ready)
    exact fun _ _ hs3 => hs2.unmoved hk hs3

end TreeClass.Leaves

end UnExecute

/-- A reference that has just been added can be taken back, and the references of a block are counted. -/
structure TreeRules.Counting [PowAddon A] [StoredAddon A S] (R : TreeRules A) (kept : A → ρ) : Prop
    extends R.Keeping kept where
  refs_eq : ∀ {a a'}, kept a = kept a' → R.refs a = R.refs a'
  empty_refs : R.refs BlockAddon.empty = []
  refCount : ∀ a, PowAddon.refCount a = (R.refs a).length
  removeRef_addRef : ∀ n a, ∃ a', PowAddon.removeRef n (PowAddon.addRef n a) = some a' ∧ (R.refs a').Perm (R.refs a) ∧
    PowAddon.canBeRemoved a' = PowAddon.canBeRemoved a

/-- The block `h` has references as long as it is in the tree, and only then. -/
def Tree.Releasable [PowAddon A] (t : Tree A) (h : Hash) : Prop :=
  ∀ b, t.find? h = some b → (PowAddon.refCount b.addon = 0 ↔ b.status.deleted = true)

/-- What has become of the block `h` when `AddBlock` is executed and undone -/
inductive AddBlock.Outcome [PowAddon A] (R : TreeRules A) (kept : A → ρ) (k : BlockIndex A → κ) (h : Hash) (t t' : Tree A) :
    Prop where
  /-- it was in the tree, and still is -/
  | released (hp : t.Present h) (hr : t.Releasable h) (htips : t'.tips = t.tips)
      (hs : t.SameOn (fun b => (b.shape, b.status)) t') (helse : ∀ x, x ≠ h → t'.find? x = t.find? x)
      (hrefs : ∀ b b', t.find? h = some b → t'.find? h = some b' → (R.refs b'.addon).Perm (R.refs b.addon))
  /-- it was in the tree without a reference, and is gone -/
  | lost (hp : t.Present h) (hr : ¬t.Releasable h) (hgone : ¬t'.Present h)
  /-- it was not in the tree, and is not -/
  | undone (hp : ¬t.Present h) (hr : t.Releasable h) (helse : Tree.Elsewhere k h t t') (hgone : ¬t'.Present h)
      (hh : (∀ b, t.find? h = some b → b.status.failedPop = false) → t'.history = t.history)
      (hcan : ∃ a, kept a = t.keptOf kept h ∧ PowAddon.canBeRemoved a = true)
  /-- it was deleted with references, and is in the tree again -/
  | left (hp : ¬t.Present h) (hr : ¬t.Releasable h) (hp' : t'.Present h)

section Outcome

variable [PowAddon A] [StoredAddon A S] {R : TreeRules A} {kept : A → ρ} {k : BlockIndex A → κ} {t t₀ : Tree A} {h : Hash}
  {b : BlockIndex A} {block : PowBlock} {n : Nat} {s s₀ s₁ : σ} {c : TreeClass σ A} {a : A}

/-- The tree after the reference has been added and taken back -/
def Tree.rereferenced (n : Nat) (a : A) (h : Hash) (t : Tree A) : Tree A :=
  t.update h (fun b => (b.setAddon (PowAddon.addRef n b.addon)).setAddon a)

omit [StoredAddon A S] in
theorem Tree.rereferenced_eq : (t.updateAddon h (PowAddon.addRef n)).updateAddon h (fun _ => a) = t.rereferenced n a h :=
  Tree.update_update

omit [StoredAddon A S] in
theorem Tree.present_rereferenced {x : Hash} : (t.rereferenced n a h).Present x ↔ t.Present x := by
  unfold Tree.Present rereferenced
  rw [Tree.find?_update]
  split
  . cases t.find? x with
    | none => simp
    | some b => simp [setAddon]
  . rfl

/-- The reference is taken back, and the block goes when that was its last. -/
theorem AddBlock.wlp_unExecute_rereferenced (hR : R.Counting kept) (hk : Tells kept k) (hc : c.Leaves R k)
    (ht : t.WF) (hready : t.Unfailing R) (hb : t.find? block.getHash = some b) (hd : b.status.deleted = false)
    (hs : s₁ = c.tree.set (t.updateAddon block.getHash (PowAddon.addRef n)) s) :
    wlp (AddBlock.unExecute c block n) (fun _ s' =>
      if PowAddon.refCount b.addon = 0 then
        PowAddon.canBeRemoved b.addon = true ∧ ∃ a, Tree.Removed R k block.getHash (t.rereferenced n a block.getHash) (c.tree.get s')
      else ∃ a, (R.refs a).Perm (R.refs b.addon) ∧ c.tree.get s' = t.rereferenced n a block.getHash) s₁ := by
  subst hs
  simp only [unExecute, TreeClass.getTree, wlp_bind, wlp_get, wlp_pure, wlp_getOrStop, c.tree.get_set, wlp_zoom, wlp_modify,
    wlp_when, wlp_check, Tree.rereferenced_eq]
  intro index hindex a ha
  obtain ⟨hfind, _⟩ := Tree.getBlockIndex_eq_some.mp hindex
  unfold Tree.updateAddon at hfind
  rw [Tree.find?_update_self, hb] at hfind
  cases hfind
  obtain ⟨a', ha', hperm, hcan⟩ := hR.removeRef_addRef n b.addon
  have haa : some a' = some a := ha'.symm.trans ha
  cases haa
  have hcount : PowAddon.refCount a = PowAddon.refCount b.addon := by
    rw [hR.refCount, hR.refCount, hperm.length_eq]
  have hids : R.payloadIds a = R.payloadIds b.addon := (hR.removeRef_ids _ _ _ ha').trans (hR.addRef_ids _ _)
  rw [hcount]
  constructor
  . intro h0 hcan'
    have h0 : PowAddon.refCount b.addon = 0 := by simpa using h0
    have hready' : (t.rereferenced n a block.getHash).Unfailing R := by
      apply hready.update
      intro b' hb' hne
      rw [hb] at hb'
      cases hb'
      refine ⟨?_, Nat.le_refl _⟩
      rw [← hids]
      exact hne
    have hwf : (t.rereferenced n a block.getHash).WF := ht.congr (.update _ _ (fun _ => rfl))
    have hremove := hc.wlp_removeLeaf (s := c.tree.set (t.rereferenced n a block.getHash)
      (c.tree.set (t.updateAddon block.getHash (PowAddon.addRef n)) s)) (h := block.getHash) hk hR.toKeeping
    rw [c.tree.get_set] at hremove
    apply wlp_mono (hremove hwf hready' (Tree.present_rereferenced.mpr ⟨b, hb, hd⟩))
    intro _ s2 hs2
    rw [if_pos h0]
    exact ⟨hcan ▸ hcan', a, hs2⟩
  . intro h0
    rw [if_neg (by simpa using h0)]
    exact ⟨a, hperm, rfl⟩

/-- `AddBlock` is executed and undone. -/
theorem AddBlock.wlp_unExecute (hR : R.Counting kept) (hk : Tells kept k) (hc : c.Leaves R k) (ht : (c.tree.get s).WF)
    (ht₀ : (c.tree.get s₀).WF) (hready : (c.tree.get s).Unfailing R) (hs₀ : AddBlock.Accepted R kept k c block s s₀)
    (hs₁ : s₁ = c.tree.set ((c.tree.get s₀).updateAddon block.getHash (PowAddon.addRef n)) s₀) :
    wlp (AddBlock.unExecute c block n) (fun _ s' => AddBlock.Outcome R kept k block.getHash (c.tree.get s) (c.tree.get s')) s₁ := by
  cases hs₀ with
  | known hp =>
    obtain ⟨b, hb, hd⟩ := hp
    apply wlp_mono (wlp_unExecute_rereferenced hR hk hc ht hready hb hd hs₁)
    intro _ s2 hs2
    have hiff : (c.tree.get s).Releasable block.getHash ↔ PowAddon.refCount b.addon ≠ 0 := by
      constructor
      . intro hr h0
        rw [(hr b hb).mp h0] at hd
        cases hd
      . intro h0 b' hb'
        rw [hb] at hb'
        cases hb'
        simp [h0, hd]
    split at hs2
    . next h0 =>
      obtain ⟨_, a, hremoved⟩ := hs2
      exact .lost ⟨b, hb, hd⟩ (fun hr => hiff.mp hr h0) hremoved.gone
    . next h0 =>
      obtain ⟨a, hperm, heq⟩ := hs2
      rw [heq]
      refine .released ⟨b, hb, hd⟩ (hiff.mpr h0) (by rfl) ?_ ?_ ?_
      . exact .update _ _ (fun _ _ => rfl)
      . intro x hx
        exact Tree.find?_update_of_ne hx.symm
      . intro b1 b2 hb1 hb2
        unfold Tree.rereferenced at hb2
        rw [hb] at hb1
        rw [Tree.find?_update_self, hb] at hb2
        cases hb1
        cases hb2
        exact hperm
  | placed hp hplaced _ =>
    obtain ⟨b, hb, hd, hkept⟩ := hplaced.here
    apply wlp_mono (wlp_unExecute_rereferenced hR hk hc ht₀ hplaced.ready hb hd hs₁)
    intro _ s2 hs2
    have hiff : (c.tree.get s).Releasable block.getHash ↔ PowAddon.refCount b.addon = 0 := by
      unfold Tree.Releasable
      unfold Tree.keptOf at hkept
      cases hold : (c.tree.get s).find? block.getHash with
      | none =>
        rw [hold] at hkept
        rw [hR.refCount, hR.refs_eq hkept, hR.empty_refs]
        simp
      | some b' =>
        rw [hold] at hkept
        rw [hR.refCount, hR.refs_eq hkept]
        have hdel : b'.status.deleted = true := by
          rw [← Bool.not_eq_false]
          exact fun hd' => hp ⟨b', hold, hd'⟩
        simp [hdel, hR.refCount]
    split at hs2
    . next h0 =>
      obtain ⟨hcan, a, hremoved⟩ := hs2
      refine .undone hp (hiff.mpr h0) ?_ hremoved.gone (fun hpop => hremoved.history.trans (hplaced.history hpop))
        ⟨b.addon, hkept, hcan⟩
      exact (hplaced.elsewhere.trans .update).trans hremoved.elsewhere
    . next h0 =>
      obtain ⟨a, _, heq⟩ := hs2
      refine .left hp (fun hr => h0 (hiff.mp hr)) ?_
      rw [heq]
      exact Tree.present_rereferenced.mpr ⟨b, hb, hd⟩

end Outcome

end AltIntegration
