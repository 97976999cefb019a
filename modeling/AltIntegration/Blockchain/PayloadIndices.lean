import AltIntegration.Blockchain.Runs
import AltIntegration.Blockchain.Lemmas.AltChanges
import AltIntegration.Blockchain.Lemmas.Delivery

/-!
This module contains that the payload indices mirror the blocks: a block is found under an id exactly when it
is there and holds the payload. The index of the VBK tree goes wrong when a block loses one of several copies of
a payload, and when a block is deleted together with its payloads.
-/

namespace AltIntegration

open Program BlockIndex

section Mirrors

variable {A S : Type} [BlockAddon A] [StoredAddon A S] {D : Permit} {R : TreeRules A} {marked : Prop} {t t' : Tree A}
  {h x : Hash} {b b' : BlockIndex A} {id : PayloadId}

/-- The block is deleted, or it is marked as a block without payloads, in a tree that marks its blocks. -/
def BlockIndex.Bare (marked : Prop) (b : BlockIndex A) : Prop :=
  b.status.deleted = true ∨ marked ∧ b.status.hasPayloads = false

/-- The block `x` holds the payload `id`. -/
def Tree.Holds (R : TreeRules A) (t : Tree A) (x : Hash) (id : PayloadId) : Prop :=
  ∃ b, t.find? x = some b ∧ id ∈ R.payloadIds b.addon

/-- The payload index mirrors the payloads of the blocks, but for the entries that are known to be wrong. -/
structure Tree.Mirrors (R : TreeRules A) (marked : Prop) (t : Tree A) : Prop where
  keyed : ∀ x b, t.find? x = some b → b.header.hash = x
  bare : ∀ x b, t.find? x = some b → b.Bare marked → R.payloadIds b.addon = []
  index : ∀ id x, (id, x) ∉ t.misindexed → ((id, x) ∈ t.payloadsIndex ↔ t.Holds R x id)

/-- The payloads of a deleted block leave the index, or are known to stay there. -/
structure TreeRules.Releases (R : TreeRules A) : Prop where
  onBeforeLeafRemoved : Tree.OnlyPayloadsIndex R.onBeforeLeafRemoved
  misindexed : ∀ b t, t.misindexed ⊆ (R.onBeforeLeafRemoved b t).misindexed
  index : ∀ b t id x, (id, x) ∉ (R.onBeforeLeafRemoved b t).misindexed →
    ((id, x) ∈ (R.onBeforeLeafRemoved b t).payloadsIndex ↔
      (id, x) ∈ t.payloadsIndex ∧ ¬(x = b.header.hash ∧ id ∈ R.payloadIds b.addon))

/-- What the rules of a kind of tree have to respect to keep the mirror. -/
structure TreeRules.Mirrored (R : TreeRules A) (marked : Prop) : Prop extends R.Releases where
  empty : R.payloadIds BlockAddon.empty = []
  setNull : ∀ a, R.payloadIds (BlockAddon.setNull a) = []
  payloads : ∀ t t', R.payloads t t' → t.Mirrors R marked → t'.Mirrors R marked

omit [BlockAddon A] in
theorem BlockChange.header {child : Prop} (h : BlockChange D R child b b') : b'.header = b.header := by
  cases h with
  | failed r v _ _ => exact (shape_eq_iff.mp (setStatus_shape b _)).1
  | hasPayloads v _ _ => exact (shape_eq_iff.mp (setStatus_shape b _)).1
  | bootstrap => exact (shape_eq_iff.mp (setStatus_shape b _)).1
  | restore _ _ => exact (shape_eq_iff.mp (setStatus_shape b _)).1
  | apply l _ _ => exact (shape_eq_iff.mp (setStatus_shape (b.setLevel l) _)).1
  | unapply _ => exact (shape_eq_iff.mp (setStatus_shape b _)).1
  | level l _ _ => rfl
  | addon a _ => rfl
  | work a _ _ => rfl

omit [BlockAddon A] in
theorem BlockChange.payloadIds {child : Prop} (h : BlockChange D R child b b') : R.payloadIds b'.addon = R.payloadIds b.addon := by
  have hset : ∀ (b : BlockIndex A) s, R.payloadIds (b.setStatus s).addon = R.payloadIds b.addon :=
    fun b s => congrArg R.payloadIds (setStatus_addon b s)
  cases h with
  | failed r v _ _ => apply hset
  | hasPayloads v _ _ => apply hset
  | bootstrap => apply hset
  | restore _ _ => apply hset
  | apply l _ _ => exact hset (b.setLevel l) _
  | unapply _ => apply hset
  | level l _ _ => rfl
  | addon a hids => exact hids
  | work a hids _ => exact hids

omit [BlockAddon A] in
/-- A block that becomes bare has no payloads. -/
theorem BlockChange.bare {child : Prop} (h : BlockChange D R child b b') (hb : b.Bare marked → R.payloadIds b.addon = [])
    (hbare : b'.Bare marked) : R.payloadIds b.addon = [] := by
  cases h with
  | failed r v hr _ =>
    apply hb
    unfold Bare at hbare
    rw [setStatus_status] at hbare
    rcases hr with rfl | rfl | rfl
    . exact hbare
    . exact hbare
    . exact hbare
  | hasPayloads v _ hv =>
    unfold Bare at hbare
    rw [setStatus_status] at hbare
    cases hbare with
    | inl hd => exact hb (.inl hd)
    | inr hp => exact hv hp.2
  | bootstrap =>
    apply hb
    unfold Bare at hbare
    rw [setFlag_status] at hbare
    exact hbare
  | restore hd _ => exact hb (.inl hd)
  | apply l _ _ =>
    apply hb
    unfold Bare at hbare
    rw [setFlag_status] at hbare
    exact hbare
  | unapply _ =>
    apply hb
    unfold Bare at hbare
    rw [unsetFlag_status] at hbare
    exact hbare
  | level l _ _ => exact hb hbare
  | addon a _ => exact hb hbare
  | work a _ _ => exact hb hbare

namespace Tree.Mirrors

omit [BlockAddon A] [StoredAddon A S] in
theorem congr (ht : t.Mirrors R marked) (hfind : ∀ x, t'.find? x = t.find? x)
    (hi : t'.payloadsIndex = t.payloadsIndex) (hm : t'.misindexed = t.misindexed) : t'.Mirrors R marked := by
  refine ⟨fun x b hb => ?_, fun x b hb => ?_, fun id x hx => ?_⟩
  . rw [hfind] at hb
    exact ht.keyed x b hb
  . rw [hfind] at hb
    exact ht.bare x b hb
  . rw [hm] at hx
    rw [hi, ht.index id x hx]
    unfold Tree.Holds
    rw [hfind]

omit [BlockAddon A] [StoredAddon A S] in
theorem mem_iff (ht : t.Mirrors R marked) (hb : t.find? h = some b) (hid : (id, h) ∉ t.misindexed) :
    (id, h) ∈ t.payloadsIndex ↔ id ∈ R.payloadIds b.addon := by
  rw [ht.index id h hid]
  unfold Tree.Holds
  simp [hb]

omit [BlockAddon A] [StoredAddon A S] in
/-- Only the block `h` has changed, and the index follows. -/
theorem at_block {c : BlockIndex A} (ht : t.Mirrors R marked) (hb : t.find? h = some b) (hc : t'.find? h = some c)
    (honly : t.OnlyAt h t') (hheader : c.header = b.header) (hbare : c.Bare marked → R.payloadIds c.addon = [])
    (hlog : t.misindexed ⊆ t'.misindexed)
    (hself : ∀ id, (id, h) ∉ t'.misindexed → ((id, h) ∈ t'.payloadsIndex ↔ id ∈ R.payloadIds c.addon))
    (hrest : ∀ id x, h ≠ x → (id, x) ∉ t'.misindexed → ((id, x) ∈ t'.payloadsIndex ↔ (id, x) ∈ t.payloadsIndex)) :
    t'.Mirrors R marked := by
  refine ⟨fun x b₁ hb₁ => ?_, fun x b₁ hb₁ hbare₁ => ?_, fun id x hx => ?_⟩
  . by_cases heq : h = x
    . subst heq
      rw [hc] at hb₁
      cases hb₁
      rw [hheader]
      exact ht.keyed h b hb
    . rw [honly x heq] at hb₁
      exact ht.keyed x b₁ hb₁
  . by_cases heq : h = x
    . subst heq
      rw [hc] at hb₁
      cases hb₁
      exact hbare hbare₁
    . rw [honly x heq] at hb₁
      exact ht.bare x b₁ hb₁ hbare₁
  . unfold Tree.Holds
    by_cases heq : h = x
    . subst heq
      rw [hself id hx, hc]
      simp
    . rw [hrest id x heq hx, honly x heq]
      exact ht.index id x (fun hmem => hx (hlog hmem))

omit [BlockAddon A] in
theorem update {f : BlockIndex A → BlockIndex A} (ht : t.Mirrors R marked)
    (hf : ∀ b, t.find? h = some b → BlockChange D R (t.blocks.keys.Nodup → b.pprev ≠ none) b (f b)) : (t.update h f).Mirrors R marked := by
  cases hb : t.find? h with
  | none =>
    refine ht.congr (fun x => ?_) rfl rfl
    rw [find?_update]
    split
    . next heq =>
      rw [← heq, hb]
      rfl
    . rfl
  | some b =>
    have hc := hf b hb
    refine ht.at_block hb ?_ (fun x hx => find?_update_of_ne hx) hc.header (fun hbare => ?_) (fun _ h => h)
      (fun id hid => ?_) (fun _ _ _ _ => Iff.rfl)
    . rw [find?_update_self, hb]
      rfl
    . rw [hc.payloadIds]
      exact hc.bare (ht.bare h b hb) hbare
    . rw [hc.payloadIds]
      exact ht.mem_iff hb hid

omit [StoredAddon A S] in
theorem create {header : Block} {prev : BlockIndex A} (ht : t.Mirrors R marked) (hR : R.Mirrored marked)
    (hnew : t.find? header.hash = none) : (t.createBlockIndex header prev).Mirrors R marked := by
  have hids : R.payloadIds (BlockIndex.create header prev).addon = [] := hR.empty
  refine ⟨fun x b hb => ?_, fun x b hb hbare => ?_, fun id x hx => (ht.index id x hx).trans ?_⟩
  . rw [find?_createBlockIndex] at hb
    split at hb
    . next heq =>
      cases hb
      exact heq
    . exact ht.keyed x b hb
  . rw [find?_createBlockIndex] at hb
    split at hb
    . cases hb
      exact hids
    . exact ht.bare x b hb hbare
  . unfold Tree.Holds
    rw [find?_createBlockIndex]
    split
    . next heq =>
      rw [← heq, hnew]
      simp [hids]
    . rfl

omit [BlockAddon A] [StoredAddon A S] in
/-- The payloads of a block leave the tree, and the index with it. -/
theorem release {f : BlockIndex A → BlockIndex A} (ht : t.Mirrors R marked) (hR : R.Releases)
    (hb : t.find? h = some b) (hheader : (f b).header = b.header) (hids : R.payloadIds (f b).addon = []) :
    ((R.onBeforeLeafRemoved b t).update h f).Mirrors R marked := by
  have hfind : ∀ x, ((R.onBeforeLeafRemoved b t).update h f).find? x = (t.update h f).find? x := by
    intro x
    obtain ⟨_, _, hobr⟩ := hR.onBeforeLeafRemoved b
    rw [hobr]
    rfl
  have hh := ht.keyed h b hb
  refine ht.at_block hb ?_ (fun x hx => (hfind x).trans (find?_update_of_ne hx)) hheader (fun _ => hids)
    (hR.misindexed b t) (fun id hid => ?_) (fun id x hx hid => ?_)
  . rw [hfind, find?_update_self, hb]
    rfl
  . refine (hR.index b t id h hid).trans ?_
    rw [ht.mem_iff hb (fun hmem => hid (hR.misindexed b t hmem)), hids, hh]
    simp
  . refine (hR.index b t id x hid).trans (and_iff_left ?_)
    rw [hh]
    exact fun hmem => hx hmem.1.symm

end Tree.Mirrors

/-- Every change but that of a draft keeps the mirror. -/
theorem Tree.Change.mirrors (hR : R.Mirrored marked) (hD : ¬D.drafts) (h : Tree.Change D R t t')
    (ht : t.Mirrors R marked) : t'.Mirrors R marked := by
  cases h with
  | fields hb _ hi _ hm =>
    refine ht.congr (fun x => ?_) hi hm
    unfold Tree.find?
    rw [hb]
  | block hf => exact ht.update hf
  | create _ hnew _ => exact ht.create hR hnew
  | delete _ hb _ => exact ht.release hR.toReleases hb rfl (hR.setNull _)
  | payloads _ h => exact hR.payloads _ _ h ht
  | drafts _ hd _ => exact absurd hd hD

theorem Tree.Changes.mirrors (hR : R.Mirrored marked) (hD : ¬D.drafts) (h : Tree.Changes D R t t')
    (ht : t.Mirrors R marked) : t'.Mirrors R marked := by
  induction h with
  | refl => exact ht
  | tail _ hc ih => exact hc.mirrors hR hD ih

end Mirrors

section Vbk

variable {t : Tree VbkAddon} {h x : Hash} {pid : Nat} {id : PayloadId}

theorem mem_removeFromPayloadsIndex {A : Type} {t : Tree A} {i : PayloadId} :
    (id, x) ∈ (t.removeFromPayloadsIndex i h).payloadsIndex ↔ (id, x) ∈ t.payloadsIndex ∧ ¬(id = i ∧ x = h) := by
  simp only [Tree.removeFromPayloadsIndex, List.mem_filter, decide_eq_true_eq, ne_eq, Prod.mk.injEq]

namespace VbkBlockTree

theorem find?_insertPayloadId : (insertPayloadId h pid t).find? x =
    (t.update h (fun b => b.setAddon { b.addon with vtbids := b.addon.vtbids ++ [pid] })).find? x := by
  unfold insertPayloadId Tree.find?
  rw [addToPayloadsIndex_blocks]
  rfl

/-- The payload is added to the block and to the index. -/
theorem mirrors_insertPayloadId {b : BlockIndex VbkAddon} (ht : t.Mirrors vbkRules False) (hb : t.find? h = some b)
    (hd : b.status.deleted = false) : (insertPayloadId h pid t).Mirrors vbkRules False := by
  have hlog : (insertPayloadId h pid t).misindexed = t.misindexed := by
    unfold insertPayloadId Tree.addToPayloadsIndex
    split
    . rfl
    . rfl
  refine ht.at_block hb (c := b.setAddon { b.addon with vtbids := b.addon.vtbids ++ [pid] }) ?_ (fun x hx => ?_) rfl
    (fun hbare => ?_) ?_ (fun id hid => ?_) (fun id x hx _ => ?_)
  . rw [find?_insertPayloadId, Tree.find?_update_self, hb]
    rfl
  . rw [find?_insertPayloadId, Tree.find?_update_of_ne hx]
  . rcases hbare with hbare | ⟨hf, _⟩
    . rw [show (b.setAddon _).status.deleted = b.status.deleted from rfl, hd] at hbare
      cases hbare
    . exact hf.elim
  . rw [hlog]
    exact fun _ hmem => hmem
  . rw [hlog] at hid
    refine Delivery.mem_addToPayloadsIndex.trans ((or_congr_right (ht.mem_iff hb hid)).trans ?_)
    show _ ↔ id ∈ (b.addon.vtbids ++ [pid]).map PayloadId.vtb
    rw [List.map_append, List.mem_append, List.map_singleton, List.mem_singleton, and_iff_left rfl, or_comm]
    rfl
  . exact Delivery.mem_addToPayloadsIndex.trans (or_iff_right (fun hmem => hx hmem.2.symm))

theorem find?_removePayloadId : (removePayloadId h pid t).find? x =
    (t.update h (fun b => b.setAddon { b.addon with vtbids := b.addon.vtbids.erase pid })).find? x := rfl

/-- After the only copy of a payload is removed there is none. -/
theorem not_mem_erase {b : BlockIndex VbkAddon} (hb : t.find? h = some b)
    (hid : (PayloadId.vtb pid, h) ∉ (removePayloadId h pid t).misindexed) : pid ∉ b.addon.vtbids.erase pid := by
  have hcopies : hasCopies t h pid = false := by
    by_contra htrue
    rw [Bool.not_eq_false] at htrue
    apply hid
    unfold removePayloadId
    dsimp only
    rw [if_pos htrue]
    exact List.mem_cons_self
  simp only [hasCopies, hb, Option.any_some, decide_eq_false_iff_not, Nat.not_lt] at hcopies
  apply List.count_eq_zero.mp
  rw [List.count_erase_self]
  omega

/-- A payload is removed from the block and from the index, which is right unless the block has another copy. -/
theorem mirrors_removePayloadId (ht : t.Mirrors vbkRules False) : (removePayloadId h pid t).Mirrors vbkRules False := by
  have hlog : t.misindexed ⊆ (removePayloadId h pid t).misindexed := by
    unfold removePayloadId
    dsimp only
    split
    . exact List.subset_cons_self _ _
    . exact fun _ hmem => hmem
  have hindex : ∀ {id x}, (id, x) ∈ (removePayloadId h pid t).payloadsIndex ↔
      (id, x) ∈ t.payloadsIndex ∧ ¬(id = .vtb pid ∧ x = h) :=
    fun {id x} => mem_removeFromPayloadsIndex
  cases hb : t.find? h with
  | none =>
    have hfind : ∀ x, (removePayloadId h pid t).find? x = t.find? x := by
      intro x
      rw [find?_removePayloadId, Tree.find?_update]
      split
      . next heq =>
        rw [← heq, hb]
        rfl
      . rfl
    refine ⟨fun x b hb => ht.keyed x b (hfind x ▸ hb), fun x b hb => ht.bare x b (hfind x ▸ hb), fun id x hx => ?_⟩
    rw [hindex, ht.index id x (fun hmem => hx (hlog hmem))]
    unfold Tree.Holds
    rw [hfind]
    refine and_iff_left_of_imp (fun hheld heq => ?_)
    rw [heq.2, hb] at hheld
    obtain ⟨_, hnone, _⟩ := hheld
    cases hnone
  | some b =>
    refine ht.at_block hb (c := b.setAddon { b.addon with vtbids := b.addon.vtbids.erase pid }) ?_ (fun x hx => ?_) rfl
      (fun hbare => ?_) hlog (fun id hid => ?_) (fun id x hx _ => ?_)
    . rw [find?_removePayloadId, Tree.find?_update_self, hb]
      rfl
    . rw [find?_removePayloadId, Tree.find?_update_of_ne hx]
    . have hempty : b.addon.vtbids.map PayloadId.vtb = [] := ht.bare h b hb hbare
      show (b.addon.vtbids.erase pid).map PayloadId.vtb = []
      rw [List.map_eq_nil_iff] at hempty
      rw [hempty]
      rfl
    . rw [hindex, ht.mem_iff hb (fun hmem => hid (hlog hmem)), and_iff_left rfl]
      show id ∈ b.addon.vtbids.map PayloadId.vtb ∧ _ ↔ id ∈ (b.addon.vtbids.erase pid).map PayloadId.vtb
      simp only [List.mem_map]
      constructor
      . rintro ⟨⟨p, hp, rfl⟩, hne⟩
        have hp' : p ≠ pid := fun heq => hne (congrArg PayloadId.vtb heq)
        exact ⟨p, (List.mem_erase_of_ne hp').mpr hp, rfl⟩
      . rintro ⟨p, hp, rfl⟩
        refine ⟨⟨p, List.mem_of_mem_erase hp, rfl⟩, fun heq => ?_⟩
        cases heq
        exact not_mem_erase hb hid hp
    . exact hindex.trans (and_iff_left (fun hmem => hx hmem.2.symm))

end VbkBlockTree

theorem vbkRules_releases : vbkRules.Releases where
  onBeforeLeafRemoved := vbkRules_pow.toLawful.onBeforeLeafRemoved
  misindexed _ _ := List.subset_append_right _ _
  index b t id x hx := by
    refine (and_iff_left ?_).symm
    rintro ⟨rfl, hid⟩
    apply hx
    obtain ⟨p, hp, rfl⟩ := List.mem_map.mp hid
    exact List.mem_append_left _ (List.mem_map.mpr ⟨p, hp, rfl⟩)

theorem vbkRules_mirrored : vbkRules.Mirrored False where
  toReleases := vbkRules_releases
  empty := rfl
  setNull _ := rfl
  payloads t t' h ht := by
    cases h with
    | insert pid hb hd _ => exact VbkBlockTree.mirrors_insertPayloadId ht hb hd
    | remove h pid => exact VbkBlockTree.mirrors_removePayloadId ht

end Vbk

section Alt

variable {t t' : Tree AltAddon} {h x : Hash} {id : PayloadId} {D : Permit}

namespace AltBlockTree

theorem mem_foldl_removeFromPayloadsIndex (ids : List PayloadId) (t : Tree AltAddon) :
    (id, x) ∈ (ids.foldl (fun t id => t.removeFromPayloadsIndex id h) t).payloadsIndex ↔
      (id, x) ∈ t.payloadsIndex ∧ ¬(x = h ∧ id ∈ ids) := by
  induction ids generalizing t with
  | nil => simp
  | cons i ids ih =>
    rw [List.foldl_cons, ih, mem_removeFromPayloadsIndex, List.mem_cons]
    tauto

theorem foldl_removeFromPayloadsIndex_misindexed (ids : List PayloadId) (t : Tree AltAddon) :
    (ids.foldl (fun t id => t.removeFromPayloadsIndex id h) t).misindexed = t.misindexed := by
  induction ids generalizing t with
  | nil => rfl
  | cons i ids ih => rw [List.foldl_cons, ih]; rfl

theorem foldl_addToPayloadsIndex_misindexed (ids : List PayloadId) (t : Tree AltAddon) :
    (ids.foldl (fun t id => t.addToPayloadsIndex id h) t).misindexed = t.misindexed := by
  rw [Delivery.foldl_addToPayloadsIndex_eq]

theorem mirrors_commitPayloadsIds {b : BlockIndex AltAddon} {q : PopData} (ht : t.Mirrors altRules True)
    (hb : t.find? h = some b) (hd : b.status.deleted = false) (hp : b.status.hasPayloads = false) :
    (Delivery.delivered h q t).Mirrors altRules True := by
  obtain ⟨b', hb', hshape, hstatus, hids⟩ := Delivery.find?_delivered_self (q := q) hb
  have hempty : b.addon.payloadIds = [] := ht.bare h b hb (.inr ⟨trivial, hp⟩)
  have hlog : (Delivery.delivered h q t).misindexed = t.misindexed := foldl_addToPayloadsIndex_misindexed _ _
  have hindex : ∀ {id x}, (id, x) ∈ (Delivery.delivered h q t).payloadsIndex ↔
      (x = h ∧ id ∈ q.payloadIds) ∨ (id, x) ∈ t.payloadsIndex := by
    intro id x
    exact Delivery.mem_payloadsIndex_foldl _ _ _
  refine ht.at_block hb hb' (fun x hx => Delivery.find?_delivered_of_ne hx) (shape_eq_iff.mp hshape).1 (fun hbare => ?_)
    ?_ (fun id hid => ?_) (fun id x hx _ => ?_)
  . rcases hbare with hbare | ⟨_, hbare⟩
    . rw [hstatus, show ({ b.status with hasPayloads := true } : BlockStatus).deleted = b.status.deleted from rfl,
        hd] at hbare
      cases hbare
    . rw [hstatus] at hbare
      cases hbare
  . rw [hlog]
    exact fun _ hmem => hmem
  . rw [hlog] at hid
    have hnone : (id, h) ∉ t.payloadsIndex := by
      rw [ht.mem_iff hb hid, show altRules.payloadIds b.addon = [] from hempty]
      exact List.not_mem_nil
    rw [hindex, or_iff_left hnone, and_iff_right rfl, ← hids]
    rfl
  . exact hindex.trans (or_iff_right (fun hmem => hx hmem.1.symm))

end AltBlockTree

theorem altRules_releases : altRules.Releases where
  onBeforeLeafRemoved := AltBlockTree.onlyPayloadsIndex
  misindexed b t := by
    rw [show (altRules.onBeforeLeafRemoved b t).misindexed = t.misindexed from
      AltBlockTree.foldl_removeFromPayloadsIndex_misindexed _ _]
    exact fun _ hmem => hmem
  index b t id x _ := AltBlockTree.mem_foldl_removeFromPayloadsIndex _ _

/-- The payloads of a block are cleared: the index and the block change together, or nothing changes. -/
theorem AltBlockTree.clearSideEffects_cases (h : Hash) (t : Tree AltAddon) : clearSideEffects h t = t ∨
    ∃ b, t.find? h = some b ∧
      clearSideEffects h t = (onBeforeLeafRemoved b t).update h (fun b => b.setAddon b.addon.clearPayloads) := by
  unfold clearSideEffects
  split
  . exact .inl rfl
  . next b hb =>
    split
    . exact .inr ⟨b, hb, rfl⟩
    . exact .inl rfl

theorem altRules_mirrored : altRules.Mirrored True where
  toReleases := altRules_releases
  empty := rfl
  setNull _ := rfl
  payloads t t' h ht := by
    cases h with
    | commit p hb hd hp _ _ => exact AltBlockTree.mirrors_commitPayloadsIds ht hb hd hp
    | @clear h _ _ _ =>
      rcases AltBlockTree.clearSideEffects_cases h t with heq | ⟨b, hb, heq⟩
      . rw [heq]
        exact ht
      . rw [heq]
        exact ht.release (f := fun b => b.setAddon b.addon.clearPayloads) altRules_releases hb rfl rfl

/-- The index of the ALT tree does not go wrong. -/
theorem Tree.Changes.misindexed_eq (hD : ¬D.drafts) (h : Tree.Changes D altRules t t') :
    t'.misindexed = t.misindexed := by
  have hremoved : ∀ (b : BlockIndex AltAddon) (t : Tree AltAddon),
      (AltBlockTree.onBeforeLeafRemoved b t).misindexed = t.misindexed :=
    fun b t => AltBlockTree.foldl_removeFromPayloadsIndex_misindexed _ _
  induction h with
  | refl => rfl
  | tail _ hc ih =>
    refine .trans ?_ ih
    cases hc with
    | fields _ _ _ _ hm => exact hm
    | block _ => rfl
    | create _ _ _ => rfl
    | delete _ _ _ => exact hremoved _ _
    | payloads _ h =>
      cases h with
      | commit p _ _ _ _ _ => exact AltBlockTree.foldl_addToPayloadsIndex_misindexed _ _
      | @clear h _ _ _ =>
        rcases AltBlockTree.clearSideEffects_cases h _ with heq | ⟨b, _, heq⟩
        . rw [heq]
        . rw [heq]
          exact hremoved b _
    | drafts _ hd _ => exact absurd hd hD

end Alt

section Runs

variable {cfg : Config} {s s' : AltState}

/-- The payload indices of the two trees with payloads mirror the blocks. -/
structure AltState.Mirrored (s : AltState) : Prop where
  vbk : s.sp.vbk.Mirrors vbkRules False
  alt : s.alt.Mirrors altRules True
  correct : s.alt.misindexed = []

theorem AltState.Changes.mirrored (h : AltState.Changes .calls s s') (hs : s.Mirrored) : s'.Mirrored where
  vbk := h.sp.vbk.mirrors vbkRules_mirrored (fun h => h) hs.vbk
  alt := h.alt.mirrors altRules_mirrored (fun h => h) hs.alt
  correct := (h.alt.misindexed_eq (fun h => h)).trans hs.correct

theorem mirrors_root {A : Type} {R : TreeRules A} {marked : Prop} {t : Tree A} {h : Hash} {b : BlockIndex A}
    (ht : t.blocks = Store.empty.insert h b) (hh : b.header.hash = h) (hi : t.payloadsIndex = [])
    (hids : R.payloadIds b.addon = []) : t.Mirrors R marked := by
  have hfind : ∀ {x b'}, t.find? x = some b' → b.header.hash = x ∧ b' = b := by
    intro x b' hb'
    unfold Tree.find? at hb'
    rw [ht, Store.find?_insert] at hb'
    split at hb'
    . next heq => exact ⟨hh.trans heq, (Option.some.inj hb').symm⟩
    . cases hb'
  refine ⟨fun x b' hb' => ?_, fun x b' hb' _ => ?_, fun id x _ => ?_⟩
  . obtain ⟨heq, rfl⟩ := hfind hb'
    exact heq
  . obtain ⟨_, rfl⟩ := hfind hb'
    exact hids
  . rw [hi]
    refine ⟨fun hmem => absurd hmem List.not_mem_nil, ?_⟩
    rintro ⟨b', hb', hid⟩
    obtain ⟨_, rfl⟩ := hfind hb'
    rw [hids] at hid
    exact absurd hid List.not_mem_nil

theorem Bootstrap.mirrored_roots (b : Bootstrap) : (b.roots cfg).Mirrored :=
  ⟨mirrors_root rfl rfl rfl rfl, mirrors_root rfl rfl rfl rfl, rfl⟩

/-- Between two calls the indices mirror the blocks. -/
theorem Reachable.mirrored (hs : Reachable cfg s) : s.Mirrored := by
  obtain ⟨b, h⟩ := hs.changes
  exact h.mirrored b.mirrored_roots

theorem Tree.Mirrors.getBlockIndex_iff {A : Type} {R : TreeRules A} {marked : Prop} {t : Tree A} (ht : t.Mirrors R marked)
    (x : Hash) (id : PayloadId) :
    t.Holds R x id ↔ ∃ b, t.getBlockIndex x = some b ∧ id ∈ R.payloadIds b.addon := by
  constructor
  . rintro ⟨b, hb, hid⟩
    refine ⟨b, Tree.getBlockIndex_eq_some.mpr ⟨hb, ?_⟩, hid⟩
    by_contra hd
    rw [Bool.not_eq_false] at hd
    rw [ht.bare x b hb (.inl hd)] at hid
    cases hid
  . rintro ⟨b, hb, hid⟩
    exact ⟨b, (Tree.getBlockIndex_eq_some.mp hb).1, hid⟩

/--
In every reachable state a block is found under an id exactly when it is there and holds the payload: always in the
ALT tree, and in the VBK tree unless the block has lost one of several copies of the payload, or has been deleted
together with its payloads.
-/
theorem Reachable.mem_payloadsIndex_iff (hs : Reachable cfg s) :
    (∀ id h, (id, h) ∈ s.alt.payloadsIndex ↔ ∃ b, s.alt.getBlockIndex h = some b ∧ id ∈ b.addon.payloadIds) ∧
    (∀ id h, (id, h) ∉ s.sp.vbk.misindexed →
      ((id, h) ∈ s.sp.vbk.payloadsIndex ↔ ∃ b, s.sp.vbk.getBlockIndex h = some b ∧ id ∈ b.addon.vtbids.map .vtb)) := by
  have hm := hs.mirrored
  refine ⟨fun id h => ?_, fun id h hid => ?_⟩
  . exact (hm.alt.index id h (hm.correct ▸ List.not_mem_nil)).trans (hm.alt.getBlockIndex_iff h id)
  . exact (hm.vbk.index id h hid).trans (hm.vbk.getBlockIndex_iff h id)

end Runs

namespace Small

/-- The first ALT block is the last one before a keystone. -/
def beforeKeystone : AltState := { bootstrap with alt := altBlock 1 0 4 }.roots config

def forkVbk : PowBlock := powBlock vbkRoot.getHash 1 0

def forkVTB (blockOfProof : PowBlock) : VTB where
  bitcoinTransaction := 0
  publishedBlock := vbkRoot.getHash
  blockOfProof := blockOfProof
  blockOfProofContext := []
  containingBlock := forkVbk

def sharedVTB : VTB := forkVTB (powBlock btcRoot.getHash 1 1)

def ownVTB : VTB := forkVTB (powBlock (powBlock btcRoot.getHash 1 1).getHash 2 1)

/-- Two forks of the ALT chain contain the same VTB, and the first fork, which is the better one, has another one. -/
def twoForks : List Op :=
  [.acceptBlockHeader (altBlock 2 1 5), .acceptBlockHeader (altBlock 3 1 5),
    .acceptBlock 2 ⟨[forkVbk], [sharedVTB, ownVTB], []⟩, .acceptBlock 3 ⟨[forkVbk], [sharedVTB], []⟩, .setState 2,
    .comparePopScore 2 3]

def comparedForks : AltState := finalState (Op.run config twoForks) beforeKeystone

theorem comparedForks_reachable : Reachable config comparedForks := by
  have hstart : Reachable config beforeKeystone := .bootstrap (b := { bootstrap with alt := altBlock 1 0 4 }) rfl
  have hrun : stoppedIn (Op.run config twoForks beforeKeystone) = none := by decide +kernel
  unfold comparedForks finalState
  cases h : Op.run config twoForks beforeKeystone with
  | ok _ s => exact hstart.run h
  | error e s =>
    rw [h] at hrun
    cases hrun

/-- One copy is removed when the second fork is unapplied, and the index loses the other copy as well. -/
theorem comparedForks_not_indexed : ¬∀ s, Reachable config s → ∀ id h b, s.sp.vbk.find? h = some b →
    b.finalized = false →
    ((id, h) ∈ s.sp.vbk.payloadsIndex ↔ b.status.deleted = false ∧ id ∈ b.addon.vtbids.map .vtb) := by
  intro hall
  have hlost : (PayloadId.vtb sharedVTB.getId, forkVbk.getHash) ∉ comparedForks.sp.vbk.payloadsIndex := by decide +kernel
  have hheld : (comparedForks.sp.vbk.find? forkVbk.getHash).any (fun b =>
      !b.finalized && !b.status.deleted && decide (sharedVTB.getId ∈ b.addon.vtbids)) = true := by decide +kernel
  obtain ⟨b, hb, hp⟩ := (Option.any_eq_true _ _).mp hheld
  simp only [Bool.and_eq_true, Bool.not_eq_true', decide_eq_true_eq] at hp
  obtain ⟨⟨hf, hd⟩, hid⟩ := hp
  exact hlost ((hall _ comparedForks_reachable _ _ b hb hf).mpr ⟨hd, List.mem_map_of_mem hid⟩)

theorem comparedForks_index : comparedForks.sp.vbk.misindexed = [(.vtb sharedVTB.getId, forkVbk.getHash)] ∧
    ((PayloadId.vtb ownVTB.getId, forkVbk.getHash) ∈ comparedForks.sp.vbk.payloadsIndex ↔
      ∃ b, comparedForks.sp.vbk.getBlockIndex forkVbk.getHash = some b ∧
        PayloadId.vtb ownVTB.getId ∈ b.addon.vtbids.map .vtb) :=
  ⟨by decide +kernel, (Reachable.mem_payloadsIndex_iff comparedForks_reachable).2 _ _ (by decide +kernel)⟩

end Small

end AltIntegration
