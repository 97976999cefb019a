import Mathlib.Logic.Relation
import AltIntegration.Blockchain.Storage
import AltIntegration.Blockchain.Finalization
import AltIntegration.Blockchain.Lemmas.Frame
import AltIntegration.Blockchain.Lemmas.Prune

/-!
This module contains the elementary changes that the programs make to a tree. What every elementary change
respects, every program respects.
-/

namespace AltIntegration

open Program BlockIndex

variable {σ τ A B C S α : Type}

/-- What is particular to a kind of tree. -/
structure TreeRules (A : Type) where
  onBeforeLeafRemoved : BlockIndex A → Tree A → Tree A
  payloadIds : A → List PayloadId
  refs : A → List Nat
  /-- the payloads of a block change, and the index with them -/
  payloads : Tree A → Tree A → Prop
  /-- the payloads of a block template change -/
  drafts : Tree A → Tree A → Prop

/-- What a program may do to the blocks of a tree, besides what every program does. -/
structure Permit where
  /-- change the level of a block that is not dirty -/
  levels : Prop
  /-- create and delete blocks, and change their references and payloads -/
  bodies : Prop
  /-- change the payloads of a block template -/
  drafts : Prop
  /-- invalidate and revalidate any block, and lower its level -/
  fails : Prop

/-- What may be done to a protecting tree. -/
def Permit.protecting (D : Permit) : Permit := { D with bodies := True, fails := True }

/-- A program goes from `s` to a state that `P` relates to `s`. -/
abbrev Stays (P : σ → σ → Prop) (m : M σ α) : Prop := Keeps P (fun _ _ => True) m

section Change

variable [BlockAddon A] [StoredAddon A S] (D : Permit) (R : TreeRules A)

/-- An elementary change of a block. What it inherits may change when it is a `child`. -/
inductive BlockChange (child : Prop) (b : BlockIndex A) : BlockIndex A → Prop where
  | failed (r : BlockValidityStatus) (v : Bool) (hr : r = .failedBlock ∨ r = .failedPop ∨ r = .failedChild)
      (hF : D.fails ∨ r = .failedChild ∧ child ∨ R.payloadIds b.addon ≠ [] ∧ b.status.level < .canBeApplied) :
      BlockChange child b (b.setStatus (b.status.assign v r))
  | hasPayloads (v : Bool) (hd : D.bodies) (hv : v = false → R.payloadIds b.addon = []) :
      BlockChange child b (b.setStatus (b.status.assign v .hasPayloads))
  | bootstrap : BlockChange child b (b.setFlag .bootstrap)
  | restore (hd : b.status.deleted = true) (hD : D.bodies) : BlockChange child b (b.unsetFlag .deleted)
  | apply (level : BlockStateStatus) (ha : b.status.active = false) (hl : b.status.level ≤ level) :
      BlockChange child b ((b.setLevel level).setFlag .active)
  | unapply (hf : b.finalized = false) : BlockChange child b (b.unsetFlag .active)
  | level (level : BlockStateStatus) (hd : D.levels ∨ b.dirty = true) (hF : D.fails ∨ b.status.level ≤ level) :
      BlockChange child b (b.setLevel level)
  | addon (a : A) (hids : R.payloadIds a = R.payloadIds b.addon) (hrefs : D.bodies ∨ R.refs a = R.refs b.addon) :
      BlockChange child b (b.setAddon a)
  | work (a : A) (hids : R.payloadIds a = R.payloadIds b.addon)
      (hs : StoredAddon.toStored a = StoredAddon.toStored b.addon) (hrefs : R.refs a = R.refs b.addon) :
      BlockChange child b { b with addon := a }

namespace Tree

/-- An elementary change of a tree. -/
inductive Change (t : Tree A) : Tree A → Prop where
  | fields {t' : Tree A} (hb : t'.blocks = t.blocks) (hr : t'.root = t.root)
      (hi : t'.payloadsIndex = t.payloadsIndex) (hf : t'.finalizedPayloadsIndex = t.finalizedPayloadsIndex)
      (hm : t'.misindexed = t.misindexed) (hh : D.bodies ∨ t'.history = t.history) : Change t t'
  | block {h : Hash} {f : BlockIndex A → BlockIndex A}
      (hf : ∀ b, t.find? h = some b → BlockChange D R (t.blocks.keys.Nodup → b.pprev ≠ none) b (f b)) :
      Change t (t.update h f)
  | create {header : Block} {prev : BlockIndex A} (hD : D.bodies) (hnew : t.find? header.hash = none)
      (hprev : t.getBlockIndex header.previousBlock = some prev) : Change t (t.createBlockIndex header prev)
  | delete {h : Hash} {b : BlockIndex A} (hD : D.bodies) (hb : t.find? h = some b) (hd : b.status.deleted = false) :
      Change t ((R.onBeforeLeafRemoved b t).update h (·.deleteTemporarily))
  | payloads {t' : Tree A} (hD : D.bodies) (h : R.payloads t t') : Change t t'
  | drafts {t' : Tree A} (hD : D.bodies) (hd : D.drafts) (h : R.drafts t t') : Change t t'

abbrev Changes : Tree A → Tree A → Prop := Relation.ReflTransGen (Change D R)

end Tree

end Change

section Dirty

variable {D : Permit} {R : TreeRules A} {t t' t'' : Tree A} {x : Hash}

/-- The block `x` is going to be saved. -/
def Tree.Dirty (t : Tree A) (x : Hash) : Prop := ∃ b, t.find? x = some b ∧ b.dirty = true

variable [StoredAddon A S]

/-- A block that is not dirty has not changed since, as far as it is stored. -/
structure Tree.Tracks (t t' : Tree A) : Prop where
  clean : ∀ ⦃x b'⦄, t'.find? x = some b' → b'.dirty = false →
    ∃ b, t.find? x = some b ∧ b.dirty = false ∧ b'.toStoredBlockIndex = b.toStoredBlockIndex
  dirty : ∀ x, t.Dirty x → t'.Dirty x

theorem Tree.Tracks.refl (t : Tree A) : t.Tracks t := ⟨fun _ b hb hd => ⟨b, hb, hd, rfl⟩, fun _ h => h⟩

theorem Tree.Tracks.trans (h : t.Tracks t') (h' : t'.Tracks t'') : t.Tracks t'' := by
  refine ⟨fun x b'' hb'' hd'' => ?_, fun x hx => h'.dirty x (h.dirty x hx)⟩
  obtain ⟨b', hb', hd', heq'⟩ := h'.clean hb'' hd''
  obtain ⟨b, hb, hd, heq⟩ := h.clean hb' hd'
  exact ⟨b, hb, hd, heq'.trans heq⟩

theorem Tree.Tracks.of_blocks_eq (h : t'.blocks = t.blocks) : t.Tracks t' := by
  have hfind : ∀ x, t'.find? x = t.find? x := by
    intro x
    unfold Tree.find?
    rw [h]
  refine ⟨fun x b hb hd => ⟨b, (hfind x).symm.trans hb, hd, rfl⟩, fun x ⟨b, hb, hd⟩ => ⟨b, (hfind x).trans hb, hd⟩⟩

/-- A changed block is dirty, or what is stored of it has not changed. -/
theorem Tree.Tracks.update {h : Hash} {f : BlockIndex A → BlockIndex A} (hf : ∀ b, t.find? h = some b →
    (f b).dirty = true ∨ (f b).dirty = b.dirty ∧ (f b).toStoredBlockIndex = b.toStoredBlockIndex) :
    t.Tracks (t.update h f) := by
  refine ⟨fun x b' hb' hd' => ?_, fun x ⟨b, hb, hd⟩ => ?_⟩
  . rw [find?_update] at hb'
    split at hb'
    . next heq =>
      subst heq
      obtain ⟨b, hb, rfl⟩ := Option.map_eq_some_iff.mp hb'
      rcases hf b hb with hdirty | ⟨hsame, hstored⟩
      . rw [hdirty] at hd'
        cases hd'
      . exact ⟨b, hb, hsame.symm.trans hd', hstored⟩
    . exact ⟨b', hb', hd', rfl⟩
  . unfold Tree.Dirty
    rw [find?_update]
    split
    . next heq =>
      subst heq
      rw [hb]
      rcases hf b hb with hdirty | ⟨hsame, _⟩
      . exact ⟨f b, rfl, hdirty⟩
      . exact ⟨f b, rfl, hsame.trans hd⟩
    . exact ⟨b, hb, hd⟩

/-- What the rules of a kind of tree have to respect. -/
structure TreeRules.Lawful (R : TreeRules A) : Prop where
  onBeforeLeafRemoved : Tree.OnlyPayloadsIndex R.onBeforeLeafRemoved
  payloads : ∀ t t', R.payloads t t' ∨ R.drafts t t' → t.Tracks t'
  keys : ∀ t t', R.payloads t t' ∨ R.drafts t t' → t'.blocks.keys = t.blocks.keys

theorem setStatus_tracks (b : BlockIndex A) (s : BlockStatus) : (b.setStatus s).dirty = true ∨
    (b.setStatus s).dirty = b.dirty ∧ (b.setStatus s).toStoredBlockIndex = b.toStoredBlockIndex := by
  unfold setStatus
  split
  . exact .inr ⟨rfl, rfl⟩
  . exact .inl rfl

variable {b b' : BlockIndex A}

theorem setFlag_dirty {r : BlockValidityStatus} (hr : b.hasFlags r = false) : (b.setFlag r).dirty = true := by
  have hne : ¬b.status.assign true r = b.status := by
    intro heq
    have := congrArg (fun s : BlockStatus => s.hasFlags r) heq
    rw [show b.status.hasFlags r = false from hr] at this
    cases r <;> cases this
  unfold setFlag setStatus
  rw [if_neg hne]

theorem unsetFlag_dirty {r : BlockValidityStatus} (hr : b.hasFlags r = true) : (b.unsetFlag r).dirty = true := by
  have hne : ¬b.status.assign false r = b.status := by
    intro heq
    have := congrArg (fun s : BlockStatus => s.hasFlags r) heq
    rw [show b.status.hasFlags r = true from hr] at this
    cases r <;> cases this
  unfold unsetFlag setStatus
  rw [if_neg hne]

theorem setStatus_dirty_of_dirty (s : BlockStatus) (hb : b.dirty = true) : (b.setStatus s).dirty = true := by
  unfold setStatus
  split
  . exact hb
  . rfl

theorem BlockChange.tracks {child : Prop} (hD : ¬D.levels) (h : BlockChange D R child b b') :
    b'.dirty = true ∨ b'.dirty = b.dirty ∧ b'.toStoredBlockIndex = b.toStoredBlockIndex := by
  cases h with
  | failed r v _ _ => exact setStatus_tracks b _
  | hasPayloads v _ _ => exact setStatus_tracks b _
  | bootstrap => exact setStatus_tracks b _
  | restore hd _ => exact .inl (unsetFlag_dirty hd)
  | apply l ha _ => exact .inl (setFlag_dirty ha)
  | unapply _ => exact setStatus_tracks b _
  | level l hd _ => exact .inl (hd.resolve_left hD)
  | addon a _ => exact .inl rfl
  | work a _ hs =>
    refine .inr ⟨rfl, ?_⟩
    unfold toStoredBlockIndex
    rw [hs]

theorem BlockChange.dirty {child : Prop} (h : BlockChange D R child b b') (hb : b.dirty = true) : b'.dirty = true := by
  cases h with
  | failed r v _ _ => exact setStatus_dirty_of_dirty _ hb
  | hasPayloads v _ _ => exact setStatus_dirty_of_dirty _ hb
  | bootstrap => exact setStatus_dirty_of_dirty _ hb
  | restore _ _ => exact setStatus_dirty_of_dirty _ hb
  | apply l _ _ => exact setStatus_dirty_of_dirty _ hb
  | unapply _ => exact setStatus_dirty_of_dirty _ hb
  | level l _ _ => exact hb
  | addon a _ => rfl
  | work a _ _ => exact hb

variable [BlockAddon A]

theorem Tree.Tracks.delete {h : Hash} (hobr : OnlyPayloadsIndex R.onBeforeLeafRemoved) (b : BlockIndex A) :
    t.Tracks ((R.onBeforeLeafRemoved b t).update h (·.deleteTemporarily)) := by
  obtain ⟨f, g, hf⟩ := hobr b
  have hblocks : (R.onBeforeLeafRemoved b t).blocks = t.blocks := by rw [hf]
  exact (Tree.Tracks.of_blocks_eq hblocks).trans (.update (fun _ _ => .inl rfl))

theorem Tree.Tracks.create {header : Block} {prev : BlockIndex A} : t.Tracks (t.createBlockIndex header prev) := by
  refine ⟨fun x b' hb' hd' => ?_, fun x ⟨b, hb, hd⟩ => ?_⟩
  . rw [find?_createBlockIndex] at hb'
    split at hb'
    . cases hb'
      cases hd'
    . exact ⟨b', hb', hd', rfl⟩
  . unfold Tree.Dirty
    rw [find?_createBlockIndex]
    split
    . exact ⟨_, rfl, rfl⟩
    . exact ⟨b, hb, hd⟩

/-- Every change is tracked, but for a change of the level of a clean block. -/
theorem Tree.Change.tracks (hD : ¬D.levels) (hR : R.Lawful) (h : Tree.Change D R t t') : t.Tracks t' := by
  cases h with
  | fields hb _ _ _ _ => exact .of_blocks_eq hb
  | block hf => exact .update (fun b hb => (hf b hb).tracks hD)
  | create _ _ _ => exact .create
  | delete _ _ _ => exact .delete hR.onBeforeLeafRemoved _
  | payloads _ h => exact hR.payloads _ _ (.inl h)
  | drafts _ _ h => exact hR.payloads _ _ (.inr h)

theorem Tree.Change.dirty (hR : R.Lawful) (h : Tree.Change D R t t') (hx : t.Dirty x) : t'.Dirty x := by
  cases h with
  | fields hb _ _ _ _ => exact (Tree.Tracks.of_blocks_eq hb).dirty x hx
  | @block h f hf =>
    obtain ⟨b, hb, hd⟩ := hx
    unfold Tree.Dirty
    rw [find?_update]
    split
    . next heq =>
      subst heq
      rw [hb]
      exact ⟨f b, rfl, (hf b hb).dirty hd⟩
    . exact ⟨b, hb, hd⟩
  | create _ _ _ => exact Tree.Tracks.create.dirty x hx
  | delete _ _ _ => exact (Tree.Tracks.delete hR.onBeforeLeafRemoved _).dirty x hx
  | payloads _ h => exact (hR.payloads _ _ (.inl h)).dirty x hx
  | drafts _ _ h => exact (hR.payloads _ _ (.inr h)).dirty x hx

theorem Tree.Changes.tracks (hD : ¬D.levels) (hR : R.Lawful) (h : Tree.Changes D R t t') : t.Tracks t' := by
  induction h with
  | refl => exact .refl t
  | tail _ hc ih => exact ih.trans (hc.tracks hD hR)

theorem Tree.Changes.dirty (hR : R.Lawful) (h : Tree.Changes D R t t') (hx : t.Dirty x) : t'.Dirty x := by
  induction h with
  | refl => exact hx
  | tail _ hc ih => exact hc.dirty hR ih

theorem Tree.Change.nodup (hR : R.Lawful) (h : Tree.Change D R t t') (ht : t.blocks.keys.Nodup) :
    t'.blocks.keys.Nodup := by
  cases h with
  | fields hb _ _ _ _ =>
    rw [hb]
    exact ht
  | block _ =>
    rw [show (Tree.update _ _ _).blocks.keys = _ from Store.keys_modify _ _ _]
    exact ht
  | create _ hnew _ => exact List.nodup_cons.mpr ⟨(Store.find?_eq_none_iff _ _).mp hnew, ht⟩
  | @delete h b _ _ _ =>
    obtain ⟨f, g, hf⟩ := hR.onBeforeLeafRemoved b
    rw [show (Tree.update _ _ _).blocks.keys = _ from Store.keys_modify _ _ _, hf]
    exact ht
  | payloads _ h =>
    rw [hR.keys _ _ (.inl h)]
    exact ht
  | drafts _ _ h =>
    rw [hR.keys _ _ (.inr h)]
    exact ht

theorem Tree.Changes.nodup (hR : R.Lawful) (h : Tree.Changes D R t t') (ht : t.blocks.keys.Nodup) :
    t'.blocks.keys.Nodup := by
  induction h with
  | refl => exact ht
  | tail _ hc ih => exact hc.nodup hR ih

end Dirty

section Stays

variable {P : σ → σ → Prop}

theorem Stays.modify (ht : ∀ a b c, P a b → P b c → P a c) {f : σ → σ} (hf : ∀ s, P s (f s)) :
    Stays P (modify f : M σ PUnit) :=
  Keeps.modify (fun i s h => ht i s _ h (hf s))

theorem Stays.check {p : Bool} {e : Assertion} : Stays P (check p e) := Keeps.check (fun _ _ _ => trivial)

theorem Stays.throw {e : Assertion} : Stays P (throw e : M σ α) := Keeps.throw (fun _ _ _ => trivial)

theorem Stays.getOrStop {o : Option α} {e : Assertion} : Stays P (getOrStop o e) :=
  Keeps.getOrStop (fun _ _ _ => trivial)

/-- It is enough to look at what a program does from the state it starts in. -/
theorem Stays.of_wlp (ht : ∀ a b c, P a b → P b c → P a c) {m : M σ α} (hm : ∀ s, wlp m (fun _ => P s) s) :
    Stays P m :=
  fun i s h => wlp_mono (hm s) (fun _ _ h' => ht i s _ h h')

theorem Stays.wlp {m : M σ α} (hm : Stays P m) (hr : ∀ s, P s s) (s : σ) : wlp m (fun _ => P s) s := hm s s (hr s)

end Stays

section Bodies

variable [BlockAddon A] [StoredAddon A S] {D : Permit} {R : TreeRules A} {t t' : Tree A}

/-- What changes only when bodies do. -/
def BlockIndex.body (b : BlockIndex A) : (Block × Option Hash × Nat) × Bool × Bool × Bool :=
  (b.shape, b.status.hasPayloads, b.status.deleted, b.finalized)

omit [BlockAddon A] [StoredAddon A S] in
theorem body_setStatus (b : BlockIndex A) {s : BlockStatus} (hp : s.hasPayloads = b.status.hasPayloads)
    (hd : s.deleted = b.status.deleted) : (b.setStatus s).body = b.body := by
  unfold BlockIndex.body
  rw [setStatus_shape, setStatus_status, setStatus_finalized, hp, hd]

omit [BlockAddon A] in
theorem BlockChange.body {b b' : BlockIndex A} {child : Prop} (hD : ¬D.bodies) (hb : BlockChange D R child b b') : b'.body = b.body := by
  cases hb with
  | failed r v hr _ =>
    apply body_setStatus
    . rcases hr with rfl | rfl | rfl <;> rfl
    . rcases hr with rfl | rfl | rfl <;> rfl
  | hasPayloads v h _ => exact absurd h hD
  | bootstrap => exact body_setStatus b rfl rfl
  | restore _ h => exact absurd h hD
  | apply l _ _ => exact body_setStatus (b.setLevel l) rfl rfl
  | unapply _ => exact body_setStatus b rfl rfl
  | level l _ _ => rfl
  | addon a _ => rfl
  | work a _ _ => rfl

theorem Tree.Changes.body (hD : ¬D.bodies) (ht : Tree.Changes D R t t') : t.SameOn BlockIndex.body t' := by
  induction ht with
  | refl => exact .refl t
  | tail _ hc ih =>
    refine ih.trans ?_
    cases hc with
    | fields hb _ _ _ _ => exact .of_blocks_eq hb
    | block hf => exact .update _ _ (fun b hb => (hf b hb).body hD)
    | create h _ _ => exact absurd h hD
    | delete h _ _ => exact absurd h hD
    | payloads h _ => exact absurd h hD
    | drafts h _ _ => exact absurd h hD

/-- The block `h` is in the tree and not deleted. -/
def Tree.Present {A : Type} (t : Tree A) (h : Hash) : Prop := ∃ b, t.find? h = some b ∧ b.status.deleted = false

theorem Tree.Changes.present {h : Hash} (hD : ¬D.bodies) (ht : Tree.Changes D R t t') (hp : t.Present h) : t'.Present h := by
  obtain ⟨b, hb, hd⟩ := hp
  obtain ⟨b', hb', heq⟩ := (ht.body hD).symm.find? hb
  refine ⟨b', hb', ?_⟩
  rw [(Prod.mk.inj (Prod.mk.inj (Prod.mk.inj heq).2).2).1]
  exact hd

/-- Every block with payloads has been applied alone. -/
def Tree.PayloadsApplied {A : Type} (R : TreeRules A) (t : Tree A) : Prop :=
  ∀ ⦃x b⦄, t.find? x = some b → R.payloadIds b.addon ≠ [] → .canBeApplied ≤ b.status.level

/-- What fork resolution does not change when every block with payloads has been applied alone. -/
def TreeRules.steady {A : Type} (R : TreeRules A) (b : BlockIndex A) :
    ((Block × Option Hash × Nat) × Bool × Bool × Bool) × List Nat × List PayloadId × Bool × Bool × Bool :=
  (b.body, R.refs b.addon, R.payloadIds b.addon, b.status.failedBlock, b.status.failedPop,
    b.pprev.isNone && b.status.failedChild)

omit [BlockAddon A] [StoredAddon A S] in
theorem steady_setStatus (b : BlockIndex A) {s : BlockStatus} (hp : s.hasPayloads = b.status.hasPayloads)
    (hd : s.deleted = b.status.deleted) (hf : s.failedBlock = b.status.failedBlock) (hf' : s.failedPop = b.status.failedPop)
    (hc : b.pprev = none → s.failedChild = b.status.failedChild) : R.steady (b.setStatus s) = R.steady b := by
  have hroot : (b.pprev.isNone && s.failedChild) = (b.pprev.isNone && b.status.failedChild) := by
    cases hp : b.pprev with
    | none => rw [hc hp]
    | some p => rfl
  unfold TreeRules.steady
  rw [body_setStatus b hp hd, setStatus_addon, setStatus_status, hf, hf',
    (shape_eq_iff.mp (setStatus_shape b s)).2.1, hroot]

omit [BlockAddon A] in
theorem BlockChange.steady {b b' : BlockIndex A} (hD : ¬D.bodies) (hF : ¬D.fails)
    (happ : R.payloadIds b.addon ≠ [] → .canBeApplied ≤ b.status.level) (hb : BlockChange D R (b.pprev ≠ none) b b') :
    R.steady b' = R.steady b ∧ b.status.level ≤ b'.status.level := by
  cases hb with
  | failed r v hr h =>
    rcases h.resolve_left hF with ⟨rfl, hchild⟩ | ⟨hids, hlow⟩
    . refine ⟨steady_setStatus b rfl rfl rfl rfl (fun h => absurd h hchild), ?_⟩
      rw [setStatus_status]
      exact Nat.le_refl _
    . exact absurd (happ hids) (Nat.not_le_of_lt hlow)
  | hasPayloads v h _ => exact absurd h hD
  | bootstrap =>
    refine ⟨steady_setStatus b rfl rfl rfl rfl (fun _ => rfl), ?_⟩
    rw [setFlag_status]
    exact Nat.le_refl _
  | restore _ h => exact absurd h hD
  | apply l _ hl =>
    refine ⟨steady_setStatus (b.setLevel l) rfl rfl rfl rfl (fun _ => rfl), ?_⟩
    rw [setFlag_status]
    exact hl
  | unapply _ =>
    refine ⟨steady_setStatus b rfl rfl rfl rfl (fun _ => rfl), ?_⟩
    rw [unsetFlag_status]
    exact Nat.le_refl _
  | level l _ h => exact ⟨rfl, h.resolve_left hF⟩
  | addon a hids hrefs =>
    refine ⟨?_, Nat.le_refl _⟩
    show (b.body, R.refs a, R.payloadIds a, _) = _
    rw [hrefs.resolve_left hD, hids]
    rfl
  | work a hids _ hrefs =>
    refine ⟨?_, Nat.le_refl _⟩
    show (b.body, R.refs a, R.payloadIds a, _) = _
    rw [hrefs, hids]
    rfl

theorem Tree.Changes.steady (hD : ¬D.bodies) (hF : ¬D.fails) (hn : t.blocks.keys.Nodup) (happ : t.PayloadsApplied R)
    (ht : Tree.Changes D R t t') : t'.PayloadsApplied R ∧ t.SameOn R.steady t' ∧ t'.history = t.history := by
  induction ht with
  | refl => exact ⟨happ, .refl t, rfl⟩
  | @tail t' t'' _ hc ih =>
    obtain ⟨happ', hsame, hh⟩ := ih
    cases hc with
    | fields hb _ _ _ _ hh' =>
      refine ⟨fun x b hx => happ' (x := x) ?_, hsame.trans (.of_blocks_eq hb), (hh'.resolve_left hD).trans hh⟩
      unfold Tree.find? at hx ⊢
      rw [← hb]
      exact hx
    | @block h f hf =>
      have hstep : ∀ b, t'.find? h = some b → R.steady (f b) = R.steady b ∧ b.status.level ≤ (f b).status.level := by
        intro b hb
        have hchange := hf b hb
        rw [hsame.keys] at hchange
        simp only [hn, forall_const] at hchange
        exact hchange.steady hD hF (happ' hb)
      refine ⟨fun x b hx hids => ?_, hsame.trans (.update _ _ (fun b hb => (hstep b hb).1)), hh⟩
      rw [find?_update] at hx
      split at hx
      . next heq =>
        subst heq
        obtain ⟨b', hb', rfl⟩ := Option.map_eq_some_iff.mp hx
        obtain ⟨heq, hl⟩ := hstep b' hb'
        have hids' : R.payloadIds (f b').addon = R.payloadIds b'.addon :=
          (Prod.mk.inj (Prod.mk.inj (Prod.mk.inj heq).2).2).1
        exact Nat.le_trans (happ' hb' (hids' ▸ hids)) hl
      . exact happ' hx hids
    | create h _ _ => exact absurd h hD
    | delete h _ _ => exact absurd h hD
    | payloads h _ => exact absurd h hD
    | drafts h _ _ => exact absurd h hD

/-- What is permitted in `D` is permitted in `E`. -/
structure Permit.Le (D E : Permit) : Prop where
  levels : D.levels → E.levels
  bodies : D.bodies → E.bodies
  drafts : D.drafts → E.drafts
  fails : D.fails → E.fails

omit [BlockAddon A] in
theorem BlockChange.mono {E : Permit} {b b' : BlockIndex A} {child : Prop} (hE : D.Le E) (hb : BlockChange D R child b b') :
    BlockChange E R child b b' := by
  cases hb with
  | failed r v hr hF => exact .failed r v hr (hF.imp_left hE.fails)
  | hasPayloads v h hv => exact .hasPayloads v (hE.bodies h) hv
  | bootstrap => exact .bootstrap
  | restore hd h => exact .restore hd (hE.bodies h)
  | apply l ha hl => exact .apply l ha hl
  | unapply hf => exact .unapply hf
  | level l h hF => exact .level l (h.imp_left hE.levels) (hF.imp_left hE.fails)
  | addon a h hr => exact .addon a h (hr.imp_left hE.bodies)
  | work a h hs hr => exact .work a h hs hr

theorem Tree.Change.mono {E : Permit} (hE : D.Le E) (ht : Tree.Change D R t t') : Tree.Change E R t t' := by
  cases ht with
  | fields hb hr hi hf hm hh => exact .fields hb hr hi hf hm (hh.imp_left hE.bodies)
  | block hf => exact .block (fun b hb => (hf b hb).mono hE)
  | create h hn hp => exact .create (hE.bodies h) hn hp
  | delete h hb hd => exact .delete (hE.bodies h) hb hd
  | payloads h hp => exact .payloads (hE.bodies h) hp
  | drafts h hd hp => exact .drafts (hE.bodies h) (hE.drafts hd) hp

theorem Tree.Changes.mono {E : Permit} (hE : D.Le E) (ht : Tree.Changes D R t t') : Tree.Changes E R t t' := by
  induction ht with
  | refl => exact .refl
  | tail _ hc ih => exact ih.tail (hc.mono hE)

end Bodies

section Programs

variable [BlockAddon A] [StoredAddon A S] {D : Permit} {R : TreeRules A} {t : Tree A} {h : Hash} {b : BlockIndex A}

abbrev Changing (D : Permit) (R : TreeRules A) (m : M (Tree A) α) : Prop := Stays (Tree.Changes D R) m

namespace Changing

theorem change {f : Tree A → Tree A} (hf : ∀ t, Tree.Change D R t (f t)) : Changing D R (modify f : M (Tree A) PUnit) :=
  Stays.modify (fun _ _ _ h h' => h.trans h') (fun t => .single (hf t))

theorem modifyBlock {f : BlockIndex A → BlockIndex A} (hf : ∀ child b, BlockChange D R child b (f b)) :
    Changing D R (modifyBlock h f) :=
  change (fun _ => .block (fun b _ => hf _ b))

theorem derefBlock (h : Hash) : Changing D R (derefBlock h : M (Tree A) (BlockIndex A)) :=
  .bind .get (fun _ => Stays.getOrStop)

theorem eraseTip (h : Hash) : Changing D R (modify fun t => t.eraseTip h) := change (fun _ => .fields rfl rfl rfl rfl rfl (.inr rfl))

theorem record (hD : D.bodies) (e : Event) : Changing D R (modify fun t => t.record e) :=
  change (fun _ => .fields rfl rfl rfl rfl rfl (.inl hD))

end Changing

theorem Tree.Change.tryAddTip (t : Tree A) (h : Hash) : Tree.Change D R t (t.tryAddTip h) := by
  have hfixed : (t.tryAddTip h).fixed = t.fixed := tryAddTip_fixed
  refine .fields tryAddTip_blocks (fixed_root hfixed) ?_ ?_ ?_ (.inr tryAddTip_history)
  . have h' := congrArg (fun u : Tree A => u.payloadsIndex) hfixed
    exact h'
  . have h' := congrArg (fun u : Tree A => u.finalizedPayloadsIndex) hfixed
    exact h'
  . have h' := congrArg (fun u : Tree A => u.misindexed) hfixed
    exact h'

namespace Changing

theorem tryAddTip (h : Hash) : Changing D R (modify fun t => t.tryAddTip h) := change (fun t => .tryAddTip t h)

variable {r : BlockValidityStatus}

theorem doInvalidate (h : Hash) (hr : r = .failedBlock ∨ r = .failedPop ∨ r = .failedChild)
    (hF : D.fails) : Changing D R (doInvalidate h r) :=
  .bind (derefBlock h) (fun _ => .bind Stays.check (fun _ =>
    .bind (modifyBlock (fun _ _ => .failed r true hr (.inl hF))) (fun _ => eraseTip h)))

/-- A block that fails to apply has payloads, and it has never been applied alone. -/
theorem wlp_doInvalidate_failedPop (hids : ∀ b, t.find? h = some b → R.payloadIds b.addon ≠ []) :
    wlp (AltIntegration.doInvalidate h .failedPop) (fun _ => Tree.Changes D R t) t := by
  simp only [AltIntegration.doInvalidate, wlp_bind, wlp_derefBlock, wlp_check, wlp_modifyBlock, wlp_modify]
  intro b hb hlevel
  have hlow : b.status.level < .canBeApplied := by
    simp only [isValidUpTo, bne_self_eq_false, Bool.or_false, Bool.not_eq_true', decide_eq_false_iff_not] at hlevel
    exact Nat.lt_of_not_le hlevel
  have hflag : Tree.Change D R t (t.update h (fun b => b.setFlag .failedPop)) := by
    refine .block (fun b' hb' => ?_)
    rw [hb] at hb'
    cases hb'
    exact .failed .failedPop true (.inr (.inl rfl)) (.inr (.inr ⟨hids b hb, hlow⟩))
  exact .tail (.single hflag) (.fields rfl rfl rfl rfl rfl (.inr rfl))

theorem doReValidate (h : Hash) (hr : r = .failedBlock ∨ r = .failedPop ∨ r = .failedChild)
    (hF : D.fails) : Changing D R (doReValidate h r) :=
  .bind (modifyBlock (fun _ _ => .failed r false hr (.inl hF))) (fun _ => tryAddTip h)

theorem invalidateChild (hF : D.fails) (h : Hash) : Changing D R (invalidateChild h : M (Tree A) Bool) :=
  .bind (derefBlock h) (fun _ => .bind (doInvalidate h (.inr (.inr rfl)) hF) (fun _ => .pure _))

theorem revalidateChild (hF : D.fails) (h : Hash) : Changing D R (revalidateChild h : M (Tree A) Bool) :=
  .bind (doReValidate h (.inr (.inr rfl)) hF) (fun _ => .bind (derefBlock h) (fun _ => .pure _))

theorem forEachNodePreorder {visit : Hash → M (Tree A) Bool} (hv : ∀ h, Changing D R (visit h)) (n : Nat) (h : Hash) :
    Changing D R (forEachNodePreorder visit n h) := by
  induction n generalizing h with
  | zero => exact .pure _
  | succ n ih => exact .bind (hv h) (fun _ => .ite (.bind .get (fun _ => .forEach ih _)) (.pure _))

theorem forEachNodePostorder {visit : Hash → M (Tree A) Unit} (hv : ∀ h, Changing D R (visit h))
    (shouldVisit : BlockIndex A → Bool) (n : Nat) (h : Hash) :
    Changing D R (forEachNodePostorder visit shouldVisit n h) := by
  induction n generalizing h with
  | zero => exact .pure _
  | succ n ih => exact .bind .get (fun _ => .bind (.forEach ih _) (fun _ => hv h))

theorem deleteLeaf (hD : D.bodies) (h : Hash) : Changing D R (deleteLeaf R.onBeforeLeafRemoved h) := by
  refine Stays.of_wlp (fun _ _ _ h h' => h.trans h') (fun t => ?_)
  simp only [AltIntegration.deleteLeaf, wlp_bind, wlp_derefBlock, wlp_modify, wlp_check, wlp_modifyBlock]
  intro b hb hd
  have hd : b.status.deleted = false := by
    rw [show b.isDeleted = b.status.deleted from rfl, Bool.not_eq_true'] at hd
    exact hd
  exact .trans (.single (.delete hD hb hd)) (.single (.fields rfl rfl rfl rfl rfl (.inr rfl)))

theorem deleteSubtree (hD : D.bodies) (toRemove prev : Hash) : Changing D R (deleteSubtree R.onBeforeLeafRemoved toRemove prev) :=
  .bind .get (fun _ => .bind (forEachNodePostorder (deleteLeaf hD) _ _ _) (fun _ => tryAddTip prev))

theorem flagSubtree (h prev : Hash) (hr : r = .failedBlock ∨ r = .failedPop ∨ r = .failedChild) (hF : D.fails) :
    Changing D R (flagSubtree h prev r) :=
  .bind (doInvalidate h hr hF) (fun _ => .bind .get (fun _ =>
    .bind (.forEach (forEachNodePreorder (invalidateChild hF) _) _) (fun _ => tryAddTip prev)))

theorem unflagSubtree (h : Hash) (hr : r = .failedBlock ∨ r = .failedPop ∨ r = .failedChild) (hF : D.fails) :
    Changing D R (unflagSubtree h r) :=
  .bind (doReValidate h hr hF) (fun _ => .bind .get (fun _ =>
    .forEach (forEachNodePreorder (revalidateChild hF) _) _))

/-- The blocks that `invalidateSubtree` visits are no roots. -/
theorem wlp_flagChild (n : Nat) {t₀ : Tree A} (hs : t₀.SameShape t) (hc : t₀.blocks.keys.Nodup → ∃ p, t₀.IsChild h p) :
    wlp (AltIntegration.forEachNodePreorder AltIntegration.invalidateChild n h)
      (fun _ t' => Tree.Changes D R t t' ∧ t₀.SameShape t') t := by
  induction n generalizing h t with
  | zero => exact ⟨.refl, hs⟩
  | succ n ih =>
    simp only [AltIntegration.forEachNodePreorder, AltIntegration.invalidateChild, AltIntegration.doInvalidate, wlp_bind,
      wlp_derefBlock, wlp_check, wlp_modifyBlock, wlp_modify, wlp_pure, wlp_ite, wlp_get]
    intro b hb b' hb' _
    rw [hb] at hb'
    cases hb'
    have hflag : Tree.Change D R t (t.update h (fun b => b.setFlag .failedChild)) := by
      refine .block (fun b' hb' => .failed .failedChild true (.inr (.inr rfl)) (.inr (.inl ⟨rfl, fun hn => ?_⟩)))
      obtain ⟨p, bc, hbc, hp⟩ := hc (hs.keys ▸ hn)
      obtain ⟨bc', hbc', heq⟩ := hs.symm.find? hbc
      rw [hb'] at hbc'
      cases hbc'
      rw [(shape_eq_iff.mp heq).2.1, hp]
      exact Option.some_ne_none p
    have hchanges : Tree.Changes D R t ((t.update h (fun b => b.setFlag .failedChild)).eraseTip h) :=
      .tail (.single hflag) (.fields rfl rfl rfl rfl rfl (.inr rfl))
    have hshape : t₀.SameShape ((t.update h (fun b => b.setFlag .failedChild)).eraseTip h) :=
      (hs.trans (Tree.SameShape.update t h (keepsShape_setFlag _))).eraseTip h
    refine ⟨fun _ => ?_, fun _ => ⟨hchanges, hshape⟩⟩
    refine wlp_forEach (I := fun t' => Tree.Changes D R t t' ∧ t₀.SameShape t') (fun c hc' t1 ht1 => ?_) ⟨hchanges, hshape⟩
    refine wlp_mono (ih ht1.2 (fun hn => ?_)) (fun _ t2 ht2 => ⟨ht1.1.trans ht2.1, ht2.2⟩)
    have hn' := hn
    rw [← hshape.keys] at hn'
    obtain ⟨bc, hbc, hp⟩ := (Store.mem_keysWhere hn').mp hc'
    exact ⟨h, (hshape.isChild c h).mp ⟨bc, hbc, by simpa using hp⟩⟩

theorem wlp_flagSubtree_failedPop {prev : Hash} (hids : ∀ b, t.find? h = some b → R.payloadIds b.addon ≠ []) :
    wlp (AltIntegration.flagSubtree h prev .failedPop) (fun _ => Tree.Changes D R t) t := by
  simp only [AltIntegration.flagSubtree, wlp_bind, wlp_get]
  refine wlp_mono (wlp_doInvalidate_failedPop (D := D) hids) (fun _ t1 ht1 => ?_)
  refine wlp_mono (wlp_forEach (I := fun t2 => Tree.Changes D R t t2 ∧ t1.SameShape t2) (fun c hc t2 ht2 => ?_)
    ⟨ht1, .refl t1⟩) (fun _ t2 ht2 => ?_)
  . refine wlp_mono (wlp_flagChild _ ht2.2 (fun hn => ?_)) (fun _ t3 ht3 => ⟨ht2.1.trans ht3.1, ht3.2⟩)
    obtain ⟨bc, hbc, hp⟩ := (Store.mem_keysWhere hn).mp hc
    exact ⟨h, bc, hbc, by simpa using hp⟩
  . exact ht2.1.tail (.tryAddTip t2 prev)

/-- The level of a block may change when the block is dirty. -/
theorem wlp_raiseValidity {upTo : BlockStateStatus}
    (hb : ∀ b, t.find? h = some b → D.levels ∨ b.dirty = true ∨ b.status.failedPop = true ∨ upTo ≤ b.status.level) :
    wlp (raiseValidity h upTo) (fun _ => Tree.Changes D R t) t := by
  cases hfind : t.find? h with
  | none => simp [raiseValidity, wlp_derefBlock, hfind]
  | some b =>
    refine AltIntegration.wlp_raiseValidity hfind (fun _ => .refl) (fun hf hl => .single (.block (fun b' hb' => ?_)))
    rw [hfind] at hb'
    cases hb'
    rcases hb b hfind with hd | hd | hf' | hle
    . exact .level upTo (.inl hd) (.inr (Nat.le_of_lt hl))
    . exact .level upTo (.inr hd) (.inr (Nat.le_of_lt hl))
    . rw [hf] at hf'
      cases hf'
    . exact absurd hl (Nat.not_lt_of_le hle)

/-- After `restore` the block is dirty, and its level may rise. -/
theorem wlp_insertRestored {obi : Hash → Tree A → Tree A} {header : Block} (hD : D.bodies) (hR : R.Lawful)
    (hobi : ∀ t, Tree.Change D R t (obi header.hash t)) :
    wlp (insertBlockHeader.insertRestored obi header)
      (fun _ t' => Tree.Changes D R t t' ∧ t'.Dirty header.hash) t := by
  simp only [insertBlockHeader.insertRestored, restore, wlp_bind, wlp_derefBlock, wlp_check, wlp_when, wlp_modify,
    wlp_modifyBlock]
  intro b hb hd
  have hlast : ∀ t1 : Tree A, Tree.Changes D R t t1 → t1.find? header.hash = some b →
      wlp (raiseValidity header.hash .validTree) (fun _ t' => Tree.Changes D R t t' ∧ t'.Dirty header.hash)
        (obi header.hash ((t1.update header.hash (fun b => b.unsetFlag .deleted)).tryAddTip header.hash)) := by
    intro t1 ht1 hb1
    have hrestore : Tree.Change D R t1 (t1.update header.hash (fun b => b.unsetFlag .deleted)) := by
      refine .block (fun b' hb' => .restore ?_ hD)
      rw [hb1] at hb'
      cases hb'
      exact hd
    have hdirty : (t1.update header.hash (fun b => b.unsetFlag .deleted)).Dirty header.hash := by
      refine ⟨b.unsetFlag .deleted, ?_, unsetFlag_dirty hd⟩
      rw [Tree.find?_update_self, hb1]
      rfl
    have hrest := Relation.ReflTransGen.tail (.single (Tree.Change.tryAddTip (D := D) (R := R) _ header.hash)) (hobi
      ((t1.update header.hash (fun b => b.unsetFlag .deleted)).tryAddTip header.hash))
    have hdirty' := Tree.Changes.dirty hR hrest hdirty
    refine wlp_mono (wlp_raiseValidity (D := D) (R := R) (fun b' hb' => ?_)) ?_
    . obtain ⟨b'', hb'', hd''⟩ := hdirty'
      rw [hb''] at hb'
      cases hb'
      exact .inr (.inl hd'')
    . intro _ t' ht'
      exact ⟨((ht1.tail hrestore).trans hrest).trans ht', Tree.Changes.dirty hR ht' hdirty'⟩
  refine ⟨fun _ => ?_, fun _ => ?_⟩
  . exact hlast _ (.single (.fields rfl rfl rfl rfl rfl (.inl hD))) hb
  . exact hlast _ .refl hb

theorem wlp_insertBlockHeader {obi : Hash → Tree A → Tree A} {header : Block} (hD : D.bodies) (hR : R.Lawful)
    (hobi : ∀ t, Tree.Change D R t (obi header.hash t)) :
    wlp (insertBlockHeader obi header)
      (fun _ t' => Tree.Changes D R t t' ∧ (t'.Dirty header.hash ∨ t' = t ∧ (t.getBlockIndex header.hash).isSome)) t := by
  simp only [insertBlockHeader, wlp_bind, wlp_check, wlp_get]
  intro _
  split
  . next current hcur =>
    simp only [wlp_ite, wlp_bind, wlp_check, wlp_pure]
    refine ⟨fun _ _ => ?_, fun hd => ⟨.refl, .inr ⟨trivial, ?_⟩⟩⟩
    . exact wlp_mono (wlp_insertRestored hD hR hobi) (fun _ _ h => ⟨h.1, .inl h.2⟩)
    . rw [Option.isSome_iff_exists]
      refine ⟨current, Tree.getBlockIndex_eq_some.mpr ⟨hcur, ?_⟩⟩
      rw [Bool.not_eq_true] at hd
      exact hd
  . next hnone =>
    simp only [doInsertBlockHeader, wlp_bind, wlp_get, wlp_getOrStop, wlp_modify]
    intro prev hprev
    refine wlp_mono (wlp_insertRestored hD hR hobi) (fun _ _ h => ⟨?_, .inl h.2⟩)
    exact (Relation.ReflTransGen.single (.create hD hnone hprev)).trans h.1

end Changing

end Programs

section PoW

variable [PowAddon A] [StoredAddon A S] {D : Permit} {R : TreeRules A} {t : Tree A} {p : BlockTreeParams} {block : PowBlock}

/-- What a tree of a proof-of-work chain does to the data of a block does not concern its payloads. -/
structure TreeRules.PoW (R : TreeRules A) : Prop extends R.Lawful where
  setChainWork_ids : ∀ w a, R.payloadIds (PowAddon.setChainWork w a) = R.payloadIds a
  setChainWork_refs : ∀ w a, R.refs (PowAddon.setChainWork w a) = R.refs a
  setChainWork_stored : ∀ w (a : A), StoredAddon.toStored (PowAddon.setChainWork w a) = StoredAddon.toStored a
  addRef_ids : ∀ n a, R.payloadIds (PowAddon.addRef n a) = R.payloadIds a
  removeRef_ids : ∀ n a a', PowAddon.removeRef n a = some a' → R.payloadIds a' = R.payloadIds a
  setBlockOfProofEndorsements_ids : ∀ l a, R.payloadIds (PowAddon.setBlockOfProofEndorsements l a) = R.payloadIds a
  setBlockOfProofEndorsements_refs : ∀ l a, R.refs (PowAddon.setBlockOfProofEndorsements l a) = R.refs a

/-- A header may be accepted without a trace: it is unknown, or its block is dirty, or its level is not to rise. -/
def Tree.Tracked (t : Tree A) (h : Hash) : Prop :=
  ∀ b, t.getBlockIndex h = some b → b.dirty = true ∨ b.status.failedPop = true ∨ .connected ≤ b.status.level

theorem Changing.wlp_validateAndAddBlock (hB : D.bodies) (hF : D.fails) (hR : R.PoW) (ctx : Bool) (hD : D.levels ∨ t.Tracked block.getHash) :
    wlp (validateAndAddBlock p block ctx) (fun _ => Tree.Changes D R t) t := by
  simp only [validateAndAddBlock, wlp_bind, wlp_get, wlp_ite, wlp_pure]
  refine ⟨fun _ => .refl, fun _ => ?_⟩
  split
  . exact .refl
  . simp only [wlp_bind, wlp_getOrStop, wlp_ite, wlp_pure, wlp_modifyBlock, wlp_modify]
    refine fun ok _ => ⟨fun _ => .refl, fun _ => ?_⟩
    refine wlp_mono (wlp_insertBlockHeader (D := D) hB hR.toLawful (fun t => .block (fun b _ => .work _ ?_ ?_ ?_))) ?_
    . exact hR.setChainWork_ids _ _
    . exact hR.setChainWork_stored _ _
    . exact hR.setChainWork_refs _ _
    rintro _ t1 ⟨ht1, hdirty⟩
    refine wlp_mono (wlp_raiseValidity (D := D) (R := R) (fun b hb => ?_)) ?_
    . rcases hdirty with ⟨b', hb', hd'⟩ | ⟨rfl, hsome⟩
      . rw [show block.toBlock.hash = block.getHash from rfl, hb] at hb'
        cases hb'
        exact .inr (.inl hd')
      . refine hD.imp_right (fun htracked => htracked b ?_)
        obtain ⟨b', hb'⟩ := Option.isSome_iff_exists.mp hsome
        rw [show block.toBlock.hash = block.getHash from rfl] at hb'
        obtain ⟨hf, _⟩ := Tree.getBlockIndex_eq_some.mp hb'
        rw [hb] at hf
        cases hf
        exact hb'
    . intro _ t2 ht2
      refine ⟨fun _ => ?_, fun _ => ht1.trans ht2⟩
      have hflag : Tree.Change D R t2 (t2.update block.getHash (fun b => b.setFlag .failedChild)) :=
        .block (fun b _ => .failed .failedChild true (.inr (.inr rfl)) (.inl hF))
      exact ((ht1.trans ht2).tail hflag).tail (.fields rfl rfl rfl rfl rfl (.inl hB))

end PoW

section Trees

variable [BlockAddon A] [StoredAddon A S] {D : Permit} {R : TreeRules A} {P : σ → σ → Prop} {c : TreeClass σ A}

/-- Changes of a tree are changes of the state it is a part of. -/
structure Lifts (D : Permit) (R : TreeRules A) (P : σ → σ → Prop) (l : Lens σ (Tree A)) : Prop where
  refl : ∀ s, P s s
  trans : ∀ a b c, P a b → P b c → P a c
  lift : ∀ s t', Tree.Changes D R (l.get s) t' → P s (l.set t' s)

variable {l : Lens σ (Tree A)}

theorem Lifts.wlp_zoom {m : M (Tree A) α} {s : σ} (hl : Lifts D R P l)
    (hm : wlp m (fun _ => Tree.Changes D R (l.get s)) (l.get s)) : wlp (zoom l m) (fun _ => P s) s := by
  rw [Program.wlp_zoom]
  exact wlp_mono hm (fun _ t' ht' => hl.lift s t' ht')

theorem Lifts.zoom {m : M (Tree A) α} (hl : Lifts D R P l) (hm : Changing D R m) : Stays P (zoom l m) :=
  Stays.of_wlp hl.trans (fun s => hl.wlp_zoom (hm.wlp (fun _ => .refl) (l.get s)))

theorem Lifts.fields {f : Tree A → Tree A} (hl : Lifts D R P l) (hb : ∀ t, (f t).blocks = t.blocks)
    (hr : ∀ t, (f t).root = t.root) (hi : ∀ t, (f t).payloadsIndex = t.payloadsIndex)
    (hf : ∀ t, (f t).finalizedPayloadsIndex = t.finalizedPayloadsIndex) (hm : ∀ t, (f t).misindexed = t.misindexed)
    (hh : ∀ t, (f t).history = t.history) : Stays P (Program.zoom l (modify f)) :=
  hl.zoom (.change (fun t => .fields (hb t) (hr t) (hi t) (hf t) (hm t) (.inr (hh t))))

/-- What the virtual functions of a tree have to respect. -/
structure TreeClass.Follows (c : TreeClass σ A) (D : Permit) (R : TreeRules A) (P : σ → σ → Prop) : Prop
    extends Lifts D R P c.tree where
  setState : ∀ h, Stays P (c.setState h)
  determineBestChain : ∀ h, Stays P (c.determineBestChain h)

/-- Moreover a deleted block leaves the index by the rules. -/
structure TreeClass.Obeys (c : TreeClass σ A) (D : Permit) (R : TreeRules A) (P : σ → σ → Prop) : Prop
    extends c.Follows D R P where
  onBeforeLeafRemoved : c.onBeforeLeafRemoved = R.onBeforeLeafRemoved

namespace TreeClass.Follows

omit [BlockAddon A] [StoredAddon A S] in
theorem getTree : Stays P c.getTree := .bind .get (fun _ => .pure _)

variable (hc : c.Follows D R P)

include hc

theorem doUpdateTips : Stays P (doUpdateTips c) :=
  .bind getTree (fun _ => .bind (hc.fields (fun _ => rfl) (fun _ => rfl) (fun _ => rfl) (fun _ => rfl) (fun _ => rfl) (fun _ => rfl)) (fun _ =>
    .forEach (fun h => .bind getTree (fun _ => .bind Stays.check (fun _ => .bind (hc.determineBestChain h) (fun _ =>
      .bind getTree (fun _ => Stays.check))))) _))

theorem updateTips : Stays P (updateTips c) :=
  .bind getTree (fun _ => .ite hc.doUpdateTips (hc.fields (fun _ => rfl) (fun _ => rfl) (fun _ => rfl) (fun _ => rfl) (fun _ => rfl) (fun _ => rfl)))

theorem doUpdateAffectedTips (h : Hash) : Stays P (doUpdateAffectedTips c h) :=
  .bind getTree (fun _ => .bind (hc.fields (fun _ => rfl) (fun _ => rfl) (fun _ => rfl) (fun _ => rfl) (fun _ => rfl) (fun _ => rfl)) (fun _ =>
    .forEach hc.determineBestChain _))

theorem deferForkResolution : Stays P (deferForkResolution c) :=
  hc.fields (fun _ => rfl) (fun _ => rfl) (fun _ => rfl) (fun _ => rfl) (fun _ => rfl) (fun _ => rfl)

theorem overrideDeferredForkResolution (h : Hash) : Stays P (overrideDeferredForkResolution c h) :=
  .bind (hc.fields (fun _ => rfl) (fun _ => rfl) (fun _ => rfl) (fun _ => rfl) (fun _ => rfl) (fun _ => rfl)) (fun _ =>
    .bind (hc.setState h) (fun _ => Stays.check))

theorem continueForkResolution : Stays P (continueForkResolution c) :=
  .bind getTree (fun _ => .bind Stays.check (fun _ =>
    .bind (hc.fields (fun _ => rfl) (fun _ => rfl) (fun _ => rfl) (fun _ => rfl) (fun _ => rfl) (fun _ => rfl)) (fun _ => .when (.bind hc.doUpdateTips
      (fun _ => hc.fields (fun _ => rfl) (fun _ => rfl) (fun _ => rfl) (fun _ => rfl) (fun _ => rfl) (fun _ => rfl))))))

theorem setStateOrStop (h : Hash) : Stays P (setStateOrStop c h) :=
  .bind (hc.setState h) (fun _ => Stays.check)

theorem invalidateSubtree (hF : D.fails) (h : Hash) (r : BlockValidityStatus) (f : Bool) :
    Stays P (invalidateSubtree c h r f) := by
  refine .bind getTree (fun _ => .bind Stays.getOrStop (fun b => .bind Stays.getOrStop (fun prev => ?_)))
  refine Stays.of_wlp hc.trans (fun s => ?_)
  rw [wlp_bind, wlp_check]
  intro hr
  have hr : r = .failedBlock ∨ r = .failedPop ∨ r = .failedChild := by
    simp only [isValidInvalidationReason, Bool.or_eq_true, decide_eq_true_eq] at hr
    exact hr.imp_right .inl
  refine Stays.wlp (.ite (.pure _) (.ite (hc.zoom (Changing.doInvalidate h hr hF)) ?_)) hc.refl s
  exact .bind (.when (hc.setStateOrStop prev)) (fun _ => .bind (hc.zoom (Changing.flagSubtree h prev hr hF)) (fun _ =>
    .when hc.updateTips))

theorem revalidateSubtree (hF : D.fails) (h : Hash) (r : BlockValidityStatus) (f : Bool) :
    Stays P (revalidateSubtree c h r f) := by
  refine .bind getTree (fun _ => .bind Stays.getOrStop (fun b => .bind Stays.check (fun _ => ?_)))
  refine Stays.of_wlp hc.trans (fun s => ?_)
  rw [wlp_bind, wlp_check]
  intro hr
  have hr : r = .failedBlock ∨ r = .failedPop ∨ r = .failedChild := by
    simp only [isValidInvalidationReason, Bool.or_eq_true, decide_eq_true_eq] at hr
    exact hr.imp_right .inl
  refine Stays.wlp (.ite (.pure _) (.ite (hc.zoom (Changing.doReValidate h hr hF)) ?_)) hc.refl s
  exact .bind (hc.zoom (Changing.unflagSubtree h hr hF)) (fun _ => .when hc.updateTips)

end TreeClass.Follows

namespace TreeClass.Obeys

variable (hc : c.Obeys D R P) (hD : D.bodies)

include hc hD

theorem removeSubtree (h : Hash) : Stays P (removeSubtree c h) := by
  have hdelete : ∀ prev, Stays P (zoom c.tree (deleteSubtree c.onBeforeLeafRemoved h prev)) := by
    rw [hc.onBeforeLeafRemoved]
    exact fun prev => hc.zoom (Changing.deleteSubtree hD h prev)
  exact .bind Follows.getTree (fun _ => .bind Stays.getOrStop (fun _ => .bind Stays.getOrStop (fun prev =>
    .bind (.when (hc.setStateOrStop prev)) (fun _ => .bind (hdelete prev) (fun _ => .when hc.updateTips)))))

theorem removeLeaf (h : Hash) : Stays P (removeLeaf c h) :=
  .bind Follows.getTree (fun _ => .bind Stays.check (fun _ => hc.removeSubtree hD h))

end TreeClass.Obeys

end Trees

end AltIntegration
