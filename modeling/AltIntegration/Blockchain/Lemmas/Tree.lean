import AltIntegration.Blockchain.BaseBlockTree

/-!
This module contains the basic facts about a tree of blocks: what an update of one block changes, when
a tree is well formed, and how a property of the blocks and of the edges survives an update.
-/

namespace AltIntegration

variable {A : Type}

namespace BlockIndex

/-- The part of a block that never changes. -/
def shape (b : BlockIndex A) : Block × Option Hash × Nat := (b.header, b.pprev, b.height)

/-- An update keeps the part of a block that never changes. -/
def KeepsShape (f : BlockIndex A → BlockIndex A) : Prop := ∀ b, (f b).shape = b.shape

theorem shape_eq_iff {b b' : BlockIndex A} :
    b'.shape = b.shape ↔ b'.header = b.header ∧ b'.pprev = b.pprev ∧ b'.height = b.height := by
  simp [shape]

theorem KeepsShape.pprev {f : BlockIndex A → BlockIndex A} (hf : KeepsShape f) (b : BlockIndex A) :
    (f b).pprev = b.pprev := (shape_eq_iff.mp (hf b)).2.1

@[simp]
theorem setStatus_status (b : BlockIndex A) (s : BlockStatus) : (b.setStatus s).status = s := by
  unfold setStatus
  split
  . next h => exact h.symm
  . rfl

@[simp]
theorem setStatus_shape (b : BlockIndex A) (s : BlockStatus) : (b.setStatus s).shape = b.shape := by
  unfold setStatus
  split
  . rfl
  . rfl

@[simp]
theorem setStatus_addon (b : BlockIndex A) (s : BlockStatus) : (b.setStatus s).addon = b.addon := by
  unfold setStatus
  split
  . rfl
  . rfl

@[simp]
theorem setStatus_finalized (b : BlockIndex A) (s : BlockStatus) :
    (b.setStatus s).finalized = b.finalized := by
  unfold setStatus
  split
  . rfl
  . rfl

theorem setFlag_status (b : BlockIndex A) (s : BlockValidityStatus) :
    (b.setFlag s).status = b.status.assign true s := setStatus_status _ _

theorem unsetFlag_status (b : BlockIndex A) (s : BlockValidityStatus) :
    (b.unsetFlag s).status = b.status.assign false s := setStatus_status _ _

theorem keepsShape_setFlag (s : BlockValidityStatus) : KeepsShape (fun b : BlockIndex A => b.setFlag s) :=
  fun _ => setStatus_shape _ _

theorem keepsShape_unsetFlag (s : BlockValidityStatus) :
    KeepsShape (fun b : BlockIndex A => b.unsetFlag s) :=
  fun _ => setStatus_shape _ _

theorem keepsShape_setLevel (l : BlockStateStatus) : KeepsShape (fun b : BlockIndex A => b.setLevel l) :=
  fun _ => rfl

theorem keepsShape_deleteTemporarily [BlockAddon A] :
    KeepsShape (fun b : BlockIndex A => b.deleteTemporarily) :=
  fun _ => rfl

end BlockIndex

open BlockIndex

namespace Tree

variable {t : Tree A} {h x : Hash} {f : BlockIndex A → BlockIndex A}

theorem find?_update (t : Tree A) (h : Hash) (f : BlockIndex A → BlockIndex A) (x : Hash) :
    (t.update h f).find? x = if h = x then (t.find? x).map f else t.find? x :=
  Store.find?_modify _ _ _ _

@[simp]
theorem find?_update_self (t : Tree A) (h : Hash) (f : BlockIndex A → BlockIndex A) :
    (t.update h f).find? h = (t.find? h).map f := by
  simp [find?_update]

theorem find?_update_of_ne {x : Hash} (hx : h ≠ x) : (t.update h f).find? x = t.find? x := by
  simp [find?_update, hx]

/-- The block `c` comes right after the block `x`. -/
def IsChild (t : Tree A) (c x : Hash) : Prop := ∃ b, t.find? c = some b ∧ b.pprev = some x

@[simp]
theorem mem_eraseTip : x ∈ (t.eraseTip h).tips ↔ x ∈ t.tips ∧ x ≠ h := by
  simp [eraseTip]

@[simp]
theorem find?_eraseTip : (t.eraseTip h).find? x = t.find? x := rfl

theorem mem_insertTip : x ∈ (t.insertTip h).tips ↔ x = h ∨ x ∈ t.tips := by
  unfold insertTip
  split
  . next hmem =>
    constructor
    . exact .inr
    . rintro (rfl | hx)
      . exact hmem
      . exact hx
  . simp

/-- `t'` has the blocks of `t`, as far as `g` can tell. -/
structure SameOn {γ : Type} (g : BlockIndex A → γ) (t t' : Tree A) : Prop where
  keys : t'.blocks.keys = t.blocks.keys
  same : ∀ x, (t'.find? x).map g = (t.find? x).map g

namespace SameOn

variable {γ δ : Type} {g : BlockIndex A → γ} {t t' t'' : Tree A}

theorem refl (t : Tree A) : SameOn g t t := ⟨rfl, fun _ => rfl⟩

theorem trans (h : SameOn g t t') (h' : SameOn g t' t'') : SameOn g t t'' :=
  ⟨h'.keys.trans h.keys, fun x => (h'.same x).trans (h.same x)⟩

theorem symm (h : SameOn g t t') : SameOn g t' t := ⟨h.keys.symm, fun x => (h.same x).symm⟩

theorem comp (h : SameOn g t t') (k : γ → δ) : SameOn (fun b => k (g b)) t t' := by
  refine ⟨h.keys, fun x => ?_⟩
  have hk := congrArg (Option.map k) (h.same x)
  rw [Option.map_map, Option.map_map] at hk
  exact hk

theorem update (t : Tree A) (h : Hash) (hf : ∀ b, t.find? h = some b → g (f b) = g b) :
    SameOn g t (t.update h f) := by
  refine ⟨Store.keys_modify _ _ _, fun x => ?_⟩
  rw [find?_update]
  split
  . next heq =>
    subst heq
    cases hb : t.find? h with
    | none => rfl
    | some b => simp [hf b hb]
  . rfl

theorem of_blocks_eq (h : t'.blocks = t.blocks) : SameOn g t t' := by
  refine ⟨by rw [h], fun x => ?_⟩
  unfold Tree.find?
  rw [h]

theorem eraseTip (hs : SameOn g t t') (h : Hash) : SameOn g t (t'.eraseTip h) :=
  hs.trans (of_blocks_eq rfl)

theorem find? (hs : SameOn g t t') {x : Hash} {b' : BlockIndex A} (hb' : t'.find? x = some b') :
    ∃ b, t.find? x = some b ∧ g b = g b' := by
  have hx := hs.same x
  rw [hb'] at hx
  cases hb : t.find? x with
  | none => simp [hb] at hx
  | some b =>
    simp only [hb, Option.map_some, Option.some.injEq] at hx
    exact ⟨b, rfl, hx.symm⟩

end SameOn

/-- `t'` has the blocks of `t`, up to their status and the data of their kind. -/
abbrev SameShape (t t' : Tree A) : Prop := SameOn BlockIndex.shape t t'

theorem SameShape.update (t : Tree A) (h : Hash) (hf : KeepsShape f) : SameShape t (t.update h f) :=
  SameOn.update t h (fun b _ => hf b)

theorem SameShape.isChild {t t' : Tree A} (hs : SameShape t t') (c x : Hash) :
    t'.IsChild c x ↔ t.IsChild c x := by
  constructor
  . rintro ⟨b', hb', hp⟩
    obtain ⟨b, hb, heq⟩ := hs.find? hb'
    exact ⟨b, hb, (shape_eq_iff.mp heq).2.1.trans hp⟩
  . rintro ⟨b, hb, hp⟩
    obtain ⟨b', hb', heq⟩ := hs.symm.find? hb
    exact ⟨b', hb', (shape_eq_iff.mp heq).2.1.trans hp⟩

/-- The blocks of a tree are connected through `pprev`, with heights that count. -/
structure WF (t : Tree A) : Prop where
  nodup : t.blocks.keys.Nodup
  hash : ∀ {x b}, t.find? x = some b → b.header.hash = x
  prev : ∀ {x b p}, t.find? x = some b → b.pprev = some p → b.header.previousBlock = p
  parent : ∀ {x b p}, t.find? x = some b → b.pprev = some p →
    ∃ bp, t.find? p = some bp ∧ b.height = bp.height + 1

namespace WF

theorem congr {t t' : Tree A} (hs : SameShape t t') (ht : t.WF) : t'.WF := by
  refine ⟨hs.keys ▸ ht.nodup, fun {x b'} hb' => ?_, fun {x b' p} hb' hp => ?_, fun {x b' p} hb' hp => ?_⟩
  . obtain ⟨b, hb, heq⟩ := hs.find? hb'
    rw [← (shape_eq_iff.mp heq).1]
    exact ht.hash hb
  . obtain ⟨b, hb, heq⟩ := hs.find? hb'
    obtain ⟨hh, hpp, _⟩ := shape_eq_iff.mp heq
    rw [← hh]
    exact ht.prev hb (hpp.trans hp)
  . obtain ⟨b, hb, heq⟩ := hs.find? hb'
    obtain ⟨_, hpp, hh⟩ := shape_eq_iff.mp heq
    obtain ⟨bp, hbp, hbh⟩ := ht.parent hb (hpp.trans hp)
    obtain ⟨bp', hbp', heq'⟩ := hs.symm.find? hbp
    refine ⟨bp', hbp', ?_⟩
    rw [← hh, hbh, (shape_eq_iff.mp heq').2.2]

theorem ne_parent (ht : t.WF) {x : Hash} {b : BlockIndex A} {p : Hash} (hb : t.find? x = some b)
    (hp : b.pprev = some p) : p ≠ x := by
  intro heq
  subst heq
  obtain ⟨bp, hbp, hh⟩ := ht.parent hb hp
  rw [hb] at hbp
  cases hbp
  omega

theorem mem_pnext (ht : t.WF) {c x : Hash} : c ∈ t.pnext x ↔ t.IsChild c x := by
  unfold Tree.pnext IsChild
  rw [Store.mem_keysWhere ht.nodup]
  simp only [decide_eq_true_eq]
  rfl

theorem anyNext_iff (ht : t.WF) {x : Hash} {q : BlockIndex A → Bool} :
    t.anyNext x q = true ↔ ∃ c b, t.find? c = some b ∧ b.pprev = some x ∧ q b = true := by
  unfold Tree.anyNext
  rw [List.any_eq_true]
  constructor
  . rintro ⟨c, hc, hq⟩
    obtain ⟨b, hb, hp⟩ := ht.mem_pnext.mp hc
    rw [hb] at hq
    exact ⟨c, b, hb, hp, by simpa using hq⟩
  . rintro ⟨c, b, hb, hp, hq⟩
    refine ⟨c, ht.mem_pnext.mpr ⟨b, hb, hp⟩, ?_⟩
    rw [hb]
    simpa using hq

theorem anyNext_eq_false_iff (ht : t.WF) {x : Hash} {q : BlockIndex A → Bool} :
    t.anyNext x q = false ↔ ∀ c b, t.find? c = some b → b.pprev = some x → q b = false := by
  rw [← Bool.not_eq_true, ht.anyNext_iff]
  simp

end WF

theorem WF.pnext_eq_of_sameShape {t t' : Tree A} (ht : t.WF) (hs : SameShape t t') {c x : Hash} :
    c ∈ t'.pnext x ↔ c ∈ t.pnext x := by
  rw [ht.mem_pnext, (ht.congr hs).mem_pnext, hs.isChild]

/-- Every block has the property `P`. -/
def Nodes (P : Hash → BlockIndex A → Prop) (t : Tree A) : Prop :=
  ∀ ⦃x b⦄, t.find? x = some b → P x b

/-- Every block and its parent are in the relation `R`. -/
def Edges (R : Hash → BlockIndex A → BlockIndex A → Prop) (t : Tree A) : Prop :=
  ∀ ⦃x b p bp⦄, t.find? x = some b → b.pprev = some p → t.find? p = some bp → R x b bp

theorem Nodes.congr {γ : Type} {g : BlockIndex A → γ} {P : Hash → BlockIndex A → Prop} {t t' : Tree A}
    (ht : t.Nodes P) (hs : SameOn g t t') (hP : ∀ x b b', g b = g b' → P x b → P x b') : t'.Nodes P := by
  intro x b' hb'
  obtain ⟨b, hb, heq⟩ := hs.find? hb'
  exact hP x b b' heq (ht hb)

theorem Edges.congr {γ : Type} {g : BlockIndex A → γ} {R : Hash → BlockIndex A → BlockIndex A → Prop}
    {t t' : Tree A} (ht : t.Edges R) (hs : SameOn g t t')
    (hg : ∀ b b' : BlockIndex A, g b = g b' → b.pprev = b'.pprev)
    (hR : ∀ x b b' bp bp', g b = g b' → g bp = g bp' → R x b bp → R x b' bp') : t'.Edges R := by
  intro x b' p bp' hb' hp hbp'
  obtain ⟨b, hb, heq⟩ := hs.find? hb'
  obtain ⟨bp, hbp, heq'⟩ := hs.find? hbp'
  exact hR x b b' bp bp' heq heq' (ht hb ((hg b b' heq).trans hp) hbp)

theorem Nodes.update {P P' : Hash → BlockIndex A → Prop} (ht : t.Nodes P)
    (hself : ∀ b, t.find? h = some b → P h b → P' h (f b))
    (hother : ∀ x b, t.find? x = some b → x ≠ h → P x b → P' x b) : (t.update h f).Nodes P' := by
  intro x b hb
  rw [find?_update] at hb
  split at hb
  . next heq =>
    subst heq
    obtain ⟨b', hb', rfl⟩ := Option.map_eq_some_iff.mp hb
    exact hself b' hb' (ht hb')
  . next hne => exact hother x b hb (fun h => hne h.symm) (ht hb)

theorem Edges.update {R R' : Hash → BlockIndex A → BlockIndex A → Prop} (ht : t.Edges R)
    (hwf : t.WF) (hf : KeepsShape f)
    (hparent : ∀ b p bp, t.find? h = some b → b.pprev = some p → t.find? p = some bp → R h b bp →
      R' h (f b) bp)
    (hchild : ∀ x b bp, t.find? x = some b → b.pprev = some h → t.find? h = some bp → R x b bp →
      R' x b (f bp))
    (hother : ∀ x b bp, t.find? x = some b → b.pprev ≠ some h → x ≠ h → R x b bp → R' x b bp) :
    (t.update h f).Edges R' := by
  intro x b p bp hb hp hbp
  rw [find?_update] at hb hbp
  by_cases hx : h = x
  . subst hx
    simp only [↓reduceIte] at hb
    obtain ⟨b', hb', rfl⟩ := Option.map_eq_some_iff.mp hb
    rw [hf.pprev] at hp
    have hne := hwf.ne_parent hb' hp
    rw [if_neg (fun heq => hne heq.symm)] at hbp
    exact hparent b' p bp hb' hp hbp (ht hb' hp hbp)
  . rw [if_neg hx] at hb
    by_cases hph : h = p
    . subst hph
      simp only [↓reduceIte] at hbp
      obtain ⟨bp', hbp', rfl⟩ := Option.map_eq_some_iff.mp hbp
      exact hchild x b bp' hb hp hbp' (ht hb hp hbp')
    . rw [if_neg hph] at hbp
      refine hother x b bp hb ?_ (fun heq => hx heq.symm) (ht hb hp hbp)
      rw [hp]
      intro heq
      exact hph (Option.some.inj heq).symm

end Tree

end AltIntegration
