import Mathlib.Data.Set.Insert
import AltIntegration.Control.Twp
import AltIntegration.Blockchain.Lemmas.Connect

/-!
This module contains what the ALT tree is while the bodies of its blocks arrive: it is determined by the bodies
that have been delivered and the blocks that have been connected, and `connectBlock` connects one more.
-/

namespace AltIntegration

open Program BlockIndex

/-- The ids that a body leaves in its block. -/
def PopData.payloadIds (p : PopData) : List PayloadId :=
  AltAddon.payloadIds
    { vbkblockids := p.context.map PowBlock.getHash, vtbids := p.vtbs.map VTB.getId, atvids := p.atvs.map ATV.getId }

/-- The bodies that have been delivered. -/
abbrev Bodies := Hash → Option PopData

namespace Bodies

def ids (S : Bodies) (x : Hash) : List PayloadId := (S x).elim [] PopData.payloadIds

def insert (S : Bodies) (h : Hash) (p : PopData) : Bodies := fun x => if x = h then some p else S x

end Bodies

section Delivery

variable (t₀ : Tree AltAddon) (S : Bodies) (C : Set Hash)

/-- The block and all blocks before it have their bodies, but for the root, which needs none. -/
def Complete (x : Hash) : Prop := ∀ a ∈ t₀.chainTo x, a = t₀.root ∨ (S a).isSome = true

/-- A payload of the block is in a block before it. -/
def Duplicate (x : Hash) : Prop := ∃ p, t₀.IsChild x p ∧ ∃ a ∈ t₀.chainTo p, ∃ id ∈ S.ids x, id ∈ S.ids a

/-- What a block is, but for what it inherits. -/
structure Expected (x : Hash) (b : BlockIndex AltAddon) : Prop where
  root : b.pprev = none → b.status = { level := .canBeApplied, bootstrap := true, active := true }
  child : b.pprev ≠ none → ∃ connected pop : Bool, (connected = true ↔ x ∈ C) ∧
    (pop = true ↔ x ∈ C ∧ Duplicate t₀ S x) ∧ { b.status with failedChild := false } =
      ({ level := if connected then .connected else .validTree
         failedPop := pop
         hasPayloads := (S x).isSome } : BlockStatus)
  ids : b.addon.payloadIds = S.ids x

/-- On the headers `t₀` the bodies `S` have been delivered and the blocks `C` have been connected. -/
structure Delivery (t : Tree AltAddon) : Prop where
  shape : t₀.SameShape t
  inv : t.Inv .validTree []
  rooted : t₀.Rooted
  root : t.root = t₀.root
  activeTip : t.activeTip = t₀.root
  finalized : t.finalizedPayloadsIndex = []
  blocks : t.Nodes (Expected t₀ S C)
  index : ∀ id x, (id, x) ∈ t.payloadsIndex ↔ id ∈ S.ids x
  known : ∀ x, (S x).isSome = true → ∃ p, t₀.IsChild x p
  connected : t₀.root ∈ C

end Delivery

section Blocks

variable {t₀ t : Tree AltAddon} {S : Bodies} {C : Set Hash} {x p h : Hash} {b : BlockIndex AltAddon}

namespace Delivery

variable (hd : Delivery t₀ S C t)

include hd

theorem wf : t₀.WF := hd.inv.wf.congr hd.shape.symm

theorem isChild : t.IsChild x p ↔ t₀.IsChild x p := hd.shape.isChild x p

theorem find?_child (hx : t₀.IsChild x p) : ∃ b, t.find? x = some b ∧ b.pprev = some p := hd.isChild.mpr hx

theorem level (hb : t.find? x = some b) (hp : b.pprev = some p) :
    (x ∈ C → b.status.level = .connected) ∧ (x ∉ C → b.status.level = .validTree) := by
  obtain ⟨connected, pop, hC, _, h⟩ := (hd.blocks hb).child (hp ▸ Option.some_ne_none p)
  have h' : b.status.level = if connected then .connected else .validTree := congrArg BlockStatus.level h
  rw [← hC, h']
  cases connected with
  | true => exact ⟨fun _ => rfl, fun h => absurd rfl h⟩
  | false => exact ⟨(by cases ·), fun _ => rfl⟩

theorem failedPop_iff (hb : t.find? x = some b) (hp : b.pprev = some p) :
    b.status.failedPop = true ↔ x ∈ C ∧ Duplicate t₀ S x := by
  obtain ⟨connected, pop, _, hpop, h⟩ := (hd.blocks hb).child (hp ▸ Option.some_ne_none p)
  rw [show b.status.failedPop = pop from congrArg BlockStatus.failedPop h]
  exact hpop

/-- What is the same for all blocks but the root. -/
theorem plain (hb : t.find? x = some b) (hp : b.pprev = some p) : b.status.hasPayloads = (S x).isSome ∧
    b.status.active = false ∧ b.status.deleted = false ∧ b.status.failedBlock = false := by
  obtain ⟨_, _, _, _, h⟩ := (hd.blocks hb).child (hp ▸ Option.some_ne_none p)
  exact ⟨congrArg BlockStatus.hasPayloads h, congrArg BlockStatus.active h, congrArg BlockStatus.deleted h,
    congrArg BlockStatus.failedBlock h⟩

theorem root_status (hb : t.find? x = some b) (hp : b.pprev = none) :
    b.status = { level := .canBeApplied, bootstrap := true, active := true } :=
  (hd.blocks hb).root hp

theorem eq_root (hb : t.find? x = some b) (hp : b.pprev = none) : x = t₀.root := by
  obtain ⟨b₀, hb₀, heq⟩ := hd.shape.find? hb
  exact hd.rooted hb₀ ((shape_eq_iff.mp heq).2.1.trans hp)

theorem deleted (hb : t.find? x = some b) : b.status.deleted = false := by
  cases hp : b.pprev with
  | none => rw [hd.root_status hb hp]
  | some p => exact (hd.plain hb hp).2.2.1

theorem isConnected_iff (hb : t.find? x = some b) : b.isConnected = true ↔ x ∈ C := by
  rw [isConnected, isValidUpTo, decide_eq_true_iff]
  cases hp : b.pprev with
  | none =>
    rw [hd.root_status hb hp, hd.eq_root hb hp]
    exact ⟨fun _ => hd.connected, fun _ => by decide⟩
  | some p =>
    obtain ⟨hin, hout⟩ := hd.level hb hp
    by_cases hx : x ∈ C
    . rw [hin hx]
      exact ⟨fun _ => hx, fun _ => by decide⟩
    . rw [hout hx]
      exact ⟨fun h => absurd h (by decide), fun h => absurd h hx⟩

end Delivery

/-- `hasStatefulDuplicates` -/
theorem any_isStatefulDuplicate_iff (hs : t₀.SameShape t) (ht : t₀.WF) (hdel : ∀ x b, t.find? x = some b → b.status.deleted = false)
    (hindex : ∀ id x, (id, x) ∈ t.payloadsIndex ↔ id ∈ S.ids x) (hfinal : t.finalizedPayloadsIndex = [])
    (hx : t₀.IsChild x p) :
    (S.ids x).any (AltBlockTree.isStatefulDuplicate t p) = true ↔ Duplicate t₀ S x := by
  unfold AltBlockTree.isStatefulDuplicate
  simp only [hfinal, List.any_eq_true, List.any_nil, Bool.or_false, Bool.and_eq_true, decide_eq_true_eq, hs.chainTo,
    List.contains_iff_mem, Prod.exists]
  constructor
  . rintro ⟨id, hid, id', a, hmem, ⟨rfl, _⟩, ha⟩
    exact ⟨p, hx, a, ha, id', hid, (hindex id' a).mp hmem⟩
  . rintro ⟨p', hx', a, ha, id, hid, hida⟩
    have hpp : p = p' := Tree.IsChild.unique hx' hx
    subst hpp
    refine ⟨id, hid, id, a, (hindex id a).mpr hida, ⟨rfl, ?_⟩, ha⟩
    obtain ⟨b₀, hb₀⟩ := ht.find?_of_mem_chainTo ha
    obtain ⟨b, hb, _⟩ := hs.symm.find? hb₀
    rw [Option.isSome_iff_exists]
    exact ⟨b, Tree.getBlockIndex_eq_some.mpr ⟨hb, hdel a b hb⟩⟩

/-- Inherited flags do not matter. -/
theorem Expected.congr {b' : BlockIndex AltAddon} (hb : Expected t₀ S C x b) (heq : b.own = b'.own) :
    Expected t₀ S C x b' := by
  obtain ⟨hshape, hstatus, haddon⟩ := (Prod.mk.inj heq).imp_right Prod.mk.inj
  have hpprev : b.pprev = b'.pprev := (shape_eq_iff.mp hshape).2.1
  refine ⟨fun hp => ?_, fun hp => ?_, haddon ▸ hb.ids⟩
  . rw [← ownStatus_root hp, ← hstatus, ownStatus_root (hpprev.trans hp)]
    exact hb.root (hpprev.trans hp)
  . rw [← ownStatus_child hp, ← hstatus, ownStatus_child (hpprev ▸ hp)]
    exact hb.child (hpprev ▸ hp)

theorem Expected.mono {C' : Set Hash} (hb : Expected t₀ S C x b) (hC : x ∈ C' ↔ x ∈ C) : Expected t₀ S C' x b := by
  refine ⟨hb.root, fun hp => ?_, hb.ids⟩
  rw [hC]
  exact hb.child hp

namespace Delivery

variable {cfg : Config} {s : AltState}

/-- One more block is connected. The tree has changed in that block alone, but for what others inherit. -/
theorem connect {t' : Tree AltAddon} (hd : Delivery t₀ S C t) (hinv : t'.Inv .validTree [])
    {f : BlockIndex AltAddon → BlockIndex AltAddon} (hf : KeepsShape f) (ht' : (t.update h f).Inherits t')
    (hh : ∀ b, t.find? h = some b → Expected t₀ S (insert h C) h (f b)) : Delivery t₀ S (insert h C) t' := by
  have hfixed : t'.fixed = t.fixed := ht'.fixed
  refine ⟨(hd.shape.trans (Tree.SameShape.update t h hf)).trans ht'.shape, hinv, hd.rooted,
    (Tree.fixed_root hfixed).trans hd.root, (Tree.fixed_activeTip hfixed).trans hd.activeTip, ?_, ?_, ?_, hd.known,
    Set.mem_insert_of_mem h hd.connected⟩
  . have h' := congrArg (fun u : Tree AltAddon => u.finalizedPayloadsIndex) hfixed
    exact Eq.trans h' hd.finalized
  . intro x b' hb'
    obtain ⟨b1, hb1, heq⟩ := ht'.own.find? hb'
    refine Expected.congr ?_ heq
    rw [Tree.find?_update] at hb1
    split at hb1
    . next hx =>
      subst hx
      obtain ⟨b, hb, rfl⟩ := Option.map_eq_some_iff.mp hb1
      exact hh b hb
    . next hx => exact (hd.blocks hb1).mono (Set.mem_insert_iff.trans (or_iff_right (fun h => hx h.symm)))
  . intro id x
    have h' := congrArg (fun u : Tree AltAddon => u.payloadsIndex) hfixed
    rw [show t'.payloadsIndex = t.payloadsIndex from h']
    exact hd.index id x

/-- What is so about a block that can be connected. -/
theorem unconnected (hd : Delivery t₀ S C t) (hb : t.find? h = some b) (hbp : b.pprev = some p) (hC : h ∉ C) :
    b.status.level = .validTree ∧ b.status.failedPop = false ∧ b.isConnected = false := by
  refine ⟨(hd.level hb hbp).2 hC, ?_, ?_⟩
  . rw [← Bool.not_eq_true, hd.failedPop_iff hb hbp]
    exact fun h => hC h.1
  . rw [← Bool.not_eq_true, hd.isConnected_iff hb]
    exact hC

/-- The level of a connected block -/
theorem connected_le (hd : Delivery t₀ S C t) (hb : t.find? x = some b) (hx : x ∈ C) : .connected ≤ b.status.level := by
  have h := (hd.isConnected_iff hb).mpr hx
  rwa [isConnected, isValidUpTo, decide_eq_true_iff] at h

theorem onActiveChain (hd : Delivery t₀ S C t) (hx : t₀.IsChild h p) : t.onActiveChain h = false := by
  rw [← Bool.not_eq_true]
  intro hon
  rw [Tree.onActiveChain, hd.activeTip, List.contains_iff_mem, hd.shape.chainTo] at hon
  obtain ⟨b₀, hb₀, hp₀⟩ := hx
  have hroot := hd.wf.root_mem_chainTo hd.rooted hb₀
  have heq := hd.wf.chainTo_antisymm hon hroot
  obtain ⟨b₁, hb₁, _⟩ := hd.wf.parent hb₀ hp₀
  have hmem := hd.wf.root_mem_chainTo hd.rooted hb₁
  rw [← heq] at hmem
  have hle := hd.wf.heightOf_le hmem
  have hlt := hd.wf.heightOf_child ⟨b₀, hb₀, hp₀⟩
  omega

/-- The block is as it should be once its level is raised, and `BLOCK_FAILED_POP` is set if need be. -/
theorem expected_connected (hd : Delivery t₀ S C t) (hb : t.find? h = some b) (hbp : b.pprev = some p)
    (pop : Bool) (hpop : pop = true ↔ Duplicate t₀ S h) {b' : BlockIndex AltAddon} (hshape : b'.shape = b.shape)
    (hstatus : b'.status = { b.status with level := .connected, failedPop := pop }) (haddon : b'.addon = b.addon) :
    Expected t₀ S (insert h C) h b' := by
  have hp' : b'.pprev = some p := (shape_eq_iff.mp hshape).2.1.trans hbp
  refine ⟨fun hp => ?_, fun _ => ⟨true, pop, ?_, ?_, ?_⟩, haddon ▸ (hd.blocks hb).ids⟩
  . rw [hp'] at hp
    cases hp
  . exact ⟨fun _ => Set.mem_insert h C, fun _ => rfl⟩
  . rw [hpop]
    exact ⟨fun h' => ⟨Set.mem_insert h C, h'⟩, fun h' => h'.2⟩
  . obtain ⟨_, _, _, _, heq⟩ := (hd.blocks hb).child (hbp ▸ Option.some_ne_none p)
    have h' := congrArg (fun s : BlockStatus => { s with level := .connected, failedPop := pop }) heq
    rw [hstatus]
    exact h'

/-- A block with its body that comes after a connected one can be connected. -/
theorem connectible (hd : Delivery t₀ S C t) (hb : t.find? h = some b) (hbp : b.pprev = some p) (hS : (S h).isSome = true)
    (hC : h ∉ C) (hp : p ∈ C) (hchild : ∀ c, t₀.IsChild c h → c ∉ C) : t.Connectible h p b := by
  obtain ⟨bp, hbp', _⟩ := hd.inv.wf.parent hb hbp
  obtain ⟨hlevel, hpop, _⟩ := hd.unconnected hb hbp hC
  obtain ⟨hpayloads, hactive, hdel, _⟩ := hd.plain hb hbp
  refine ⟨hb, hbp, hpayloads.trans hS, hlevel, hpop, hactive, hdel, ⟨bp, hbp', hd.connected_le hbp' hp⟩, ?_,
    hd.onActiveChain (hd.isChild.mp ⟨b, hb, hbp⟩)⟩
  refine hd.inv.wf.anyNext_eq_false_iff.mpr (fun c bc hbc hpc => ?_)
  rw [← Bool.not_eq_true, hd.isConnected_iff hbc]
  exact hchild c (hd.isChild.mp ⟨bc, hbc, hpc⟩)

theorem twp_connectBlock (hd : Delivery t₀ S C s.alt) (hx : t₀.IsChild h p) (hS : (S h).isSome = true) (hC : h ∉ C)
    (hp : p ∈ C) (hchild : ∀ c, t₀.IsChild c h → c ∉ C) :
    twp (AltBlockTree.connectBlock cfg h) (fun _ s' => Delivery t₀ S (insert h C) s'.alt) s := by
  obtain ⟨b, hb, hbp⟩ := hd.find?_child hx
  have hc := hd.connectible hb hbp hS hC hp hchild
  have hshape := Tree.SameShape.update s.alt h (keepsShape_setLevel (A := AltAddon) .connected)
  have hdup := any_isStatefulDuplicate_iff (t := s.alt.update h (fun b => b.setLevel .connected)) (S := S)
    (hd.shape.trans hshape) hd.wf (fun x b' hb' => ?_) hd.index hd.finalized hx
  . rw [← (hd.blocks hb).ids] at hdup
    refine twp_mono (hc.twp_connectBlock hd.inv) ?_
    rintro _ _ ⟨t', rfl, hinv, hi⟩
    refine hd.connect hinv (keepsShape_connectedAs _) hi (fun b' hb' => ?_)
    rw [hb] at hb'
    cases hb'
    exact hd.expected_connected hb hbp _ hdup (keepsShape_connectedAs _ b) (connectedAs_status _ hc.failedPop)
      (connectedAs_addon _ b)
  . rw [Tree.find?_update] at hb'
    split at hb'
    . obtain ⟨b1, hb1, rfl⟩ := Option.map_eq_some_iff.mp hb'
      have hdel := hd.deleted hb1
      exact hdel
    . exact hd.deleted hb'

end Delivery

/-- The blocks that are connected together with `h`: they have their bodies, and the blocks between have theirs. -/
inductive Waits (t₀ : Tree AltAddon) (S : Bodies) : Hash → Hash → Prop where
  | self {h : Hash} (hS : (S h).isSome = true) : Waits t₀ S h h
  | above {h c y : Hash} (hS : (S h).isSome = true) (hc : t₀.IsChild c h) (hy : Waits t₀ S c y) : Waits t₀ S h y

theorem Waits.mem_chainTo {y : Hash} (ht : t₀.WF) (hy : Waits t₀ S h y) (hh : ∃ b, t₀.find? h = some b) :
    h ∈ t₀.chainTo y := by
  induction hy with
  | self _ =>
    obtain ⟨b, hb⟩ := hh
    exact ht.mem_chainTo_self hb
  | above _ hc _ ih => exact ht.mem_chainTo_of_child (ih (hc.imp fun _ h => h.1)) hc

theorem waits_iff {y : Hash} (hS : (S h).isSome = true) : Waits t₀ S h y ↔ y = h ∨ ∃ c, t₀.IsChild c h ∧ Waits t₀ S c y := by
  constructor
  . intro hy
    cases hy with
    | self _ => exact .inl rfl
    | above _ hc hy => exact .inr ⟨_, hc, hy⟩
  . rintro (rfl | ⟨c, hc, hy⟩)
    . exact .self hS
    . exact .above hS hc hy

namespace Delivery

variable {cfg : Config} {s : AltState}

/-- The blocks that are connected when those above the children in `l` are still to come. -/
def partly (t₀ : Tree AltAddon) (S : Bodies) (C : Set Hash) (h : Hash) (l : List Hash) : Set Hash :=
  {y | y ∈ C ∨ y = h ∨ ∃ c, t₀.IsChild c h ∧ c ∉ l ∧ Waits t₀ S c y}

theorem partly_all {l : List Hash} (hl : ∀ c, t₀.IsChild c h → c ∈ l) : partly t₀ S C h l = insert h C := by
  ext y
  constructor
  . rintro (hy | rfl | ⟨c, hc, hcl, _⟩)
    . exact .inr hy
    . exact .inl rfl
    . exact absurd (hl c hc) hcl
  . rintro (rfl | hy)
    . exact .inr (.inl rfl)
    . exact .inl hy

theorem partly_cons {c : Hash} {l : List Hash} (hc : t₀.IsChild c h) (hcl : c ∉ l) :
    partly t₀ S C h (c :: l) ∪ {y | Waits t₀ S c y} = partly t₀ S C h l := by
  ext y
  constructor
  . rintro ((hy | hy | ⟨c', hc', hmem, hy⟩) | hy)
    . exact .inl hy
    . exact .inr (.inl hy)
    . exact .inr (.inr ⟨c', hc', fun h => hmem (List.mem_cons_of_mem c h), hy⟩)
    . exact .inr (.inr ⟨c, hc, hcl, hy⟩)
  . rintro (hy | hy | ⟨c', hc', hmem, hy⟩)
    . exact .inl (.inl hy)
    . exact .inl (.inr (.inl hy))
    . by_cases heq : c' = c
      . subst heq
        exact .inr hy
      . exact .inl (.inr (.inr ⟨c', hc', fun h => (List.mem_cons.mp h).elim heq hmem, hy⟩))

theorem partly_nil (hS : (S h).isSome = true) : partly t₀ S C h [] = C ∪ {y | Waits t₀ S h y} := by
  ext y
  simp only [partly, List.not_mem_nil, not_false_eq_true, true_and, Set.mem_union, Set.mem_ofPred_eq, waits_iff hS]

/-- Nothing above a child that is still to come is connected. -/
theorem not_mem_partly {c y : Hash} {l : List Hash} (ht : t₀.WF) (hfree : ∀ y, h ∈ t₀.chainTo y → y ∉ C)
    (hc : t₀.IsChild c h) (hcl : c ∈ l) (hy : c ∈ t₀.chainTo y) : y ∉ partly t₀ S C h l := by
  have hh : h ∈ t₀.chainTo y := ht.mem_chainTo_of_child hy hc
  have hheight := ht.heightOf_child hc
  rintro (hmem | rfl | ⟨c', hc', hcl', hw⟩)
  . exact hfree y hh hmem
  . have hle := ht.heightOf_le hy
    omega
  . have hc'y := hw.mem_chainTo ht (hc'.imp fun _ h => h.1)
    have heq := ht.eq_of_heightOf_eq hy hc'y (hheight.trans (ht.heightOf_child hc').symm)
    rw [heq] at hcl
    exact hcl' hcl

theorem twp_connectSubtree (n : Nat) (hd : Delivery t₀ S C s.alt) (hx : t₀.IsChild h p) (hp : p ∈ C)
    (hfree : ∀ y, h ∈ t₀.chainTo y → y ∉ C) (hn : ∀ y, h ∈ t₀.chainTo y → t₀.heightOf y < t₀.heightOf h + n) :
    twp (AltBlockTree.connectSubtree cfg n h) (fun _ s' => Delivery t₀ S (C ∪ {y | Waits t₀ S h y}) s'.alt) s := by
  induction n generalizing s h p C with
  | zero =>
    obtain ⟨b₀, hb₀, _⟩ := hx
    have hlt := hn h (hd.wf.mem_chainTo_self hb₀)
    omega
  | succ n ih =>
    have hwf := hd.wf
    obtain ⟨b, hb, hbp⟩ := hd.find?_child hx
    have hself : ∀ {x p}, t₀.IsChild x p → x ∈ t₀.chainTo x := fun hx => hwf.mem_chainTo_self hx.choose_spec.1
    simp only [AltBlockTree.connectSubtree, twp_bind, twp_zoom_derefBlock, twp_when, twp_get]
    refine ⟨b, hb, fun hpay => ?_, fun hpay => ?_⟩
    . rw [show b.hasFlags .hasPayloads = b.status.hasPayloads from rfl, (hd.plain hb hbp).1] at hpay
      refine twp_mono (hd.twp_connectBlock hx hpay (hfree h (hself hx)) hp
        (fun c hc => hfree c (hwf.mem_chainTo_of_child (hself hc) hc))) ?_
      intro _ s1 hd1
      have hmem : ∀ c, c ∈ (s1.alt.pnext h).reverse ↔ t₀.IsChild c h := by
        intro c
        rw [List.mem_reverse, hd1.inv.wf.mem_pnext, hd1.isChild]
      rw [← partly_all (fun c hc => (hmem c).mpr hc)] at hd1
      -- the blocks above the children in the list are still to come
      refine twp_mono (twp_forEach (I := fun l s' => l.Nodup ∧ (∀ c ∈ l, t₀.IsChild c h) ∧
        Delivery t₀ S (partly t₀ S C h l) s'.alt) ?_ ⟨?_, fun c hc => (hmem c).mp hc, hd1⟩) ?_
      . rintro c l s2 ⟨hnodup, hl, hd2⟩
        rw [List.nodup_cons] at hnodup
        have hc := hl c List.mem_cons_self
        refine twp_mono (ih hd2 hc (.inr (.inl rfl)) (fun y hy => not_mem_partly hwf hfree hc List.mem_cons_self hy)
          (fun y hy => ?_)) ?_
        . have hlt := hn y (hwf.mem_chainTo_of_child hy hc)
          have hheight := hwf.heightOf_child hc
          omega
        . intro _ s3 hd3
          rw [partly_cons hc hnodup.1] at hd3
          exact ⟨hnodup.2, fun c' hc' => hl c' (List.mem_cons_of_mem c hc'), hd3⟩
      . exact (List.reverse_perm _).nodup_iff.mpr (Store.nodup_keysWhere hd1.inv.wf.nodup _)
      . rintro _ s2 ⟨_, _, hd2⟩
        rw [partly_nil hpay] at hd2
        exact hd2
    . rw [show b.hasFlags .hasPayloads = b.status.hasPayloads from rfl, (hd.plain hb hbp).1] at hpay
      have hnone : {y | Waits t₀ S h y} = ∅ := by
        ext y
        refine ⟨fun hy => ?_, False.elim⟩
        cases hy with
        | self hS =>
          rw [hpay] at hS
          cases hS
        | above hS _ _ =>
          rw [hpay] at hS
          cases hS
      rw [hnone, Set.union_empty]
      exact hd

end Delivery

section Complete

variable {q : PopData} {y : Hash}

theorem Bodies.insert_self : S.insert h q h = some q := if_pos rfl

theorem Bodies.insert_of_ne (hx : x ≠ h) : S.insert h q x = S x := if_neg hx

theorem Bodies.ids_insert_of_ne (hx : x ≠ h) : (S.insert h q).ids x = S.ids x := by
  unfold Bodies.ids
  rw [Bodies.insert_of_ne hx]

theorem Complete.mono (hx : Complete t₀ S x) : Complete t₀ (S.insert h q) x := by
  intro a ha
  refine (hx a ha).imp_right (fun hS => ?_)
  by_cases heq : a = h
  . rw [heq, Bodies.insert_self]
    rfl
  . rw [Bodies.insert_of_ne heq]
    exact hS

theorem Complete.of_mem (ht : t₀.WF) (hx : Complete t₀ S x) (hy : y ∈ t₀.chainTo x) : Complete t₀ S y :=
  fun a ha => hx a (ht.mem_chainTo_trans ha hy)

/-- A block that misses its body is not before a complete one. -/
theorem Complete.not_mem (hx : Complete t₀ S x) (hS : S h = none) (hroot : h ≠ t₀.root) : h ∉ t₀.chainTo x := by
  intro hmem
  have hh := (hx h hmem).resolve_left hroot
  rw [hS] at hh
  cases hh

theorem Complete.of_insert (hx : Complete t₀ (S.insert h q) x) (hh : h ∉ t₀.chainTo x) : Complete t₀ S x := by
  intro a ha
  have hne : a ≠ h := by
    intro heq
    rw [heq] at ha
    exact hh ha
  have hS := hx a ha
  rw [Bodies.insert_of_ne hne] at hS
  exact hS

theorem Tree.Rooted.ne_root (hr : t₀.Rooted) (ht : t₀.WF) (hx : t₀.IsChild x p) : x ≠ t₀.root := by
  intro heq
  obtain ⟨bp, hbp, _⟩ := ht.parent hx.choose_spec.1 hx.choose_spec.2
  have hle := ht.heightOf_le (ht.root_mem_chainTo hr hbp)
  have hheight := ht.heightOf_child hx
  rw [← heq] at hle
  omega

/-- Whether a complete block has a duplicate does not depend on bodies that come later. -/
theorem Complete.duplicate_iff (ht : t₀.WF) (hx : Complete t₀ S x) (hS : S h = none) (hroot : h ≠ t₀.root) :
    Duplicate t₀ (S.insert h q) x ↔ Duplicate t₀ S x := by
  have hne : ∀ a ∈ t₀.chainTo x, a ≠ h := by
    rintro a ha rfl
    exact hx.not_mem hS hroot ha
  have hids : ∀ {p a}, t₀.IsChild x p → a ∈ t₀.chainTo p →
      (S.insert h q).ids x = S.ids x ∧ (S.insert h q).ids a = S.ids a := by
    intro p a hxp ha
    have hself := ht.mem_chainTo_self hxp.choose_spec.1
    have hmem := ht.mem_chainTo_trans ha (ht.mem_chainTo_of_child hself hxp)
    exact ⟨Bodies.ids_insert_of_ne (hne x hself), Bodies.ids_insert_of_ne (hne a hmem)⟩
  constructor
  . rintro ⟨p, hxp, a, ha, id, hid, hida⟩
    obtain ⟨hx', ha'⟩ := hids hxp ha
    exact ⟨p, hxp, a, ha, id, hx' ▸ hid, ha' ▸ hida⟩
  . rintro ⟨p, hxp, a, ha, id, hid, hida⟩
    obtain ⟨hx', ha'⟩ := hids hxp ha
    exact ⟨p, hxp, a, ha, id, hx' ▸ hid, ha' ▸ hida⟩

theorem Waits.snoc (hy : Waits t₀ S h y) (hx : t₀.IsChild x y) (hS : (S x).isSome = true) : Waits t₀ S h x := by
  induction hy with
  | self hSh => exact .above hSh hx (.self hS)
  | above hSh hc _ ih => exact .above hSh hc (ih hx)

theorem Waits.complete (ht : t₀.WF) (hy : Waits t₀ S h y) (hx : t₀.IsChild h p) (hp : Complete t₀ S p) :
    Complete t₀ S y := by
  have hcons : ∀ {h p}, t₀.IsChild h p → Complete t₀ S p → (S h).isSome = true → Complete t₀ S h := by
    intro h p hx hp hS a ha
    rw [ht.chainTo_of_child hx] at ha
    rcases List.mem_cons.mp ha with rfl | ha
    . exact .inr hS
    . exact hp a ha
  induction hy generalizing p with
  | self hS => exact hcons hx hp hS
  | above hS hc _ ih => exact ih hc (hcons hx hp hS)

/-- A complete block above `h` was waiting for it. -/
theorem Complete.waits (ht : t₀.WF) (hr : t₀.Rooted) (hx : Complete t₀ S x) (hh : h ∈ t₀.chainTo x) (hS : (S h).isSome = true)
    (hb : ∃ b, t₀.find? x = some b) : Waits t₀ S h x := by
  obtain ⟨b, hb⟩ := hb
  revert hx hh
  refine ht.chain_induction (P := fun x => Complete t₀ S x → h ∈ t₀.chainTo x → Waits t₀ S h x) ?_ ?_ hb
  . intro x b hb hp _ hh
    rw [Tree.chainTo_of_root hb hp, List.mem_singleton] at hh
    subst hh
    exact .self hS
  . intro x p hxp ih hx hh
    have hself := ht.mem_chainTo_self hxp.choose_spec.1
    rw [ht.chainTo_of_child hxp] at hh
    rcases List.mem_cons.mp hh with rfl | hh
    . exact .self hS
    . refine (ih (hx.of_mem ht (ht.mem_chainTo_of_child hself hxp)) hh).snoc hxp ?_
      exact (hx x hself).resolve_left (hr.ne_root ht hxp)

/-- The blocks that are complete with one more body. -/
theorem complete_insert_iff (ht : t₀.WF) (hr : t₀.Rooted) (hx : t₀.IsChild h p)
    (hb : ∃ b, t₀.find? y = some b) : Complete t₀ (S.insert h q) y ↔
      Complete t₀ S y ∨ Complete t₀ S p ∧ Waits t₀ (S.insert h q) h y := by
  have hSh : (S.insert h q h).isSome = true := by
    rw [Bodies.insert_self]
    rfl
  constructor
  . intro hy
    by_cases hh : h ∈ t₀.chainTo y
    . refine .inr ⟨?_, hy.waits ht hr hh hSh hb⟩
      refine (hy.of_mem ht (ht.mem_chainTo_of_child hh hx)).of_insert (fun hmem => ?_)
      have hle := ht.heightOf_le hmem
      have hheight := ht.heightOf_child hx
      omega
    . exact .inl (hy.of_insert hh)
  . rintro (hy | ⟨hp, hy⟩)
    . exact hy.mono
    . exact hy.complete ht hx hp.mono

end Complete

namespace Delivery

variable {cfg : Config} {s : AltState} {q : PopData}

/-- Only the blocks of the tree count. -/
theorem congr {C' : Set Hash} (hd : Delivery t₀ S C t) (hC : ∀ x b, t₀.find? x = some b → (x ∈ C' ↔ x ∈ C))
    (hroot : t₀.root ∈ C') : Delivery t₀ S C' t := by
  refine { hd with blocks := fun x b hb => ?_, connected := hroot }
  obtain ⟨b₀, hb₀, _⟩ := hd.shape.find? hb
  exact (hd.blocks hb).mono (hC x b₀ hb₀)

theorem mem_addToPayloadsIndex {A : Type} {t : Tree A} {id i : PayloadId} {x h : Hash} :
    (id, x) ∈ (t.addToPayloadsIndex i h).payloadsIndex ↔ (id = i ∧ x = h) ∨ (id, x) ∈ t.payloadsIndex := by
  unfold Tree.addToPayloadsIndex
  split
  . next hmem =>
    refine ⟨.inr, ?_⟩
    rintro (⟨rfl, rfl⟩ | hmem')
    . exact hmem
    . exact hmem'
  . rw [List.mem_cons, Prod.mk.injEq]

theorem mem_payloadsIndex_foldl (ids : List PayloadId) (t : Tree AltAddon) (id : PayloadId) :
    (id, x) ∈ (ids.foldl (fun t id => t.addToPayloadsIndex id h) t).payloadsIndex ↔
      (x = h ∧ id ∈ ids) ∨ (id, x) ∈ t.payloadsIndex := by
  induction ids generalizing t with
  | nil => simp
  | cons i ids ih =>
    rw [List.foldl_cons, ih, mem_addToPayloadsIndex, List.mem_cons]
    tauto

theorem foldl_addToPayloadsIndex_eq (ids : List PayloadId) (t : Tree AltAddon) :
    ids.foldl (fun t id => t.addToPayloadsIndex id h) t =
      { t with payloadsIndex := (ids.foldl (fun t id => t.addToPayloadsIndex id h) t).payloadsIndex } := by
  induction ids generalizing t with
  | nil => rfl
  | cons i ids ih =>
    rw [List.foldl_cons, ih]
    unfold Tree.addToPayloadsIndex
    split
    . rfl
    . rfl

/-- What `setPayloads` does to the tree. -/
def delivered (h : Hash) (q : PopData) (t : Tree AltAddon) : Tree AltAddon :=
  (AltBlockTree.commitPayloadsIds h q t).update h (fun b => b.setFlag .hasPayloads)

/-- The blocks and the index apart, delivering a body changes nothing. -/
theorem delivered_eq (h : Hash) (q : PopData) (t : Tree AltAddon) :
    delivered h q t = { t with blocks := (delivered h q t).blocks, payloadsIndex := (delivered h q t).payloadsIndex } := by
  unfold delivered AltBlockTree.commitPayloadsIds
  rw [foldl_addToPayloadsIndex_eq]
  rfl

theorem find?_delivered_of_ne (hx : h ≠ x) : (delivered h q t).find? x = t.find? x := by
  unfold delivered AltBlockTree.commitPayloadsIds
  rw [Tree.find?_update_of_ne hx, foldl_addToPayloadsIndex_eq]
  exact Tree.find?_update_of_ne hx

theorem find?_delivered_self (hb : t.find? h = some b) : ∃ b', (delivered h q t).find? h = some b' ∧ b'.shape = b.shape ∧
    b'.status = { b.status with hasPayloads := true } ∧ b'.addon.payloadIds = q.payloadIds := by
  unfold delivered AltBlockTree.commitPayloadsIds
  rw [Tree.find?_update_self, foldl_addToPayloadsIndex_eq]
  refine ⟨_, congrArg (Option.map _) ((Tree.find?_update_self _ _ _).trans (congrArg (Option.map _) hb)), ?_, ?_, ?_⟩
  . exact keepsShape_setFlag .hasPayloads _
  . exact setFlag_status _ _
  . have haddon : ∀ b : BlockIndex AltAddon, (b.setFlag .hasPayloads).addon = b.addon := fun b => setStatus_addon _ _
    rw [haddon]
    rfl

theorem delivered_inv (hd : Delivery t₀ S C t) (hx : t₀.IsChild h p) : (delivered h q t).Inv .validTree [] := by
  obtain ⟨b, hb, hbp⟩ := hd.find?_child hx
  have hcore := AltBlockTree.sameCore_commitPayloadsIds h q t
  obtain ⟨b', hb', heq⟩ := hcore.core.symm.find? hb
  refine (hd.inv.congr hcore.core hcore.tips).setHasPayloads hb' ?_
  rw [(core_eq_iff.mp heq).2]
  exact hd.deleted hb

theorem delivered_index (hd : Delivery t₀ S C t) (hS : S h = none) (id : PayloadId) (x : Hash) :
    (id, x) ∈ (delivered h q t).payloadsIndex ↔ id ∈ (S.insert h q).ids x := by
  have hmem : (id, x) ∈ (delivered h q t).payloadsIndex ↔ (x = h ∧ id ∈ q.payloadIds) ∨ (id, x) ∈ t.payloadsIndex :=
    mem_payloadsIndex_foldl _ _ _
  rw [hmem, hd.index]
  by_cases hx : x = h
  . subst hx
    simp only [Bodies.ids, Bodies.insert_self, hS]
    simp
  . rw [Bodies.ids_insert_of_ne hx]
    simp [hx]

/-- One more body is there, and no block has been connected yet. -/
theorem deliver (hd : Delivery t₀ S {x | Complete t₀ S x} t) (hx : t₀.IsChild h p) (hS : S h = none) :
    Delivery t₀ (S.insert h q) {x | Complete t₀ S x} (delivered h q t) := by
  have hroot : h ≠ t₀.root := hd.rooted.ne_root hd.wf hx
  have hshape : t.SameShape (delivered h q t) :=
    ((AltBlockTree.sameCore_commitPayloadsIds h q t).core.comp Prod.fst).trans
      (Tree.SameShape.update _ h (keepsShape_setFlag _))
  have hrest := delivered_eq h q t
  refine ⟨hd.shape.trans hshape, hd.delivered_inv hx, hd.rooted, ?_, ?_, ?_, fun x b' hb' => ?_, hd.delivered_index hS,
    fun x hx' => ?_, hd.connected⟩
  . exact (congrArg Tree.root hrest).trans hd.root
  . exact (congrArg Tree.activeTip hrest).trans hd.activeTip
  . exact (congrArg Tree.finalizedPayloadsIndex hrest).trans hd.finalized
  . by_cases heq : x = h
    . subst heq
      obtain ⟨b, hb, hbp⟩ := hd.find?_child hx
      obtain ⟨b1, hb1, hsh, hst, hids⟩ := find?_delivered_self (q := q) hb
      have hb1 := Option.some.inj (hb1.symm.trans hb')
      subst hb1
      have hC : ¬Complete t₀ S x := fun hc => hc.not_mem hS hroot (hd.wf.mem_chainTo_self hx.choose_spec.1)
      have hp' : b1.pprev = some p := (shape_eq_iff.mp hsh).2.1.trans hbp
      refine ⟨fun hp => ?_, fun _ => ⟨false, false, ⟨(by cases ·), fun h => absurd h hC⟩, ⟨(by cases ·),
        fun h => absurd h.1 hC⟩, ?_⟩, ?_⟩
      . rw [hp'] at hp
        cases hp
      . obtain ⟨conn, pop, hconn, hpop, heq⟩ := (hd.blocks hb).child (hbp ▸ Option.some_ne_none p)
        have hconn : conn = false := by
          rw [← Bool.not_eq_true, hconn]
          exact hC
        have hpop : pop = false := by
          rw [← Bool.not_eq_true, hpop]
          exact fun h => hC h.1
        have h' := congrArg (fun s : BlockStatus => { s with hasPayloads := true }) heq
        rw [hconn, hpop] at h'
        rw [hst, Bodies.insert_self]
        exact h'
      . rw [hids]
        unfold Bodies.ids
        rw [Bodies.insert_self]
        rfl
    . rw [find?_delivered_of_ne (fun h => heq h.symm)] at hb'
      have hexp := hd.blocks hb'
      refine ⟨hexp.root, fun hp => ?_, ?_⟩
      . obtain ⟨conn, pop, hconn, hpop, hst⟩ := hexp.child hp
        refine ⟨conn, pop, hconn, hpop.trans (and_congr_right fun hc => ?_), ?_⟩
        . exact (Complete.duplicate_iff hd.wf hc hS hroot).symm
        . rw [Bodies.insert_of_ne heq]
          exact hst
      . rw [Bodies.ids_insert_of_ne heq]
        exact hexp.ids
  . by_cases heq : x = h
    . exact ⟨p, heq ▸ hx⟩
    . rw [Bodies.insert_of_ne heq] at hx'
      exact hd.known x hx'

theorem twp_setPayloads (hd : Delivery t₀ S {x | Complete t₀ S x} s.alt) (hx : t₀.IsChild h p) (hS : S h = none)
    (hq : q.checkForDuplicates = true) : twp (AltBlockTree.setPayloads h q) (fun _ s' =>
      Delivery t₀ (S.insert h q) {x | Complete t₀ S x} s'.alt) s := by
  obtain ⟨b, hb, hbp⟩ := hd.find?_child hx
  obtain ⟨hpayloads, hactive, _⟩ := hd.plain hb hbp
  simp only [AltBlockTree.setPayloads, twp_bind, twp_zoom_derefBlock, twp_check]
  refine ⟨b, hb, ?_, ?_, ?_, ?_, hq, ?_⟩
  . rw [isValidUpTo, decide_eq_true_iff]
    exact (hd.inv.nodes hb).validTree (hd.deleted hb)
  . rw [show b.hasFlags .hasPayloads = b.status.hasPayloads from rfl, hpayloads, hS]
    rfl
  . rw [show b.hasFlags .active = b.status.active from rfl, hactive]
    rfl
  . rw [isRoot, hbp]
    rfl
  . rw [twp_zoom, twp_modify, twp_modify, twp_zoom]
    exact hd.deliver hx hS

/-- A body that is delivered connects its block and the blocks that were waiting for it, if the block before is connected. -/
theorem twp_acceptBlock (hd : Delivery t₀ S {x | Complete t₀ S x} s.alt) (hx : t₀.IsChild h p) (hS : S h = none)
    (hq : q.checkForDuplicates = true) : twp (AltBlockTree.acceptBlock cfg h q) (fun _ s' =>
      Delivery t₀ (S.insert h q) {x | Complete t₀ (S.insert h q) x} s'.alt) s := by
  have hwf := hd.wf
  obtain ⟨b₀, hb₀, hp₀⟩ := hx
  have hx : t₀.IsChild h p := ⟨b₀, hb₀, hp₀⟩
  obtain ⟨b, hb, hbp⟩ := hd.find?_child hx
  simp only [AltBlockTree.acceptBlock, twp_bind, twp_get, twp_check]
  refine ⟨?_, twp_mono (hd.twp_setPayloads hx hS hq) (fun _ s1 hd1 => ?_)⟩
  . rw [Option.isSome_iff_exists]
    exact ⟨b, Tree.getBlockIndex_eq_some.mpr ⟨hb, hd.deleted hb⟩⟩
  obtain ⟨b1, hb1, hbp1⟩ := hd1.find?_child hx
  obtain ⟨bp1, hbp1', _⟩ := hd1.inv.wf.parent hb1 hbp1
  have hroot : t₀.root ∈ {x | Complete t₀ (S.insert h q) x} := Complete.mono hd.connected
  simp only [twp_zoom_derefBlock, twp_getOrStop]
  refine ⟨b1, hb1, p, hbp1, bp1, hbp1', twp_when.mpr ⟨fun hc => ?_, fun hc => ?_⟩⟩
  . have hp : Complete t₀ S p := (hd1.isConnected_iff hbp1').mp hc
    refine twp_mono (hd1.twp_connectSubtree _ hx hp (fun y hy hy' => ?_) (fun y hy => ?_)) (fun _ s2 hd2 => ?_)
    . exact Complete.not_mem hy' hS (hd.rooted.ne_root hwf hx) hy
    . cases hby : s.alt.find? y with
      | none =>
        rw [← hd.shape.chainTo, Tree.chainTo_of_none hby] at hy
        cases hy
      | some by' =>
        have hle := Tree.height_le_maxHeight hby
        rw [← Tree.heightOf_eq hby, hd.shape.heightOf] at hle
        omega
    . refine hd2.congr (fun y by' hby => ?_) hroot
      rw [Set.mem_ofPred_eq, complete_insert_iff hwf hd.rooted hx ⟨by', hby⟩]
      exact or_congr_right (and_iff_right hp)
  . refine hd1.congr (fun y by' hby => ?_) hroot
    rw [Set.mem_ofPred_eq, complete_insert_iff hwf hd.rooted hx ⟨by', hby⟩]
    have hp : ¬Complete t₀ S p := by
      rw [← Bool.not_eq_true] at hc
      exact fun hp => hc ((hd1.isConnected_iff hbp1').mpr hp)
    exact or_iff_left (fun h => hp h.1)

end Delivery

end Blocks

end AltIntegration
