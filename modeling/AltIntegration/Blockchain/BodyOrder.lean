import Mathlib.Data.List.Perm.Basic
import AltIntegration.Blockchain.Lemmas.Delivery
import AltIntegration.Blockchain.Lemmas.Growth
import AltIntegration.Blockchain.TreeInvariants

/-!
This module contains that the bodies of ALT blocks may arrive in any order: what the tree is afterwards
depends on the bodies alone.
-/

namespace AltIntegration

open Program BlockIndex

/-- The ALT tree is made of headers: a bootstrap block, and blocks that `acceptBlockHeader` has added. -/
inductive HeadersOnly : AltState → Prop where
  | bootstrap (block : Block) (sp : VbkState) : HeadersOnly ⟨Tree.bootstrapAlt block, sp⟩
  | acceptBlockHeader {s s' : AltState} {block : Block} {ok : Bool} (hs : HeadersOnly s)
      (h : AltBlockTree.acceptBlockHeader block s = .ok ok s') : HeadersOnly s'

section Headers

variable {t t' : Tree AltAddon} {x : Hash} {b : BlockIndex AltAddon}

/-- What the blocks of a tree of headers are. -/
structure HeaderTree (t : Tree AltAddon) : Prop where
  inv : t.Inv .validTree []
  history : t.history = []
  rooted : t.Rooted
  activeTip : t.activeTip = t.root
  index : t.payloadsIndex = []
  finalized : t.finalizedPayloadsIndex = []
  root : ∀ ⦃x b⦄, t.find? x = some b → b.pprev = none →
    b.status = { level := .canBeApplied, bootstrap := true, active := true }
  child : ∀ ⦃x b⦄, t.find? x = some b → b.pprev ≠ none → b.status = { level := .validTree }
  ids : ∀ ⦃x b⦄, t.find? x = some b → b.addon.payloadIds = []
  known : ∃ b, t.find? t.root = some b ∧ b.pprev = none

/-- So far no body has arrived. -/
theorem HeaderTree.delivery (ht : HeaderTree t) : Delivery t (fun _ => none) {x | Complete t (fun _ => none) x} t := by
  have hroot : t.chainTo t.root = [t.root] := by
    obtain ⟨b, hb, hp⟩ := ht.known
    exact Tree.chainTo_of_root hb hp
  refine ⟨.refl t, ht.inv, ht.rooted, rfl, ht.activeTip, ht.finalized, fun x b hb => ⟨ht.root hb, fun hp => ?_, ht.ids hb⟩,
    fun id x => ?_, ?_, fun a ha => ?_⟩
  . have hx : ¬Complete t (fun _ => none) x := by
      intro hc
      obtain ⟨p, hp⟩ := Option.ne_none_iff_exists'.mp hp
      have hne := (hc x (ht.inv.wf.mem_chainTo_self hb)).resolve_left (ht.rooted.ne_root ht.inv.wf ⟨b, hb, hp⟩)
      cases hne
    refine ⟨false, false, ⟨(by cases ·), fun h => absurd h hx⟩, ⟨(by cases ·), fun h => absurd h.1 hx⟩, ?_⟩
    rw [ht.child hb hp]
    rfl
  . rw [ht.index]
    exact ⟨(by cases ·), (by cases ·)⟩
  . intro x hx
    cases hx
  . rw [hroot] at ha
    exact .inl (List.mem_singleton.mp ha)

theorem HeaderTree.bootstrap (block : Block) : HeaderTree (Tree.bootstrapAlt block) := by
  have hfind : ∀ {x b}, (Tree.bootstrapAlt block).find? x = some b → block.hash = x ∧ b.pprev = none ∧
      b.status = { level := .canBeApplied, bootstrap := true, active := true } ∧ b.addon = {} := by
    intro x b hb
    unfold Tree.find? Tree.bootstrapAlt at hb
    rw [Store.find?_insert] at hb
    split at hb
    . next hx =>
      cases hb
      exact ⟨hx, rfl, rfl, rfl⟩
    . cases hb
  refine ⟨Tree.inv_singleton rfl rfl rfl rfl rfl, rfl, fun x b hb _ => (hfind hb).1.symm, rfl, rfl, rfl,
    fun x b hb _ => (hfind hb).2.2.1, fun x b hb hp => absurd (hfind hb).2.1 hp, fun x b hb => ?_, ?_⟩
  . rw [(hfind hb).2.2.2]
    rfl
  . have hb : ∃ b, (Tree.bootstrapAlt block).find? block.hash = some b := by
      unfold Tree.find? Tree.bootstrapAlt
      rw [Store.find?_insert, if_pos rfl]
      exact ⟨_, rfl⟩
    obtain ⟨b, hb⟩ := hb
    exact ⟨b, hb, (hfind hb).2.1⟩

theorem HeaderTree.deleted (ht : HeaderTree t) (hb : t.find? x = some b) : b.status.deleted = false := by
  by_cases hp : b.pprev = none
  . rw [ht.root hb hp]
  . rw [ht.child hb hp]

theorem HeaderTree.isFailed (ht : HeaderTree t) (hb : t.find? x = some b) : b.isFailed = false := by
  rw [BlockIndex.isFailed]
  by_cases hp : b.pprev = none
  . rw [ht.root hb hp]
    rfl
  . rw [ht.child hb hp]
    rfl

theorem HeaderTree.tryAddTip (ht : HeaderTree t) (h : Hash) : HeaderTree (t.tryAddTip h) := by
  have hfixed : (t.tryAddTip h).fixed = t.fixed := Tree.tryAddTip_fixed
  have hfind : ∀ x, (t.tryAddTip h).find? x = t.find? x := by
    intro x
    unfold Tree.find?
    rw [Tree.tryAddTip_blocks]
  have hroot := Tree.fixed_root hfixed
  refine ⟨ht.inv.tryAddTip, Tree.tryAddTip_history.trans ht.history, fun x b hb hp => ?_, ?_, ?_, ?_,
    fun x b hb => ht.root (hfind x ▸ hb), fun x b hb => ht.child (hfind x ▸ hb), fun x b hb => ht.ids (hfind x ▸ hb), ?_⟩
  . rw [hroot]
    exact ht.rooted (hfind x ▸ hb) hp
  . rw [hroot, Tree.fixed_activeTip hfixed]
    exact ht.activeTip
  . have h' := congrArg (fun u : Tree AltAddon => u.payloadsIndex) hfixed
    exact Eq.trans h' ht.index
  . have h' := congrArg (fun u : Tree AltAddon => u.finalizedPayloadsIndex) hfixed
    exact Eq.trans h' ht.finalized
  . rw [hroot, hfind]
    exact ht.known

/-- A new header adds a block. -/
theorem HeaderTree.wlp_insertBlockHeader (ht : HeaderTree t) {block : Block} {prev : BlockIndex AltAddon}
    (hprev : t.getBlockIndex block.previousBlock = some prev) :
    wlp (insertBlockHeader (fun _ t => t) block) (fun _ t' => t' = t ∨
      Tree.Added block.hash (Tree.IsNew (fun a => a = {}) block prev { level := .validTree }) t t') t := by
  simp only [insertBlockHeader, wlp_bind, wlp_check, wlp_get]
  intro _
  split
  . next current hcur =>
    simp only [wlp_ite, wlp_pure]
    refine ⟨fun hd => ?_, fun _ => .inl trivial⟩
    rw [show current.isDeleted = current.status.deleted from rfl, ht.deleted hcur] at hd
    cases hd
  . simp only [doInsertBlockHeader, wlp_bind, wlp_get, wlp_getOrStop, wlp_modify]
    intro prev' hprev'
    rw [hprev] at hprev'
    cases hprev'
    have hfail := ht.isFailed (Tree.getBlockIndex_eq_some.mp hprev).1
    refine wlp_mono (Tree.wlp_insertRestored (Tree.Added.create (Q := fun a => a = {}) rfl block hfail) (by decide)
      (fun _ ha => ha)) (fun _ _ ha => .inr ha)

/-- A tree of headers with one more of them. -/
theorem HeaderTree.added (ht : HeaderTree t) {block : Block} {prev : BlockIndex AltAddon}
    (ha : Tree.Added block.hash (Tree.IsNew (fun a => a = {}) block prev { level := .validTree }) t t')
    (hinv : t'.Inv .validTree []) : HeaderTree t' := by
  obtain ⟨bn, hbn, hnew⟩ := ha.new
  have hcases : ∀ {x b}, t'.find? x = some b → b = bn ∨ t.find? x = some b := by
    intro x b hb
    by_cases hx : x = block.hash
    . subst hx
      rw [hbn] at hb
      cases hb
      exact .inl rfl
    . rw [ha.old hx] at hb
      exact .inr hb
  have hparent : bn.pprev ≠ none := by
    rw [hnew.pprev]
    exact Option.some_ne_none _
  refine ⟨hinv, ?_, fun x b hb hp => ?_, ?_, ?_, ?_, fun x b hb hp => ?_, fun x b hb hp => ?_, fun x b hb => ?_, ?_⟩
  . have h' := congrArg (fun u : Tree AltAddon => u.history) ha.fixed
    exact Eq.trans h' ht.history
  . rw [ha.root]
    rcases hcases hb with rfl | hb
    . exact absurd hp hparent
    . exact ht.rooted hb hp
  . rw [ha.root, ha.activeTip]
    exact ht.activeTip
  . have h' := congrArg (fun u : Tree AltAddon => u.payloadsIndex) ha.fixed
    exact Eq.trans h' ht.index
  . have h' := congrArg (fun u : Tree AltAddon => u.finalizedPayloadsIndex) ha.fixed
    exact Eq.trans h' ht.finalized
  . rcases hcases hb with rfl | hb
    . exact absurd hp hparent
    . exact ht.root hb hp
  . rcases hcases hb with rfl | hb
    . exact hnew.status
    . exact ht.child hb hp
  . rcases hcases hb with rfl | hb
    . rw [hnew.addon]
      rfl
    . exact ht.ids hb
  . -- the new block is not the root, since the root is known
    obtain ⟨b, hb, hp⟩ := ht.known
    have hfresh : block.hash ∉ t.blocks.keys := by
      have hn := hinv.wf.nodup
      rw [ha.keys] at hn
      exact (List.nodup_cons.mp hn).1
    refine ⟨b, ?_, hp⟩
    rw [ha.root, ha.old]
    . exact hb
    . intro heq
      rw [← heq] at hfresh
      exact hfresh (Store.mem_keys_of_find? hb)

theorem HeaderTree.wlp_acceptBlockHeader {s : AltState} (ht : HeaderTree s.alt) (block : Block) :
    wlp (AltBlockTree.acceptBlockHeader block) (fun _ s' => HeaderTree s'.alt) s := by
  simp only [AltBlockTree.acceptBlockHeader, wlp_bind, wlp_check, wlp_get, wlp_ite, wlp_pure]
  refine fun _ => ⟨fun _ => ht, fun _ => ?_⟩
  split
  . exact ht
  . next prev hprev =>
    simp only [wlp_bind]
    rw [wlp_zoom]
    have hsane : wlp (insertBlockHeader (fun _ t => t) block) (fun _ t => t.Sane .validTree .any) s.alt :=
      wlp_of_wp (AltBlockTree.insertBlockHeader_sane (.inr ⟨ht.inv, trivial⟩) hprev)
    refine wlp_mono (wlp_and (ht.wlp_insertBlockHeader hprev) hsane) ?_
    rintro _ t' ⟨hins, hsane⟩
    have ht' : HeaderTree t' := by
      rcases hins with rfl | ha
      . exact ht
      . have hhistory : t'.history = [] := by
          have h' := congrArg (fun u : Tree AltAddon => u.history) ha.fixed
          exact Eq.trans h' ht.history
        rcases hsane with ⟨_, hr⟩ | ⟨hinv, _⟩
        . rw [hhistory] at hr
          cases hr
        . exact ht.added ha hinv
    simp only [wlp_zoom_derefBlock, wlp_ite, wlp_bind, wlp_pure]
    refine fun _ _ => ⟨fun _ => ht', fun _ => ?_⟩
    rw [wlp_zoom, wlp_modify]
    exact ht'.tryAddTip block.hash

theorem HeadersOnly.headerTree {s : AltState} (hs : HeadersOnly s) : HeaderTree s.alt := by
  induction hs with
  | bootstrap block sp => exact .bootstrap block
  | @acceptBlockHeader s s' block ok _ h ih =>
    have h' := wlp_ok (ih.wlp_acceptBlockHeader block) h
    exact h'

end Headers

section Order

variable {cfg : Config} {s : AltState} {bodies : List (Hash × PopData)}

/-- `acceptBlock` of several bodies, one after the other -/
def acceptBlocks (cfg : Config) (bodies : List (Hash × PopData)) : M AltState Unit :=
  forEach (fun e => AltBlockTree.acceptBlock cfg e.1 e.2) bodies

/-- The bodies can be delivered to the blocks of the tree: each to a known block after the root, and only once. -/
structure Deliverable (t : Tree AltAddon) (bodies : List (Hash × PopData)) : Prop where
  known : ∀ e ∈ bodies, ∃ p, t.IsChild e.1 p
  valid : ∀ e ∈ bodies, e.2.checkForDuplicates = true
  once : (bodies.map (fun e => e.1)).Nodup

theorem twp_acceptBlocks {t₀ : Tree AltAddon} {S : Bodies} (hd : Delivery t₀ S {x | Complete t₀ S x} s.alt)
    (hb : Deliverable t₀ bodies) (hS : ∀ e ∈ bodies, S e.1 = none) :
    twp (acceptBlocks cfg bodies) (fun _ s' => ∃ S', Delivery t₀ S' {x | Complete t₀ S' x} s'.alt ∧
      (∀ e ∈ bodies, S' e.1 = some e.2) ∧ ∀ x, x ∉ bodies.map (fun e => e.1) → S' x = S x) s := by
  induction bodies generalizing s S with
  | nil =>
    refine ⟨S, hd, ?_, fun _ _ => rfl⟩
    intro e he
    cases he
  | cons e bodies ih =>
    obtain ⟨p, hp⟩ := hb.known e List.mem_cons_self
    have hnodup := hb.once
    rw [List.map_cons, List.nodup_cons] at hnodup
    have hrest : Deliverable t₀ bodies := ⟨fun e' he => hb.known e' (List.mem_cons_of_mem e he),
      fun e' he => hb.valid e' (List.mem_cons_of_mem e he), hnodup.2⟩
    have hne : ∀ e' ∈ bodies, e'.1 ≠ e.1 := by
      intro e' he' heq
      exact hnodup.1 (heq ▸ List.mem_map_of_mem he')
    simp only [acceptBlocks, forEach, twp_bind]
    refine twp_mono (hd.twp_acceptBlock hp (hS e List.mem_cons_self) (hb.valid e List.mem_cons_self)) (fun _ s1 hd1 => ?_)
    refine twp_mono (ih hd1 hrest (fun e' he' => ?_)) ?_
    . rw [Bodies.insert_of_ne (hne e' he')]
      exact hS e' (List.mem_cons_of_mem e he')
    . rintro _ s2 ⟨S', hd2, hin, hout⟩
      refine ⟨S', hd2, fun e' he' => ?_, fun x hx => ?_⟩
      . rcases List.mem_cons.mp he' with rfl | he'
        . rw [hout _ hnodup.1, Bodies.insert_self]
        . exact hin e' he'
      . rw [List.map_cons, List.mem_cons, not_or] at hx
        rw [hout x hx.2, Bodies.insert_of_ne hx.1]

/-- The statuses of the blocks, the tips and the payloads index are the same. -/
structure SameBodies (t t' : Tree AltAddon) : Prop where
  status : ∀ x, (t.find? x).map (fun b => b.status) = (t'.find? x).map (fun b => b.status)
  tips : ∀ x, x ∈ t.tips ↔ x ∈ t'.tips
  index : ∀ e, e ∈ t.payloadsIndex ↔ e ∈ t'.payloadsIndex

section Determined

variable {t₀ t t' : Tree AltAddon} {S : Bodies} {C : Set Hash} {x : Hash} {b b' : BlockIndex AltAddon}

theorem Expected.ownStatus_eq (hb : Expected t₀ S C x b) (hb' : Expected t₀ S C x b') (hp : b'.pprev = b.pprev) :
    b.ownStatus = b'.ownStatus := by
  by_cases hroot : b.pprev = none
  . rw [ownStatus_root hroot, ownStatus_root (hp.trans hroot), hb.root hroot, hb'.root (hp.trans hroot)]
  . obtain ⟨c, pop, hc, hpop, heq⟩ := hb.child hroot
    obtain ⟨c', pop', hc', hpop', heq'⟩ := hb'.child (hp ▸ hroot)
    rw [ownStatus_child hroot, ownStatus_child (hp ▸ hroot), heq, heq', Bool.eq_iff_iff.mpr (hc.trans hc'.symm),
      Bool.eq_iff_iff.mpr (hpop.trans hpop'.symm)]

/-- The tree is determined by the bodies and the connected blocks. -/
theorem Delivery.sameBodies (hd : Delivery t₀ S C t) (hd' : Delivery t₀ S C t') : SameBodies t t' := by
  have hshape : t.SameShape t' := hd.shape.symm.trans hd'.shape
  have hsame := hd.inv.sameStatus hd'.inv ⟨hshape.keys, fun x => ?_⟩
  . exact ⟨hsame.status, hsame.tips, fun e => by rw [hd.index e.1 e.2, hd'.index e.1 e.2]⟩
  . cases hb' : t'.find? x with
    | none =>
      have hx := hshape.same x
      rw [hb', Option.map_none] at hx
      rw [Option.map_eq_none_iff.mp hx.symm]
    | some b' =>
      obtain ⟨b, hb, heq⟩ := hshape.find? hb'
      rw [hb]
      exact congrArg some (Prod.ext heq.symm
        ((hd.blocks hb).ownStatus_eq (hd'.blocks hb') (shape_eq_iff.mp heq.symm).2.1).symm)

end Determined

/-- The bodies that have been delivered are determined by the list. -/
theorem HeaderTree.delivered (cfg : Config) (ht : HeaderTree s.alt) (hb : Deliverable s.alt bodies) {S : Bodies}
    (hin : ∀ e ∈ bodies, S e.1 = some e.2) (hout : ∀ x, x ∉ bodies.map (fun e => e.1) → S x = none) :
    ∃ s', acceptBlocks cfg bodies s = .ok () s' ∧ Delivery s.alt S {x | Complete s.alt S x} s'.alt := by
  have hwp : twp (acceptBlocks cfg bodies) _ s := twp_acceptBlocks ht.delivery hb (fun _ _ => rfl)
  obtain ⟨_, s', hrun, S', hd, hin', hout'⟩ := twp_iff.mp hwp
  have heq : S' = S := by
    funext x
    by_cases hx : x ∈ bodies.map (fun e => e.1)
    . obtain ⟨e, he, rfl⟩ := List.mem_map.mp hx
      rw [hin' e he, hin e he]
    . rw [hout' x hx, hout x hx]
  rw [heq] at hd
  exact ⟨s', hrun, hd⟩

theorem Deliverable.exists_bodies {t : Tree AltAddon} (hb : Deliverable t bodies) : ∃ S : Bodies,
    (∀ e ∈ bodies, S e.1 = some e.2) ∧ ∀ x, x ∉ bodies.map (fun e => e.1) → S x = none := by
  have hnodup := hb.once
  clear hb
  induction bodies with
  | nil => exact ⟨fun _ => none, (by intro e he; cases he), fun _ _ => rfl⟩
  | cons e bodies ih =>
    rw [List.map_cons, List.nodup_cons] at hnodup
    obtain ⟨S, hin, hout⟩ := ih hnodup.2
    refine ⟨S.insert e.1 e.2, fun e' he' => ?_, fun x hx => ?_⟩
    . rcases List.mem_cons.mp he' with rfl | he'
      . exact Bodies.insert_self
      . rw [Bodies.insert_of_ne (fun heq => hnodup.1 (List.mem_map.mpr ⟨e', he', heq⟩))]
        exact hin e' he'
    . rw [List.map_cons, List.mem_cons, not_or] at hx
      rw [Bodies.insert_of_ne hx.1]
      exact hout x hx.2

theorem Deliverable.sublist {t : Tree AltAddon} {pre : List (Hash × PopData)} (hb : Deliverable t bodies)
    (hpre : pre.Sublist bodies) : Deliverable t pre :=
  ⟨fun e he => hb.known e (hpre.subset he), fun e he => hb.valid e (hpre.subset he), hb.once.sublist (hpre.map _)⟩

theorem Deliverable.perm {t : Tree AltAddon} {bodies' : List (Hash × PopData)} (hb : Deliverable t bodies)
    (hperm : bodies.Perm bodies') : Deliverable t bodies' :=
  ⟨fun e he => hb.known e (hperm.mem_iff.mpr he), fun e he => hb.valid e (hperm.mem_iff.mpr he),
    (hperm.map _).nodup_iff.mp hb.once⟩

/-- A block is connected as soon as the bodies of the block and of all blocks before it have arrived. -/
theorem HeaderTree.isConnected_iff (ht : HeaderTree s.alt) (hb : Deliverable s.alt bodies) :
    ∃ s', acceptBlocks cfg bodies s = .ok () s' ∧ ∀ x b, s'.alt.find? x = some b →
      (b.isConnected = true ↔ ∀ a ∈ s.alt.chainTo x, a = s.alt.root ∨ a ∈ bodies.map (fun e => e.1)) := by
  obtain ⟨S, hin, hout⟩ := hb.exists_bodies
  obtain ⟨s', hrun, hd⟩ := ht.delivered cfg hb hin hout
  refine ⟨s', hrun, fun x b hx => ?_⟩
  rw [hd.isConnected_iff hx]
  refine forall₂_congr (fun a _ => or_congr_right ?_)
  constructor
  . intro ha
    by_contra hnot
    rw [hout a hnot] at ha
    cases ha
  . intro ha
    obtain ⟨e, he, rfl⟩ := List.mem_map.mp ha
    rw [hin e he]
    rfl

/--
The bodies may arrive in any order: no assertion fires, the tree is the same in the end, and after each of them
the connected blocks are those that have all their bodies up to the root.
-/
theorem HeadersOnly.acceptBlocks_perm (hs : HeadersOnly s) {bodies' : List (Hash × PopData)} (hb : Deliverable s.alt bodies)
    (hperm : bodies.Perm bodies') :
    (∃ s₁ s₂, acceptBlocks cfg bodies s = .ok () s₁ ∧ acceptBlocks cfg bodies' s = .ok () s₂ ∧ SameBodies s₁.alt s₂.alt) ∧
    ∀ pre post, bodies = pre ++ post → ∃ s', acceptBlocks cfg pre s = .ok () s' ∧ ∀ x b, s'.alt.find? x = some b →
      (b.isConnected = true ↔ ∀ a ∈ s.alt.chainTo x, a = s.alt.root ∨ a ∈ pre.map (fun e => e.1)) := by
  have ht := hs.headerTree
  refine ⟨?_, fun pre post heq => ?_⟩
  . obtain ⟨S, hin, hout⟩ := hb.exists_bodies
    obtain ⟨s₁, hrun₁, hd₁⟩ := ht.delivered cfg hb hin hout
    obtain ⟨s₂, hrun₂, hd₂⟩ := ht.delivered cfg (hb.perm hperm) (fun e he => hin e (hperm.mem_iff.mpr he))
      (fun x hx => hout x (fun hmem => hx ((hperm.map _).mem_iff.mp hmem)))
    exact ⟨s₁, s₂, hrun₁, hrun₂, hd₁.sameBodies hd₂⟩
  . rw [heq] at hb
    exact ht.isConnected_iff (hb.sublist (List.sublist_append_left pre post))

end Order

namespace Small

/-- Two headers, one after the other -/
def twoHeaders : AltState :=
  finalState (AltBlockTree.acceptBlockHeader (altBlock 3 2 2))
    (finalState (AltBlockTree.acceptBlockHeader (altBlock 2 1 1)) ⟨Tree.bootstrapAlt (altBlock 1 0 0), start.sp⟩)

/-- Both bodies contain the same block, and the later body is the first to arrive. -/
def twoBodies : List (Hash × PopData) :=
  [(3, { context := [powBlock vbkRoot.getHash 1 0], vtbs := [], atvs := [] }),
    (2, { context := [powBlock vbkRoot.getHash 1 0], vtbs := [], atvs := [] })]

theorem twoHeaders_headersOnly : HeadersOnly twoHeaders := by
  have hnext : ∀ {s : AltState} (block : Block), HeadersOnly s →
      stoppedIn (AltBlockTree.acceptBlockHeader block s) = none →
      HeadersOnly (finalState (AltBlockTree.acceptBlockHeader block) s) := by
    intro s block hs h
    unfold finalState
    cases hrun : AltBlockTree.acceptBlockHeader block s with
    | ok _ s' => exact hs.acceptBlockHeader hrun
    | error e s' =>
      rw [hrun] at h
      cases h
  exact hnext _ (hnext _ (.bootstrap _ _) (by decide)) (by decide)

theorem twoBodies_deliverable : Deliverable twoHeaders.alt twoBodies := by
  have hchild : ∀ {x p : Hash}, (twoHeaders.alt.find? x).any (fun b => b.pprev = some p) = true →
      twoHeaders.alt.IsChild x p := by
    intro x p h
    obtain ⟨b, hb, hp⟩ := (Option.any_eq_true _ _).mp h
    exact ⟨b, hb, of_decide_eq_true hp⟩
  refine ⟨fun e he => ?_, by decide, by decide⟩
  rcases List.mem_cons.mp he with rfl | he
  . exact ⟨2, hchild (by decide)⟩
  . rw [List.mem_singleton.mp he]
    exact ⟨1, hchild (by decide)⟩

theorem acceptBlocks_twoBodies :
    (∃ s₁ s₂, acceptBlocks config twoBodies twoHeaders = .ok () s₁ ∧
      acceptBlocks config twoBodies.reverse twoHeaders = .ok () s₂ ∧ SameBodies s₁.alt s₂.alt) ∧
    ((finalState (acceptBlocks config twoBodies) twoHeaders).alt.find? 3).any (fun b => b.hasFlags .failedPop) = true :=
  ⟨(twoHeaders_headersOnly.acceptBlocks_perm twoBodies_deliverable (List.reverse_perm _).symm).1, by decide +kernel⟩

end Small

end AltIntegration
