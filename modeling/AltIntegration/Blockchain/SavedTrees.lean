import AltIntegration.Blockchain.Lemmas.AltChanges

/-!
This module contains what is on the disk between two calls: the blocks that are not dirty are there as they
are in memory, as long as no call raises the level of a block that is not dirty.
-/

namespace AltIntegration

open Program

section Disk

variable {A S : Type} [StoredAddon A S] {t t' : Tree A} {d : Disk S} {x : Hash} {b : BlockIndex A}

/-- The blocks that are not dirty are on the disk as they are in memory. -/
def Disk.Current (d : Disk S) (t : Tree A) : Prop :=
  ∀ ⦃x b⦄, t.find? x = some b → b.dirty = false → d.blocks.find? x = some b.toStoredBlockIndex

theorem Disk.Current.tracks (h : d.Current t) (ht : t.Tracks t') : d.Current t' := by
  intro x b' hb' hd'
  obtain ⟨b, hb, hd, heq⟩ := ht.clean hb' hd'
  rw [heq]
  exact h hb hd

theorem Disk.Current.forgets (h : d.Current t) (ht : MemPoolBlockTree.Forgets x t t') : d.Current t' := by
  intro y b hb hd
  by_cases hy : x = y
  . rw [← hy, ht.2.1] at hb
    cases hb
  . rw [ht.2.2 y hy] at hb
    exact h hb hd

theorem find?_writeDirty (ht : t.blocks.keys.Nodup) (d : Disk S) (x : Hash) : (d.writeDirty t).blocks.find? x =
    (((t.find? x).filter (fun b => b.dirty)).map BlockIndex.toStoredBlockIndex).or (d.blocks.find? x) :=
  Store.find?_foldl_insert ht (fun b => b.dirty) BlockIndex.toStoredBlockIndex d.blocks x

theorem find?_writeAll (ht : t.blocks.keys.Nodup) (d : Disk S) (x : Hash) :
    (d.writeAll t).blocks.find? x = ((t.find? x).map BlockIndex.toStoredBlockIndex).or (d.blocks.find? x) := by
  have h := Store.find?_foldl_insert ht (fun _ => true) BlockIndex.toStoredBlockIndex d.blocks x
  rw [List.filter_eq_self.mpr (fun _ _ => rfl)] at h
  refine h.trans ?_
  unfold Tree.find?
  cases t.blocks.find? x with
  | none => rfl
  | some b => rfl

/-- To save the dirty blocks is to save all blocks. -/
theorem Disk.Current.writeDirty (h : d.Current t) (ht : t.blocks.keys.Nodup) (x : Hash) :
    (d.writeDirty t).blocks.find? x = (d.writeAll t).blocks.find? x := by
  rw [find?_writeDirty ht, find?_writeAll ht]
  cases hb : t.find? x with
  | none => rfl
  | some b =>
    cases hd : b.dirty with
    | true => simp [Option.filter, hd]
    | false => simp [Option.filter, hd, h hb hd]

/-- What is saved is current. -/
theorem Disk.Current.unsetDirty (h : d.Current t) (ht : t.blocks.keys.Nodup) : (d.writeDirty t).Current t.unsetDirty := by
  intro x b' hb' _
  obtain ⟨b, hb, rfl⟩ := Option.map_eq_some_iff.mp ((Store.find?_map t.blocks _ x).symm.trans hb')
  rw [h.writeDirty ht, find?_writeAll ht, show t.find? x = some b from hb]
  rfl

end Disk

/-- The three trees are on the disk, but for their dirty blocks. -/
structure SavedState.Current (s : SavedState) : Prop where
  btc : s.btc.Current s.trees.sp.btc
  vbk : s.vbk.Current s.trees.sp.vbk
  alt : s.alt.Current s.trees.alt

section Runs

variable {cfg : Config} {s s' : SavedState}

/-- What is permitted to a run: nothing but to raise the level of a block that is not dirty. -/
def Permit.tracked : Permit := ⟨False, True, True, True⟩

theorem SavedState.Current.changes {t : AltState} (hs : s.Current) (h : AltState.Changes .tracked s.trees t) :
    { s with trees := t }.Current :=
  ⟨hs.btc.tracks (h.sp.btc.tracks (fun h => h) btcRules_pow.toLawful),
    hs.vbk.tracks (h.sp.vbk.tracks (fun h => h) vbkRules_pow.toLawful), hs.alt.tracks (h.alt.tracks (fun h => h) altRules_lawful)⟩

theorem wlp_saveTree {A S : Type} [StoredAddon A S] {t : Tree A} {d : Disk S} :
    wlp saveTree (fun _ p => p = (t.unsetDirty, d.writeDirty t)) (t, d) := by
  simp only [saveTree, wlp_bind, wlp_get, wlp_check]
  exact fun _ => rfl

theorem keys_unsetDirty {A : Type} (t : Tree A) : t.unsetDirty.blocks.keys = t.blocks.keys := by
  simp [Tree.unsetDirty, Store.map, Store.keys]

theorem wlp_saveTrees (hs : s.Current) (hk : s.trees.Keyed) :
    wlp saveTrees (fun _ s' => s'.Current ∧ s'.trees.Keyed) s := by
  simp only [saveTrees, wlp_bind]
  rw [wlp_zoom]
  refine wlp_mono wlp_saveTree ?_
  rintro _ _ rfl
  rw [wlp_zoom]
  refine wlp_mono wlp_saveTree ?_
  rintro _ _ rfl
  rw [wlp_zoom]
  refine wlp_mono wlp_saveTree ?_
  rintro _ _ rfl
  refine ⟨⟨hs.btc.unsetDirty hk.btc, hs.vbk.unsetDirty hk.vbk, hs.alt.unsetDirty hk.alt⟩, ?_, ?_, ?_⟩
  . exact (keys_unsetDirty _).symm ▸ hk.btc
  . exact (keys_unsetDirty _).symm ▸ hk.vbk
  . exact (keys_unsetDirty _).symm ▸ hk.alt

namespace SavedOp

/-- The step raises the level of no block that is not dirty. -/
def Tracked (s : SavedState) : SavedOp → Prop
  | call op => op.Tracked s.trees
  | generatePopData _ pop => pop.isEmpty = false → s.trees.alt.DirtyAbove MemPoolBlockTree.tmpHash
  | saveTrees => True

theorem wlp_exec (hs : s.Current) (hk : s.trees.Keyed) (op : SavedOp) (hop : op.Tracked s) :
    wlp (op.exec cfg) (fun _ s' => s'.Current ∧ s'.trees.Keyed) s := by
  cases op with
  | call op =>
    simp only [exec]
    rw [wlp_zoom]
    refine wlp_mono (Op.wlp_exec (D := .tracked) trivial trivial hk.alt op (.inr hop)) ?_
    exact fun _ t h => ⟨hs.changes h, h.keyed hk⟩
  | generatePopData limits pop =>
    simp only [exec, wlp_bind, wlp_pure]
    rw [wlp_zoom]
    refine wlp_mono (MemPoolBlockTree.wlp_filterInvalidPayloads (D := .tracked) altClass_obeys trivial trivial trivial hk.alt pop
      (.inr hop)) ?_
    rintro _ t ⟨⟨alt, halt, hgone⟩, hsp⟩
    have h : AltState.Changes .tracked s.trees ⟨alt, t.sp⟩ := ⟨halt, hsp⟩
    have hs1 := hs.changes h
    have hk1 := h.keyed hk
    rcases hgone with rfl | hgone
    . exact ⟨hs1, hk1⟩
    . exact ⟨⟨hs1.btc, hs1.vbk, hs1.alt.forgets hgone⟩, hk1.btc, hk1.vbk, hgone.1 hk1.alt⟩
  | saveTrees => exact wlp_saveTrees hs hk

end SavedOp

variable (cfg) in
/--
The states that can be reached from a bootstrap with nothing on the disk, by calls and saves that raise the level
of no block that is not dirty.
-/
inductive SavedReachable : SavedState → Prop where
  | bootstrap {b : Bootstrap} {t : AltState} (h : b.chains cfg (b.roots cfg) = .ok () t) :
      SavedReachable { trees := t, btc := Disk.empty, vbk := Disk.empty, alt := Disk.empty }
  | step {s s' : SavedState} {op : SavedOp} (hs : SavedReachable s) (hop : op.Tracked s) (h : op.exec cfg s = .ok () s') :
      SavedReachable s'

section Bootstrap

variable {σ A S : Type} [PowAddon A] [StoredAddon A S] {R : TreeRules A} {P : σ → σ → Prop} {c : TreeClass σ A}

omit [PowAddon A] in
/-- As long as nothing is on the disk all blocks are dirty. -/
theorem Disk.Current.tracked {t : Tree A} (ht : (Disk.empty : Disk S).Current t) (h : Hash) : t.Tracked h := by
  intro b hb
  cases hd : b.dirty with
  | true => exact .inl rfl
  | false =>
    have hempty := ht (Tree.getBlockIndex_eq_some.mp hb).1 hd
    cases hempty

theorem wlp_bootstrapChain {p : BlockTreeParams} {s : σ} (hc : c.Obeys .tracked R P) (hR : R.PoW)
    (hP : ∀ s s', P s s' → (c.tree.get s).Tracks (c.tree.get s'))
    (hs : (Disk.empty : Disk S).Current (c.tree.get s)) (chain : List PowBlock) :
    wlp (forEach (bootstrapBlock p c) chain) (fun _ => P s) s := by
  refine wlp_forEach (I := P s) (fun block _ s1 h1 => ?_) (hc.refl s)
  have hs1 : (Disk.empty : Disk S).Current (c.tree.get s1) := hs.tracks (hP s s1 h1)
  exact wlp_mono (hc.wlp_bootstrapBlock hR trivial trivial block (.inr (hs1.tracked _))) (fun _ s2 h2 => hc.trans s s1 s2 h1 h2)

end Bootstrap

theorem current_insert {A S : Type} [StoredAddon A S] {t : Tree A} {h : Hash} {b : BlockIndex A}
    (ht : t.blocks = Store.empty.insert h b) (hb : b.dirty = true) : (Disk.empty : Disk S).Current t := by
  intro x b' hb' hd'
  have hb' : t.blocks.find? x = some b' := hb'
  rw [ht, Store.find?_insert] at hb'
  split at hb'
  . cases hb'
    rw [hb] at hd'
    cases hd'
  . cases hb'

theorem wlp_bootstrap (b : Bootstrap) : wlp (b.chains cfg)
    (fun _ t => SavedState.Current ⟨t, Disk.empty, Disk.empty, Disk.empty⟩ ∧ t.Keyed) (b.roots cfg) := by
  have hs : SavedState.Current ⟨b.roots cfg, Disk.empty, Disk.empty, Disk.empty⟩ :=
    ⟨current_insert rfl rfl, current_insert rfl rfl, current_insert rfl rfl⟩
  simp only [Bootstrap.chains, wlp_bind]
  refine wlp_mono (Op.wlp_onBtc (D := .tracked) (wlp_bootstrapChain btcClass_obeys btcRules_pow
    (fun _ _ h => h.tracks (fun h => h) btcRules_pow.toLawful) hs.btc _)) ?_
  intro _ t1 h1
  have hs1 := hs.changes h1
  refine wlp_mono (Op.wlp_onVbk (D := .tracked) (wlp_bootstrapChain vbkClass_obeys vbkRules_pow
    (fun _ _ h => h.vbk.tracks (fun h => h) vbkRules_pow.toLawful) hs1.vbk _)) ?_
  intro _ t2 h2
  exact ⟨hs1.changes h2, h2.keyed (h1.keyed b.keyed_roots)⟩

theorem SavedReachable.current (hs : SavedReachable cfg s) : s.Current ∧ s.trees.Keyed := by
  induction hs with
  | @bootstrap b t h =>
    have hb := wlp_ok (wlp_bootstrap b) h
    exact hb
  | @step s s' op _ hop h ih =>
    have hs' := wlp_ok (SavedOp.wlp_exec ih.1 ih.2 op hop) h
    exact hs'

/--
In every state that is reached without raising the level of a block that is not dirty, every block that is not dirty
is on the disk as it is in memory, and to save the dirty blocks is to save all of them.
-/
theorem SavedReachable.clean_saved (hs : SavedReachable cfg s) :
    s.Current ∧ (∀ x, (s.btc.writeDirty s.trees.sp.btc).blocks.find? x = (s.btc.writeAll s.trees.sp.btc).blocks.find? x) ∧
      (∀ x, (s.vbk.writeDirty s.trees.sp.vbk).blocks.find? x = (s.vbk.writeAll s.trees.sp.vbk).blocks.find? x) ∧
      (∀ x, (s.alt.writeDirty s.trees.alt).blocks.find? x = (s.alt.writeAll s.trees.alt).blocks.find? x) := by
  obtain ⟨hc, hk⟩ := hs.current
  exact ⟨hc, hc.btc.writeDirty hk.btc, hc.vbk.writeDirty hk.vbk, hc.alt.writeDirty hk.alt⟩

theorem SavedReachable.next (hs : SavedReachable cfg s) (op : SavedOp) (hop : op.Tracked s)
    (h : stoppedIn (op.exec cfg s) = none) : SavedReachable cfg (finalState (op.exec cfg) s) := by
  unfold finalState
  cases hrun : op.exec cfg s with
  | ok _ s' => exact hs.step hop hrun
  | error e s' =>
    rw [hrun] at h
    cases h

end Runs

namespace Small

def savedStart : SavedState := savedAfter []

/-- A header is saved before its body arrives. -/
def savedHeader : SavedState :=
  finalState (SavedOp.exec config .saveTrees)
    (finalState (SavedOp.exec config (.call (.acceptBlockHeader (altBlock 2 1 1)))) savedStart)

theorem savedHeader_reachable : SavedReachable config savedHeader := by
  have hstart : SavedReachable config savedStart := .bootstrap (b := bootstrap) rfl
  have hheader : SavedReachable config
      (finalState (SavedOp.exec config (.call (.acceptBlockHeader (altBlock 2 1 1)))) savedStart) :=
    hstart.next (.call (.acceptBlockHeader (altBlock 2 1 1))) trivial (by decide)
  exact hheader.next .saveTrees trivial (by decide)

def savedBody : SavedState := finalState (SavedOp.exec config (.call (.acceptBlock 2 ⟨[], [], []⟩))) savedHeader

theorem savedBody_current : savedBody.trees.alt.isDirty 1 = false ∧ savedBody.trees.alt.isDirty 2 = true ∧
    savedBody.Current := by
  refine ⟨by decide, by decide, (SavedReachable.clean_saved (?_ : SavedReachable config _)).1⟩
  refine savedHeader_reachable.next _ (fun _ c y hc _ => ?_) (by decide)
  have hnone : savedHeader.trees.alt.pnext 2 = [] := by decide
  have hmem : c ∈ savedHeader.trees.alt.pnext 2 :=
    (Store.mem_keysWhere savedHeader_reachable.current.2.alt).mpr (hc.imp fun b hb => ⟨hb.1, by simp [hb.2]⟩)
  rw [hnone] at hmem
  cases hmem

/-- The body of a block is saved before the body of its parent arrives. -/
def lateBody : List SavedOp :=
  [.call (.acceptBlockHeader (altBlock 2 1 1)), .call (.acceptBlockHeader (altBlock 3 2 2)),
    .call (.acceptBlock 3 ⟨[], [], []⟩), .saveTrees, .call (.acceptBlock 2 ⟨[], [], []⟩)]

/-- The block is connected together with its parent, but it is not saved again. -/
theorem lateBody_not_current : stoppedIn (SavedOp.run config lateBody savedStart) = none ∧
    (savedAfter lateBody).trees.alt.isDirty 3 = false ∧
    ((savedAfter lateBody).trees.alt.find? 3).map (fun b => b.status.level) = some .connected ∧
    ((savedAfter lateBody).alt.blocks.find? 3).map (fun b => b.status.level) = some .validTree ∧
    ¬(savedAfter lateBody).Current := by
  refine ⟨by decide +kernel, by decide +kernel, by decide +kernel, by decide +kernel, fun h => ?_⟩
  have hlevel : ((savedAfter lateBody).trees.alt.find? 3).map (fun b => (b.dirty, b.status.level)) =
      some (false, .connected) := by decide +kernel
  have hsaved : ((savedAfter lateBody).alt.blocks.find? 3).map (fun b => b.status.level) = some .validTree := by
    decide +kernel
  obtain ⟨b, hb, heq⟩ := Option.map_eq_some_iff.mp hlevel
  obtain ⟨hd, hl⟩ := Prod.mk.inj heq
  rw [h.alt hb hd, Option.map_some, BlockIndex.toStoredBlockIndex, hl] at hsaved
  cases hsaved

end Small

end AltIntegration
