import AltIntegration.Blockchain.Lemmas.AltTree
import AltIntegration.Blockchain.Lemmas.Inherited

/-!
This module contains what `connectBlock` does to a block that can be connected.
-/

namespace AltIntegration

open Program BlockIndex

/-- What `connectBlock` makes of a block, which has a stateful duplicate or not. -/
def BlockIndex.connectedAs (duplicate : Bool) (b : BlockIndex AltAddon) : BlockIndex AltAddon :=
  if duplicate then (b.setLevel .connected).setFlag .failedPop else b.setLevel .connected

theorem connectedAs_status (duplicate : Bool) {b : BlockIndex AltAddon} (hpop : b.status.failedPop = false) :
    (b.connectedAs duplicate).status = { b.status with level := .connected, failedPop := duplicate } := by
  cases duplicate with
  | true => exact setFlag_status _ _
  | false =>
    show ({ b.status with level := .connected } : BlockStatus) = _
    rw [← hpop]

theorem keepsShape_connectedAs (duplicate : Bool) : KeepsShape (connectedAs duplicate) := by
  intro b
  cases duplicate with
  | true => exact (keepsShape_setFlag .failedPop _).trans (keepsShape_setLevel _ b)
  | false => exact keepsShape_setLevel _ b

theorem connectedAs_addon (duplicate : Bool) (b : BlockIndex AltAddon) : (b.connectedAs duplicate).addon = b.addon := by
  cases duplicate with
  | true => exact setStatus_addon _ _
  | false => rfl

/-- The block `h` after `p` has its payloads, and can be connected. -/
structure Tree.Connectible (t : Tree AltAddon) (h p : Hash) (b : BlockIndex AltAddon) : Prop where
  found : t.find? h = some b
  pprev : b.pprev = some p
  payloads : b.status.hasPayloads = true
  level : b.status.level = .validTree
  failedPop : b.status.failedPop = false
  active : b.status.active = false
  deleted : b.status.deleted = false
  parent : ∃ bp, t.find? p = some bp ∧ .connected ≤ bp.status.level
  next : t.anyNext h (·.isConnected) = false
  fork : t.onActiveChain h = false

namespace Tree.Connectible

variable {cfg : Config} {s : AltState} {t : Tree AltAddon} {h p : Hash} {b : BlockIndex AltAddon}

theorem parent_le (hc : t.Connectible h p b) :
    ∀ p' bp, b.pprev = some p' → t.find? p' = some bp → .connected ≤ bp.status.level := by
  intro p' bp hp' hbp'
  obtain ⟨bp', hbp, hl⟩ := hc.parent
  rw [hc.pprev] at hp'
  cases hp'
  rw [hbp] at hbp'
  cases hbp'
  exact hl

theorem twp_raiseValidity (hc : t.Connectible h p b) (ht : t.Inv .validTree []) :
    twp (raiseValidity h .connected) (fun ok t' => ok = true ∧ t' = t.update h (fun b => b.setLevel .connected)) t := by
  refine wp_raiseValidity ht.wf hc.found (fun hsame => ?_) (fun _ _ _ => ⟨rfl, rfl⟩) (fun p' bp _ hp' hbp' hn =>
    hn (hc.parent_le p' bp hp' hbp'))
  rw [hc.failedPop, hc.level] at hsame
  exact absurd hsame (by decide)

/-- The tree when the level of the block has been raised. -/
theorem inv_raised (hc : t.Connectible h p b) (ht : t.Inv .validTree []) :
    (t.update h (fun b => b.setLevel .connected)).Inv .validTree [h] := by
  refine ht.raise hc.found hc.deleted ?_ hc.parent_le
  rw [hc.level]
  decide

theorem find?_raised (hc : t.Connectible h p b) :
    (t.update h (fun b => b.setLevel .connected)).find? h = some (b.setLevel .connected) := by
  rw [Tree.find?_update_self, hc.found]
  rfl

theorem noLiveChild_raised (hc : t.Connectible h p b) (ht : t.Inv .validTree []) :
    (t.update h (fun b => b.setLevel .connected)).NoLiveChild h := by
  intro c hx hlc
  obtain ⟨bc, hbc, hpc⟩ := ((Tree.SameShape.update t h (keepsShape_setLevel .connected)).isChild c h).mp hx
  have hlc := (Tree.live_update_of_ne (ht.wf.ne_parent hbc hpc).symm).mp hlc
  exact AltBlockTree.not_live_of_not_connected hbc (ht.wf.anyNext_eq_false_iff.mp hc.next c bc hbc hpc) hlc

/-- `connectBlock` ends, and changes the block, and what the blocks above it inherit. -/
theorem twp_connectBlock (hc : s.alt.Connectible h p b) (ht : s.alt.Inv .validTree []) :
    twp (AltBlockTree.connectBlock cfg h) (fun _ s' => ∃ t', s' = { s with alt := t' } ∧ t'.Inv .validTree [] ∧
      (s.alt.update h (connectedAs (b.addon.payloadIds.any
        (AltBlockTree.isStatefulDuplicate (s.alt.update h (fun b => b.setLevel .connected)) p)))).Inherits t') s := by
  obtain ⟨bp, hbp, hparent⟩ := hc.parent
  have hinv := hc.inv_raised ht
  simp only [AltBlockTree.connectBlock, twp_bind, twp_zoom_derefBlock, twp_check, twp_getOrStop, twp_get]
  refine ⟨b, hc.found, hc.payloads, ?_, ?_, p, hc.pprev, bp, hbp, ?_, ?_, ?_⟩
  . rw [isConnected, isValidUpTo, hc.level]
    rfl
  . rw [show b.hasFlags .active = b.status.active from rfl, hc.active]
    rfl
  . rw [isConnected, isValidUpTo, decide_eq_true_iff]
    exact hparent
  . rw [hc.next]
    rfl
  rw [twp_zoom]
  refine twp_mono (hc.twp_raiseValidity ht) ?_
  rintro _ _ ⟨rfl, rfl⟩
  refine ⟨rfl, twp_when.mpr ⟨fun hany => ?_, fun hany => ?_⟩⟩
  . have hany : b.addon.payloadIds.any
      (AltBlockTree.isStatefulDuplicate (s.alt.update h (fun b => b.setLevel .connected)) p) = true := hany
    have hon : (s.alt.update h (fun b => b.setLevel .connected)).onActiveChain h = false := by
      rw [(Tree.SameShape.update s.alt h (keepsShape_setLevel .connected)).onActiveChain rfl]
      exact hc.fork
    have hlow : ¬.canBeApplied ≤ (b.setLevel .connected).status.level :=
      (by decide : ¬BlockStateStatus.canBeApplied ≤ .connected)
    refine twp_mono (Tree.Inv.twp_invalidateSubtree (c := altClass cfg)
      (s := { s with alt := s.alt.update h (fun b => b.setLevel .connected) }) hinv hc.find?_raised hc.pprev hc.deleted hon rfl
      hc.failedPop (fun h => absurd (of_decide_eq_true h) hlow)) ?_
    rintro _ _ ⟨t', rfl, ht', hi⟩
    rw [twp_zoom, twp_modify]
    refine ⟨_, rfl, ht'.tryAddTip, Tree.Inherits.trans ?_ (.tryAddTip t' h)⟩
    rw [hany]
    have hi : ((s.alt.update h (fun b => b.setLevel .connected)).update h (fun b => b.setFlag .failedPop)).Inherits t' := hi
    rw [Tree.update_update] at hi
    exact hi
  . have hany : b.addon.payloadIds.any
      (AltBlockTree.isStatefulDuplicate (s.alt.update h (fun b => b.setLevel .connected)) p) = false := hany
    rw [twp_zoom, twp_modify, hany]
    exact ⟨_, rfl, hinv.tryAddTip_unsettled (fun _ => hc.noLiveChild_raised ht), .tryAddTip _ h⟩

end Tree.Connectible

end AltIntegration
