import AltIntegration.System.ActiveChains

/-!
This module contains that the references to the BTC blocks are those of the bootstrap and those of the VTBs in the applied
VBK blocks, whatever happens to the trees, as long as BTC blocks are not deleted by hand and the storage keeps one VTB for an
id.
-/

namespace AltIntegration

open Program BlockIndex VbkState

variable {α : Type} {cfg : Config} {content : Nat → VTB} {r : Multiset (Hash × Nat)} {t t' t₀ : Tree VbkAddon} {s : VbkState} {h x : Hash}
  {b : BlockIndex VbkAddon} {pid : Nat}

/-- The reference that a command makes -/
def VbkCommand.references : VbkCommand → Multiset (Hash × Nat)
  | addBtcBlock b n => {(b.getHash, n)}
  | addEndorsement _ => 0

namespace VTB

/-- The BTC blocks that a VTB brings -/
def btcBlocks (v : VTB) : List PowBlock := v.blockOfProofContext ++ [v.blockOfProof]

/-- The references that a VTB makes, one to each of its BTC blocks, at the height of the block that contains it -/
def references (v : VTB) : Multiset (Hash × Nat) :=
  Multiset.ofList (v.btcBlocks.map (fun b => (b.getHash, v.containingBlock.height)))

theorem total_commands (v : VTB) : Program.total VbkCommand.references v.commands = v.references := by
  have hblocks : ∀ l : List PowBlock, Program.total VbkCommand.references (l.map (fun b => .addBtcBlock b v.containingBlock.height)) =
      Multiset.ofList (l.map (fun b => (b.getHash, v.containingBlock.height))) := by
    intro l
    induction l with
    | nil => rfl
    | cons b l ih => exact congrArg (({(b.getHash, v.containingBlock.height)} : Multiset (Hash × Nat)) + ·) ih
  have hcommands : v.commands = v.btcBlocks.map (fun b => .addBtcBlock b v.containingBlock.height) ++ [.addEndorsement v.endorsement] := by
    unfold commands btcBlocks
    rw [List.map_append, List.append_assoc]
    rfl
  rw [hcommands, Program.total_append, hblocks]
  exact add_zero _

end VTB

/-- What the VTBs in the applied VBK blocks owe, where `content` is the VTB behind an id -/
def Tree.vtbReferences (content : Nat → VTB) (t : Tree VbkAddon) : Multiset (Hash × Nat) :=
  t.owed (fun b => b.addon.vtbids) (Program.total (fun pid => (content pid).references))

/-- The storage has the VTB that is behind an id, if it has any. -/
def PayloadsStorage.Faithful (content : Nat → VTB) (s : PayloadsStorage) : Prop := ∀ ⦃pid v⦄, s.vtbs.find? pid = some v → content pid = v

theorem collect_eq_map {β γ : Type} {f : β → Option γ} {g : β → γ} (hf : ∀ b c, f b = some c → g b = c) {l : List β} {l' : List γ}
    (h : collect f l = some l') : l' = l.map g := by
  induction l generalizing l' with
  | nil =>
    cases h
    rfl
  | cons b l ih =>
    unfold collect at h
    split at h
    . next c cs hc hcs =>
      cases h
      rw [ih hcs, List.map_cons, hf b c hc]
    . cases h

namespace Tree

theorem vtbReferences_congr (hs : t.SameOn (fun b => (b.status.active, b.addon.vtbids)) t') :
    t'.vtbReferences content = t.vtbReferences content := owed_congr hs

/-- The VTBs of one block change. -/
theorem vtbReferences_update {f : VbkAddon → VbkAddon} {n m : Multiset (Hash × Nat)} (hn : t.blocks.keys.Nodup)
    (hb : t.find? h = some b) (hblocks : t'.blocks = (t.updateAddon h f).blocks)
    (hf : (if b.status.active then Program.total (fun pid => (content pid).references) (f b.addon).vtbids else 0) + n =
      (if b.status.active then Program.total (fun pid => (content pid).references) b.addon.vtbids else 0) + m) :
    t'.vtbReferences content + n = t.vtbReferences content + m := by
  have hfind : ∀ x, t'.find? x = (t.updateAddon h f).find? x := by
    intro x
    unfold Tree.find?
    rw [hblocks]
  have hself : t'.find? h = some (b.setAddon (f b.addon)) := by
    rw [hfind]
    unfold updateAddon
    rw [find?_update_self, hb]
    rfl
  have hkeys : t'.blocks.keys = t.blocks.keys := by
    rw [hblocks]
    exact Store.keys_modify _ _ _
  refine total_replace (g := fun b => (b.status.active, b.addon.vtbids))
    (f := fun _ u => if u.1 then Program.total (fun pid => (content pid).references) u.2 else 0) hn hkeys hb hself hf (fun x hx => ?_)
  rw [hfind]
  unfold updateAddon
  rw [find?_update_of_ne (Ne.symm hx)]

theorem vtbReferences_insertPayloadId (hn : t.blocks.keys.Nodup) (hb : t.find? h = some b) (ha : b.status.active = true) :
    (VbkBlockTree.insertPayloadId h pid t).vtbReferences content = t.vtbReferences content + (content pid).references := by
  refine (add_zero _).symm.trans (vtbReferences_update (f := fun a => { a with vtbids := a.vtbids ++ [pid] }) hn hb
    (addToPayloadsIndex_blocks _ _ _) ?_)
  rw [if_pos ha, if_pos ha, Program.total_append, add_zero]
  exact congrArg (Program.total _ b.addon.vtbids + ·) (add_zero _)

theorem vtbReferences_removePayloadId (hn : t.blocks.keys.Nodup) (hb : t.find? h = some b) (ha : b.status.active = true)
    (hmem : pid ∈ b.addon.vtbids) :
    (VbkBlockTree.removePayloadId h pid t).vtbReferences content + (content pid).references = t.vtbReferences content := by
  refine (vtbReferences_update (f := fun a => { a with vtbids := a.vtbids.erase pid }) hn hb rfl ?_).trans (add_zero _)
  rw [if_pos ha, if_pos ha, Program.total_erase hmem, add_zero, add_comm]

theorem vtbReferences_removePayloadId_of_unapplied (hn : t.blocks.keys.Nodup) (hb : t.find? h = some b) (ha : b.status.active = false) :
    (VbkBlockTree.removePayloadId h pid t).vtbReferences content = t.vtbReferences content := by
  refine (add_zero _).symm.trans ((vtbReferences_update (f := fun a => { a with vtbids := a.vtbids.erase pid }) (n := 0) (m := 0) hn hb
    rfl ?_).trans (add_zero _))
  rw [ha]
  rfl

theorem Quiet.active_eq {b' : BlockIndex VbkAddon} (hq : t.Quiet t') (hb : t.find? x = some b) (hb' : t'.find? x = some b') :
    b'.status.active = b.status.active := by
  have hsame : t.SameOn (fun b => b.status.active) t' := hq.same.comp (fun u => u.2.active)
  obtain ⟨b₁, hb₁, heq⟩ := hsame.find? hb'
  rw [hb] at hb₁
  cases hb₁
  exact heq.symm

end Tree

namespace VbkBlockTree

theorem posts_zoom_btc {n : Multiset (Hash × Nat)} {S : PayloadsStorage → Prop} {m : M (Tree BtcAddon) Bool}
    (hm : Posts (btcClass cfg).references (fun t => t.Accounted cfg.btc) n m) :
    Posts (fun s : VbkState => s.btc.references) (Settled cfg S t₀) n (zoom VbkState.btcTree m) := by
  intro s hs
  rw [wlp_zoom]
  exact wlp_mono (hm s.btc hs.1.btc) (fun _ x hx => ⟨⟨⟨hs.1.vbk, hx.1, hs.1.storage⟩, hs.2⟩, hx.2⟩)

theorem reverses_zoom_btc {n : Multiset (Hash × Nat)} {S : PayloadsStorage → Prop} {m : M (Tree BtcAddon) Unit}
    (hm : Reverses (btcClass cfg).references (fun t => t.Accounted cfg.btc) n m) :
    Reverses (fun s : VbkState => s.btc.references) (Settled cfg S t₀) n (zoom VbkState.btcTree m) := by
  intro s hs
  rw [wlp_zoom]
  exact wlp_mono (hm s.btc hs.1.btc) (fun _ x hx => ⟨⟨⟨hs.1.vbk, hx.1, hs.1.storage⟩, hs.2⟩, hx.2⟩)

section Endorsements

variable {S : PayloadsStorage → Prop} {R : Multiset (Hash × Nat)} (t₀ : Tree VbkAddon) (s : VbkState) (h : Hash)

theorem spares_updatePopState (f : PopState → PopState) (hs : Settled cfg S t₀ s ∧ s.btc.references = R) :
    Settled cfg S t₀ { s with vbk := s.vbk.updatePopState h f } ∧ s.btc.references = R :=
  ⟨settled_updatePopState t₀ s h f hs.1, hs.2⟩

theorem spares_updateBlockOfProof (f : List Endorsement → List Endorsement) (hs : Settled cfg S t₀ s ∧ s.btc.references = R) :
    Settled cfg S t₀ { s with btc := s.btc.updateBlockOfProof h f } ∧ (s.btc.updateBlockOfProof h f).references = R :=
  ⟨settled_updateBlockOfProof t₀ s h f hs.1,
    (Tree.references_congr ((alike_updateBlockOfProof s.btc h f).same.comp (fun u => u.1.2))).trans hs.2⟩

end Endorsements

/-- The commands of a VTB post its references. -/
theorem stateMachine_accounts : (stateMachine cfg).Accounts RefAddon.refs (fun b => (b.labour, b.addon.holdings))
    (Settled cfg (·.Faithful content)) (fun s => s.btc.references) VbkCommand.references
    (fun u => Program.total (fun pid => (content pid).references) u.2.2) where
  same _ _ hs := hs.2
  nodup _ _ hs := hs.1.vbk.wf.nodup
  ed _ _ := rfl
  ing _ _ hs := Tree.references_congr (hs.comp Prod.snd)
  execute t cmd := by
    cases cmd with
    | addBtcBlock b n => exact posts_zoom_btc (btcClass_upholds.addBlock_posts btcClass_referenced btcClass_counts b n)
    | addEndorsement e =>
      refine Spares.posts (fun s hs => ?_)
      exact addEndorsement_execute_keeping (I := fun t s => Settled cfg (·.Faithful content) t s ∧ s.btc.references = _)
        spares_updatePopState spares_updateBlockOfProof _ e t s ⟨hs, rfl⟩
  unExecute t cmd := by
    cases cmd with
    | addBtcBlock b n => exact reverses_zoom_btc (btcClass_upholds.addBlock_reverses btcClass_referenced btcClass_counts b n)
    | addEndorsement e =>
      refine Spares.reverses (fun s hs => ?_)
      exact addEndorsement_unExecute_keeping (I := fun t s => Settled cfg (·.Faithful content) t s ∧ s.btc.references = _)
        spares_updatePopState spares_updateBlockOfProof e t s ⟨hs, rfl⟩
  getCommands t s h b hs hb := by
    simp only [stateMachine, getCommands, wlp_bind, wlp_get, wlp_getOrStop, wlp_pure]
    intro vtbs hvtbs
    refine ⟨trivial, ?_⟩
    rw [collect_eq_map (fun pid v hv => hs.1.storage hv) hvtbs, Program.total_map, Program.total_map]
    exact Program.total_congr (fun pid _ => (content pid).total_commands)
  bodiless b hnone := by
    have hnil : b.addon.vtbids = [] := by simpa [PopAddon.hasPayloads] using hnone
    show Program.total _ b.addon.vtbids = 0
    rw [hnil]
    rfl

end VbkBlockTree

/-- The references to the BTC blocks are `r` and those of the VTBs in the applied VBK blocks. -/
structure VbkState.Balanced (cfg : Config) (content : Nat → VTB) (r : Multiset (Hash × Nat)) (s : VbkState) : Prop
    extends Upright cfg (·.Faithful content) s where
  balance : s.btc.references = r + s.vbk.vtbReferences content

namespace VbkBlockTree

theorem balanced_of_vbk {t : Tree VbkAddon} (hs : s.Balanced cfg content r) (ht : s.vbk.Alike VbkAddon.holdings t) :
    { s with vbk := t }.Balanced cfg content r := by
  refine ⟨vbkClass_steady.alike s t hs.toUpright ht, hs.balance.trans ?_⟩
  rw [Tree.vtbReferences_congr (ht.same.comp (fun u => (u.2, u.1.2.2)))]

theorem moves_balanced : (stateMachine cfg).Moves
    (fun t s => Settled cfg (·.Faithful content) t s ∧ s.btc.references = r + s.vbk.vtbReferences content) :=
  stateMachine_accounts.moves stateMachine_upholds stateMachine_local r

theorem balanced_fields (t₀ : Tree VbkAddon) (s : VbkState) (t' : Tree VbkAddon)
    (hs : Settled cfg (·.Faithful content) t₀ s ∧ s.btc.references = r + s.vbk.vtbReferences content) (ht : t'.blocks = s.vbk.blocks) :
    Settled cfg (·.Faithful content) t₀ { s with vbk := t' } ∧ s.btc.references = r + t'.vtbReferences content := by
  refine ⟨settled_fields t₀ s t' hs.1 ht, hs.2.trans ?_⟩
  rw [Tree.vtbReferences_congr (.of_blocks_eq ht)]

end VbkBlockTree

theorem vbkClass_balanced_steady : (vbkClass cfg).Steady VbkAddon.holdings (Balanced cfg content r) where
  alike _ _ hs ht := VbkBlockTree.balanced_of_vbk hs ht
  setState h t₀ s hs := by
    have hbalanced := (VbkBlockTree.setState_keeping VbkBlockTree.moves_balanced VbkBlockTree.balanced_fields h).wlp
      (i := t₀) ⟨⟨hs.1.toCredited, hs.2⟩, hs.1.balance⟩
    refine wlp_mono (wlp_and hbalanced (VbkBlockTree.wlp_setState_standing hs.1.standing)) ?_
    exact fun _ _ h => ⟨⟨⟨h.1.1.1, h.2.1⟩, h.1.2⟩, h.1.1.2⟩
  determineBestChain h t₀ s hs := by
    have hbalanced := (VbkBlockTree.determineBestChain_keeping VbkBlockTree.moves_balanced VbkBlockTree.balanced_fields h).wlp
      (i := t₀) ⟨⟨hs.1.toCredited, hs.2⟩, hs.1.balance⟩
    refine wlp_mono (wlp_and hbalanced (VbkBlockTree.wlp_determineBestChain_standing hs.1.standing)) ?_
    exact fun _ _ h => ⟨⟨⟨h.1.1.1, h.2⟩, h.1.2⟩, h.1.1.2⟩

theorem vbkClass_balanced_upholds : (vbkClass cfg).Upholds cfg.vbk VbkAddon.holdings (Balanced cfg content r) where
  toSteady := vbkClass_balanced_steady
  validateAndAddBlock block ctx := by
    apply Upholding.of_wlp
    intro s hs
    have hupright := (vbkClass_upholds.validateAndAddBlock block ctx).wlp hs.toUpright
    have howed : wlp (validateAndAddBlock cfg.vbk block ctx) (fun _ t' => t'.vtbReferences content = s.vbk.vtbReferences content) s.vbk :=
      wlp_validateAndAddBlock_owed (fun _ _ => rfl) ctx
    rw [wlp_zoom] at hupright ⊢
    refine wlp_mono (wlp_and hupright howed) (fun _ t' h => ⟨h.1, ?_⟩)
    exact hs.balance.trans (congrArg (r + ·) h.2.symm)

theorem vbkClass_balanced_counts : (vbkClass cfg).Counts (Balanced cfg content r) where
  addRef s h n b hs hb hd := by
    refine ⟨vbkClass_counts.addRef s h n b hs.toUpright hb hd, hs.balance.trans (congrArg (r + ·) ?_)⟩
    have hsame : s.vbk.SameOn (fun b => (b.status.active, b.addon.vtbids)) (s.vbk.updateAddon h (PowAddon.addRef n)) :=
      .update s.vbk h (fun _ _ => rfl)
    exact (Tree.vtbReferences_congr hsame).symm
  removeRef s h n b a hs hb ha := by
    refine ⟨vbkClass_counts.removeRef s h n b a hs.toUpright hb ha, hs.balance.trans (congrArg (r + ·) ?_)⟩
    refine (Tree.vtbReferences_congr (.update s.vbk h (fun b' hb' => ?_))).symm
    have hb : s.vbk.find? h = some b := hb
    rw [hb] at hb'
    cases hb'
    simp only [PowAddon.removeRef, Option.ite_none_right_eq_some, Option.some.injEq] at ha
    rw [← ha.2]
    rfl
  delete s h prev hs hh := by
    have hleave : Upholding (Balanced cfg content r) (when (s.vbk.onActiveChain h) (setStateOrStop (vbkClass cfg) prev)) :=
      .when (vbkClass_balanced_steady.setStateOrStop prev).upholding
    refine wlp_mono (wlp_and (VbkBlockTree.wlp_leave hs.toUpright hh) (hleave.wlp hs)) ?_
    rintro _ s1 ⟨⟨hs1, hh1, hoff⟩, hb1⟩
    refine wlp_mono (VbkBlockTree.wlp_deleteSubtree_upright hs1 hh1 hoff) ?_
    rintro _ s2 ⟨hs2, happlied, hbtc⟩
    refine ⟨hs2, ?_⟩
    rw [hbtc, hb1.balance]
    exact congrArg (r + ·) (Tree.owed_applied happlied).symm

namespace VbkBlockTree

/-- Commands of VBK blocks leave the VTBs and the applied blocks of the VBK tree alone. -/
structure Posted (cfg : Config) (content : Nat → VTB) (s s' : VbkState) : Prop where
  upright : s'.Upright cfg (·.Faithful content)
  same : s.vbk.SameOn (fun b => (b.status.active, b.addon.vtbids)) s'.vbk

theorem posted_of_settled {s' : VbkState} (hs : Settled cfg (·.Faithful content) s.vbk s') (hup : s'.Upright cfg (·.Faithful content))
    (hq : s.vbk.Quiet s'.vbk) : Posted cfg content s s' := by
  have hids : s.vbk.SameOn (fun b => b.addon.vtbids) s'.vbk := hs.2.comp (fun u => u.2.2)
  exact ⟨hup, hids.keys, fun x => hids.map_active (fun b b' hb hb' => hq.active_eq hb hb')⟩

theorem wlp_executeGroup_posted (cmds : List VbkCommand) (hs : s.Upright cfg (·.Faithful content)) :
    wlp ((stateMachine cfg).executeGroup cmds) (fun ok s' => Posted cfg content s s' ∧
      s'.btc.references = s.btc.references + if ok then Program.total VbkCommand.references cmds else 0) s := by
  have hposts := stateMachine_accounts.executeGroup (t := s.vbk) cmds s ⟨hs.toCredited, .refl s.vbk⟩
  refine wlp_mono (wlp_and (wlp_and hposts ((executeGroup_refunds cmds).wlp hs)) (stateMachine_local.executeGroup cmds s s (.refl s.vbk))) ?_
  exact fun _ _ h => ⟨posted_of_settled h.1.1.1 h.1.2.1 h.2, h.1.1.2⟩

theorem wlp_unExecuteGroup_posted (cmds : List VbkCommand) (hs : s.Upright cfg (·.Faithful content)) :
    wlp ((stateMachine cfg).unExecuteGroup cmds) (fun _ s' => Posted cfg content s s' ∧
      s'.btc.references + Program.total VbkCommand.references cmds = s.btc.references) s := by
  have hreverses := stateMachine_accounts.unExecuteGroup (t := s.vbk) cmds s ⟨hs.toCredited, .refl s.vbk⟩
  refine wlp_mono (wlp_and (wlp_and hreverses ((unExecuteGroup_refunds cmds).wlp hs))
    (stateMachine_local.unExecuteGroup cmds s s (.refl s.vbk))) ?_
  exact fun _ _ h => ⟨posted_of_settled h.1.1.1 h.1.2.1 h.2, h.1.1.2⟩

theorem upright_removePayloadId (h : Hash) (pid : Nat) (hs : s.Upright cfg (·.Faithful content)) :
    { s with vbk := removePayloadId h pid s.vbk }.Upright cfg (·.Faithful content) := hs.of_vbk (alike_removePayloadId h pid s.vbk)

theorem addPayloadToAppliedBlock_balanced (h : Hash) (v : VTB) : Upholding (Balanced cfg content r) (addPayloadToAppliedBlock cfg h v) := by
  apply Upholding.of_wlp
  intro s hs
  -- the VTB is put into the block, and taken out again if its commands fail
  have hmain : ∀ s0 b, s0.Balanced cfg content r → s0.vbk.find? h = some b → b.status.active = true → wlp (do
      zoom VbkState.vbkTree (modify (insertPayloadId h v.getId))
      let cmds ← getCommand v.getId
      if ← (stateMachine cfg).executeGroup cmds then
        pure true
      else do
        zoom VbkState.vbkTree (modify (removePayloadId h v.getId))
        pure false) (fun _ => Balanced cfg content r) s0 := by
    intro s0 b hs0 hb ha
    simp only [wlp_bind, wlp_zoom, wlp_modify, getCommand, wlp_get, wlp_getOrStop, wlp_pure]
    intro v' hv'
    have hv' : content v.getId = v' := hs0.storage hv'
    have hs1 : { s0 with vbk := insertPayloadId h v.getId s0.vbk }.Upright cfg (·.Faithful content) :=
      hs0.toUpright.of_vbk (alike_insertPayloadId h v.getId s0.vbk)
    have howed : (insertPayloadId h v.getId s0.vbk).vtbReferences content = s0.vbk.vtbReferences content + v'.references := by
      rw [← hv']
      exact Tree.vtbReferences_insertPayloadId hs0.vbk.wf.nodup hb ha
    have hinserted : (insertPayloadId h v.getId s0.vbk).find? h = some (b.setAddon { b.addon with vtbids := b.addon.vtbids ++ [v.getId] }) := by
      unfold insertPayloadId Tree.find?
      rw [addToPayloadsIndex_blocks]
      exact (Tree.find?_update_self s0.vbk h _).trans (congrArg (Option.map _) hb)
    refine wlp_mono (wlp_executeGroup_posted v'.commands hs1) (fun ok s2 h2 => ?_)
    obtain ⟨⟨hs2, hsame⟩, hrefs⟩ := h2
    have hrefs : s2.btc.references = s0.btc.references + if ok then v'.references else 0 := by
      rw [← v'.total_commands]
      exact hrefs
    have hkept : s2.vbk.vtbReferences content = s0.vbk.vtbReferences content + v'.references := (Tree.vtbReferences_congr hsame).trans howed
    rw [wlp_ite]
    refine ⟨fun hok => ⟨hs2, ?_⟩, fun hok => ⟨upright_removePayloadId h v.getId hs2, ?_⟩⟩
    . rw [hrefs, if_pos hok, hkept, hs0.balance, add_assoc]
    . obtain ⟨b2, hb2, heq⟩ := hsame.symm.find? hinserted
      obtain ⟨hactive, hids⟩ := Prod.mk.inj heq
      have hmem : v.getId ∈ b2.addon.vtbids := by
        rw [hids]
        exact List.mem_append_right _ List.mem_cons_self
      have hremoved : (removePayloadId h v.getId s2.vbk).vtbReferences content + (content v.getId).references =
          s2.vbk.vtbReferences content :=
        Tree.vtbReferences_removePayloadId hs2.vbk.wf.nodup hb2 (hactive.trans ha) hmem
      rw [hkept, hv'] at hremoved
      show s2.btc.references = r + (removePayloadId h v.getId s2.vbk).vtbReferences content
      rw [add_right_cancel hremoved, hrefs, if_neg hok, add_zero, hs0.balance]
  have hrecord : ∀ e, { s with vbk := s.vbk.record e }.Balanced cfg content r :=
    fun e => balanced_of_vbk hs (.of_blocks_eq rfl rfl)
  simp only [wlp_bind, wlp_zoom, wlp_modify, wlp_ite, wlp_pure] at hmain
  simp only [addPayloadToAppliedBlock, wlp_bind, wlp_zoom_derefBlock, wlp_check, wlp_get, wlp_ite, wlp_when]
  intro index hb hactive
  simp only [wlp_zoom, wlp_modify, wlp_pure]
  exact ⟨fun _ => hrecord _, fun _ => ⟨fun _ => hs, fun _ => ⟨fun _ => hmain _ index (hrecord _) hb hactive,
    fun _ => hmain s index hs hb hactive⟩⟩⟩

theorem unsafelyRemovePayload_balanced (h : Hash) (pid : Nat) (f : Bool) :
    Upholding (Balanced cfg content r) (unsafelyRemovePayload cfg h pid f) := by
  apply Upholding.of_wlp
  intro s hs
  have hlast : ∀ s1 : VbkState, { s1 with vbk := removePayloadId h pid s1.vbk }.Balanced cfg content r →
      wlp (when f (updateTips (vbkClass cfg))) (fun _ => Balanced cfg content r) { s1 with vbk := removePayloadId h pid s1.vbk } :=
    fun s1 h1 => Upholding.wlp (.when vbkClass_balanced_steady.updateTips.upholding) h1
  simp only [unsafelyRemovePayload, getCommand, wlp_bind, wlp_get, wlp_getOrStop, wlp_check, decide_eq_true_eq]
  intro index hindex hmem _
  have hb := (Tree.getBlockIndex_eq_some.mp hindex).1
  rw [wlp_when]
  refine ⟨fun hon => ?_, fun hoff => ?_⟩
  . simp only [wlp_bind, wlp_get, wlp_getOrStop, wlp_pure]
    intro v hv
    have hv : content pid = v := hs.storage hv
    have hactive : index.status.active = true := (hs.standing.applied hb).mpr (Tree.onActiveChain_iff.mp hon)
    refine wlp_mono (wlp_unExecuteGroup_posted v.commands hs.toUpright) (fun _ s1 h1 => ?_)
    obtain ⟨⟨hs1, hsame⟩, hrefs⟩ := h1
    rw [wlp_zoom, wlp_modify]
    refine hlast s1 ⟨upright_removePayloadId h pid hs1, ?_⟩
    obtain ⟨b1, hb1, heq⟩ := hsame.symm.find? hb
    obtain ⟨ha1, hids1⟩ := Prod.mk.inj heq
    have hmem1 : pid ∈ b1.addon.vtbids := by
      rw [hids1]
      exact hmem
    have hremoved : (removePayloadId h pid s1.vbk).vtbReferences content + (content pid).references = s1.vbk.vtbReferences content :=
      Tree.vtbReferences_removePayloadId hs1.vbk.wf.nodup hb1 (ha1.trans hactive) hmem1
    have hsum : s1.btc.references + v.references = r + (removePayloadId h pid s1.vbk).vtbReferences content + v.references := by
      rw [← v.total_commands, hrefs, hs.balance, ← Tree.vtbReferences_congr hsame, ← hremoved, hv, add_assoc, v.total_commands]
    exact add_right_cancel hsum
  . have hactive : index.status.active = false := by
      rw [← Bool.not_eq_true, hs.standing.applied hb]
      exact Tree.onActiveChain_eq_false_iff.mp hoff
    rw [wlp_zoom, wlp_modify]
    refine hlast s ⟨upright_removePayloadId h pid hs.toUpright, hs.balance.trans (congrArg (r + ·) ?_)⟩
    exact (Tree.vtbReferences_removePayloadId_of_unapplied hs.vbk.wf.nodup hb hactive).symm

theorem removePayloads_balanced (h : Hash) (pids : List Nat) : Upholding (Balanced cfg content r) (removePayloads cfg h pids) := by
  apply Upholding.of_wlp
  intro s hs
  -- the block has left the active chain when the VTBs are taken out of it
  have hone : ∀ pid, Upholding (fun s : VbkState => s.Balanced cfg content r ∧ h ∉ s.vbk.chainTo s.vbk.activeTip)
      (removePayloads.removeOne h pid) := by
    intro pid
    apply Upholding.of_wlp
    rintro s ⟨hs, hoff⟩
    simp only [removePayloads.removeOne, wlp_bind, wlp_zoom_derefBlock, wlp_check]
    intro index hb _ _
    rw [wlp_zoom, wlp_modify]
    have hactive : index.status.active = false := by
      rw [← Bool.not_eq_true, hs.standing.applied hb]
      exact hoff
    have hshape : s.vbk.SameShape (removePayloadId h pid s.vbk) := (alike_removePayloadId h pid s.vbk).same.comp (fun u => u.1.1.1)
    refine ⟨⟨upright_removePayloadId h pid hs.toUpright, hs.balance.trans (congrArg (r + ·) ?_)⟩, ?_⟩
    . exact (Tree.vtbReferences_removePayloadId_of_unapplied hs.vbk.wf.nodup hb hactive).symm
    . show h ∉ (removePayloadId h pid s.vbk).chainTo s.vbk.activeTip
      rw [hshape.chainTo]
      exact hoff
  simp only [removePayloads, wlp_bind, wlp_get, wlp_getOrStop]
  intro index hindex prev hprev
  have hchild : s.vbk.IsChild h prev := ⟨index, (Tree.getBlockIndex_eq_some.mp hindex).1, hprev⟩
  have hleave : Upholding (Balanced cfg content r) (when (s.vbk.onActiveChain h) (setStateOrStop (vbkClass cfg) prev)) :=
    .when (vbkClass_balanced_steady.setStateOrStop prev).upholding
  rw [wlp_when]
  refine ⟨fun _ => ?_, fun _ => hs⟩
  rw [wlp_bind]
  refine wlp_mono (wlp_and (wlp_leave hs.toUpright hchild) (hleave.wlp hs)) ?_
  rintro _ s1 ⟨⟨_, _, hoff⟩, hs1⟩
  rw [wlp_bind]
  refine wlp_mono (Upholding.wlp (.forEach hone pids) ⟨hs1, hoff⟩) (fun _ s2 h2 => ?_)
  exact vbkClass_balanced_steady.updateTips.upholding.wlp h2.1

theorem addPayloads_balanced (h : Hash) (payloads : List VTB) : Upholding (Balanced cfg content r) (addPayloads cfg h payloads) :=
  addPayloads_keeping h (fun x => (vbkClass_balanced_steady.setState x).upholding)
    (fun x => (vbkClass_balanced_steady.doUpdateAffectedTips x).upholding) (addPayloadToAppliedBlock_balanced h)
    (fun pid => unsafelyRemovePayload_balanced h pid false) payloads

theorem balanced_carries : Carries cfg (Balanced cfg content r) where
  upholds := vbkClass_balanced_upholds
  addPayloads := addPayloads_balanced
  unsafelyRemovePayload := unsafelyRemovePayload_balanced
  removePayloads := removePayloads_balanced

end VbkBlockTree

section Storage

variable {st : PayloadsStorage}

theorem PayloadsStorage.find?_put {β : Type} [DecidableEq β] {m : Store Nat β} {id k : Nat} {key : PayloadId} {a c : β}
    {log : List PayloadId} (h : (put m id key a log).1.find? k = some c) : m.find? k = some c ∨ k = id ∧ c = a := by
  unfold put at h
  have hinsert : (m.insert id a).find? k = some c → m.find? k = some c ∨ k = id ∧ c = a := by
    intro h
    rw [Store.find?_insert] at h
    split at h
    . next heq => exact .inr ⟨heq.symm, (Option.some.inj h).symm⟩
    . exact .inl h
  split at h
  . split at h
    . exact .inl h
    . exact hinsert h
  . exact hinsert h

/-- The VTBs that are written are those behind their ids. -/
theorem faithful_writePayloads {p : PopData} (hs : st.Faithful content) (hp : ∀ v ∈ p.vtbs, content v.getId = v) :
    (st.writePayloads p).Faithful content := by
  have hatvs : (p.atvs.foldl PayloadsStorage.writeATV st).Faithful content := List.foldlRecOn _ _ hs (fun _ hs _ _ => hs)
  have hvtbs : (p.vtbs.foldl PayloadsStorage.writeVTB (p.atvs.foldl PayloadsStorage.writeATV st)).Faithful content := by
    refine List.foldlRecOn _ _ hatvs (fun st hs v hv pid w hw => ?_)
    rcases PayloadsStorage.find?_put hw with hold | ⟨rfl, rfl⟩
    . exact hs hold
    . exact hp w hv
  exact List.foldlRecOn _ _ hvtbs (fun _ hs _ _ => hs)

end Storage

namespace Op

/-- The VTBs that a call puts into the storage -/
def vtbs (op : Op) : List VTB := op.written.elim [] (·.vtbs)

theorem exec_balanced (op : Op) (hop : op.removesBtc = false) (hcontent : ∀ v ∈ op.vtbs, content v.getId = v) :
    Upholding (fun s => s.sp.Balanced cfg content r) (op.exec cfg) := by
  have hV : VbkBlockTree.Carries cfg (Balanced cfg content r) := VbkBlockTree.balanced_carries
  have hI := AltBlockTree.carries_of_sp hV vbkClass_balanced_counts
  cases hremoves : op.removesBlocks with
  | false =>
    refine exec_upholding hI (V := fun _ : Unit => Balanced cfg content r) (fun _ => hV)
      (fun hm => Upholding.zoom hm (fun _ hs => hs) (fun _ _ _ hx => hx)) (fun hm => ?_) op hremoves (fun p hp s hs => ?_)
    . intro _ s hs
      show wlp _ _ _
      rw [wlp_zoom]
      refine wlp_mono (hm.wlp ⟨hs.btc, rfl⟩) (fun _ t hx => ⟨⟨⟨hs.vbk, hx.1, hs.storage⟩, hs.standing⟩, ?_⟩)
      exact hx.2.trans hs.balance
    . have hp : op.vtbs = p.vtbs := by
        unfold vtbs
        rw [hp]
        rfl
      rw [hp] at hcontent
      exact ⟨⟨⟨hs.vbk, hs.btc, faithful_writePayloads hs.storage hcontent⟩, hs.standing⟩, hs.balance⟩
  | true => exact exec_upholding_removing hV vbkClass_balanced_counts op hremoves hop

end Op

/-- The references of the bootstrap to its BTC blocks -/
def Bootstrap.btcReferences (b : Bootstrap) : Multiset (Hash × Nat) :=
  Multiset.ofList ((b.btc :: b.btcChain).map (fun block => (block.getHash, 0)))

/-- A tree of its bootstrap block has what this block has, with the reference of the bootstrap. -/
theorem Tree.total_bootstrap {A γ ν : Type} [PowAddon A] [AddCommMonoid ν] {g : BlockIndex A → γ} {f : Hash → γ → ν} {n : ν}
    {p : BlockTreeParams} {block : PowBlock} {height : Nat}
    (hf : ∀ b : BlockIndex A, b.addon =
      PowAddon.addRef 0 (PowAddon.setChainWork (toUint256 (p.getBlockProof block.toBlock)) BlockAddon.empty) → f block.getHash (g b) = n) :
    (Tree.bootstrap p block height : Tree A).total g f = n := by
  have hb : (Tree.bootstrap p block height : Tree A).find? block.getHash = some _ := (Store.find?_insert _ _ _ _).trans (if_pos rfl)
  show ((Tree.bootstrap p block height : Tree A).find? block.getHash).elim 0 (fun b => f block.getHash (g b)) + 0 = n
  rw [hb, add_zero]
  exact hf _ rfl

theorem Bootstrap.balanced_roots (b : Bootstrap) : (b.roots cfg).sp.Balanced cfg content {(b.btc.getHash, 0)} := by
  refine ⟨⟨⟨Tree.accounted_bootstrap _ _ _, Tree.accounted_bootstrap _ _ _, fun _ _ h => (by cases h)⟩, Tree.standing_bootstrap _ _ _⟩, ?_⟩
  have hbtc : (b.roots cfg).sp.btc.references = {(b.btc.getHash, 0)} :=
    Tree.total_bootstrap (A := BtcAddon) (fun c hc => by rw [hc]; rfl)
  have hvbk : (b.roots cfg).sp.vbk.vtbReferences content = 0 := by
    refine Tree.total_bootstrap (A := VbkAddon) (g := fun b => (b.status.active, b.addon.vtbids))
      (f := fun _ u => if u.1 then Program.total (fun pid => (content pid).references) u.2 else 0) (fun c hc => ?_)
    rw [hc]
    exact ite_self 0
  rw [hbtc, hvbk, add_zero]

theorem Bootstrap.wlp_chains_balanced (b : Bootstrap) :
    wlp (b.chains cfg) (fun _ s => s.sp.Balanced cfg content b.btcReferences) (b.roots cfg) := by
  have hroots : (b.roots cfg).sp.Balanced cfg content {(b.btc.getHash, 0)} := b.balanced_roots
  simp only [Bootstrap.chains, Op.onBtc, Op.onVbk, wlp_bind, wlp_zoom, wlp_pure]
  refine wlp_mono (btcClass_upholds.wlp_bootstrapBlocks btcClass_referenced btcClass_counts b.btcChain hroots.btc) (fun _ t ht => ?_)
  have hbtc : { (b.roots cfg).sp with btc := t }.Balanced cfg content b.btcReferences := by
    refine ⟨⟨⟨hroots.vbk, ht.1, hroots.storage⟩, hroots.standing⟩, ht.2.trans ?_⟩
    have hchain : b.btcReferences = {(b.btc.getHash, 0)} + Multiset.ofList (b.btcChain.map (fun block => (block.getHash, 0))) := rfl
    rw [hchain, add_right_comm]
    exact congrArg (· + Multiset.ofList (b.btcChain.map (fun block => (block.getHash, 0)))) hroots.balance
  have hvbk : Upholding (Balanced cfg content b.btcReferences) (forEach (bootstrapBlock cfg.vbk (vbkClass cfg)) b.vbkChain) :=
    .forEach (vbkClass_balanced_upholds.bootstrapBlock vbkClass_balanced_counts) _
  exact hvbk.wlp hbtc

theorem Op.balanced_run {b : Bootstrap} {ops : List Op} {s₀ s : AltState} (hstart : b.chains cfg (b.roots cfg) = .ok () s₀)
    (hrun : Op.run cfg ops s₀ = .ok () s) (hops : ∀ op ∈ ops, op.removesBtc = false)
    (hcontent : ∀ op ∈ ops, ∀ v ∈ op.vtbs, content v.getId = v) : s.sp.Balanced cfg content b.btcReferences := by
  have hchains : wlp (b.chains cfg) (fun _ s => s.sp.Balanced cfg content b.btcReferences) (b.roots cfg) := b.wlp_chains_balanced
  have hs₀ := wlp_ok hchains hstart
  have hall : wlp (Op.run cfg ops) (fun _ s => s.sp.Balanced cfg content b.btcReferences) s₀ :=
    wlp_forEach (fun op hop _ hs => (op.exec_balanced (hops op hop) (hcontent op hop)).wlp hs) hs₀
  have hs := wlp_ok hall hrun
  exact hs

/-- In every run that deletes no BTC block by hand and stores one VTB for an id, the references to the BTC blocks are those of
the bootstrap and those of the VTBs in the VBK blocks that are applied in the end, each as often as it was made. -/
theorem Op.run_btcReferences {b : Bootstrap} {ops : List Op} {s₀ s : AltState} (hstart : b.chains cfg (b.roots cfg) = .ok () s₀)
    (hrun : Op.run cfg ops s₀ = .ok () s) (hops : ∀ op ∈ ops, op.removesBtc = false)
    (hcontent : ∀ op ∈ ops, ∀ v ∈ op.vtbs, content v.getId = v) :
    s.sp.btc.references = b.btcReferences + s.sp.vbk.vtbReferences content := (Op.balanced_run hstart hrun hops hcontent).balance

namespace Small

theorem run_siblings : Op.run config siblings start = .ok () (after siblings) := by
  have hreturned : returned (Op.run config siblings start) = some () := by decide +kernel
  unfold after
  rw [ok_finalState hreturned]

theorem run_btcReferences_siblings :
    (after siblings).sp.btc.references = bootstrap.btcReferences + (after siblings).sp.vbk.vtbReferences (fun _ => sideVTB) ∧
      (after siblings).sp.vbk.vtbReferences (fun _ => sideVTB) = {(sideBtc.getHash, sideVbk.height)} :=
  ⟨Op.run_btcReferences (b := bootstrap) rfl run_siblings (by decide) (by decide), by decide +kernel⟩

end Small

section Brought

theorem mem_total {β γ : Type} {f : β → Multiset γ} {l : List β} {c : γ} : c ∈ Program.total f l ↔ ∃ b ∈ l, c ∈ f b := by
  induction l with
  | nil => simp [Program.total]
  | cons b l ih => simp [Program.total, ih]

theorem VTB.mem_references {v : VTB} : (∃ n, (x, n) ∈ v.references) ↔ ∃ p ∈ v.btcBlocks, p.getHash = x := by
  have hmem : ∀ n, (x, n) ∈ v.references ↔ ∃ p ∈ v.btcBlocks, (p.getHash, v.containingBlock.height) = (x, n) := fun n => List.mem_map
  simp only [hmem, Prod.mk.injEq]
  constructor
  . rintro ⟨_, p, hp, hx, _⟩
    exact ⟨p, hp, hx⟩
  . rintro ⟨p, hp, hx⟩
    exact ⟨v.containingBlock.height, p, hp, hx, rfl⟩

theorem Bootstrap.mem_btcReferences {b : Bootstrap} : (∃ n, (x, n) ∈ b.btcReferences) ↔ ∃ p ∈ b.btc :: b.btcChain, p.getHash = x := by
  have hmem : ∀ n, (x, n) ∈ b.btcReferences ↔ ∃ p ∈ b.btc :: b.btcChain, (p.getHash, 0) = (x, n) := fun n => List.mem_map
  simp only [hmem, Prod.mk.injEq]
  constructor
  . rintro ⟨_, p, hp, hx, _⟩
    exact ⟨p, hp, hx⟩
  . rintro ⟨p, hp, hx⟩
    exact ⟨0, p, hp, hx, rfl⟩

theorem Tree.mem_vtbReferences {u : Hash × Nat} : u ∈ t.vtbReferences content ↔
    ∃ y c pid, t.find? y = some c ∧ c.status.active = true ∧ pid ∈ c.addon.vtbids ∧ u ∈ (content pid).references := by
  show u ∈ Program.total (fun y => (t.find? y).elim 0 (fun c =>
    if c.status.active = true then Program.total (fun pid => (content pid).references) c.addon.vtbids else 0)) t.blocks.keys ↔ _
  rw [mem_total]
  constructor
  . rintro ⟨y, _, hu⟩
    cases hc : t.find? y with
    | none =>
      rw [hc] at hu
      cases Multiset.notMem_zero _ hu
    | some c =>
      rw [hc, Option.elim_some] at hu
      split at hu
      . next ha =>
        obtain ⟨pid, hpid, hu⟩ := mem_total.mp hu
        exact ⟨y, c, pid, hc, ha, hpid, hu⟩
      . cases Multiset.notMem_zero _ hu
  . rintro ⟨y, c, pid, hc, ha, hpid, hu⟩
    have hy : y ∈ t.blocks.keys := by
      by_contra hy
      have hnone : t.find? y = none := (Store.find?_eq_none_iff _ _).mpr hy
      rw [hc] at hnone
      cases hnone
    refine ⟨y, hy, ?_⟩
    rw [hc, Option.elim_some, if_pos ha]
    exact mem_total.mpr ⟨pid, hpid, hu⟩

/-- The bootstrap or a VTB in an applied VBK block has brought the BTC block `x`. -/
def Bootstrap.Brought (b : Bootstrap) (content : Nat → VTB) (s : VbkState) (x : Hash) : Prop :=
  (∃ p ∈ b.btc :: b.btcChain, p.getHash = x) ∨
    ∃ y c pid, s.vbk.find? y = some c ∧ c.status.active = true ∧ pid ∈ c.addon.vtbids ∧ ∃ p ∈ (content pid).btcBlocks, p.getHash = x

theorem VbkState.Balanced.brought_iff {b : Bootstrap} (hs : s.Balanced cfg content b.btcReferences) :
    b.Brought content s x ↔ ∃ n, (x, n) ∈ s.btc.references := by
  rw [hs.balance]
  simp only [Multiset.mem_add, Tree.mem_vtbReferences, exists_or, Bootstrap.mem_btcReferences, Bootstrap.Brought]
  refine or_congr_right ⟨?_, ?_⟩
  . rintro ⟨y, c, pid, hc, ha, hpid, hp⟩
    obtain ⟨n, hn⟩ := VTB.mem_references.mpr hp
    exact ⟨n, y, c, pid, hc, ha, hpid, hn⟩
  . rintro ⟨n, y, c, pid, hc, ha, hpid, hn⟩
    exact ⟨y, c, pid, hc, ha, hpid, VTB.mem_references.mp ⟨n, hn⟩⟩

/-- In such a run a BTC block has references exactly if the bootstrap or a VTB in a VBK block that is applied in the end has
brought it, and then it is in the tree. -/
theorem Op.run_btcBrought {b : Bootstrap} {ops : List Op} {s₀ s : AltState} (hstart : b.chains cfg (b.roots cfg) = .ok () s₀)
    (hrun : Op.run cfg ops s₀ = .ok () s) (hops : ∀ op ∈ ops, op.removesBtc = false)
    (hcontent : ∀ op ∈ ops, ∀ v ∈ op.vtbs, content v.getId = v) (x : Hash) :
    b.Brought content s.sp x ↔ ∃ c, s.sp.btc.find? x = some c ∧ c.status.deleted = false ∧ c.addon.refs ≠ [] := by
  have hs := Op.balanced_run hstart hrun hops hcontent
  rw [hs.brought_iff]
  simp only [Tree.mem_references hs.btc.wf.nodup, Tree.refsAt]
  constructor
  . rintro ⟨n, hn⟩
    cases hc : s.sp.btc.find? x with
    | none =>
      rw [hc] at hn
      cases hn
    | some c =>
      rw [hc] at hn
      have hrefs : c.addon.refs ≠ [] := List.ne_nil_of_mem hn
      refine ⟨c, rfl, ?_, hrefs⟩
      rw [← Bool.not_eq_true]
      exact fun hd => hrefs (hs.btc.freed hc hd)
  . rintro ⟨c, hc, _, hrefs⟩
    rw [hc]
    exact List.exists_mem_of_ne_nil _ hrefs

theorem Small.run_btcBrought_siblings : bootstrap.Brought (fun _ => sideVTB) (after siblings).sp sideBtc.getHash ↔
    ∃ c, (after siblings).sp.btc.find? sideBtc.getHash = some c ∧ c.status.deleted = false ∧ c.addon.refs ≠ [] :=
  Op.run_btcBrought (b := bootstrap) rfl run_siblings (by decide) (by decide) _

end Brought

end AltIntegration
