import AltIntegration.Blockchain.System
import AltIntegration.System.Accounts
import AltIntegration.System.Upright

/-!
This module contains what the public calls keep, given that the functions of the VBK tree, and applying and unapplying
an ALT block, keep it. What is kept may speak of the places of the ALT blocks, of which are applied, and of their payloads.
-/

namespace AltIntegration

open Program BlockIndex VbkState

variable {ι α : Type} {cfg : Config} {s : AltState} {h : Hash}

/-- Where an ALT block is, whether it is applied, and its data -/
def BlockIndex.stock {A : Type} (b : BlockIndex A) : (Block × Option Hash × Nat) × Bool × A := (b.shape, b.status.active, b.addon)

theorem stock_setStatus {A : Type} (b : BlockIndex A) {s : BlockStatus} (ha : s.active = b.status.active) :
    (b.setStatus s).stock = b.stock := by
  unfold stock
  rw [setStatus_shape, setStatus_status, setStatus_addon, ha]

/-- The functions of the VBK tree keep `V`. -/
structure VbkBlockTree.Carries (cfg : Config) (V : VbkState → Prop) : Prop where
  upholds : (vbkClass cfg).Upholds cfg.vbk VbkAddon.holdings V
  addPayloads : ∀ h p, Upholding V (VbkBlockTree.addPayloads cfg h p)
  unsafelyRemovePayload : ∀ h pid f, Upholding V (VbkBlockTree.unsafelyRemovePayload cfg h pid f)
  removePayloads : ∀ h pids, Upholding V (VbkBlockTree.removePayloads cfg h pids)

theorem VbkBlockTree.upright_carries {S : PayloadsStorage → Prop} : VbkBlockTree.Carries cfg (Upright cfg S) where
  upholds := vbkClass_upholds
  addPayloads h p := (addPayloads_refunds h p).upholding
  unsafelyRemovePayload h pid f := (unsafelyRemovePayload_refunds h pid f).upholding
  removePayloads h pids := (removePayloads_refunds h pids).upholding

namespace AltBlockTree

/-- What applying and unapplying ALT blocks, and what the calls do to the ALT tree, keep -/
structure Carries (cfg : Config) (I : AltState → Prop) : Prop where
  moves : (stateMachine cfg).Moves (fun _ : Unit => I)
  stock : ∀ s t', I s → s.alt.SameOn stock t' → I { s with alt := t' }
  create : ∀ s header prev, I s → s.alt.find? header.hash = none → s.alt.getBlockIndex header.previousBlock = some prev →
    I { s with alt := s.alt.createBlockIndex header prev }
  payloads : ∀ s h (f : AltAddon → AltAddon), I s → (∀ b, s.alt.find? h = some b → b.status.active = false) →
    I { s with alt := s.alt.update h (fun b => b.setAddon (f b.addon)) }

section Sp

variable {V : VbkState → Prop} {I : ι → AltState → Prop} (hV : VbkBlockTree.Carries cfg V) (hcount : (vbkClass cfg).Counts V)
  (hget : ∀ i s, I i s → V s.sp) (hset : ∀ i s x, I i s → V x → I i { s with sp := x })
  (hsame : ∀ i s t', I i s → s.alt.SameOn (fun b => b.addon.payloadIds) t' → I i { s with alt := t' })

include hV hcount hget hset hsame

/-- The state machine of ALT keeps what the functions of the VBK tree keep. -/
theorem stateMachine_upholds : (stateMachine cfg).Upholds VbkAddon.holdings (fun b => b.addon.payloadIds) I V := by
  have hsp : ∀ {α : Type} {m : M VbkState α}, Upholding V m → Keeping I (zoom AltState.spState m) := by
    intro _ m hm i s hs
    show wlp _ _ _
    rw [wlp_zoom]
    exact wlp_mono (hm.wlp (hget i s hs)) (fun _ x hx => hset i s x hs hx)
  have hpop : ∀ i s h f, I i s → I i { s with alt := s.alt.updatePopState h f } :=
    fun i s h f hs => hsame i s _ hs (.update s.alt h (fun _ _ => rfl))
  have hproof : ∀ i s h f, I i s → I i { s with sp := { s.sp with vbk := s.sp.vbk.updateBlockOfProof h f } } :=
    fun i s h f hs => hset i s _ hs (hV.upholds.alike s.sp _ (hget i s hs) (.updateAddon (fun _ _ => ⟨rfl, rfl⟩)))
  exact
    { ed := hsame
      bare := fun _ _ heq => congrArg (fun u => u.2.payloadIds) heq
      active := fun v b => by rw [setStatus_addon]
      level := fun _ _ => rfl
      ing_get := hget
      ing_set := fun i s x hs hx _ => hset i s x hs hx
      protecting := hV.upholds.toSteady
      getCommands := fun index => .bind .get (fun _ => .bind Keeping.getOrStop (fun _ => .bind Keeping.getOrStop (fun _ =>
        .bind Keeping.getOrStop (fun _ => .pure _))))
      execute := fun cmd => by
        cases cmd with
        | addVbkBlock b => exact hsp (hV.upholds.addBlock_execute hcount b 0)
        | addVTB v => exact hsp (hV.addPayloads _ _)
        | checkPublicationData c h => exact .bind .get (fun _ => .pure _)
        | addEndorsement e => exact addEndorsement_execute_keeping hpop hproof _ e
      unExecute := fun cmd => by
        cases cmd with
        | addVbkBlock b => exact hsp (hV.upholds.addBlock_unExecute hcount b 0)
        | addVTB v => exact hsp (hV.unsafelyRemovePayload _ _ _)
        | checkPublicationData c h => exact .pure _
        | addEndorsement e => exact addEndorsement_unExecute_keeping hpop hproof e }

end Sp

/-- The ALT blocks stay where they are, with their payloads. -/
abbrev Stocks (m : M (Tree AltAddon) α) : Prop := Stays (fun t t' : Tree AltAddon => t.SameOn BlockIndex.stock t') m

theorem stocks_modify {f : Tree AltAddon → Tree AltAddon} (hf : ∀ t : Tree AltAddon, t.SameOn stock (f t)) : Stocks (modify f) :=
  Keeps.modify (fun _ t ht => Tree.SameOn.trans ht (hf t))

theorem stocks_flagged {m : M (Tree AltAddon) α} (hm : KeepsFlagged m) : Stocks m := by
  intro t₀ t ht
  refine wlp_mono (hm t t (.refl t)) (fun _ t' ht' => ht.trans ?_)
  exact ht'.same.comp (fun u => (u.1.1, u.1.2.active, u.2))

theorem stocks_derefBlock (h : Hash) : Stocks (derefBlock h) := stocks_flagged (KeepsFlagged.derefBlock h)

theorem stocks_setStatus (h : Hash) {u : BlockStatus → BlockStatus} (hu : ∀ s, (u s).active = s.active) :
    Stocks (modifyBlock h (fun b => b.setStatus (u b.status))) :=
  stocks_modify (fun t => .update t h (fun b _ => stock_setStatus b (hu b.status)))

theorem stocks_setLevel (h : Hash) (l : BlockStateStatus) : Stocks (modifyBlock h (·.setLevel l)) :=
  stocks_modify (fun t => .update t h (fun _ _ => rfl))

theorem stocks_raiseValidity (h : Hash) (l : BlockStateStatus) : Stocks (raiseValidity h l) := by
  refine .bind (stocks_derefBlock h) (fun b => .ite (.pure _) (.ite (.bind ?_ (fun _ =>
    .bind (stocks_setLevel h l) (fun _ => .pure _))) (.pure _)))
  unfold raiseValidity.assertAncestorLevel
  split
  . exact .pure _
  . exact .bind (stocks_derefBlock _) (fun _ => Keeping.check)

theorem stocks_lowerValidity (h : Hash) (l : BlockStateStatus) : Stocks (lowerValidity h l) :=
  .bind (stocks_derefBlock h) (fun _ => .ite (.bind (stocks_setLevel h l) (fun _ => .pure _)) (.pure _))

theorem stocks_tryAddTip (h : Hash) : Stocks (modify fun t : Tree AltAddon => t.tryAddTip h) :=
  stocks_modify (fun _ => .of_blocks_eq Tree.tryAddTip_blocks)

theorem stocks_insertRestored (header : Block) : Stocks (insertBlockHeader.insertRestored (fun _ t => t) header) := by
  refine .bind (.bind (stocks_derefBlock _) (fun b => .bind Keeping.check (fun _ => .bind (.when (stocks_modify (fun _ =>
    .of_blocks_eq rfl))) (fun _ => stocks_setStatus header.hash (u := (·.assign false .deleted)) (fun _ => rfl))))) (fun _ => ?_)
  exact .bind (stocks_tryAddTip _) (fun _ => .bind (stocks_modify (fun t => .refl t)) (fun _ =>
    .bind (stocks_raiseValidity _ _) (fun _ => .pure _)))

theorem stocks_disconnect (h : Hash) : Stocks (disconnect h) :=
  .bind (stocks_derefBlock h) (fun _ => .when (.bind (stocks_lowerValidity h _) (fun _ => Keeping.check)))

namespace Carries

variable {I : AltState → Prop} (hI : Carries cfg I)

include hI

theorem zoom_alt {m : M (Tree AltAddon) α} (hm : Stocks m) : Upholding I (zoom AltState.altTree m) := by
  apply Upholding.of_wlp
  intro s hs
  rw [wlp_zoom]
  exact wlp_mono (hm _ _ (.refl s.alt)) (fun _ t' ht' => hI.stock s t' hs ht')

theorem fields {f : Tree AltAddon → Tree AltAddon} (hf : ∀ t : Tree AltAddon, (f t).blocks = t.blocks) :
    Upholding I (zoom AltState.altTree (modify f)) :=
  hI.zoom_alt (stocks_modify (fun t => .of_blocks_eq (hf t)))

theorem overrideTip (h : Hash) : Upholding I (overrideTip h) :=
  .bind (Upholding.derefBlock h) (fun _ => .bind Upholding.check (fun _ => hI.fields (fun _ => rfl)))

theorem setState (h : Hash) : Upholding I (setState cfg h) := by
  refine .bind (Upholding.derefBlock h) (fun _ => .bind Upholding.check (fun _ => .bind (hI.moves.comparatorSetState h) (fun _ =>
    .bind (.ite (hI.overrideTip h) ?_) (fun _ => .bind .get (fun _ => .bind Upholding.check (fun _ => .pure _))))))
  exact .bind (Upholding.derefBlock h) (fun _ => Upholding.check)

theorem setStateByHash (h : Hash) : Upholding I (setStateByHash cfg h) := by
  refine .bind .get (fun _ => ?_)
  split
  . exact .pure _
  . exact hI.setState h

theorem setStateOrStop (h : Hash) : Upholding I (setStateOrStop (altClass cfg) h) :=
  .bind (hI.setState h) (fun _ => Upholding.check)

/-- ALT does no fork resolution of its own. -/
theorem updateTips : Upholding I (updateTips (altClass cfg)) := by
  refine .bind Upholding.getTree (fun _ => .ite (.bind Upholding.getTree (fun _ => .bind (hI.fields (fun _ => rfl)) (fun _ =>
    .forEach (fun _ => ?_) _))) (hI.fields (fun _ => rfl)))
  exact .bind Upholding.getTree (fun _ => .bind Upholding.check (fun _ => .bind (.pure _) (fun _ =>
    .bind Upholding.getTree (fun _ => Upholding.check))))

theorem invalidateSubtree (h : Hash) (r : BlockValidityStatus) (f : Bool) : Upholding I (invalidateSubtree (altClass cfg) h r f) := by
  refine .bind Upholding.getTree (fun _ => .bind Upholding.getOrStop (fun _ => .bind Upholding.getOrStop (fun prev =>
    Upholding.of_wlp (fun s hs => ?_))))
  rw [wlp_bind, wlp_check]
  intro hr
  have hr := isFailure_of_valid hr
  refine Upholding.wlp (.ite (.pure _) (.ite (hI.zoom_alt (stocks_flagged (.doInvalidate h hr))) ?_)) hs
  exact .bind (.when (hI.setStateOrStop prev)) (fun _ => .bind (hI.zoom_alt (stocks_flagged (.flagSubtree h prev hr))) (fun _ =>
    .when hI.updateTips))

theorem revalidateSubtree (h : Hash) (r : BlockValidityStatus) (f : Bool) : Upholding I (revalidateSubtree (altClass cfg) h r f) := by
  refine .bind Upholding.getTree (fun _ => .bind Upholding.getOrStop (fun _ => .bind Upholding.check (fun _ =>
    Upholding.of_wlp (fun s hs => ?_))))
  rw [wlp_bind, wlp_check]
  intro hr
  have hr := isFailure_of_valid hr
  refine Upholding.wlp (.ite (.pure _) (.ite (hI.zoom_alt (stocks_flagged (.doReValidate h hr))) ?_)) hs
  exact .bind (hI.zoom_alt (stocks_flagged (.unflagSubtree h hr))) (fun _ => .when hI.updateTips)

theorem comparePopScore (x y : Hash) : Upholding I (comparePopScore cfg x y) := by
  refine .bind .get (fun _ => .bind Upholding.getOrStop (fun _ => .bind Upholding.check (fun _ => ?_)))
  split
  . exact .pure _
  . exact .bind Upholding.check (fun _ => .bind Upholding.check (fun _ => .bind (hI.moves.comparePopScore _ y) (fun _ =>
      .bind (.when (hI.fields (fun _ => rfl))) (fun _ => .pure _))))

theorem insertBlockHeader (header : Block) : Upholding I (zoom AltState.altTree (insertBlockHeader (fun _ t => t) header)) := by
  apply Upholding.of_wlp
  intro s hs
  have hinsert : ∀ t : Tree AltAddon, I { s with alt := t } →
      wlp (insertBlockHeader.insertRestored (fun _ t => t) header) (fun _ t' => I { s with alt := t' }) t :=
    fun t ht => wlp_mono (stocks_insertRestored header t t (.refl t)) (fun _ t' ht' => hI.stock { s with alt := t } t' ht ht')
  simp only [AltIntegration.insertBlockHeader, wlp_zoom, wlp_bind, wlp_check, wlp_get]
  intro _
  split
  . simp only [wlp_ite, wlp_bind, wlp_check, wlp_pure]
    exact ⟨fun _ _ => hinsert _ hs, fun _ => hs⟩
  . next hnew =>
    simp only [doInsertBlockHeader, wlp_bind, wlp_get, wlp_getOrStop, wlp_modify]
    exact fun prev hprev => hinsert _ (hI.create s header prev hs hnew hprev)

theorem acceptBlockHeader (block : Block) : Upholding I (acceptBlockHeader block) := by
  refine .bind Upholding.check (fun _ => .bind .get (fun _ => .ite (.pure _) ?_))
  split
  . exact .pure _
  . exact .bind (hI.insertBlockHeader block) (fun _ => .bind (Upholding.derefBlock _) (fun _ => .ite (.pure _)
      (.bind (hI.zoom_alt (stocks_tryAddTip _)) (fun _ => .pure _))))

theorem setPayloads (h : Hash) (p : PopData)
    (hwrite : ∀ s, I s → I { s with sp := { s.sp with storage := s.sp.storage.writePayloads p } }) : Upholding I (setPayloads h p) := by
  apply Upholding.of_wlp
  intro s hs
  simp only [AltBlockTree.setPayloads, wlp_bind, wlp_zoom_derefBlock, wlp_check]
  intro index hb _ _ hactive _ _
  have hbody := hI.payloads s h (fun a => { vbkblockids := p.context.map PowBlock.getHash, vtbids := p.vtbs.map VTB.getId
                                            atvids := p.atvs.map ATV.getId, popState := a.popState }) hs (fun b hb' => ?_)
  . have hcommit : I { s with alt := commitPayloadsIds h p s.alt } :=
      hI.stock { s with alt := s.alt.update h _ } _ hbody (.of_blocks_eq (foldl_addToPayloadsIndex_blocks _ h _))
    have hwritten := hwrite _ hcommit
    simp only [wlp_zoom, wlp_modify, wlp_modifyBlock]
    exact hI.stock _ _ hwritten (.update _ h (fun b _ => stock_setStatus b rfl))
  . have hb : s.alt.find? h = some index := hb
    rw [hb] at hb'
    cases hb'
    rw [Bool.not_eq_true'] at hactive
    exact hactive

theorem connectBlock (h : Hash) : Upholding I (connectBlock cfg h) := by
  refine .bind (Upholding.derefBlock h) (fun _ => .bind Upholding.check (fun _ => .bind Upholding.check (fun _ => .bind Upholding.check (fun _ =>
    .bind Upholding.getOrStop (fun _ => .bind (Upholding.derefBlock _) (fun _ => .bind Upholding.check (fun _ => .bind .get (fun _ =>
    .bind Upholding.check (fun _ => .bind (hI.zoom_alt (stocks_raiseValidity h _)) (fun _ => .bind Upholding.check (fun _ => .bind .get (fun _ =>
    ?_))))))))))))
  exact .bind (.when (hI.invalidateSubtree h _ _)) (fun _ => hI.zoom_alt (stocks_tryAddTip h))

theorem connectSubtree (n : Nat) (h : Hash) : Upholding I (connectSubtree cfg n h) := by
  induction n generalizing h with
  | zero => exact .pure _
  | succ n ih =>
    exact .bind (Upholding.derefBlock h) (fun _ => .when (.bind (hI.connectBlock h) (fun _ => .bind .get (fun _ => .forEach ih _))))

theorem acceptBlock (h : Hash) (p : PopData)
    (hwrite : ∀ s, I s → I { s with sp := { s.sp with storage := s.sp.storage.writePayloads p } }) : Upholding I (acceptBlock cfg h p) :=
  .bind .get (fun _ => .bind Upholding.check (fun _ => .bind (hI.setPayloads h p hwrite) (fun _ => .bind (Upholding.derefBlock h) (fun _ =>
    .bind Upholding.getOrStop (fun _ => .bind (Upholding.derefBlock _) (fun _ => .when (hI.connectSubtree _ h)))))))

theorem removePayloads (h : Hash) : Upholding I (removePayloads cfg h) := by
  apply Upholding.of_wlp
  intro s hs
  simp only [AltBlockTree.removePayloads, wlp_bind, wlp_get, wlp_getOrStop, wlp_check]
  intro index hindex prev _ _ hactive _
  have hb := (Tree.getBlockIndex_eq_some.mp hindex).1
  have hclear : I { s with alt := clearSideEffects h s.alt } := by
    obtain ⟨f, g, hf⟩ := onlyPayloadsIndex index
    have hleft : I { s with alt := onBeforeLeafRemoved index s.alt } := by
      rw [hf]
      exact hI.stock _ _ hs (.of_blocks_eq rfl)
    have hcleared := hI.payloads _ h AltAddon.clearPayloads hleft (fun b hb' => ?_)
    . unfold clearSideEffects
      simp only [hb]
      split
      . exact hcleared
      . exact hs
    . rw [hf] at hb'
      have hb' : s.alt.find? h = some b := hb'
      rw [hb] at hb'
      cases hb'
      rw [Bool.not_eq_true'] at hactive
      exact hactive
  rw [wlp_zoom, wlp_modify]
  simp only [← wlp_bind]
  have hrest : Upholding I (do
      zoom AltState.altTree (modifyBlock h (·.unsetFlag .hasPayloads))
      AltIntegration.revalidateSubtree (altClass cfg) h .failedPop false
      zoom AltState.altTree <| do
        disconnect h
        modify (fun t => t.eraseTip h)
        modify (fun t => t.tryAddTip prev)) := by
    refine .bind (hI.zoom_alt (stocks_setStatus h (u := (·.assign false .hasPayloads)) (fun _ => rfl))) (fun _ =>
      .bind (hI.revalidateSubtree h _ _) (fun _ => hI.zoom_alt (.bind (stocks_disconnect h) (fun _ => .bind ?_ (fun _ =>
      stocks_tryAddTip prev)))))
    exact stocks_modify (fun _ => .of_blocks_eq rfl)
  exact hrest.wlp hclear

/-- What deleting the subtree keeps is seen when the active chain has left it. -/
theorem wlp_removeSubtree (hdelete : ∀ prev, s.alt.IsChild h prev →
    wlp (when (s.alt.onActiveChain h) (AltIntegration.setStateOrStop (altClass cfg) prev))
      (fun _ s' => wlp (zoom AltState.altTree (deleteSubtree onBeforeLeafRemoved h prev)) (fun _ => I) s') s) :
    wlp (removeSubtree (altClass cfg) h) (fun _ => I) s := by
  simp only [removeSubtree, TreeClass.getTree, wlp_bind, wlp_get, wlp_pure, wlp_getOrStop]
  intro b hb prev hprev
  refine wlp_mono (hdelete prev ⟨b, hb, hprev⟩) (fun _ s1 h1 => ?_)
  exact wlp_mono h1 (fun _ s2 h2 => Upholding.wlp (.when hI.updateTips) h2)

end Carries

/-- What the functions of the VBK tree keep, the functions of the ALT tree keep, too. -/
theorem carries_of_sp {V : VbkState → Prop} (hV : VbkBlockTree.Carries cfg V) (hcount : (vbkClass cfg).Counts V) : Carries cfg (fun s => V s.sp) where
  moves := (stateMachine_upholds hV hcount (fun _ _ hs => hs) (fun _ _ _ _ hx => hx) (fun _ _ _ hs _ => hs)).moves
  stock _ _ hs _ := hs
  create _ _ _ hs _ _ := hs
  payloads _ _ _ hs _ := hs

end AltBlockTree

theorem btcClass_referenced : (btcClass cfg).Referenced RefAddon.refs (fun t => t.Accounted cfg.btc) where
  wf _ ht := ht.wf
  refs := ⟨fun l => l, fun _ => rfl⟩
  onBeforeLeafRemoved _ := ⟨fun index => index, fun log => log, fun _ => rfl⟩

namespace Op

/-- The calls that delete blocks -/
def removesBlocks : Op → Bool
  | removeSubtree _ | vbkRemoveSubtree _ | vbkRemoveLeaf _ | btcRemoveSubtree _ | btcRemoveLeaf _ => true
  | _ => false

/-- The calls that delete BTC blocks, whatever refers to them -/
def removesBtc : Op → Bool
  | btcRemoveSubtree _ | btcRemoveLeaf _ => true
  | _ => false

/-- The payloads that a call puts into the storage -/
def written : Op → Option PopData
  | acceptBlock _ p | writePayloads p => some p
  | _ => none

theorem withBlock_upholding {σ A : Type} {I : σ → Prop} {c : TreeClass σ A} {m : M σ Unit} (h : Hash) (hm : Upholding I m) :
    Upholding I (withBlock c h m) := .bind Upholding.getTree (fun _ => .bind Upholding.check (fun _ => hm))

variable {I : AltState → Prop} {V : ι → VbkState → Prop} (hI : AltBlockTree.Carries cfg I) (hV : ∀ i, VbkBlockTree.Carries cfg (V i))
  (hvbk : ∀ {α : Type} {m : M VbkState α}, Keeping V m → Upholding I (zoom AltState.spState m))
  (hbtc : ∀ {α : Type} {m : M (Tree BtcAddon) α}, Keeping ((btcClass cfg).Holding (fun t => t.Accounted cfg.btc)) m →
    Keeping V (zoom VbkState.btcTree m))

include hI hV hvbk hbtc

/-- What a call keeps that does not delete blocks. -/
theorem exec_upholding (op : Op) (hop : op.removesBlocks = false) (hwrite : ∀ p, op.written = some p → ∀ s, I s →
    I { s with sp := { s.sp with storage := s.sp.storage.writePayloads p } }) : Upholding I (op.exec cfg) := by
  have hkeeps : ∀ {α : Type} {m : M VbkState α}, (∀ i, Upholding (V i) m) → Upholding I (onVbk m) :=
    fun hm => .bind (hvbk (fun i s hs => hm i () s hs)) (fun _ => .pure _)
  have hclass : ∀ R, (btcClass cfg).Upholds cfg.btc RefAddon.refs ((btcClass cfg).Holding (fun t => t.Accounted cfg.btc) R) :=
    fun _ => btcClass_referenced.upholds btcClass_upholds
  have hkeepsBtc : ∀ {α : Type} {m : M (Tree BtcAddon) α},
      (∀ R, Upholding ((btcClass cfg).Holding (fun t => t.Accounted cfg.btc) R) m) → Upholding I (onBtc m) :=
    fun hm => .bind (hvbk (hbtc (fun R t ht => hm R () t ht))) (fun _ => .pure _)
  cases op with
  | acceptBlockHeader b => exact .bind (hI.acceptBlockHeader b) (fun _ => .pure _)
  | acceptBlock h p => exact hI.acceptBlock h p (hwrite p rfl)
  | setState h => exact .bind (hI.setStateByHash h) (fun _ => .pure _)
  | comparePopScore x y => exact .bind (hI.comparePopScore x y) (fun _ => .pure _)
  | removePayloads h => exact hI.removePayloads h
  | removeSubtree h => cases hop
  | invalidateSubtree h r f => exact withBlock_upholding h (hI.invalidateSubtree h r f)
  | revalidateSubtree h r f => exact withBlock_upholding h (hI.revalidateSubtree h r f)
  | writePayloads p => exact .modify (fun _ => hwrite p rfl)
  | vbkAcceptBlockHeader b => exact hkeeps (fun i => (hV i).upholds.acceptBlockHeader b)
  | vbkAddPayloads h p => exact hkeeps (fun i => (hV i).addPayloads h p)
  | vbkRemovePayloads h pids => exact hkeeps (fun i => (hV i).removePayloads h pids)
  | vbkUnsafelyRemovePayload h pid f => exact hkeeps (fun i => (hV i).unsafelyRemovePayload h pid f)
  | vbkSetState h =>
    refine hkeeps (fun i => .bind .get (fun _ => ?_))
    split
    . exact .pure _
    . exact ((hV i).upholds.setState h).upholding
  | vbkRemoveSubtree h => cases hop
  | vbkRemoveLeaf h => cases hop
  | vbkInvalidateSubtree h r f => exact hkeeps (fun i => withBlock_upholding h ((hV i).upholds.invalidateSubtree h r f).upholding)
  | vbkRevalidateSubtree h r f => exact hkeeps (fun i => withBlock_upholding h ((hV i).upholds.revalidateSubtree h r f).upholding)
  | btcAcceptBlockHeader b => exact hkeepsBtc (fun R => (hclass R).acceptBlockHeader b)
  | btcRemoveSubtree h => cases hop
  | btcRemoveLeaf h => cases hop
  | btcInvalidateSubtree h r f => exact hkeepsBtc (fun R => withBlock_upholding h ((hclass R).invalidateSubtree h r f).upholding)
  | btcRevalidateSubtree h r f => exact hkeepsBtc (fun R => withBlock_upholding h ((hclass R).revalidateSubtree h r f).upholding)

end Op

end AltIntegration
