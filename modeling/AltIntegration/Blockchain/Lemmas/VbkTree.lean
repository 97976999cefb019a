import AltIntegration.Blockchain.Pop.VbkBlockTree
import AltIntegration.Blockchain.Lemmas.StateMachine

/-!
This module contains what the functions of the BTC tree and of the VBK tree keep: both trees are sane.
-/

namespace AltIntegration

open Program BlockIndex

section AddEndorsement

variable {σ A B ι : Type} [PopAddon A] [PowAddon B] {ed : Lens σ (Tree A)} {ing : Lens σ (Tree B)}
  {I : ι → σ → Prop} {E : Assertion → σ → Prop}

theorem Tree.sameCore_updatePopState (t : Tree A) (h : Hash) (f : PopState → PopState) :
    t.SameCore (t.updatePopState h f) :=
  ⟨SameOn.update t h (fun _ _ => rfl), rfl, rfl⟩

theorem Tree.sameCore_updateBlockOfProof (t : Tree B) (h : Hash) (f : List Endorsement → List Endorsement) :
    t.SameCore (t.updateBlockOfProof h f) :=
  t.sameCore_updateAddon h _

theorem addEndorsement_execute_keeps
    (hed : ∀ f : Tree A → Tree A, (∀ t, Tree.SameCore t (f t)) → Keeps I E (zoom ed (modify f)))
    (hing : ∀ f : Tree B → Tree B, (∀ t, Tree.SameCore t (f t)) → Keeps I E (zoom ing (modify f))) (n : Nat)
    (e : Endorsement) : Keeps I E (AddEndorsement.execute ed ing n e) := by
  refine .bind .get (fun _ => .ite (.bind (hed _ fun t => ?_) (fun _ => .bind (hing _ fun u => ?_) (fun _ =>
    .pure _))) (.pure _))
  . exact (t.sameCore_updatePopState _ _).trans (Tree.sameCore_updatePopState _ _ _)
  . exact u.sameCore_updateBlockOfProof _ _

theorem addEndorsement_unExecute_keeps
    (hed : ∀ f : Tree A → Tree A, (∀ t, Tree.SameCore t (f t)) → Keeps I E (zoom ed (modify f)))
    (hing : ∀ f : Tree B → Tree B, (∀ t, Tree.SameCore t (f t)) → Keeps I E (zoom ing (modify f)))
    (hE : ∀ e s, e ≠ .raiseValidity → E e s) (e : Endorsement) :
    Keeps I E (AddEndorsement.unExecute ed ing e) := by
  have hstop : ∀ {α : Type} {o : Option α} {e : Assertion}, e ≠ .raiseValidity → Keeps I E (getOrStop o e) :=
    fun he => .getOrStop (fun _ s _ => hE _ s he)
  have hcheck : ∀ {p : Bool} {e : Assertion}, e ≠ .raiseValidity → Keeps I E (check p e) :=
    fun he => .check (fun _ s _ => hE _ s he)
  refine .bind .get (fun _ => .bind (hstop (by decide)) (fun _ => .bind (hstop (by decide)) (fun _ =>
    .bind (hstop (by decide)) (fun _ => .bind (hstop (by decide)) (fun _ => .bind (hcheck (by decide)) (fun _ =>
    .bind (hcheck (by decide)) (fun _ => .bind (hed _ fun t => ?_) (fun _ => .bind (hing _ fun u => ?_) (fun _ =>
    hed _ fun t => ?_)))))))))
  . exact t.sameCore_updatePopState _ _
  . exact u.sameCore_updateBlockOfProof _ _
  . exact t.sameCore_updatePopState _ _

end AddEndorsement

theorem Around.frame_modify {σ A : Type} [BlockAddon A] {l : Lens σ (Tree A)} {a : Around l}
    {f : Tree A → Tree A} (hf : ∀ t : Tree A, t.SameCore (f t)) :
    Keeps a.Frame a.Stops (zoom l (modify f)) := by
  rintro t s ⟨ht, hs⟩
  simp only [Program.wp_zoom, wp_modify]
  refine ⟨?_, (a.rest_set _ s).mpr hs⟩
  rw [l.get_set]
  exact ht.trans (hf _)

theorem Tree.sameCore_overrideTip {A : Type} (t : Tree A) (h : Hash) : t.SameCore (t.overrideTip h) :=
  ⟨.of_blocks_eq rfl, rfl, rfl⟩

theorem determineBestChainByWork_keeps {σ A : Type} [PowAddon A] {l : Lens σ (Tree A)} {a : Around l}
    {setState : Hash → M σ Bool} (hset : ∀ h, Keeps a.Holds a.Stops (setState h)) (candidate : Hash) :
    Keeps a.Holds a.Stops (determineBestChainByWork l setState candidate) :=
  .bind .get (fun _ => .bind (Around.getOrStop_keeps (by decide)) (fun _ =>
    .when (.bind (hset candidate) (fun _ => .pure _))))

variable (cfg : Config)

/-- The BTC tree stands alone. -/
def btcAround : Around (btcClass cfg).tree where
  min := .connected
  rest _ := True
  spoiled _ := False
  rest_set _ _ := Iff.rfl
  spoiled_set _ _ := Iff.rfl

theorem btcClass_lawful : (btcClass cfg).Lawful (btcAround cfg) := by
  have hset : ∀ h, Keeps (btcAround cfg).Holds (btcAround cfg).Stops (btcClass.setState h) := by
    intro h
    refine .bind (.modify (fun i t ht => ⟨?_, trivial⟩)) (fun _ => .pure _)
    exact ht.1.congr (Tree.sameCore_overrideTip t h)
  exact
    { onBeforeLeafRemoved := ⟨fun _ _ => rfl, fun _ _ => rfl, fun _ _ => rfl⟩
      setState := hset
      determineBestChain := fun h => determineBestChainByWork_keeps hset h
      validTree_le := by decide
      le_connected := by decide }

/-- The VBK tree, with the BTC tree beside it. -/
def vbkAround : Around VbkState.vbkTree where
  min := .connected
  rest s := s.btc.Sane .connected .pow
  spoiled s := s.btc.RestoredFailedPop
  rest_set _ _ := Iff.rfl
  spoiled_set _ _ := Iff.rfl

namespace VbkBlockTree

theorem linked : (stateMachine cfg).Linked vbkAround (btcAround cfg) where
  rest _ := ⟨fun h => ⟨h, trivial⟩, fun h => h.1⟩
  spoiled _ h := h.resolve_right id
  ed_ing _ _ := rfl

/-- A program on the BTC tree. -/
theorem zoom_btc {α : Type} {m : M (Tree BtcAddon) α}
    (hm : Keeps (fun _ : Unit => (btcAround cfg).Holds .pow) (btcAround cfg).Stops m) :
    Keeps vbkAround.Frame vbkAround.Stops (zoom VbkState.btcTree m) :=
  (linked cfg).zoom_ing hm

theorem modify_btc {f : Tree BtcAddon → Tree BtcAddon} (hf : ∀ t : Tree BtcAddon, t.SameCore (f t)) :
    Keeps vbkAround.Frame vbkAround.Stops (zoom VbkState.btcTree (modify f)) := by
  rintro t s ⟨ht, hs⟩
  exact ⟨ht, hs.congr (hf s.btc)⟩

theorem execute (cmd : VbkCommand) : Keeps vbkAround.Frame vbkAround.Stops (cmd.execute cfg) := by
  cases cmd with
  | addBtcBlock b h => exact zoom_btc cfg ((btcClass_lawful cfg).addBlock_execute rfl b h)
  | addEndorsement e => exact addEndorsement_execute_keeps (fun _ => Around.frame_modify) (fun _ => modify_btc) _ e

theorem unExecute (cmd : VbkCommand) : Keeps vbkAround.Frame vbkAround.Stops (cmd.unExecute cfg) := by
  cases cmd with
  | addBtcBlock b h => exact zoom_btc cfg (((btcClass_lawful cfg).addBlock_unExecute b h).fix _)
  | addEndorsement e =>
    exact addEndorsement_unExecute_keeps (fun _ => Around.frame_modify) (fun _ => modify_btc)
      (fun _ s he => .of_ne he s) e

theorem lawful : (stateMachine cfg).Lawful vbkAround (btcAround cfg) where
  toLinked := linked cfg
  protecting := btcClass_lawful cfg
  getCommands _ := .bind .get (fun _ => .bind (.getOrStop (fun _ s _ => .of_ne (by decide) s)) (fun _ => .pure _))
  execute := execute cfg
  unExecute := unExecute cfg
  validTree_le := by decide
  le_connected := by decide

theorem overrideTip_keeps (h : Hash) : Keeps vbkAround.Holds vbkAround.Stops (overrideTip h) :=
  .bind (Around.modify_keeps fun t => t.sameCore_overrideTip h) (fun _ =>
    .bind (Around.derefBlock_keeps h) (fun _ => Around.check_keeps (by decide)))

theorem settle_keeps (h : Hash) (success : Bool) : Keeps vbkAround.Holds vbkAround.Stops (settle h success) :=
  .ite (overrideTip_keeps h) (.bind (Around.derefBlock_keeps h) (fun _ => Around.check_keeps (by decide)))

theorem setState_keeps (h : Hash) : Keeps vbkAround.Holds vbkAround.Stops (setState cfg h) :=
  .bind ((lawful cfg).comparatorSetState h) (fun success => .bind (settle_keeps h success) (fun _ =>
    .bind .get (fun _ => .bind (Around.check_keeps (by decide)) (fun _ => .pure _))))

theorem determineBestChain_keeps (h : Hash) : Keeps vbkAround.Holds vbkAround.Stops (determineBestChain cfg h) :=
  .bind .get (fun _ => .ite (.pure _) (.bind ((lawful cfg).comparePopScore cfg.vbkPop h) (fun _ =>
    .ite (determineBestChainByWork_keeps (setState_keeps cfg) h) (.when (overrideTip_keeps h)))))

end VbkBlockTree

theorem vbkClass_lawful : (vbkClass cfg).Lawful vbkAround where
  onBeforeLeafRemoved := ⟨fun _ _ => rfl, fun _ _ => rfl, fun _ _ => rfl⟩
  setState := VbkBlockTree.setState_keeps cfg
  determineBestChain := VbkBlockTree.determineBestChain_keeps cfg
  validTree_le := by decide
  le_connected := by decide

namespace VbkBlockTree

theorem sameCore_addToPayloadsIndex {A : Type} (t : Tree A) (id : PayloadId) (h : Hash) :
    t.SameCore (t.addToPayloadsIndex id h) := by
  unfold Tree.addToPayloadsIndex
  split
  . exact .refl t
  . exact ⟨.of_blocks_eq rfl, rfl, rfl⟩

theorem sameCore_removeFromPayloadsIndex {A : Type} (t : Tree A) (id : PayloadId) (h : Hash) :
    t.SameCore (t.removeFromPayloadsIndex id h) :=
  ⟨.of_blocks_eq rfl, rfl, rfl⟩

theorem sameCore_insertPayloadId (h : Hash) (pid : Nat) (t : Tree VbkAddon) :
    t.SameCore (insertPayloadId h pid t) :=
  (t.sameCore_updateAddon h _).trans (sameCore_addToPayloadsIndex _ _ h)

theorem sameCore_removePayloadId (h : Hash) (pid : Nat) (t : Tree VbkAddon) :
    t.SameCore (removePayloadId h pid t) :=
  (t.sameCore_updateAddon h (fun a => { a with vtbids := a.vtbids.erase pid })).trans ⟨.of_blocks_eq rfl, rfl, rfl⟩

theorem getCommand_keeps (pid : Nat) : Keeps vbkAround.Holds vbkAround.Stops (getCommand pid) :=
  .bind .get (fun _ => .bind (Around.getOrStop_keeps (by decide)) (fun _ => .pure _))

theorem unsafelyRemovePayload_keeps (h : Hash) (pid : Nat) (f : Bool) :
    Keeps vbkAround.Holds vbkAround.Stops (unsafelyRemovePayload cfg h pid f) := by
  refine .bind .get (fun _ => .bind (Around.getOrStop_keeps (by decide)) (fun _ =>
    .bind (Around.check_keeps (by decide)) (fun _ => .bind (Around.check_keeps (by decide)) (fun _ =>
    .bind (.when ?_) (fun _ => .bind (Around.modify_keeps (sameCore_removePayloadId h pid)) (fun _ =>
    .when (vbkClass_lawful cfg).updateTips))))))
  exact .bind (getCommand_keeps pid) (fun cmds => Around.Frame.keeps ((lawful cfg).unExecuteGroup cmds))

theorem removePayloads_keeps (h : Hash) (pids : List Nat) :
    Keeps vbkAround.Holds vbkAround.Stops (removePayloads cfg h pids) := by
  refine .bind .get (fun _ => .bind (Around.getOrStop_keeps (by decide)) (fun _ =>
    .bind (Around.getOrStop_keeps (by decide)) (fun prev => .when (.bind (.when
    ((vbkClass_lawful cfg).setStateOrStop prev)) (fun _ => .bind (.forEach (fun pid => ?_) pids) (fun _ =>
    (vbkClass_lawful cfg).updateTips))))))
  exact .bind (Around.derefBlock_keeps h) (fun _ => .bind (Around.check_keeps (by decide)) (fun _ =>
    .bind (Around.check_keeps (by decide)) (fun _ => Around.modify_keeps (sameCore_removePayloadId h pid))))

theorem record_keeps (e : Event) :
    Keeps vbkAround.Holds vbkAround.Stops (zoom VbkState.vbkTree (modify fun t => t.record e)) := by
  refine Around.zoom_keeps (fun i t ht => ?_)
  rcases ht with ⟨h, hh⟩ | ⟨ht, hi⟩
  . exact .inl ⟨h, List.mem_cons_of_mem _ hh⟩
  . exact .inr ⟨ht.congr (.of_blocks_eq rfl) rfl, i.congr hi (.of_blocks_eq rfl)⟩

theorem addPayloadToAppliedBlock_keeps (h : Hash) (v : VTB) :
    Keeps vbkAround.Holds vbkAround.Stops (addPayloadToAppliedBlock cfg h v) := by
  refine .bind (Around.derefBlock_keeps h) (fun _ => .bind (Around.check_keeps (by decide)) (fun _ =>
    .bind .get (fun _ => .ite (.bind (record_keeps _) (fun _ => .pure _)) (.ite (.pure _)
    (.bind (.when (record_keeps _)) (fun _ => .bind (Around.modify_keeps (sameCore_insertPayloadId h _))
    (fun _ => .bind (getCommand_keeps _) (fun cmds => .bind (Around.Frame.keeps ((lawful cfg).executeGroup cmds))
    (fun _ => .ite (.pure _) ?_)))))))))
  exact .bind (Around.modify_keeps (sameCore_removePayloadId h _)) (fun _ => .pure _)

theorem addPayloads_keeps (h : Hash) (payloads : List VTB) :
    Keeps vbkAround.Holds vbkAround.Stops (addPayloads cfg h payloads) := by
  have hadd : Keeps vbkAround.Holds vbkAround.Stops (addPayloadsToAppliedBlock cfg h payloads) :=
    .execAll (addPayloadToAppliedBlock_keeps cfg h) (fun v => unsafelyRemovePayload_keeps cfg h _ _) payloads
  have htips : ∀ x, Keeps vbkAround.Holds vbkAround.Stops (doUpdateAffectedTips (vbkClass cfg) x) :=
    (vbkClass_lawful cfg).doUpdateAffectedTips
  refine .bind .get (fun s => .ite (.pure _) ?_)
  split
  . exact .pure _
  . refine .ite (.pure _) (.bind (.ite (.pure _) (setState_keeps cfg h)) (fun _ => .ite (.bind hadd (fun _ =>
      .ite (.bind (htips h) (fun _ => .bind (.when (htips _)) (fun _ => .pure _))) ?_)) (.pure _)))
    exact .bind (.when (.bind (setState_keeps cfg _) (fun _ => Around.check_keeps (by decide)))) (fun _ => .pure _)

end VbkBlockTree

end AltIntegration
