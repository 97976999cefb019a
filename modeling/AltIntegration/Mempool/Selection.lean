import Mathlib.Algebra.Order.BigOperators.Group.List
import AltIntegration.Blockchain.PopDataTemplate
import AltIntegration.Mempool.Bookkeeping

/-!
This module shows what `generatePopData` makes of the mempool: a body that is free of duplicates and within the
limits, with the VBK blocks by height and, for each of them, the ATVs that pay most first.
-/

namespace AltIntegration

open Program

namespace BlockPayloadMutator

variable {cfg : Config} {h : Hash} {m : MutatorState} {p : Payload} {s : AltState}

/-- A payload that stays is new to the mutator, which knows it from then on. -/
theorem wlp_add_ids : wlp (add cfg h m p)
    (fun r _ => m.ids ⊆ r.2.ids ∧ (r.1 = true → p.getId ∉ m.ids ∧ p.getId ∈ r.2.ids)) s := by
  simp only [add, wlp_bind, wlp_check, wlp_getOrStop, wlp_get, wlp_ite, wlp_pure]
  intro hnew
  rw [Bool.not_eq_true', List.contains_eq_mem, decide_eq_false_iff_not] at hnew
  have hids : m.ids ⊆ p.getId :: m.ids := List.subset_cons_self _ _
  apply wlp_iff.mpr
  intro index s1 _ prev _
  refine ⟨fun _ => ⟨List.Subset.refl _, fun h => Bool.noConfusion h⟩, fun _ => ?_⟩
  apply wlp_iff.mpr
  intro _ s2 _
  refine ⟨fun _ => ⟨hids, fun _ => ⟨hnew, List.mem_cons_self⟩⟩, fun _ => ?_⟩
  apply wlp_iff.mpr
  intro cmds s3 _
  apply wlp_iff.mpr
  intro ok s4 _
  refine ⟨fun _ => ⟨hids, fun _ => ⟨hnew, List.mem_cons_self⟩⟩, fun _ => ?_⟩
  apply wlp_iff.mpr
  intro _ s5 _
  exact ⟨hids, fun h => Bool.noConfusion h⟩

end BlockPayloadMutator

namespace MemPoolBlockTree

variable {cfg : Config} {limits : PopDataLimits} {h : Hash} {m : MutatorState} {p : Payload} {s s' : AltState}

theorem wlp_applyPayload_ids : wlp (applyPayload cfg limits h m p)
    (fun r _ => m.ids ⊆ r.2.ids ∧ (r.1 = true → p.getId ∉ m.ids ∧ p.getId ∈ r.2.ids)) s := by
  have hout : m.ids ⊆ m.ids ∧ (false = true → p.getId ∉ m.ids ∧ p.getId ∈ m.ids) := ⟨List.Subset.refl _, nofun⟩
  unfold applyPayload
  rw [wlp_ite, wlp_ite]
  refine ⟨fun _ => hout, fun _ => ⟨fun _ => hout, fun _ => ?_⟩⟩
  rw [wlp_bind]
  apply wlp_mono BlockPayloadMutator.wlp_add_ids
  intro r s' hr
  rw [wlp_ite]
  exact ⟨fun hstays => ⟨hr.1, fun _ => hr.2 hstays⟩, fun _ => hr⟩

/-- The payloads that stay are some of those tried, in their order, and each has an id of its own. -/
theorem selected_of_applyPayloadsOrRemoveIfInvalid {α : Type} {payload : α → Payload} {as : List α}
    {r : List α × MutatorState} (hrun : applyPayloadsOrRemoveIfInvalid cfg limits payload h as m s = .ok r s') :
    r.1.Sublist as ∧ (r.1.map (fun a => (payload a).getId)).Nodup ∧ ∀ a ∈ r.1, (payload a).getId ∉ m.ids := by
  induction as generalizing m s r s' with
  | nil =>
    cases hrun
    exact ⟨List.Sublist.refl _, List.nodup_nil, nofun⟩
  | cons a as ih =>
    simp only [applyPayloadsOrRemoveIfInvalid] at hrun
    obtain ⟨r1, s1, happly, hrun⟩ := of_bind_ok hrun
    obtain ⟨r2, s2, htail, hrun⟩ := of_bind_ok hrun
    cases hrun
    obtain ⟨hsub, hnodup, hnew⟩ := ih htail
    obtain ⟨hids, hstays⟩ := wlp_ok wlp_applyPayload_ids happly
    have hnew' : ∀ b ∈ r2.1, (payload b).getId ∉ m.ids := fun b hb hmem => hnew b hb (hids hmem)
    cases hr1 : r1.1 with
    | false => exact ⟨hsub.cons a, hnodup, hnew'⟩
    | true =>
      obtain ⟨hfresh, hknown⟩ := hstays hr1
      refine ⟨hsub.cons_cons a, ?_, ?_⟩
      . rw [if_pos rfl, List.map_cons, List.nodup_cons, List.mem_map]
        refine ⟨?_, hnodup⟩
        rintro ⟨b, hb, heq⟩
        apply hnew b hb
        rwa [heq]
      . exact List.forall_mem_cons.mpr ⟨hfresh, hnew'⟩

/-- The body is part of what is tried, in its order, and passes the check for duplicates. -/
structure Selected (pop valid : PopData) : Prop where
  context : valid.context.Sublist pop.context
  vtbs : valid.vtbs.Sublist pop.vtbs
  atvs : valid.atvs.Sublist pop.atvs
  nodup : valid.checkForDuplicates = true

theorem nodup_of_map_getId {α : Type} {l : List α} {ι : Type} {id : α → ι} {k : ι → PayloadId} {payload : α → Payload}
    (hpayload : ∀ a, (payload a).getId = k (id a)) (h : (l.map (fun a => (payload a).getId)).Nodup) : (l.map id).Nodup := by
  have h : ((l.map id).map k).Nodup := by
    simp only [hpayload] at h
    rwa [List.map_map]
  exact h.of_map k

theorem selected_of_selectPayloads {pop valid : PopData} (hrun : selectPayloads cfg limits pop m s = .ok valid s') :
    Selected pop valid := by
  obtain ⟨context, s1, hcontext, hrun⟩ := of_bind_ok hrun
  obtain ⟨vtbs, s2, hvtbs, hrun⟩ := of_bind_ok hrun
  obtain ⟨atvs, s3, hatvs, hrun⟩ := of_bind_ok hrun
  cases hrun
  have hcontext := selected_of_applyPayloadsOrRemoveIfInvalid hcontext
  have hvtbs := selected_of_applyPayloadsOrRemoveIfInvalid hvtbs
  have hatvs := selected_of_applyPayloadsOrRemoveIfInvalid hatvs
  refine ⟨hcontext.1, hvtbs.1, hatvs.1, ?_⟩
  rw [PopData.checkForDuplicates, Bool.and_eq_true, Bool.and_eq_true, decide_eq_true_eq, decide_eq_true_eq, decide_eq_true_eq]
  exact ⟨⟨nodup_of_map_getId (k := .vbk) (fun _ => rfl) hcontext.2.1,
    nodup_of_map_getId (k := .vtb) (fun _ => rfl) hvtbs.2.1⟩, nodup_of_map_getId (k := .atv) (fun _ => rfl) hatvs.2.1⟩

theorem selected_of_filterInvalidPayloads {c : TreeClass AltState AltAddon} {pop valid : PopData}
    (hrun : filterInvalidPayloads cfg limits c pop s = .ok valid s') :
    Selected pop valid ∧ (pop.isEmpty = false → valid.fits limits = true) := by
  cases hpop : pop.isEmpty with
  | true =>
    rw [filterInvalidPayloads, hpop, if_pos rfl] at hrun
    cases hrun
    refine ⟨⟨List.Sublist.refl _, List.Sublist.refl _, List.Sublist.refl _, ?_⟩, fun h => Bool.noConfusion h⟩
    simp only [PopData.isEmpty, Bool.and_eq_true, List.isEmpty_iff] at hpop
    rw [PopData.checkForDuplicates, hpop.1.1, hpop.1.2, hpop.2]
    rfl
  | false =>
    rw [filterInvalidPayloads_eq cfg limits c pop hpop] at hrun
    obtain ⟨r, s1, _, hrun⟩ := of_bind_ok hrun
    obtain ⟨valid', s2, hselect, hrun⟩ := of_bind_ok hrun
    obtain ⟨_, s3, hcheck, hrun⟩ := of_bind_ok hrun
    obtain ⟨_, s4, _, hrun⟩ := of_bind_ok hrun
    cases hrun
    have hfits : wlp (check (valid.fits limits) .popDataDoesNotFit : M AltState Unit) (fun _ _ => valid.fits limits = true) s2 :=
      wlp_check.mpr (fun h => h)
    have hfits := wlp_ok hfits hcheck
    exact ⟨selected_of_selectPayloads hselect, fun _ => hfits⟩

end MemPoolBlockTree

namespace Mempool

/-- For every VBK block the ATVs that pay more come first. -/
def FeesDescend (m : MemPool) : Prop :=
  ∀ id, (m.atvsAt id).Pairwise (fun a b => b.atv.transaction.fee ≤ a.atv.transaction.fee)

theorem fee_le_of_comesBefore {t : Tree AltAddon} {a b : SharedATV} (h : ComesBefore t a b) :
    b.atv.transaction.fee ≤ a.atv.transaction.fee := by
  have hrank := (Prod.Lex.toLex_lt_toLex.mp (comesBefore_iff.mp h))
  simp only at hrank
  omega

theorem fee_le_of_not_comesBefore {t : Tree AltAddon} {a b : SharedATV} (h : ¬ComesBefore t a b) :
    a.atv.transaction.fee ≤ b.atv.transaction.fee := by
  rw [comesBefore_iff, atvRank, atvRank, Prod.Lex.toLex_lt_toLex] at h
  simp only at h
  omega

/-- The fees come first in the comparator, so that an ATV finds its place among them however the others are ordered. -/
theorem feesDescend_insert (t : Tree AltAddon) (a : SharedATV) {l : List SharedATV}
    (h : l.Pairwise (fun a b => b.atv.transaction.fee ≤ a.atv.transaction.fee)) :
    (OrderedSet.insert (ComesBefore t) a l).Pairwise (fun a b => b.atv.transaction.fee ≤ a.atv.transaction.fee) := by
  rw [OrderedSet.insert]
  split
  . exact h
  . clear * - h
    induction l with
    | nil => exact List.pairwise_singleton _ a
    | cons b l ih =>
      obtain ⟨hb, hl⟩ := List.pairwise_cons.mp h
      rw [OrderedMultiset.insert]
      split
      . next hlt =>
        apply List.pairwise_cons.mpr ⟨_, h⟩
        intro c hc
        have hba := fee_le_of_comesBefore hlt
        cases List.mem_cons.mp hc with
        | inl heq => rwa [heq]
        | inr hmem => exact le_trans (hb c hmem) hba
      . next hnlt =>
        apply List.pairwise_cons.mpr ⟨_, ih hl⟩
        intro c hc
        cases List.mem_cons.mp ((OrderedMultiset.insert_perm _ a l).mem_iff.mp hc) with
        | inl heq =>
          rw [heq]
          exact fee_le_of_not_comesBefore hnlt
        | inr hmem => exact hb c hmem

theorem keeps_feesDescend {p : Params} : Keeps p (fun _ _ => True) (fun s => FeesDescend s.pool) where
  change {trees m m'} hm h id := by
    cases h.atvsAt id with
    | inl h =>
      obtain ⟨a, _, heq⟩ := h
      show List.Pairwise _ (m'.atvsAt id)
      rw [heq]
      exact feesDescend_insert trees.alt a (hm id)
    | inr h =>
      obtain ⟨kept, heq⟩ := h
      show List.Pairwise _ (m'.atvsAt id)
      rw [heq]
      exact (hm id).filter kept
  trees hs _ := hs

theorem MemPool.sorted_blocks (m : MemPool) :
    m.blocks.Pairwise (fun r s => r.header.height ≤ s.header.height) := by
  have hfoldl : ∀ (l : List (Hash × VbkPayloadsRelations)) (l' : List VbkPayloadsRelations),
      OrderedMultiset.Sorted (ValueSortedMap.LowerFirst (fun r : VbkPayloadsRelations => r.header.height)) l' →
      OrderedMultiset.Sorted (ValueSortedMap.LowerFirst (fun r : VbkPayloadsRelations => r.header.height))
        (l.foldl (fun l e => OrderedMultiset.insert (ValueSortedMap.LowerFirst (fun r => r.header.height)) e.2 l) l') := by
    intro l
    induction l with
    | nil => exact fun _ h => h
    | cons e l ih =>
      intro l' h
      exact ih _ (h.insert _ e.2)
  exact (hfoldl m.relations.entries [] List.Pairwise.nil).imp (fun h => Nat.le_of_not_lt h)

variable {p : Params} {s s' : State}

theorem of_onTrees_ok {α : Type} {call : M AltState α} {a : α} (h : onTrees call s = .ok a s') :
    ∃ t, call s.trees = .ok a t := by
  unfold onTrees at h
  cases hcall : call s.trees with
  | ok b t =>
    rw [hcall] at h
    cases h
    exact ⟨t, rfl⟩
  | error e t =>
    rw [hcall] at h
    cases h

namespace Small

def allocator : Allocator where
  new taken := taken.sum + 1
  new_not_mem _ h := absurd (List.le_sum_of_mem h) (Nat.not_succ_le_self _)

/-- The body for the block after an ATV has been connected: its block of proof -/
def generated : PopData := { context := [vbkBlock1], vtbs := [], atvs := [] }

theorem generatePopData_connected : ∃ s', generatePopData params allocator connected = .ok generated s' := by
  have h : (match generatePopData params allocator connected with
    | .ok pop _ => decide (pop = generated)
    | .error _ _ => false) = true := by decide +kernel
  cases hrun : generatePopData params allocator connected with
  | ok pop s' =>
    rw [hrun] at h
    obtain rfl := of_decide_eq_true h
    exact ⟨s', rfl⟩
  | error e s' =>
    rw [hrun] at h
    cases h

end Small

end Mempool

end AltIntegration
