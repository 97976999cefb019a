import Mathlib.Data.Nat.Log
import AltIntegration.Serde.EstimatedSize
import AltIntegration.Blockchain.MemPoolBlockTree
import AltIntegration.Blockchain.Runs
import AltIntegration.Control.Wlp

/-!
This module contains when the payloads that `filterInvalidPayloads` keeps fit into a block. `CountingContext`
predicts the size of the body with the length prefixes that it has before the payload is added.
-/

namespace AltIntegration

open Program

theorem singleBEValueSize_eq (n : Nat) : singleBEValueSize n = 2 + Nat.log 256 n := by
  have hlog : Nat.log 256 n = Nat.log2 n / 8 := by
    rw [Nat.log2_eq_log_two]
    exact Nat.log_pow_left 2 8 n
  rw [singleBEValueSize, hlog]
  omega

theorem singleBEValueSize_zero : singleBEValueSize 0 = 2 := rfl

/-- The next value needs one more byte. -/
def PrefixGrows (n : Nat) : Prop := ∃ k, n + 1 = 256 ^ (k + 1)

theorem log_succ_of_prefixGrows {n : Nat} (hgrows : PrefixGrows n) : Nat.log 256 (n + 1) = Nat.log 256 n + 1 := by
  obtain ⟨k, hk⟩ := hgrows
  have hpos : 0 < 256 ^ k := Nat.pow_pos (by omega)
  have hlog : Nat.log 256 n = k := by
    apply Nat.log_eq_of_pow_le_of_lt_pow <;> omega
  rw [hk, Nat.log_pow (by omega), hlog]

theorem log_succ_of_not_prefixGrows {n : Nat} (hgrows : ¬PrefixGrows n) : Nat.log 256 (n + 1) = Nat.log 256 n := by
  by_cases hn : n = 0
  . subst hn
    decide
  . by_contra hne
    have hlt : Nat.log 256 n < Nat.log 256 (n + 1) :=
      Nat.lt_of_le_of_ne (Nat.log_mono_right (Nat.le_succ n)) (Ne.symm hne)
    have hpow := (Nat.log_lt_log_succ_iff (by omega) hn).mp hlt
    apply hgrows
    refine ⟨Nat.log 256 (n + 1) - 1, ?_⟩
    rw [show Nat.log 256 (n + 1) - 1 + 1 = Nat.log 256 (n + 1) by omega, hpow]

theorem singleBEValueSize_succ_of_prefixGrows {n : Nat} (hgrows : PrefixGrows n) :
    singleBEValueSize (n + 1) = singleBEValueSize n + 1 := by
  rw [singleBEValueSize_eq, singleBEValueSize_eq, log_succ_of_prefixGrows hgrows]
  omega

theorem singleBEValueSize_succ_of_not_prefixGrows {n : Nat} (hgrows : ¬PrefixGrows n) :
    singleBEValueSize (n + 1) = singleBEValueSize n := by
  rw [singleBEValueSize_eq, singleBEValueSize_eq, log_succ_of_not_prefixGrows hgrows]

namespace CountingContext

variable (limits : PopDataLimits) (c : CountingContext) (p : Payload)

/-- The size of the payloads counted so far, as `canFitSize` computes it -/
def encodedSize : Nat :=
  4 + singleBEValueSize c.atvs + c.atvsSize + singleBEValueSize c.vtbs + c.vtbsSize + singleBEValueSize c.vbks + c.vbksSize

/-- The number of payloads of the kind of `p` -/
def count (c : CountingContext) : Payload → Nat
  | .atv _ => c.atvs
  | .vtb _ => c.vtbs
  | .vbk _ => c.vbks

/-- The payload takes the last byte, and the number of payloads of its kind needs one more. -/
def Overflows : Prop :=
  PrefixGrows (c.count p) ∧ c.encodedSize + limits.estimateSize p = limits.maxPopDataSize

/-- The numbers of payloads are within the limits. -/
structure Within : Prop where
  atvs : c.atvs ≤ limits.maxATVsInAltBlock
  vtbs : c.vtbs ≤ limits.maxVTBsInAltBlock
  vbks : c.vbks ≤ limits.maxVbkBlocksInAltBlock

variable {limits c p}

theorem encodedSize_le_of_canFit (hfit : c.canFit limits p = true) :
    c.encodedSize + limits.estimateSize p ≤ limits.maxPopDataSize := by
  cases p <;> simp only [canFit, canFitSize, Bool.and_eq_true, decide_eq_true_eq] at hfit <;> exact hfit.2

theorem Within.update (hwithin : c.Within limits) (hfit : c.canFit limits p = true) : (c.update limits p).Within limits := by
  obtain ⟨hatvs, hvtbs, hvbks⟩ := hwithin
  cases p <;> simp only [canFit, Bool.and_eq_true, decide_eq_true_eq] at hfit
  . exact ⟨hatvs, hvtbs, hfit.1⟩
  . exact ⟨hatvs, hfit.1, hvbks⟩
  . exact ⟨hfit.1, hvtbs, hvbks⟩

theorem encodedSize_update_of_prefixGrows (hgrows : PrefixGrows (c.count p)) :
    (c.update limits p).encodedSize = c.encodedSize + limits.estimateSize p + 1 := by
  cases p <;> simp only [count] at hgrows <;>
    simp only [update, encodedSize, singleBEValueSize_succ_of_prefixGrows hgrows] <;> omega

theorem encodedSize_update_of_not_prefixGrows (hgrows : ¬PrefixGrows (c.count p)) :
    (c.update limits p).encodedSize = c.encodedSize + limits.estimateSize p := by
  cases p <;> simp only [count] at hgrows <;>
    simp only [update, encodedSize, singleBEValueSize_succ_of_not_prefixGrows hgrows] <;> omega

/-- A payload that can fit fits, unless it overflows. -/
theorem encodedSize_update_le_iff (hfit : c.canFit limits p = true) :
    (c.update limits p).encodedSize ≤ limits.maxPopDataSize ↔ ¬c.Overflows limits p := by
  have hle := encodedSize_le_of_canFit hfit
  by_cases hgrows : PrefixGrows (c.count p)
  . rw [encodedSize_update_of_prefixGrows hgrows, Overflows, and_iff_right hgrows]
    omega
  . rw [encodedSize_update_of_not_prefixGrows hgrows, Overflows]
    exact ⟨fun _ hover => hgrows hover.1, fun _ => hle⟩

end CountingContext

namespace CountingContext

variable (limits : PopDataLimits) (c : CountingContext)

theorem foldl_update_vbk (l : List PowBlock) : (l.map .vbk).foldl (update limits) c =
    { c with vbks := c.vbks + l.length, vbksSize := c.vbksSize + ((l.map Payload.vbk).map limits.estimateSize).sum } := by
  induction l generalizing c with
  | nil => rfl
  | cons b l ih =>
    simp only [List.map_cons, List.foldl_cons, ih, update, List.length_cons, List.sum_cons, Nat.add_assoc, Nat.add_comm 1]

theorem foldl_update_vtb (l : List VTB) : (l.map .vtb).foldl (update limits) c =
    { c with vtbs := c.vtbs + l.length, vtbsSize := c.vtbsSize + ((l.map Payload.vtb).map limits.estimateSize).sum } := by
  induction l generalizing c with
  | nil => rfl
  | cons v l ih =>
    simp only [List.map_cons, List.foldl_cons, ih, update, List.length_cons, List.sum_cons, Nat.add_assoc, Nat.add_comm 1]

theorem foldl_update_atv (l : List ATV) : (l.map .atv).foldl (update limits) c =
    { c with atvs := c.atvs + l.length, atvsSize := c.atvsSize + ((l.map Payload.atv).map limits.estimateSize).sum } := by
  induction l generalizing c with
  | nil => rfl
  | cons a l ih =>
    simp only [List.map_cons, List.foldl_cons, ih, update, List.length_cons, List.sum_cons, Nat.add_assoc, Nat.add_comm 1]

end CountingContext

namespace PopData

/-- All payloads of a body, in the order in which they are tried -/
def payloads (pop : PopData) : List Payload := pop.context.map .vbk ++ (pop.vtbs.map .vtb ++ pop.atvs.map .atv)

variable (limits : PopDataLimits) (pop : PopData)

/-- The counter of a body -/
def counted : CountingContext := pop.payloads.foldl (CountingContext.update limits) {}

variable {limits pop}

theorem counted_eq : pop.counted limits =
    { vbks := pop.context.length, vbksSize := ((pop.context.map Payload.vbk).map limits.estimateSize).sum,
      vtbs := pop.vtbs.length, vtbsSize := ((pop.vtbs.map Payload.vtb).map limits.estimateSize).sum,
      atvs := pop.atvs.length, atvsSize := ((pop.atvs.map Payload.atv).map limits.estimateSize).sum } := by
  rw [counted, payloads, List.foldl_append, List.foldl_append, CountingContext.foldl_update_vbk,
    CountingContext.foldl_update_vtb, CountingContext.foldl_update_atv]
  simp only [Nat.zero_add]

theorem encodedSize_counted : (pop.counted limits).encodedSize = pop.estimateSize limits := by
  simp only [counted_eq, CountingContext.encodedSize, estimateSize, estimateArraySizeOf, List.length_map]
  omega

/-- A body fits when its counter is within the limits, and its size is. -/
theorem fits_iff : pop.fits limits = true ↔
    (pop.counted limits).Within limits ∧ (pop.counted limits).encodedSize ≤ limits.maxPopDataSize := by
  rw [encodedSize_counted]
  simp only [fits, Bool.and_eq_true, decide_eq_true_eq]
  constructor
  . rintro ⟨⟨⟨hvbks, hvtbs⟩, hatvs⟩, hsize⟩
    refine ⟨⟨?_, ?_, ?_⟩, hsize⟩ <;> rw [counted_eq] <;> assumption
  . rintro ⟨⟨hatvs, hvtbs, hvbks⟩, hsize⟩
    rw [counted_eq] at hatvs hvtbs hvbks
    exact ⟨⟨⟨hvbks, hvtbs⟩, hatvs⟩, hsize⟩

end PopData

variable (cfg : Config) (limits : PopDataLimits)

namespace BlockPayloadMutator

variable {cfg} {h : Hash} {m : MutatorState} {p : Payload} {s : AltState}

/-- The mutator leaves the counter alone. -/
theorem wlp_add_counter : wlp (add cfg h m p) (fun r _ => r.2.counter = m.counter) s := by
  simp only [add, wlp_bind, wlp_check, wlp_getOrStop, wlp_get, wlp_ite, wlp_pure]
  intro _
  apply wlp_iff.mpr
  intro index s1 _ prev _
  refine ⟨fun _ => trivial, fun _ => ?_⟩
  apply wlp_iff.mpr
  intro _ s2 _
  refine ⟨fun _ => trivial, fun _ => ?_⟩
  apply wlp_iff.mpr
  intro cmds s3 _
  apply wlp_iff.mpr
  intro ok s4 _
  refine ⟨fun _ => trivial, fun _ => ?_⟩
  apply wlp_iff.mpr
  intro _ s5 _
  trivial

end BlockPayloadMutator

namespace MemPoolBlockTree

/-- No payload that stays overflows. -/
def NeverOverflows (h : Hash) : List Payload → MutatorState → AltState → Prop
  | [], _, _ => True
  | p :: ps, m, s =>
    wlp (applyPayload cfg limits h m p)
      (fun r s' => (r.1 = true → ¬m.counter.Overflows limits p) ∧ NeverOverflows h ps r.2 s') s

variable {cfg limits} {h : Hash} {m : MutatorState} {p : Payload} {s s' : AltState}

/-- A payload that stays could fit, and is counted; the others are not. -/
theorem wlp_applyPayload : wlp (applyPayload cfg limits h m p)
    (fun r _ => r.1 = true ∧ m.counter.canFit limits p = true ∧ r.2.counter = m.counter.update limits p ∨
      r.1 = false ∧ r.2.counter = m.counter) s := by
  unfold applyPayload
  rw [wlp_ite, wlp_ite]
  refine ⟨fun _ => .inr ⟨rfl, rfl⟩, fun hfit => ⟨fun _ => .inr ⟨rfl, rfl⟩, fun _ => ?_⟩⟩
  rw [wlp_bind]
  apply wlp_mono BlockPayloadMutator.wlp_add_counter
  intro r s' hcounter
  rw [wlp_ite]
  constructor
  . intro _
    apply Or.inl
    refine ⟨rfl, by simpa using hfit, ?_⟩
    rw [hcounter]
  . intro hfalse
    exact .inr ⟨by simpa using hfalse, hcounter⟩

/-- The size is within the limit, and the payloads to come don't overflow. -/
def StaysWithin (cfg : Config) (limits : PopDataLimits) (h : Hash) (ps : List Payload) (m : MutatorState)
    (s : AltState) : Prop :=
  m.counter.encodedSize ≤ limits.maxPopDataSize ∧ NeverOverflows cfg limits h ps m s

theorem staysWithin_cons {ps : List Payload} {r : Bool × MutatorState}
    (hrun : applyPayload cfg limits h m p s = .ok r s') :
    StaysWithin cfg limits h (p :: ps) m s ↔ StaysWithin cfg limits h ps r.2 s' := by
  have hspec := wlp_ok wlp_applyPayload hrun
  have hnever : NeverOverflows cfg limits h (p :: ps) m s ↔
      (r.1 = true → ¬m.counter.Overflows limits p) ∧ NeverOverflows cfg limits h ps r.2 s' := by
    rw [NeverOverflows, wlp_iff]
    constructor
    . intro hall
      exact hall r s' hrun
    . intro hr r' s'' hrun'
      cases hrun.symm.trans hrun'
      exact hr
  rw [StaysWithin, StaysWithin, hnever]
  cases hspec with
  | inr hout =>
    rw [hout.1, hout.2]
    simp only [Bool.false_eq_true, false_implies, true_and]
  | inl hkept =>
    obtain ⟨hkept, hfit, hcounter⟩ := hkept
    rw [hkept]
    have hle := CountingContext.encodedSize_le_of_canFit hfit
    rw [hcounter, CountingContext.encodedSize_update_le_iff hfit]
    simp only [true_implies]
    constructor
    . exact fun h => ⟨h.2.1, h.2.2⟩
    . exact fun h => ⟨by omega, h.1, h.2⟩

/-- What trying the payloads of one kind does to the counter -/
theorem of_applyPayloadsOrRemoveIfInvalid {α : Type} {payload : α → Payload} {as : List α} {r : List α × MutatorState}
    (rest : List Payload) (hrun : applyPayloadsOrRemoveIfInvalid cfg limits payload h as m s = .ok r s') :
    r.2.counter = (r.1.map payload).foldl (CountingContext.update limits) m.counter ∧
      (m.counter.Within limits → r.2.counter.Within limits) ∧
        (StaysWithin cfg limits h (as.map payload ++ rest) m s ↔ StaysWithin cfg limits h rest r.2 s') := by
  induction as generalizing m s r s' with
  | nil =>
    cases hrun
    exact ⟨rfl, id, Iff.rfl⟩
  | cons a as ih =>
    simp only [applyPayloadsOrRemoveIfInvalid] at hrun
    obtain ⟨r1, s1, happly, hrun⟩ := of_bind_ok hrun
    obtain ⟨r2, s2, htail, hrun⟩ := of_bind_ok hrun
    cases hrun
    obtain ⟨hcounter, hwithin, hstays⟩ := ih htail
    have hspec := wlp_ok wlp_applyPayload happly
    rw [List.map_cons, List.cons_append, staysWithin_cons happly]
    refine ⟨?_, ?_, hstays⟩
    . cases hspec with
      | inr hout => rw [hout.1, if_neg Bool.false_ne_true, hcounter, hout.2]
      | inl hkept => rw [hkept.1, if_pos rfl, hcounter, hkept.2.2, List.map_cons, List.foldl_cons]
    . intro hm
      apply hwithin
      cases hspec with
      | inr hout =>
        rw [hout.2]
        exact hm
      | inl hkept =>
        rw [hkept.2.2]
        exact hm.update hkept.2.1

theorem encodedSize_empty : CountingContext.encodedSize {} = 10 := rfl

theorem within_empty : CountingContext.Within limits {} := ⟨Nat.zero_le _, Nat.zero_le _, Nat.zero_le _⟩

section Template

variable (cfg) (limits) (c : TreeClass AltState AltAddon) (pop : PopData)

/-- `filterInvalidPayloads` up to the payloads: make the temporary block, and keep the best VBK block in mind. -/
def createTmp : M AltState (Hash × MutatorState) := do
  zoom AltState.spState (deferForkResolution (vbkClass cfg))
  let s ← get
  let ret ← AltBlockTree.acceptBlockHeader (tmpBlock s.alt)
  check ret .tmpBlockRejected
  modify fun s => { s with sp := { s.sp with storage := s.sp.storage.writePayloads pop } }
  AltBlockTree.acceptBlock cfg tmpHash { context := [], vtbs := [], atvs := [] }
  let success ← c.setState tmpHash
  check success .setStateMustSucceed
  let m ← BlockPayloadMutator.create tmpHash
  pure (s.sp.vbk.activeTip, m)

/-- `filterInvalidPayloads` from the assertion on -/
def removeTmp (tip : Hash) : M AltState Unit := do
  removeSubtree c tmpHash
  zoom AltState.altTree deallocateTmp
  zoom AltState.spState (overrideDeferredForkResolution (vbkClass cfg) tip)
  zoom AltState.spState (continueForkResolution (vbkClass cfg))

/-- The payloads that the mutator takes -/
def selectPayloads (m : MutatorState) : M AltState PopData := do
  let context ← applyPayloadsOrRemoveIfInvalid cfg limits .vbk tmpHash pop.context m
  let vtbs ← applyPayloadsOrRemoveIfInvalid cfg limits .vtb tmpHash pop.vtbs context.2
  let atvs ← applyPayloadsOrRemoveIfInvalid cfg limits .atv tmpHash pop.atvs vtbs.2
  pure { context := context.1, vtbs := vtbs.1, atvs := atvs.1 }

/-- What `filterInvalidPayloads` leaves of the payloads, before it asserts that they fit -/
def filteredPayloads : M AltState PopData :=
  if pop.isEmpty then
    pure pop
  else do
    let r ← createTmp cfg c pop
    selectPayloads cfg limits pop r.2

theorem filterInvalidPayloads_eq (hpop : pop.isEmpty = false) : filterInvalidPayloads cfg limits c pop = (do
    let r ← createTmp cfg c pop
    let valid ← selectPayloads cfg limits pop r.2
    check (valid.fits limits) .popDataDoesNotFit
    removeTmp cfg c r.1
    pure valid) := by
  rw [filterInvalidPayloads, hpop, if_neg Bool.false_ne_true]
  simp only [createTmp, tryPayloads, selectPayloads, removeTmp, bind_assoc, pure_bind]

variable {cfg limits c pop} {valid : PopData}

theorem wlp_create : wlp (BlockPayloadMutator.create h) (fun m _ => m.counter = {}) s := by
  simp only [BlockPayloadMutator.create, wlp_bind, wlp_check, wlp_get, wlp_pure]
  apply wlp_iff.mpr
  intros
  trivial

theorem wlp_createTmp : wlp (createTmp cfg c pop) (fun r _ => r.2.counter = {}) s := by
  simp only [createTmp, wlp_bind]
  iterate 8
    apply wlp_iff.mpr
    intro _ _ _
  apply wlp_mono wlp_create
  intro m _ hm
  exact hm

theorem payloads_of_isEmpty (hpop : pop.isEmpty = true) : pop.payloads = [] := by
  simp only [PopData.isEmpty, Bool.and_eq_true, List.isEmpty_iff] at hpop
  rw [PopData.payloads, hpop.1.1, hpop.1.2, hpop.2]
  rfl

theorem fits_selectPayloads_iff (hm : m.counter = {}) (hrun : selectPayloads cfg limits pop m s = .ok valid s') :
    valid.fits limits = true ↔ 10 ≤ limits.maxPopDataSize ∧ NeverOverflows cfg limits tmpHash pop.payloads m s := by
  simp only [selectPayloads] at hrun
  obtain ⟨context, s1, hcontext, hrun⟩ := of_bind_ok hrun
  obtain ⟨vtbs, s2, hvtbs, hrun⟩ := of_bind_ok hrun
  obtain ⟨atvs, s3, hatvs, hrun⟩ := of_bind_ok hrun
  cases hrun
  obtain ⟨hcounter1, hwithin1, hstays1⟩ :=
    of_applyPayloadsOrRemoveIfInvalid (pop.vtbs.map .vtb ++ pop.atvs.map .atv) hcontext
  obtain ⟨hcounter2, hwithin2, hstays2⟩ := of_applyPayloadsOrRemoveIfInvalid (pop.atvs.map .atv) hvtbs
  obtain ⟨hcounter3, hwithin3, hstays3⟩ := of_applyPayloadsOrRemoveIfInvalid [] hatvs
  have hcounted : atvs.2.counter =
      PopData.counted limits { context := context.1, vtbs := vtbs.1, atvs := atvs.1 } := by
    rw [hcounter3, hcounter2, hcounter1, hm, PopData.counted, PopData.payloads, List.foldl_append, List.foldl_append]
  have hwithin : atvs.2.counter.Within limits := by
    apply hwithin3
    apply hwithin2
    apply hwithin1
    rw [hm]
    exact within_empty
  calc _ ↔ StaysWithin cfg limits tmpHash [] atvs.2 s' := by
        rw [PopData.fits_iff, ← hcounted, and_iff_right hwithin, StaysWithin, NeverOverflows, and_true]
    _ ↔ StaysWithin cfg limits tmpHash pop.payloads m s := by
        rw [← hstays3, List.append_nil, ← hstays2, ← hstays1, PopData.payloads]
    _ ↔ _ := by rw [StaysWithin, hm, encodedSize_empty]

/--
The payloads that are left fit unless there is no room for an empty body, or a payload stays that takes the last
byte when the number of payloads of its kind needs one more.
-/
theorem fits_filteredPayloads_iff (hrun : filteredPayloads cfg limits c pop s = .ok valid s') :
    valid.fits limits = true ↔ 10 ≤ limits.maxPopDataSize ∧
      wlp (createTmp cfg c pop) (fun r s => NeverOverflows cfg limits tmpHash pop.payloads r.2 s) s := by
  unfold filteredPayloads at hrun
  split at hrun
  . next hpop =>
    cases hrun
    have hpayloads := payloads_of_isEmpty hpop
    have hnever : wlp (createTmp cfg c pop) (fun r s => NeverOverflows cfg limits tmpHash pop.payloads r.2 s) s := by
      rw [hpayloads]
      apply wlp_iff.mpr
      intros
      trivial
    rw [and_iff_left hnever, PopData.fits_iff, PopData.counted, hpayloads, List.foldl_nil, encodedSize_empty]
    exact and_iff_right within_empty
  . obtain ⟨r, s1, hcreate, hselect⟩ := of_bind_ok hrun
    have hcounter := wlp_ok wlp_createTmp hcreate
    rw [fits_selectPayloads_iff hcounter hselect, wlp_iff]
    apply and_congr_right
    intro _
    constructor
    . intro hnever r' s1' hcreate'
      cases hcreate.symm.trans hcreate'
      exact hnever
    . intro hall
      exact hall r s1 hcreate

/-- The assertion stops the process when the payloads that are left don't fit. -/
theorem run_filterInvalidPayloads (hpop : pop.isEmpty = false) (hrun : filteredPayloads cfg limits c pop s = .ok valid s')
    (hfits : valid.fits limits = false) : filterInvalidPayloads cfg limits c pop s = .error .popDataDoesNotFit s' := by
  rw [filteredPayloads, hpop, if_neg Bool.false_ne_true] at hrun
  obtain ⟨r, s1, hcreate, hselect⟩ := of_bind_ok hrun
  rw [filterInvalidPayloads_eq _ _ _ _ hpop, run_ok hcreate, run_ok hselect, hfits]
  rfl

end Template

end MemPoolBlockTree

namespace Small

open MemPoolBlockTree

/-- There is room for an empty body, and for `n` payloads of 700 bytes if their number takes one byte. -/
def roomFor (n : Nat) : PopDataLimits where
  maxVbkBlocksInAltBlock := 200
  maxVTBsInAltBlock := 200
  maxATVsInAltBlock := 1000
  maxPopDataSize := 10 + n * 700
  estimateSize _ := 700

/-- An endorsement of the root, with its own transaction -/
def endorsementOfRoot (n : Nat) : ATV where
  transaction := n
  endorsedHash := 1
  contextInfo := some { height := 0, firstPreviousKeystone := none, secondPreviousKeystone := none }
  blockOfProof := vbkRoot

def endorsements (n : Nat) : PopData := { context := [], vtbs := [], atvs := (List.range n).map endorsementOfRoot }

/-- Two payloads in a body with room for one -/
theorem fits_filteredPayloads_two : ∃ valid s', filteredPayloads config (roomFor 1) (altClass config) (endorsements 2) start = .ok valid s' ∧
    (valid.fits (roomFor 1) = true ↔ 10 ≤ (roomFor 1).maxPopDataSize ∧
      wlp (createTmp config (altClass config) (endorsements 2))
        (fun r s => NeverOverflows config (roomFor 1) tmpHash (endorsements 2).payloads r.2 s) start) := by
  have hreturned : returned (filteredPayloads config (roomFor 1) (altClass config) (endorsements 2) start) =
      some (endorsements 1) := by decide +kernel
  obtain ⟨s', hrun⟩ := ok_of_returned hreturned
  exact ⟨_, s', hrun, fits_filteredPayloads_iff hrun⟩

/-- The 256th payload makes the length prefix grow, for which there is no room. -/
theorem filteredPayloads_not_fits :
    ¬∀ limits pop s s' valid, Reachable config s → filteredPayloads config limits (altClass config) pop s = .ok valid s' →
      valid.fits limits = true := by
  intro hall
  have hreturned : returned (filteredPayloads config (roomFor 256) (altClass config) (endorsements 256) start) =
      some (endorsements 256) := by decide +kernel
  obtain ⟨s', hrun⟩ := ok_of_returned hreturned
  have hfits := hall _ _ _ _ _ (reachable_after []) hrun
  have hnot : (endorsements 256).fits (roomFor 256) = false := by decide +kernel
  rw [hnot] at hfits
  cases hfits

end Small

end AltIntegration
