import Mathlib.Logic.Denumerable
import Mathlib.Data.Prod.Lex
import Mathlib.Order.WithBot
import AltIntegration.Data.OrderedSet
import AltIntegration.Blockchain.BaseBlockTree
import AltIntegration.Blockchain.Addons

/-!
This module contains the payloads as the mempool reads them, and `VbkPayloadsRelations` of
`mempool_relations.hpp`: the payloads that are held for one VBK block. The ATVs among them are an ordered
set, whose comparator looks up the blocks that they endorse in the ALT tree.
-/

namespace AltIntegration

namespace Mempool

/--
The part of a VBK transaction that the mempool reads: the units of `calculateTxFee` and what the altchain
makes of the publication data. `nonce` stands for everything else.
-/
structure Transaction where
  fee : Int
  endorsedHash : Hash
  contextInfo : Option ContextInfo
  nonce : Nat
  deriving DecidableEq, Repr

/-- The hash covers the whole transaction, except for its signature. -/
def Transaction.getHash (t : Transaction) : Hash :=
  Encodable.encode (t.fee, t.endorsedHash,
    t.contextInfo.map (fun c => (c.height, c.firstPreviousKeystone, c.secondPreviousKeystone)), t.nonce)

/-- `proof` stands for the signature and the merkle path, which only the stateless checks read. -/
structure ATV where
  transaction : Transaction
  proof : Nat
  blockOfProof : PowBlock
  deriving DecidableEq, Repr

namespace ATV

/-- The ATV as the trees read it -/
def toATV (a : ATV) : AltIntegration.ATV where
  transaction := a.transaction.getHash
  endorsedHash := a.transaction.endorsedHash
  contextInfo := a.transaction.contextInfo
  blockOfProof := a.blockOfProof

def getId (a : ATV) : Nat := a.toATV.getId

end ATV

structure VTB where
  bitcoinTransaction : Hash
  publishedBlock : PowBlock
  blockOfProof : PowBlock
  blockOfProofContext : List PowBlock
  proof : Nat
  containingBlock : PowBlock
  deriving DecidableEq, Repr

namespace VTB

def toVTB (v : VTB) : AltIntegration.VTB where
  bitcoinTransaction := v.bitcoinTransaction
  publishedBlock := v.publishedBlock.getHash
  blockOfProof := v.blockOfProof
  blockOfProofContext := v.blockOfProofContext
  containingBlock := v.containingBlock

def getId (v : VTB) : Nat := v.toVTB.getId

end VTB

/-- A `shared_ptr` to an ATV, that is its address and the ATV that is there. -/
structure SharedATV where
  addr : Nat
  atv : ATV
  deriving DecidableEq, Repr

def txFeeComparator (a b : ATV) : Int :=
  if a.transaction.fee = b.transaction.fee then 0
  else if a.transaction.fee > b.transaction.fee then 1
  else -1

def endorsedAltComparator (t : Tree AltAddon) (a b : ATV) : Int :=
  match t.getBlockIndex a.transaction.endorsedHash, t.getBlockIndex b.transaction.endorsedHash with
  | none, none => 0
  | none, some _ => -1
  | some _, none => 1
  | some i, some j =>
    if i.height = j.height then 0
    else if i.height < j.height then 1
    else -1

def atvCombinedComparator (t : Tree AltAddon) (a b : SharedATV) : Bool :=
  let ret1 := txFeeComparator a.atv b.atv
  if ret1 ≠ 0 then decide (ret1 > 0)
  else
    let ret2 := endorsedAltComparator t a.atv b.atv
    if ret2 ≠ 0 then decide (ret2 > 0)
    else decide (a.addr < b.addr)

/-- `VbkPayloadsRelations` -/
structure VbkPayloadsRelations where
  header : PowBlock
  vtbs : List VTB := []
  /-- from the first to the last -/
  atvs : List SharedATV := []
  deriving DecidableEq, Repr

def VbkPayloadsRelations.isEmpty (r : VbkPayloadsRelations) : Bool := r.atvs.isEmpty && r.vtbs.isEmpty

theorem Transaction.getHash_injective : Function.Injective getHash := by
  intro t t' h
  have h := Encodable.encode_injective h
  simp only [Prod.mk.injEq] at h
  obtain ⟨hfee, hendorsed, hcontext, hnonce⟩ := h
  have hcontext : t.contextInfo = t'.contextInfo := by
    apply Option.map_injective _ hcontext
    intro c c' heq
    cases c
    cases c'
    simp_all
  cases t
  cases t'
  simp_all

theorem ATV.getId_eq_iff {a b : ATV} :
    a.getId = b.getId ↔ a.transaction = b.transaction ∧ a.blockOfProof = b.blockOfProof := by
  simp only [getId, AltIntegration.ATV.getId, toATV, Nat.pair_eq_pair]
  rw [Transaction.getHash_injective.eq_iff, PowBlock.getHash_injective.eq_iff]

theorem VTB.containingBlock_of_getId {v w : VTB} (h : v.getId = w.getId) : v.containingBlock = w.containingBlock := by
  simp only [getId, AltIntegration.VTB.getId, toVTB, Nat.pair_eq_pair] at h
  exact PowBlock.getHash_injective h.2.2

section Order

variable (t : Tree AltAddon)

/-- The height of the block that an ATV endorses; a block that is not in the tree is above all others. -/
def endorsedHeight (a : ATV) : WithTop Nat :=
  (t.getBlockIndex a.transaction.endorsedHash).elim ⊤ (fun index => WithTop.some index.height)

/-- The comparator compares the fees, then the endorsed heights, then the addresses. -/
def atvRank (a : SharedATV) : Int ×ₗ WithTop Nat ×ₗ Nat :=
  toLex (-a.atv.transaction.fee, toLex (endorsedHeight t a.atv, a.addr))

/-- `a` stands before `b` in a set that is sorted. -/
def ComesBefore (a b : SharedATV) : Prop := atvCombinedComparator t a b = true

instance : DecidableRel (ComesBefore t) := fun a b => inferInstanceAs (Decidable (atvCombinedComparator t a b = true))

variable {t} {a b : SharedATV}

theorem endorsedAltComparator_pos_iff :
    0 < endorsedAltComparator t a.atv b.atv ↔ endorsedHeight t a.atv < endorsedHeight t b.atv := by
  simp only [endorsedAltComparator, endorsedHeight]
  cases t.getBlockIndex a.atv.transaction.endorsedHash with
  | none =>
    cases t.getBlockIndex b.atv.transaction.endorsedHash with
    | none => simp
    | some j => simp
  | some i =>
    cases t.getBlockIndex b.atv.transaction.endorsedHash with
    | none => simp
    | some j =>
      simp only [Option.elim_some, WithTop.coe_lt_coe]
      split
      . next heq => simp [heq]
      . split
        . next hlt => simp [hlt]
        . next hge => simp [hge]

theorem endorsedAltComparator_eq_zero_iff :
    endorsedAltComparator t a.atv b.atv = 0 ↔ endorsedHeight t a.atv = endorsedHeight t b.atv := by
  simp only [endorsedAltComparator, endorsedHeight]
  cases t.getBlockIndex a.atv.transaction.endorsedHash with
  | none =>
    cases t.getBlockIndex b.atv.transaction.endorsedHash with
    | none => simp
    | some j => simp
  | some i =>
    cases t.getBlockIndex b.atv.transaction.endorsedHash with
    | none => simp
    | some j =>
      simp only [Option.elim_some, WithTop.coe_inj]
      split
      . next heq => simp [heq]
      . next hne =>
        split
        . simp [hne]
        . simp [hne]

theorem comesBefore_iff : ComesBefore t a b ↔ atvRank t a < atvRank t b := by
  simp only [ComesBefore, atvCombinedComparator, atvRank, Prod.Lex.toLex_lt_toLex, txFeeComparator]
  by_cases hfee : a.atv.transaction.fee = b.atv.transaction.fee
  . simp only [hfee, ↓reduceIte, ne_eq, not_true_eq_false, lt_self_iff_false, true_and, false_or]
    rw [← endorsedAltComparator_pos_iff, ← endorsedAltComparator_eq_zero_iff]
    split
    . next hne => simp [hne]
    . next heq =>
      rw [not_not] at heq
      simp [heq]
  . have hneg : -a.atv.transaction.fee ≠ -b.atv.transaction.fee := fun heq => hfee (Int.neg_inj.mp heq)
    simp only [hfee, hneg, ↓reduceIte, false_and, or_false]
    split
    . next hgt =>
      simp only [ne_eq, Int.reduceEq, not_false_eq_true, ↓reduceIte, gt_iff_lt, Int.zero_lt_one, decide_true, true_iff]
      omega
    . next hle =>
      simp only [ne_eq, Int.reduceNeg, Int.reduceEq, not_false_eq_true, ↓reduceIte, gt_iff_lt, Int.reduceLT, decide_false,
        Bool.false_eq_true, false_iff]
      omega

instance : IsStrictOrder SharedATV (ComesBefore t) where
  irrefl _ h := lt_irrefl _ (comesBefore_iff.mp h)
  trans _ _ _ hab hbc := comesBefore_iff.mpr (lt_trans (comesBefore_iff.mp hab) (comesBefore_iff.mp hbc))

/-- Only a pointer to the same place is the same to the set. -/
theorem addr_eq_of_not_comesBefore (hab : ¬ComesBefore t a b) (hba : ¬ComesBefore t b a) : a.addr = b.addr := by
  rw [comesBefore_iff, not_lt] at hab hba
  have h := Prod.mk.inj (toLex_inj.mp (le_antisymm hba hab))
  exact (Prod.mk.inj (toLex_inj.mp h.2)).2

end Order

end Mempool

end AltIntegration
