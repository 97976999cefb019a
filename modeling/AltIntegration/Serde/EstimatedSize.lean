import AltIntegration.Serde.RoundTrip

/-!
This module contains that `estimateSize` counts what `toVbkEncoding` writes, for the body of an ALT block and for
everything in it.
-/

namespace AltIntegration

/-- If `e` can be written, then it has `n` bytes. -/
def Measures (e : Encoding) (n : Nat) : Prop := ∀ bytes, e = some bytes → bytes.length = n

variable {α : Type} {e : Encoding} {es : List Encoding} {n n' : Nat}

theorem HasSize.measures (h : HasSize e n) : Measures e n := by
  intro bytes heq
  cases h with
  | intro bytes' h =>
    rw [h.1] at heq
    cases heq
    exact h.2

namespace Measures

theorem nil : Measures (concat []) 0 := HasSize.nil.measures

theorem cons (h : Measures e n) (hs : Measures (concat es) n') : Measures (concat (e :: es)) (n + n') := by
  intro bytes heq
  obtain ⟨first, rest, hfirst, hrest, happend⟩ := concat_cons_some heq
  rw [happend, List.length_append, h first hfirst, hs rest hrest]

theorem congr (h : Measures e n) (heq : n = n') : Measures e n' := heq ▸ h

theorem items {f : α → Encoding} {size : α → Nat} (h : ∀ a, Measures (f a) (size a)) (l : List α) :
    Measures (concat (l.map f)) (l.map size).sum := by
  induction l with
  | nil => exact .nil
  | cons a l ih =>
    rw [List.map_cons, List.map_cons, List.sum_cons]
    exact (h a).cons ih

end Measures

namespace Serde

theorem measures_container {f : α → Encoding} {size : α → Nat} (h : ∀ a, Measures (f a) (size a)) (l : List α) :
    Measures (writeContainer l f) (estimateContainerSize l size) :=
  (hasSize_singleBE _).measures.cons (.items h l)

theorem measures_singleByteLen (value : List UInt8) :
    Measures (writeSingleByteLenValue value) (singleByteLenValueSize value.length) := by
  by_cases h : value.length ≤ 255
  . exact (hasSize_singleByteLen h).measures
  . intro bytes heq
    rw [writeSingleByteLenValue, if_neg h] at heq
    cases heq

/-- The length in front of a transaction is that of its bytes. -/
theorem measures_signed {raw : Encoding} (h : HasSize raw n) (signature publicKey : List UInt8) :
    Measures (concat [raw.bind writeVarLenValue, writeSingleByteLenValue signature, writeSingleByteLenValue publicKey])
      (varLenValueSize n + singleByteLenValueSize signature.length + singleByteLenValueSize publicKey.length) := by
  cases h with
  | intro bytes h =>
    rw [h.1, ← h.2, Option.bind_some]
    apply Measures.congr
    . apply (hasSize_varLen bytes).measures.cons
      apply (measures_singleByteLen signature).cons
      exact (measures_singleByteLen publicKey).cons .nil
    . omega

theorem VbkTx.measures (t : VbkTx) : Measures t.toVbkEncoding t.estimateSize :=
  measures_signed t.hasSize_raw t.signature t.publicKey

theorem VbkPopTx.measures (t : VbkPopTx) : Measures t.toVbkEncoding t.estimateSize :=
  measures_signed t.hasSize_raw t.signature t.publicKey

theorem VbkMerklePath.measures (p : VbkMerklePath) : Measures p.toVbkEncoding p.estimateSize := by
  rw [toVbkEncoding, estimateSize, List.cons_append, List.cons_append, List.cons_append, List.cons_append,
    List.nil_append]
  apply Measures.congr
  . apply (hasSize_singleFixedBE (by omega)).measures.cons
    apply (hasSize_singleFixedBE (by omega)).measures.cons
    apply (hasSize_layer p.subject).measures.cons
    apply (hasSize_singleFixedBE (by omega)).measures.cons
    exact .items (fun layer => (hasSize_layer layer).measures) p.layers
  . omega

theorem ATV.measures (a : ATV) : Measures a.toVbkEncoding a.estimateSize := by
  by_cases h : a.version = 1
  . rw [toVbkEncoding, if_pos h]
    apply Measures.congr
    . apply hasSize_writeBE.measures.cons
      apply a.transaction.measures.cons
      apply a.merklePath.measures.cons
      exact a.blockOfProof.hasSize.measures.cons .nil
    . rw [estimateSize]
      omega
  . intro bytes heq
    rw [toVbkEncoding, if_neg h] at heq
    cases heq

theorem VTB.measures (v : VTB) : Measures v.toVbkEncoding v.estimateSize := by
  by_cases h : v.version = 1
  . rw [toVbkEncoding, if_pos h]
    apply Measures.congr
    . apply hasSize_writeBE.measures.cons
      apply v.transaction.measures.cons
      apply v.merklePath.measures.cons
      exact v.containingBlock.hasSize.measures.cons .nil
    . rw [estimateSize]
      omega
  . intro bytes heq
    rw [toVbkEncoding, if_neg h] at heq
    cases heq

theorem PopData.measures (p : PopData) : Measures p.toVbkEncoding p.estimateSize := by
  by_cases h : p.version = 1
  . rw [toVbkEncoding, if_pos h]
    apply Measures.congr
    . apply hasSize_writeBE.measures.cons
      apply (measures_container (fun b => b.hasSize.measures) p.context).cons
      apply (measures_container VTB.measures p.vtbs).cons
      exact (measures_container ATV.measures p.atvs).cons .nil
    . rw [estimateSize]
      omega
  . intro bytes heq
    rw [toVbkEncoding, if_neg h] at heq
    cases heq

/-- Whatever can be written has the size that was estimated. -/
def EstimatesExactly {α : Type} (toVbkEncoding : α → Encoding) (estimateSize : α → Nat) : Prop :=
  ∀ a bytes, toVbkEncoding a = some bytes → estimateSize a = bytes.length

theorem estimatesExactly {α : Type} {toVbkEncoding : α → Encoding} {estimateSize : α → Nat}
    (h : ∀ a, Measures (toVbkEncoding a) (estimateSize a)) : EstimatesExactly toVbkEncoding estimateSize :=
  fun a bytes heq => (h a bytes heq).symm

/-- The estimated size of the body of a block, and of everything that is written into it, is the size it has. -/
theorem estimateSize_exact :
    EstimatesExactly PopData.toVbkEncoding PopData.estimateSize ∧
      EstimatesExactly ATV.toVbkEncoding ATV.estimateSize ∧
      EstimatesExactly VTB.toVbkEncoding VTB.estimateSize ∧
      EstimatesExactly VbkTx.toVbkEncoding VbkTx.estimateSize ∧
      EstimatesExactly VbkPopTx.toVbkEncoding VbkPopTx.estimateSize ∧
      EstimatesExactly PublicationData.toVbkEncoding PublicationData.estimateSize ∧
      EstimatesExactly Address.toVbkEncoding Address.estimateSize ∧
      EstimatesExactly Output.toVbkEncoding Output.estimateSize ∧
      EstimatesExactly Coin.toVbkEncoding Coin.estimateSize ∧
      EstimatesExactly MerklePath.toVbkEncoding MerklePath.estimateSize ∧
      EstimatesExactly VbkMerklePath.toVbkEncoding VbkMerklePath.estimateSize ∧
      EstimatesExactly VbkBlock.toVbkEncoding VbkBlock.estimateSize ∧
      EstimatesExactly BtcBlock.toVbkEncoding BtcBlock.estimateSize ∧
      EstimatesExactly BtcTx.toVbkEncoding BtcTx.estimateSize :=
  ⟨estimatesExactly PopData.measures, estimatesExactly ATV.measures, estimatesExactly VTB.measures,
    estimatesExactly VbkTx.measures, estimatesExactly VbkPopTx.measures,
    estimatesExactly (fun p => p.hasSize.measures), estimatesExactly (fun a => a.hasSize.1.measures),
    estimatesExactly (fun o => o.hasSize.measures), estimatesExactly (fun c => c.hasSize.measures),
    estimatesExactly (fun p => p.hasSize.measures), estimatesExactly VbkMerklePath.measures,
    estimatesExactly (fun b => b.hasSize.measures), estimatesExactly (fun b => b.hasSize.measures),
    estimatesExactly (fun t => t.hasSize.measures)⟩

end Serde

end AltIntegration
