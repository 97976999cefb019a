import AltIntegration.Serde.RoundTrip
import AltIntegration.Validation.ContainsSplit

/-!
This module contains `checkBitcoinTransactionForPoPData` of `stateless_validation.cpp`: does a BTC transaction
publish a VBK block?
-/

namespace AltIntegration

open Serde

namespace PopPublication

/-- Where the inner loop over `j` ends: at the first of the next `n` indices at which the bytes differ, if any. -/
def advance (tx data : List UInt8) (i : Nat) : Nat → Nat → Nat
  | 0, j => j
  | n + 1, j => if tx[i + j]? = data[j]? then advance tx data i n (j + 1) else j

/-- The outer loop over `i`, for `n` turns. Each turn goes on with the `j` that the last one ended with. -/
def search (tx data : List UInt8) : Nat → Nat → Nat → Bool
  | 0, _, _ => false
  | n + 1, i, j =>
    let j' := advance tx data i (data.length - j) j
    if j' = data.length then true else search tx data n (i + 1) j'

/-- What a BTC transaction has to publish: the header of the VBK block and the bytes of the miner's address. -/
def publicationData (t : VbkPopTx) : Encoding := concat [t.publishedBlock.toRaw, t.address.getPopBytes]

/-- `VBK_PUBLICATIONDATA_SIZE` -/
def publicationDataSize : Nat := 80

end PopPublication

open PopPublication

/-- The error of `containsSplit` stays behind the reason of the caller. -/
def checkBitcoinTransactionForPoPData (t : VbkPopTx) : Except Failure Unit :=
  match publicationData t with
  | none => .error .assertion
  | some data =>
    let tx := t.bitcoinTransaction.tx
    if data.length ≠ publicationDataSize then
      .error (.invalid ["bad-pubdata"])
    else if data.length ≤ tx.length ∧ search tx data (tx.length - data.length + 1) 0 0 = true then
      .ok ()
    else
      match containsSplit data tx with
      | .ok true => .ok ()
      | .ok false => .error (.invalid ["invalid-vbk-pop-tx"])
      | .error (.invalid path) => .error (.invalid ("invalid-vbk-pop-tx" :: path))
      | .error e => .error e

namespace PopPublication

section

variable {tx data : List UInt8} {i j n : Nat}

/-- The inner loop skips bytes that agree, and stops at two that differ. -/
theorem advance_spec (tx data : List UInt8) (i j n : Nat) (hn : j + n = data.length) (hi : i + data.length ≤ tx.length) :
    j ≤ advance tx data i n j ∧ advance tx data i n j ≤ data.length ∧
      (advance tx data i n j < data.length → tx[i + advance tx data i n j]? ≠ data[advance tx data i n j]?) ∧
      ((data.drop j).Sublist (tx.drop (i + j)) ↔
        (data.drop (advance tx data i n j)).Sublist (tx.drop (i + advance tx data i n j))) := by
  induction n generalizing j with
  | zero =>
    rw [advance]
    exact ⟨Nat.le_refl j, by omega, by omega, Iff.rfl⟩
  | succ n ih =>
    rw [advance]
    split
    . next heq =>
      have hj : j < data.length := by omega
      have hij : i + j < tx.length := by omega
      have hsame : (data.drop j).Sublist (tx.drop (i + j)) ↔
          (data.drop (j + 1)).Sublist (tx.drop (i + (j + 1))) := by
        rw [List.getElem?_eq_getElem hij, List.getElem?_eq_getElem hj] at heq
        rw [List.drop_eq_getElem_cons hj, List.drop_eq_getElem_cons hij, Option.some.inj heq, List.cons_sublist_cons]
        rfl
      have := ih (j + 1) (by omega)
      rw [hsame]
      exact ⟨by omega, this.2.1, this.2.2.1, this.2.2.2⟩
    . next hne => exact ⟨Nat.le_refl j, by omega, fun _ => hne, Iff.rfl⟩

/-- Since `j` is not reset, the search skips bytes of the transaction between those that it finds. -/
theorem search_iff (hn : i + n = tx.length - data.length + 1) (hle : data.length ≤ tx.length)
    (hj : j < data.length) : search tx data n i j = true ↔ (data.drop j).Sublist (tx.drop (i + j)) := by
  induction n generalizing i j with
  | zero =>
    have hshort : ¬(data.drop j).Sublist (tx.drop (i + j)) := by
      intro hsub
      have := hsub.length_le
      rw [List.length_drop, List.length_drop] at this
      omega
    simp [search, hshort]
  | succ n ih =>
    have hadv := advance_spec tx data i j (data.length - j) (by omega) (by omega)
    rw [search, hadv.2.2.2]
    generalize advance tx data i (data.length - j) j = j' at hadv
    split
    . next hend => simp [hend]
    . next hmore =>
      have hj' : j' < data.length := by omega
      have hij' : i + j' < tx.length := by omega
      have hne := hadv.2.2.1 hj'
      rw [List.getElem?_eq_getElem hij', List.getElem?_eq_getElem hj'] at hne
      have hskip : (data.drop j').Sublist (tx.drop (i + j')) ↔ (data.drop j').Sublist (tx.drop (i + 1 + j')) := by
        rw [List.drop_eq_getElem_cons hj', List.drop_eq_getElem_cons hij', Nat.add_right_comm,
          List.cons_sublist_cons']
        apply or_iff_left
        intro hsame
        exact hne (congrArg some hsame.1.symm)
      rw [hskip]
      exact ih (by omega) hj'

end

theorem length_publicationData (t : VbkPopTx) :
    ∃ data, publicationData t = some data ∧ data.length = publicationDataSize := by
  cases t.publishedBlock.toRaw_length with
  | intro raw hraw =>
    cases (Address.decodeText_ok t.address.valid).2 with
    | intro bytes hbytes =>
      have hpop : t.address.getPopBytes = some (bytes.take 15) := by
        rw [Address.getPopBytes, hbytes.1]
        exact if_pos hbytes.2
      refine ⟨raw ++ bytes.take 15, ?_, ?_⟩
      . rw [publicationData, hraw.1, hpop]
        simp [concat, andThen]
      . have hsize : VbkBlock.headerSize = 65 := rfl
        rw [List.length_append, hraw.2, List.length_take, publicationDataSize]
        omega

theorem check_iff (t : VbkPopTx) {data : List UInt8} (hdata : publicationData t = some data)
    (hlen : data.length = publicationDataSize) : checkBitcoinTransactionForPoPData t = .ok () ↔
      data.Sublist t.bitcoinTransaction.tx ∨ containsSplit data t.bitcoinTransaction.tx = .ok true := by
  have hsearch : data.length ≤ t.bitcoinTransaction.tx.length ∧
      search t.bitcoinTransaction.tx data (t.bitcoinTransaction.tx.length - data.length + 1) 0 0 = true ↔
      data.Sublist t.bitcoinTransaction.tx := by
    constructor
    . intro h
      exact (search_iff (by omega) h.1 (by rw [hlen]; decide)).mp h.2
    . intro h
      exact ⟨h.length_le, (search_iff (by omega) h.length_le (by rw [hlen]; decide)).mpr h⟩
  rw [checkBitcoinTransactionForPoPData, hdata]
  simp only [hsearch]
  rw [if_neg (by simp [hlen])]
  split
  . next hsub => simp [hsub]
  . next hsub =>
    split
    . next h => simp [h]
    . next h => simp [h, hsub]
    . next h => simp [h, hsub]
    . next h => simp [h, hsub]

/-- The bytes occur in their order, but not next to each other. -/
def Scattered (data tx : List UInt8) : Prop := data.Sublist tx ∧ ¬data <:+: tx

end PopPublication

/--
The index of the inner loop is declared outside of it, so that a mismatch does not start the comparison again. The
check is sound but for transactions in which the bytes are scattered.
-/
theorem checkBitcoinTransactionForPoPData_sound_iff (t : VbkPopTx) :
    ∃ data, publicationData t = some data ∧ data.length = publicationDataSize ∧
      (((checkBitcoinTransactionForPoPData t = .ok () →
            data <:+: t.bitcoinTransaction.tx ∨ containsSplit data t.bitcoinTransaction.tx = .ok true) ∧
          (data <:+: t.bitcoinTransaction.tx → checkBitcoinTransactionForPoPData t = .ok ())) ↔
        ¬(Scattered data t.bitcoinTransaction.tx ∧ containsSplit data t.bitcoinTransaction.tx ≠ .ok true)) := by
  cases length_publicationData t with
  | intro data h =>
    refine ⟨data, h.1, h.2, ?_⟩
    have hadjacent : data <:+: t.bitcoinTransaction.tx → data.Sublist t.bitcoinTransaction.tx := List.IsInfix.sublist
    rw [check_iff t h.1 h.2, Scattered]
    constructor
    . intro hsound hscattered
      cases hsound.1 (.inl hscattered.1.1) with
      | inl hin => exact hscattered.1.2 hin
      | inr hsplit => exact hscattered.2 hsplit
    . intro hnot
      constructor
      . intro hcheck
        by_cases hin : data <:+: t.bitcoinTransaction.tx
        . exact .inl hin
        . by_cases hsplit : containsSplit data t.bitcoinTransaction.tx = .ok true
          . exact .inr hsplit
          . exact absurd ⟨⟨hcheck.resolve_right hsplit, hin⟩, hsplit⟩ hnot
      . intro hin
        exact .inl (hadjacent hin)

namespace Small

/-- The publication data, with one more byte in its middle. -/
def scatteredTx : VbkPopTx :=
  let data := (publicationData Serde.Small.vtb.transaction).getD []
  { Serde.Small.vtb.transaction with bitcoinTransaction := ⟨data.take 40 ++ 0xFF :: data.drop 40⟩ }

end Small

theorem checkBitcoinTransactionForPoPData_accepts_scattered :
    checkBitcoinTransactionForPoPData Small.scatteredTx = .ok () ∧
      ∃ data, publicationData Small.scatteredTx = some data ∧
        ¬data <:+: Small.scatteredTx.bitcoinTransaction.tx ∧
        containsSplit data Small.scatteredTx.bitcoinTransaction.tx ≠ .ok true := by
  refine ⟨by decide +kernel, _, rfl, by decide +kernel, by decide +kernel⟩

end AltIntegration
