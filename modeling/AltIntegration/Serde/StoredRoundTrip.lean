import AltIntegration.Serde.StoredBlocks

/-!
This module contains what decoding a `StoredBlockIndex` makes of its encoding.
-/

namespace AltIntegration.Serde

open ReadStream

theorem decodes_readBlob {n : Nat} (h : n ≤ 255) (b : Blob n) : Decodes (writeSlice b) (readBlob n) b := by
  have hlen := b.size
  have hwrite : writeSlice b = writeSingleByteLenValue b.bytes := rfl
  rw [hwrite, readBlob, ← concat_single (writeSingleByteLenValue _)]
  apply Decodes.bind (decodes_singleByteLen (by omega) (by omega) (by omega))
  exact b.decodes_assign

theorem VbkBlock.decodesIff_raw (b : VbkBlock) : DecodesIff b.NonceFits b.toRaw deserializeFromRaw b := by
  refine ⟨decodes_raw, ?_⟩
  intro hn
  apply Misdecodes.of_avoids
  rw [deserializeFromRaw]
  iterate 8
    apply Avoids.bind
    intro _
  intro s s' hs
  cases bind_ok hs with
  | intro nonce hnonce =>
    cases hnonce with
    | intro t ht =>
      have hlt : nonce < 256 ^ 5 := lt_of_readBE (orInvalid_ok.mp ht.1)
      cases ht.2
      apply hn
      rw [NonceFits, UInt64.toNat_ofNat', Nat.mod_eq_of_lt (by omega)]
      exact hlt

namespace AltBlock

/-- The hash has the size the code was compiled for, which fits in a byte. -/
def Fits (altHashSize : Nat) (b : AltBlock) : Prop :=
  (b.hash.length = altHashSize ∧ altHashSize ≤ 255) ∧ b.previousBlock.length ≤ altHashSize

theorem decodesIff_raw (altHashSize : Nat) (b : AltBlock) :
    DecodesIff (b.Fits altHashSize) b.toRaw (deserializeFromRaw altHashSize) b := by
  have hheight : b.height.toUInt32.toNat < 256 ^ 4 := b.height.toUInt32.toNat_lt
  have htimestamp : b.timestamp.toNat < 256 ^ 4 := b.timestamp.toNat_lt
  have hhash : writeSlice b.hash = writeSingleByteLenValue b.hash := rfl
  have hprevious : writeSlice b.previousBlock = writeSingleByteLenValue b.previousBlock := rfl
  rw [toRaw, deserializeFromRaw, hhash, hprevious]
  apply DecodesIff.bind_checked
  . intro h
    exact (decodes_singleByteLen (by omega) (by omega) (by omega)).orInvalid
  . intro h
    exact (rejects_singleByteLen (by omega)).orInvalid
  . intro hsize
    apply DecodesIff.congr _ (Iff.of_eq (and_true (b.previousBlock.length ≤ altHashSize)))
    apply DecodesIff.bind_checked
    . intro h
      exact (decodes_singleByteLen (Nat.zero_le _) h (by omega)).orInvalid
    . intro h
      exact (rejects_singleByteLen (by omega)).orInvalid
    . intro _
      apply DecodesIff.of_decodes _ trivial
      apply Decodes.bind (decodes_readBE hheight).orInvalid
      apply Decodes.bind (decodes_readBE htimestamp).orInvalid
      simp only [ofNat_toUInt32, UInt32.ofNat_toNat]
      exact .pure b

end AltBlock

theorem VbkEndorsement.decodes (e : VbkEndorsement) : Decodes e.toVbkEncoding deserializeFromVbkEncoding e := by
  rw [Endorsement.toVbkEncoding, deserializeFromVbkEncoding, Endorsement.read]
  apply Decodes.bind (decodes_readBlob (by omega) _).orInvalid
  apply Decodes.bind (decodes_readBlob (by omega) _).orInvalid
  apply Decodes.bind (decodes_readBlob (by omega) _).orInvalid
  apply Decodes.bind (decodes_readBlob (by omega) _).orInvalid
  exact .pure e

namespace AltEndorsement

/-- The sizes of both hashes fit in a byte. -/
def Fits (e : AltEndorsement) : Prop := e.endorsedHash.length ≤ 255 ∧ e.containingHash.length ≤ 255

theorem decodes {e : AltEndorsement} (h : Fits e) : Decodes e.toVbkEncoding deserializeFromVbkEncoding e := by
  have hendorsed : e.endorsedHash.length ≤ 255 := h.1
  have hcontaining : e.containingHash.length ≤ 255 := h.2
  have hwrite : ∀ hash : List UInt8, writeSlice hash = writeSingleByteLenValue hash := fun _ => rfl
  have hmax : maxAltHashSize = 1024 := rfl
  rw [Endorsement.toVbkEncoding, deserializeFromVbkEncoding, Endorsement.read, hwrite, hwrite]
  apply Decodes.bind (decodes_readBlob (by omega) _).orInvalid
  apply Decodes.bind (decodes_singleByteLen (Nat.zero_le _) (by omega) hendorsed).orInvalid
  apply Decodes.bind (decodes_singleByteLen (Nat.zero_le _) (by omega) hcontaining).orInvalid
  apply Decodes.bind (decodes_readBlob (by omega) _).orInvalid
  exact .pure e

theorem toVbkEncoding_eq_none {e : AltEndorsement} (h : ¬Fits e) : e.toVbkEncoding = none := by
  have hwrite : ∀ hash : List UInt8, 255 < hash.length → writeSlice hash = none :=
    fun _ hlt => if_neg (Nat.not_le.mpr hlt)
  rw [Fits] at h
  apply concat_eq_none
  by_cases hendorsed : e.endorsedHash.length ≤ 255
  . simp [hwrite e.containingHash (by omega)]
  . simp [hwrite e.endorsedHash (by omega)]

end AltEndorsement

namespace PopState

variable {E C : Type}

theorem containingEndorsements_ofList (l : List (Endorsement E C)) :
    (ofList l).containingEndorsements = l.foldl (fun l e => OrderedMultiset.insert Endorsement.IdLt e l) [] := by
  have h : ∀ s : PopState E C, (l.foldl emplace s).containingEndorsements =
      l.foldl (fun l e => OrderedMultiset.insert Endorsement.IdLt e l) s.containingEndorsements := by
    induction l with
    | nil => exact fun _ => rfl
    | cons e l ih => exact fun s => ih (s.emplace e)
  exact h empty

theorem ofList_containingEndorsements (s : PopState E C) : ofList s.containingEndorsements = s := by
  have h : (ofList s.containingEndorsements).containingEndorsements = s.containingEndorsements := by
    rw [containingEndorsements_ofList]
    exact OrderedMultiset.foldl_insert_of_sorted _ s.sorted
  cases s
  cases hl : ofList _
  rw [hl] at h
  simp only at h
  subst h
  rfl

theorem ofList_perm (l : List (Endorsement E C)) : (ofList l).containingEndorsements.Perm l := by
  have hperm := OrderedMultiset.foldl_insert_perm Endorsement.IdLt l []
  rwa [List.append_nil, ← containingEndorsements_ofList] at hperm

/-- `Fits` tells which endorsements can be written; those are read back. -/
theorem decodesIff [Slice E] [Slice C] {m : Decoder (Endorsement E C)} {Fits : Endorsement E C → Prop}
    (h : ∀ e, Fits e → Decodes e.toVbkEncoding m e) (hn : ∀ e, ¬Fits e → e.toVbkEncoding = none) (s : PopState E C) :
    DecodesIff (s.containingEndorsements.length ≤ maxPopDataAtv ∧ ∀ e ∈ s.containingEndorsements, Fits e)
      s.toVbkEncoding (deserializeFromVbkEncoding m) s := by
  have hmax : max maxPopDataAtv maxPopDataVtb = maxPopDataAtv := rfl
  have hvalue : maxPopDataAtv = 50000 := rfl
  rw [toVbkEncoding, deserializeFromVbkEncoding, hmax]
  constructor
  . intro hs
    have hitems : Decodes (writeContainer s.containingEndorsements Endorsement.toVbkEncoding)
        (orInvalid ["popstate-bad-endorsement"] (readArrayOf (fun _ => []) 0 maxPopDataAtv m)) s.containingEndorsements :=
      (decodes_container hs.1 (by omega) (fun e he => h e (hs.2 e he))).orInvalid
    have hread := hitems.map ofList
    rwa [ofList_containingEndorsements] at hread
  . intro hs
    by_cases hlen : s.containingEndorsements.length ≤ maxPopDataAtv
    . have hbad : ∃ e ∈ s.containingEndorsements, ¬Fits e := by
        by_contra hall
        exact hs ⟨hlen, fun e he => by_contra (fun hfits => hall ⟨e, he, hfits⟩)⟩
      cases hbad with
      | intro e he =>
        have hnone : writeContainer s.containingEndorsements Endorsement.toVbkEncoding = none := by
          apply concat_eq_none
          apply List.mem_cons_of_mem
          rw [← hn e he.2]
          exact List.mem_map_of_mem he.1
        rw [hnone]
        exact .of_none
    . apply Misdecodes.of_avoids
      intro t t' ht
      cases bind_ok ht with
      | intro l hl =>
        cases hl with
        | intro u hu =>
          have hle := length_le_of_readArrayOf (orInvalid_ok.mp hu.1)
          cases hu.2
          rw [(ofList_perm l).length_eq] at hlen
          exact hlen hle

end PopState

/-- A list of ids of any length -/
theorem decodesIff_ids {n max : Nat} (hn : n ≤ 255) (hmax : max < 2 ^ 31) (reason : String) (l : List (Blob n)) :
    DecodesIff (l.length ≤ max) (writeContainer l writeSlice)
      (orInvalid [reason] (readArrayOf (fun _ => []) 0 max (readBlob n))) l :=
  (decodesIff_cappedContainer hmax (fun b _ => decodes_readBlob hn b)).orInvalid

namespace StoredBtcBlockAddon

def Fits (a : StoredBtcBlockAddon) : Prop :=
  a.blockOfProofEndorsementIds.length ≤ maxPopDataVbk ∧ a.refs.length ≤ maxBtcAddonRefs

theorem decodes_ref (value : Int32) : Decodes (writeBE 4 value.toUInt32.toNat) readRef value := by
  have hvalue : value.toUInt32.toNat < 256 ^ 4 := value.toUInt32.toNat_lt
  have hread := (decodes_readBE hvalue).map Int32.ofNat
  rwa [ofNat_toUInt32] at hread

theorem decodesIff (a : StoredBtcBlockAddon) : DecodesIff a.Fits a.toVbkEncoding deserializeFromVbkEncoding a := by
  rw [toVbkEncoding, deserializeFromVbkEncoding]
  apply DecodesIff.bind
  . exact decodesIff_ids (by omega) (by decide) _ _
  . intro _
    rw [concat_single]
    apply DecodesIff.map
    . exact (decodesIff_cappedContainer (by decide) (fun value _ => decodes_ref value)).orInvalid
    . intro x heq
      exact congrArg refs heq
  . intro x hx
    apply Avoids.bind
    intro _
    apply Avoids.pure
    intro heq
    exact hx (congrArg blockOfProofEndorsementIds heq)

end StoredBtcBlockAddon

namespace StoredVbkBlockAddon

def Fits (a : StoredVbkBlockAddon) : Prop :=
  a.endorsedByIds.length ≤ maxPopDataVbk ∧ a.blockOfProofEndorsementIds.length ≤ maxPopDataVbk ∧
    a.vtbids.length ≤ maxVbkPopTxPerVbkBlock ∧ a.popState.containingEndorsements.length ≤ maxPopDataAtv

theorem decodesIff_popState (s : PopState (Blob 24) (Blob 32)) :
    DecodesIff (s.containingEndorsements.length ≤ maxPopDataAtv) s.toVbkEncoding
      (PopState.deserializeFromVbkEncoding VbkEndorsement.deserializeFromVbkEncoding) s :=
  (PopState.decodesIff (fun e (_ : True) => VbkEndorsement.decodes e) (fun _ hn => absurd trivial hn) s).congr
    (and_iff_left (fun _ _ => trivial))

theorem decodesIff (a : StoredVbkBlockAddon) : DecodesIff a.Fits a.toVbkEncoding deserializeFromVbkEncoding a := by
  have hrefCount : a.refCount.toNat < 256 ^ 4 := a.refCount.toNat_lt
  rw [toVbkEncoding, deserializeFromVbkEncoding]
  apply DecodesIff.bind
  . exact decodesIff_ids (by omega) (by decide) _ _
  . intro _
    apply DecodesIff.bind
    . exact decodesIff_ids (by omega) (by decide) _ _
    . intro _
      apply DecodesIff.bind_right (decodes_readBE hrefCount).orInvalid
      apply DecodesIff.bind
      . exact decodesIff_ids (by omega) (by decide) _ _
      . intro _
        rw [concat_single, UInt32.ofNat_toNat]
        apply DecodesIff.map
        . exact (decodesIff_popState a.popState).orInvalid
        . intro x heq
          exact congrArg popState heq
      . intro x hx
        apply Avoids.bind
        intro _
        apply Avoids.pure
        intro heq
        exact hx (congrArg vtbids heq)
    . intro x hx
      iterate 3
        apply Avoids.bind
        intro _
      apply Avoids.pure
      intro heq
      exact hx (congrArg blockOfProofEndorsementIds heq)
  . intro x hx
    iterate 4
      apply Avoids.bind
      intro _
    apply Avoids.pure
    intro heq
    exact hx (congrArg endorsedByIds heq)

end StoredVbkBlockAddon

namespace StoredAltBlockAddon

def Fits (a : StoredAltBlockAddon) : Prop :=
  a.endorsedByIds.length ≤ maxPopDataVbk ∧ a.atvids.length ≤ maxPopDataAtv ∧ a.vtbids.length ≤ maxPopDataVtb ∧
    a.vbkblockids.length ≤ maxPopDataVbk ∧ a.popState.containingEndorsements.length ≤ maxPopDataAtv ∧
      ∀ e ∈ a.popState.containingEndorsements, AltEndorsement.Fits e

theorem decodesIff (a : StoredAltBlockAddon) : DecodesIff a.Fits a.toVbkEncoding deserializeFromVbkEncoding a := by
  rw [toVbkEncoding, deserializeFromVbkEncoding]
  apply DecodesIff.bind
  . exact decodesIff_ids (by omega) (by decide) _ _
  . intro _
    apply DecodesIff.bind
    . exact decodesIff_ids (by omega) (by decide) _ _
    . intro _
      apply DecodesIff.bind
      . exact decodesIff_ids (by omega) (by decide) _ _
      . intro _
        apply DecodesIff.bind
        . exact decodesIff_ids (by omega) (by decide) _ _
        . intro _
          rw [concat_single]
          apply DecodesIff.map
          . apply DecodesIff.orInvalid
            exact PopState.decodesIff (fun _ => AltEndorsement.decodes)
              (fun _ => AltEndorsement.toVbkEncoding_eq_none) a.popState
          . intro x heq
            exact congrArg popState heq
        . intro x hx
          apply Avoids.bind
          intro _
          apply Avoids.pure
          intro heq
          exact hx (congrArg vbkblockids heq)
      . intro x hx
        iterate 2
          apply Avoids.bind
          intro _
        apply Avoids.pure
        intro heq
        exact hx (congrArg vtbids heq)
    . intro x hx
      iterate 3
        apply Avoids.bind
        intro _
      apply Avoids.pure
      intro heq
      exact hx (congrArg atvids heq)
  . intro x hx
    iterate 4
      apply Avoids.bind
      intro _
    apply Avoids.pure
    intro heq
    exact hx (congrArg endorsedByIds heq)

end StoredAltBlockAddon

namespace StoredBlockIndex

theorem decodesIff {H A : Type} {k : BlockKind H A} {b : StoredBlockIndex H A} {P Q : Prop}
    (hheader : DecodesIff P (k.toRaw b.header) k.deserializeFromRaw b.header)
    (haddon : DecodesIff Q (k.addonToVbkEncoding b.addon) k.deserializeAddon b.addon) :
    DecodesIff (P ∧ Q) (b.toVbkEncoding k) (deserializeFromVbkEncoding k) b := by
  have hheight : b.height.toUInt32.toNat < 256 ^ 4 := b.height.toUInt32.toNat_lt
  have hstatus : b.status.toNat < 256 ^ 4 := b.status.toNat_lt
  rw [toVbkEncoding, deserializeFromVbkEncoding]
  apply DecodesIff.bind_right (decodes_readBE hheight).orInvalid
  apply DecodesIff.bind hheader.orInvalid
  . intro _
    apply DecodesIff.bind_right (decodes_readBE hstatus).orInvalid
    rw [concat_single, ofNat_toUInt32, UInt32.ofNat_toNat]
    apply DecodesIff.map haddon.orInvalid
    intro x heq
    exact congrArg addon heq
  . intro x hx
    iterate 2
      apply Avoids.bind
      intro _
    apply Avoids.pure
    intro heq
    exact hx (congrArg header heq)

end StoredBlockIndex

end AltIntegration.Serde
