import AltIntegration.Blockchain.PayloadIndices
import AltIntegration.Serde.StoredRoundTrip

/-!
This module contains which blocks of the three trees are read back from the disk as they were written: the
blocks whose lists are not longer than the decoder accepts, if a hash of the altchain fits in a byte.
-/

namespace AltIntegration

open Program

namespace Serde

/--
The bytes behind the numbers of the trees. The hashes of the altchain have one size; only what the header of its
first block has for a previous hash may be shorter.
-/
structure Representation (altHashSize : Nat) where
  btcBlock : Block → BtcBlock
  btcHash : Hash → Blob 32
  vbkBlock : Block → VbkBlock
  vbkHash : Hash → Blob 24
  vbkId : Hash → Blob 12
  vtbId : Nat → Blob 32
  atvId : Nat → Blob 32
  altHash : Hash → List UInt8
  altPreviousHash : Block → List UInt8
  altHash_length : ∀ h, (altHash h).length = altHashSize
  altPreviousHash_length : ∀ b, (altPreviousHash b).length ≤ altHashSize

/-- The status word of `block_status.hpp`, put together again -/
def statusWord (s : BlockStatus) : UInt32 :=
  UInt32.ofNat (s.level.toNat + flag s.bootstrap 4 + flag s.failedBlock 5 + flag s.failedPop 6 + flag s.failedChild 7 +
    flag s.hasPayloads 8 + flag s.active 9 + flag s.deleted 10)
where
  flag (b : Bool) (n : Nat) : Nat := if b then 2 ^ n else 0

namespace Representation

variable {altHashSize : Nat} (rep : Representation altHashSize)

def vbkEndorsement (e : AltIntegration.Endorsement) : VbkEndorsement where
  id := rep.vtbId e.id
  endorsedHash := rep.vbkHash e.endorsedHash
  containingHash := rep.vbkHash e.containingHash
  blockOfProof := rep.btcHash e.blockOfProof

def altEndorsement (e : AltIntegration.Endorsement) : AltEndorsement where
  id := rep.atvId e.id
  endorsedHash := rep.altHash e.endorsedHash
  containingHash := rep.altHash e.containingHash
  blockOfProof := rep.vbkHash e.blockOfProof

def altBlock (b : Block) : AltBlock where
  hash := rep.altHash b.hash
  previousBlock := rep.altPreviousHash b
  timestamp := UInt32.ofNat b.timestamp
  height := Int32.ofNat b.height

def btcAddon (a : AltIntegration.StoredBtcBlockAddon) : StoredBtcBlockAddon where
  refs := a.refs.map Int32.ofNat
  blockOfProofEndorsementIds := a.blockOfProofEndorsementIds.map rep.vtbId

def vbkAddon (a : AltIntegration.StoredVbkBlockAddon) : StoredVbkBlockAddon where
  refCount := UInt32.ofNat a.refCount
  vtbids := a.vtbids.map rep.vtbId
  blockOfProofEndorsementIds := a.blockOfProofEndorsementIds.map rep.atvId
  endorsedByIds := a.endorsedByIds.map rep.vtbId
  popState := PopState.ofList (a.containingEndorsements.map rep.vbkEndorsement)

def altAddon (a : AltIntegration.StoredAltBlockAddon) : StoredAltBlockAddon where
  atvids := a.atvids.map rep.atvId
  vtbids := a.vtbids.map rep.vtbId
  vbkblockids := a.vbkblockids.map rep.vbkId
  endorsedByIds := a.endorsedByIds.map rep.atvId
  popState := PopState.ofList (a.containingEndorsements.map rep.altEndorsement)

/-- What `toStoredBlockIndex` makes of a block, with its bytes -/
def stored {A S H T : Type} [StoredAddon A S] (header : Block → H) (addon : S → T) (b : BlockIndex A) :
    StoredBlockIndex H T where
  height := Int32.ofNat b.toStoredBlockIndex.height
  header := header b.toStoredBlockIndex.header
  status := statusWord b.toStoredBlockIndex.status
  addon := addon b.toStoredBlockIndex.addon

def storedBtc (b : BlockIndex BtcAddon) : StoredBlockIndex BtcBlock StoredBtcBlockAddon :=
  stored rep.btcBlock rep.btcAddon b

def storedVbk (b : BlockIndex VbkAddon) : StoredBlockIndex VbkBlock StoredVbkBlockAddon :=
  stored rep.vbkBlock rep.vbkAddon b

def storedAlt (b : BlockIndex AltAddon) : StoredBlockIndex AltBlock StoredAltBlockAddon :=
  stored rep.altBlock rep.altAddon b

/-- The lists of a BTC block are not longer than the decoder accepts. -/
def BtcFits (b : BlockIndex BtcAddon) : Prop :=
  b.addon.blockOfProofEndorsements.length ≤ maxPopDataVbk ∧ b.addon.refs.length ≤ maxBtcAddonRefs

/-- The nonce of a VBK block and its lists, but for the VTBs, can be written and read back. -/
def VbkFits (b : BlockIndex VbkAddon) : Prop :=
  (rep.vbkBlock b.header).NonceFits ∧ b.addon.popState.endorsedBy.length ≤ maxPopDataVbk ∧
    b.addon.blockOfProofEndorsements.length ≤ maxPopDataVbk ∧
    b.addon.popState.containingEndorsements.length ≤ maxPopDataAtv

/-- The lists of an ALT block are not longer than the decoder accepts, and a hash fits in a byte. -/
def AltFits (altHashSize : Nat) (b : BlockIndex AltAddon) : Prop :=
  altHashSize ≤ 255 ∧ b.addon.popState.endorsedBy.length ≤ maxPopDataVbk ∧ b.addon.atvids.length ≤ maxPopDataAtv ∧
    b.addon.vtbids.length ≤ maxPopDataVtb ∧ b.addon.vbkblockids.length ≤ maxPopDataVbk ∧
    b.addon.popState.containingEndorsements.length ≤ maxPopDataAtv

def BtcRoundTrips (b : BlockIndex BtcAddon) : Prop :=
  RoundTrips ((rep.storedBtc b).toVbkEncoding .btc) (StoredBlockIndex.deserializeFromVbkEncoding .btc) (rep.storedBtc b)

def VbkRoundTrips (b : BlockIndex VbkAddon) : Prop :=
  RoundTrips ((rep.storedVbk b).toVbkEncoding .vbk) (StoredBlockIndex.deserializeFromVbkEncoding .vbk) (rep.storedVbk b)

def AltRoundTrips (b : BlockIndex AltAddon) : Prop :=
  RoundTrips ((rep.storedAlt b).toVbkEncoding (.alt altHashSize))
    (StoredBlockIndex.deserializeFromVbkEncoding (.alt altHashSize)) (rep.storedAlt b)

theorem btcRoundTrips_iff (b : BlockIndex BtcAddon) : rep.BtcRoundTrips b ↔ BtcFits b := by
  have hheader := DecodesIff.of_decodes (P := True) (BtcBlock.decodes_raw (rep.btcBlock b.header)) trivial
  have haddon := StoredBtcBlockAddon.decodesIff (rep.storedBtc b).addon
  refine (StoredBlockIndex.decodesIff (b := rep.storedBtc b) (k := .btc) hheader haddon).roundTrips_iff.trans ?_
  simp [StoredBtcBlockAddon.Fits, BtcFits, storedBtc, stored, btcAddon, BlockIndex.toStoredBlockIndex, StoredAddon.toStored]

theorem vbkRoundTrips_iff (b : BlockIndex VbkAddon) :
    rep.VbkRoundTrips b ↔ rep.VbkFits b ∧ b.addon.vtbids.length ≤ maxVbkPopTxPerVbkBlock := by
  have hheader := VbkBlock.decodesIff_raw (rep.vbkBlock b.header)
  have haddon := StoredVbkBlockAddon.decodesIff (rep.storedVbk b).addon
  refine (StoredBlockIndex.decodesIff (b := rep.storedVbk b) (k := .vbk) hheader haddon).roundTrips_iff.trans ?_
  simp [StoredVbkBlockAddon.Fits, VbkFits, storedVbk, stored, vbkAddon, BlockIndex.toStoredBlockIndex, StoredAddon.toStored,
    (PopState.ofList_perm _).length_eq]
  tauto

theorem altEndorsement_fits (h : altHashSize ≤ 255) (l : List AltIntegration.Endorsement) :
    ∀ e ∈ (PopState.ofList (l.map rep.altEndorsement)).containingEndorsements, AltEndorsement.Fits e := by
  intro e he
  obtain ⟨e', _, rfl⟩ := List.mem_map.mp ((PopState.ofList_perm _).mem_iff.mp he)
  exact ⟨(rep.altHash_length _).trans_le h, (rep.altHash_length _).trans_le h⟩

theorem altRoundTrips_iff (b : BlockIndex AltAddon) : rep.AltRoundTrips b ↔ AltFits altHashSize b := by
  have hheader := AltBlock.decodesIff_raw altHashSize (rep.altBlock b.header)
  have haddon := StoredAltBlockAddon.decodesIff (rep.storedAlt b).addon
  refine (StoredBlockIndex.decodesIff (b := rep.storedAlt b) (k := .alt altHashSize) hheader haddon).roundTrips_iff.trans ?_
  have hfits : (rep.altBlock b.header).Fits altHashSize ↔ altHashSize ≤ 255 := by
    simp [AltBlock.Fits, altBlock, rep.altHash_length, rep.altPreviousHash_length]
  rw [hfits]
  refine and_congr_right (fun h => ?_)
  have hall : ∀ e ∈ (rep.storedAlt b).addon.popState.containingEndorsements, AltEndorsement.Fits e :=
    rep.altEndorsement_fits h b.addon.popState.containingEndorsements
  simp only [StoredAltBlockAddon.Fits, and_iff_left hall]
  simp [storedAlt, stored, altAddon, BlockIndex.toStoredBlockIndex, StoredAddon.toStored,
    (PopState.ofList_perm _).length_eq]

end Representation

end Serde

open Serde

section Runs

variable {cfg : Config} {s : AltState} {D : Permit} {t t' : Tree VbkAddon}

namespace VbkBlockTree

/-- No block has more VTBs than `addPayloadToAppliedBlock` allows. -/
def Capped (t : Tree VbkAddon) : Prop :=
  ∀ h b, t.find? h = some b → b.addon.vtbids.length ≤ AltIntegration.maxVbkPopTxPerVbkBlock

theorem Capped.update {h : Hash} {f : BlockIndex VbkAddon → BlockIndex VbkAddon} (ht : Capped t)
    (hf : ∀ b, t.find? h = some b → (f b).addon.vtbids.length ≤ AltIntegration.maxVbkPopTxPerVbkBlock) :
    Capped (t.update h f) := by
  intro x b' hb'
  rw [Tree.find?_update] at hb'
  split at hb'
  . next heq =>
    obtain ⟨b, hb, rfl⟩ := Option.map_eq_some_iff.mp hb'
    exact hf b (heq ▸ hb)
  . exact ht x b' hb'

theorem Capped.of_blocks_eq (ht : Capped t) (h : t'.blocks = t.blocks) : Capped t' := by
  intro x b hb
  refine ht x b ?_
  unfold Tree.find?
  rw [← h]
  exact hb

theorem Capped.change (ht : Capped t) (h : Tree.Change D vbkRules t t') : Capped t' := by
  cases h with
  | fields hb _ _ _ _ => exact ht.of_blocks_eq hb
  | block hf =>
    refine ht.update (fun b hb => ?_)
    have hids := (hf b hb).payloadIds
    have hlen := congrArg List.length hids
    simp only [vbkRules, VbkAddon.indexedIds, List.length_map] at hlen
    rw [hlen]
    exact ht _ b hb
  | create _ _ _ =>
    intro x b hb
    rw [Tree.find?_createBlockIndex] at hb
    split at hb
    . cases hb
      exact Nat.zero_le _
    . exact ht x b hb
  | @delete h b _ _ _ =>
    obtain ⟨_, _, hobr⟩ := vbkRules_releases.onBeforeLeafRemoved b
    refine Capped.update (ht.of_blocks_eq ?_) (fun _ _ => Nat.zero_le _)
    rw [hobr]
  | payloads _ h =>
    cases h with
    | insert pid hb _ hroom =>
      unfold insertPayloadId Tree.updateAddon
      refine Capped.of_blocks_eq (ht.update (fun b' hb' => ?_)) (addToPayloadsIndex_blocks _ _ _)
      rw [hb] at hb'
      cases hb'
      show (_ ++ [pid]).length ≤ _
      rw [List.length_append]
      exact hroom
    | remove x pid =>
      have hcut : Capped (t.updateAddon x (fun a => { a with vtbids := a.vtbids.erase pid })) :=
        ht.update (fun b hb => (List.length_erase_le).trans (ht _ b hb))
      exact hcut.of_blocks_eq rfl
  | drafts _ _ h => exact h.elim

theorem Capped.changes (ht : Capped t) (h : Tree.Changes D vbkRules t t') : Capped t' := by
  induction h with
  | refl => exact ht
  | tail _ hc ih => exact ih.change hc

end VbkBlockTree

theorem Reachable.capped (hs : Reachable cfg s) : VbkBlockTree.Capped s.sp.vbk := by
  obtain ⟨b, h⟩ := hs.changes
  refine VbkBlockTree.Capped.changes (t := (b.roots cfg).sp.vbk) (fun x b' hb' => ?_) h.sp.vbk
  unfold Tree.find? at hb'
  rw [show (b.roots cfg).sp.vbk.blocks = Store.empty.insert _ _ from rfl, Store.find?_insert] at hb'
  split at hb'
  . cases hb'
    exact Nat.zero_le _
  . cases hb'

end Runs

namespace Small

/-- All hashes of the altchain have `n` bytes. -/
def zeros (n : Nat) : Representation n where
  btcBlock _ := ⟨0, .zero 32, .zero 32, 0, 0, 0⟩
  btcHash _ := .zero 32
  vbkBlock _ := ⟨0, 0, .zero 12, .zero 9, .zero 9, .zero 16, 0, 0, 0⟩
  vbkHash _ := .zero 24
  vbkId _ := .zero 12
  vtbId _ := .zero 32
  atvId _ := .zero 32
  altHash _ := List.replicate n 0
  altPreviousHash _ := List.replicate n 0
  altHash_length _ := List.length_replicate
  altPreviousHash_length _ := List.length_replicate.le

end Small

end AltIntegration
