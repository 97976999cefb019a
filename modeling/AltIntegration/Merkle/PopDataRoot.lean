import AltIntegration.Merkle.MerklePaths

/-!
This module contains `getMerkleRoot` of `popdata.cpp` and `checkPopDataForDuplicates`, and shows that the root commits
to the ids of a body without duplicates.
-/

namespace AltIntegration.Merkle

open PairTree Serde

section Ids

variable {β : Type} [DecidableEq β]

/-- The loop of `hasDuplicateIdsOf`; `ids` are the ids inserted so far. -/
def hasDuplicateIdsOf (ids : List β) : List β → Bool
  | [] => false
  | id :: payloadIds => if id ∈ ids then true else hasDuplicateIdsOf (id :: ids) payloadIds

theorem hasDuplicateIdsOf_eq_false (ids payloadIds : List β) (h : hasDuplicateIdsOf ids payloadIds = false) :
    payloadIds.Nodup ∧ ∀ id ∈ payloadIds, id ∉ ids := by
  induction payloadIds generalizing ids with
  | nil => exact ⟨List.nodup_nil, fun _ hid => absurd hid List.not_mem_nil⟩
  | cons id payloadIds ih =>
    rw [hasDuplicateIdsOf] at h
    split at h
    . cases h
    . next hid =>
      obtain ⟨hnodup, hfresh⟩ := ih _ h
      apply And.intro
      . rw [List.nodup_cons]
        exact ⟨fun hmem => hfresh id hmem List.mem_cons_self, hnodup⟩
      . intro id' hmem
        cases hmem with
        | head => exact hid
        | tail _ hmem => exact fun hids => hfresh id' hmem (List.mem_cons_of_mem id hids)

end Ids

section PayloadsMerkleTree

/-- `hash` of `PayloadsMerkleTree`: the last bytes of the hash are kept. -/
def payloadsHash {n : Nat} (h : n ≤ 32) (a b : Blob n) : Blob n where
  bytes := (sha256twice (a.bytes ++ b.bytes)).drop (32 - n)
  size := by
    rw [List.length_drop, length_sha256twice]
    omega

/-- `getMerkleRoot` of `PayloadsMerkleTree` -/
def payloadsMerkleRoot {n : Nat} (h : n ≤ 32) (ids : List (Blob n)) : Option (Blob n) :=
  ((MerkleTree.new (payloadsHash h) (Blob.zero n) ids).getMerkleRoot (Blob.zero n)).map Blob.reverse

theorem payloadsMerkleRoot_eq {n : Nat} (h : n ≤ 32) (ids : List (Blob n)) :
    payloadsMerkleRoot h ids = some (root (payloadsHash h) (Blob.zero n) ids).reverse := by
  rw [payloadsMerkleRoot, MerkleTree.getMerkleRoot_new, Option.map_some]

end PayloadsMerkleTree

/-- A `PopData` with the ids of its payloads -/
structure PopDataIds where
  version : UInt32
  context : List (Blob 12)
  vtbs : List (Blob 32)
  atvs : List (Blob 32)

namespace PopDataIds

variable (p p' : PopDataIds)

def checkPopDataForDuplicates : Except String Unit :=
  if hasDuplicateIdsOf [] p.context then
    .error "duplicate-vbk"
  else if hasDuplicateIdsOf [] p.vtbs then
    .error "duplicate-vtb"
  else if hasDuplicateIdsOf [] p.atvs then
    .error "duplicate-atv"
  else
    .ok ()

def getMerkleRoot : Option (List UInt8) :=
  let vbytes := sha256twice (Bytes.ofNat 4 p.version.toNat)
  (payloadsMerkleRoot (Nat.le_refl 32) p.atvs).bind (fun atvMerkleRoot =>
    (payloadsMerkleRoot (Nat.le_refl 32) p.vtbs).bind (fun vtbMerkleRoot =>
      (payloadsMerkleRoot (by decide : 12 ≤ 32) p.context).map (fun vbkMerkleRoot =>
        let left := sha256twice (vbkMerkleRoot.bytes ++ vtbMerkleRoot.bytes)
        let right := sha256twice (atvMerkleRoot.bytes ++ vbytes)
        sha256twice (left ++ right))))

section Roots

def vbkRoot : Blob 12 := root (payloadsHash (by decide : 12 ≤ 32)) (Blob.zero 12) p.context

def vtbRoot : Blob 32 := root (payloadsHash (Nat.le_refl 32)) (Blob.zero 32) p.vtbs

def atvRoot : Blob 32 := root (payloadsHash (Nat.le_refl 32)) (Blob.zero 32) p.atvs

/-- What is hashed above the roots, on the left, on the right and at the top -/
def left : List UInt8 := p.vbkRoot.reverse.bytes ++ p.vtbRoot.reverse.bytes

def right : List UInt8 := p.atvRoot.reverse.bytes ++ sha256twice (Bytes.ofNat 4 p.version.toNat)

def top : List UInt8 := sha256twice p.left ++ sha256twice p.right

theorem getMerkleRoot_eq : p.getMerkleRoot = some (sha256twice p.top) := by
  unfold getMerkleRoot
  simp only [payloadsMerkleRoot_eq, Option.bind_some, Option.map_some]
  rfl

end Roots

/-- The hash functions as the roots of two bodies see them -/
structure CollisionFree : Prop where
  context : PairTree.CollisionFree (payloadsHash (by decide : 12 ≤ 32)) (Blob.zero 12) p.context p'.context
  vtbs : PairTree.CollisionFree (payloadsHash (Nat.le_refl 32)) (Blob.zero 32) p.vtbs p'.vtbs
  atvs : PairTree.CollisionFree (payloadsHash (Nat.le_refl 32)) (Blob.zero 32) p.atvs p'.atvs
  left : sha256twice p.left = sha256twice p'.left → p.left = p'.left
  right : sha256twice p.right = sha256twice p'.right → p.right = p'.right
  top : sha256twice p.top = sha256twice p'.top → p.top = p'.top

variable {p p'}

theorem nodup_of_check (h : p.checkPopDataForDuplicates = .ok ()) : p.context.Nodup ∧ p.vtbs.Nodup ∧ p.atvs.Nodup := by
  unfold checkPopDataForDuplicates at h
  split at h
  . cases h
  . next hcontext =>
    split at h
    . cases h
    . next hvtbs =>
      split at h
      . cases h
      . next hatvs =>
        rw [Bool.not_eq_true] at hcontext hvtbs hatvs
        exact ⟨(hasDuplicateIdsOf_eq_false _ _ hcontext).1, (hasDuplicateIdsOf_eq_false _ _ hvtbs).1,
          (hasDuplicateIdsOf_eq_false _ _ hatvs).1⟩

theorem reverse_injective {n : Nat} {a b : Blob n} (h : a.reverse.bytes = b.reverse.bytes) : a = b := by
  cases a
  cases b
  simpa [Blob.reverse] using h

/-- The three roots are parts of the top. -/
theorem roots_eq (hfree : CollisionFree p p') (heq : p.getMerkleRoot = p'.getMerkleRoot) :
    p.vbkRoot = p'.vbkRoot ∧ p.vtbRoot = p'.vtbRoot ∧ p.atvRoot = p'.atvRoot := by
  rw [getMerkleRoot_eq, getMerkleRoot_eq, Option.some_inj] at heq
  have htop := List.append_inj (hfree.top heq) (by rw [length_sha256twice, length_sha256twice])
  have hleft := List.append_inj (hfree.left htop.1) (by rw [Blob.size, Blob.size])
  have hright := List.append_inj (hfree.right htop.2) (by rw [Blob.size, Blob.size])
  exact ⟨reverse_injective hleft.1, reverse_injective hleft.2, reverse_injective hright.1⟩

theorem merkleRoot_commits (hcheck : p.checkPopDataForDuplicates = .ok ())
    (hcheck' : p'.checkPopDataForDuplicates = .ok ()) (hfree : CollisionFree p p') (heq : p.getMerkleRoot = p'.getMerkleRoot) :
    p.context = p'.context ∧ p.vtbs = p'.vtbs ∧ p.atvs = p'.atvs := by
  obtain ⟨hcontext, hvtbs, hatvs⟩ := nodup_of_check hcheck
  obtain ⟨hcontext', hvtbs', hatvs'⟩ := nodup_of_check hcheck'
  obtain ⟨hvbk, hvtb, hatv⟩ := roots_eq hfree heq
  exact ⟨eq_of_root_eq hcontext hcontext' hfree.context hvbk, eq_of_root_eq hvtbs hvtbs' hfree.vtbs hvtb,
    eq_of_root_eq hatvs hatvs' hfree.atvs hatv⟩

/-- A body with two blocks and a VTB -/
def sample : PopDataIds where
  version := 1
  context := [⟨[1, 0, 0, 0, 0, 0, 0, 0, 0, 0, 0, 0], rfl⟩, ⟨[2, 0, 0, 0, 0, 0, 0, 0, 0, 0, 0, 0], rfl⟩]
  vtbs := [⟨List.replicate 32 3, rfl⟩]
  atvs := []

theorem sample_collisionFree : CollisionFree sample sample where
  context := {
    injective := by
      intro a ha b hb _
      have hone : ∀ q ∈ pairs (payloadsHash (by decide : 12 ≤ 32)) (depth sample.context.length) sample.context ++
          pairs (payloadsHash (by decide : 12 ≤ 32)) (depth sample.context.length) sample.context,
          q = (sample.context[0], sample.context[1]) := by decide +kernel
      rw [hone a ha, hone b hb]
    ne_leaf := by decide +kernel
    ne_zero := by decide +kernel
    leaf_ne_zero := by decide +kernel }
  vtbs := {
    injective := by
      unfold InjectiveOn
      decide +kernel
    ne_leaf := by decide +kernel
    ne_zero := by decide +kernel
    leaf_ne_zero := by decide +kernel }
  atvs := {
    injective := by
      unfold InjectiveOn
      decide +kernel
    ne_leaf := by decide +kernel
    ne_zero := by decide +kernel
    leaf_ne_zero := by decide +kernel }
  left := fun _ => rfl
  right := fun _ => rfl
  top := fun _ => rfl

theorem merkleRoot_commits_sample : sample.checkPopDataForDuplicates = .ok () ∧ sample.context = sample.context ∧
    sample.vtbs = sample.vtbs ∧ sample.atvs = sample.atvs :=
  ⟨by decide +kernel, merkleRoot_commits (by decide +kernel) (by decide +kernel) sample_collisionFree rfl⟩

end PopDataIds

end AltIntegration.Merkle
