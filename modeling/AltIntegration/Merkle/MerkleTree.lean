import AltIntegration.Data.PairTree
import AltIntegration.Crypto.Sha256
import AltIntegration.Serde.Blocks

/-!
This module contains the trees of `merkle_tree.hpp` and the paths of `merkle_path.cpp` and `vbk_merkle_path.cpp`. A
failed assertion is `none`.
-/

namespace AltIntegration.Merkle

open PairTree

variable {α : Type}

/-- `MerkleTree`: its layers, and the hashes that `hash_indices` was built from -/
structure MerkleTree (α : Type) where
  layers : List (List α)
  hashes : List α

namespace MerkleTree

section Build

-- `hash` of the specific tree, and `hash_t{}`
variable (hash : α → α → α) (zero : α)

/-- The next `n` nodes of a layer are written over the nodes below, from position `i` on. -/
def hashLayer : Nat → Nat → List α → List α
  | 0, _, layer => layer
  | n + 1, i, layer => hashLayer n (i + 1) (layer.set i (hash (layer.getD (2 * i) zero) (layer.getD (2 * i + 1) zero)))

/-- The loop of `buildTree`: `layer` is a buffer whose first `n` cells are the layer. -/
def buildLoop : Nat → Nat → List α → List (List α)
  | 0, _, _ => []
  | fuel + 1, n, layer =>
    if 1 < n then
      let layer := if n % 2 ≠ 0 then layer.set n (layer.getD (n - 1) zero) else layer
      let n := (if n % 2 ≠ 0 then n + 1 else n) / 2
      let layer := hashLayer hash zero n 0 layer
      layer.take n :: buildLoop fuel n layer
    else
      []

def buildTree (layer : List α) : List (List α) :=
  let n := layer.length
  if n = 0 then
    []
  else if n = 1 then
    [layer]
  else
    layer :: buildLoop hash zero n n (if n % 2 = 0 then layer else layer ++ [zero])

/-- The constructor -/
def new (hashes : List α) : MerkleTree α where
  layers := buildTree hash zero hashes
  hashes := hashes

end Build

variable (t : MerkleTree α)

/-- `hash_indices`: a hash that is there more than once has its last index. -/
def hashIndex [DecidableEq α] (h : α) : Option Nat :=
  t.hashes.zipIdx.foldl (fun found p => if p.1 = h then some p.2 else found) none

def getMerklePathLayers (index : Nat) : Option (List α) :=
  match t.layers with
  | [] => none
  | leafs :: rest =>
    if leafs.length = 1 then
      if rest = [] then some [] else none
    else if index < leafs.length then
      path index (leafs :: rest)
    else
      none

def getMerkleRoot (zero : α) : Option α :=
  match t.layers.getLast? with
  | none => some zero
  | some [root] => some root
  | some _ => none

end MerkleTree

/-- `MerklePath` -/
structure MerklePath (α : Type) where
  index : Nat
  subject : α
  layers : List α

def MerklePath.calculateMerkleRoot (hash : α → α → α) (p : MerklePath α) : α :=
  climb hash p.subject p.index p.layers

/-- `getMerklePath` of `BtcMerkleTree` -/
def MerkleTree.getMerklePath [DecidableEq α] (t : MerkleTree α) (h : α) : Option (MerklePath α) :=
  (t.hashIndex h).bind (fun index =>
    (t.getMerklePathLayers index).map (fun layers => { index := index, subject := h, layers := layers }))

/-- `VbkMerklePath` -/
structure VbkMerklePath (α : Type) where
  treeIndex : Nat
  index : Nat
  subject : α
  layers : List α
  deriving DecidableEq

namespace VbkMerklePath

section Climb

variable (hash : α → α → α) (size treeIndex : Nat)

/-- The side that a cursor is on at layer `i`: above the subtrees the index does not count any more. -/
def sideOf (i layerIndex : Nat) : Nat :=
  -- metapackage hash is on the left
  if i = size - 1 then 1 else if i = size - 2 then treeIndex else layerIndex

/-- The loop of `calculateMerkleRoot`, from layer `i` on -/
def climbLoop : Nat → α → Nat → List α → α
  | _, cursor, _, [] => cursor
  | i, cursor, layerIndex, layer :: layers =>
    let side := sideOf size treeIndex i layerIndex
    climbLoop (i + 1) (if side % 2 = 0 then hash cursor layer else hash layer cursor) (side / 2) layers

/-- The loop of `equalLayerIndexes`, from layer `i` on -/
def equalLoop [DecidableEq α] : Nat → α → Nat → List α → List Nat
  | _, _, _, [] => []
  | i, cursor, layerIndex, layer :: layers =>
    let side := sideOf size treeIndex i layerIndex
    let rest := equalLoop (i + 1) (if side % 2 = 0 then hash cursor layer else hash layer cursor) (side / 2) layers
    if layer = cursor then i :: rest else rest

end Climb

variable (hash : α → α → α) (p : VbkMerklePath α)

/-- `calculateMerkleRoot`, before it is trimmed -/
def calculateMerkleRoot : α := climbLoop hash p.layers.length p.treeIndex 0 p.subject p.index p.layers

def equalLayerIndexes [DecidableEq α] : List Nat :=
  equalLoop hash p.layers.length p.treeIndex 0 p.subject p.index p.layers

end VbkMerklePath

inductive TreeIndex where
  | pop
  | normal
  deriving DecidableEq, Repr

def TreeIndex.toNat : TreeIndex → Nat
  | .pop => 0
  | .normal => 1

/-- `VbkMerkleTree` -/
structure VbkMerkleTree (α : Type) where
  popTree : MerkleTree α
  normalTree : MerkleTree α

namespace VbkMerkleTree

section

variable (hash : α → α → α) (zero : α)

/-- The constructor -/
def new (normalHashes popHashes : List α) : VbkMerkleTree α where
  popTree := MerkleTree.new hash zero popHashes
  normalTree := MerkleTree.new hash zero normalHashes

variable (t : VbkMerkleTree α)

def treeOf : TreeIndex → MerkleTree α
  | .pop => t.popTree
  | .normal => t.normalTree

/-- The other tree -/
def oppositeOf : TreeIndex → MerkleTree α
  | .pop => t.normalTree
  | .normal => t.popTree

def finalizePath (layers : List α) (treeIndex : TreeIndex) : Option (List α) :=
  if layers = [] ∧ (t.oppositeOf treeIndex).layers = [] then
    some layers
  else
    -- opposite tree merkle root and metapackage hash
    ((t.oppositeOf treeIndex).getMerkleRoot zero).map (fun opposite => layers ++ [opposite] ++ [zero])

def getMerkleRoot : Option α :=
  if t.popTree.layers = [] ∧ t.normalTree.layers = [] then
    some zero
  else if t.popTree.layers.length = 1 ∧ t.normalTree.layers = [] then
    t.popTree.getMerkleRoot zero
  else if t.normalTree.layers.length = 1 ∧ t.popTree.layers = [] then
    t.normalTree.getMerkleRoot zero
  else
    (t.popTree.getMerkleRoot zero).bind (fun popHash =>
      (t.normalTree.getMerkleRoot zero).map (fun normalHash => hash zero (hash popHash normalHash)))

def getMerklePath [DecidableEq α] (h : α) (treeIndex : TreeIndex) : Option (VbkMerklePath α) :=
  ((t.treeOf treeIndex).hashIndex h).bind (fun index =>
    ((t.treeOf treeIndex).getMerklePathLayers index).bind (fun layers =>
      (t.finalizePath zero layers treeIndex).map (fun layers =>
        { treeIndex := treeIndex.toNat, index := index, subject := h, layers := layers })))

end

end VbkMerkleTree

section Hashes

open Serde

/-- `sha256` of two hashes -/
def sha256Pair (a b : Blob 32) : Blob 32 := ⟨sha256 (a.bytes ++ b.bytes), length_sha256 _⟩

/-- `sha256twice` of two hashes -/
def sha256twicePair (a b : Blob 32) : Blob 32 := ⟨sha256twice (a.bytes ++ b.bytes), length_sha256twice _⟩

/-- `trim<VBK_MERKLE_ROOT_HASH_SIZE>` -/
def trimRoot (root : Blob 32) : Blob 16 := ⟨root.bytes.take 16, by rw [List.length_take, root.size]; rfl⟩

/-- `BtcMerkleTree` -/
def btcMerkleTree (txes : List (Blob 32)) : MerkleTree (Blob 32) := MerkleTree.new sha256twicePair (Blob.zero 32) txes

/-- `getMerkleRoot` of `BtcMerkleTree` -/
def btcMerkleRoot (txes : List (Blob 32)) : Option (Blob 32) :=
  ((btcMerkleTree txes).getMerkleRoot (Blob.zero 32)).map Blob.reverse

/-- `VbkMerkleTree` of transaction ids -/
def vbkMerkleTree (normalHashes popHashes : List (Blob 32)) : VbkMerkleTree (Blob 32) :=
  VbkMerkleTree.new sha256Pair (Blob.zero 32) normalHashes popHashes

end Hashes

end AltIntegration.Merkle
