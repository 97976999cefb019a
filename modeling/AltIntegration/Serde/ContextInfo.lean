import AltIntegration.Crypto.Sha256
import AltIntegration.Serde.Blocks

/-!
This module contains the context that an altchain publishes with a block: `entities/keystone_container.hpp` and
`entities/context_info_container.hpp`, and the merkle root that authenticates it.
-/

namespace AltIntegration.Serde

open ReadStream

structure KeystoneContainer where
  firstPreviousKeystone : List UInt8
  secondPreviousKeystone : List UInt8
  deriving DecidableEq, Repr

namespace KeystoneContainer

/-- `MAX_ALT_HASH_SIZE` -/
def maxAltHashSize : Nat := 1024

def toVbkEncoding (c : KeystoneContainer) : Encoding :=
  concat [writeSingleByteLenValue c.firstPreviousKeystone, writeSingleByteLenValue c.secondPreviousKeystone]

def deserializeFromVbkEncoding : Decoder KeystoneContainer := do
  let first ← orInvalid ["bad-keystone1"] (readSingleByteLenValue 0 maxAltHashSize)
  let second ← orInvalid ["bad-keystone2"] (readSingleByteLenValue 0 maxAltHashSize)
  pure { firstPreviousKeystone := first, secondPreviousKeystone := second }

end KeystoneContainer

structure ContextInfoContainer where
  height : Int32
  keystones : KeystoneContainer
  deriving DecidableEq, Repr

namespace ContextInfoContainer

def toVbkEncoding (c : ContextInfoContainer) : Encoding :=
  concat [writeBE 4 c.height.toUInt32.toNat, c.keystones.toVbkEncoding]

def deserializeFromVbkEncoding : Decoder ContextInfoContainer := do
  let height ← orInvalid ["bad-height"] (readBE 4)
  let keystones ← orInvalid ["bad-keystones"] KeystoneContainer.deserializeFromVbkEncoding
  pure { height := Int32.ofNat height, keystones := keystones }

def getHash (c : ContextInfoContainer) : Encoding := c.toVbkEncoding.map sha256twice

end ContextInfoContainer

structure AuthenticatedContextInfoContainer where
  ctx : ContextInfoContainer
  stateRoot : Blob 32
  deriving DecidableEq, Repr

namespace AuthenticatedContextInfoContainer

def toVbkEncoding (c : AuthenticatedContextInfoContainer) : Encoding :=
  concat [c.ctx.toVbkEncoding, c.stateRoot.write]

/-- `read` of the stream into the bytes of a blob -/
def readStateRoot : Decoder (Blob 32) := fun s =>
  if s.hasMore 32 then (take 32 >>= Blob.assign 32) s else .error (.invalid ["read-underflow"]) s

def deserializeFromVbkEncoding : Decoder AuthenticatedContextInfoContainer := do
  let ctx ← orInvalid ["bad-ctx"] ContextInfoContainer.deserializeFromVbkEncoding
  let stateRoot ← orInvalid ["bad-stateroot"] readStateRoot
  pure { ctx := ctx, stateRoot := stateRoot }

def getTopLevelMerkleRoot (c : AuthenticatedContextInfoContainer) : Encoding :=
  c.ctx.getHash.map (fun ctxHash => sha256twice (c.stateRoot.bytes ++ ctxHash))

end AuthenticatedContextInfoContainer

theorem KeystoneContainer.decodes {c : KeystoneContainer} (hfirst : c.firstPreviousKeystone.length ≤ 255)
    (hsecond : c.secondPreviousKeystone.length ≤ 255) : Decodes c.toVbkEncoding deserializeFromVbkEncoding c := by
  have hmax : maxAltHashSize = 1024 := rfl
  rw [toVbkEncoding, deserializeFromVbkEncoding]
  apply Decodes.bind (decodes_singleByteLen (Nat.zero_le _) (by omega) hfirst).orInvalid
  apply Decodes.bind (decodes_singleByteLen (Nat.zero_le _) (by omega) hsecond).orInvalid
  exact .pure c

theorem ContextInfoContainer.decodes {c : ContextInfoContainer}
    (hkeystones : Decodes c.keystones.toVbkEncoding KeystoneContainer.deserializeFromVbkEncoding c.keystones) :
    Decodes c.toVbkEncoding deserializeFromVbkEncoding c := by
  have hheight : c.height.toUInt32.toNat < 256 ^ 4 := c.height.toUInt32.toNat_lt
  rw [toVbkEncoding, deserializeFromVbkEncoding]
  apply Decodes.bind (decodes_readBE hheight).orInvalid
  apply Decodes.bind hkeystones.orInvalid
  rw [ofNat_toUInt32]
  exact .pure c

namespace AuthenticatedContextInfoContainer

theorem decodes_readStateRoot (b : Blob 32) : Decodes b.write readStateRoot b := by
  refine ⟨b.bytes, rfl, ?_⟩
  intro before after
  have hmore := hasMore_standing before b.bytes after
  have htake := take_standing before b.bytes after
  rw [b.size] at hmore htake
  rw [readStateRoot, hmore, if_pos rfl]
  change EStateM.bind _ _ _ = _
  rw [EStateM.bind, htake]
  simp only [Blob.assign_bytes]
  rfl

/-- The context that a transaction publishes is read back, if the hashes of the keystones have a size. -/
theorem decodes {c : AuthenticatedContextInfoContainer} (hfirst : c.ctx.keystones.firstPreviousKeystone.length ≤ 255)
    (hsecond : c.ctx.keystones.secondPreviousKeystone.length ≤ 255) :
    Decodes c.toVbkEncoding deserializeFromVbkEncoding c := by
  rw [toVbkEncoding, deserializeFromVbkEncoding]
  apply Decodes.bind (ContextInfoContainer.decodes (KeystoneContainer.decodes hfirst hsecond)).orInvalid
  apply Decodes.bind (decodes_readStateRoot c.stateRoot).orInvalid
  exact .pure c

end AuthenticatedContextInfoContainer

end AltIntegration.Serde
