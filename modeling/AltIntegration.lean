import AltIntegration.Blockchain.TreeInvariants
import AltIntegration.Blockchain.FinalizedTree
import AltIntegration.Blockchain.BtcHeaders
import AltIntegration.Blockchain.SavedTrees
import AltIntegration.Blockchain.BodyOrder
import AltIntegration.Blockchain.AddBlock
import AltIntegration.Blockchain.Forks
import AltIntegration.Blockchain.PostorderTraversal
import AltIntegration.Blockchain.PayloadIndices
import AltIntegration.Blockchain.PayloadMutator
import AltIntegration.Blockchain.Reversals
import AltIntegration.Blockchain.Pop.KeystonePublications
import AltIntegration.Blockchain.Pop.KeystoneHeights
import AltIntegration.Serde.StoredTrees
import AltIntegration.Serde.EstimatedSize
import AltIntegration.Mempool.ValueSortedMap
import AltIntegration.Validation.SplitFormat
import AltIntegration.Validation.ContainsSplit
import AltIntegration.Validation.SplitScan
import AltIntegration.Validation.PopPublication
import AltIntegration.Validation.VbkTransaction
import AltIntegration.Blockchain.BtcRetarget
import AltIntegration.Serde.Base59
import AltIntegration.Merkle.PopDataRoot
import AltIntegration.Merkle.PopTxEstimate
import AltIntegration.Rewards.OrderIndependence
import AltIntegration.System.BtcReferences
import AltIntegration.Blockchain.PopDataTemplate
import AltIntegration.Mempool.AtvOrder
import AltIntegration.Mempool.Selection
