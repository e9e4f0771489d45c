import MobileCoin.Lib.PrefixCode
import MobileCoin.Lib.HashTree
import MobileCoin.Lib.U64
import MobileCoin.Lib.Except
import MobileCoin.Lib.Table
import MobileCoin.Lib.Swap
import MobileCoin.Digestible.Transcript
import MobileCoin.Digestible.PrefixFree
import MobileCoin.MembershipProofs.Proof
import MobileCoin.MembershipProofs.Verify
import MobileCoin.MembershipProofs.Derive
import MobileCoin.LedgerDb.Error
import MobileCoin.LedgerDb.TxOutStore
import MobileCoin.LedgerDb.TxOutStoreInvariant
import MobileCoin.LedgerDb.TxOutStoreProofs
import MobileCoin.ConsensusEnclave.CtTokenMap
import MobileCoin.ConsensusEnclave.FormBlock
import MobileCoin.ConsensusEnclave.FeeConservation
import MobileCoin.LedgerDb.MintConfigStore
import MobileCoin.LedgerDb.LedgerDB
import MobileCoin.LedgerDb.AppendBlock
import MobileCoin.Lib.FirstMatch
import MobileCoin.LedgerDb.MintLimits
import MobileCoin.LedgerDb.Run
import MobileCoin.Lib.Fresh
import MobileCoin.ConsensusEnclave.BlockContents
import MobileCoin.Lib.Pedersen
import MobileCoin.RingCt.Verify
import MobileCoin.RingCt.Conservation
import MobileCoin.Scp.Ballot
import MobileCoin.Scp.QuorumSet
import MobileCoin.Scp.Msg
import MobileCoin.Scp.Slot
import MobileCoin.Scp.Phases
import MobileCoin.Lib.Run
import MobileCoin.Lib.Through
import MobileCoin.Scp.Handlers
import MobileCoin.Scp.SlotFrame
import MobileCoin.Scp.SlotNomination
import MobileCoin.Scp.SlotCalls
import MobileCoin.Scp.SlotRun
import MobileCoin.Scp.NodeRun
import MobileCoin.Scp.QuorumSearch
import MobileCoin.Scp.QuorumSlices
import MobileCoin.Scp.SearchSpec
import MobileCoin.Scp.Unblocking
import MobileCoin.Lib.Compare
import MobileCoin.Scp.QuorumSetOrd
import MobileCoin.Scp.QuorumSetEq
import MobileCoin.Util.VecMap
import MobileCoin.TxSummary.Report
import MobileCoin.TxSummary.Verifier
import MobileCoin.TxSummary.SigningDigest
import MobileCoin.Lib.TreeIndex
import MobileCoin.Oram.Storage
import MobileCoin.Oram.Integrity
import MobileCoin.Oram.Run
import MobileCoin.Lib.Counter
import MobileCoin.Oram.Nonce
import MobileCoin.Transaction.PartialFill
import MobileCoin.Mobilecoind.Payments
import MobileCoin.Lib.BestSelection
import MobileCoin.SamplePaykit.InputSelection
import MobileCoin.ConsensusService.Combine
import MobileCoin.ConsensusService.MintCombine
import MobileCoin.Scp.Weight
import MobileCoin.Multisig.SignerSet
import MobileCoin.FogView.BlockTracker
import MobileCoin.FogView.Run
import MobileCoin.Multisig.Verify
import MobileCoin.ConsensusService.Worker
import MobileCoin.ConsensusService.WorkerNode
import MobileCoin.ConsensusService.WorkerNodeRun
import MobileCoin.Transaction.Validate
import MobileCoin.Transaction.ValidateSpec
