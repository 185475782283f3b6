import Straks.Proof.AnnouncementRelay
import Straks.Proof.BlockDownload
import Straks.Proof.BlockFiles
import Straks.Proof.BlockHashCache
import Straks.Proof.BlockTotals
import Straks.Proof.CacheUsage
import Straks.Proof.ChainWork
import Straks.Proof.CheckQueue
import Straks.Proof.CompactBlock
import Straks.Proof.DifficultyMedian
import Straks.Proof.ElectionTimes
import Straks.Proof.EntryOrder
import Straks.Proof.InFlight
import Straks.Proof.InputsSpent
import Straks.Proof.MasternodeCheck
import Straks.Proof.MempoolBijection
import Straks.Proof.MempoolLimits
import Straks.Proof.MempoolReorg
import Straks.Proof.MempoolReport
import Straks.Proof.MerkleBlock
import Straks.Proof.ModifiedEntries
import Straks.Proof.MostWorkChain
import Straks.Proof.PaymentCycle
import Straks.Proof.RankInverse
import Straks.Proof.ScriptFlags
import Straks.Proof.ScriptParsing
import Straks.Proof.SignatureEncoding
import Straks.Proof.SipHasher
import Straks.Proof.SkipList
import Straks.Proof.SporkOrder
import Straks.Proof.TransactionFormat
import Straks.Proof.TransactionsRequest
import Straks.Proof.UnlinkedBlocks
import Straks.Proof.VoteMessage
import Straks.Proof.VoteOrder
import Straks.Proof.WitnessSeason
