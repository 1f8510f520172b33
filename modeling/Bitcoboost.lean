import Bitcoboost.Pow.Extendable
import Bitcoboost.Wallet.Bb1z
import Bitcoboost.Wallet.Invia
import Bitcoboost.Rpc.Mining
import Bitcoboost.Script.Commitment
import Bitcoboost.Script.Malleability
import Bitcoboost.Script.SoftFork
import Bitcoboost.Validation.Mutation
import Bitcoboost.Wallet.Psbt
import Bitcoboost.Validation.Reorg
import Bitcoboost.Validation.Reconsider
import Bitcoboost.Consensus.SequenceLocks
import Bitcoboost.Consensus.VersionBits
import Bitcoboost.Pow.UnsetParams
import Bitcoboost.Wallet.Backup
import Bitcoboost.Script.Multisig
import Bitcoboost.Node.MiniMiner
import Bitcoboost.Node.TemplateValidity
import Bitcoboost.Policy.V3Policy
import Bitcoboost.Pow.ChainWork
import Bitcoboost.Arith.Compact
import Bitcoboost.Chain.SkipSteps
import Bitcoboost.Chain.Locator
import Bitcoboost.Script.Tapscript
import Bitcoboost.Common.RollingBloom
import Bitcoboost.Filter.GCSFilter
import Bitcoboost.CoinSelection.Fallback
import Bitcoboost.Concurrency.CheckQueue
import Bitcoboost.Concurrency.Scheduler
import Bitcoboost.Psbt.Combine
import Bitcoboost.BlockStorage.Prune
import Bitcoboost.Util.MoneyStr
import Bitcoboost.Util.Asmap
import Bitcoboost.Crypto.Aes
