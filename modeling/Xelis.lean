import Xelis.Account.StoredRecords
import Xelis.Api.Query
import Xelis.Blockchain.AssetOwners
import Xelis.Blockchain.AverageBlockTime
import Xelis.Blockchain.Conservation
import Xelis.Blockchain.InBlock
import Xelis.Blockchain.InsertionErrors
import Xelis.Blockchain.Multisigs
import Xelis.Blockchain.TxsSearch
import Xelis.Blockchain.WorkScore
import Xelis.Common.Queue
import Xelis.Mempool.ChainAgreement
import Xelis.Mempool.CleanUp
import Xelis.Mempool.TxSelector
import Xelis.P2p.BootstrapChain
import Xelis.P2p.ChainValidator
import Xelis.P2p.Channel
import Xelis.P2p.KeySync
import Xelis.P2p.ObjectTracker
import Xelis.P2p.PeerBans
import Xelis.Storage.BalanceRetention
import Xelis.Storage.CommitPointRuns
import Xelis.Storage.LinkSearch
import Xelis.Storage.Retention
import Xelis.Wallet.Amount
import Xelis.Wallet.BuildOutcome
import Xelis.Wallet.ExtraData
import Xelis.Wallet.Listing
import Xelis.Wallet.Mnemonics
import Xelis.Wallet.Multisig
import Xelis.Wallet.Pending
import Xelis.Wire.ModuleRoundTrip
import Xelis.Wire.TypingErrors
