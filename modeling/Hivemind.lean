import Hivemind.Lib.Codec
import Hivemind.Lib.OrdMap
import Hivemind.Lib.Outcome
import Hivemind.Primitives.Basic
import Hivemind.Script.Script
import Hivemind.Script.Interpreter
import Hivemind.Script.InterpreterRun
import Hivemind.Primitives.Transaction
import Hivemind.Primitives.Market
import Hivemind.Script.MarketSpend
import Hivemind.Script.Standard
import Hivemind.Script.Destination
import Hivemind.TxDb.MarketTree
import Hivemind.TxDb.ListingsBasic
import Hivemind.TxDb.Listings
import Hivemind.TxDb.RoundTrip
import Hivemind.Coins.Coins
import Hivemind.Coins.Cache
import Hivemind.Validation.Transactions
import Hivemind.Validation.Balance
import Hivemind.Primitives.Block
import Hivemind.Chain.BlockIndex
import Hivemind.Chain.BlockTree
import Hivemind.Validation.Blocks
import Hivemind.Validation.BlocksSpec
import Hivemind.Validation.Supply
import Hivemind.Validation.Raises
import Hivemind.Validation.Tip
import Hivemind.Validation.MarketIndex
import Hivemind.Validation.Origins
import Hivemind.Miner.Outcome
import Hivemind.Rpc.Voting
import Hivemind.Validation.Accept
import Hivemind.Net.GetData
import Hivemind.Mempool.Pool
import Hivemind.Mempool.Accept
import Hivemind.Miner.Template
import Hivemind.Miner.Fees
import Hivemind.Validation.Selection
import Hivemind.Validation.ChainTx
import Hivemind.Validation.IndexInv
import Hivemind.Validation.Selects
import Hivemind.Validation.MostWork
import Hivemind.Validation.Candidates
import Hivemind.Validation.BlockFiles
import Hivemind.Lib.VarInt
import Hivemind.Lib.Weights
import Hivemind.Linalg.Mat
import Hivemind.Linalg.Vote
import Hivemind.Coins.Compressor
import Hivemind.Validation.Undo
import Hivemind.Validation.Restore
import Hivemind.Validation.Disconnect
import Hivemind.Lib.Forest
import Hivemind.TxDb.BlockTreeDb
import Hivemind.Chain.SkipList
import Hivemind.Validation.LoadIndex
import Hivemind.Validation.Reload
import Hivemind.Net.InFlight
import Hivemind.Primitives.WireFormat
import Hivemind.Lib.BitMask
import Hivemind.Coins.CoinsCodec
import Hivemind.Script.Machine
import Hivemind.Script.MachineSpec
import Hivemind.Script.SigOps
import Hivemind.Script.Safety
import Hivemind.Miner.VotingPeriod
import Hivemind.Miner.VoteMatrix
import Hivemind.Linalg.Calc
import Hivemind.Linalg.Scale
import Hivemind.Lib.Buckets
import Hivemind.Net.AddrMan
import Hivemind.Net.AddrBook
import Hivemind.Net.AddrSpec
import Hivemind.Net.AddrTried
import Hivemind.Net.AddrRun
import Hivemind.Net.AddrCheck
import Hivemind.Lib.States
import Hivemind.Miner.Payout
import Hivemind.Miner.Settlement
import Hivemind.Miner.Due
import Hivemind.Linalg.Bonus
import Hivemind.Linalg.Median
import Hivemind.Lib.Householder
import Hivemind.Linalg.Bidiag
import Hivemind.Lib.Givens
import Hivemind.Linalg.Svd
import Hivemind.Linalg.SvdOrder
import Hivemind.Lib.LogSumExp
import Hivemind.Primitives.Shares
import Hivemind.Primitives.AccountValue
import Hivemind.Rpc.Trading
import Hivemind.Miner.StateSpace
import Hivemind.Wallet.Amounts
import Hivemind.Mempool.Removal
import Hivemind.Lib.Ring
import Hivemind.Streams.BufferedFile
import Hivemind.Validation.BlockScan
import Hivemind.Chain.LinkTree
import Hivemind.Chain.ActiveChain
import Hivemind.Lib.Matching
import Hivemind.Script.MultiSig
import Hivemind.Lib.MerkleTree
import Hivemind.Primitives.MerkleTree
import Hivemind.Validation.MerkleRoot
import Hivemind.Net.PartialMerkleTree
import Hivemind.Script.Numbers
import Hivemind.Script.Builder
import Hivemind.Script.SignatureHash
import Hivemind.Lib.Limbs
import Hivemind.Primitives.ArithUint256
import Hivemind.Primitives.CompactTarget
import Hivemind.Chain.Retarget
import Hivemind.Lib.OrderStat
import Hivemind.Validation.MedianTime
import Hivemind.Mempool.FeeEstimator
import Hivemind.Lib.Shuffle
import Hivemind.Net.AddrEvict
import Hivemind.Lib.SetIndex
import Hivemind.Net.Orphans
import Hivemind.Lib.Radix
import Hivemind.Primitives.Base58
import Hivemind.Script.Address
import Hivemind.Primitives.VarInt
import Hivemind.Lib.ByteBits
import Hivemind.Net.Bloom
import Hivemind.Lib.Marked
import Hivemind.Primitives.AmountSum
import Hivemind.Wallet.CoinSelection
import Hivemind.Lib.Retry
import Hivemind.Wallet.CreateTransaction
import Hivemind.Net.AddrTimes
import Hivemind.Net.AddrDisk
import Hivemind.Net.AddrLoad
import Hivemind.Net.AddrReload
import Hivemind.Net.AddrPersist
import Hivemind.Chain.LastCommon
import Hivemind.Net.Download
import Hivemind.Miner.Assembly
import Hivemind.Validation.ScanRecords
import Hivemind.Validation.Import
import Hivemind.Validation.Reindex
import Hivemind.Lib.Runs
import Hivemind.Validation.CheckQueue
import Hivemind.Validation.CheckQueueInv
import Hivemind.Validation.CheckQueueRuns
import Hivemind.Lib.Frames
import Hivemind.Net.MessageHeader
import Hivemind.Net.SendQueue
import Hivemind.Net.Receive
import Hivemind.Net.Link
import Hivemind.Chain.Locator
import Hivemind.Net.Headers
import Hivemind.Net.HeaderSync
import Hivemind.Net.HeaderSyncEnds
import Hivemind.Wallet.KeyStore
import Hivemind.Wallet.Vault
import Hivemind.Wallet.Passphrase
import Hivemind.Wallet.Safe
import Hivemind.Wallet.SafeKeys
import Hivemind.Wallet.SafeRuns
import Hivemind.Wallet.KeyPool
import Hivemind.Lib.Components
import Hivemind.Wallet.Groupings
import Hivemind.Wallet.LockedPages
import Hivemind.Lib.Blocks
import Hivemind.Crypto.Hashers
import Hivemind.Crypto.Hmac
import Hivemind.Net.AskFor
