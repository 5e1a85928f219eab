import Cdx.Transaction.Types
import Cdx.Crypto.Hash
import Cdx.Config.Networks
import Cdx.Transaction.Serializer
import Cdx.Transaction.RoundTrip
import Cdx.Lib.OrderedMap
import Cdx.Script.Interpreter
import Cdx.Utxo.CoinsView
import Cdx.Blockchain.Block
import Cdx.Consensus.Checked
import Cdx.Consensus.Difficulty
import Cdx.Consensus.Rewards
import Cdx.Consensus.Validation
import Cdx.Lib.Stream
import Cdx.Storage.Blocks
import Cdx.Storage.ChainState
import Cdx.Blockchain.Blockchain
import Cdx.Blockchain.Reorg
import Cdx.Consensus.Accepted
import Cdx.Consensus.Supply
import Cdx.Storage.Lookup
import Cdx.Blockchain.Delivery
import Cdx.Lib.Transition
import Cdx.Blockchain.Active
import Cdx.Blockchain.Runs
import Cdx.Crypto.Sha256
import Cdx.Blockchain.Regtest
import Cdx.Blockchain.Invariants
import Cdx.Blockchain.SupplyBound
import Cdx.Blockchain.ChainWork
import Cdx.Blockchain.DifficultyRule
import Cdx.Consensus.Transition
import Cdx.Blockchain.History
import Cdx.Blockchain.UniqueIds
import Cdx.Blockchain.Restart
import Cdx.Blockchain.HeaviestChain
import Cdx.Consensus.SignatureHash
import Cdx.Script.P2PKH
import Cdx.Transaction.Canonical
import Cdx.Wallet.Signer
import Cdx.Storage.Directory
import Cdx.Lib.Framing
import Cdx.P2p.Protocol
import Cdx.P2p.Server
import Cdx.Mempool.Coherent
import Cdx.Node.Node
import Cdx.Node.ReorgReport
import Cdx.Mining.Miner
import Cdx.Node.Template
import Cdx.Blockchain.RetargetWindow
import Cdx.Blockchain.GenesisRule
import Cdx.Mempool.Conflicts
import Cdx.Blockchain.BlockTime
import Cdx.Mining.GenesisTool
import Cdx.Node.Headers
import Cdx.Storage.Torn
import Cdx.Lib.Labelled
import Cdx.Wallet.Backup
import Cdx.Wallet.Issued
import Cdx.Consensus.BlockWork
import Cdx.Consensus.Retarget
import Cdx.Blockchain.Merkle
import Cdx.Consensus.Schedule
import Cdx.Lib.Decimal
import Cdx.Transaction.Amount
import Cdx.Transaction.Format
import Cdx.Mining.BlockSize
import Cdx.Wallet.Balance
import Cdx.Wallet.Base58Check
import Cdx.Lib.Walk
import Cdx.Mining.Pow
import Cdx.P2p.Bounds
import Cdx.Wallet.Nonce
import Cdx.Wallet.PasswordChange
import Cdx.Node.Send
import Cdx.Wallet.Fee
import Cdx.Crypto.Division
import Cdx.Mining.ToolTarget
import Cdx.Blockchain.ForkPoint
import Cdx.Crypto.Ripemd160
import Cdx.Lib.Der
import Cdx.Lib.Pointer
import Cdx.Node.Messages
import Cdx.Node.Misbehavior
import Cdx.Rpc.Auth
import Cdx.Storage.Bson
import Cdx.Storage.BsonBounds
import Cdx.Wallet.Der
import Cdx.Lib.Simulation
import Cdx.Lib.Duplex
import Cdx.Blockchain.Reads
import Cdx.Blockchain.Growth
import Cdx.Node.Network
import Cdx.Node.CatchUp
import Cdx.Node.Answers
import Cdx.Node.Replies
import Cdx.Node.Sync
import Cdx.Node.Exchange
import Cdx.Node.MinerLoop
import Cdx.Node.MinerThread
