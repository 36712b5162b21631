import KCoin.Lib.Bytes
import KCoin.Lib.Borsh
import KCoin.Lib.Base64
import KCoin.Lib.Bech32
import KCoin.Lib.Fallible
import KCoin.Lib.Merkle
import KCoin.Lib.OrderedMap
import KCoin.Lib.Quorum
import KCoin.Protocol.Accountability
import KCoin.Protocol.TransactionsRoot
import KCoin.Protocol.Codec
import KCoin.Protocol.Applicability
import KCoin.Protocol.Issuance
import KCoin.Protocol.Order
import KCoin.Protocol.Supply
import KCoin.Consensus.Returned
import KCoin.Wallet.Bech32
import KCoin.Wallet.Transaction
import KCoin.Node.Submission
import KCoin.Node.Domains
import KCoin.Node.Handlers
import KCoin.Node.Mempool
import KCoin.Node.Sync
import KCoin.Node.Halting
import KCoin.Node.Explorer
import KCoin.Node.CatchUp
import KCoin.Consensus.Emitted
import KCoin.Node.Safety
import KCoin.Consensus.Progress
import KCoin.Consensus.Preflight
import KCoin.Consensus.Caches
import KCoin.Consensus.Evidence
import KCoin.Node.Repetition
import KCoin.Node.Rotation
import KCoin.Node.SyncReply
import KCoin.Node.Certificates
import KCoin.Node.Equivocation
import KCoin.Lib.Cbor
import KCoin.Node.ResponseSize
import KCoin.Node.Reindex
import KCoin.Wallet.Canonical
import KCoin.Lib.Cursor
import KCoin.Node.Bootstrap
import KCoin.Node.SubmissionBody
import KCoin.Wallet.Amount
import KCoin.Consensus.Slots
import KCoin.Node.Loop
import KCoin.Lib.Pages
import KCoin.Node.Instants
import KCoin.Node.Listing
import KCoin.Node.Pagination
import KCoin.Wallet.PaginatedResource
import KCoin.Node.ActiveRow
import KCoin.Node.Conflicts
import KCoin.Node.Forks
import KCoin.Node.Verify
import KCoin.Node.NonEquivocation
import KCoin.Consensus.Concise
