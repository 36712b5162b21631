import KCoin.Lib.Merkle
import KCoin.Protocol.Transaction

/-!
# Blocks

An ordered batch of transactions and the header that commits to them. The block hash covers the
header alone; the header commits to the transactions by a Merkle root over their identities and to
the state after them by a state root.
-/

open Borsh

namespace KCoin

/-- Canonical block metadata, including the declared proposer slot and construction round. -/
structure BlockHeader where
  protocolVersion : UInt16
  chainId : ChainId
  height : UInt64
  parentHash : Hash32
  proposer : ValidatorId
  round : UInt32
  timestampMs : UInt64
  transactionsRoot : Hash32
  stateRoot : Hash32
  deriving DecidableEq

instance : Borsh BlockHeader :=
  ofEquiv
    (fun h => (h.protocolVersion, h.chainId, h.height, h.parentHash, h.proposer, h.round,
      h.timestampMs, h.transactionsRoot, h.stateRoot))
    (fun (version, chain, height, parent, proposer, round, time, txs, state) =>
      ⟨version, chain, height, parent, proposer, round, time, txs, state⟩)
    (fun _ => rfl) (fun _ => rfl)

/-- An ordered batch of transactions and the header that commits to them. -/
structure Block where
  header : BlockHeader
  transactions : List SignedTransaction
  deriving DecidableEq

instance : Borsh Block :=
  ofEquiv (fun b => (b.header, b.transactions)) (fun (h, t) => ⟨h, t⟩) (fun _ => rfl)
    (fun _ => rfl)

section
variable [Primitives]

/-- The leaves of the transaction tree. -/
def merkleLeaves (transactions : List SignedTransaction) : List Hash32 :=
  transactions.map fun t => hashBytes merkleLeafDomain t.id.bytes.toList

/-- Deterministic binary Merkle root over transaction identities. Odd levels duplicate their
final node; an empty block has a constant root of its own domain. -/
def merkleRoot (transactions : List SignedTransaction) : Hash32 :=
  if transactions.isEmpty then hashBytes merkleEmptyDomain []
  else (Merkle.root (hashPair merkleNodeDomain) (merkleLeaves transactions)).getD Hash32.zero

namespace Block

def new (chainId : ChainId) (height : UInt64) (parentHash : Hash32) (proposer : ValidatorId)
    (round : UInt32) (timestampMs : UInt64) (stateRoot : Hash32)
    (transactions : List SignedTransaction) : Block where
  header :=
    { protocolVersion := KCoin.protocolVersion
      chainId, height, parentHash, proposer, round, timestampMs
      transactionsRoot := merkleRoot transactions
      stateRoot }
  transactions

/-- Canonical finalized block hash used by parent links and explorer identities. -/
def hash (b : Block) : Hash32 := hashBytes blockHashDomain (encode b.header)

/-- The value voted on by consensus: the canonical block identity. -/
def consensusHash (b : Block) : Hash32 := b.hash

omit [Primitives] in
def canonicalBytes (b : Block) : List UInt8 := encode b

def validateCommitments (b : Block) : Except ValidationError Unit := do
  ensure (b.canonicalBytes.length ≤ maxBlockBytes) .payloadTooLarge
  ensure (b.header.protocolVersion = KCoin.protocolVersion)
    (.unsupportedProtocolVersion KCoin.protocolVersion b.header.protocolVersion)
  b.header.chainId.validate
  ensure (merkleRoot b.transactions = b.header.transactionsRoot) .invalidTransactionsRoot

def decode (bytes : List UInt8) : Except ValidationError Block := do
  ensure (bytes.length ≤ maxBlockBytes) .payloadTooLarge
  let b ← okOr .malformed (tryFromSlice Block bytes)
  b.validateCommitments
  return b

/-- What the commitment check checks. -/
theorem validateCommitments_eq_ok {b : Block} : b.validateCommitments = .ok () ↔
    b.canonicalBytes.length ≤ maxBlockBytes ∧
      b.header.protocolVersion = KCoin.protocolVersion ∧
      b.header.chainId.validate = .ok () ∧
      merkleRoot b.transactions = b.header.transactionsRoot := by
  simp [validateCommitments, Except.bind_eq_ok, Unique.exists_iff]

omit [Primitives] in
/-- The header of a block with a valid chain identifier fits its length prefixes. -/
theorem fits_header {b : Block} (h : b.header.chainId.validate = .ok ()) : Fits b.header :=
  ⟨trivial, ChainId.fits_of_validate h, trivial, trivial, trivial, trivial, trivial, trivial,
    trivial⟩

end Block

/-- The root of a nonempty list of transactions is the root of the tree over its leaves. -/
theorem merkleRoot_eq {transactions : List SignedTransaction} (h : transactions ≠ []) :
    Merkle.root (hashPair merkleNodeDomain) (merkleLeaves transactions) =
      some (merkleRoot transactions) := by
  have hne : merkleLeaves transactions ≠ [] := by simpa [merkleLeaves] using h
  obtain ⟨r, hr⟩ := Option.isSome_iff_exists.1 (Merkle.root_isSome (hashPair merkleNodeDomain) hne)
  simp [merkleRoot, h, hr]

end

end KCoin
