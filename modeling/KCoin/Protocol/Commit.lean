import Mathlib.Data.List.Sort
import KCoin.Protocol.Block

/-!
# Commit certificates

The finality statement every precommitting validator signs, and the certificate that collects a
quorum of these signatures.
-/

open Borsh

namespace KCoin

/-- `floor(2N/3) + 1`. -/
def quorumSize (validatorCount : Nat) : Nat :=
  if validatorCount = 0 then 0 else validatorCount - (validatorCount - 1) / 3

/-- The canonical finality statement signed by every precommitting validator. -/
structure CommitVote where
  protocolVersion : UInt16
  chainId : ChainId
  height : UInt64
  round : UInt32
  blockHash : Hash32
  deriving DecidableEq

instance : Borsh CommitVote :=
  ofEquiv (fun v => (v.protocolVersion, v.chainId, v.height, v.round, v.blockHash))
    (fun (version, chain, height, round, hash) => ⟨version, chain, height, round, hash⟩)
    (fun _ => rfl) (fun _ => rfl)

namespace CommitVote

def new (chainId : ChainId) (height : UInt64) (round : UInt32) (blockHash : Hash32) : CommitVote :=
  ⟨KCoin.protocolVersion, chainId, height, round, blockHash⟩

def signingBytes (v : CommitVote) : List UInt8 := commitSignaturePrefix ++ encode v

def validateShape (v : CommitVote) : Except ValidationError Unit := do
  ensure (v.protocolVersion = KCoin.protocolVersion)
    (.unsupportedProtocolVersion KCoin.protocolVersion v.protocolVersion)
  v.chainId.validate

end CommitVote

/-- One validator's signature in a commit certificate. -/
structure CommitSignature where
  validator : ValidatorId
  signature : Bytes 64
  deriving DecidableEq

instance : Borsh CommitSignature :=
  ofEquiv (fun s => (s.validator, s.signature)) (fun (v, s) => ⟨v, s⟩) (fun _ => rfl)
    (fun _ => rfl)

/-- A quorum of precommit signatures. -/
structure CommitCertificate where
  protocolVersion : UInt16
  chainId : ChainId
  height : UInt64
  round : UInt32
  blockHash : Hash32
  signatures : List CommitSignature
  deriving DecidableEq

instance : Borsh CommitCertificate :=
  ofEquiv (fun c => (c.protocolVersion, c.chainId, c.height, c.round, c.blockHash, c.signatures))
    (fun (version, chain, height, round, hash, sigs) =>
      ⟨version, chain, height, round, hash, sigs⟩)
    (fun _ => rfl) (fun _ => rfl)

namespace CommitCertificate

/-- The signatures are kept in the order of their validators. -/
def new (vote : CommitVote) (signatures : List CommitSignature) : CommitCertificate where
  protocolVersion := vote.protocolVersion
  chainId := vote.chainId
  height := vote.height
  round := vote.round
  blockHash := vote.blockHash
  signatures := signatures.insertionSort fun a b => compare a.validator b.validator ≠ .gt

def vote (c : CommitCertificate) : CommitVote :=
  ⟨c.protocolVersion, c.chainId, c.height, c.round, c.blockHash⟩

def canonicalBytes (c : CommitCertificate) : List UInt8 := encode c

def decode (bytes : List UInt8) : Except ValidationError CommitCertificate := do
  ensure (bytes.length ≤ maxCommitCertificateBytes) .payloadTooLarge
  okOr .malformed (tryFromSlice CommitCertificate bytes)

variable [Primitives]

/-- The loop of `verify` over the signatures: the validators seen so far, and the last one. -/
def verifySignatures (authorized : BTreeSet ValidatorId) (message : List UInt8) :
    BTreeSet ValidatorId → Option ValidatorId → List CommitSignature →
      Except ValidationError (BTreeSet ValidatorId)
  | seen, _, [] => .ok seen
  | seen, previous, s :: rest => do
    ensure (s.validator ∈ authorized) .unauthorizedValidator
    ensure (s.validator ∉ seen) .duplicateValidator
    ensure (∀ v ∈ previous, compare v s.validator = .lt) .invalidCommitCertificate
    verifySignature s.validator.bytes message s.signature
    verifySignatures authorized message (seen.insert s.validator) (some s.validator) rest

def verify (c : CommitCertificate) (validators : List ValidatorId) :
    Except ValidationError Unit := do
  ensure (c.canonicalBytes.length ≤ maxCommitCertificateBytes) .payloadTooLarge
  c.vote.validateShape
  let authorized : BTreeSet ValidatorId := Std.ExtTreeSet.ofList validators compare
  -- a duplicated key would make quorum accounting ambiguous
  ensure (authorized.size ≠ 0 ∧ authorized.size = validators.length) .invalidCommitCertificate
  let required := quorumSize authorized.size
  let seen ← verifySignatures authorized c.vote.signingBytes ∅ none c.signatures
  ensure (required ≤ seen.size) (.insufficientQuorum required seen.size)

/-- The declared proposer must follow the deterministic rotation; the certificate can come from
the construction round or a later one. -/
def verifyForBlock (c : CommitCertificate) (block : Block) (validators : List ValidatorId) :
    Except ValidationError Unit := do
  ensure (c.chainId = block.header.chainId ∧ c.height = block.header.height ∧
      c.blockHash = block.consensusHash ∧ block.header.round ≤ c.round)
    .invalidCommitCertificate
  let n := validators.length
  ensure (n ≠ 0) .invalidCommitCertificate
  let heightOffset := (block.header.height.toNat - 1) % n
  let roundOffset := block.header.round.toNat % n
  let proposerIndex := (heightOffset + roundOffset) % n
  ensure (validators[proposerIndex]? = some block.header.proposer) .invalidCommitCertificate
  c.verify validators

end CommitCertificate

end KCoin
