import KCoin.Consensus.Engine
import KCoin.Protocol.Ledger

/-!
# What nodes sign and send

The signatures of proposals and votes, the conversion of a consensus certificate to the one the
ledger verifies, the messages between nodes, and the requests by which a node that is behind
catches up. The text formats a node takes from its libraries are the class `Formats`.
-/

open Borsh

namespace KCoin

/-! ## Signatures of proposals and votes -/

section
variable [Primitives]

/-- `VerifyingKey::from_bytes`, then `verify_strict`, of a signature over the signing bytes. -/
def verifyEd25519 (signer : ValidatorId) (message : SignableMessage) (signature : List UInt8) :
    Except ConsensusValidationError Unit := do
  let signature ← okOr .invalidSignature (Bytes.ofList 64 signature)
  ensure (Primitives.validKey signer.bytes) .invalidSignature
  let bytes ← okOr (.other "chain ID is not valid for the KCoin protocol") message.signingBytes
  ensure (Primitives.verifyStrict signer.bytes bytes signature) .invalidSignature

def verifyEd25519Proposal (p : SignedProposal) : Except ConsensusValidationError Unit :=
  verifyEd25519 p.proposal.proposer (.proposal p.proposal) p.signature

def verifyEd25519Vote (v : SignedVote) : Except ConsensusValidationError Unit :=
  verifyEd25519 v.vote.validator (.vote v.vote) v.signature

end

/-- A message with a signature. -/
def signedMessage (message : SignableMessage) (signature : List UInt8) : SignedMessage :=
  match message with
  | .proposal proposal => .proposal ⟨proposal, signature⟩
  | .vote vote => .vote ⟨vote, signature⟩

@[simp] theorem signable_signedMessage (m : SignableMessage) (signature : List UInt8) :
    (signedMessage m signature).signable = m := by
  cases m <;> rfl

@[simp] theorem signature_signedMessage (m : SignableMessage) (signature : List UInt8) :
    (signedMessage m signature).signature = signature := by
  cases m <;> rfl

/-- A signed message is its message with its signature. -/
theorem signedMessage_signable (m : SignedMessage) :
    signedMessage m.signable m.signature = m := by
  cases m <;> rfl

/-- The validator that a message speaks for. -/
def SignableMessage.signer : SignableMessage → ValidatorId
  | .proposal p => p.proposer
  | .vote v => v.validator

/-! ## Certificates -/

inductive ProtocolCertificateError
  | invalidChainId
  | mismatchedPrecommit
  | invalidSignatureLength (actual : Nat)
  deriving DecidableEq

namespace ConsensusCommitCertificate

/-- One precommit of a certificate as a signature of the protocol. -/
def toProtocolSignature (c : ConsensusCommitCertificate) (precommit : SignedVote) :
    Except ProtocolCertificateError CommitSignature := do
  ensure (precommit.vote.kind = .precommit ∧ precommit.vote.value = .block c.blockId ∧
    precommit.vote.chainId = c.chainId ∧ precommit.vote.height = c.height ∧
    precommit.vote.round = c.round) .mismatchedPrecommit
  let signature ← okOr (.invalidSignatureLength precommit.signature.length)
    (Bytes.ofList 64 precommit.signature)
  return ⟨precommit.vote.validator, signature⟩

/-- Convert consensus precommits into the protocol certificate without re-signing. Quorum and
signatures remain to be checked on the result. -/
def toProtocol (c : ConsensusCommitCertificate) :
    Except ProtocolCertificateError CommitCertificate := do
  let chainId ← (ChainId.new c.chainId).mapError fun _ => .invalidChainId
  let signatures ← c.precommits.mapM c.toProtocolSignature
  return CommitCertificate.new (CommitVote.new chainId c.height c.round c.blockId) signatures

/-- Adapt a wire or persistence certificate for late-commit handling. -/
def fromProtocol (p : CommitCertificate) : ConsensusCommitCertificate where
  chainId := p.chainId.value
  height := p.height
  round := p.round
  blockId := p.blockHash
  precommits := p.signatures.map fun s =>
    { vote :=
        { chainId := p.chainId.value
          height := p.height
          round := p.round
          kind := .precommit
          validator := s.validator
          value := .block p.blockHash }
      signature := s.signature.toList }

end ConsensusCommitCertificate

/-- The validator whose turn it is to propose, by the rotation of the protocol. -/
def expectedProtocolProposer (validators : List ValidatorId) (height : UInt64) (round : UInt32) :
    Option ValidatorId :=
  if validators = [] ∨ height = 0 then none
  else
    let n := validators.length
    let heightOffset := (height.toNat - 1) % n
    let roundOffset := round.toNat % n
    validators[(heightOffset + roundOffset) % n]?

/-! ## Messages between nodes -/

/-- A finalized block and the certificate that proves it. -/
structure FinalizedWireRecord where
  block : Block
  certificate : CommitCertificate
  deriving DecidableEq

instance : Borsh FinalizedWireRecord :=
  ofEquiv (fun r => (r.block, r.certificate)) (fun (b, c) => ⟨b, c⟩) (fun _ => rfl) (fun _ => rfl)

/-- A consensus message; a proposal comes with the block it proposes. -/
inductive ConsensusWireMessage
  | proposal (signed : SignedProposal) (block : Block)
  | vote (signed : SignedVote)
  deriving DecidableEq

instance : Borsh ConsensusWireMessage :=
  @ofEquiv ((SignedProposal × Block) ⊕ SignedVote) _ (either (SignedProposal × Block) SignedVote)
    (fun | .proposal p b => .inl (p, b) | .vote v => .inr v)
    (fun | .inl (p, b) => .proposal p b | .inr v => .vote v)
    (by rintro (_ | _) <;> rfl) (by rintro (⟨_, _⟩ | _) <;> rfl)

/-- The signed message in a wire message. -/
def ConsensusWireMessage.message : ConsensusWireMessage → SignedMessage
  | .proposal signed _ => .proposal signed
  | .vote signed => .vote signed

/-- What a validator says about itself to the operators of other nodes. -/
structure ValidatorStatusMessage where
  chainId : String
  validator : ValidatorId
  index : UInt16
  height : UInt64
  round : UInt32
  phase : String
  blockHash : Bytes 32
  stateRoot : Bytes 32
  syncing : Bool
  syncTarget : Option UInt64
  timestampMs : UInt64
  deriving DecidableEq

instance : Borsh ValidatorStatusMessage :=
  ofEquiv
    (fun s => (s.chainId, s.validator, s.index, s.height, s.round, s.phase, s.blockHash,
      s.stateRoot, s.syncing, s.syncTarget, s.timestampMs))
    (fun (chain, validator, index, height, round, phase, block, state, syncing, target, time) =>
      ⟨chain, validator, index, height, round, phase, block, state, syncing, target, time⟩)
    (fun _ => rfl) (fun _ => rfl)

structure SignedValidatorStatus where
  status : ValidatorStatusMessage
  signature : List UInt8
  deriving DecidableEq

def statusSignaturePrefix : List UInt8 := utf8 "KCOIN_STATUS_V1\x00"

/-- The bytes that a validator signs for its status. -/
def validatorStatusSigningBytes (status : ValidatorStatusMessage) : List UInt8 :=
  statusSignaturePrefix ++ encode status

/-! ## Catching up -/

/-- A peer, as the bytes of its identity. -/
@[ext] structure PeerId where
  bytes : List UInt8

instance : SortKey PeerId where
  key p := p.bytes.map UInt8.toNat
  key_injective _ _ h := PeerId.ext (List.map_injective_iff.2 (fun _ _ => UInt8.toNat_inj.1) h)

inductive SyncRequest
  | status
  | blocks (fromHeight : UInt64) (limit : UInt16)
  deriving DecidableEq

/-- A request identifier assigned before the request leaves the node. -/
abbrev OutboundSyncRequestId := UInt64

/-- A request that was sent, kept together with its answer. -/
structure OutboundSyncIntent where
  requestId : OutboundSyncRequestId
  peer : PeerId
  request : SyncRequest
  deriving DecidableEq

inductive SyncResponse
  /-- The finalized tip is the encoding of a record that proves the claimed height. -/
  | status (height : UInt64) (blockHash stateRoot : String) (syncing : Bool)
      (finalizedTip : Option (List UInt8))
  | blocks (records : List (List UInt8))
  | error (code message : String)
  deriving DecidableEq

/-! ## Text -/

/-- A digit of a hexadecimal number. -/
def hexDigit (n : Nat) : Char :=
  if n < 10 then Char.ofNat (48 + n) else Char.ofNat (87 + n)

/-- Lower-case hexadecimal. -/
def hexEncode (bytes : List UInt8) : String :=
  String.ofList (bytes.flatMap fun b => [hexDigit (b.toNat / 16), hexDigit (b.toNat % 16)])

def Hash32.toText (h : Hash32) : String := hexEncode h.bytes.toList

/-- The open challenge as the explorer shows it. -/
structure ChallengeView where
  challengeId : String
  expression : String
  issuedAtHeight : String
  rewardAtoms : String
  deriving DecidableEq

/-- The text formats that a node takes from its libraries: the JSON of a safety state and of a
challenge, the Bech32m text of an address, and the debug text of evidence. What is written is read
back, and different addresses have different texts. -/
class Formats where
  safetyToVec : SafetyState → List UInt8
  safetyFromSlice : List UInt8 → Option SafetyState
  safetyFromSlice_toVec : ∀ s, safetyFromSlice (safetyToVec s) = some s
  challengeToText : ChallengeView → String
  /-- The fields `challenge_id` and `issued_at_height`, where they are strings. -/
  challengeFromText : String → Option (Option String × Option String)
  challengeFromText_toText : ∀ c,
    challengeFromText (challengeToText c) = some (some c.challengeId, some c.issuedAtHeight)
  addressToText : Address → String
  addressToText_injective : Function.Injective addressToText
  evidenceToText : Evidence → String

/-- The message of a validation failure. -/
def ValidationError.toText : ValidationError → String
  | .unsupportedProtocolVersion expected actual =>
    s!"unsupported protocol version {actual}; expected {expected}"
  | .invalidChainId => "invalid chain id"
  | .wrongChain expected actual => s!"transaction belongs to chain {actual}, not {expected}"
  | .invalidPublicKey => "public key is not a valid Ed25519 key"
  | .invalidSignature => "Ed25519 signature verification failed"
  | .duplicateTransaction => "transaction has already been applied"
  | .expired expiryHeight currentHeight =>
    s!"transaction expired at height {expiryHeight}; execution height is {currentHeight}"
  | .nonceMismatch expected actual => s!"nonce mismatch: expected {expected}, received {actual}"
  | .zeroAmount => "transfer amount must be positive"
  | .insufficientBalance available required =>
    s!"insufficient balance: available {available}, required {required}"
  | .staleChallenge expected actual =>
    s!"challenge {actual} is stale; active challenge is {expected}"
  | .wrongChallengeAnswer => "incorrect challenge answer"
  | .supplyExhausted => "the maximum KCoin supply has already been issued"
  | .invalidDisplayName => "display name is invalid"
  | .arithmeticOverflow => "integer arithmetic overflow"
  | .invalidBlockHeight expected actual =>
    s!"block height mismatch: expected {expected}, received {actual}"
  | .invalidParentHash => "block parent does not match the current tip"
  | .invalidTimestamp => "block timestamp precedes the previous finalized block"
  | .invalidTransactionsRoot => "transaction Merkle root is invalid"
  | .invalidStateRoot => "post-execution state root is invalid"
  | .invalidCommitCertificate => "commit certificate does not describe the expected block"
  | .duplicateValidator => "validator appears more than once in a commit certificate"
  | .unauthorizedValidator => "commit signature is from an unauthorized validator"
  | .insufficientQuorum required actual =>
    s!"commit certificate has {actual} signatures; quorum is {required}"
  | .malformedAddress => "address is malformed or not canonical Bech32m"
  | .malformed => "canonical payload is malformed"
  | .payloadTooLarge => "payload exceeds its protocol size limit"

def ProtocolCertificateError.toText : ProtocolCertificateError → String
  | .invalidChainId => "chain ID is not valid for the KCoin protocol"
  | .mismatchedPrecommit => "precommit does not match the certificate statement"
  | .invalidSignatureLength actual => s!"expected a 64-byte Ed25519 signature, got {actual} bytes"

/-- The slot of a message in the signer table: height, round and kind. -/
def signerSlot : SignableMessage → String
  | .proposal p => s!"{p.height}/{p.round}/proposal"
  | .vote v =>
    let kind := match v.kind with
      | .prevote => "prevote"
      | .precommit => "precommit"
    s!"{v.height}/{v.round}/{kind}"

end KCoin
