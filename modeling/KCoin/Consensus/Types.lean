import KCoin.Protocol.Commit

/-!
# Consensus messages

The validator set, the proposals and votes of the consensus protocol, the bytes that are signed
for them, and the events and effects by which the engine talks to the node. A block identity is
the canonical block hash and a validator identity its public key, the types of the protocol.
-/

open Borsh

namespace KCoin

abbrev Height := UInt64
abbrev Round := UInt32

/-- The hash of a proposed application block. -/
abbrev BlockId := Hash32

/-! ## Validators -/

inductive ValidatorSetError
  | empty
  | duplicate (validator : ValidatorId)
  deriving DecidableEq

/-- A fixed validator set of equal voting power. -/
structure ValidatorSet where
  validators : List ValidatorId
  nonempty : validators ≠ []
  nodup : validators.Nodup

namespace ValidatorSet

/-- The validators of a list without duplicates. -/
def new (validators : List ValidatorId) : Except ValidatorSetError ValidatorSet :=
  if h : validators = [] then .error .empty
  else if hd : validators.Nodup then .ok ⟨validators, h, hd⟩
  else
    -- the first validator that was seen before
    .error (.duplicate ((validators.zipIdx.find? fun (v, i) => v ∈ validators.take i).elim
      (validators.head h) Prod.fst))

variable (s : ValidatorSet)

def contains (v : ValidatorId) : Bool := v ∈ s.validators

def len : Nat := s.validators.length

def quorum : Nat := quorumSize s.validators.length

theorem len_pos : 0 < s.len := List.length_pos_of_ne_nil s.nonempty

theorem quorum_pos : 0 < s.quorum := by
  have hlen := s.len_pos
  unfold len at hlen
  unfold quorum quorumSize
  split <;> omega

/-- Height is one-based, so validator zero proposes height one, round zero. The sum wraps at the
size of a machine word. -/
def proposer (height : Height) (round : Round) : ValidatorId :=
  s.validators.get ⟨(height.toNat - 1 + round.toNat) % 2 ^ 64 % s.len, Nat.mod_lt _ s.len_pos⟩

theorem proposer_mem (height : Height) (round : Round) : s.proposer height round ∈ s.validators :=
  List.get_mem _ _

end ValidatorSet

/-! ## Votes and proposals -/

inductive VoteKind
  | prevote
  | precommit
  deriving DecidableEq

inductive VoteValue
  | nil
  | block (id : BlockId)
  deriving DecidableEq

/-- `nil` comes before every block. -/
instance : SortKey VoteValue where
  key
    | .nil => [0]
    | .block id => 1 :: SortKey.key id
  key_injective
    | .nil, .nil, _ => rfl
    | .block a, .block b, h => by
      rw [List.cons.injEq] at h
      rw [SortKey.key_injective h.2]

structure Vote where
  chainId : String
  height : Height
  round : Round
  kind : VoteKind
  validator : ValidatorId
  value : VoteValue
  deriving DecidableEq

structure SignedVote where
  vote : Vote
  signature : List UInt8
  deriving DecidableEq

structure Proposal where
  chainId : String
  height : Height
  round : Round
  proposer : ValidatorId
  blockId : BlockId
  /-- The earlier round in which this block obtained a prevote quorum. -/
  validRound : Option Round
  /-- Distinct signed prevotes proving `validRound`. -/
  validRoundProof : List SignedVote
  deriving DecidableEq

structure SignedProposal where
  proposal : Proposal
  signature : List UInt8
  deriving DecidableEq

inductive SignableMessage
  | proposal (p : Proposal)
  | vote (v : Vote)
  deriving DecidableEq

inductive SignedMessage
  | proposal (p : SignedProposal)
  | vote (v : SignedVote)
  deriving DecidableEq

def SignableMessage.height : SignableMessage → Height
  | .proposal p => p.height
  | .vote v => v.height

def SignableMessage.round : SignableMessage → Round
  | .proposal p => p.round
  | .vote v => v.round

def SignedMessage.signable : SignedMessage → SignableMessage
  | .proposal p => .proposal p.proposal
  | .vote v => .vote v.vote

def SignedMessage.signature : SignedMessage → List UInt8
  | .proposal p => p.signature
  | .vote v => v.signature

/-! ### Canonical bytes -/

instance : Borsh VoteKind :=
  @ofEquiv (Unit ⊕ Unit) _ (either Unit Unit)
    (fun | .prevote => .inl () | .precommit => .inr ())
    (fun | .inl _ => .prevote | .inr _ => .precommit)
    (by rintro (_ | _) <;> rfl) (by rintro (_ | _) <;> rfl)

instance : Borsh VoteValue :=
  @ofEquiv (Unit ⊕ BlockId) _ (either Unit BlockId)
    (fun | .nil => .inl () | .block id => .inr id)
    (fun | .inl _ => .nil | .inr id => .block id)
    (by rintro (_ | _) <;> rfl) (by rintro (_ | _) <;> rfl)

instance : Borsh Vote :=
  ofEquiv (fun v => (v.chainId, v.height, v.round, v.kind, v.validator, v.value))
    (fun (chain, height, round, kind, validator, value) =>
      ⟨chain, height, round, kind, validator, value⟩)
    (fun _ => rfl) (fun _ => rfl)

instance : Borsh SignedVote :=
  ofEquiv (fun v => (v.vote, v.signature)) (fun (v, s) => ⟨v, s⟩) (fun _ => rfl) (fun _ => rfl)

instance : Borsh Proposal :=
  ofEquiv
    (fun p => (p.chainId, p.height, p.round, p.proposer, p.blockId, p.validRound,
      p.validRoundProof))
    (fun (chain, height, round, proposer, block, valid, proof) =>
      ⟨chain, height, round, proposer, block, valid, proof⟩)
    (fun _ => rfl) (fun _ => rfl)

instance : Borsh SignedProposal :=
  ofEquiv (fun p => (p.proposal, p.signature)) (fun (p, s) => ⟨p, s⟩) (fun _ => rfl)
    (fun _ => rfl)

instance : Borsh SignableMessage :=
  @ofEquiv (Proposal ⊕ Vote) _ (either Proposal Vote)
    (fun | .proposal p => .inl p | .vote v => .inr v)
    (fun | .inl p => .proposal p | .inr v => .vote v)
    (by rintro (_ | _) <;> rfl) (by rintro (_ | _) <;> rfl)

instance : Borsh SignedMessage :=
  @ofEquiv (SignedProposal ⊕ SignedVote) _ (either SignedProposal SignedVote)
    (fun | .proposal p => .inl p | .vote v => .inr v)
    (fun | .inl p => .proposal p | .inr v => .vote v)
    (by rintro (_ | _) <;> rfl) (by rintro (_ | _) <;> rfl)

/-- The bytes an external signer signs, unless the chain identifier of a block precommit is
invalid. A block precommit uses the commit domain of the protocol, so that its signature can enter
a protocol certificate; every other message uses its Borsh encoding. -/
def SignableMessage.signingBytes : SignableMessage → Option (List UInt8)
  | .vote ⟨chainId, height, round, .precommit, _, .block blockId⟩ =>
    match ChainId.new chainId with
    | .ok chainId => some (CommitVote.new chainId height round blockId).signingBytes
    | .error _ => none
  | m => some (encode m)

/-! ## Certificates -/

structure ConsensusCommitCertificate where
  chainId : String
  height : Height
  round : Round
  blockId : BlockId
  precommits : List SignedVote
  deriving DecidableEq

/-! ## Timers -/

inductive Phase
  | propose
  | prevote
  | precommit
  | finalized
  deriving DecidableEq

/-- A length of time in nanoseconds. -/
abbrev Duration := Nat

/-- The longest duration: the largest number of seconds, and the nanoseconds below one more. -/
def Duration.max : Duration := (2 ^ 64 - 1) * 1000000000 + 999999999

def Duration.fromMillis (ms : Nat) : Duration := ms * 1000000

structure ConsensusConfig where
  chainId : String
  proposeTimeout : Duration
  prevoteTimeout : Duration
  precommitTimeout : Duration
  /-- Linear timeout increase per round. -/
  timeoutStep : Duration
  /-- Number of rounds of proposals and votes retained in memory. -/
  maxCachedRounds : Nat
  /-- Maximum future-round distance accepted into bounded caches. -/
  maxRoundAhead : Round
  /-- Absolute defense against an infinitely advancing height. -/
  maxRoundsPerHeight : Round
  maxSignatureBytes : Nat
  deriving DecidableEq

namespace ConsensusConfig

def forChain (chainId : String) : ConsensusConfig where
  chainId
  proposeTimeout := .fromMillis 800
  prevoteTimeout := .fromMillis 500
  precommitTimeout := .fromMillis 500
  timeoutStep := .fromMillis 100
  maxCachedRounds := 64
  maxRoundAhead := 16
  maxRoundsPerHeight := 10000
  maxSignatureBytes := 128

/-- The timeout of a phase, with saturating arithmetic. -/
def timeoutFor (c : ConsensusConfig) (phase : Phase) (round : Round) : Duration :=
  let base := match phase with
    | .propose => c.proposeTimeout
    | .prevote => c.prevoteTimeout
    | .precommit => c.precommitTimeout
    | .finalized => 0
  let step := min (c.timeoutStep * round.toNat) Duration.max
  min (base + step) Duration.max

end ConsensusConfig

structure Timeout where
  height : Height
  round : Round
  phase : Phase
  after : Duration
  deriving DecidableEq

/-! ## Events and effects -/

/-- What a validator keeps on disk with each signing decision. -/
structure SafetyState where
  height : Height
  /-- Round containing the most recent durable local signing decision. -/
  round : Round
  lockedRound : Option Round
  lockedBlock : Option BlockId
  /-- Most recent round in which this validator authenticated a prevote quorum. -/
  validRound : Option Round
  validBlock : Option BlockId
  validRoundProof : List SignedVote
  deriving DecidableEq

inductive Event
  /-- Begin round zero. -/
  | start
  /-- The application built the block requested by `requestProposal`. -/
  | proposalReady (height : Height) (round : Round) (blockId : BlockId)
  /-- A signed proposal or vote received from the network. -/
  | message (m : SignedMessage)
  /-- A local message after it and the accompanying safety state were durably stored. -/
  | persisted (m : SignedMessage)
  /-- A scheduled timeout firing. -/
  | timeout (t : Timeout)
  /-- A complete certificate, including one learned long after its round. -/
  | certificate (c : ConsensusCommitCertificate)
  deriving DecidableEq

structure Finalization where
  height : Height
  round : Round
  blockId : BlockId
  certificate : ConsensusCommitCertificate
  deriving DecidableEq

inductive Evidence
  | doubleVote (validator : ValidatorId) (first second : SignedVote)
  | doubleProposal (proposer : ValidatorId) (first second : SignedProposal)
  deriving DecidableEq

inductive Effect
  /-- Ask the application to construct a block for the local proposer. -/
  | requestProposal (height : Height) (round : Round) (validBlock : Option BlockId)
      (validRound : Option Round)
  /-- Sign and atomically persist this message and safety state before acknowledging it. -/
  | persistBeforeBroadcast (message : SignableMessage) (safetyState : SafetyState)
  /-- Safe to send because a matching `persisted` event was received first. -/
  | broadcast (m : SignedMessage)
  | scheduleTimeout (t : Timeout)
  | finalize (f : Finalization)
  | evidence (e : Evidence)
  deriving DecidableEq

end KCoin
