import KCoin.Lib.OrderedMap
import KCoin.Consensus.Types

/-!
# The consensus engine

One validator's deterministic consensus state for a single height, and the step function that
takes an event and returns effects. The engine does no signing, storage or networking: a message
it wants to send is emitted as `persistBeforeBroadcast`, and only after the node has stored it and
answered `persisted` is it emitted as `broadcast`.

A handler runs on the state and the list of effects pushed so far (`Running`). A failure keeps the
state it happened in, but `step` returns the effects only on success.
-/

namespace KCoin

/-! ## Errors and validation by the node -/

inductive ConsensusValidationError
  | invalidSignature
  | invalidProposal
  | invalidCertificate
  | other (message : String)
  deriving DecidableEq

inductive ConsensusError
  | zeroHeight
  | localValidatorNotFound (validator : ValidatorId)
  | invalidConfig (message : String)
  | alreadyStarted
  | notStarted
  | restoredHeightMismatch (expected actual : Height)
  | malformedSafetyState
  | restoredRoundOutOfRange (round : Round)
  | restoredDecisionSigner (expected actual : ValidatorId)
  | wrongChain (expected actual : String)
  | wrongHeight (expected actual : Height)
  | unknownValidator (validator : ValidatorId)
  | unexpectedProposer (round : Round) (expected actual : ValidatorId)
  | roundOutsideWindow (round : Round)
  | roundLimitReached (round : Round)
  | signatureTooLarge
  | invalidValidRoundProof
  | invalidCertificate
  | proposalNotRequested (height : Height) (round : Round)
  | unexpectedPersistedMessage
  | conflictingCommit (finalized received : BlockId)
  | validation (e : ConsensusValidationError)
  deriving DecidableEq

/-- Application and cryptographic validation supplied by the embedding node. -/
structure MessageValidator where
  validateProposal : SignedProposal → Except ConsensusValidationError Unit
  validateVote : SignedVote → Except ConsensusValidationError Unit
  validateCertificate : ConsensusCommitCertificate → Except ConsensusValidationError Unit

/-- The error of the node's validation as an error of the engine. -/
def validation (x : Except ConsensusValidationError Unit) : Except ConsensusError Unit :=
  x.mapError .validation

@[simp] theorem validation_eq_ok {x : Except ConsensusValidationError Unit} {u : Unit} :
    validation x = .ok u ↔ x = .ok u := by
  cases x <;> simp [validation, Except.mapError]

/-! ## State -/

/-- The signer slot of a message. -/
inductive DecisionKey
  | proposal (round : Round)
  | vote (round : Round) (kind : VoteKind)
  deriving DecidableEq

def VoteKind.index : VoteKind → Nat
  | .prevote => 0
  | .precommit => 1

/-- Proposals come before votes; then by round and kind. -/
instance : SortKey DecisionKey where
  key
    | .proposal r => [0, r.toNat]
    | .vote r k => [1, r.toNat, k.index]
  key_injective
    | .proposal _, .proposal _, h => by simp_all [UInt32.toNat_inj]
    | .vote _ k, .vote _ k', h => by
      cases k <;> cases k' <;> simp_all [UInt32.toNat_inj, VoteKind.index]

instance : SortKey (Round × VoteKind) where
  key p := [p.1.toNat, p.2.index]
  key_injective
    | (_, k), (_, k'), h => by
      cases k <;> cases k' <;> simp_all [UInt32.toNat_inj, VoteKind.index]

instance : Std.TransOrd (Round × VoteKind) := SortKey.instTransOrd

def DecisionKey.ofSignable : SignableMessage → DecisionKey
  | .proposal p => .proposal p.round
  | .vote v => .vote v.round v.kind

def DecisionKey.round : DecisionKey → Round
  | .proposal r => r
  | .vote r _ => r

/-- One validator's deterministic consensus state for a single height. -/
structure Consensus where
  localId : ValidatorId
  validators : ValidatorSet
  config : ConsensusConfig
  height : Height
  round : Round
  phase : Phase
  started : Bool
  finalized : Option Finalization
  lockedRound : Option Round
  lockedBlock : Option BlockId
  validRound : Option Round
  validBlock : Option BlockId
  validProof : List SignedVote
  proposals : BTreeMap Round SignedProposal
  votes : BTreeMap (Round × VoteKind) (BTreeMap ValidatorId SignedVote)
  requestedProposals : BTreeSet Round
  localDecisions : BTreeMap DecisionKey SignableMessage
  pendingPersistence : BTreeMap DecisionKey SignableMessage

/-- The engine while it handles an event: its state and the effects pushed so far. -/
structure Running where
  consensus : Consensus
  effects : List Effect

abbrev EngineM := EStateM ConsensusError Running

namespace Consensus

/-! ## Creation and restart -/

/-- The state in which an engine begins a height. -/
def initial (localId : ValidatorId) (validators : ValidatorSet) (height : Height)
    (config : ConsensusConfig) : Consensus where
  localId
  validators
  config
  height
  round := 0
  phase := .propose
  started := false
  finalized := none
  lockedRound := none
  lockedBlock := none
  validRound := none
  validBlock := none
  validProof := []
  proposals := ∅
  votes := ∅
  requestedProposals := ∅
  localDecisions := ∅
  pendingPersistence := ∅

def new (localId : ValidatorId) (validators : ValidatorSet) (height : Height)
    (config : ConsensusConfig) : Except ConsensusError Consensus := do
  ensure (height ≠ 0) .zeroHeight
  ensure (validators.contains localId) (.localValidatorNotFound localId)
  ensure ((ChainId.validate ⟨config.chainId⟩).isOk)
    (.invalidConfig "chain_id must be a valid KCoin protocol chain ID")
  ensure (config.maxCachedRounds ≠ 0)
    (.invalidConfig "max_cached_rounds must be greater than zero")
  ensure (config.maxRoundsPerHeight ≠ 0)
    (.invalidConfig "max_rounds_per_height must be greater than zero")
  ensure (config.maxSignatureBytes ≠ 0)
    (.invalidConfig "max_signature_bytes must be greater than zero")
  return initial localId validators height config

def validateContext (c : Consensus) (chainId : String) (height : Height) :
    Except ConsensusError Unit := do
  ensure (chainId = c.config.chainId) (.wrongChain c.config.chainId chainId)
  ensure (height = c.height) (.wrongHeight c.height height)

def validateVoteStructure (c : Consensus) (v : SignedVote) : Except ConsensusError Unit := do
  c.validateContext v.vote.chainId v.vote.height
  ensure (c.validators.contains v.vote.validator) (.unknownValidator v.vote.validator)
  ensure (v.vote.round < c.config.maxRoundsPerHeight) (.roundOutsideWindow v.vote.round)

/-- The loop over the votes of a proof or a certificate: well-formed votes of distinct validators
for one block in one round, each accepted by the node. The signers seen so far are passed on. -/
def validateVotes (c : Consensus) (V : MessageValidator) (round : Round) (kind : VoteKind)
    (block : BlockId) (malformed : ConsensusError) :
    BTreeSet ValidatorId → List SignedVote → Except ConsensusError Unit
  | _, [] => .ok ()
  | signers, v :: rest => do
    ensure (v.signature.length ≤ c.config.maxSignatureBytes) .signatureTooLarge
    c.validateVoteStructure v
    ensure (v.vote.round = round ∧ v.vote.kind = kind ∧ v.vote.value = .block block ∧
      v.vote.validator ∉ signers) malformed
    validation (V.validateVote v)
    validateVotes c V round kind block malformed (signers.insert v.vote.validator) rest

/-- The lock of a safety state is well-formed. -/
def lockIsWellFormed (s : SafetyState) : Bool :=
  match s.lockedRound, s.lockedBlock with
  | none, none => true
  | some round, some _ => round ≤ s.round
  | _, _ => false

/-- The valid value of a safety state is well-formed. -/
def validValueIsWellFormed (c : Consensus) (s : SafetyState) : Bool :=
  match s.validRound, s.validBlock with
  | none, none => s.validRoundProof.isEmpty
  | some round, some _ => round ≤ s.round && c.validators.quorum ≤ s.validRoundProof.length &&
      s.validRoundProof.length ≤ c.validators.len
  | _, _ => false

/-- The valid value of a safety state is newer than its lock, or the same. -/
def lockIsCoveredByValidValue (s : SafetyState) : Bool :=
  match s.lockedRound, s.lockedBlock, s.validRound, s.validBlock with
  | none, none, _, _ => true
  | some lockedRound, some lockedBlock, some validRound, some validBlock =>
      lockedRound < validRound || (validRound == lockedRound && validBlock == lockedBlock)
  | _, _, _, _ => false

def validateRestoredSafetyState (c : Consensus) (s : SafetyState) (V : MessageValidator) :
    Except ConsensusError Unit := do
  ensure (lockIsWellFormed s && c.validValueIsWellFormed s && lockIsCoveredByValidValue s)
    .malformedSafetyState
  match s.validRound, s.validBlock with
  | some validRound, some validBlock =>
    c.validateVotes V validRound .prevote validBlock .malformedSafetyState ∅ s.validRoundProof
  | _, _ => return ()

/-- A fresh engine with the lock and the valid value of a safety state, in the round after it. -/
def resumeFrom (c : Consensus) (s : SafetyState) : Consensus :=
  { c with
    round := s.round + 1
    lockedRound := s.lockedRound
    lockedBlock := s.lockedBlock
    validRound := s.validRound
    validBlock := s.validBlock
    validProof := s.validRoundProof }

/-- Restore the durable lock and the valid value with its proof after a restart. The validator
resumes in the round after its most recent persisted signing decision. -/
def newWithSafetyState (localId : ValidatorId) (validators : ValidatorSet) (height : Height)
    (config : ConsensusConfig) (s : SafetyState) (V : MessageValidator) :
    Except ConsensusError Consensus := do
  ensure (s.height = height) (.restoredHeightMismatch height s.height)
  -- `checked_add(1)` and the filter on the round limit fail alike
  ensure (s.round.toNat + 1 < config.maxRoundsPerHeight.toNat) (.restoredRoundOutOfRange s.round)
  let c ← new localId validators height config
  c.validateRestoredSafetyState s V
  return c.resumeFrom s

/-- The chain, the height and the signer that a local decision names. The signer of a proposal is
the proposer of its round. -/
def decisionSigner (c : Consensus) : SignableMessage →
    Except ConsensusError (String × Height × ValidatorId)
  | .proposal p => do
    let expected := c.validators.proposer c.height p.round
    ensure (p.proposer = expected) (.unexpectedProposer p.round expected p.proposer)
    return (p.chainId, p.height, p.proposer)
  | .vote v => return (v.chainId, v.height, v.validator)

/-- Reserve an already-durable local signer slot before `start`. -/
def restoreLocalDecision (c : Consensus) (m : SignableMessage) :
    Except ConsensusError Consensus := do
  ensure (c.started = false) .alreadyStarted
  let (chainId, height, signer) ← c.decisionSigner m
  c.validateContext chainId height
  ensure (signer = c.localId) (.restoredDecisionSigner c.localId signer)
  ensure (m.round < c.round ∧ m.round < c.config.maxRoundsPerHeight) .malformedSafetyState
  match c.localDecisions[DecisionKey.ofSignable m]? with
  | some existing =>
    if existing = m then return c else throw .unexpectedPersistedMessage
  | none => return { c with localDecisions := c.localDecisions.insert (.ofSignable m) m }

/-! ## Queries -/

def locked (c : Consensus) : Option (Round × BlockId) :=
  match c.lockedRound, c.lockedBlock with
  | some round, some block => some (round, block)
  | _, _ => none

def validValue (c : Consensus) : Option (Round × BlockId) :=
  match c.validRound, c.validBlock with
  | some round, some block => some (round, block)
  | _, _ => none

def safetyState (c : Consensus) : SafetyState where
  height := c.height
  round := c.round
  lockedRound := c.lockedRound
  lockedBlock := c.lockedBlock
  validRound := c.validRound
  validBlock := c.validBlock
  validRoundProof := c.validProof

def timeout (c : Consensus) (phase : Phase) : Timeout where
  height := c.height
  round := c.round
  phase
  after := c.config.timeoutFor phase c.round

/-- A round is inside the window of the caches. The lower end saturates at zero; the upper end
saturates at the largest round, which excludes none. -/
def roundIsCacheable (c : Consensus) (round : Round) : Bool :=
  let retainedBefore := UInt32.ofNat (c.config.maxCachedRounds - 1)
  c.round.toNat - retainedBefore.toNat ≤ round.toNat &&
    round.toNat ≤ c.round.toNat + c.config.maxRoundAhead.toNat

def pruneCaches (c : Consensus) : Consensus :=
  let keep := c.roundIsCacheable
  { c with
    proposals := c.proposals.filter fun round _ => keep round
    votes := c.votes.filter fun key _ => keep key.1
    requestedProposals := c.requestedProposals.filter keep
    localDecisions := c.localDecisions.filter fun key _ => keep key.round
    pendingPersistence := c.pendingPersistence.filter fun key _ => keep key.round }

/-- The cached votes of a round and kind, by validator. -/
def votesBy (c : Consensus) (round : Round) (kind : VoteKind) : BTreeMap ValidatorId SignedVote :=
  (c.votes[(round, kind)]?).getD ∅

/-- Votes by their value, in the order they come. -/
def groupByValue (votes : List SignedVote) : BTreeMap VoteValue (List SignedVote) :=
  BTreeMap.group (·.vote.value) votes

/-- The first value, with `nil` before blocks, that a quorum of the cached votes has. -/
def quorumVotes (c : Consensus) (round : Round) (kind : VoteKind) :
    Option (VoteValue × List SignedVote) :=
  (groupByValue ((c.votesBy round kind).toList.map (·.2))).toList.find? fun p =>
    c.validators.quorum ≤ p.2.length

/-- The value to prevote for a proposal, given the lock. -/
def prevoteFor (c : Consensus) (p : Proposal) : VoteValue :=
  match c.lockedRound, c.lockedBlock with
  | none, none => .block p.blockId
  | lockedRound, some locked =>
    if locked = p.blockId then .block p.blockId
    else match lockedRound, p.validRound with
      | some lockedRound, some validRound =>
        if lockedRound < validRound then .block p.blockId else .nil
      | _, _ => .nil
  | some _, none => .nil

/-! ## Updates -/

/-- Enter a local decision, pending until it is persisted. -/
def addDecision (c : Consensus) (m : SignableMessage) : Consensus :=
  { c with
    localDecisions := c.localDecisions.insert (.ofSignable m) m
    pendingPersistence := c.pendingPersistence.insert (.ofSignable m) m }

def setPhase (c : Consensus) (phase : Phase) : Consensus := { c with phase }

def setValid (c : Consensus) (round : Round) (block : BlockId) (proof : List SignedVote) :
    Consensus :=
  { c with validRound := some round, validBlock := some block, validProof := proof }

/-- Lock a block in the current round. -/
def setLock (c : Consensus) (block : BlockId) : Consensus :=
  { c with lockedRound := some c.round, lockedBlock := some block }

def setFinalized (c : Consensus) (f : Finalization) : Consensus :=
  { c with phase := .finalized, finalized := some f }

def setStarted (c : Consensus) : Consensus := { c with started := true }

/-- Enter a round: the phase is reset and what falls out of the window is forgotten. -/
def setRound (c : Consensus) (round : Round) : Consensus :=
  { c with round, phase := .propose }.pruneCaches

def insertRequest (c : Consensus) : Consensus :=
  { c with requestedProposals := c.requestedProposals.insert c.round }

def eraseRequest (c : Consensus) (round : Round) : Consensus :=
  { c with requestedProposals := c.requestedProposals.erase round }

def erasePending (c : Consensus) (key : DecisionKey) : Consensus :=
  { c with pendingPersistence := c.pendingPersistence.erase key }

def insertProposal (c : Consensus) (p : SignedProposal) : Consensus :=
  { c with proposals := c.proposals.insert p.proposal.round p }

def insertVote (c : Consensus) (v : SignedVote) : Consensus :=
  { c with
    votes := c.votes.insert (v.vote.round, v.vote.kind)
      ((c.votesBy v.vote.round v.vote.kind).insert v.vote.validator v) }

/-- The vote of the local validator in the current round. -/
def voteOf (c : Consensus) (kind : VoteKind) (value : VoteValue) : Vote where
  chainId := c.config.chainId
  height := c.height
  round := c.round
  kind
  validator := c.localId
  value

/-- The cached proposal of a round is for a block. -/
def hasProposal (c : Consensus) (round : Round) (block : BlockId) : Bool :=
  match c.proposals[round]? with
  | some p => p.proposal.blockId == block
  | none => false

/-- The certificate of a precommit quorum in the cache. -/
def certificateOf (c : Consensus) (round : Round) (blockId : BlockId)
    (precommits : List SignedVote) : ConsensusCommitCertificate where
  chainId := c.config.chainId
  height := c.height
  round
  blockId
  precommits

/-- The proof a proposal of a block in a round carries: that of the valid value, when it proposes
the valid value of an earlier round. -/
def proofFor (c : Consensus) (round : Round) (blockId : BlockId) : List SignedVote :=
  match c.validRound with
  | some validRound =>
    if validRound < round ∧ c.validBlock = some blockId then c.validProof else []
  | none => []

def proposalOf (c : Consensus) (height : Height) (round : Round) (blockId : BlockId) :
    Proposal where
  chainId := c.config.chainId
  height
  round
  proposer := c.localId
  blockId
  validRound := if (c.proofFor round blockId).isEmpty then none else c.validRound
  validRoundProof := c.proofFor round blockId

/-- The timer is the one of the current phase. -/
def isLive (c : Consensus) (t : Timeout) : Bool :=
  t.height = c.height && t.round = c.round && t.phase = c.phase &&
    t.after = c.config.timeoutFor c.phase c.round

/-! ## Validation of messages -/

def validateProposalStructure (c : Consensus) (V : MessageValidator) (signed : SignedProposal) :
    Except ConsensusError Unit := do
  let p := signed.proposal
  c.validateContext p.chainId p.height
  ensure (c.validators.contains p.proposer) (.unknownValidator p.proposer)
  let expected := c.validators.proposer c.height p.round
  ensure (p.proposer = expected) (.unexpectedProposer p.round expected p.proposer)
  ensure (p.round < c.config.maxRoundsPerHeight) (.roundOutsideWindow p.round)
  match p.validRound with
  | none => ensure (p.validRoundProof = []) .invalidValidRoundProof
  | some validRound =>
    ensure (validRound < p.round) .invalidValidRoundProof
    ensure (c.validators.quorum ≤ p.validRoundProof.length ∧
      p.validRoundProof.length ≤ c.validators.len) .invalidValidRoundProof
    c.validateVotes V validRound .prevote p.blockId .invalidValidRoundProof ∅ p.validRoundProof

def validateMessage (c : Consensus) (V : MessageValidator) (m : SignedMessage) :
    Except ConsensusError Unit := do
  ensure (m.signature.length ≤ c.config.maxSignatureBytes) .signatureTooLarge
  match m with
  | .proposal p =>
    c.validateProposalStructure V p
    validation (V.validateProposal p)
  | .vote v =>
    c.validateVoteStructure v
    validation (V.validateVote v)

def validateCertificate (c : Consensus) (V : MessageValidator) (cert : ConsensusCommitCertificate) :
    Except ConsensusError Unit := do
  c.validateContext cert.chainId cert.height
  ensure (cert.round < c.config.maxRoundsPerHeight ∧
    c.validators.quorum ≤ cert.precommits.length ∧
    cert.precommits.length ≤ c.validators.len) .invalidCertificate
  c.validateVotes V cert.round .precommit cert.blockId .invalidCertificate ∅ cert.precommits
  validation (V.validateCertificate cert)

/-- Authenticate an externally received message without changing the state: whether it is inside
the window of the caches. -/
def preflightMessage (c : Consensus) (V : MessageValidator) (m : SignedMessage) :
    Except ConsensusError Bool := do
  c.validateMessage V m
  return c.roundIsCacheable m.signable.round

end Consensus

/-! ## Handlers -/

namespace Running

/-- Push an effect. -/
def emit (r : Running) (e : Effect) : Running := { r with effects := r.effects ++ [e] }

/-- Change the state. -/
def update (r : Running) (f : Consensus → Consensus) : Running :=
  { r with consensus := f r.consensus }

/-- Enter a local decision and ask for its persistence. -/
def decide (r : Running) (m : SignableMessage) : Running :=
  (r.update (·.addDecision m)).emit
    (.persistBeforeBroadcast m (r.consensus.addDecision m).safetyState)

/-- Start the timer of the current phase. -/
def schedule (r : Running) : Running :=
  r.emit (.scheduleTimeout (r.consensus.timeout r.consensus.phase))

def phaseAfter : VoteKind → Phase
  | .prevote => .prevote
  | .precommit => .precommit

/-- Cast a vote in the current round, unless the slot is already decided. -/
def castVote (r : Running) (kind : VoteKind) (value : VoteValue) : Running :=
  if DecisionKey.vote r.consensus.round kind ∈ r.consensus.localDecisions then r
  else
    ((r.decide (.vote (r.consensus.voteOf kind value))).update
      (·.setPhase (phaseAfter kind))).schedule

/-- Remember the newest prevote quorum whose proposal is cached. -/
def learnValid (r : Running) (round : Round) (block : BlockId) (proof : List SignedVote) :
    Running :=
  if round ≤ r.consensus.round ∧ r.consensus.validRound.all (· < round) then
    r.update (·.setValid round block proof)
  else r

/-- Lock a block in the current round and precommit it. -/
def lockAndPrecommit (r : Running) (block : BlockId) : Running :=
  (r.update (·.setLock block)).castVote .precommit (.block block)

/-- Precommit the block of a prevote quorum in the current round. -/
def precommitBlock (r : Running) (round : Round) (block : BlockId) : Running :=
  if round = r.consensus.round ∧ r.consensus.phase = .prevote then r.lockAndPrecommit block else r

/-- The first half of `evaluate_round`: what a prevote quorum brings about. -/
def evaluatePrevotes (r : Running) (round : Round) : Running :=
  match r.consensus.quorumVotes round .prevote with
  | some (.block block, proof) =>
    if r.consensus.hasProposal round block then
      (r.learnValid round block proof).precommitBlock round block
    else r
  | some (.nil, _) =>
    if round = r.consensus.round ∧ r.consensus.phase = .prevote then r.castVote .precommit .nil
    else r
  | none => r

/-- Finalize the block of a certificate. -/
def finalizeWith (r : Running) (cert : ConsensusCommitCertificate) : Running :=
  (r.update (·.setFinalized ⟨cert.height, cert.round, cert.blockId, cert⟩)).emit
    (.finalize ⟨cert.height, cert.round, cert.blockId, cert⟩)

/-- The prevote for the cached proposal of the current round. -/
def prevoteCurrent (r : Running) : Running :=
  if r.consensus.phase = .propose then
    match r.consensus.proposals[r.consensus.round]? with
    | some p => r.castVote .prevote (r.consensus.prevoteFor p.proposal)
    | none => r
  else r

/-- The start of a round, with its first timer. -/
def beginRound (r : Running) (round : Round) : Running := (r.update (·.setRound round)).schedule

/-- Ask the application for a block for the current round. -/
def requestProposal (r : Running) : Running :=
  (r.update (·.insertRequest)).emit (.requestProposal r.consensus.height r.consensus.round
    r.consensus.validBlock r.consensus.validRound)

/-- Publish a message that is no longer pending. -/
def publish (r : Running) (m : SignedMessage) : Running :=
  (r.update (·.erasePending (.ofSignable m.signable))).emit (.broadcast m)

end Running

namespace EngineM

open Running Consensus

def finalize (cert : ConsensusCommitCertificate) : EngineM Unit := do
  let r ← get
  match r.consensus.finalized with
  | some f => ensure (f.blockId = cert.blockId) (.conflictingCommit f.blockId cert.blockId)
  | none => set (r.finalizeWith cert)

/-- The second half of `evaluate_round`: a precommit quorum for a block finalizes it, if the node
accepts its certificate. -/
def evaluatePrecommits (V : MessageValidator) (round : Round) : EngineM Unit := do
  let r ← get
  match r.consensus.quorumVotes round .precommit with
  | some (.block block, precommits) =>
    validation (V.validateCertificate (r.consensus.certificateOf round block precommits))
    finalize (r.consensus.certificateOf round block precommits)
  | _ => return ()

def evaluateRound (V : MessageValidator) (round : Round) : EngineM Unit := do
  modify (·.evaluatePrevotes round)
  evaluatePrecommits V round

def activateCurrentRound (V : MessageValidator) : EngineM Unit := do
  modify prevoteCurrent
  let r ← get
  evaluateRound V r.consensus.round

def enterRound (V : MessageValidator) (round : Round) : EngineM Unit := do
  let r ← get
  ensure (round < r.consensus.config.maxRoundsPerHeight) (.roundLimitReached round)
  modify (beginRound · round)
  let r ← get
  if round ∈ r.consensus.proposals then activateCurrentRound V
  else if r.consensus.validators.proposer r.consensus.height round = r.consensus.localId then
    modify requestProposal
  else return ()

def requestPersistence (m : SignableMessage) : EngineM Unit := do
  let r ← get
  match r.consensus.localDecisions[DecisionKey.ofSignable m]? with
  | some existing => ensure (existing = m) .unexpectedPersistedMessage
  | none => modify (·.decide m)

def proposalReady (height : Height) (round : Round) (blockId : BlockId) : EngineM Unit := do
  let r ← get
  ensure (height = r.consensus.height) (.wrongHeight r.consensus.height height)
  ensure (round ∈ r.consensus.requestedProposals) (.proposalNotRequested height round)
  modify (·.update (·.eraseRequest round))
  requestPersistence (.proposal (r.consensus.proposalOf height round blockId))

def acceptProposal (V : MessageValidator) (p : SignedProposal) : EngineM Unit := do
  let r ← get
  if r.consensus.roundIsCacheable p.proposal.round then
    match r.consensus.proposals[p.proposal.round]? with
    | some first =>
      if first = p then return ()
      else modify (·.emit (.evidence (.doubleProposal p.proposal.proposer first p)))
    | none =>
      modify (·.update (·.insertProposal p))
      if p.proposal.round = r.consensus.round then activateCurrentRound V else return ()
  else return ()

def acceptVote (V : MessageValidator) (v : SignedVote) : EngineM Unit := do
  let r ← get
  if r.consensus.roundIsCacheable v.vote.round then
    match (r.consensus.votesBy v.vote.round v.vote.kind)[v.vote.validator]? with
    | some first =>
      if first = v then return ()
      else modify (·.emit (.evidence (.doubleVote v.vote.validator first v)))
    | none =>
      modify (·.update (·.insertVote v))
      evaluateRound V v.vote.round
  else return ()

def acceptValidatedMessage (V : MessageValidator) : SignedMessage → EngineM Unit
  | .proposal p => acceptProposal V p
  | .vote v => acceptVote V v

def receiveMessage (V : MessageValidator) (m : SignedMessage) : EngineM Unit := do
  let r ← get
  r.consensus.validateMessage V m
  acceptValidatedMessage V m

def persisted (V : MessageValidator) (m : SignedMessage) : EngineM Unit := do
  let r ← get
  ensure (r.consensus.pendingPersistence[DecisionKey.ofSignable m.signable]? = some m.signable)
    .unexpectedPersistedMessage
  r.consensus.validateMessage V m
  modify (·.publish m)
  acceptValidatedMessage V m

def handleTimeout (V : MessageValidator) (t : Timeout) : EngineM Unit := do
  let r ← get
  if r.consensus.isLive t then
    match r.consensus.phase with
    | .propose =>
      modify (·.castVote .prevote .nil)
      evaluateRound V r.consensus.round
    | .prevote =>
      modify (·.castVote .precommit .nil)
      evaluateRound V r.consensus.round
    | .precommit =>
      -- `checked_add(1)`
      ensure (r.consensus.round.toNat + 1 < 2 ^ 32) (.roundLimitReached r.consensus.round)
      enterRound V (r.consensus.round + 1)
    | .finalized => return ()
  else return ()

/-- Handle an event; the effects are in the resulting state. -/
def handle (V : MessageValidator) (e : Event) : EngineM Unit := do
  let r ← get
  match e with
  | .start =>
    ensure (r.consensus.started = false) .alreadyStarted
    modify (·.update (·.setStarted))
    enterRound V r.consensus.round
  | .certificate cert =>
    r.consensus.validateCertificate V cert
    finalize cert
  | e =>
    ensure (r.consensus.started = true) .notStarted
    if r.consensus.finalized = none then
      match e with
      | .proposalReady height forRound block => proposalReady height forRound block
      | .message m => receiveMessage V m
      | .persisted m => persisted V m
      | .timeout t => handleTimeout V t
      | .start | .certificate _ => return ()
    else return ()

end EngineM

/-- Handle an event: the effects or the error, and the state after it. An error drops the effects
pushed before it. -/
def Consensus.step (c : Consensus) (e : Event) (V : MessageValidator) :
    Except ConsensusError (List Effect) × Consensus :=
  match EngineM.handle V e ⟨c, []⟩ with
  | .ok _ r => (.ok r.effects, r.consensus)
  | .error err r => (.error err, r.consensus)

end KCoin
