import KCoin.Node.Storage

/-!
# The node

A node is one actor: it owns the ledger, the pool of waiting transactions, the consensus engine and
the store, and handles one command at a time. What the actor has from outside while it handles a
command is an `Environment`: the clocks, whether the database completes an operation, and the
identifiers of requests. A handler runs on a `Turn`, the actor with the local variables of the
handlers at work and the trace of what was committed to the store and sent; a failure keeps the
state it happened in.
-/

open Borsh

namespace KCoin

inductive NodeRole
  | validator
  | observer
  | standalone
  deriving DecidableEq

structure NodeConfig where
  chainId : String
  role : NodeRole
  validatorIndex : Option UInt16
  heartbeatMs : UInt64
  demo : Bool
  deriving DecidableEq

/-- Why a handler failed. -/
inductive NodeError
  | message (text : String)
  | storage (e : StorageError)
  | consensus (e : ConsensusError)
  | protocol (e : ValidationError)
  | certificate (e : ProtocolCertificateError)
  | validation (e : ConsensusValidationError)
  | validatorSet (e : ValidatorSetError)
  /-- A length that does not fit its prefix. -/
  | encoding
  /-- The loop over consensus events was given too few rounds. -/
  | outOfFuel
  | context (text : String) (cause : NodeError)
  deriving DecidableEq

/-! ## The application as the engine sees it -/

/-- The validation a node supplies to its engine: signatures, the blocks it knows, and their
execution on its ledger. -/
structure NodeMessageValidator where
  ledger : LedgerState
  blocks : BTreeMap BlockId Block
  validators : List ValidatorId

namespace NodeMessageValidator

variable [Primitives]

def validateProposal (v : NodeMessageValidator) (proposal : SignedProposal) :
    Except ConsensusValidationError Unit := do
  verifyEd25519Proposal proposal
  let block ← okOr .invalidProposal v.blocks[proposal.proposal.blockId]?
  ensure (block.consensusHash = proposal.proposal.blockId ∧
    block.header.height = proposal.proposal.height ∧
    block.header.round ≤ proposal.proposal.round ∧
    expectedProtocolProposer v.validators block.header.height block.header.round =
      some block.header.proposer) .invalidProposal
  match LedgerState.applyBlock block v.ledger with
  | .ok _ _ => return ()
  | .error e _ => throw (.other e.toText)

def validateCertificate (v : NodeMessageValidator) (certificate : ConsensusCommitCertificate) :
    Except ConsensusValidationError Unit := do
  let block ← okOr .invalidCertificate v.blocks[certificate.blockId]?
  let protocol ← certificate.toProtocol.mapError fun e => .other e.toText
  (protocol.verifyForBlock block v.validators).mapError fun e => .other e.toText

def validator (v : NodeMessageValidator) : MessageValidator where
  validateProposal := v.validateProposal
  validateVote := verifyEd25519Vote
  validateCertificate := v.validateCertificate

end NodeMessageValidator

/-! ## The actor -/

/-- Milliseconds of a clock that never goes back. -/
abbrev Instant := Nat

structure NodeActor where
  config : NodeConfig
  chainId : ChainId
  ledger : LedgerState
  mempool : List SignedTransaction
  mempoolIds : BTreeSet Hash32
  store : Store
  /-- The node has a network. -/
  network : Bool
  validatorIds : List ValidatorId
  standaloneKeys : List SigningKey
  localValidatorKey : Option SigningKey
  consensus : Option Consensus
  consensusStarted : Bool
  proposalBlocks : BTreeMap BlockId Block
  recoveryMessages : List SignedMessage
  recoveryBroadcasts : List ConsensusWireMessage
  peers : BTreeSet PeerId
  syncTarget : Option UInt64
  syncPeer : Option PeerId
  syncRequestId : Option OutboundSyncRequestId
  syncRequestDeadline : Option Instant
  halted : Bool
  lastBlockAt : Instant
  lastStatusAt : Instant

/-- The validation with what the node knows. -/
def NodeActor.messageValidator (a : NodeActor) : NodeMessageValidator :=
  ⟨a.ledger, a.proposalBlocks, a.validatorIds⟩

/-- What a node gets from outside while it handles a command, by the number of questions it asked
before. -/
structure Environment where
  /-- Milliseconds since the epoch. -/
  clock : Nat → UInt64
  instant : Nat → Instant
  /-- The database completes the operation. -/
  storage : Nat → Bool
  /-- The identifier that the network gives a request, unless it is down. -/
  request : Nat → Option OutboundSyncRequestId
  /-- A bound on the consensus events handled in one go. -/
  fuel : Nat
  deriving Inhabited

/-- What leaves a node: a commit to its store, a message to other nodes, or a timer. -/
inductive Occurrence
  | committed (store : Store)
  | consensus (wire : ConsensusWireMessage)
  | finalized (record : FinalizedWireRecord)
  | status (signed : SignedValidatorStatus)
  | transaction (t : SignedTransaction)
  | request (peer : PeerId) (request : SyncRequest)
  | respond (token : UInt64) (response : SyncResponse)
  | timer (t : Timeout)

/-- The actor while it handles a command. -/
structure Turn where
  env : Environment
  /-- The number of questions asked so far. -/
  asked : Nat
  actor : NodeActor
  /-- The consensus events still to be handled. -/
  events : List Event
  /-- The effect at work, until its decision is on disk. -/
  current : Option Effect
  /-- The effects that follow it. -/
  effects : List Effect
  /-- The messages still to be sent again. -/
  wires : List ConsensusWireMessage
  trace : List Occurrence

/-- The actor before it handles a command. -/
def Turn.begin (env : Environment) (a : NodeActor) : Turn where
  env
  asked := 0
  actor := a
  events := []
  current := none
  effects := []
  wires := []
  trace := []

abbrev NodeM := EStateM NodeError Turn

namespace NodeM

variable {α : Type}

/-! ## Reading and writing -/

def actor : NodeM NodeActor := do
  let t ← get
  return t.actor

/-- Change the actor. -/
def update (f : NodeActor → NodeActor) : NodeM Unit :=
  modify fun t => { t with actor := f t.actor }

/-- Record what leaves the node. -/
def record (o : Occurrence) : NodeM Unit := modify fun t => { t with trace := t.trace ++ [o] }

/-- The answer to the next question. -/
def ask (answer : Environment → Nat → α) : NodeM α := do
  let t ← get
  set { t with asked := t.asked + 1 }
  return answer t.env t.asked

/-- `unix_timestamp_ms` -/
def clock : NodeM UInt64 := ask Environment.clock

/-- `Instant::now` -/
def now : NodeM Instant := ask Environment.instant

/-- Fail with an error of another kind. -/
def orFail {ε : Type} (f : ε → NodeError) : Except ε α → NodeM α
  | .ok a => return a
  | .error e => throw (f e)

/-- Read from the store. -/
def readStore (f : Store → Except StorageError α) : NodeM α := do
  let ok ← ask Environment.storage
  ensure (ok = true) (.storage .sqlite)
  let a ← actor
  orFail .storage (f a.store)

/-- Run a transaction on the store. -/
def writeStore (f : Store → Except StorageError (α × Store)) : NodeM α := do
  let (x, store) ← readStore f
  update fun a => { a with store }
  record (.committed store)
  return x

/-- Say in the error what was being done. -/
def within (text : String) (x : NodeM α) : NodeM α := fun t =>
  match x t with
  | .ok a t' => .ok a t'
  | .error e t' => .error (.context text e) t'

/-- Run a handler and log its failure. -/
def logged (x : NodeM Unit) : NodeM Unit := fun t =>
  match x t with
  | .ok _ t' => .ok () t'
  | .error _ t' => .ok () t'

def appendConsensusEvent (kind : String) (bytes : List UInt8) : NodeM Unit :=
  writeStore fun s => .ok ((), s.appendConsensusEvent kind bytes)

/-! ## Sending -/

/-- Send to other nodes, if there is a network. -/
def send (o : Occurrence) : NodeM Unit := do
  let a ← actor
  if a.network then record o else return ()

def publishConsensusWire (wire : ConsensusWireMessage) : NodeM Unit := do
  let a ← actor
  if a.network then
    let _ ← okOr .encoding (toVec wire)
    record (.consensus wire)
  else return ()

/-! ## The pool of waiting transactions -/

variable [Primitives]

/-- The transactions that apply one after the other, without those that do not. -/
def selectTransactions (executionHeight : UInt64) :
    LedgerState → List SignedTransaction → List SignedTransaction
  | _, [] => []
  | candidate, t :: rest =>
    match LedgerState.applyTransaction t executionHeight candidate with
    | .ok _ candidate => t :: selectTransactions executionHeight candidate rest
    | .error _ candidate => selectTransactions executionHeight candidate rest

def acceptTransaction (transaction : SignedTransaction) (gossip : Bool) : NodeM Hash32 := do
  let a ← actor
  ensure (a.halted = false ∧ a.syncTarget = none) (.protocol .malformed)
  let id := transaction.id
  ensure (id ∉ a.mempoolIds ∧ id ∉ a.ledger.appliedTransactions) (.protocol .duplicateTransaction)
  let executionHeight ← okOr (.protocol .arithmeticOverflow) (checkedAdd a.ledger.height 1)
  match LedgerState.applyTransactions a.mempool executionHeight a.ledger with
  | .error e _ => throw (.protocol e)
  | .ok _ candidate =>
    let _ ← orFail .protocol (candidate.validateTransaction transaction executionHeight)
    update fun a => { a with
      mempoolIds := a.mempoolIds.insert id
      mempool := a.mempool ++ [transaction] }
    if gossip then send (.transaction transaction)
    return id

/-- Keep the transactions that still apply, in their order. -/
def revalidateMempool : NodeM Unit :=
  update fun a =>
    let kept := selectTransactions (saturatingAdd a.ledger.height 1) a.ledger a.mempool
    { a with mempool := kept, mempoolIds := Std.ExtTreeSet.ofList (kept.map (·.id)) compare }

end NodeM

end KCoin
