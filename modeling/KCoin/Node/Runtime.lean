import KCoin.Node.Driver

/-!
# Commands

What the actor does with each command: transactions and consensus messages, the ticks of its clock,
finalized blocks from peers, and the requests and answers by which it catches up. A command that
fails is logged, and the actor goes on from the state the failure left.
-/

open Borsh

namespace KCoin

/-- How long an answer to a request for blocks is waited for, in milliseconds. -/
def syncRequestWatchdogTimeout : Nat := 12000

def maxSyncResponseBytes : Nat := 8 * 1024 * 1024

/-- What the actor is asked to do. -/
inductive Command
  | submit (transaction : SignedTransaction) (gossip : Bool)
  | tick
  | consensusMessage (message : ConsensusWireMessage)
  | consensusTimeout (t : Timeout)
  | importFinalized (record : FinalizedWireRecord) (source : Option PeerId)
  | peerConnected (peer : PeerId)
  | peerDisconnected (peer : PeerId)
  | syncRequest (responseToken : UInt64) (request : SyncRequest)
  | syncResponse (peer : PeerId) (intent : OutboundSyncIntent) (response : SyncResponse)
  | syncFailure (peer : PeerId) (intent : OutboundSyncIntent) (error : String)
  | validatorStatus (status : SignedValidatorStatus)

def phaseName : Phase → String
  | .propose => "proposal"
  | .prevote => "prevote"
  | .precommit => "precommit"
  | .finalized => "finalized"

/-- The peer to ask next: the first of the others, or the same when it is the only one. -/
def chooseSyncRetryPeer (peers : BTreeSet PeerId) (failedPeer : PeerId) : Option PeerId :=
  (peers.toList.find? (· ≠ failedPeer)).or (if failedPeer ∈ peers then some failedPeer else none)

/-- An answer belongs to its request, and blocks to the request that is waited for. -/
def validateSyncResponseIntent (respondingPeer : PeerId) (intent : OutboundSyncIntent)
    (response : SyncResponse) (activeRequestId : Option OutboundSyncRequestId)
    (syncPeer : Option PeerId) (syncing : Bool) (localHeight : UInt64) :
    Except NodeError Unit := do
  ensure (respondingPeer = intent.peer) (.message "sync response peer did not match requested peer")
  match intent.request with
  | .status =>
    match response with
    | .status .. | .error .. => return ()
    | .blocks _ => throw (.message "status request received a blocks response")
  | .blocks fromHeight limit =>
    ensure syncing (.message "blocks response arrived while the node was not syncing")
    ensure (activeRequestId = some intent.requestId)
      (.message "blocks response did not match the active outbound request")
    ensure (syncPeer = some respondingPeer)
      (.message "blocks response came from a peer that is no longer selected")
    let expectedHeight ← okOr (.message "local height cannot advance") (checkedAdd localHeight 1)
    ensure (fromHeight = expectedHeight)
      (.message "blocks response intent started at another height than the current range")
    ensure (limit ≠ 0) (.message "blocks response intent had a zero-sized range")
    match response with
    | .blocks records =>
      ensure (records.length ≤ limit.toNat)
        (.message "blocks response contained more records than its limit")
    | .error .. => return ()
    | .status .. => throw (.message "blocks request received a status response")

/-- The records have consecutive heights from the given one on. -/
def validateSyncRecords (expected : Nat) : List FinalizedWireRecord → Except NodeError Unit
  | [] => .ok ()
  | record :: rest => do
    ensure (expected < 2 ^ 64) (.message "sync range height overflow")
    ensure (record.block.header.height.toNat = expected)
      (.message "sync range has a record of an unexpected height")
    validateSyncRecords (expected + 1) rest

/-- The records follow the local height. -/
def validateSyncBatchSequence (records : List FinalizedWireRecord) (localHeight : UInt64) :
    Except NodeError Unit := do
  let firstExpected ← okOr (.message "local height cannot advance") (checkedAdd localHeight 1)
  validateSyncRecords firstExpected.toNat records

namespace NodeM

/-! ## Asking for blocks -/

def requestSyncBlocks (peer : PeerId) : NodeM Unit := do
  let a ← actor
  ensure (a.network = true) (.message "network is unavailable")
  let fromHeight ← okOr (.message "local height cannot advance") (checkedAdd a.ledger.height 1)
  let answer ← ask Environment.request
  let requestId ← okOr (.message "network request failed") answer
  record (.request peer (.blocks fromHeight 128))
  let time ← now
  update fun a => { a with
    syncPeer := some peer
    syncRequestId := some requestId
    syncRequestDeadline := some (time + syncRequestWatchdogTimeout) }

def ensureActiveSyncRequest (preferredPeer : PeerId) : NodeM Unit := do
  let a ← actor
  if a.syncRequestId.isSome then return () else requestSyncBlocks preferredPeer

/-- Ask a peer for its status. -/
def requestStatus (peer : PeerId) : NodeM Unit := do
  let answer ← ask Environment.request
  let _ ← okOr (.message "network request failed") answer
  record (.request peer .status)

/-- The node is no longer behind. -/
def clearSync : NodeM Unit :=
  update fun a => { a with
    syncTarget := none
    syncPeer := none
    syncRequestId := none
    syncRequestDeadline := none }

def finishSyncIfCurrent : NodeM Unit := do
  let a ← actor
  if a.syncTarget.any (· ≤ a.ledger.height) then clearSync else return ()

def enterHaltedState : NodeM Unit := do
  update fun a => { a with halted := true, consensusStarted := false }
  clearSync

def retrySyncAfterFailure (failedPeer : PeerId) (failedRequestId : Option OutboundSyncRequestId) :
    NodeM Unit := do
  let a ← actor
  if a.syncTarget = none ∨ a.syncPeer ≠ some failedPeer then return ()
  else if failedRequestId.isSome ∧ failedRequestId ≠ a.syncRequestId then return ()
  else
    let nextPeer := chooseSyncRetryPeer a.peers failedPeer
    update fun a => { a with
      syncPeer := nextPeer
      syncRequestId := none
      syncRequestDeadline := none }
    match nextPeer with
    | none => return ()
    | some peer => requestSyncBlocks peer

def retryTimedOutSyncRequest (time : Instant) : NodeM Unit := do
  let a ← actor
  if a.halted then return ()
  else match a.syncRequestId, a.syncPeer, a.syncRequestDeadline with
    | some requestId, some peer, some deadline =>
      if time < deadline then return () else retrySyncAfterFailure peer (some requestId)
    | _, _, _ => return ()

/-! ## Validator status -/

variable [Primitives]

/-- The checks of a status message: its chain, its age, its validator and its signature. -/
def acceptValidatorStatus (signed : SignedValidatorStatus) : NodeM Unit := do
  let a ← actor
  let status := signed.status
  ensure (status.chainId = a.config.chainId)
    (.message "validator status belongs to another chain")
  let time ← clock
  ensure (time.toNat ≤ status.timestampMs.toNat + 10000 ∧
      status.timestampMs.toNat ≤ time.toNat + 10000)
    (.message "validator status timestamp is stale or too far in the future")
  let expected ← okOr (.message "status uses an unknown validator index")
    a.validatorIds[status.index.toNat]?
  ensure (expected = status.validator)
    (.message "status validator identity does not match the fixed set")
  let signature ← okOr (.message "status signature must be 64 bytes")
    (Bytes.ofList 64 signed.signature)
  ensure (Primitives.validKey status.validator.bytes)
    (.message "status validator key is malformed")
  ensure (Primitives.verifyStrict status.validator.bytes (validatorStatusSigningBytes status)
    signature) (.message "status signature is invalid")

/-- What a validator says about itself. -/
def validatorStatus (a : NodeActor) (validator : ValidatorId) (timestampMs : UInt64) :
    ValidatorStatusMessage where
  chainId := a.config.chainId
  validator
  index := a.config.validatorIndex.getD 0
  height := a.ledger.height
  round := a.consensus.elim 0 (·.round)
  phase :=
    if a.syncTarget.isSome then "syncing"
    else if a.halted then "halted"
    else if a.consensusStarted then a.consensus.elim "idle" (phaseName ·.phase)
    else "finalized"
  blockHash := a.ledger.tipHash.bytes
  stateRoot := a.ledger.stateRoot.bytes
  syncing := a.syncTarget.isSome
  syncTarget := a.syncTarget
  timestampMs

def publishValidatorStatus : NodeM Unit := do
  let a ← actor
  match a.localValidatorKey with
  | none => return ()
  | some key =>
    let time ← clock
    let status := validatorStatus a (ValidatorId.fromSigningKey key) time
    let signed : SignedValidatorStatus :=
      ⟨status, (Primitives.sign key (validatorStatusSigningBytes status)).toList⟩
    acceptValidatorStatus signed
    send (.status signed)

/-- Fall behind: the node stops voting until it has the blocks up to the target. -/
def beginSync (peer : PeerId) (target : UInt64) : NodeM Unit := do
  let a ← actor
  ensure (a.halted = false) (.message "halted node refuses to enter synchronization")
  if target ≤ a.ledger.height then return ()
  else
    update fun a => { a with
      syncTarget := some (a.syncTarget.elim target (max · target))
      consensusStarted := false }
    publishValidatorStatus
    if a.network then ensureActiveSyncRequest peer else return ()

/-! ## Finalized blocks -/

variable [Formats]

/-- A certified block of a height that is already finalized: the node halts if it is another block
than the finalized one. -/
def compareFinalized (block : Block) : NodeM Unit := do
  let row ← readStore (·.blockByHeight block.header.height)
  let existing ← okOr (.message "local finalized height is missing from storage") row
  let canonicalExisting ←
    orFail (fun e => .context "decode existing canonical finalized block" (.protocol e))
      (Block.decode existing.blockBytes)
  if block.hash = canonicalExisting.hash then return ()
  else
    enterHaltedState
    throw (.message "conflicting certified block")

def importFinalized (record : FinalizedWireRecord) (source : Option PeerId) : NodeM Unit := do
  let a ← actor
  ensure (a.halted = false) (.message "halted node refuses finalized-state mutation")
  ensure (record.block.header.chainId = a.chainId ∧ record.certificate.chainId = a.chainId)
    (.message "finalized block proof belongs to another chain")
  orFail (fun e => .context "validate finalized block commitments" (.protocol e))
    record.block.validateCommitments
  orFail (fun e => .context "verify peer commit certificate" (.protocol e))
    (record.certificate.verifyForBlock record.block a.validatorIds)
  if record.block.header.height ≤ a.ledger.height then compareFinalized record.block
  else if record.block.header.height ≠ a.ledger.height + 1 then
    match source with
    | some peer => beginSync peer record.block.header.height
    | none => throw (.message "block gap requires range synchronization")
  else
    commitFinalized record.block record.certificate false
    resetConsensus
    finishSyncIfCurrent

/-- Import records in their order, up to the first that fails. -/
def importRecords : List FinalizedWireRecord → NodeM Unit
  | [] => return ()
  | record :: rest => do
    importFinalized record none
    importRecords rest

/-! ## Answering and catching up -/

omit [Formats] in
/-- The record of a stored block. -/
def decodeRow (row : BlockRow) : Except NodeError FinalizedWireRecord :=
  match Block.decode row.blockBytes, CommitCertificate.decode row.certificateBytes with
  | .ok block, .ok certificate => .ok ⟨block, certificate⟩
  | .error e, _ => .error (.protocol e)
  | _, .error e => .error (.protocol e)

omit [Formats] in
/-- The encoded records of stored blocks, as many as fit a response. -/
def encodeRows (payloadBytes : Nat) : List BlockRow → Except NodeError (List (List UInt8))
  | [] => .ok []
  | row :: rest => do
    let record ← decodeRow row
    let encoded ← okOr .encoding (toVec record)
    if maxSyncResponseBytes - 64 * 1024 < payloadBytes + encoded.length then return []
    else
      let records ← encodeRows (payloadBytes + encoded.length) rest
      return encoded :: records

omit [Formats] in
/-- The encoded record of the last finalized block. -/
def finalizedTip (a : NodeActor) : NodeM (Option (List UInt8)) := do
  if a.ledger.height = 0 then return none
  else
    let row ← readStore (·.blockByHeight a.ledger.height)
    let row ← okOr (.message "finalized tip is missing from storage") row
    let record ← decodeRow row
    let encoded ← okOr .encoding (toVec record)
    return some encoded

omit [Formats] in
def respondToSync (responseToken : UInt64) (request : SyncRequest) : NodeM Unit := do
  let a ← actor
  ensure (a.network = true) (.message "network is unavailable")
  match request with
  | .status =>
    let tip ← finalizedTip a
    record (.respond responseToken (.status a.ledger.height a.ledger.tipHash.toText
      a.ledger.stateRoot.toText a.syncTarget.isSome tip))
  | .blocks fromHeight limit =>
    let rows ← readStore (·.finalizedRange fromHeight limit)
    let records ← encodeRows 0 rows
    record (.respond responseToken (.blocks records))

omit [Formats] in
/-- A peer claims a higher finalized block and proves it. -/
def handleHigherStatus (peer : PeerId) (height : UInt64) (blockHash stateRoot : String)
    (tip : Option (List UInt8)) : NodeM Unit := do
  let a ← actor
  let bytes ← okOr (.message "higher peer status omitted its finality proof") tip
  let record ← okOr (.context "decode status finality proof" .encoding)
    (tryFromSlice FinalizedWireRecord bytes)
  ensure (record.block.header.chainId = a.chainId ∧ record.certificate.chainId = a.chainId)
    (.message "status finality proof belongs to another chain")
  orFail .protocol record.block.validateCommitments
  orFail .protocol (record.certificate.verifyForBlock record.block a.validatorIds)
  ensure (record.block.header.height = height ∧ record.block.hash.toText = blockHash ∧
      record.block.header.stateRoot.toText = stateRoot)
    (.message "status fields do not match its certified finalized tip")
  beginSync peer height

/-- Go on after a batch: ask for the next blocks, or be done. -/
def continueSync (peer : PeerId) : NodeM Unit := do
  let a ← actor
  match a.syncTarget with
  | none => return ()
  | some target =>
    if a.ledger.height < target then
      if a.network then requestSyncBlocks peer else return ()
    else finishSyncIfCurrent

/-- Import a nonempty batch of blocks. -/
def importBatch (peer : PeerId) (fromHeight : UInt64) (records : List (List UInt8)) :
    NodeM Unit := do
  let decoded ← okOr (.context "decode synchronized finalized record" .encoding)
    (records.mapM (tryFromSlice FinalizedWireRecord))
  let before ← actor
  validateSyncBatchSequence decoded (fromHeight - min fromHeight 1)
  importRecords decoded
  let a ← actor
  ensure (before.ledger.height < a.ledger.height)
    (.message "sync range made no finalized-height progress")
  publishValidatorStatus
  continueSync peer

omit [Primitives] [Formats] in
/-- A peer has no block of the range. -/
def handleEmptyBatch (peer : PeerId) : NodeM Unit := do
  let a ← actor
  ensure (¬a.syncTarget.any (a.ledger.height < ·))
    (.message "sync peer returned an empty range before the target height")
  if a.network then requestStatus peer
  update fun a => { a with syncRequestId := none, syncRequestDeadline := none }

def handleSyncResponse (peer : PeerId) (intent : OutboundSyncIntent) (response : SyncResponse) :
    NodeM Unit := do
  let a ← actor
  validateSyncResponseIntent peer intent response a.syncRequestId a.syncPeer a.syncTarget.isSome
    a.ledger.height
  match intent.request, response with
  | .status, .status height blockHash stateRoot _ tip =>
    if a.ledger.height < height then handleHigherStatus peer height blockHash stateRoot tip
    else return ()
  | .blocks fromHeight _, .blocks records =>
    if records = [] then handleEmptyBatch peer else importBatch peer fromHeight records
  | _, .error _ _ => throw (.message "peer sync error")
  | .status, .blocks _ | .blocks _ _, .status .. =>
    throw (.message "response kind was validated against its request intent")

/-! ## The commands -/

/-- Make and commit a block alone, with the keys of three of the validators. -/
def produceStandalone : NodeM Unit := do
  let a ← actor
  let transactions := a.mempool.take 1000
  let proposer ← okOr (.message "index out of bounds")
    a.validatorIds[a.ledger.height.toNat % a.validatorIds.length]?
  let timestampMs ← clock
  let block ← orFail (fun e => .context "build standalone proposal" (.protocol e))
    (a.ledger.buildBlock proposer 0 timestampMs transactions)
  let vote := CommitVote.new a.chainId block.header.height block.header.round block.consensusHash
  let signatures := (a.standaloneKeys.take 3).map fun key =>
    (⟨ValidatorId.fromSigningKey key, Primitives.sign key vote.signingBytes⟩ : CommitSignature)
  let certificate := CommitCertificate.new vote signatures
  orFail (fun e => .context "verify local standalone certificate" (.protocol e))
    (certificate.verifyForBlock block a.validatorIds)
  commitFinalized block certificate true

/-- Publish the validator's status once a second. -/
def statusTick : NodeM Unit := do
  let a ← actor
  let elapsedAt ← now
  if 1000 ≤ elapsedAt - a.lastStatusAt then
    let lastStatusAt ← now
    update fun a => { a with lastStatusAt }
    publishValidatorStatus
  else return ()

def tick : NodeM Unit := do
  let time ← now
  retryTimedOutSyncRequest time
  statusTick
  let a ← actor
  if a.halted then return ()
  else
    let time ← now
    if a.mempool = [] ∧ time - a.lastBlockAt < a.config.heartbeatMs.toNat then return ()
    else match a.config.role with
      | .standalone => produceStandalone
      | .validator => if a.syncTarget = none then ensureConsensusStarted else return ()
      | .observer => return ()

def handleCommand : Command → NodeM Unit
  | .submit transaction gossip => logged do
    let _ ← acceptTransaction transaction gossip
  | .tick => logged tick
  | .consensusMessage message => logged (handleConsensusMessage message)
  | .consensusTimeout t => do
    let a ← actor
    if a.consensusStarted then logged (processConsensusEvent (.timeout t)) else return ()
  | .importFinalized record source => logged (importFinalized record source)
  | .peerConnected peer => do
    update fun a => { a with peers := a.peers.insert peer }
    let a ← actor
    if a.syncTarget.isSome then logged (ensureActiveSyncRequest peer)
    else if a.network then logged (requestStatus peer) else return ()
  | .peerDisconnected peer => do
    update fun a => { a with peers := a.peers.erase peer }
    let a ← actor
    if a.syncPeer = some peer then logged (retrySyncAfterFailure peer none) else return ()
  | .syncRequest responseToken request => logged (respondToSync responseToken request)
  | .syncResponse peer intent response => fun t =>
    match handleSyncResponse peer intent response t with
    | .ok _ t' => .ok () t'
    | .error _ t' => logged (retrySyncAfterFailure intent.peer (some intent.requestId)) t'
  | .syncFailure _ intent _ =>
    match intent.request with
    | .blocks _ _ => logged (retrySyncAfterFailure intent.peer (some intent.requestId))
    | .status => return ()
  | .validatorStatus status => logged (acceptValidatorStatus status)

/-! ## Resuming -/

/-- Send the given messages. -/
def publishWires : List ConsensusWireMessage → NodeM Unit
  | [] => return ()
  | wire :: rest => do
    publishConsensusWire wire
    modify fun t => { t with wires := rest }
    publishWires rest

/-- Send the stored messages of the interrupted height again, then start the next round. -/
def resumeInterruptedConsensus : NodeM Unit := do
  let a ← actor
  modify fun t => { t with
    actor := { t.actor with recoveryMessages := [], recoveryBroadcasts := [] }
    wires := a.recoveryBroadcasts }
  publishWires a.recoveryBroadcasts
  update fun a => { a with consensusStarted := true }
  processConsensusEvent .start

/-- What the actor does before its first command. It halts if it cannot resume. -/
def boot : NodeM Unit := do
  let a ← actor
  if a.recoveryMessages = [] then return ()
  else fun t =>
    match resumeInterruptedConsensus t with
    | .ok _ t' => .ok () t'
    | .error _ t' => enterHaltedState t'

end NodeM

end KCoin
