import KCoin.Node.Projection

/-!
# The consensus driver

The loop that feeds the engine: it hands an event to the engine and carries out the effects it
returns, which bring about further events. A decision is signed and stored before the engine learns
that it is persisted, and only then does the engine ask to broadcast it.
-/

open Borsh

namespace KCoin

namespace NodeM

variable [Primitives] [Formats]

/-! ## Proposals and signatures -/

omit [Formats] in
/-- The block to propose: the one the engine holds valid, as it is, or a new one with the waiting
transactions that apply. -/
def buildConsensusProposal (forRound : Round) (validBlock : Option BlockId) : NodeM Block := do
  let a ← actor
  match validBlock.bind (a.proposalBlocks[·]?) with
  | some block => return block
  | none =>
    let key ← okOr (.message "validator signing key is missing") a.localValidatorKey
    let executionHeight := a.ledger.height + 1
    let transactions := selectTransactions executionHeight a.ledger (a.mempool.take 1000)
    let timestampMs ← clock
    orFail (fun e => .context "build consensus proposal" (.protocol e))
      (a.ledger.buildBlock (ValidatorId.fromSigningKey key) forRound timestampMs transactions)

omit [Formats] [Primitives] in
/-- The row of a proposal with the bytes of its block. -/
def proposalRow (signed : SignedProposal) (block : Block) :
    Except NodeError PersistedConsensusProposal := do
  let signedProposal ← okOr .encoding (toVec signed)
  return {
    height := signed.proposal.height
    round := signed.proposal.round
    blockId := signed.proposal.blockId.bytes.toList
    blockBytes := block.canonicalBytes
    signedProposal }

omit [Formats] [Primitives] in
/-- Store a local proposal with the bytes of its block. -/
def persistLocalProposal : SignedMessage → NodeM Unit
  | .proposal signed => do
    let a ← actor
    let block ← okOr (.message "local proposal block bytes are unavailable")
      a.proposalBlocks[signed.proposal.blockId]?
    let row ← proposalRow signed block
    writeStore fun s => (s.persistConsensusProposal row).map ((), ·)
  | .vote _ => return ()

omit [Formats] [Primitives] in
/-- Store the decision of the effect at work. -/
def persistDecision (row : PersistedConsensusDecision) : NodeM (List UInt8) := do
  let (signature, store) ← readStore (·.persistConsensusDecision row)
  modify fun t => { t with
    actor := { t.actor with store }
    current := none
    trace := t.trace ++ [.committed store] }
  return signature

/-- Sign a decision and store it, a proposal with its block. The signature returned is the stored
one. -/
def signAndPersist (message : SignableMessage) (safetyState : SafetyState) :
    NodeM SignedMessage := do
  let a ← actor
  let key ← okOr (.message "validator signing key is missing") a.localValidatorKey
  ensure (message.signer = ValidatorId.fromSigningKey key)
    (.message "consensus requested a signature for another validator")
  let signBytes ← okOr (.message "chain ID is not valid for the KCoin protocol")
    message.signingBytes
  let generated := (Primitives.sign key signBytes).toList
  let provisional := signedMessage message generated
  let encodedMessage ← okOr .encoding (toVec provisional)
  persistLocalProposal provisional
  let signature ← persistDecision
    { slot := signerSlot message
      signBytes
      signature := generated
      safetyState := Formats.safetyToVec safetyState
      signedMessage := encodedMessage }
  let signed := signedMessage message signature
  let bytes ← okOr .encoding (toVec signed)
  appendConsensusEvent "signed" bytes
  return signed

omit [Formats] [Primitives] in
def broadcastConsensus : SignedMessage → NodeM Unit
  | .proposal signed => do
    let a ← actor
    let block ← okOr (.message "proposal bytes are unavailable for broadcast")
      a.proposalBlocks[signed.proposal.blockId]?
    publishConsensusWire (.proposal signed block)
  | .vote vote => publishConsensusWire (.vote vote)

/-! ## Effects -/

omit [Formats] in
/-- A fresh engine for the next height. -/
def resetConsensus : NodeM Unit := do
  update fun a => { a with
    proposalBlocks := ∅
    recoveryMessages := []
    recoveryBroadcasts := []
    consensusStarted := false }
  let a ← actor
  match a.localValidatorKey with
  | none => return ()
  | some key =>
    let validators ← orFail .validatorSet (ValidatorSet.new a.validatorIds)
    let consensus ← orFail .consensus (Consensus.new (ValidatorId.fromSigningKey key) validators
      (a.ledger.height + 1) (.forChain a.config.chainId))
    update fun a => { a with consensus := some consensus }

/-- Commit the block that the engine finalized, if its certificate passes the protocol's check. -/
def finalizeBlock (f : Finalization) : NodeM Unit := do
  let a ← actor
  let block ← okOr (.message "finalized proposal bytes are unavailable")
    a.proposalBlocks[f.blockId]?
  let certificate ←
    orFail (fun e => .context "convert consensus precommits to protocol certificate"
      (.certificate e)) f.certificate.toProtocol
  orFail (fun e => .context "verify protocol-compatible consensus certificate" (.protocol e))
    (certificate.verifyForBlock block a.validatorIds)
  commitFinalized block certificate true
  resetConsensus

/-- Add an event to those still to be handled. -/
def pushEvent (e : Event) : NodeM Unit := modify fun t => { t with events := t.events ++ [e] }

def performEffect : Effect → NodeM Unit
  | .requestProposal height forRound validBlock _ => do
    let a ← actor
    let lockedBlock := (a.consensus.bind Consensus.locked).map (·.2)
    let block ← buildConsensusProposal forRound (validBlock.or lockedBlock)
    let blockId := block.consensusHash
    update fun a => { a with proposalBlocks := a.proposalBlocks.insert blockId block }
    pushEvent (.proposalReady height forRound blockId)
  | .persistBeforeBroadcast message safetyState => do
    let signed ← signAndPersist message safetyState
    pushEvent (.persisted signed)
  | .broadcast message => broadcastConsensus message
  | .scheduleTimeout timeout => record (.timer timeout)
  | .finalize finalization => finalizeBlock finalization
  | .evidence evidence =>
    appendConsensusEvent "evidence" (utf8 (Formats.evidenceToText evidence))

/-- Carry out effects in their order, up to the first that fails. -/
def performEffects : List Effect → NodeM Unit
  | [] => return ()
  | effect :: rest => do
    modify fun t => { t with current := some effect, effects := rest }
    performEffect effect
    performEffects rest

omit [Formats] in
/-- Hand the first of the pending events to the engine. Its effects are those to carry out next. -/
def stepConsensus (event : Event) (rest : List Event) : NodeM (List Effect) := do
  let a ← actor
  let consensus ← okOr (.message "validator consensus driver is missing") a.consensus
  let (result, consensus) := consensus.step event a.messageValidator.validator
  modify fun t => { t with
    actor := { t.actor with consensus := some consensus }
    events := rest
    current := none
    effects := result.toOption.getD [] }
  orFail (fun e => .context "consensus state transition failed" (.consensus e)) result

/-- Handle the pending events, and those they bring about, until there are none. -/
def drive : Nat → NodeM Unit
  | 0 => throw .outOfFuel
  | fuel + 1 => do
    let t ← get
    match t.events with
    | [] => return ()
    | event :: rest =>
      let effects ← stepConsensus event rest
      performEffects effects
      drive fuel

def processConsensusEvent (initial : Event) : NodeM Unit := do
  let a ← actor
  if a.config.role ≠ .validator ∨ a.syncTarget.isSome ∨ a.halted then return ()
  else
    modify fun t => { t with events := [initial], current := none, effects := [] }
    let t ← get
    drive t.env.fuel

def ensureConsensusStarted : NodeM Unit := do
  let a ← actor
  if a.config.role ≠ .validator ∨ a.consensusStarted ∨ a.syncTarget.isSome ∨ a.halted then
    return ()
  else
    update fun a => { a with consensusStarted := true }
    processConsensusEvent .start

/-! ## Messages from other nodes -/

omit [Formats] in
/-- Check a proposal of the next height with its block, and store it if the engine would keep it.
Whether it does is returned. -/
def receiveProposal (signed : SignedProposal) (block : Block) : NodeM Bool := do
  let a ← actor
  ensure (a.proposalBlocks[signed.proposal.blockId]?.all (· = block))
    (.message "proposal bytes conflict for one canonical block id")
  let candidateBlocks := a.proposalBlocks.insert signed.proposal.blockId block
  let validator : NodeMessageValidator := ⟨a.ledger, candidateBlocks, a.validatorIds⟩
  let consensus ← okOr (.message "validator consensus driver is missing") a.consensus
  let cacheable ← orFail (fun e => .context "proposal failed structural preflight" (.consensus e))
    (consensus.preflightMessage validator.validator (.proposal signed))
  if cacheable then
    let row ← proposalRow signed block
    writeStore fun s => (s.persistConsensusProposal row).map ((), ·)
    update fun a => { a with
      proposalBlocks := a.proposalBlocks.insert signed.proposal.blockId block }
    return true
  else return false

/-- Start the engine unless it runs, and hand it a message of its height. -/
def deliver (message : SignedMessage) : NodeM Unit := do
  ensureConsensusStarted
  processConsensusEvent (.message message)

def handleConsensusMessage (wire : ConsensusWireMessage) : NodeM Unit := do
  let a ← actor
  if a.config.role ≠ .validator ∨ a.syncTarget.isSome ∨ a.halted then return ()
  else
    let expected := a.ledger.height + 1
    match wire with
    | .proposal signed block =>
      ensure (block.consensusHash = signed.proposal.blockId)
        (.message "proposal block bytes do not match its signed block id")
      -- an earlier height is over, and a later one is no proof that this one is
      if signed.proposal.height = expected then
        let cacheable ← receiveProposal signed block
        if cacheable then deliver (.proposal signed) else return ()
      else return ()
    | .vote signed =>
      if signed.vote.height = expected then deliver (.vote signed) else return ()

end NodeM

end KCoin
