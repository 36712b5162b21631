import KCoin.Node.Runtime

/-!
# Starting a node

A node that starts reads its finalized blocks back and executes them. A validator that was
interrupted at a height also restores its engine from the active safety state, and checks the
proposals and decisions it stored there on the way: anything unexpected keeps it from starting.
-/

open Borsh

namespace KCoin

instance : SortKey (UInt32 × Hash32) where
  key p := p.1.toNat :: SortKey.key p.2
  key_injective p q h := by
    rw [List.cons.injEq, UInt32.toNat_inj] at h
    exact Prod.ext h.1 (SortKey.key_injective h.2)

variable [Primitives] [Formats]

omit [Formats] in
/-- The keys of the fixed validator set. -/
def deterministicDevValidatorKeys : List SigningKey :=
  [1, 2, 3, 4].map fun index => ⟨Primitives.blake3 "kcoin.dev/v1/local-validator-key" [index]⟩

/-! ## Recovery -/

structure ConsensusRecovery where
  consensus : Option Consensus
  proposalBlocks : BTreeMap BlockId Block
  replayMessages : List SignedMessage
  rebroadcastWires : List ConsensusWireMessage

/-- The proposals read back so far: their blocks, the block of each proposal, and the messages. -/
structure RecoveredProposals where
  blocks : BTreeMap BlockId Block
  variants : BTreeMap (UInt32 × BlockId) Block
  messages : List SignedProposal

omit [Primitives] [Formats] in
def validateRecoveredSafetyState (s : SafetyState) : Except NodeError Unit :=
  ensure (s.lockedRound.isSome = s.lockedBlock.isSome ∧ s.lockedRound.all (· ≤ s.round))
    (.message "persisted consensus safety state has an invalid lock")

omit [Formats] in
/-- What a stored proposal says about itself. -/
def decodeProposal (persisted : PersistedConsensusProposal) :
    Except NodeError (BlockId × Block × SignedProposal) := do
  let blockId ← okOr (.message "persisted proposal block id must be 32 bytes")
    (Bytes.ofList 32 persisted.blockId)
  let block ← (Block.decode persisted.blockBytes).mapError
    fun e => .context "persisted proposal block bytes are invalid" (.protocol e)
  let signed ← okOr (.context "persisted signed proposal is malformed" .encoding)
    (tryFromSlice SignedProposal persisted.signedProposal)
  (verifyEd25519Proposal signed).mapError
    fun e => .context "persisted proposal signature is invalid" (.validation e)
  return (⟨blockId⟩, block, signed)

omit [Formats] in
/-- Read one more stored proposal of the height. -/
def recoverProposal (config : NodeConfig) (validatorIds : List ValidatorId)
    (validators : ValidatorSet) (height : Height) (recovered : RecoveredProposals)
    (persisted : PersistedConsensusProposal) : Except NodeError RecoveredProposals := do
  let (blockId, block, signed) ← decodeProposal persisted
  let p := signed.proposal
  ensure (persisted.height = height ∧ persisted.round = p.round ∧ p.height = height ∧
      p.chainId = config.chainId ∧ p.blockId = blockId ∧ block.consensusHash = blockId ∧
      validators.proposer height p.round = p.proposer ∧ block.header.round ≤ p.round ∧
      expectedProtocolProposer validatorIds block.header.height block.header.round =
        some block.header.proposer)
    (.message "persisted proposal context is inconsistent")
  ensure (recovered.blocks[blockId]?.all (· = block))
    (.message "persisted proposal bytes conflict for one canonical block id")
  return {
    blocks := recovered.blocks.insert blockId block
    variants := recovered.variants.insert (p.round, blockId) block
    messages := recovered.messages ++ [signed] }

/-- The message of a stored decision. -/
def validatePersistedDecision (persisted : PersistedConsensusDecision) (height : Height) :
    Except NodeError SignedMessage := do
  let signed ← okOr (.context "persisted signed consensus message is malformed" .encoding)
    (tryFromSlice SignedMessage persisted.signedMessage)
  (verifyEd25519 signed.signable.signer signed.signable signed.signature).mapError
    fun e => .context "persisted consensus signature is invalid" (.validation e)
  let signBytes ← okOr (.message "chain ID is not valid for the KCoin protocol")
    signed.signable.signingBytes
  ensure (signed.signature = persisted.signature ∧ signBytes = persisted.signBytes ∧
      signerSlot signed.signable = persisted.slot)
    (.message "persisted consensus signing record is internally inconsistent")
  let decisionSafety ← okOr (.context "persisted decision safety state is malformed" .encoding)
    (Formats.safetyFromSlice persisted.safetyState)
  ensure (decisionSafety.height = height)
    (.message "persisted decision belongs to a stale or future height")
  validateRecoveredSafetyState decisionSafety
  return signed

/-- Reserve the slots of the stored decisions in the restored engine. -/
def restoreDecisions (height : Height) :
    Consensus → List PersistedConsensusDecision → Except NodeError (Consensus × List SignedMessage)
  | consensus, [] => .ok (consensus, [])
  | consensus, decision :: rest => do
    let signed ← validatePersistedDecision decision height
    let consensus ← (consensus.restoreLocalDecision signed.signable).mapError
      fun e => .context "persisted local decision conflicts with restored consensus" (.consensus e)
    let (consensus, messages) ← restoreDecisions height consensus rest
    return (consensus, signed :: messages)

omit [Primitives] [Formats] in
/-- A stored local message as it was sent, a proposal with its own block. -/
def rebroadcastWire (variants : BTreeMap (UInt32 × BlockId) Block) :
    SignedMessage → Except NodeError ConsensusWireMessage
  | .proposal signed => do
    let block ← okOr (.message "durable local proposal is missing its exact block variant")
      variants[(signed.proposal.round, signed.proposal.blockId)]?
    return .proposal signed block
  | .vote vote => return .vote vote

/-- Restore the engine of an interrupted height from its active safety state. -/
def recoverInterrupted (config : NodeConfig) (store : Store) (ledger : LedgerState)
    (validatorIds : List ValidatorId) (localId : ValidatorId) (validators : ValidatorSet)
    (storedHeight : Height) (safetyBytes : List UInt8) : Except NodeError ConsensusRecovery := do
  let height := ledger.height + 1
  ensure (storedHeight = height) (.message "active consensus safety row belongs to another height")
  let safety ← okOr (.context "active consensus safety state is malformed" .encoding)
    (Formats.safetyFromSlice safetyBytes)
  ensure (safety.height = height)
    (.message "active consensus safety state belongs to another height")
  validateRecoveredSafetyState safety
  let rows ← (store.storedProposals height).mapError .storage
  let recovered ← rows.foldlM (recoverProposal config validatorIds validators height) ⟨∅, ∅, []⟩
  ensure (safety.lockedBlock.all (· ∈ recovered.blocks))
    (.message "restored lock is missing its persisted proposal block")
  ensure (safety.validBlock.all (· ∈ recovered.blocks))
    (.message "restored valid value is missing its persisted proposal block")
  let application : NodeMessageValidator := ⟨ledger, recovered.blocks, validatorIds⟩
  recovered.messages.forM fun p => (application.validateProposal p).mapError
    fun e => .context "persisted proposal is not application-valid" (.validation e)
  let consensus ← (Consensus.newWithSafetyState localId validators height
    (.forChain config.chainId) safety application.validator).mapError .consensus
  let decisions := store.consensusDecisions height
  let last ← okOr (.message "active consensus safety state has no durable signing decision")
    decisions.getLast?
  ensure (last.safetyState = safetyBytes)
    (.message "active consensus safety state does not match the latest decision")
  let (consensus, messages) ← restoreDecisions height consensus decisions
  let replay := messages.foldl (fun replay m => if m ∈ replay then replay else replay ++ [m])
    (recovered.messages.map .proposal)
  let wires ← messages.mapM (rebroadcastWire recovered.variants)
  return ⟨some consensus, recovered.blocks, replay, wires⟩

/-- The engine of a validator that starts: a fresh one, unless a height was interrupted. -/
def initializeConsensusRecovery (config : NodeConfig) (store : Store) (ledger : LedgerState)
    (validatorIds : List ValidatorId) (signingKey : Option SigningKey) :
    Except NodeError ConsensusRecovery :=
  match signingKey with
  | none => .ok ⟨none, ∅, [], []⟩
  | some key => do
    let localId := ValidatorId.fromSigningKey key
    let validators ← (ValidatorSet.new validatorIds).mapError .validatorSet
    match store.consensusSafety with
    | none =>
      let consensus ← (Consensus.new localId validators (ledger.height + 1)
        (.forChain config.chainId)).mapError .consensus
      return ⟨some consensus, ∅, [], []⟩
    | some (storedHeight, safetyBytes) =>
      recoverInterrupted config store ledger validatorIds localId validators storedHeight
        safetyBytes

/-! ## Start -/

omit [Formats] in
/-- The finalized blocks with their certificates, in the order of their heights. -/
def decodeHistory (rows : List BlockRow) :
    Except ValidationError (List (Block × CommitCertificate)) :=
  rows.mapM fun row => do
    let block ← Block.decode row.blockBytes
    let certificate ← CommitCertificate.decode row.certificateBytes
    return (block, certificate)

omit [Primitives] [Formats] in
/-- `haystack.contains(needle)` -/
def containsText (haystack needle : String) : Bool :=
  haystack.toList.tails.any needle.toList.isPrefixOf

omit [Formats] in
/-- The key of the local validator. -/
def localKey (config : NodeConfig) : Except NodeError (Option SigningKey) :=
  if config.role = .validator then do
    let index ← okOr (.message "validator index is required") config.validatorIndex
    let key ← okOr (.message "validator index is outside the fixed validator set")
      deterministicDevValidatorKeys[index.toNat]?
    return some key
  else return none

omit [Formats] in
/-- The public keys of the fixed validator set. -/
def devValidatorIds : List ValidatorId :=
  deterministicDevValidatorKeys.map ValidatorId.fromSigningKey

/-- The actor of a node that starts on a store at some time with some connected peers. A database
that fails to read keeps the node from starting as well. -/
def startNode (config : NodeConfig) (store : Store) (network : Bool) (peers : BTreeSet PeerId)
    (time : Instant) : Except NodeError NodeActor := do
  let chainId ← (ChainId.new config.chainId).mapError
    fun e => .context "invalid configured chain id" (.protocol e)
  ensure (config.role = .standalone ∨ config.demo ∨ containsText config.chainId "local")
    (.message
      "the fixed deterministic validator set is restricted to --demo or a local chain id")
  let validatorIds := devValidatorIds
  let history ← (decodeHistory store.canonicalBlockRows).mapError
    fun e => .context "decode persisted finalized history" (.protocol e)
  let ledger ← (LedgerState.replayFinalizedBlocks chainId history validatorIds).mapError
    fun e => .context "verify and replay persisted finalized history" (.protocol e)
  let localValidatorKey ← localKey config
  let recovery ← initializeConsensusRecovery config store ledger validatorIds localValidatorKey
  return {
    config, chainId, ledger, store, network, validatorIds, localValidatorKey, peers
    mempool := []
    mempoolIds := ∅
    standaloneKeys := if config.role = .standalone then deterministicDevValidatorKeys else []
    consensus := recovery.consensus
    consensusStarted := false
    proposalBlocks := recovery.proposalBlocks
    recoveryMessages := recovery.replayMessages
    recoveryBroadcasts := recovery.rebroadcastWires
    syncTarget := none
    syncPeer := none
    syncRequestId := none
    syncRequestDeadline := none
    halted := false
    lastBlockAt := time
    lastStatusAt := if 1000 ≤ time then time - 1000 else time }

end KCoin
