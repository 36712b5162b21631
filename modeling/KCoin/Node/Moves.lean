import KCoin.Node.Quiet

/-!
# What a node can do

Every command of a node, and its start, is a sequence of the steps listed here (`Turn.Move`): those
of the bookkeeping, the commit of a block, the exchange of the engine for a fresh one, and those of
the consensus driver, which are only taken by a validator that neither synchronizes nor is halted
(`Turn.Driving`). An invariant of the node is an invariant of these steps.
-/

open Relation EStateM Borsh

namespace KCoin

/-- What the node itself may feed to its engine from outside. -/
def Event.External : Event → Prop
  | .start | .message _ | .timeout _ => True
  | _ => False

namespace NodeActor

/-- The pool without the transactions that no longer apply. -/
def revalidated [Primitives] (a : NodeActor) : NodeActor :=
  let kept := NodeM.selectTransactions (saturatingAdd a.ledger.height 1) a.ledger a.mempool
  { a with mempool := kept, mempoolIds := Std.ExtTreeSet.ofList (kept.map (·.id)) compare }

/-- The actor after a block is committed. -/
def committed [Primitives] (a : NodeActor) (candidate : LedgerState) (store : Store) : NodeActor :=
  { a with store, ledger := candidate }.revalidated

/-- The actor knows a block. -/
def learn [Primitives] (a : NodeActor) (block : Block) : NodeActor :=
  { a with proposalBlocks := a.proposalBlocks.insert block.consensusHash block }

variable [Primitives] (a : NodeActor)

/-- A certified block applies to the ledger and can be stored with its projections. -/
structure Commits [Formats] (block : Block) (certificate : CommitCertificate)
    (receipts : List TransactionReceipt) (candidate : LedgerState) (store : Store) : Prop where
  ledger : LedgerState.applyFinalizedBlock block certificate a.validatorIds a.ledger =
    .ok receipts candidate
  store : ∃ (u u' : Turn) (projection : FinalizedProjection), u.actor = a ∧
    NodeM.buildProjection candidate block certificate receipts u = .ok projection u' ∧
    a.store.persistFinalized projection = .ok store

/-- The block the node proposes in a round. -/
inductive Proposes (round : Round) (validBlock : Option BlockId) (block : Block) : Prop
  /-- The block that the engine holds valid, as it is. -/
  | again (id : BlockId) (hvalid : validBlock = some id) (h : a.proposalBlocks[id]? = some block)
  /-- A new block. -/
  | fresh (hvalid : validBlock.bind (a.proposalBlocks[·]?) = none) (key : SigningKey)
      (timestampMs : UInt64) (hkey : a.localValidatorKey = some key)
      (h : a.ledger.buildBlock (ValidatorId.fromSigningKey key) round timestampMs
        (NodeM.selectTransactions (a.ledger.height + 1) a.ledger (a.mempool.take 1000)) = .ok block)

/-- The row of a decision that the node signs. -/
structure Decides [Formats] (message : SignableMessage) (safetyState : SafetyState)
    (row : PersistedConsensusDecision) : Prop where
  signed : ∃ key signBytes, a.localValidatorKey = some key ∧
    message.signer = ValidatorId.fromSigningKey key ∧ message.signingBytes = some signBytes ∧
    row.signBytes = signBytes ∧ row.signature = (Primitives.sign key signBytes).toList
  slot : row.slot = signerSlot message
  safetyState : row.safetyState = Formats.safetyToVec safetyState
  signedMessage : toVec (KCoin.signedMessage message row.signature) = some row.signedMessage

/-- The proposal is stored with the bytes of the block that the node knows for it. -/
def ProposalStored (p : SignedProposal) : Prop :=
  ∃ block row, a.proposalBlocks[p.proposal.blockId]? = some block ∧
    NodeM.proposalRow p block = .ok row ∧ a.store.persistConsensusProposal row = .ok a.store

/-- A message as it is sent, a proposal with the block that the node knows for it. -/
inductive Wire : SignedMessage → ConsensusWireMessage → Prop
  | proposal {p : SignedProposal} {block : Block}
      (h : a.proposalBlocks[p.proposal.blockId]? = some block) : Wire (.proposal p) (.proposal p block)
  | vote {v : SignedVote} : Wire (.vote v) (.vote v)

end NodeActor

/-- The height of the message is the next one of the actor, and the engine would keep the
proposal. -/
structure NodeActor.Receives [Primitives] (a : NodeActor) (signed : SignedProposal)
    (block : Block) : Prop where
  height : signed.proposal.height = a.ledger.height + 1
  id : block.consensusHash = signed.proposal.blockId
  known : a.proposalBlocks[signed.proposal.blockId]?.all (· = block)
  cacheable : ∃ consensus, a.consensus = some consensus ∧
    consensus.preflightMessage (NodeMessageValidator.validator ⟨a.ledger,
      a.proposalBlocks.insert signed.proposal.blockId block, a.validatorIds⟩)
      (.proposal signed) = .ok true

namespace Turn

variable [Primitives] [Formats]

/-- A validator that takes part in consensus. -/
structure Driving (t : Turn) : Prop where
  role : t.actor.config.role = .validator
  current : t.actor.syncTarget = none
  live : t.actor.halted = false

/-- The turn after a commit to the store. -/
def stored (t : Turn) (store : Store) : Turn :=
  { t with actor := { t.actor with store }, trace := t.trace ++ [.committed store] }

/-- The turn with one more event. -/
def pushed (t : Turn) (event : Event) : Turn := { t with events := t.events ++ [event] }

/-- A step of the consensus driver. -/
inductive Work : Turn → Turn → Prop
  | begin (t : Turn) (event : Event) (h : event.External) :
      Work t { t with events := [event], current := none, effects := [] }
  | step (t : Turn) (event : Event) (rest : List Event) (consensus : Consensus)
      (hevents : t.events = event :: rest) (h : t.actor.consensus = some consensus) :
      Work t { t with
        actor := { t.actor with
          consensus := some (consensus.step event t.actor.messageValidator.validator).2 }
        events := rest
        current := none
        effects := (consensus.step event t.actor.messageValidator.validator).1.toOption.getD [] }
  | take (t : Turn) (effect : Effect) (rest : List Effect) (h : t.effects = effect :: rest) :
      Work t { t with current := some effect, effects := rest }
  | propose (t : Turn) (height : Height) (round : Round) (validBlock : Option BlockId)
      (validRound : Option Round) (block : Block)
      (hcurrent : t.current = some (.requestProposal height round validBlock validRound))
      (h : t.actor.Proposes round
        (validBlock.or ((t.actor.consensus.bind Consensus.locked).map (·.2))) block) :
      Work t (t.withActor (t.actor.learn block))
  | ready (t : Turn) (height : Height) (round : Round) (validBlock : Option BlockId)
      (validRound : Option Round) (block : Block)
      (hcurrent : t.current = some (.requestProposal height round validBlock validRound))
      (h : t.actor.proposalBlocks[block.consensusHash]? = some block) :
      Work t (t.pushed (.proposalReady height round block.consensusHash))
  | storeProposal (t : Turn) (p : SignedProposal) (safetyState : SafetyState)
      (decision : PersistedConsensusDecision) (block : Block) (row : PersistedConsensusProposal)
      (store : Store)
      (hcurrent : t.current = some (.persistBeforeBroadcast (.proposal p.proposal) safetyState))
      (hdecision : t.actor.Decides (.proposal p.proposal) safetyState decision)
      (hsignature : p.signature = decision.signature)
      (hblock : t.actor.proposalBlocks[p.proposal.blockId]? = some block)
      (hrow : NodeM.proposalRow p block = .ok row)
      (h : t.actor.store.persistConsensusProposal row = .ok store) : Work t (t.stored store)
  | storeDecision (t : Turn) (message : SignableMessage) (safetyState : SafetyState)
      (row : PersistedConsensusDecision) (signature : List UInt8) (store : Store)
      (hcurrent : t.current = some (.persistBeforeBroadcast message safetyState))
      (hrow : t.actor.Decides message safetyState row)
      (hproposal : ∀ p, message = .proposal p → t.actor.ProposalStored ⟨p, row.signature⟩)
      (h : t.actor.store.persistConsensusDecision row = .ok (signature, store)) :
      Work t { t.stored store with current := none }
  | storeEvent (t : Turn) (kind : String) (bytes : List UInt8) :
      Work t (t.stored (t.actor.store.appendConsensusEvent kind bytes))
  | acknowledge (t : Turn) (message : SignableMessage) (safetyState : SafetyState)
      (row : PersistedConsensusDecision) (signature : List UInt8)
      (hrow : t.actor.Decides message safetyState row)
      (h : t.actor.store.persistConsensusDecision row = .ok (signature, t.actor.store)) :
      Work t (t.pushed (.persisted (signedMessage message signature)))
  | broadcast (t : Turn) (message : SignedMessage) (wire : ConsensusWireMessage)
      (hcurrent : t.current = some (.broadcast message)) (h : t.actor.Wire message wire) :
      Work t { t with trace := t.trace ++ [.consensus wire] }
  | receive (t : Turn) (signed : SignedProposal) (block : Block)
      (row : PersistedConsensusProposal) (store : Store) (hreceives : t.actor.Receives signed block)
      (hrow : NodeM.proposalRow signed block = .ok row)
      (h : t.actor.store.persistConsensusProposal row = .ok store) : Work t (t.stored store)
  | learn (t : Turn) (signed : SignedProposal) (block : Block) (row : PersistedConsensusProposal)
      (hreceives : t.actor.Receives signed block) (hrow : NodeM.proposalRow signed block = .ok row)
      (h : t.actor.store.persistConsensusProposal row = .ok t.actor.store) :
      Work t (t.withActor (t.actor.learn block))

/-- A step of a node. -/
inductive Move : Turn → Turn → Prop
  | quiet {t t' : Turn} (h : t.Quiet t') : Move t t'
  /-- A block is stored and becomes the tip of the ledger, and the pool is checked against it. -/
  | commit (t : Turn) (block : Block) (certificate : CommitCertificate)
      (receipts : List TransactionReceipt) (candidate : LedgerState) (store : Store)
      (live : t.actor.halted = false)
      (h : t.actor.Commits block certificate receipts candidate store) :
      Move t ((t.stored store).withActor (t.actor.committed candidate store))
  | clear (t : Turn) :
      Move t (t.withActor { t.actor with
        proposalBlocks := ∅
        recoveryMessages := []
        recoveryBroadcasts := []
        consensusStarted := false })
  | renew (t : Turn) (key : SigningKey) (validators : ValidatorSet) (consensus : Consensus)
      (hkey : t.actor.localValidatorKey = some key)
      (hvalidators : ValidatorSet.new t.actor.validatorIds = .ok validators)
      (h : Consensus.new (ValidatorId.fromSigningKey key) validators (t.actor.ledger.height + 1)
        (.forChain t.actor.config.chainId) = .ok consensus) :
      Move t (t.withActor { t.actor with consensus := some consensus })
  | start (t : Turn) : Move t (t.withActor { t.actor with consensusStarted := true })
  | resume (t : Turn) :
      Move t { t with
        actor := { t.actor with recoveryMessages := [], recoveryBroadcasts := [] }
        wires := t.actor.recoveryBroadcasts }
  | resend (t : Turn) (wire : ConsensusWireMessage) (h : wire ∈ t.wires) :
      Move t { t with trace := t.trace ++ [.consensus wire] }
  | resent (t : Turn) (wire : ConsensusWireMessage) (rest : List ConsensusWireMessage)
      (h : t.wires = wire :: rest) : Move t { t with wires := rest }
  | work {t t' : Turn} (hd : t.Driving) (h : t.Work t') : Move t t'

end Turn

end KCoin
