import KCoin.Protocol.Commit

/-!
# The ledger

The complete deterministic state of one chain and the two operations that change it: applying one
transaction and applying one finalized block. Both take the state by reference, so a failure keeps
the state it happened in; `apply_block` works on a copy.
-/

open Borsh

namespace KCoin

/-- Consensus state associated with one wallet address. -/
structure AccountState where
  balanceAtoms : UInt64 := 0
  /-- The next nonce this account must sign. -/
  nextNonce : UInt64 := 0
  /-- Public, non-unique explorer metadata. -/
  displayName : Option String := none
  deriving DecidableEq

instance : Borsh AccountState :=
  ofEquiv (fun a => (a.balanceAtoms, a.nextNonce, a.displayName)) (fun (b, n, d) => ⟨b, n, d⟩)
    (fun _ => rfl) (fun _ => rfl)

/-! ## Challenges -/

inductive ChallengeOperation
  | add
  | subtract
  | multiply
  deriving DecidableEq

/-- The single persistent arithmetic challenge currently open for issuance. -/
structure Challenge where
  id : UInt64
  operation : ChallengeOperation
  left : UInt8
  right : UInt8
  deriving DecidableEq

/-- Challenge content is a pure function of its identifier. -/
def Challenge.forId [Primitives] (id : UInt64) : Challenge :=
  let bytes := (hashBytes challengeHashDomain (encode id)).bytes.toList
  let operation := match (bytes.getD 0 0 % 3).toNat with
    | 0 => ChallengeOperation.add
    | 1 => ChallengeOperation.subtract
    | _ => ChallengeOperation.multiply
  let left := 1 + bytes.getD 1 0 % 9
  let right := 1 + bytes.getD 2 0 % 9
  if operation = .subtract ∧ left < right then ⟨id, operation, right, left⟩
  else ⟨id, operation, left, right⟩

def Challenge.answer (c : Challenge) : UInt16 :=
  match c.operation with
  | .add => c.left.toUInt16 + c.right.toUInt16
  | .subtract => c.left.toUInt16 - c.right.toUInt16
  | .multiply => c.left.toUInt16 * c.right.toUInt16

/-! ## Rewards -/

def rewardBandAtoms : UInt64 := 20000 * atomsPerKcoin

def rewardsKcoin : List UInt64 := [100, 50, 25, 10, 5]

/-- Reward for the next successful challenge claim, capped at maximum supply. -/
def rewardForSupply (totalSupplyAtoms : UInt64) : Option UInt64 :=
  if maxSupplyAtoms ≤ totalSupplyAtoms then none
  else
    let band := (totalSupplyAtoms / rewardBandAtoms).toNat
    let index := if band < rewardsKcoin.length then band else rewardsKcoin.length - 1
    let rewardAtoms := rewardsKcoin.getD index 0 * atomsPerKcoin
    let remaining := maxSupplyAtoms - totalSupplyAtoms
    some (if rewardAtoms < remaining then rewardAtoms else remaining)

/-! ## State -/

/-- Information returned after validation but before any state mutation. -/
structure ValidatedTransaction where
  id : Hash32
  sender : Address
  deriving DecidableEq

inductive TransactionOutcome
  | transfer (recipient : Address) (amountAtoms : UInt64)
  | rewardClaimed (challengeId rewardAtoms : UInt64)
  | displayNameUpdated (displayName : Option String)
  deriving DecidableEq

structure TransactionReceipt where
  transactionId : Hash32
  sender : Address
  nonce : UInt64
  outcome : TransactionOutcome
  deriving DecidableEq

/-- Complete deterministic ledger state for one chain. -/
structure LedgerState where
  chainId : ChainId
  height : UInt64
  tipHash : Hash32
  lastBlockTimestampMs : UInt64
  totalSupplyAtoms : UInt64
  activeChallengeId : UInt64
  accounts : BTreeMap Address AccountState
  appliedTransactions : BTreeSet Hash32
  deriving DecidableEq

namespace LedgerState

def new (chainId : ChainId) : LedgerState where
  chainId
  height := 0
  tipHash := Hash32.zero
  lastBlockTimestampMs := 0
  totalSupplyAtoms := 0
  activeChallengeId := 0
  accounts := ∅
  appliedTransactions := ∅

def accountOrDefault (s : LedgerState) (address : Address) : AccountState :=
  (s.accounts[address]?).getD {}

/-- The bytes the state root is the hash of: a record of every field but the tip hash, with the
maps as lists in the order of their keys. -/
def commitmentBytes (s : LedgerState) : List UInt8 :=
  encode (KCoin.protocolVersion, s.chainId, s.height, s.lastBlockTimestampMs, s.totalSupplyAtoms,
    s.activeChallengeId, s.accounts.toList, s.appliedTransactions.toList)

variable [Primitives]

def stateRoot (s : LedgerState) : Hash32 := hashBytes stateHashDomain s.commitmentBytes

def currentChallenge (s : LedgerState) : Challenge := Challenge.forId s.activeChallengeId

/-! ## Transactions -/

/-- The checks of one action against the state and the sender's account. -/
def validateAction (s : LedgerState) (senderAccount : AccountState) :
    TransactionAction → Except ValidationError Unit
  | .transfer _ amount => do
    ensure (amount ≠ 0) .zeroAmount
    ensure (amount ≤ senderAccount.balanceAtoms)
      (.insufficientBalance senderAccount.balanceAtoms amount)
  | .claimReward challengeId answer => do
    ensure (challengeId = s.activeChallengeId) (.staleChallenge s.activeChallengeId challengeId)
    ensure (answer = s.currentChallenge.answer) .wrongChallengeAnswer
    let reward ← okOr .supplyExhausted (rewardForSupply s.totalSupplyAtoms)
    let _ ← okOr .arithmeticOverflow (checkedAdd senderAccount.balanceAtoms reward)
    let _ ← okOr .arithmeticOverflow (checkedAdd s.activeChallengeId 1)
  | .setDisplayName name => validateDisplayName name

def validateTransaction (s : LedgerState) (t : SignedTransaction) (executionHeight : UInt64) :
    Except ValidationError ValidatedTransaction := do
  t.verifySignature
  ensure (t.unsigned.chainId = s.chainId) (.wrongChain s.chainId.value t.unsigned.chainId.value)
  let id := t.id
  ensure (id ∉ s.appliedTransactions) .duplicateTransaction
  ensure (executionHeight ≤ t.unsigned.expiryHeight)
    (.expired t.unsigned.expiryHeight executionHeight)
  let sender := t.senderAddress
  let senderAccount := s.accountOrDefault sender
  ensure (t.unsigned.nonce = senderAccount.nextNonce)
    (.nonceMismatch senderAccount.nextNonce t.unsigned.nonce)
  let _ ← okOr .arithmeticOverflow (checkedAdd senderAccount.nextNonce 1)
  s.validateAction senderAccount t.unsigned.action
  return ⟨id, sender⟩

omit [Primitives] in
/-- The action of a validated transaction: what it does to the state, the sender's account to be
stored, and the outcome. -/
def applyAction (sender : Address) (senderAccount : AccountState) :
    TransactionAction →
      EStateM ValidationError LedgerState (AccountState × TransactionOutcome)
  | .transfer recipient amount => do
    if recipient ≠ sender then
      let s ← get
      let recipientAccount := s.accountOrDefault recipient
      let recipientBalance ←
        okOr .arithmeticOverflow (checkedAdd recipientAccount.balanceAtoms amount)
      let senderBalance ← okOr .arithmeticOverflow (checkedSub senderAccount.balanceAtoms amount)
      set { s with
        accounts := s.accounts.insert recipient
          { recipientAccount with balanceAtoms := recipientBalance } }
      return ({ senderAccount with balanceAtoms := senderBalance }, .transfer recipient amount)
    else
      return (senderAccount, .transfer recipient amount)
  | .claimReward challengeId _ => do
    let s ← get
    let rewardAtoms ← okOr .supplyExhausted (rewardForSupply s.totalSupplyAtoms)
    let newBalance ← okOr .arithmeticOverflow (checkedAdd senderAccount.balanceAtoms rewardAtoms)
    let newSupply ← okOr .arithmeticOverflow (checkedAdd s.totalSupplyAtoms rewardAtoms)
    let nextChallenge ← okOr .arithmeticOverflow (checkedAdd s.activeChallengeId 1)
    set { s with totalSupplyAtoms := newSupply, activeChallengeId := nextChallenge }
    return ({ senderAccount with balanceAtoms := newBalance },
      .rewardClaimed challengeId rewardAtoms)
  | .setDisplayName name =>
    return ({ senderAccount with displayName := name }, .displayNameUpdated name)

/-- Validate and apply one transaction. -/
def applyTransaction (t : SignedTransaction) (executionHeight : UInt64) :
    EStateM ValidationError LedgerState TransactionReceipt := do
  let s ← get
  let validated ← s.validateTransaction t executionHeight
  let senderAccount := s.accountOrDefault validated.sender
  let nextNonce ← okOr .arithmeticOverflow (checkedAdd senderAccount.nextNonce 1)
  let (senderAccount, outcome) ← applyAction validated.sender senderAccount t.unsigned.action
  modify fun s =>
    { s with
      accounts := s.accounts.insert validated.sender { senderAccount with nextNonce }
      appliedTransactions := s.appliedTransactions.insert validated.id }
  return ⟨validated.id, validated.sender, t.unsigned.nonce, outcome⟩

/-- Apply transactions in order, up to the first that fails. -/
def applyTransactions : List SignedTransaction → UInt64 →
    EStateM ValidationError LedgerState (List TransactionReceipt)
  | [], _ => return []
  | t :: ts, executionHeight => do
    let receipt ← applyTransaction t executionHeight
    let receipts ← applyTransactions ts executionHeight
    return receipt :: receipts

/-! ## Blocks -/

omit [Primitives] in
def normalizedProposalTimestamp (s : LedgerState) (requestedMs : UInt64) : UInt64 :=
  if s.height = 0 then min requestedMs maxBlockTimestampMs
  else min (min (max requestedMs s.lastBlockTimestampMs)
    (saturatingAdd s.lastBlockTimestampMs maxBlockTimestampStepMs)) maxBlockTimestampMs

/-- Execute transactions against a copy and create a self-consistent block. -/
def buildBlock (s : LedgerState) (proposer : ValidatorId) (round : UInt32)
    (timestampMs : UInt64) (transactions : List SignedTransaction) :
    Except ValidationError Block := do
  let height ← okOr .arithmeticOverflow (checkedAdd s.height 1)
  let timestampMs := s.normalizedProposalTimestamp timestampMs
  match applyTransactions transactions height s with
  | .error e _ => throw e
  | .ok _ candidate =>
    let candidate := { candidate with height, lastBlockTimestampMs := timestampMs }
    return Block.new s.chainId height s.tipHash proposer round timestampMs candidate.stateRoot
      transactions

omit [Primitives] in
/-- The timestamp bounds a block must respect. -/
def validTimestamp (s : LedgerState) (timestampMs : UInt64) : Prop :=
  timestampMs ≤ maxBlockTimestampMs ∧
    (0 < s.height → s.lastBlockTimestampMs ≤ timestampMs ∧
      timestampMs ≤ saturatingAdd s.lastBlockTimestampMs maxBlockTimestampStepMs)

omit [Primitives] in
instance (s : LedgerState) (timestampMs : UInt64) : Decidable (s.validTimestamp timestampMs) :=
  inferInstanceAs (Decidable (_ ∧ (_ → _ ∧ _)))

/-- Validate and atomically apply a finalized block. -/
def applyBlock (block : Block) :
    EStateM ValidationError LedgerState (List TransactionReceipt) := do
  let s ← get
  block.validateCommitments
  ensure (block.header.chainId = s.chainId)
    (.wrongChain s.chainId.value block.header.chainId.value)
  let expectedHeight ← okOr .arithmeticOverflow (checkedAdd s.height 1)
  ensure (block.header.height = expectedHeight)
    (.invalidBlockHeight expectedHeight block.header.height)
  ensure (block.header.parentHash = s.tipHash) .invalidParentHash
  ensure (s.validTimestamp block.header.timestampMs) .invalidTimestamp
  match applyTransactions block.transactions block.header.height s with
  | .error e _ => throw e
  | .ok receipts candidate =>
    let candidate := { candidate with
      height := block.header.height
      lastBlockTimestampMs := block.header.timestampMs }
    ensure (candidate.stateRoot = block.header.stateRoot) .invalidStateRoot
    set { candidate with tipHash := block.hash }
    return receipts

/-- Certificate verification and atomic block application. -/
def applyFinalizedBlock (block : Block) (certificate : CommitCertificate)
    (validators : List ValidatorId) :
    EStateM ValidationError LedgerState (List TransactionReceipt) := do
  certificate.verifyForBlock block validators
  applyBlock block

/-- Apply blocks in order, up to the first that fails. -/
def applyBlocks : List Block → EStateM ValidationError LedgerState Unit
  | [] => return ()
  | b :: bs => do
    let _ ← applyBlock b
    applyBlocks bs

/-- Deterministically reconstruct all ledger state from canonical blocks. -/
def replayBlocks (chainId : ChainId) (blocks : List Block) :
    Except ValidationError LedgerState :=
  match applyBlocks blocks (LedgerState.new chainId) with
  | .ok _ s => .ok s
  | .error e _ => .error e

/-- Apply finalized blocks in order, up to the first that fails. -/
def applyFinalizedBlocks (validators : List ValidatorId) :
    List (Block × CommitCertificate) → EStateM ValidationError LedgerState Unit
  | [] => return ()
  | (block, certificate) :: rest => do
    let _ ← applyFinalizedBlock block certificate validators
    applyFinalizedBlocks validators rest

/-- Reconstruct the state while also authenticating every quorum certificate. -/
def replayFinalizedBlocks (chainId : ChainId) (history : List (Block × CommitCertificate))
    (validators : List ValidatorId) : Except ValidationError LedgerState :=
  match applyFinalizedBlocks validators history (LedgerState.new chainId) with
  | .ok _ s => .ok s
  | .error e _ => .error e

end LedgerState

end KCoin
