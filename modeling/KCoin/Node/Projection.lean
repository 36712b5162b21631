import KCoin.Node.Actor

/-!
# What is stored of a finalized block

The row of a finalized block and, for the explorer, its transactions, the accounts after it and the
open challenge.
-/

open Borsh

namespace KCoin

variable [Primitives] [Formats]

namespace TransactionReceipt

/-- The kind, the recipient and the amount that the explorer shows. -/
def shown (r : TransactionReceipt) : String × Option String × UInt64 :=
  match r.outcome with
  | .transfer recipient amount => ("transfer", some (Formats.addressToText recipient), amount)
  | .rewardClaimed _ reward => ("claim_reward", some (Formats.addressToText r.sender), reward)
  | .displayNameUpdated _ => ("set_display_name", none, 0)

def projection (index : Nat) (r : TransactionReceipt) : TransactionProjection where
  id := r.transactionId.toText
  index := UInt32.ofNat index
  kind := r.shown.1
  sender := Formats.addressToText r.sender
  recipient := r.shown.2.1
  amountAtoms := r.shown.2.2
  nonce := r.nonce

end TransactionReceipt

omit [Primitives] [Formats] in
/-- Count one more transaction of an address. -/
def countActivity (activity : BTreeMap String UInt64) (address : String) :
    BTreeMap String UInt64 :=
  activity.insert address ((activity[address]?).getD 0 + 1)

omit [Primitives] [Formats] in
/-- The number of transactions of each address; one to oneself counts once. -/
def accountActivity (transactions : List TransactionProjection) : BTreeMap String UInt64 :=
  transactions.foldl (fun activity t =>
    let activity := countActivity activity t.sender
    match t.recipient with
    | some recipient =>
      if recipient ≠ t.sender then countActivity activity recipient else activity
    | none => activity) ∅

omit [Primitives] [Formats] in
def operationSymbol : ChallengeOperation → String
  | .add => "+"
  | .subtract => "−"
  | .multiply => "×"

omit [Primitives] [Formats] in
/-- The transaction claims the reward before the given challenge. -/
def opensChallenge (challengeId : UInt64) (t : SignedTransaction) : Bool :=
  match t.unsigned.action with
  | .claimReward claimed _ => checkedAdd claimed 1 == some challengeId
  | _ => false

omit [Formats] in
/-- The height of the first of the given rows whose block opened the challenge. -/
def challengeHeightIn (challengeId : UInt64) : List BlockRow → Except NodeError (Option UInt64)
  | [] => .ok none
  | row :: rest =>
    match Block.decode row.blockBytes with
    | .error e => .error (.context "decode canonical challenge history" (.protocol e))
    | .ok block =>
      if block.transactions.any (opensChallenge challengeId) then .ok (some block.header.height)
      else challengeHeightIn challengeId rest

namespace NodeM

omit [Formats] in
def canonicalChallengeIssuedHeight (challengeId : UInt64) : NodeM (Option UInt64) := do
  if challengeId = 0 then return some 0
  else
    let rows ← readStore fun s => .ok s.canonicalBlockRows
    challengeHeightIn challengeId rows.reverse

omit [Primitives] [Formats] in
/-- The row of an account; a failure to read it counts as no row. -/
def readAccount (address : String) : NodeM (Option AccountProjection) := do
  let ok ← ask Environment.storage
  let a ← actor
  return if ok then a.store.account address else none

omit [Primitives] in
/-- The rows of the accounts after a block. -/
def projectAccounts (activity : BTreeMap String UInt64) :
    List (Address × AccountState) → NodeM (List AccountProjection)
  | [] => return []
  | (address, account) :: rest => do
    let text := Formats.addressToText address
    let existing ← readAccount text
    let projection : AccountProjection :=
      { address := text
        balanceAtoms := account.balanceAtoms
        nonce := account.nextNonce
        displayName := account.displayName
        transactionCount :=
          existing.elim 0 (·.transactionCount) + (activity[text]?).getD 0 }
    let projections ← projectAccounts activity rest
    return projection :: projections

omit [Primitives] [Formats] in
/-- A transaction of the block claimed the reward, which opened the next challenge. -/
def challengeAdvanced (receipts : List TransactionReceipt) : Bool :=
  receipts.any fun r => match r.outcome with
    | .rewardClaimed .. => true
    | _ => false

/-- The height that the metadata has for the open challenge, if it is about the same challenge. -/
def recordedChallengeHeight (candidate : LedgerState) (metadata : Option String) :
    Option String := do
  let (id, height) ← metadata.bind Formats.challengeFromText
  if id = some s!"{candidate.currentChallenge.id}" then height else none

/-- The height at which the open challenge was opened: this one, the one in the metadata, or the
one found in the blocks. -/
def challengeIssuedAt (candidate : LedgerState) (receipts : List TransactionReceipt) :
    NodeM String := do
  let metadata ← readStore fun s => .ok s.metadata["challenge"]?
  if challengeAdvanced receipts then return s!"{candidate.height}"
  else match recordedChallengeHeight candidate metadata with
    | some height => return height
    | none =>
      let height ← canonicalChallengeIssuedHeight candidate.currentChallenge.id
      return s!"{height.getD candidate.height}"

def buildProjection (candidate : LedgerState) (block : Block) (certificate : CommitCertificate)
    (receipts : List TransactionReceipt) : NodeM FinalizedProjection := do
  let transactions := receipts.mapIdx TransactionReceipt.projection
  let changedAccounts ← projectAccounts (accountActivity transactions) candidate.accounts.toList
  let issuedAtHeight ← challengeIssuedAt candidate receipts
  let challenge := candidate.currentChallenge
  let view : ChallengeView :=
    { challengeId := s!"{challenge.id}"
      expression := s!"{challenge.left} {operationSymbol challenge.operation} {challenge.right}"
      issuedAtHeight
      rewardAtoms := s!"{(rewardForSupply candidate.totalSupplyAtoms).getD 0}" }
  return {
    height := block.header.height
    blockHash := block.hash.toText
    parentHash := block.header.parentHash.toText
    stateRoot := block.header.stateRoot.toText
    proposer := hexEncode block.header.proposer.bytes.toList
    round := block.header.round
    timestampMs := block.header.timestampMs
    blockBytes := block.canonicalBytes
    certificateBytes := certificate.canonicalBytes
    transactions
    changedAccounts
    issuedSupplyAtoms := candidate.totalSupplyAtoms
    challengeJson := Formats.challengeToText view }

/-- Apply a finalized block to a copy of the ledger, store it with its projections, and only then
take the copy for the ledger. -/
def commitFinalized (block : Block) (certificate : CommitCertificate) (gossip : Bool) :
    NodeM Unit := do
  let a ← actor
  match LedgerState.applyFinalizedBlock block certificate a.validatorIds a.ledger with
  | .error e _ => throw (.context "execute finalized block" (.protocol e))
  | .ok receipts candidate =>
    let projection ← buildProjection candidate block certificate receipts
    let store ← within "atomically persist finalized block"
      (readStore (·.persistFinalized projection))
    modify fun t => { t with
      actor := { t.actor with store, ledger := candidate }
      trace := t.trace ++ [.committed store] }
    revalidateMempool
    let lastBlockAt ← now
    update fun a => { a with lastBlockAt }
    if gossip && a.network then
      let _ ← okOr .encoding (toVec (⟨block, certificate⟩ : FinalizedWireRecord))
      record (.finalized ⟨block, certificate⟩)

end NodeM

end KCoin
