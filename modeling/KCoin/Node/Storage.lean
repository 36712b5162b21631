import KCoin.Node.Wire

/-!
# The store

The tables of a node's database and the transactions on them. A transaction either returns the
tables it commits or fails and leaves the tables as they were. Unsigned 64-bit numbers are stored as
signed ones, which the larger half does not fit.
-/

namespace KCoin

inductive StorageError
  | sqlite
  | conflictingFinality (height : UInt64)
  | conflictingSignature (slot : String)
  | conflictingSafetyState (slot : String)
  | conflictingSignedMessage (slot : String)
  | conflictingProposal (height : UInt64) (round : UInt32)
  | malformedSignerSlot (slot : String)
  deriving DecidableEq

/-! ## Rows -/

structure TransactionProjection where
  id : String
  index : UInt32
  kind : String
  sender : String
  recipient : Option String
  amountAtoms : UInt64
  nonce : UInt64
  deriving DecidableEq

structure AccountProjection where
  address : String
  balanceAtoms : UInt64
  nonce : UInt64
  displayName : Option String
  transactionCount : UInt64
  deriving DecidableEq

/-- A finalized block with what the explorer shows of it. -/
structure FinalizedProjection where
  height : UInt64
  blockHash : String
  parentHash : String
  stateRoot : String
  proposer : String
  round : UInt32
  timestampMs : UInt64
  blockBytes : List UInt8
  certificateBytes : List UInt8
  transactions : List TransactionProjection
  changedAccounts : List AccountProjection
  issuedSupplyAtoms : UInt64
  challengeJson : String
  deriving DecidableEq

structure BlockRow where
  height : UInt64
  blockHash : String
  parentHash : String
  stateRoot : String
  proposer : String
  round : UInt32
  timestampMs : UInt64
  transactionCount : UInt64
  blockBytes : List UInt8
  certificateBytes : List UInt8
  deriving DecidableEq

structure TransactionRow where
  id : String
  blockHeight : UInt64
  index : UInt32
  kind : String
  sender : String
  recipient : Option String
  amountAtoms : UInt64
  nonce : UInt64
  deriving DecidableEq

structure AccountRow where
  projection : AccountProjection
  lastHeight : UInt64
  deriving DecidableEq

structure PersistedConsensusDecision where
  slot : String
  signBytes : List UInt8
  signature : List UInt8
  safetyState : List UInt8
  signedMessage : List UInt8
  deriving DecidableEq

structure PersistedConsensusProposal where
  height : UInt64
  round : UInt32
  blockId : List UInt8
  blockBytes : List UInt8
  signedProposal : List UInt8
  deriving DecidableEq

instance : SortKey (UInt64 × UInt32) where
  key p := [p.1.toNat, p.2.toNat]
  key_injective p q h := by simp_all [Prod.ext_iff, UInt64.toNat_inj, UInt32.toNat_inj]

/-- The tables. The rows of the signer table and of the log are in the order of their insertion. -/
structure Store where
  blocks : BTreeMap UInt64 BlockRow
  transactions : BTreeMap String TransactionRow
  accounts : BTreeMap String AccountRow
  metadata : BTreeMap String String
  consensusWal : List (String × List UInt8)
  signerState : List PersistedConsensusDecision
  consensusSafety : Option (UInt64 × List UInt8)
  consensusProposals : BTreeMap (UInt64 × UInt32) PersistedConsensusProposal
  deriving DecidableEq

namespace Store

/-- A database that was just created. -/
def empty : Store where
  blocks := ∅
  transactions := ∅
  accounts := ∅
  metadata := ∅
  consensusWal := []
  signerState := []
  consensusSafety := none
  consensusProposals := ∅

/-- Write an unsigned number to an integer column. -/
def bindInteger (n : UInt64) : Except StorageError Unit := ensure (n.toNat < 2 ^ 63) .sqlite

/-! ## Finalized blocks -/

/-- The row of a finalized block. -/
def blockRow (p : FinalizedProjection) : BlockRow where
  height := p.height
  blockHash := p.blockHash
  parentHash := p.parentHash
  stateRoot := p.stateRoot
  proposer := p.proposer
  round := p.round
  timestampMs := p.timestampMs
  transactionCount := UInt64.ofNat p.transactions.length
  blockBytes := p.blockBytes
  certificateBytes := p.certificateBytes

/-- Insert the row of a block, unless it is there. -/
def insertBlock (blocks : BTreeMap UInt64 BlockRow) (p : FinalizedProjection) :
    Except StorageError (BTreeMap UInt64 BlockRow) := do
  match blocks[p.height]? with
  | some existing =>
    ensure (existing.blockHash = p.blockHash) (.conflictingFinality p.height)
    return blocks
  | none =>
    bindInteger p.timestampMs
    bindInteger (UInt64.ofNat p.transactions.length)
    -- the hash is unique
    ensure (blocks.values.all (·.blockHash ≠ p.blockHash)) .sqlite
    return blocks.insert p.height (blockRow p)

/-- Insert or replace the row of a transaction. Its place in its block is unique. -/
def insertTransaction (height : UInt64) (rows : BTreeMap String TransactionRow)
    (tx : TransactionProjection) : Except StorageError (BTreeMap String TransactionRow) := do
  bindInteger tx.amountAtoms
  bindInteger tx.nonce
  ensure (rows.values.all fun row =>
    row.id = tx.id || row.blockHeight ≠ height || row.index ≠ tx.index) .sqlite
  return rows.insert tx.id
    ⟨tx.id, height, tx.index, tx.kind, tx.sender, tx.recipient, tx.amountAtoms, tx.nonce⟩

/-- Insert or replace the row of an account. -/
def insertAccount (height : UInt64) (rows : BTreeMap String AccountRow)
    (account : AccountProjection) : Except StorageError (BTreeMap String AccountRow) := do
  bindInteger account.balanceAtoms
  bindInteger account.nonce
  bindInteger account.transactionCount
  return rows.insert account.address ⟨account, height⟩

/-- What the metadata says after a block. -/
def updateMetadata (metadata : BTreeMap String String) (p : FinalizedProjection) :
    BTreeMap String String :=
  ((((metadata.insert "tip_height" s!"{p.height}").insert "tip_hash" p.blockHash).insert
    "state_root" p.stateRoot).insert "issued_supply_atoms" s!"{p.issuedSupplyAtoms}").insert
    "challenge" p.challengeJson

/-- Commit a finalized block with its projections, and clear the safety state of its height. -/
def persistFinalized (s : Store) (p : FinalizedProjection) : Except StorageError Store := do
  bindInteger p.height
  let blocks ← insertBlock s.blocks p
  let transactions ← p.transactions.foldlM (insertTransaction p.height) s.transactions
  let accounts ← p.changedAccounts.foldlM (insertAccount p.height) s.accounts
  return { s with
    blocks, transactions, accounts
    metadata := updateMetadata s.metadata p
    consensusSafety := s.consensusSafety.filter fun safety => safety.1 ≠ p.height }

/-- A commit of a projection changes the tables of the explorer, the block table and the safety
state. -/
theorem persistFinalized_eq_ok {s s' : Store} {p : FinalizedProjection}
    (h : s.persistFinalized p = .ok s') : p.height.toNat < 2 ^ 63 ∧
      insertBlock s.blocks p = .ok s'.blocks ∧
      p.transactions.foldlM (insertTransaction p.height) s.transactions = .ok s'.transactions ∧
      p.changedAccounts.foldlM (insertAccount p.height) s.accounts = .ok s'.accounts ∧
      s' = { s with
        blocks := s'.blocks
        transactions := s'.transactions
        accounts := s'.accounts
        metadata := updateMetadata s.metadata p
        consensusSafety := s.consensusSafety.filter fun safety => safety.1 ≠ p.height } := by
  obtain ⟨_, hheight, h⟩ := Except.bind_eq_ok.1 h
  obtain ⟨blocks, hblocks, h⟩ := Except.bind_eq_ok.1 h
  obtain ⟨transactions, htransactions, h⟩ := Except.bind_eq_ok.1 h
  obtain ⟨accounts, haccounts, h⟩ := Except.bind_eq_ok.1 h
  obtain rfl := Except.pure_eq_ok.1 h
  exact ⟨Except.ensure_eq_ok.1 hheight, hblocks, htransactions, haccounts, rfl⟩

def blockByHeight (s : Store) (height : UInt64) : Except StorageError (Option BlockRow) := do
  bindInteger height
  return s.blocks[height]?

/-- The rows of all finalized blocks, in the order of their heights. -/
def canonicalBlockRows (s : Store) : List BlockRow := s.blocks.values

/-- The rows of at most `limit` blocks from a height on, never more than 128. -/
def finalizedRange (s : Store) (fromHeight : UInt64) (limit : UInt16) :
    Except StorageError (List BlockRow) := do
  bindInteger fromHeight
  return (s.blocks.values.filter (fromHeight ≤ ·.height)).take (min limit.toNat 128)

def account (s : Store) (address : String) : Option AccountProjection :=
  (s.accounts[address]?).map (·.projection)

/-! ## Signing decisions -/

/-- `u64::from_str`. -/
def parseU64 (text : List Char) : Option UInt64 :=
  let digits := match text with
    | '+' :: rest => rest
    | _ => text
  if digits ≠ [] ∧ digits.all Char.isDigit ∧ Nat.ofDigitChars 10 digits 0 < 2 ^ 64 then
    some (UInt64.ofNat (Nat.ofDigitChars 10 digits 0))
  else none

/-- The height that a slot begins with. -/
def slotHeight (slot : String) : Option UInt64 := parseU64 (slot.toList.takeWhile (· ≠ '/'))

theorem toList_toString (n : UInt64) : (toString n).toList = Nat.toDigits 10 n.toNat := by
  change (toString n.toNat).toList = _
  rw [Nat.toString_eq_repr, Nat.toList_repr]

/-- A number is read back from its digits. -/
theorem parseU64_toDigits (n : UInt64) : parseU64 (Nat.toDigits 10 n.toNat) = some n := by
  have hdigits : ∀ c ∈ Nat.toDigits 10 n.toNat, c.isDigit := fun c hc =>
    Nat.isDigit_of_mem_toDigits (by omega) (by omega) hc
  have hne : Nat.toDigits 10 n.toNat ≠ [] := Nat.toDigits_ne_nil
  have hvalue : Nat.ofDigitChars 10 (Nat.toDigits 10 n.toNat) 0 = n.toNat :=
    Nat.ofDigitChars_ten_toDigits
  unfold parseU64
  dsimp only
  split
  · next rest heq =>
      have hplus := hdigits '+' (by rw [heq]; exact List.mem_cons_self)
      exact absurd hplus (by decide)
  · rw [if_pos ⟨hne, List.all_eq_true.2 hdigits, by rw [hvalue]; exact n.toNat_lt⟩, hvalue]
    exact congrArg some (UInt64.ofNat_toNat)

/-- A height that is followed by a slash is read from the front of a slot. -/
theorem slotHeight_append (height : UInt64) (rest : String) :
    slotHeight (toString height ++ ("/" ++ rest)) = some height := by
  have hdigits : ∀ c ∈ Nat.toDigits 10 height.toNat, decide (c ≠ '/') = true := by
    intro c hc
    have hdigit := Nat.isDigit_of_mem_toDigits (by omega) (by omega) hc
    refine decide_eq_true ?_
    rintro rfl
    exact absurd hdigit (by decide)
  rw [slotHeight, String.toList_append, toList_toString, List.takeWhile_append_of_pos hdigits,
    String.toList_append]
  simp [parseU64_toDigits]

/-- The slot of a message begins with its height and a slash. -/
theorem signerSlot_eq (m : SignableMessage) :
    ∃ rest, signerSlot m = toString m.height ++ ("/" ++ rest) := by
  cases m with
  | proposal p =>
      unfold signerSlot
      dsimp only
      rw [String.append_assoc, String.append_assoc]
      exact ⟨_, rfl⟩
  | vote v =>
      unfold signerSlot
      dsimp only
      rw [String.append_assoc, String.append_assoc, String.append_assoc]
      exact ⟨_, rfl⟩

theorem slotHeight_signerSlot (m : SignableMessage) : slotHeight (signerSlot m) = some m.height := by
  obtain ⟨rest, hslot⟩ := signerSlot_eq m
  rw [hslot]
  exact slotHeight_append m.height rest

/-- What a repeated decision finds in its slot: the durable signature, unless the repetition
changes the signed bytes, the safety state or the message. -/
def repeatDecision (s : Store) (existing row : PersistedConsensusDecision) :
    Except StorageError (List UInt8 × Store) := do
  ensure (existing.signBytes = row.signBytes) (.conflictingSignature row.slot)
  ensure (existing.safetyState = row.safetyState) (.conflictingSafetyState row.slot)
  ensure (existing.signedMessage = [] ∨ row.signedMessage = [] ∨
    existing.signedMessage = row.signedMessage) (.conflictingSignedMessage row.slot)
  if existing.signedMessage = [] ∧ row.signedMessage ≠ [] then
    return (existing.signature, { s with
      signerState := s.signerState.map fun r =>
        if r.slot = row.slot then { r with signedMessage := row.signedMessage } else r })
  else return (existing.signature, s)

/-- Record the signed bytes, the signature and the safety state of a decision, and make the safety
state the active one. -/
def persistConsensusDecision (s : Store) (row : PersistedConsensusDecision) :
    Except StorageError (List UInt8 × Store) := do
  let safetyHeight ← okOr (.malformedSignerSlot row.slot) (slotHeight row.slot)
  match s.signerState.find? (·.slot = row.slot) with
  | some existing => s.repeatDecision existing row
  | none =>
    bindInteger safetyHeight
    return (row.signature, { s with
      signerState := s.signerState ++ [row]
      consensusSafety := some (safetyHeight, row.safetyState) })

/-- The decisions of a height, in the order they were made: those whose slot begins with the height
and a slash. -/
def consensusDecisions (s : Store) (height : UInt64) : List PersistedConsensusDecision :=
  s.signerState.filter fun row =>
    (s!"{height}/").toList.isPrefixOf row.slot.toList && 0 < row.signedMessage.length

/-- The decision in the slot of a message is among those of its height. -/
theorem mem_consensusDecisions {s : Store} {height : UInt64} {row : PersistedConsensusDecision}
    {m : SignableMessage} (hslot : row.slot = signerSlot m) (hmessage : row.signedMessage ≠ []) :
    row ∈ s.consensusDecisions height ↔ row ∈ s.signerState ∧ m.height = height := by
  have hlength : 0 < row.signedMessage.length := List.length_pos_of_ne_nil hmessage
  obtain ⟨rest, hrest⟩ := signerSlot_eq m
  have hprefix : (s!"{height}/").toList.isPrefixOf row.slot.toList = true ↔ m.height = height := by
    rw [hslot, List.isPrefixOf_iff_prefix, show s!"{height}/" = toString height ++ "/" from rfl]
    constructor
    · rintro ⟨tail, htail⟩
      have hsame : signerSlot m = toString height ++ ("/" ++ String.ofList tail) := by
        rw [← String.toList_inj, ← htail]
        simp
      have hheight := slotHeight_signerSlot m
      rw [hsame, slotHeight_append] at hheight
      exact (Option.some.inj hheight).symm
    · rintro rfl
      rw [hrest]
      exact ⟨rest.toList, by simp⟩
  rw [consensusDecisions, List.mem_filter, Bool.and_eq_true, hprefix, decide_eq_true_iff]
  exact ⟨fun ⟨hmem, hheight, _⟩ => ⟨hmem, hheight⟩, fun ⟨hmem, hheight⟩ => ⟨hmem, hheight, hlength⟩⟩

/-! ## Proposals and the log -/

/-- Record a proposal. A height and round take one. -/
def persistConsensusProposal (s : Store) (p : PersistedConsensusProposal) :
    Except StorageError Store := do
  bindInteger p.height
  match s.consensusProposals[(p.height, p.round)]? with
  | some existing =>
    ensure (existing.blockId = p.blockId ∧ existing.blockBytes = p.blockBytes ∧
      existing.signedProposal = p.signedProposal) (.conflictingProposal p.height p.round)
    return s
  | none =>
    return { s with consensusProposals := s.consensusProposals.insert (p.height, p.round) p }

/-- The proposal is the one that is stored for its height and round. -/
def HasProposal (s : Store) (p : SignedProposal) : Prop :=
  ∃ row, s.consensusProposals[(p.proposal.height, p.proposal.round)]? = some row ∧
    Borsh.toVec p = some row.signedProposal

/-- The proposals of a height, in the order of their rounds. -/
def storedProposals (s : Store) (height : UInt64) :
    Except StorageError (List PersistedConsensusProposal) := do
  bindInteger height
  return s.consensusProposals.values.filter (·.height = height)

def appendConsensusEvent (s : Store) (kind : String) (bytes : List UInt8) : Store :=
  { s with consensusWal := s.consensusWal ++ [(kind, bytes)] }

end Store

end KCoin
