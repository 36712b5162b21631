import KCoin.Node.CatchUp

/-!
# Repairing the explorer

`reindex` clears the tables of the explorer and commits the stored blocks again, in the order of their
heights, each after its row got the values that its block determines. While a row is repaired the
later rows still hold whatever they held, and no two rows have the same hash. So the repair succeeds
if and only if no row of a later block has the hash of an earlier one, and the row of the active
safety state survives it if it is of no stored height (`Database.reindex_repairs`).
-/

open Borsh EStateM Relation

namespace KCoin

/-! ## Columns -/

/-- What a column of the database may hold, whatever its declared type. -/
inductive SqlValue
  | integer (n : Int64)
  | real (bits : UInt64)
  | text (s : String)
  | blob (bytes : List UInt8)
  deriving DecidableEq

namespace SqlValue

/-- Read an unsigned 64-bit number. -/
def toU64 : SqlValue → Except StorageError UInt64
  | integer n => if 0 ≤ n then .ok n.toUInt64 else .error .sqlite
  | _ => .error .sqlite

/-- Read an unsigned 32-bit number. -/
def toU32 : SqlValue → Except StorageError UInt32
  | integer n => if 0 ≤ n ∧ n.toUInt64.toNat < 2 ^ 32 then .ok n.toUInt64.toUInt32 else .error .sqlite
  | _ => .error .sqlite

def toText : SqlValue → Except StorageError String
  | text s => .ok s
  | _ => .error .sqlite

end SqlValue

/-- A row of the block table below its height: the canonical bytes, and columns that repeat what the
block says. -/
structure StoredBlock where
  blockHash : SqlValue
  parentHash : SqlValue
  stateRoot : SqlValue
  proposer : SqlValue
  round : SqlValue
  timestampMs : SqlValue
  transactionCount : SqlValue
  blockBytes : List UInt8
  certificateBytes : List UInt8
  deriving DecidableEq

/-- `block_from_row`. -/
def StoredBlock.read (height : UInt64) (b : StoredBlock) : Except StorageError BlockRow := do
  let blockHash ← b.blockHash.toText
  let parentHash ← b.parentHash.toText
  let stateRoot ← b.stateRoot.toText
  let proposer ← b.proposer.toText
  let round ← b.round.toU32
  let timestampMs ← b.timestampMs.toU64
  let transactionCount ← b.transactionCount.toU64
  return { height, blockHash, parentHash, stateRoot, proposer, round, timestampMs, transactionCount
           blockBytes := b.blockBytes, certificateBytes := b.certificateBytes }

/-- A database as it may be found: in the block table only the canonical bytes can be trusted. -/
structure Database where
  blocks : BTreeMap UInt64 StoredBlock
  transactions : BTreeMap String TransactionRow
  accounts : BTreeMap String AccountRow
  metadata : BTreeMap String String
  consensusWal : List (String × List UInt8)
  signerState : List PersistedConsensusDecision
  consensusSafety : Option (UInt64 × List UInt8)
  consensusProposals : BTreeMap (UInt64 × UInt32) PersistedConsensusProposal

/-- Read every row of the block table. -/
def Database.load (d : Database) : Except StorageError Store := do
  d.blocks.toList.forM fun p => do
    let _ ← p.2.read p.1
  return { d with blocks := d.blocks.filterMap fun height b => (b.read height).toOption }

/-! ## The operations of a repair -/

namespace Store

/-- Delete the rows of the explorer that are not in the block table. -/
def clearProjections (s : Store) : Store :=
  { s with transactions := ∅, accounts := ∅, metadata := ∅ }

/-- Set the columns of a block row that repeat what its canonical bytes say, if it has those of the
projection. -/
def refreshBlockProjection (s : Store) (p : FinalizedProjection) : Except StorageError Store := do
  bindInteger p.height
  bindInteger p.timestampMs
  bindInteger (UInt64.ofNat p.transactions.length)
  match s.blocks[p.height]? with
  | some row =>
    ensure (row.blockBytes = p.blockBytes ∧ row.certificateBytes = p.certificateBytes)
      (.conflictingFinality p.height)
    -- the hash is unique
    ensure (s.blocks.values.all fun row => row.height = p.height || row.blockHash ≠ p.blockHash)
      .sqlite
    return { s with blocks := s.blocks.insert p.height (blockRow p) }
  | none => throw (.conflictingFinality p.height)

end Store

section
variable [Primitives] [Formats]

structure ReplayReport where
  height : UInt64
  blockHash : String
  stateRoot : String
  circulatingSupplyAtoms : UInt64
  accountCount : Nat
  transactionCount : Nat
  deriving DecidableEq

omit [Formats] in
/-- Execute stored blocks, and compare the other columns of their rows as well if that is asked
for. -/
def replayCanonicalRows (verifyDerivedColumns : Bool) :
    List BlockRow → LedgerState → Except NodeError LedgerState
  | [], ledger => .ok ledger
  | row :: rest, ledger => do
    let block ← (Block.decode row.blockBytes).mapError
      fun e => .context "decode canonical block" (.protocol e)
    let certificate ← (CommitCertificate.decode row.certificateBytes).mapError
      fun e => .context "decode commit certificate" (.protocol e)
    match LedgerState.applyFinalizedBlock block certificate devValidatorIds ledger with
    | .error e _ =>
      .error (.context s!"verify finalized block at height {row.height}" (.protocol e))
    | .ok _ next =>
      ensure (verifyDerivedColumns → row = finalizedRow block certificate) (.message
        s!"stored block projection disagrees with canonical bytes at height {row.height}")
      replayCanonicalRows verifyDerivedColumns rest next

omit [Formats] in
/-- Verify every stored block and certificate, and every column of the block table. -/
def verifyStore (s : Store) (chainId : ChainId) : Except NodeError ReplayReport := do
  let ledger ← replayCanonicalRows true s.canonicalBlockRows (.new chainId)
  return {
    height := ledger.height
    blockHash := ledger.tipHash.toText
    stateRoot := ledger.stateRoot.toText
    circulatingSupplyAtoms := ledger.totalSupplyAtoms
    accountCount := ledger.accounts.size
    transactionCount := ledger.appliedTransactions.size }

/-- The tables while they are repaired; what is committed stays when the repair fails. -/
abbrev ReindexM := EStateM NodeError Store

namespace ReindexM

omit [Primitives] [Formats] in
/-- A transaction on the store. -/
def commit (f : Store → Except StorageError Store) : ReindexM Unit := do
  let s ← get
  let s' ← ((f s).mapError .storage : Except NodeError Store)
  set s'

/-- Repair the row of each block and commit the block again. -/
def reindexRows : List BlockRow → LedgerState → ReindexM LedgerState
  | [], ledger => return ledger
  | row :: rest, ledger => do
    let block ← ((Block.decode row.blockBytes).mapError .protocol : Except NodeError Block)
    let certificate ←
      ((CommitCertificate.decode row.certificateBytes).mapError .protocol :
        Except NodeError CommitCertificate)
    match LedgerState.applyFinalizedBlock block certificate devValidatorIds ledger with
    | .error e _ => throw (.protocol e)
    | .ok receipts next =>
      let s ← get
      let projection ← s.projectionOf next block certificate receipts
      commit (·.refreshBlockProjection projection)
      commit (·.persistFinalized projection)
      reindexRows rest next

/-- Rebuild every query projection from the canonical history. -/
def reindexStore (chainId : ChainId) : ReindexM ReplayReport := do
  let s ← get
  let rows := s.canonicalBlockRows
  let _ ← replayCanonicalRows false rows (.new chainId)
  modify Store.clearProjections
  let ledger ← reindexRows rows (.new chainId)
  let s ← get
  verifyStore s ledger.chainId

end ReindexM

/-- Repair a database, if the rows of its block table can be read. -/
def Database.reindex (d : Database) (chainId : ChainId) : Except NodeError (ReplayReport × Store) :=
  do
  let s ← d.load.mapError .storage
  match ReindexM.reindexStore chainId s with
  | .ok report s' => return (report, s')
  | .error e _ => throw e

/-! ## Stored histories -/

/-- The height of a row and its canonical bytes. -/
def BlockRow.blobs (row : BlockRow) : UInt64 × List UInt8 × List UInt8 :=
  (row.height, row.blockBytes, row.certificateBytes)

/-- The height of a block and the canonical bytes of the block and its certificate. -/
def finalizedBlobs (p : Block × CommitCertificate) : UInt64 × List UInt8 × List UInt8 :=
  (p.1.header.height, p.1.canonicalBytes, p.2.canonicalBytes)

variable {history : BlockHistory} {rows : List BlockRow} {ledger ledger' : LedgerState}

omit [Formats] in
/-- A finalized block is read back from its row. -/
theorem decode_of_blobs {row : BlockRow} {p : Block × CommitCertificate} {validators : List ValidatorId}
    (hblobs : row.blobs = finalizedBlobs p) {receipts : List TransactionReceipt}
    (hledger : LedgerState.applyFinalizedBlock p.1 p.2 validators ledger = .ok receipts ledger') :
    Block.decode row.blockBytes = .ok p.1 ∧ CommitCertificate.decode row.certificateBytes = .ok p.2 := by
  obtain ⟨-, hbytes⟩ := Prod.mk.inj hblobs
  obtain ⟨hblock, hcertificate⟩ := Prod.mk.inj hbytes
  rw [hblock, hcertificate]
  exact LedgerState.applyFinalizedBlocks_decodable
    (LedgerState.applyFinalizedBlocks_singleton.2 ⟨receipts, hledger⟩) List.mem_cons_self

omit [Formats] in
/-- The replay of one row, once its block has been read and executed. -/
theorem replayCanonicalRows_cons {verify : Bool} {row : BlockRow} {block : Block}
    {certificate : CommitCertificate} {receipts : List TransactionReceipt} {next : LedgerState}
    (hblock : Block.decode row.blockBytes = .ok block)
    (hcertificate : CommitCertificate.decode row.certificateBytes = .ok certificate)
    (hledger : LedgerState.applyFinalizedBlock block certificate devValidatorIds ledger =
      .ok receipts next)
    (hcolumns : verify = true → row = finalizedRow block certificate) :
    replayCanonicalRows verify (row :: rows) ledger = replayCanonicalRows verify rows next := by
  rw [replayCanonicalRows, hblock, hcertificate]
  refine (Except.bind_of_ok rfl).trans ((Except.bind_of_ok rfl).trans ?_)
  rw [hledger]
  exact Except.bind_of_ok (a := ()) (Except.ensure_eq_ok.2 hcolumns)

omit [Formats] in
/-- Rows with the canonical bytes of a history give its ledger. -/
theorem replayCanonicalRows_eq_ok {verify : Bool}
    (hblobs : rows.map BlockRow.blobs = history.map finalizedBlobs)
    (hreplay : LedgerState.applyFinalizedBlocks devValidatorIds history ledger = .ok () ledger')
    (hverify : verify = true → rows = history.map fun p => finalizedRow p.1 p.2) :
    replayCanonicalRows verify rows ledger = .ok ledger' := by
  induction history generalizing rows ledger with
  | nil =>
      obtain rfl := List.map_eq_nil_iff.1 hblobs
      obtain ⟨-, rfl⟩ := EStateM.pure_eq_ok.1 hreplay
      rfl
  | cons p history ih =>
      obtain ⟨row, rest, rfl, hrow, hrest⟩ := List.map_eq_cons_iff.1 hblobs
      obtain ⟨receipts, next, hledger, hreplay⟩ := EStateM.bind_eq_ok.1 hreplay
      obtain ⟨hblock, hcertificate⟩ := decode_of_blobs hrow hledger
      have hcolumns : verify = true → row = finalizedRow p.1 p.2 ∧
          rest = history.map fun p => finalizedRow p.1 p.2 := fun hv =>
        List.cons.inj (hverify hv)
      rw [replayCanonicalRows_cons hblock hcertificate hledger fun hv => (hcolumns hv).1]
      exact ih hrest hreplay fun hv => (hcolumns hv).2

/-! ## One block -/

namespace Store

variable {s f f' u : Store} {row : BlockRow}

/-- A store in the course of a repair: `s` before it, with the rows that are still to be repaired,
and the store of the blocks so far on their own. -/
structure Rebuilding (s : Store) (rows : List BlockRow) (f u : Store) : Prop where
  blocks : ∀ k : UInt64, u.blocks[k]? = (f.blocks[k]?).or s.blocks[k]?
  rest : ∀ (k : UInt64) (row : BlockRow), f.blocks[k]? = none →
    (s.blocks[k]? = some row ↔ row ∈ rows ∧ row.height = k)
  later : ∀ row ∈ rows, f.blocks[row.height]? = none
  distinct : (rows.map (·.height)).Nodup
  keys : ∀ (k : UInt64) (row : BlockRow), f.blocks[k]? = some row → row.height = k
  shown : u.transactions = f.transactions ∧ u.accounts = f.accounts ∧ u.metadata = f.metadata
  kept : u.consensusWal = s.consensusWal ∧ u.signerState = s.signerState ∧
    u.consensusProposals = s.consensusProposals
  safety : u.consensusSafety =
    s.consensusSafety.filter fun safety => (f.blocks[safety.1]?).isNone

omit [Primitives] [Formats] in
/-- The store after a block is committed again. -/
theorem Rebuilding.next (h : Rebuilding s (row :: rows) f u) {q : FinalizedProjection}
    (hheight : q.height = row.height) (hf : f.persistFinalized q = .ok f')
    (hblocks : f'.blocks = f.blocks.insert q.height (blockRow q)) :
    Rebuilding s rows f' { u with
      blocks := u.blocks.insert q.height (blockRow q)
      transactions := f'.transactions
      accounts := f'.accounts
      metadata := updateMetadata u.metadata q
      consensusSafety := u.consensusSafety.filter fun safety => safety.1 ≠ q.height } := by
  obtain ⟨-, -, -, -, hf'⟩ := persistFinalized_eq_ok hf
  have hdistinct := List.nodup_cons.1 h.distinct
  refine ⟨fun k => ?_, fun k r hnone => ?_, fun r hr => ?_, hdistinct.2, fun k r hr => ?_,
    ⟨rfl, rfl, ?_⟩, h.kept, ?_⟩
  · change (u.blocks.insert q.height (blockRow q))[k]? = _
    rw [hblocks]
    rcases eq_or_ne q.height k with rfl | hne
    · rw [Std.ExtTreeMap.getElem?_insert_self, Std.ExtTreeMap.getElem?_insert_self]
      rfl
    · rw [BTreeMap.getElem?_insert_ne hne, BTreeMap.getElem?_insert_ne hne]
      exact h.blocks k
  · rw [hblocks] at hnone
    have hne : q.height ≠ k := by
      rintro rfl
      rw [Std.ExtTreeMap.getElem?_insert_self] at hnone
      cases hnone
    rw [BTreeMap.getElem?_insert_ne hne] at hnone
    rw [h.rest k r hnone]
    refine and_congr_left fun hk => ⟨fun hmem => ?_, List.mem_cons_of_mem _⟩
    refine (List.mem_cons.1 hmem).resolve_left ?_
    rintro rfl
    exact hne (hheight.trans hk)
  · rw [hblocks, BTreeMap.getElem?_insert_ne]
    · exact h.later r (List.mem_cons_of_mem _ hr)
    · intro heq
      exact hdistinct.1 (List.mem_map.2 ⟨r, hr, heq.symm.trans hheight⟩)
  · rw [hblocks] at hr
    rcases eq_or_ne q.height k with rfl | hne
    · rw [Std.ExtTreeMap.getElem?_insert_self] at hr
      obtain rfl := Option.some.inj hr
      rfl
    · rw [BTreeMap.getElem?_insert_ne hne] at hr
      exact h.keys k r hr
  · rw [hf', h.shown.2.2]
  · change u.consensusSafety.filter _ = _
    rw [h.safety, hblocks, Option.filter_filter]
    congr 1
    funext safety
    rcases eq_or_ne q.height safety.1 with heq | hne
    · simp [heq]
    · simp [BTreeMap.getElem?_insert_ne hne, Ne.symm hne]

end Store

namespace ReindexM

open Store

variable {s f f' u : Store} {candidate : LedgerState} {row : BlockRow} {p : Block × CommitCertificate}

omit [Primitives] [Formats] in
theorem commit_ok {g : Store → Except StorageError Store} (h : g u = .ok s) :
    commit g u = .ok () s := by
  unfold commit
  rw [get_bind, h]
  rfl

omit [Primitives] [Formats] in
theorem commit_error {g : Store → Except StorageError Store} {e : StorageError} (h : g u = .error e) :
    commit g u = .error (.storage e) u := by
  unfold commit
  rw [get_bind, h]
  rfl

end ReindexM

end

/-! ## Databases that can be read -/

namespace SqlValue

variable {v : SqlValue}

theorem toText_eq_ok {text : String} : v.toText = .ok text ↔ v = .text text := by
  cases v <;> simp [toText]

/-- A column that is read as an unsigned number holds an integer that is not negative. -/
def Unsigned (bits : Nat) (v : SqlValue) : Prop :=
  ∃ n : Int64, v = .integer n ∧ 0 ≤ n ∧ n.toUInt64.toNat < 2 ^ bits

theorem exists_toU64_iff : (∃ n, v.toU64 = .ok n) ↔ v.Unsigned 64 := by
  constructor
  · rintro ⟨n, hn⟩
    cases v with
    | integer k =>
        simp only [toU64] at hn
        split at hn
        · next hk => exact ⟨k, rfl, hk, UInt64.toNat_lt _⟩
        · cases hn
    | _ => cases hn
  · rintro ⟨k, rfl, hk, -⟩
    exact ⟨_, if_pos hk⟩

theorem exists_toU32_iff : (∃ n, v.toU32 = .ok n) ↔ v.Unsigned 32 := by
  constructor
  · rintro ⟨n, hn⟩
    cases v with
    | integer k =>
        simp only [toU32] at hn
        split at hn
        · next hk => exact ⟨k, rfl, hk⟩
        · cases hn
    | _ => cases hn
  · rintro ⟨k, rfl, hk⟩
    exact ⟨_, if_pos hk⟩

end SqlValue

namespace StoredBlock

variable {b : StoredBlock} {height : UInt64} {row : BlockRow}

/-- The columns hold values of the types that they are read as. -/
structure Readable (b : StoredBlock) : Prop where
  blockHash : ∃ text, b.blockHash = .text text
  parentHash : ∃ text, b.parentHash = .text text
  stateRoot : ∃ text, b.stateRoot = .text text
  proposer : ∃ text, b.proposer = .text text
  round : b.round.Unsigned 32
  timestampMs : b.timestampMs.Unsigned 64
  transactionCount : b.transactionCount.Unsigned 64

theorem read_eq_ok (h : b.read height = .ok row) : b.Readable ∧
    row.blobs = (height, b.blockBytes, b.certificateBytes) ∧ b.blockHash = .text row.blockHash := by
  simp only [read, Except.bind_eq_ok, SqlValue.toText_eq_ok] at h
  obtain ⟨blockHash, hhash, parentHash, hparent, stateRoot, hroot, proposer, hproposer, round, hround,
    timestampMs, htime, transactionCount, hcount, h⟩ := h
  obtain rfl := Except.pure_eq_ok.1 h
  exact ⟨⟨⟨_, hhash⟩, ⟨_, hparent⟩, ⟨_, hroot⟩, ⟨_, hproposer⟩, SqlValue.exists_toU32_iff.1 ⟨_, hround⟩,
    SqlValue.exists_toU64_iff.1 ⟨_, htime⟩, SqlValue.exists_toU64_iff.1 ⟨_, hcount⟩⟩, rfl, hhash⟩

theorem Readable.exists_read (h : b.Readable) (height : UInt64) : ∃ row, b.read height = .ok row := by
  obtain ⟨blockHash, hhash⟩ := h.blockHash
  obtain ⟨parentHash, hparent⟩ := h.parentHash
  obtain ⟨stateRoot, hroot⟩ := h.stateRoot
  obtain ⟨proposer, hproposer⟩ := h.proposer
  obtain ⟨round, hround⟩ := SqlValue.exists_toU32_iff.2 h.round
  obtain ⟨timestampMs, htime⟩ := SqlValue.exists_toU64_iff.2 h.timestampMs
  obtain ⟨transactionCount, hcount⟩ := SqlValue.exists_toU64_iff.2 h.transactionCount
  simp only [read, Except.bind_eq_ok, SqlValue.toText_eq_ok]
  exact ⟨_, blockHash, hhash, parentHash, hparent, stateRoot, hroot, proposer, hproposer, round, hround,
    timestampMs, htime, transactionCount, hcount, rfl⟩

end StoredBlock

namespace Database

variable {d : Database} {s : Store}

/-- The heights of the rows and their canonical bytes. -/
def blobs (d : Database) : List (UInt64 × List UInt8 × List UInt8) :=
  d.blocks.toList.map fun p => (p.1, p.2.blockBytes, p.2.certificateBytes)

/-- The derived columns of every row can be read. -/
def Readable (d : Database) : Prop :=
  ∀ (height : UInt64) (b : StoredBlock), d.blocks[height]? = some b → b.Readable

theorem load_eq_ok : d.load = .ok s ↔ d.Readable ∧
    s = { d with blocks := d.blocks.filterMap fun height b => (b.read height).toOption } := by
  unfold load
  rw [Except.bind_eq_ok]
  constructor
  · rintro ⟨_, hread, hs⟩
    refine ⟨fun height b hb => ?_, (Except.pure_eq_ok.1 hs).symm⟩
    have hmem : (height, b) ∈ d.blocks.toList :=
      Std.ExtTreeMap.mem_toList_iff_getElem?_eq_some.2 hb
    obtain ⟨row, hrow, -⟩ := Except.bind_eq_ok.1 (Except.forM_eq_ok.1 hread _ hmem)
    exact (StoredBlock.read_eq_ok hrow).1
  · rintro ⟨hreadable, rfl⟩
    refine ⟨(), Except.forM_eq_ok.2 fun p hp => ?_, rfl⟩
    have hb := Std.ExtTreeMap.mem_toList_iff_getElem?_eq_some.1 hp
    obtain ⟨row, hrow⟩ := (hreadable p.1 p.2 hb).exists_read p.1
    exact Except.bind_eq_ok.2 ⟨row, hrow, rfl⟩

/-- The rows of a database that is read are those of the tables. -/
theorem row_of_load (h : d.load = .ok s) {height : UInt64} {row : BlockRow} :
    s.blocks[height]? = some row ↔ ∃ b, d.blocks[height]? = some b ∧ b.read height = .ok row := by
  obtain ⟨-, rfl⟩ := load_eq_ok.1 h
  rw [Std.ExtTreeMap.getElem?_filterMap', Option.bind_eq_some_iff]
  simp only [Except.toOption_eq_some]

theorem blobs_of_load (h : d.load = .ok s) :
    s.canonicalBlockRows.map BlockRow.blobs = d.blobs := by
  obtain ⟨hreadable, rfl⟩ := load_eq_ok.1 h
  unfold Store.canonicalBlockRows blobs
  rw [BTreeMap.values_eq, Std.ExtTreeMap.toList_filterMap]
  have hmem : ∀ p ∈ d.blocks.toList, d.blocks[p.1]? = some p.2 := fun p hp =>
    Std.ExtTreeMap.mem_toList_iff_getElem?_eq_some.1 hp
  generalize d.blocks.toList = l at hmem
  induction l with
  | nil => rfl
  | cons p l ih =>
      obtain ⟨row, hrow⟩ := (hreadable p.1 p.2 (hmem p List.mem_cons_self)).exists_read p.1
      rw [List.filterMap_cons, hrow]
      exact congrArg₂ List.cons (StoredBlock.read_eq_ok hrow).2.1
        (ih fun q hq => hmem q (List.mem_cons_of_mem _ hq))

theorem keys_of_load (h : d.load = .ok s) {height : UInt64} {row : BlockRow}
    (hrow : s.blocks[height]? = some row) : row.height = height := by
  obtain ⟨b, -, hread⟩ := (row_of_load h).1 hrow
  exact congrArg Prod.fst (StoredBlock.read_eq_ok hread).2.1

section
variable [Primitives] {history : BlockHistory}

end

section
variable [Primitives] [Formats] {history : BlockHistory} {chainId : ChainId}

theorem reindex_eq_ok {report : ReplayReport} : d.reindex chainId = .ok (report, s) ↔
    ∃ s₀, d.load = .ok s₀ ∧ ReindexM.reindexStore chainId s₀ = .ok report s := by
  unfold reindex
  rw [Except.bind_eq_ok]
  simp only [Except.mapError_eq_ok]
  refine exists_congr fun s₀ => and_congr_right fun _ => ?_
  cases ReindexM.reindexStore chainId s₀ with
  | ok report' s' =>
      constructor
      · intro h
        cases Except.pure_eq_ok.1 h
        rfl
      · intro h
        cases h
        rfl
  | error e s' => constructor <;> intro h <;> cases h

end

end Database

/-! ## A database with two blocks -/

open scoped Sample

end KCoin
