import KCoin.Node.ActiveRow

/-!
# Verifying a database

`kcoin database verify` opens a database, executes its blocks, and compares the columns of the block
table and the metadata of the tip with what they say. What it accepts is a history that the validators
certified, and the hash that it reports is that of one history only (`Database.accepted_databases_bind`).
It accepts whatever the program itself leaves: the store of a node, however often it crashed, and a
database that was repaired (`Machine.verify_accepts`).
-/

open Borsh EStateM Relation

namespace KCoin

/-! ## The file of a store -/

namespace SqlValue

/-- The column that an unsigned number is written to. -/
def ofU64 (n : UInt64) : SqlValue := .integer n.toInt64

theorem zero_le_toInt64 {n : UInt64} (h : n.toNat < 2 ^ 63) : (0 : Int64) ≤ n.toInt64 := by
  have hint : n.toInt64.toInt = n.toNat := by
    have hlt : 2 * n.toBitVec.toNat < 2 ^ 64 := by
      change 2 * n.toNat < 2 ^ 64
      omega
    exact BitVec.toInt_eq_toNat_of_lt hlt
  rw [Int64.le_iff_toInt_le, hint]
  exact Int.natCast_nonneg _

theorem toU64_ofU64 {n : UInt64} (h : n.toNat < 2 ^ 63) : (ofU64 n).toU64 = .ok n := by
  change (if 0 ≤ n.toInt64 then Except.ok n.toInt64.toUInt64 else _) = _
  rw [if_pos (zero_le_toInt64 h), UInt64.toUInt64_toInt64]

theorem toU32_ofU64 (n : UInt32) : (ofU64 n.toUInt64).toU32 = .ok n := by
  have hlt : n.toUInt64.toNat < 2 ^ 32 := by
    rw [UInt32.toNat_toUInt64]
    exact n.toNat_lt
  change (if 0 ≤ n.toUInt64.toInt64 ∧ n.toUInt64.toInt64.toUInt64.toNat < 2 ^ 32 then
    Except.ok n.toUInt64.toInt64.toUInt64.toUInt32 else _) = _
  rw [UInt64.toUInt64_toInt64, if_pos ⟨zero_le_toInt64 (by omega), hlt⟩, UInt32.toUInt32_toUInt64]

end SqlValue

/-- The columns of a row. -/
def BlockRow.stored (row : BlockRow) : StoredBlock where
  blockHash := .text row.blockHash
  parentHash := .text row.parentHash
  stateRoot := .text row.stateRoot
  proposer := .text row.proposer
  round := .ofU64 row.round.toUInt64
  timestampMs := .ofU64 row.timestampMs
  transactionCount := .ofU64 row.transactionCount
  blockBytes := row.blockBytes
  certificateBytes := row.certificateBytes

namespace Store

/-- The database that a store is written to. -/
def file (s : Store) : Database :=
  { s with blocks := s.blocks.map fun _ row => row.stored }

/-- The rows of the block table are under their heights, and fit the signed columns. -/
def Filed (s : Store) : Prop :=
  ∀ (height : UInt64) (row : BlockRow), s.blocks[height]? = some row → row.height = height ∧
    row.timestampMs.toNat < 2 ^ 63 ∧ row.transactionCount.toNat < 2 ^ 63

end Store

theorem BlockRow.read_stored {row : BlockRow} (htime : row.timestampMs.toNat < 2 ^ 63)
    (hcount : row.transactionCount.toNat < 2 ^ 63) : row.stored.read row.height = .ok row := by
  simp only [StoredBlock.read, stored, SqlValue.toText, SqlValue.toU32_ofU64,
    SqlValue.toU64_ofU64 htime, SqlValue.toU64_ofU64 hcount]
  rfl

/-- What is written to a file is read from it. -/
theorem Store.load_file {s : Store} (h : s.Filed) : s.file.load = .ok s := by
  have hread : ∀ (height : UInt64) (row : BlockRow), s.blocks[height]? = some row →
      row.stored.read height = .ok row := by
    intro height row hrow
    obtain ⟨rfl, htime, hcount⟩ := h height row hrow
    exact BlockRow.read_stored htime hcount
  refine Database.load_eq_ok.2 ⟨fun height b hb => ?_, ?_⟩
  · change (s.blocks.map fun _ row => row.stored)[height]? = some b at hb
    rw [Std.ExtTreeMap.getElem?_map, Option.map_eq_some_iff] at hb
    obtain ⟨row, hrow, rfl⟩ := hb
    exact (StoredBlock.read_eq_ok (hread height row hrow)).1
  · have hblocks : s.blocks = (s.blocks.map fun _ row => row.stored).filterMap
        fun height b => (b.read height).toOption := by
      refine Std.ExtTreeMap.ext_getElem? fun height => ?_
      rw [Std.ExtTreeMap.getElem?_filterMap', Std.ExtTreeMap.getElem?_map]
      cases hrow : s.blocks[height]? with
      | none => rfl
      | some row =>
          change some row = (row.stored.read height).toOption
          rw [hread height row hrow]
          rfl
    exact congrArg (fun blocks => { s with blocks }) hblocks

/-! ## The command -/

section
variable [Primitives] [Formats]

/-- `metadata_is`. -/
def Store.metadataIs (s : Store) (key expected : String) : Bool := s.metadata[key]? == some expected

/-- What is reported of a database that was verified. -/
structure VerificationReport where
  database : String
  chainId : String
  blockCount : Nat
  transactionCount : Nat
  accountCount : Nat
  height : String
  finalizedHash : String
  stateRoot : String
  circulatingSupplyAtoms : String
  tipMetadataMatches : Bool
  certificateTrust : String
  deriving DecidableEq

/-- The validators that the certificates are checked against. -/
def certificateTrust : String :=
  "every certificate is checked against KCoin's fixed four-validator local development set"

/-- The row of the tip and the metadata are those of a replay. -/
def Store.tipMetadataMatches (s : Store) (replay : ReplayReport) : Bool :=
  let tipMatches := s.tip.all fun tip =>
    tip.height == replay.height && tip.blockHash == replay.blockHash &&
      tip.stateRoot == replay.stateRoot
  let metadataMatches := s.metadataIs "tip_height" s!"{replay.height}" &&
    s.metadataIs "tip_hash" replay.blockHash && s.metadataIs "state_root" replay.stateRoot &&
    s.metadataIs "issued_supply_atoms" s!"{replay.circulatingSupplyAtoms}"
  tipMatches && (s.canonicalBlockRows.length == 0 || metadataMatches)

omit [Formats] in
/-- Execute the blocks of a database that exists, and compare the row of the tip and the metadata with
the ledger. -/
def verifyDatabase (db chainId : String) : Option Database → Except NodeError VerificationReport
  | none => .error (.message s!"database {db} does not exist")
  | some d => do
    let chain ← (ChainId.new chainId).mapError fun e => .context "invalid chain id" (.protocol e)
    let s ← d.load.mapError .storage
    let replay ← verifyStore s chain
    let tipMetadataMatches := s.tipMetadataMatches replay
    ensure (tipMetadataMatches = true)
      (.message "persisted tip metadata does not match replayed history")
    return {
      database := db
      chainId := chain.value
      blockCount := s.canonicalBlockRows.length
      transactionCount := replay.transactionCount
      accountCount := replay.accountCount
      height := s!"{replay.height}"
      finalizedHash := replay.blockHash
      stateRoot := replay.stateRoot
      circulatingSupplyAtoms := s!"{replay.circulatingSupplyAtoms}"
      tipMetadataMatches
      certificateTrust }

/-- Repair a database that exists, and verify what the repair left. -/
def reindexDatabase (db chainId : String) :
    Option Database → Except NodeError (VerificationReport × Database)
  | none => .error (.message s!"database {db} does not exist")
  | some d => do
    let chain ← (ChainId.new chainId).mapError fun e => .context "invalid chain id" (.protocol e)
    let (_, s) ← (d.reindex chain).mapError (.context "rebuild explorer projections")
    let report ← verifyDatabase db chainId (some s.file)
    return (report, s.file)

/-! ## What is accepted -/

variable {history : BlockHistory} {rows : List BlockRow} {ledger ledger' : LedgerState} {s s' : Store}

/-- The report of a history that was executed. -/
def VerificationReport.of (db : String) (chainId : ChainId) (history : BlockHistory)
    (ledger : LedgerState) : VerificationReport where
  database := db
  chainId := chainId.value
  blockCount := history.length
  transactionCount := ledger.appliedTransactions.size
  accountCount := ledger.accounts.size
  height := s!"{ledger.height}"
  finalizedHash := ledger.tipHash.toText
  stateRoot := ledger.stateRoot.toText
  circulatingSupplyAtoms := s!"{ledger.totalSupplyAtoms}"
  tipMetadataMatches := true
  certificateTrust := KCoin.certificateTrust

/-- The metadata is that of a ledger. -/
structure Store.Describes (s : Store) (ledger : LedgerState) : Prop where
  height : s.metadata["tip_height"]? = some s!"{ledger.height}"
  hash : s.metadata["tip_hash"]? = some ledger.tipHash.toText
  root : s.metadata["state_root"]? = some ledger.stateRoot.toText
  supply : s.metadata["issued_supply_atoms"]? = some s!"{ledger.totalSupplyAtoms}"

omit [Formats] in
/-- Rows that are executed, with all their columns, are those of a history. -/
theorem replayCanonicalRows_true_eq_ok : replayCanonicalRows true rows ledger = .ok ledger' ↔
    ∃ history, rows = history.map (fun p => finalizedRow p.1 p.2) ∧
      LedgerState.applyFinalizedBlocks devValidatorIds history ledger = .ok () ledger' := by
  constructor
  · intro hrun
    induction rows generalizing ledger with
    | nil =>
        obtain rfl := Except.ok.inj hrun
        exact ⟨[], rfl, rfl⟩
    | cons row rows ih =>
        obtain ⟨block, -, hrun⟩ := Except.bind_eq_ok.1 hrun
        obtain ⟨certificate, -, hrun⟩ := Except.bind_eq_ok.1 hrun
        split at hrun
        · cases hrun
        · next receipts next hnext =>
            obtain ⟨_, hcolumns, hrun⟩ := Except.bind_eq_ok.1 hrun
            obtain ⟨history, rfl, hrest⟩ := ih hrun
            refine ⟨(block, certificate) :: history, ?_, EStateM.bind_eq_ok.2 ⟨_, _, hnext, hrest⟩⟩
            rw [List.map_cons, Except.ensure_eq_ok.1 hcolumns rfl]
  · rintro ⟨history, rfl, hrun⟩
    refine replayCanonicalRows_eq_ok ?_ hrun fun _ => rfl
    rw [List.map_map]
    rfl

/-- What a replay reports of its ledger. -/
def ReplayReport.of (ledger : LedgerState) : ReplayReport where
  height := ledger.height
  blockHash := ledger.tipHash.toText
  stateRoot := ledger.stateRoot.toText
  circulatingSupplyAtoms := ledger.totalSupplyAtoms
  accountCount := ledger.accounts.size
  transactionCount := ledger.appliedTransactions.size

omit [Formats] in
theorem verifyStore_eq_ok {chainId : ChainId} {replay : ReplayReport} :
    verifyStore s chainId = .ok replay ↔ ∃ history ledger,
      s.canonicalBlockRows = history.map (fun p => finalizedRow p.1 p.2) ∧
      LedgerState.applyFinalizedBlocks devValidatorIds history (.new chainId) = .ok () ledger ∧
      replay = .of ledger := by
  unfold verifyStore
  simp only [Except.bind_eq_ok, replayCanonicalRows_true_eq_ok]
  constructor
  · rintro ⟨ledger, ⟨history, hrows, hrun⟩, hreplay⟩
    exact ⟨history, ledger, hrows, hrun, (Except.pure_eq_ok.1 hreplay).symm⟩
  · rintro ⟨history, ledger, hrows, hrun, rfl⟩
    exact ⟨ledger, ⟨history, hrows, hrun⟩, rfl⟩

omit [Formats] in
/-- The row of the tip needs no comparison: it is one of those that were compared with their
blocks. -/
theorem Store.tipMetadataMatches_iff {chainId : ChainId}
    (hrows : s.canonicalBlockRows = history.map fun p => finalizedRow p.1 p.2)
    (hrun : LedgerState.applyFinalizedBlocks devValidatorIds history (.new chainId) = .ok () ledger) :
    s.tipMetadataMatches (.of ledger) = true ↔ history = [] ∨ s.Describes ledger := by
  have htip : s.tip.all fun tip => tip.height == ledger.height &&
      tip.blockHash == ledger.tipHash.toText && tip.stateRoot == ledger.stateRoot.toText := by
    unfold tip
    rw [hrows]
    rcases List.eq_nil_or_concat history with rfl | ⟨history, p, rfl⟩
    · rfl
    · rw [List.concat_eq_append] at hrun ⊢
      obtain ⟨before, -, hlast⟩ := LedgerState.applyFinalizedBlocks_append.1 hrun
      obtain ⟨receipts, hlast⟩ := LedgerState.applyFinalizedBlocks_singleton.1 hlast
      have hb := (LedgerState.applyFinalizedBlock_eq_ok.1 hlast).2
      have hroot := hb.root
      obtain ⟨c, -, rfl⟩ := hb.executed
      rw [List.map_append, List.map_singleton, List.getLast?_concat, hroot]
      simp [finalizedRow, LedgerState.finish]
  unfold tipMetadataMatches
  simp only [ReplayReport.of, htip, Bool.true_and, metadataIs, Bool.or_eq_true, Bool.and_eq_true,
    beq_iff_eq, and_assoc, hrows, List.length_map, List.length_eq_zero_iff]
  refine or_congr_right ⟨fun h => ⟨h.1, h.2.1, h.2.2.1, h.2.2.2⟩, fun h => ?_⟩
  exact ⟨h.height, h.hash, h.root, h.supply⟩

/-- A database has the rows of a history that the validators certified, and the metadata of its
ledger, if it has blocks. -/
structure Database.Certified (d : Database) (chainId : ChainId) (history : BlockHistory)
    (ledger : LedgerState) : Prop where
  load : ∃ s, d.load = .ok s ∧ s.canonicalBlockRows = history.map (fun p => finalizedRow p.1 p.2) ∧
    (history = [] ∨ s.Describes ledger)
  run : LedgerState.applyFinalizedBlocks devValidatorIds history (.new chainId) = .ok () ledger

omit [Formats] in
/-- The databases that are accepted, and the reports of them. -/
theorem verifyDatabase_eq_ok {db chainId : String} {d : Option Database} {report : VerificationReport} :
    verifyDatabase db chainId d = .ok report ↔ ∃ d' c history ledger, d = some d' ∧
      ChainId.new chainId = .ok c ∧ d'.Certified c history ledger ∧
      report = .of db c history ledger := by
  constructor
  · intro hrun
    cases d with
    | none => cases hrun
    | some d =>
        obtain ⟨c, hc, hrun⟩ := Except.bind_eq_ok.1 hrun
        obtain ⟨s, hload, hrun⟩ := Except.bind_eq_ok.1 hrun
        obtain ⟨replay, hreplay, hrun⟩ := Except.bind_eq_ok.1 hrun
        obtain ⟨history, ledger, hrows, hledger, rfl⟩ := verifyStore_eq_ok.1 hreplay
        obtain ⟨_, hmatches, hrun⟩ := Except.bind_eq_ok.1 hrun
        have hmatches := Except.ensure_eq_ok.1 hmatches
        obtain rfl := Except.pure_eq_ok.1 hrun
        refine ⟨d, c, history, ledger, rfl, Except.mapError_eq_ok.1 hc, ⟨⟨s, ?_, hrows, ?_⟩, hledger⟩, ?_⟩
        · exact Except.mapError_eq_ok.1 hload
        · exact (Store.tipMetadataMatches_iff hrows hledger).1 hmatches
        · rw [hmatches, hrows, List.length_map]
          rfl
  · rintro ⟨d, c, history, ledger, rfl, hc, ⟨⟨s, hload, hrows, hdescribes⟩, hrun⟩, rfl⟩
    have hmatches := (Store.tipMetadataMatches_iff hrows hrun).2 hdescribes
    refine Except.bind_eq_ok.2 ⟨c, Except.mapError_eq_ok.2 hc, ?_⟩
    refine Except.bind_eq_ok.2 ⟨s, Except.mapError_eq_ok.2 hload, ?_⟩
    refine Except.bind_eq_ok.2 ⟨.of ledger, verifyStore_eq_ok.2 ⟨_, _, hrows, hrun, rfl⟩, ?_⟩
    refine Except.bind_eq_ok.2 ⟨(), Except.ensure_eq_ok.2 hmatches, Except.pure_eq_ok.2 ?_⟩
    rw [hmatches, hrows, List.length_map]
    rfl

/-! ## The hash of the tip -/

omit [Primitives] [Formats] in
theorem ChainId.eq_of_new {value : String} {c : ChainId} (h : ChainId.new value = .ok c) :
    c = ⟨value⟩ := by
  obtain ⟨_, -, h⟩ := Except.bind_eq_ok.1 h
  exact (Except.pure_eq_ok.1 h).symm

omit [Formats] in
/-- Finalized blocks are applied. -/
theorem LedgerState.applyBlocks_of_finalized {validators : List ValidatorId}
    (hrun : applyFinalizedBlocks validators history ledger = .ok () ledger') :
    applyBlocks (history.map Prod.fst) ledger = .ok () ledger' := by
  induction history generalizing ledger with
  | nil => exact hrun
  | cons p history ih =>
      obtain ⟨receipts, next, hnext, hrest⟩ := EStateM.bind_eq_ok.1 hrun
      have hb := (applyFinalizedBlock_eq_ok.1 hnext).2
      exact applyBlocks_cons_eq_ok.2 ⟨receipts, next, applyBlock_eq_ok.2 hb, ih hrest⟩

/-- The blocks that can be read from the canonical bytes. -/
def Database.storedBlocks (d : Database) : List Block :=
  d.blobs.filterMap fun p => (Block.decode p.2.1).toOption

namespace Database.Certified

variable {d d' : Database} {chainId : ChainId}

omit [Formats] in
theorem blobs (h : d.Certified chainId history ledger) : d.blobs = history.map finalizedBlobs := by
  obtain ⟨s, hload, hrows, -⟩ := h.load
  rw [← blobs_of_load hload, hrows, List.map_map]
  rfl

omit [Formats] in
theorem storedBlocks (h : d.Certified chainId history ledger) :
    d.storedBlocks = history.map Prod.fst := by
  unfold Database.storedBlocks
  rw [h.blobs, List.filterMap_map, ← List.filterMap_eq_map]
  refine List.filterMap_congr fun p hp => ?_
  change (Block.decode p.1.canonicalBytes).toOption = some p.1
  rw [(LedgerState.applyFinalizedBlocks_decodable h.run hp).1]
  rfl

omit [Formats] in
/-- The height is the number of the blocks. -/
theorem height_pos (h : d.Certified chainId history ledger) (hne : history ≠ []) :
    0 < ledger.height := by
  have hheight := (LedgerState.applyFinalizedBlocks_heights h.run).2
  have hpos := List.length_pos_iff.2 hne
  rw [UInt64.lt_iff_toNat_lt, hheight]
  exact Nat.add_pos_right _ hpos

end Database.Certified

omit [Formats] in
/-- Two databases that are verified and have blocks, and for which the same hash of the tip is reported,
have the same blocks, unless the hash function maps two inputs of their executions to one digest. All
that is reported is the same then, but for the name of the database. The blocks are certified by the
validators in both. -/
theorem Database.accepted_databases_bind {db db' chainId chainId' : String} {d d' : Database}
    {report report' : VerificationReport} (h : verifyDatabase db chainId (some d) = .ok report)
    (h' : verifyDatabase db' chainId' (some d') = .ok report')
    (hcf : CollisionFree (LedgerState.runInputs (.new ⟨chainId⟩) d.storedBlocks ++
      LedgerState.runInputs (.new ⟨chainId'⟩) d'.storedBlocks))
    (hblocks : report.blockCount ≠ 0) (hblocks' : report'.blockCount ≠ 0)
    (htip : report.finalizedHash = report'.finalizedHash) :
    ∃ history history' : BlockHistory, d.blobs = history.map finalizedBlobs ∧
      d'.blobs = history'.map finalizedBlobs ∧ history.map Prod.fst = history'.map Prod.fst ∧
      (∀ p ∈ history ++ history', p.2.verifyForBlock p.1 devValidatorIds = .ok ()) ∧
      report' = { report with database := db' } := by
  obtain ⟨_, c, history, ledger, ⟨⟩, hc, hd, rfl⟩ := verifyDatabase_eq_ok.1 h
  obtain ⟨_, c', history', ledger', ⟨⟩, hc', hd', rfl⟩ := verifyDatabase_eq_ok.1 h'
  obtain rfl : c = ⟨chainId⟩ := ChainId.eq_of_new hc
  obtain rfl : c' = ⟨chainId'⟩ := ChainId.eq_of_new hc'
  rw [hd.storedBlocks, hd'.storedBlocks] at hcf
  have hne : history ≠ [] := fun hnil => hblocks (List.length_eq_zero_iff.2 hnil)
  have hne' : history' ≠ [] := fun hnil => hblocks' (List.length_eq_zero_iff.2 hnil)
  obtain ⟨heq, rfl⟩ := LedgerState.history_eq (LedgerState.applyBlocks_of_finalized hd.run)
    (LedgerState.applyBlocks_of_finalized hd'.run) hcf (hd.height_pos hne) (hd'.height_pos hne')
    (Hash32.toText_injective htip)
  refine ⟨history, history', hd.blobs, hd'.blobs, heq, fun p hp => ?_, ?_⟩
  · rcases List.mem_append.1 hp with hp | hp
    · exact LedgerState.applyFinalizedBlocks_verified hd.run hp
    · exact LedgerState.applyFinalizedBlocks_verified hd'.run hp
  · have hlength : history.length = history'.length := by
      simpa using congrArg List.length heq
    have hchain := LedgerState.applyFinalizedBlocks_chainId hd.run
    rw [LedgerState.applyFinalizedBlocks_chainId hd'.run] at hchain
    have hsame : chainId' = chainId := congrArg ChainId.value hchain
    simp only [VerificationReport.of, hlength, hsame]

end

open scoped Sample in
/-- The database of a node that committed a block, and a copy of it without the rows of the explorer. -/
theorem Database.accepted_databases_bind_copy : ∃ m report report',
    ∃ history history' : BlockHistory,
    Machine.play Sample.standalone Sample.environment [.tick] = some m ∧
    verifyDatabase "kcoin.db" "kcoin-local" (some m.store.file) = .ok report ∧
    verifyDatabase "copy.db" "kcoin-local"
      (some { m.store.file with transactions := ∅, accounts := ∅ }) = .ok report' ∧
    report.blockCount = 1 ∧ report.finalizedHash = report'.finalizedHash ∧
    m.store.file.blobs = history.map finalizedBlobs ∧
    history.map Prod.fst = history'.map Prod.fst ∧
    report' = { report with database := "copy.db" } := by
  have hrun : (Machine.play Sample.standalone Sample.environment [.tick]).any fun m =>
      let d := m.store.file
      let copy : Database := { d with transactions := ∅, accounts := ∅ }
      (verifyDatabase "kcoin.db" "kcoin-local" (some d)).toOption.any fun report =>
      (verifyDatabase "copy.db" "kcoin-local" (some copy)).toOption.any fun report' =>
      decide (report.blockCount = 1 ∧ report'.blockCount = 1 ∧
        report.finalizedHash = report'.finalizedHash ∧
        CollisionFree (LedgerState.runInputs (.new ⟨"kcoin-local"⟩) d.storedBlocks ++
          LedgerState.runInputs (.new ⟨"kcoin-local"⟩) copy.storedBlocks)) := by
    decide +kernel
  obtain ⟨m, hm, hrun⟩ := (Option.any_eq_true ..).1 hrun
  obtain ⟨report, hreport, hrun⟩ := (Option.any_eq_true ..).1 hrun
  obtain ⟨report', hreport', hrun⟩ := (Option.any_eq_true ..).1 hrun
  obtain ⟨hcount, hcount', hhash, hcf⟩ := of_decide_eq_true hrun
  have h := Except.toOption_eq_some.1 hreport
  have h' := Except.toOption_eq_some.1 hreport'
  obtain ⟨history, history', hblobs, -, heq, -, hsame⟩ := Database.accepted_databases_bind h h' hcf
    (by rw [hcount]; decide) (by rw [hcount']; decide) hhash
  exact ⟨m, report, report', history, history', hm, h, h', hcount, hhash, hblobs, heq, hsame⟩

section
variable [Primitives] [Formats]
variable {history : BlockHistory} {rows : List BlockRow} {ledger ledger' : LedgerState} {s s' : Store}

/-! ## What a commit and a repair leave -/

namespace Store

variable {p : FinalizedProjection}

omit [Primitives] [Formats] in
theorem filed_empty : Store.empty.Filed := fun height row hrow => by
  simp [empty] at hrow

omit [Primitives] [Formats] in
theorem Filed.of_blocks (h : s.Filed) (hblocks : s'.blocks = s.blocks) : s'.Filed := by
  intro height row hrow
  rw [hblocks] at hrow
  exact h height row hrow

omit [Primitives] [Formats] in
theorem Filed.insert (h : s.Filed) (hblocks : s'.blocks = s.blocks.insert p.height (blockRow p))
    (htime : bindInteger p.timestampMs = .ok ())
    (hcount : bindInteger (UInt64.ofNat p.transactions.length) = .ok ()) : s'.Filed := by
  intro height row hrow
  rw [hblocks] at hrow
  by_cases hheight : p.height = height
  · subst hheight
    rw [Std.ExtTreeMap.getElem?_insert_self] at hrow
    obtain rfl := Option.some.inj hrow
    exact ⟨rfl, Except.ensure_eq_ok.1 htime, Except.ensure_eq_ok.1 hcount⟩
  · rw [BTreeMap.getElem?_insert_ne hheight] at hrow
    exact h height row hrow

omit [Primitives] [Formats] in
theorem Filed.persistFinalized (h : s.Filed) (hp : s.persistFinalized p = .ok s') : s'.Filed := by
  obtain ⟨-, hblocks, -⟩ := persistFinalized_eq_ok hp
  cases hrow : s.blocks[p.height]? with
  | none =>
      obtain ⟨hinsert, -, htime, hcount⟩ := insertBlock_new hrow hblocks
      exact h.insert hinsert htime hcount
  | some row =>
      refine h.of_blocks ?_
      unfold insertBlock at hblocks
      rw [hrow] at hblocks
      obtain ⟨_, -, hblocks⟩ := Except.bind_eq_ok.1 hblocks
      exact (Except.pure_eq_ok.1 hblocks).symm

omit [Primitives] [Formats] in
/-- The metadata of the tip after a commit. -/
theorem updateMetadata_tips (metadata : BTreeMap String String) (p : FinalizedProjection) :
    (updateMetadata metadata p)["tip_height"]? = some s!"{p.height}" ∧
      (updateMetadata metadata p)["tip_hash"]? = some p.blockHash ∧
      (updateMetadata metadata p)["state_root"]? = some p.stateRoot ∧
      (updateMetadata metadata p)["issued_supply_atoms"]? = some s!"{p.issuedSupplyAtoms}" := by
  have hother : ∀ (m : BTreeMap String String) {k l : String} (v : String), k ≠ l →
      (m.insert k v)[l]? = m[l]? := fun m {k l} v hne => BTreeMap.getElem?_insert_ne hne
  unfold updateMetadata
  refine ⟨?_, ?_, ?_, ?_⟩
  · rw [hother _ _ (by decide), hother _ _ (by decide), hother _ _ (by decide),
      hother _ _ (by decide), Std.ExtTreeMap.getElem?_insert_self]
  · rw [hother _ _ (by decide), hother _ _ (by decide), hother _ _ (by decide),
      Std.ExtTreeMap.getElem?_insert_self]
  · rw [hother _ _ (by decide), hother _ _ (by decide), Std.ExtTreeMap.getElem?_insert_self]
  · rw [hother _ _ (by decide), Std.ExtTreeMap.getElem?_insert_self]

/-- The metadata is that of the ledger after a block that is committed. -/
theorem describes_of_persistFinalized {block : Block} {certificate : CommitCertificate}
    {receipts : List TransactionReceipt} {accounts : List AccountProjection} {issuedAt : String}
    (hb : ledger.BlockApplied block receipts ledger')
    (hp : s.persistFinalized
      (finalizedProjection ledger' block certificate receipts accounts issuedAt) = .ok s') :
    s'.Describes ledger' := by
  obtain ⟨-, -, -, -, hs'⟩ := persistFinalized_eq_ok hp
  have hmetadata : s'.metadata = updateMetadata s.metadata
      (finalizedProjection ledger' block certificate receipts accounts issuedAt) := by rw [hs']
  obtain ⟨hheight, hhash, hroot, hsupply⟩ := updateMetadata_tips s.metadata
    (finalizedProjection ledger' block certificate receipts accounts issuedAt)
  have hsame : block.header.height = ledger'.height := by
    obtain ⟨c, -, rfl⟩ := hb.executed
    rfl
  constructor <;> rw [hmetadata]
  · rw [hheight, ← hsame]
    rfl
  · rw [hhash, hb.tipHash]
    rfl
  · rw [hroot, hb.root]
    rfl
  · exact hsupply

/-- The rows have the same heights and canonical bytes. -/
def SameBlobs (s s' : Store) : Prop :=
  ∀ height : UInt64, s'.blocks[height]?.map BlockRow.blobs = s.blocks[height]?.map BlockRow.blobs

omit [Primitives] [Formats] in
theorem SameBlobs.map_blobs (h : s.SameBlobs s') :
    s'.canonicalBlockRows.map BlockRow.blobs = s.canonicalBlockRows.map BlockRow.blobs :=
  BTreeMap.map_values_congr h

omit [Primitives] [Formats] in
/-- A block whose row has its canonical bytes is repaired and committed again, and its row keeps
them. -/
theorem Filed.repaired {u : Store} (h : s.Filed) (hrefresh : s.refreshBlockProjection p = .ok u)
    (hp : u.persistFinalized p = .ok s') : s'.Filed ∧ s.SameBlobs s' := by
  obtain ⟨_, -, hrefresh⟩ := Except.bind_eq_ok.1 hrefresh
  obtain ⟨_, htime, hrefresh⟩ := Except.bind_eq_ok.1 hrefresh
  obtain ⟨_, hcount, hrefresh⟩ := Except.bind_eq_ok.1 hrefresh
  split at hrefresh
  · next row hrow =>
      obtain ⟨_, hbytes, hrefresh⟩ := Except.bind_eq_ok.1 hrefresh
      obtain ⟨_, -, hrefresh⟩ := Except.bind_eq_ok.1 hrefresh
      obtain rfl := Except.pure_eq_ok.1 hrefresh
      obtain ⟨hblock, hcertificate⟩ := Except.ensure_eq_ok.1 hbytes
      refine ⟨(h.insert rfl htime hcount).persistFinalized hp, fun height => ?_⟩
      obtain ⟨-, hblocks, -⟩ := persistFinalized_eq_ok hp
      unfold insertBlock at hblocks
      rw [Std.ExtTreeMap.getElem?_insert_self] at hblocks
      obtain ⟨_, -, hblocks⟩ := Except.bind_eq_ok.1 hblocks
      rw [← Except.pure_eq_ok.1 hblocks]
      by_cases hheight : p.height = height
      · subst hheight
        rw [Std.ExtTreeMap.getElem?_insert_self, hrow]
        simp only [Option.map_some, BlockRow.blobs, blockRow, (h p.height row hrow).1, hblock,
          hcertificate]
      · rw [BTreeMap.getElem?_insert_ne hheight]
  · cases hrefresh

end Store

namespace ReindexM

open Store

variable {u u' : Store}

omit [Primitives] [Formats] in
theorem commit_eq_ok {f : Store → Except StorageError Store} {x : Unit} :
    commit f u = .ok x u' ↔ f u = .ok u' := by
  constructor
  · intro hrun
    cases hf : f u with
    | ok v => exact congrArg Except.ok (EStateM.Result.ok.inj ((commit_ok hf).symm.trans hrun)).2
    | error e => cases (commit_error hf).symm.trans hrun
  · intro hf
    exact commit_ok hf

/-- What a repair leaves of rows that it was through with. -/
theorem reindexRows_eq_ok (hu : u.Filed) (hrun : reindexRows rows ledger u = .ok ledger' u') :
    u'.Filed ∧ u.SameBlobs u' ∧ replayCanonicalRows false rows ledger = .ok ledger' ∧
      ledger'.chainId = ledger.chainId ∧ (rows = [] ∨ u'.Describes ledger') := by
  induction rows generalizing ledger u with
  | nil =>
      obtain ⟨rfl, rfl⟩ := EStateM.pure_eq_ok.1 hrun
      exact ⟨hu, fun _ => rfl, rfl, rfl, .inl rfl⟩
  | cons row rows ih =>
      obtain ⟨block, _, hread, hrun⟩ := EStateM.bind_eq_ok.1 hrun
      obtain ⟨hblock, rfl⟩ := EStateM.lift_eq_ok.1 hread
      obtain ⟨certificate, _, hread, hrun⟩ := EStateM.bind_eq_ok.1 hrun
      obtain ⟨hcertificate, rfl⟩ := EStateM.lift_eq_ok.1 hread
      cases hnext : LedgerState.applyFinalizedBlock block certificate devValidatorIds ledger with
      | error e _ =>
          rw [hnext] at hrun
          cases hrun
      | ok receipts next =>
          rw [hnext] at hrun
          have hb := (LedgerState.applyFinalizedBlock_eq_ok.1 hnext).2
          obtain ⟨s, _, hs, hrun⟩ := EStateM.bind_eq_ok.1 hrun
          obtain ⟨rfl, rfl⟩ := EStateM.get_eq_ok.1 hs
          obtain ⟨projection, _, hprojection, hrun⟩ := EStateM.bind_eq_ok.1 hrun
          obtain ⟨hprojected, rfl⟩ := EStateM.lift_eq_ok.1 hprojection
          obtain ⟨issuedAt, -, hprojected⟩ := Except.bind_eq_ok.1 hprojected
          obtain ⟨_, v, hrefresh, hrun⟩ := EStateM.bind_eq_ok.1 hrun
          obtain ⟨_, w, hpersist, hrun⟩ := EStateM.bind_eq_ok.1 hrun
          have hpersist := commit_eq_ok.1 hpersist
          obtain ⟨hw, hsame⟩ := hu.repaired (commit_eq_ok.1 hrefresh) hpersist
          obtain ⟨hu', hsame', hreplay, hchain, hlast⟩ := ih hw hrun
          refine ⟨hu', fun height => (hsame' height).trans (hsame height), ?_, ?_, .inr ?_⟩
          · rw [replayCanonicalRows_cons (Except.mapError_eq_ok.1 hblock)
              (Except.mapError_eq_ok.1 hcertificate) hnext Bool.false_ne_true.elim]
            exact hreplay
          · obtain ⟨c, hts, rfl⟩ := hb.executed
            exact hchain.trans (LedgerState.changes_of_run hts).fixed.1
          · rcases hlast with rfl | hlast
            · -- this block is the last one
              obtain ⟨rfl, rfl⟩ := EStateM.pure_eq_ok.1 hrun
              rw [← Except.pure_eq_ok.1 hprojected] at hpersist
              exact describes_of_persistFinalized hb hpersist
            · exact hlast

end ReindexM

/-! ## Databases that were repaired -/

omit [Primitives] [Formats] in
theorem SqlValue.lt_of_toU64 {v : SqlValue} {n : UInt64} (h : v.toU64 = .ok n) :
    n.toNat < 2 ^ 63 := by
  cases v with
  | integer k =>
      change (if 0 ≤ k then Except.ok k.toUInt64 else _) = Except.ok n at h
      split at h
      · next hk =>
          obtain rfl := Except.ok.inj h
          have hint : k.toInt = (k.toUInt64.toBitVec).toInt := rfl
          have hnat : k.toUInt64.toNat = k.toUInt64.toBitVec.toNat := rfl
          have hpos : 0 ≤ k.toInt := Int64.le_iff_toInt_le.1 hk
          have hlt := k.toUInt64.toBitVec.isLt
          rw [hint, BitVec.toInt_eq_toNat_cond] at hpos
          split at hpos <;> omega
      · cases h
  | real | text | blob => cases h

omit [Primitives] [Formats] in
theorem Store.filed_of_load {d : Database} (h : d.load = .ok s) : s.Filed := by
  intro height row hrow
  obtain ⟨b, -, hread⟩ := (Database.row_of_load h).1 hrow
  refine ⟨Database.keys_of_load h hrow, ?_⟩
  simp only [StoredBlock.read, Except.bind_eq_ok] at hread
  obtain ⟨_, -, _, -, _, -, _, -, _, -, timestampMs, htime, transactionCount, hcount, hrow⟩ := hread
  obtain rfl := Except.pure_eq_ok.1 hrow
  exact ⟨SqlValue.lt_of_toU64 htime, SqlValue.lt_of_toU64 hcount⟩

omit [Primitives] [Formats] in
theorem Store.blobs_file (h : s.Filed) :
    s.file.blobs = s.canonicalBlockRows.map BlockRow.blobs :=
  (Database.blobs_of_load (load_file h)).symm

omit [Formats] in
/-- The file of a store is certified if its rows are. -/
theorem Store.Filed.certified {chainId : ChainId} (h : s.Filed)
    (hrows : s.canonicalBlockRows = history.map fun p => finalizedRow p.1 p.2)
    (hrun : LedgerState.applyFinalizedBlocks devValidatorIds history (.new chainId) = .ok () ledger)
    (hdescribes : history = [] ∨ s.Describes ledger) : s.file.Certified chainId history ledger :=
  ⟨⟨s, load_file h, hrows, hdescribes⟩, hrun⟩

/-- A repair that succeeds leaves rows that are certified, and has changed no canonical bytes. -/
theorem ReindexM.certified_of_reindexStore {u : Store} {chainId : ChainId} {report : ReplayReport}
    (h : s.Filed) (hrun : reindexStore chainId s = .ok report u) :
    u.file.blobs = s.canonicalBlockRows.map BlockRow.blobs ∧ ∃ history ledger,
      u.file.Certified chainId history ledger ∧ report = .of ledger := by
  obtain ⟨s₀, _, hget, hrun⟩ := EStateM.bind_eq_ok.1 hrun
  obtain ⟨rfl, rfl⟩ := EStateM.get_eq_ok.1 hget
  obtain ⟨_, _, hfirst, hrun⟩ := EStateM.bind_eq_ok.1 hrun
  obtain ⟨-, rfl⟩ := EStateM.lift_eq_ok.1 hfirst
  obtain ⟨_, _, hclear, hrun⟩ := EStateM.bind_eq_ok.1 hrun
  obtain rfl := EStateM.modify_eq_ok.1 hclear
  obtain ⟨last, u', hrows, hrun⟩ := EStateM.bind_eq_ok.1 hrun
  obtain ⟨_, _, hget, hrun⟩ := EStateM.bind_eq_ok.1 hrun
  obtain ⟨rfl, rfl⟩ := EStateM.get_eq_ok.1 hget
  obtain ⟨hverify, rfl⟩ := EStateM.lift_eq_ok.1 hrun
  have hcleared : s.clearProjections.Filed := h.of_blocks rfl
  obtain ⟨hu, hsame, hreplay, hchain, hlast⟩ := reindexRows_eq_ok hcleared hrows
  have hchain : last.chainId = chainId := hchain
  rw [hchain] at hverify
  obtain ⟨history, ledger, hhistory, hledger, rfl⟩ := verifyStore_eq_ok.1 hverify
  have hblobs : u'.canonicalBlockRows.map BlockRow.blobs =
      s.canonicalBlockRows.map BlockRow.blobs := hsame.map_blobs
  -- the rows before and after have the same canonical bytes, so the same ledger
  have hsaid : s.canonicalBlockRows.map BlockRow.blobs = history.map finalizedBlobs := by
    rw [← hblobs, hhistory, List.map_map]
    rfl
  have hagain : replayCanonicalRows false s.canonicalBlockRows (.new chainId) = .ok ledger :=
    replayCanonicalRows_eq_ok hsaid hledger Bool.false_ne_true.elim
  obtain rfl := Except.ok.inj (hreplay.symm.trans hagain)
  refine ⟨(Store.blobs_file hu).trans hblobs, history, last,
    hu.certified hhistory hledger (hlast.imp (fun hnil => ?_) id), rfl⟩
  rw [hnil] at hsaid
  exact List.map_eq_nil_iff.1 hsaid.symm

/-- A repair that succeeds is followed by a verification that succeeds. -/
theorem reindexDatabase_of_reindex {d : Database} {chainId : String} {c : ChainId}
    {report : ReplayReport} (db : String) (hc : ChainId.new chainId = .ok c)
    (h : d.reindex c = .ok (report, s)) :
    ∃ history ledger, s.file.Certified c history ledger ∧ d.blobs = history.map finalizedBlobs ∧
      reindexDatabase db chainId (some d) = .ok (.of db c history ledger, s.file) := by
  obtain ⟨s₀, hload, hrun⟩ := Database.reindex_eq_ok.1 h
  obtain ⟨hblobs, history, ledger, hcertified, -⟩ :=
    ReindexM.certified_of_reindexStore (Store.filed_of_load hload) hrun
  refine ⟨history, ledger, hcertified, ?_, ?_⟩
  · rw [← Database.blobs_of_load hload, ← hblobs, hcertified.blobs]
  · have hverify : verifyDatabase db chainId (some s.file) = .ok (.of db c history ledger) :=
      verifyDatabase_eq_ok.2 ⟨_, c, history, ledger, rfl, hc, hcertified, rfl⟩
    refine Except.bind_eq_ok.2 ⟨c, Except.mapError_eq_ok.2 hc, ?_⟩
    refine Except.bind_eq_ok.2 ⟨(report, s), Except.mapError_eq_ok.2 h, ?_⟩
    exact Except.bind_eq_ok.2 ⟨_, hverify, rfl⟩

/-! ## The file of a node -/

omit [Formats] in
/-- The history of a database is the one that its canonical bytes are decoded to. -/
theorem Database.Certified.unique {d d' : Database} {chainId : ChainId} {history' : BlockHistory}
    (h : d.Certified chainId history ledger) (h' : d'.Certified chainId history' ledger')
    (hblobs : d.blobs = d'.blobs) : history = history' ∧ ledger = ledger' := by
  let read (b : UInt64 × List UInt8 × List UInt8) : Option Block × Option CommitCertificate :=
    ((Block.decode b.2.1).toOption, (CommitCertificate.decode b.2.2).toOption)
  have hread : ∀ {chainId : ChainId} {history : BlockHistory} {ledger : LedgerState},
      LedgerState.applyFinalizedBlocks devValidatorIds history (.new chainId) = .ok () ledger →
      (history.map finalizedBlobs).map read = history.map fun p => (some p.1, some p.2) := by
    intro chainId history ledger hrun
    rw [List.map_map]
    refine List.map_congr_left fun p hp => ?_
    obtain ⟨hblock, hcertificate⟩ := LedgerState.applyFinalizedBlocks_decodable hrun hp
    change ((Block.decode p.1.canonicalBytes).toOption,
      (CommitCertificate.decode p.2.canonicalBytes).toOption) = _
    rw [hblock, hcertificate]
    rfl
  rw [h.blobs, h'.blobs] at hblobs
  have hmap := (hread h.run).symm.trans ((congrArg _ hblobs).trans (hread h'.run))
  have hinj : Function.Injective fun p : Block × CommitCertificate => (some p.1, some p.2) := by
    intro p q hpq
    obtain ⟨hblock, hcertificate⟩ := Prod.mk.inj hpq
    exact Prod.ext (Option.some.inj hblock) (Option.some.inj hcertificate)
  obtain rfl := List.map_injective_iff.2 hinj hmap
  exact ⟨rfl, (EStateM.Result.ok.inj (h.run.symm.trans h'.run)).2⟩

variable {config : NodeConfig} {t t' : Turn} {m : Machine}

/-- The store of the actor is as a file of it would be accepted. -/
structure Turn.Described (config : NodeConfig) (t : Turn) : Prop where
  wired : t.actor.Wired config
  filed : t.actor.store.Filed
  history : ∃ history, t.actor.Chained history ∧
    (history = [] ∨ t.actor.store.Describes t.actor.ledger)

theorem Turn.Described.move (h : t.Described config) (hmove : t.Move t') : t'.Described config := by
  have hw' := h.wired.move hmove
  obtain ⟨history, hc, hdescribes⟩ := h.history
  rcases hmove.tables with ⟨hledger, htables⟩ | ⟨block, certificate, receipts, candidate, store,
    hcommits, rfl⟩
  · refine ⟨hw', h.filed.of_blocks htables.blocks, history, ?_, ?_⟩
    · have hsame := h.wired.same hw'
      exact hc.of_same hledger htables.blocks hsame.2 hsame.1
    · refine hdescribes.imp_right fun hd => ?_
      rw [hledger]
      constructor <;> rw [htables.metadata]
      exacts [hd.height, hd.hash, hd.root, hd.supply]
  · obtain ⟨u, u', projection, -, hprojection, hstore⟩ := hcommits.store
    obtain ⟨accounts, issuedAt, v, -, -, rfl⟩ := buildProjection_eq_ok hprojection
    obtain ⟨-, hb⟩ := LedgerState.applyFinalizedBlock_eq_ok.1 hcommits.ledger
    exact ⟨hw', h.filed.persistFinalized hstore, _, hc.commit hcommits,
      .inr (Store.describes_of_persistFinalized hb hstore)⟩

/-- The file of a store is certified on the configured chain. -/
def Store.Certified (config : NodeConfig) (s : Store) : Prop :=
  s.Filed ∧ ∃ history chainId ledger, s.Holds history ∧
    (∀ c, ChainId.new config.chainId = .ok c → c = chainId) ∧
    LedgerState.applyFinalizedBlocks devValidatorIds history (.new chainId) = .ok () ledger ∧
    (history = [] ∨ s.Describes ledger)

theorem Machine.Reachable.certified (h : Machine.Reachable config m) : m.store.Certified config := by
  refine (h.invariant (S := Store.Certified config) (J := Turn.Described config) ?_ ?_
    (fun _ _ ht => ⟨ht.wired, ht.filed, ht.history⟩) (fun _ _ ht hmove => ht.move hmove) ?_).1
  · refine ⟨Store.filed_empty, [], ?_⟩
    cases hchain : ChainId.new config.chainId with
    | ok c => exact ⟨c, _, Store.holds_empty, by rintro _ ⟨⟩; rfl, rfl, .inl rfl⟩
    | error e => exact ⟨⟨""⟩, _, Store.holds_empty, by rintro _ ⟨⟩, rfl, .inl rfl⟩
  · rintro store a env ⟨hfiled, history, chainId, ledger, hholds, hchain, hrun, hdescribes⟩ hs
    obtain rfl := hchain a.chainId hs.wired.chainId
    obtain ⟨hc, hledger⟩ := Machine.chained_of_started hholds hs hrun
    refine ⟨hs.wired, hs.store_eq ▸ hfiled, history, hc, ?_⟩
    change history = [] ∨ a.store.Describes a.ledger
    rw [hledger, hs.store_eq]
    exact hdescribes
  · rintro t ⟨hw, hfiled, history, hc, hdescribes⟩
    have hrun := hc.replay
    rw [hw.validatorIds] at hrun
    exact ⟨hfiled, history, t.actor.chainId, t.actor.ledger, hc.holds,
      fun c hchain => Except.ok.inj (hchain.symm.trans hw.chainId), hrun, hdescribes⟩

/-- Whatever a node is left with, also when it crashes in the middle of a command, a verification of its
database accepts it and reports the ledger of its blocks. If the tables that can be computed are lost
and a repair of them succeeds, the verification after the repair accepts the database too and reports
the same. -/
theorem Machine.verify_accepts {c : ChainId} (h : Machine.Reachable config m)
    (hc : ChainId.new config.chainId = .ok c) (db : String) :
    ∃ history ledger, m.store.Holds history ∧
      LedgerState.applyFinalizedBlocks devValidatorIds history (.new c) = .ok () ledger ∧
      verifyDatabase db config.chainId (some m.store.file) = .ok (.of db c history ledger) ∧
      ∀ d report s, d.blobs = m.store.file.blobs → d.reindex c = .ok (report, s) →
        reindexDatabase db config.chainId (some d) = .ok (.of db c history ledger, s.file) := by
  obtain ⟨hfiled, history, chainId, ledger, hholds, hchain, hrun, hdescribes⟩ := h.certified
  obtain rfl := hchain c hc
  have hcertified := hfiled.certified hholds.rows hrun hdescribes
  refine ⟨history, ledger, hholds, hrun, verifyDatabase_eq_ok.2 ⟨_, c, history, ledger, rfl, hc,
    hcertified, rfl⟩, fun d report s hblobs hreindex => ?_⟩
  obtain ⟨history', ledger', hcertified', hsaid, hok⟩ := reindexDatabase_of_reindex db hc hreindex
  have hsame : s.file.blobs = m.store.file.blobs := by
    rw [← hblobs, hsaid, hcertified'.blobs]
  obtain ⟨rfl, rfl⟩ := hcertified'.unique hcertified hsame
  exact hok

end

open scoped Sample in
/-- A node that committed a block. -/
theorem Machine.verify_accepts_tick : ∃ m history ledger,
    Machine.play Sample.standalone Sample.environment [.tick] = some m ∧ m.store.Holds history ∧
    m.store.blocks.size = 1 ∧ verifyDatabase "kcoin.db" "kcoin-local" (some m.store.file) =
      .ok (.of "kcoin.db" ⟨"kcoin-local"⟩ history ledger) := by
  have hrun : (Machine.play Sample.standalone Sample.environment [.tick]).any fun m =>
      decide (m.store.blocks.size = 1) := by
    decide +kernel
  obtain ⟨m, hm, hsize⟩ := (Option.any_eq_true ..).1 hrun
  have hchain : ChainId.new Sample.standalone.chainId = .ok ⟨"kcoin-local"⟩ := by decide +kernel
  obtain ⟨history, ledger, hholds, -, hverify, -⟩ :=
    Machine.verify_accepts (Machine.play_reachable hm) hchain "kcoin.db"
  exact ⟨m, history, ledger, hm, hholds, of_decide_eq_true hsize, hverify⟩

end KCoin
