import KCoin.Protocol.Codec
import KCoin.Protocol.Execution
import KCoin.Node.Machine
import KCoin.Node.Sample

/-!
# The stored history

The block table of a node is its history: the finalized blocks with their certificates, in the order
of their heights. The ledger of a running node is what the execution of this history from the
beginning gives (`NodeActor.Chained`), because a block is executed, stored, and only then becomes
part of the ledger. So it is at every point of a run, and a restart after a crash finds the ledger
of one of these points (`durable_history`).
-/

open Relation EStateM Borsh

namespace KCoin

/-- Finalized blocks with their certificates. -/
abbrev BlockHistory := List (Block × CommitCertificate)

/-! ## Executing a history -/

namespace LedgerState

variable [Primitives] {validators : List ValidatorId} {s s' : LedgerState}

theorem applyFinalizedBlock_eq_ok {b : Block} {c : CommitCertificate}
    {rs : List TransactionReceipt} : applyFinalizedBlock b c validators s = .ok rs s' ↔
      c.verifyForBlock b validators = .ok () ∧ s.BlockApplied b rs s' := by
  simp only [applyFinalizedBlock, EStateM.bind_eq_ok, EStateM.lift_eq_ok, applyBlock_eq_ok]
  constructor
  · rintro ⟨_, _, ⟨hc, rfl⟩, hb⟩
    exact ⟨hc, hb⟩
  · rintro ⟨hc, hb⟩
    exact ⟨(), s, ⟨hc, rfl⟩, hb⟩

theorem applyFinalizedBlocks_append {h h' : BlockHistory} :
    applyFinalizedBlocks validators (h ++ h') s = .ok () s' ↔
      ∃ s₁, applyFinalizedBlocks validators h s = .ok () s₁ ∧
        applyFinalizedBlocks validators h' s₁ = .ok () s' := by
  induction h generalizing s with
  | nil => simp [applyFinalizedBlocks]
  | cons p h ih =>
      simp only [List.cons_append, applyFinalizedBlocks, EStateM.bind_eq_ok, ih]
      constructor
      · rintro ⟨rs, s₂, hp, s₁, hh, hh'⟩
        exact ⟨s₁, ⟨rs, s₂, hp, hh⟩, hh'⟩
      · rintro ⟨s₁, ⟨rs, s₂, hp, hh⟩, hh'⟩
        exact ⟨rs, s₂, hp, s₁, hh, hh'⟩

theorem applyFinalizedBlocks_singleton {b : Block} {c : CommitCertificate} :
    applyFinalizedBlocks validators [(b, c)] s = .ok () s' ↔
      ∃ rs, applyFinalizedBlock b c validators s = .ok rs s' := by
  simp only [applyFinalizedBlocks, EStateM.bind_eq_ok, EStateM.pure_eq_ok]
  constructor
  · rintro ⟨rs, _, h, -, rfl⟩
    exact ⟨rs, h⟩
  · rintro ⟨rs, h⟩
    exact ⟨rs, s', h, trivial, rfl⟩

/-- The blocks of a history have consecutive heights. -/
theorem applyFinalizedBlocks_heights {h : BlockHistory}
    (hrun : applyFinalizedBlocks validators h s = .ok () s') :
    h.map (·.1.header.height.toNat) = List.range' (s.height.toNat + 1) h.length ∧
      s'.height.toNat = s.height.toNat + h.length := by
  induction h generalizing s with
  | nil =>
      obtain ⟨-, rfl⟩ := EStateM.pure_eq_ok.1 hrun
      exact ⟨rfl, rfl⟩
  | cons p h ih =>
      obtain ⟨rs, s₁, hp, hrest⟩ := EStateM.bind_eq_ok.1 hrun
      have hb := (applyFinalizedBlock_eq_ok.1 hp).2
      obtain ⟨c, -, rfl⟩ := hb.executed
      obtain ⟨hheights, hheight⟩ := ih hrest
      have hone : (c.finish p.1).height.toNat = s.height.toNat + 1 := hb.height
      rw [hone] at hheights hheight
      refine ⟨?_, by rw [hheight, List.length_cons]; omega⟩
      rw [List.map_cons, hheights, hb.height, List.length_cons, List.range'_succ]

/-- No block of a history is above the ledger after it. -/
theorem applyFinalizedBlocks_height_le {h : BlockHistory}
    (hrun : applyFinalizedBlocks validators h s = .ok () s') {p : Block × CommitCertificate}
    (hp : p ∈ h) : p.1.header.height.toNat ≤ s'.height.toNat := by
  obtain ⟨hheights, hheight⟩ := applyFinalizedBlocks_heights hrun
  have hmem := List.mem_map_of_mem (f := fun p => p.1.header.height.toNat) hp
  rw [hheights, List.mem_range'_1] at hmem
  omega

/-- The blocks of a history and their certificates can be decoded from their bytes. -/
theorem applyFinalizedBlocks_decodable {h : BlockHistory}
    (hrun : applyFinalizedBlocks validators h s = .ok () s') {p : Block × CommitCertificate}
    (hp : p ∈ h) : Block.decode p.1.canonicalBytes = .ok p.1 ∧
      CommitCertificate.decode p.2.canonicalBytes = .ok p.2 := by
  induction h generalizing s with
  | nil => cases hp
  | cons q h ih =>
      obtain ⟨rs, s₁, hq, hrest⟩ := EStateM.bind_eq_ok.1 hrun
      rcases List.mem_cons.1 hp with rfl | hp
      · obtain ⟨hcert, hb⟩ := applyFinalizedBlock_eq_ok.1 hq
        refine ⟨Block.decode_iff.2 ⟨hb.commitments, rfl⟩, CommitCertificate.decode_iff.2 ⟨rfl, ?_⟩⟩
        simp only [CommitCertificate.verifyForBlock, CommitCertificate.verify, Except.bind_eq_ok,
          Except.ensure_eq_ok] at hcert
        obtain ⟨_, _, _, _, _, _, _, hlen, _⟩ := hcert
        exact hlen
      · exact ih hrest hp

/-- Each block of a history that executes has a certificate of the validators. -/
theorem applyFinalizedBlocks_verified {h : BlockHistory}
    (hrun : applyFinalizedBlocks validators h s = .ok () s') {p : Block × CommitCertificate}
    (hp : p ∈ h) : p.2.verifyForBlock p.1 validators = .ok () := by
  induction h generalizing s with
  | nil => cases hp
  | cons q h ih =>
      obtain ⟨rs, s₁, hq, hrest⟩ := EStateM.bind_eq_ok.1 hrun
      rcases List.mem_cons.1 hp with rfl | hp
      · exact (applyFinalizedBlock_eq_ok.1 hq).1
      · exact ih hrest hp

theorem replayFinalizedBlocks_eq_ok {chainId : ChainId} {h : BlockHistory} :
    replayFinalizedBlocks chainId h validators = .ok s ↔
      applyFinalizedBlocks validators h (LedgerState.new chainId) = .ok () s := by
  unfold replayFinalizedBlocks
  cases applyFinalizedBlocks validators h (LedgerState.new chainId) <;> simp

theorem Applied.mem_applied {t : SignedTransaction} {r : TransactionReceipt}
    (h : s.Applied t r s') (id : Hash32) :
    id ∈ s'.appliedTransactions ↔ id = t.id ∨ id ∈ s.appliedTransactions := by
  cases h <;> exact mem_applied_store _ _ _ _ id

/-- The transactions of a run are new and distinct. -/
theorem applyTransactions_fresh {ts : List SignedTransaction} {h : UInt64}
    {rs : List TransactionReceipt} (hrun : applyTransactions ts h s = .ok rs s') :
    (ts.map (·.id)).Nodup ∧ ∀ id ∈ ts.map (·.id), id ∉ s.appliedTransactions := by
  induction ts generalizing s rs with
  | nil => exact ⟨.nil, nofun⟩
  | cons t ts ih =>
      obtain ⟨r, s₁, rs', hr, hrest, -⟩ := applyTransactions_cons_eq_ok.1 hrun
      obtain ⟨hv, happlied⟩ := applyTransaction_eq_ok hr
      obtain ⟨hnodup, hfresh⟩ := ih hrest
      have hnew : ∀ id ∈ ts.map (·.id), id ≠ t.id ∧ id ∉ s.appliedTransactions := by
        intro id hid
        have hnot := hfresh id hid
        rw [happlied.mem_applied] at hnot
        exact not_or.1 hnot
      refine ⟨List.nodup_cons.2 ⟨fun hmem => (hnew t.id hmem).1 rfl, hnodup⟩, ?_⟩
      intro id hid
      rcases List.mem_cons.1 hid with rfl | hid
      · exact hv.fresh
      · exact (hnew id hid).2

end LedgerState

/-! ## The block table -/

section
variable [Primitives]

/-- The row of a finalized block. -/
def finalizedRow (block : Block) (certificate : CommitCertificate) : BlockRow where
  height := block.header.height
  blockHash := block.hash.toText
  parentHash := block.header.parentHash.toText
  stateRoot := block.header.stateRoot.toText
  proposer := hexEncode block.header.proposer.bytes.toList
  round := block.header.round
  timestampMs := block.header.timestampMs
  transactionCount := UInt64.ofNat block.transactions.length
  blockBytes := block.canonicalBytes
  certificateBytes := certificate.canonicalBytes

namespace Store

/-- The block table has the rows of a history, under their heights. -/
structure Holds (s : Store) (history : BlockHistory) : Prop where
  rows : s.canonicalBlockRows = history.map fun p => finalizedRow p.1 p.2
  keys : ∀ (k : UInt64) (row : BlockRow), s.blocks[k]? = some row →
    row.height = k ∧ k.toNat < 2 ^ 63

theorem holds_empty : Store.empty.Holds [] := ⟨rfl, nofun⟩

/-- The rows of a history that can be decoded are decoded to it. -/
theorem decodeHistory_rows {history : BlockHistory}
    (hdecodable : ∀ p ∈ history, Block.decode p.1.canonicalBytes = .ok p.1 ∧
      CommitCertificate.decode p.2.canonicalBytes = .ok p.2) :
    decodeHistory (history.map fun p => finalizedRow p.1 p.2) = .ok history := by
  induction history with
  | nil => rfl
  | cons p history ih =>
      obtain ⟨hblock, hcertificate⟩ := hdecodable p List.mem_cons_self
      have hrest := ih fun q hq => hdecodable q (List.mem_cons_of_mem _ hq)
      unfold KCoin.decodeHistory at hrest ⊢
      rw [List.map_cons, List.mapM_cons, hrest]
      simp only [finalizedRow, hblock, hcertificate]
      rfl

theorem Holds.decodeHistory {s : Store} {history : BlockHistory} (h : s.Holds history)
    (hdecodable : ∀ p ∈ history, Block.decode p.1.canonicalBytes = .ok p.1 ∧
      CommitCertificate.decode p.2.canonicalBytes = .ok p.2) :
    decodeHistory s.canonicalBlockRows = .ok history := by
  rw [h.rows]
  exact decodeHistory_rows hdecodable

omit [Primitives] in
theorem insertBlock_new {blocks blocks' : BTreeMap UInt64 BlockRow} {p : FinalizedProjection}
    (hnew : blocks[p.height]? = none) (h : insertBlock blocks p = .ok blocks') :
    blocks' = blocks.insert p.height (blockRow p) ∧
      (∀ row ∈ blocks.values, row.blockHash ≠ p.blockHash) ∧
      bindInteger p.timestampMs = .ok () ∧
      bindInteger (UInt64.ofNat p.transactions.length) = .ok () := by
  unfold insertBlock at h
  rw [hnew] at h
  obtain ⟨_, htime, h⟩ := Except.bind_eq_ok.1 h
  obtain ⟨_, hcount, h⟩ := Except.bind_eq_ok.1 h
  obtain ⟨_, hunique, h⟩ := Except.bind_eq_ok.1 h
  refine ⟨(Except.pure_eq_ok.1 h).symm, fun row hrow => ?_, htime, hcount⟩
  simpa using List.all_eq_true.1 (Except.ensure_eq_ok.1 hunique) row hrow

/-- The row of the next block goes to the end of the table. -/
theorem Holds.persistFinalized {s s' : Store} {history : BlockHistory} (hs : s.Holds history)
    {p : FinalizedProjection} {block : Block} {certificate : CommitCertificate}
    (hrow : blockRow p = finalizedRow block certificate)
    (hlt : ∀ q ∈ history, q.1.header.height < block.header.height)
    (h : s.persistFinalized p = .ok s') : s'.Holds (history ++ [(block, certificate)]) := by
  obtain ⟨hheight, hblocks, -⟩ := persistFinalized_eq_ok h
  have hp : p.height = block.header.height := congrArg BlockRow.height hrow
  have hbefore : ∀ (k : UInt64) (row : BlockRow), s.blocks[k]? = some row → k < p.height := by
    intro k row hk
    have hmem : row ∈ s.canonicalBlockRows := BTreeMap.mem_values_iff.2 ⟨k, hk⟩
    rw [hs.rows] at hmem
    obtain ⟨q, hq, rfl⟩ := List.mem_map.1 hmem
    rw [← (hs.keys k _ hk).1, hp]
    exact hlt q hq
  have hnew : s.blocks[p.height]? = none := by
    cases hk : s.blocks[p.height]? with
    | none => rfl
    | some row => exact absurd (hbefore _ row hk) (UInt64.lt_irrefl _)
  obtain ⟨hinsert, -⟩ := insertBlock_new hnew hblocks
  refine ⟨?_, fun k row hk => ?_⟩
  · change s'.blocks.values = _
    rw [hinsert, BTreeMap.values_insert_last _ fun l w hl => ?_, List.map_append, hrow]
    · exact congrArg (· ++ _) hs.rows
    · exact Std.compare_eq_lt.2 (hbefore l w hl)
  · rw [hinsert, Std.ExtTreeMap.getElem?_insert] at hk
    split at hk
    · next hc =>
        obtain rfl := Option.some.inj hk
        obtain rfl := Std.compare_eq_iff_eq.1 hc
        exact ⟨rfl, hheight⟩
    · exact hs.keys k row hk

end Store

end

/-! ## The projection of a block -/

section
variable [Primitives] [Formats]

omit [Primitives] [Formats] in
/-- A challenge as it is shown. -/
def Challenge.expression (c : Challenge) : String :=
  s!"{c.left} {operationSymbol c.operation} {c.right}"

/-- The projection of a block with the given rows of accounts and issue height. -/
def finalizedProjection (candidate : LedgerState) (block : Block) (certificate : CommitCertificate)
    (receipts : List TransactionReceipt) (changedAccounts : List AccountProjection)
    (issuedAtHeight : String) : FinalizedProjection where
  height := block.header.height
  blockHash := block.hash.toText
  parentHash := block.header.parentHash.toText
  stateRoot := block.header.stateRoot.toText
  proposer := hexEncode block.header.proposer.bytes.toList
  round := block.header.round
  timestampMs := block.header.timestampMs
  blockBytes := block.canonicalBytes
  certificateBytes := certificate.canonicalBytes
  transactions := receipts.mapIdx TransactionReceipt.projection
  changedAccounts
  issuedSupplyAtoms := candidate.totalSupplyAtoms
  challengeJson := Formats.challengeToText
    { challengeId := s!"{candidate.currentChallenge.id}"
      expression := candidate.currentChallenge.expression
      issuedAtHeight
      rewardAtoms := s!"{(rewardForSupply candidate.totalSupplyAtoms).getD 0}" }

theorem buildProjection_eq_ok {candidate : LedgerState} {block : Block}
    {certificate : CommitCertificate} {receipts : List TransactionReceipt}
    {p : FinalizedProjection} {t u : Turn}
    (h : NodeM.buildProjection candidate block certificate receipts t = .ok p u) :
    ∃ accounts issuedAt v,
      NodeM.projectAccounts (accountActivity (receipts.mapIdx TransactionReceipt.projection))
        candidate.accounts.toList t = .ok accounts v ∧
      NodeM.challengeIssuedAt candidate receipts v = .ok issuedAt u ∧
      p = finalizedProjection candidate block certificate receipts accounts issuedAt := by
  obtain ⟨accounts, v, haccounts, h⟩ := EStateM.bind_eq_ok.1 h
  obtain ⟨issuedAt, w, hissued, h⟩ := EStateM.bind_eq_ok.1 h
  obtain ⟨rfl, rfl⟩ := EStateM.pure_eq_ok.1 h
  exact ⟨accounts, issuedAt, v, haccounts, hissued, rfl⟩

/-! ## Steps and the history -/

omit [Primitives] [Formats] in
/-- The finalized tables are the same. -/
structure Store.SameTables (s s' : Store) : Prop where
  blocks : s'.blocks = s.blocks
  transactions : s'.transactions = s.transactions
  accounts : s'.accounts = s.accounts
  metadata : s'.metadata = s.metadata

namespace Store

variable {s s' : Store}

omit [Primitives] [Formats]

theorem SameTables.refl (s : Store) : s.SameTables s := ⟨rfl, rfl, rfl, rfl⟩

theorem persistConsensusProposal_tables {p : PersistedConsensusProposal}
    (h : s.persistConsensusProposal p = .ok s') : s.SameTables s' := by
  obtain ⟨_, -, h⟩ := Except.bind_eq_ok.1 h
  split at h
  · obtain ⟨_, -, h⟩ := Except.bind_eq_ok.1 h
    obtain rfl := Except.pure_eq_ok.1 h
    exact .refl _
  · obtain rfl := Except.pure_eq_ok.1 h
    exact ⟨rfl, rfl, rfl, rfl⟩

theorem persistConsensusDecision_tables {row : PersistedConsensusDecision} {signature : List UInt8}
    (h : s.persistConsensusDecision row = .ok (signature, s')) : s.SameTables s' := by
  obtain ⟨height, -, h⟩ := Except.bind_eq_ok.1 h
  split at h
  · obtain ⟨_, -, h⟩ := Except.bind_eq_ok.1 h
    obtain ⟨_, -, h⟩ := Except.bind_eq_ok.1 h
    obtain ⟨_, -, h⟩ := Except.bind_eq_ok.1 h
    split at h <;> cases Except.pure_eq_ok.1 h <;> exact ⟨rfl, rfl, rfl, rfl⟩
  · obtain ⟨_, -, h⟩ := Except.bind_eq_ok.1 h
    cases Except.pure_eq_ok.1 h
    exact ⟨rfl, rfl, rfl, rfl⟩

end Store

section
variable {t t' : Turn}

theorem Turn.Work.tables (h : t.Work t') :
    t'.actor.ledger = t.actor.ledger ∧ t.actor.store.SameTables t'.actor.store := by
  cases h with
  | storeProposal p safety decision block row store _ _ _ _ _ h =>
      exact ⟨rfl, Store.persistConsensusProposal_tables h⟩
  | storeDecision message safety row signature store _ _ _ h =>
      exact ⟨rfl, Store.persistConsensusDecision_tables h⟩
  | receive signed block row store _ _ h => exact ⟨rfl, Store.persistConsensusProposal_tables h⟩
  | _ => exact ⟨rfl, rfl, rfl, rfl, rfl⟩

/-- A step commits a block, or leaves the ledger and the finalized tables as they are. -/
theorem Turn.Move.tables (h : t.Move t') :
    (t'.actor.ledger = t.actor.ledger ∧ t.actor.store.SameTables t'.actor.store) ∨
      ∃ block certificate receipts candidate store,
        t.actor.Commits block certificate receipts candidate store ∧
        t' = (t.stored store).withActor (t.actor.committed candidate store) := by
  cases h with
  | quiet h =>
      refine .inl ⟨h.sameCore.ledger, ?_⟩
      rw [h.sameCore.store]
      exact .refl _
  | commit block certificate receipts candidate store live h =>
      exact .inr ⟨block, certificate, receipts, candidate, store, h, rfl⟩
  | work hd h => exact .inl h.tables
  | _ => exact .inl ⟨rfl, .refl _⟩

end

/-- The row of a block that applies after the stored history goes to the end of the table. -/
theorem Store.Holds.commit {s s' : Store} {history : BlockHistory} {validators : List ValidatorId}
    {first ledger candidate : LedgerState} {block : Block} {certificate : CommitCertificate}
    {receipts : List TransactionReceipt} {accounts : List AccountProjection} {issuedAt : String}
    (h : s.Holds history)
    (hreplay : LedgerState.applyFinalizedBlocks validators history first = .ok () ledger)
    (hb : ledger.BlockApplied block receipts candidate)
    (hstore : s.persistFinalized
      (finalizedProjection candidate block certificate receipts accounts issuedAt) = .ok s') :
    s'.Holds (history ++ [(block, certificate)]) := by
  obtain ⟨c, hrun, -⟩ := hb.executed
  have hlen : receipts.length = block.transactions.length := LedgerState.length_receipts hrun
  refine h.persistFinalized ?_ (fun q hq => ?_) hstore
  · simp [Store.blockRow, finalizedRow, finalizedProjection, hlen]
  · have hle := LedgerState.applyFinalizedBlocks_height_le hreplay hq
    rw [UInt64.lt_iff_toNat_lt, hb.height]
    omega

/-! ## The node and its history -/

namespace NodeActor

/-- The ledger is the result of the stored history. -/
structure Chained (a : NodeActor) (history : BlockHistory) : Prop where
  holds : a.store.Holds history
  replay : LedgerState.applyFinalizedBlocks a.validatorIds history (.new a.chainId) = .ok () a.ledger

variable {config : NodeConfig} {a : NodeActor} {history : BlockHistory}

omit [Formats] in
/-- The stored blocks are those from 1 to the height of the ledger. -/
theorem Chained.heights (h : a.Chained history) :
    a.store.canonicalBlockRows.map (·.height.toNat) = List.range' 1 a.ledger.height.toNat := by
  obtain ⟨hheights, hheight⟩ := LedgerState.applyFinalizedBlocks_heights h.replay
  have hzero : (LedgerState.new a.chainId).height.toNat = 0 := rfl
  rw [hzero, Nat.zero_add] at hheights hheight
  rw [h.holds.rows, List.map_map, hheight]
  exact hheights

omit [Formats] in
/-- The height of the ledger fits the signed column of the block table. -/
theorem Chained.height_bound (h : a.Chained history) : a.ledger.height.toNat < 2 ^ 63 := by
  rcases Nat.eq_zero_or_pos a.ledger.height.toNat with hzero | hpos
  · omega
  · have hmem : a.ledger.height.toNat ∈ a.store.canonicalBlockRows.map (·.height.toNat) := by
      rw [h.heights, List.mem_range'_1]
      omega
    obtain ⟨row, hrow, heq⟩ := List.mem_map.1 hmem
    obtain ⟨k, hk⟩ := BTreeMap.mem_values_iff.1 hrow
    obtain ⟨hkey, hlt⟩ := h.holds.keys k row hk
    rw [← heq, hkey]
    exact hlt

omit [Formats] in
/-- The next height can be written. -/
theorem Chained.next_height (h : a.Chained history) :
    checkedAdd a.ledger.height 1 = some (a.ledger.height + 1) ∧
      saturatingAdd a.ledger.height 1 = a.ledger.height + 1 := by
  have hlt : a.ledger.height.toNat + (1 : UInt64).toNat < 2 ^ 64 := by
    have hbound := h.height_bound
    change _ + 1 < _
    omega
  exact ⟨if_pos hlt, if_pos hlt⟩

omit [Formats] in
/-- The row of a finalized height is that of its block. -/
theorem Chained.blockByHeight (h : a.Chained history) {k : UInt64} (hpos : 1 ≤ k.toNat)
    (hle : k.toNat ≤ a.ledger.height.toNat) : ∃ p ∈ history, p.1.header.height = k ∧
      a.store.blockByHeight k = .ok (some (finalizedRow p.1 p.2)) := by
  have hmem : k.toNat ∈ a.store.canonicalBlockRows.map (·.height.toNat) := by
    rw [h.heights, List.mem_range'_1]
    omega
  obtain ⟨row, hrow, heq⟩ := List.mem_map.1 hmem
  obtain ⟨k', hk'⟩ := BTreeMap.mem_values_iff.1 hrow
  obtain ⟨hkey, hlt⟩ := h.holds.keys k' row hk'
  obtain rfl : k' = k := UInt64.toNat_inj.1 (hkey ▸ heq)
  rw [h.holds.rows] at hrow
  obtain ⟨p, hp, rfl⟩ := List.mem_map.1 hrow
  refine ⟨p, hp, hkey, Except.bind_eq_ok.2 ⟨(), Except.ensure_eq_ok.2 hlt, ?_⟩⟩
  exact congrArg Except.ok hk'

omit [Formats] in
theorem Chained.of_same {a' : NodeActor} (h : a.Chained history)
    (hledger : a'.ledger = a.ledger) (hblocks : a'.store.blocks = a.store.blocks)
    (hchain : a'.chainId = a.chainId) (hids : a'.validatorIds = a.validatorIds) :
    a'.Chained history where
  holds := by
    refine ⟨?_, ?_⟩
    · rw [Store.canonicalBlockRows, hblocks]
      exact h.holds.rows
    · rw [hblocks]
      exact h.holds.keys
  replay := by
    rw [hledger, hchain, hids]
    exact h.replay

/-- A commit adds one block to the history. -/
theorem Chained.commit (h : a.Chained history) {block : Block} {certificate : CommitCertificate}
    {receipts : List TransactionReceipt} {candidate : LedgerState} {store : Store}
    (hc : a.Commits block certificate receipts candidate store) :
    (a.committed candidate store).Chained (history ++ [(block, certificate)]) := by
  obtain ⟨u, u', projection, -, hprojection, hstore⟩ := hc.store
  obtain ⟨accounts, issuedAt, v, -, -, rfl⟩ := buildProjection_eq_ok hprojection
  obtain ⟨-, hb⟩ := LedgerState.applyFinalizedBlock_eq_ok.1 hc.ledger
  refine ⟨h.holds.commit h.replay hb hstore, ?_⟩
  refine LedgerState.applyFinalizedBlocks_append.2 ⟨a.ledger, h.replay, ?_⟩
  exact LedgerState.applyFinalizedBlocks_singleton.2 ⟨receipts, hc.ledger⟩

theorem Chained.move {t t' : Turn} (h : t.actor.Chained history) (hmove : t.Move t')
    (hw : t.actor.Wired config) : ∃ tail, t'.actor.Chained (history ++ tail) := by
  rcases hmove.tables with ⟨hledger, htables⟩ | ⟨block, certificate, _, _, _, hc, rfl⟩
  · have hw' := hw.move hmove
    refine ⟨[], ?_⟩
    rw [List.append_nil]
    refine h.of_same hledger htables.blocks ?_ (hw'.validatorIds.trans hw.validatorIds.symm)
    exact Except.ok.inj (hw'.chainId.symm.trans hw.chainId)
  · exact ⟨_, h.commit hc⟩

end NodeActor

/-! ## Every run -/

namespace Machine

variable {config : NodeConfig} {m m' : Machine}

omit [Formats] in
/-- The ledger that a store restarts to: its blocks, read back and executed. -/
def restored (config : NodeConfig) (store : Store) : Except ValidationError LedgerState := do
  let chainId ← ChainId.new config.chainId
  let history ← decodeHistory store.canonicalBlockRows
  LedgerState.replayFinalizedBlocks chainId history devValidatorIds

omit [Formats] in
theorem restored_of_chained {a : NodeActor} {history : BlockHistory} (hw : a.Wired config)
    (h : a.Chained history) : restored config a.store = .ok a.ledger := by
  have hreplay := h.replay
  rw [hw.validatorIds] at hreplay
  have hdecode := h.holds.decodeHistory fun p hp =>
    LedgerState.applyFinalizedBlocks_decodable hreplay hp
  refine Except.bind_eq_ok.2 ⟨a.chainId, hw.chainId, Except.bind_eq_ok.2 ⟨history, hdecode, ?_⟩⟩
  exact LedgerState.replayFinalizedBlocks_eq_ok.2 hreplay

/-- The store holds a history that the configured chain can execute. -/
def Restorable (config : NodeConfig) (store : Store) : Prop :=
  ∃ history, store.Holds history ∧ ∀ chainId, ChainId.new config.chainId = .ok chainId →
    ∃ s, LedgerState.applyFinalizedBlocks devValidatorIds history (.new chainId) = .ok () s

omit [Formats] in
/-- A node that starts on a store has the ledger of the history that the store holds. -/
theorem chained_of_started {store : Store} {a : NodeActor} {history : BlockHistory} {s : LedgerState}
    (hholds : store.Holds history) (ha : a.Started config store)
    (hs : LedgerState.applyFinalizedBlocks devValidatorIds history (.new a.chainId) = .ok () s) :
    a.Chained history ∧ a.ledger = s := by
  obtain ⟨history', hdecode, hreplay⟩ := ha.restored
  rw [hholds.decodeHistory fun p hp => LedgerState.applyFinalizedBlocks_decodable hs hp] at hdecode
  obtain rfl := Except.ok.inj hdecode
  have hrun := LedgerState.replayFinalizedBlocks_eq_ok.1 hreplay
  refine ⟨⟨ha.store_eq ▸ hholds, ?_⟩, (EStateM.Result.ok.inj (hrun.symm.trans hs)).2⟩
  rw [ha.wired.validatorIds]
  exact hrun

omit [Formats] in
/-- A node that starts on such a store has the ledger of its history. -/
theorem Restorable.started {store : Store} {a : NodeActor} (h : Restorable config store)
    (ha : a.Started config store) : ∃ history, a.Chained history := by
  obtain ⟨history, hholds, hrun⟩ := h
  obtain ⟨s, hs⟩ := hrun a.chainId ha.wired.chainId
  exact ⟨history, (chained_of_started hholds ha hs).1⟩

/-- The invariant of a turn: the node is wired as it was started, and its ledger is the result of
its history. -/
def Recorded (config : NodeConfig) (t : Turn) : Prop :=
  t.actor.Wired config ∧ ∃ history, t.actor.Chained history

theorem Recorded.move {t t' : Turn} (h : Recorded config t) (hmove : t.Move t') :
    Recorded config t' := by
  obtain ⟨hw, history, hc⟩ := h
  obtain ⟨tail, hc'⟩ := hc.move hmove hw
  exact ⟨hw.move hmove, _, hc'⟩

theorem Recorded.moves {t t' : Turn} (h : Recorded config t)
    (hpath : ReflTransGen Turn.Move t t') : Recorded config t' := by
  induction hpath with
  | refl => exact h
  | tail _ hmove ih => exact ih.move hmove

omit [Formats] in
theorem Recorded.restorable {t : Turn} (h : Recorded config t) :
    Restorable config t.actor.store := by
  obtain ⟨hw, history, hc⟩ := h
  refine ⟨history, hc.holds, fun chainId hchain => ⟨t.actor.ledger, ?_⟩⟩
  obtain rfl := Except.ok.inj (hw.chainId.symm.trans hchain)
  rw [← hw.validatorIds]
  exact hc.replay

omit [Formats] in
theorem restorable_empty : Restorable config Store.empty :=
  ⟨[], Store.holds_empty, fun _ _ => ⟨_, rfl⟩⟩

theorem Reachable.recorded (h : Reachable config m) : Restorable config m.store ∧
    ∀ a, m.actor = some a → a.store = m.store ∧ ∀ env, Recorded config (Turn.begin env a) :=
  h.invariant restorable_empty (fun _ _ _ hstore ha => ⟨ha.wired, hstore.started ha⟩)
    (fun _ _ h => h) (fun _ _ h hmove => h.move hmove) fun _ h => h.restorable

/-- An invariant of the actor that may rely on its history. -/
theorem Reachable.with_history {J : NodeActor → Prop} (h : Reachable config m) {a : NodeActor}
    (ha : m.actor = some a) (start : ∀ store a, a.Started config store → J a)
    (move : ∀ (t t' : Turn) (history : BlockHistory), t.actor.Chained history → J t.actor →
      t.Move t' → J t'.actor) : (∃ history, a.Chained history) ∧ J a := by
  have hinv := h.invariant (J := fun t => Recorded config t ∧ J t.actor) restorable_empty ?_
    (fun _ _ h => h) ?_ fun _ h => h.1.restorable
  · obtain ⟨hrecorded, hj⟩ := (hinv.2 a ha).2 default
    exact ⟨hrecorded.2, hj⟩
  · intro store a env hstore hs
    exact ⟨⟨hs.wired, hstore.started hs⟩, start store a hs⟩
  · intro t t' ht hmove
    obtain ⟨history, hc⟩ := ht.1.2
    exact ⟨ht.1.move hmove, move t t' history hc ht.2 hmove⟩

/-- Whatever begins a turn is recorded. -/
theorem Reachable.begins (h : Reachable config m) {a : NodeActor} (ha : m.Begins config a)
    (env : Environment) : a.store = m.store ∧ Recorded config (Turn.begin env a) := by
  rcases ha with ha | ⟨network, peers, time, ha⟩
  · exact ⟨(h.recorded.2 a ha).1, (h.recorded.2 a ha).2 env⟩
  · have hs := startNode_started ha
    exact ⟨hs.store_eq, hs.wired, h.recorded.1.started hs⟩

/-- The history of a node only grows. -/
theorem rows_of_moves {t t' : Turn} (h : Recorded config t) (hpath : ReflTransGen Turn.Move t t') :
    t.actor.store.canonicalBlockRows <+: t'.actor.store.canonicalBlockRows := by
  induction hpath with
  | refl => exact List.prefix_refl _
  | tail hpath hmove ih =>
      obtain ⟨hw, history, hc⟩ := h.moves hpath
      obtain ⟨tail, hc'⟩ := hc.move hmove hw
      refine ih.trans ?_
      rw [hc.holds.rows, hc'.holds.rows, List.map_append]
      exact List.prefix_append _ _

/-- What is in the store at some point of a turn is what a turn on the way has in its store. -/
theorem turn_point {a : NodeActor} {t : Turn} {env : Environment} {trace : List Occurrence}
    (hstore : a.store = m.store) (hpath : ReflTransGen Turn.Move (Turn.begin env a) t)
    (hto : trace <+: t.trace) : ∃ u, ReflTransGen Turn.Move (Turn.begin env a) u ∧
      u.actor.store = m.store.after trace := by
  obtain ⟨u, os, hu, hos, heq⟩ := crash_point hpath (show [] ++ trace <+: _ from hto)
  refine ⟨u, hu, ?_⟩
  rw [store_of_moves hstore hu, show trace = u.trace ++ os from heq, Store.after_append,
    Store.after_other _ hos]

/-- From one point of a turn to the next the store is the same, or changes as in a step. -/
theorem Reachable.point_step (h : Reachable config m) {t : Turn} (hturn : Turns config m t)
    {trace : List Occurrence} {o : Occurrence} (hto : trace ++ [o] <+: t.trace) :
    ∃ u v, Recorded config u ∧ (u = v ∨ u.Move v) ∧ u.actor.store = m.store.after trace ∧
      v.actor.store = m.store.after (trace ++ [o]) := by
  obtain ⟨env, a, ha, hpath⟩ := hturn.moves
  obtain ⟨hstore, hrec⟩ := h.begins ha env
  rcases crash_step hpath (List.nil_prefix) hto with ho | ⟨u, v, hu, hmove, -, htu, htv⟩
  · obtain ⟨u, hu, hcrashed⟩ := turn_point hstore hpath ((List.prefix_append _ _).trans hto)
    have hsame : m.store.after (trace ++ [o]) = m.store.after trace := by
      rw [Store.after_append, Store.after_other _ (by simpa using ho)]
    exact ⟨u, u, hrec.moves hu, .inl rfl, hcrashed, hcrashed.trans hsame.symm⟩
  · refine ⟨u, v, hrec.moves hu, .inr hmove, ?_, ?_⟩
    · rw [← htu, store_of_moves hstore hu]
    · rw [← htv, store_of_moves hstore (hu.tail hmove)]

/-- The store of a node is its history: at every command boundary its rows are the blocks from 1 to
the height of the ledger and their execution gives the ledger, and no row is ever changed or
removed. At every point of a turn a crash leaves a store that restarts to a ledger, from one point to
the next it is the same ledger or the one after one more certified block, and whatever node starts on
a store has the ledger of that store. -/
theorem durable_history (h : Reachable config m) :
    (∀ a, m.actor = some a →
      m.store.canonicalBlockRows.map (·.height.toNat) = List.range' 1 a.ledger.height.toNat ∧
        a.store = m.store ∧ restored config m.store = .ok a.ledger) ∧
    (∀ m', Step config m m' → m.store.canonicalBlockRows <+: m'.store.canonicalBlockRows) ∧
    (∀ t trace o, Turns config m t → trace ++ [o] <+: t.trace →
      ∃ s s', restored config (m.store.after trace) = .ok s ∧
        restored config (m.store.after (trace ++ [o])) = .ok s' ∧
        (s' = s ∨ ∃ block certificate receipts,
          LedgerState.applyFinalizedBlock block certificate devValidatorIds s = .ok receipts s')) ∧
    ∀ network peers time a, startNode config m.store network peers time = .ok a →
      restored config m.store = .ok a.ledger := by
  refine ⟨fun a ha => ?_, fun m' hstep => ?_, fun t trace o hturn hto => ?_,
    fun network peers time a ha => ?_⟩
  · obtain ⟨hstore, hrec⟩ := h.recorded.2 a ha
    obtain ⟨hw, history, hc⟩ := hrec default
    exact ⟨hstore ▸ hc.heights, hstore, hstore ▸ restored_of_chained hw hc⟩
  · cases hstep with
    | finish t hturn =>
        obtain ⟨env, a, ha, hpath⟩ := hturn.moves
        obtain ⟨hstore, hrec⟩ := h.begins ha env
        rw [← hstore]
        exact rows_of_moves hrec hpath
    | crash t trace hturn hto =>
        obtain ⟨env, a, ha, hpath⟩ := hturn.moves
        obtain ⟨hstore, hrec⟩ := h.begins ha env
        obtain ⟨u, hu, hcrashed⟩ := turn_point hstore hpath hto
        change _ <+: (m.store.after trace).canonicalBlockRows
        rw [← hcrashed, ← hstore]
        exact rows_of_moves hrec hu
  · have hpoint : ∀ {u}, Recorded config u → restored config u.actor.store = .ok u.actor.ledger := by
      rintro u ⟨hw, history, hc⟩
      exact restored_of_chained hw hc
    obtain ⟨u, v, hu, hmove, htu, htv⟩ := h.point_step hturn hto
    rw [← htu, ← htv]
    rcases hmove with rfl | hmove
    · exact ⟨_, _, hpoint hu, hpoint hu, .inl rfl⟩
    · refine ⟨_, _, hpoint hu, hpoint (hu.move hmove), ?_⟩
      rcases hmove.tables with ⟨hledger, -⟩ | ⟨block, certificate, receipts, candidate, store, hc, rfl⟩
      · exact .inl hledger
      · right
        have hledger := hc.ledger
        rw [hu.1.validatorIds] at hledger
        exact ⟨block, certificate, receipts, hledger⟩
  · have hs := startNode_started ha
    obtain ⟨history, hc⟩ := h.recorded.1.started hs
    rw [← hs.store_eq]
    exact restored_of_chained hs.wired hc

end Machine

end

open scoped Sample in
/-- A standalone node that makes two blocks. -/
theorem Machine.durable_history_two_blocks : ∃ m,
    play Sample.standalone Sample.environment [.tick, .tick] = some m ∧
      m.actor.map (·.ledger.height) = some 2 ∧ ∀ a, m.actor = some a →
        m.store.canonicalBlockRows.map (·.height.toNat) = List.range' 1 a.ledger.height.toNat ∧
          a.store = m.store ∧ restored Sample.standalone m.store = .ok a.ledger := by
  have hrun : (play Sample.standalone Sample.environment [.tick, .tick]).map
      (fun m => m.actor.map (·.ledger.height)) = some (some 2) := by decide +kernel
  obtain ⟨m, hm, hheight⟩ := Option.map_eq_some_iff.1 hrun
  exact ⟨m, hm, hheight, (durable_history (play_reachable hm)).1⟩

end KCoin
