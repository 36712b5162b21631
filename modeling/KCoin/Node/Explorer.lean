import KCoin.Protocol.Binding
import KCoin.Protocol.Replay
import KCoin.Node.Receipts

/-!
# The tables of the explorer

What the explorer shows is computed as the blocks are committed, from what the store held before and
the receipts of the block. The closed form it keeps (`Shown`): the accounts of the ledger with the
number of the finalized transactions that involve them, the finalized transactions with their places,
and the open challenge with the height of the block that opened it (`projection_correct`). A commit on
a database whose reads succeed is a function of the store and the ledger (`commitBlock`), so a node
that only commits and restarts has the store of `commitBlocks`.
-/

open Borsh EStateM

namespace KCoin

section
variable [Primitives] [Formats]

/-! ## Projections of a store that can be read -/

namespace Store

omit [Primitives] in
/-- The row of an account after a block. -/
def accountProjection (s : Store) (activity : BTreeMap String UInt64)
    (p : Address × AccountState) : AccountProjection where
  address := Formats.addressToText p.1
  balanceAtoms := p.2.balanceAtoms
  nonce := p.2.nextNonce
  displayName := p.2.displayName
  transactionCount := (s.account (Formats.addressToText p.1)).elim 0 (·.transactionCount) +
    (activity[Formats.addressToText p.1]?).getD 0

/-- The height at which the open challenge was opened. -/
def challengeIssuedAt (s : Store) (candidate : LedgerState) (receipts : List TransactionReceipt) :
    Except NodeError String :=
  if NodeM.challengeAdvanced receipts then .ok s!"{candidate.height}"
  else match NodeM.recordedChallengeHeight candidate s.metadata["challenge"]? with
    | some height => .ok height
    | none =>
      if candidate.currentChallenge.id = 0 then .ok s!"{(0 : UInt64)}"
      else do
        let height ← challengeHeightIn candidate.currentChallenge.id s.canonicalBlockRows.reverse
        return s!"{height.getD candidate.height}"

/-- The projection of a block on a database whose reads succeed. -/
def projectionOf (s : Store) (candidate : LedgerState) (block : Block)
    (certificate : CommitCertificate) (receipts : List TransactionReceipt) :
    Except NodeError FinalizedProjection := do
  let activity := accountActivity (receipts.mapIdx TransactionReceipt.projection)
  let issuedAt ← s.challengeIssuedAt candidate receipts
  return finalizedProjection candidate block certificate receipts
    (candidate.accounts.toList.map (s.accountProjection activity)) issuedAt

end Store

namespace NodeM

variable {t u : Turn}

omit [Primitives] in
/-- The rows of the accounts, if all reads succeed. -/
theorem projectAccounts_eq_ok {activity : BTreeMap String UInt64}
    {accounts : List (Address × AccountState)} {rows : List AccountProjection}
    (h : projectAccounts activity accounts t = .ok rows u) : u.actor = t.actor ∧
      ((∀ n < accounts.length, t.env.storage (t.asked + n) = true) →
        rows = accounts.map (t.actor.store.accountProjection activity)) := by
  induction accounts generalizing t rows with
  | nil =>
      obtain ⟨rfl, rfl⟩ := pure_eq_ok.1 h
      exact ⟨rfl, fun _ => rfl⟩
  | cons p accounts ih =>
      obtain ⟨existing, v, hread, h⟩ := bind_eq_ok.1 h
      obtain ⟨rest, w, hrest, h⟩ := bind_eq_ok.1 h
      obtain ⟨rfl, rfl⟩ := pure_eq_ok.1 h
      have hread' : readAccount (Formats.addressToText p.1) t =
          .ok (if t.env.storage t.asked then t.actor.store.account (Formats.addressToText p.1)
            else none) { t with asked := t.asked + 1 } := rfl
      cases hread'.symm.trans hread
      obtain ⟨hactor, hrows⟩ := ih hrest
      refine ⟨hactor, fun hreads => ?_⟩
      have hfirst := hreads 0 (Nat.succ_pos _)
      rw [Nat.add_zero] at hfirst
      rw [hfirst, hrows fun n hn => ?_]
      · rfl
      · have hnext := hreads (n + 1) (Nat.succ_lt_succ hn)
        rwa [Nat.add_comm n, ← Nat.add_assoc] at hnext

theorem challengeIssuedAt_eq_ok {candidate : LedgerState} {receipts : List TransactionReceipt}
    {issued : String} (h : challengeIssuedAt candidate receipts t = .ok issued u) :
    t.actor.store.challengeIssuedAt candidate receipts = .ok issued := by
  obtain ⟨metadata, v, hmetadata, h⟩ := bind_eq_ok.1 h
  have hactor := (reading_readStore _).actor_eq hmetadata
  obtain rfl := Except.ok.inj
    (readStore_eq_ok (g := fun s => .ok s.metadata["challenge"]?) hmetadata)
  unfold Store.challengeIssuedAt
  split at h
  · next hadvanced =>
      obtain ⟨rfl, -⟩ := pure_eq_ok.1 h
      rw [if_pos hadvanced]
  · next hadvanced =>
      rw [if_neg hadvanced]
      cases hrecorded : recordedChallengeHeight candidate t.actor.store.metadata["challenge"]? with
      | some height =>
          rw [hrecorded] at h
          obtain ⟨rfl, -⟩ := pure_eq_ok.1 h
          rfl
      | none =>
          rw [hrecorded] at h
          obtain ⟨height, w, hheight, h⟩ := bind_eq_ok.1 h
          obtain ⟨rfl, -⟩ := pure_eq_ok.1 h
          dsimp only
          split
          · next hzero =>
              have hheight := (congrFun (if_pos hzero) v).symm.trans hheight
              obtain ⟨rfl, -⟩ := pure_eq_ok.1 hheight
              rfl
          · next hzero =>
              have hheight := (congrFun (if_neg hzero) v).symm.trans hheight
              obtain ⟨rows, x, hrows, hheight⟩ := bind_eq_ok.1 hheight
              obtain rfl := Except.ok.inj
                (readStore_eq_ok (g := fun s => .ok s.canonicalBlockRows) hrows)
              obtain ⟨hheight, -⟩ := lift_eq_ok.1 hheight
              rw [← hactor]
              exact Except.bind_eq_ok.2 ⟨height, hheight, rfl⟩

/-- The projection that a node builds is the one of its store, if the reads of accounts succeed. -/
theorem buildProjection_of_reads {candidate : LedgerState} {block : Block}
    {certificate : CommitCertificate} {receipts : List TransactionReceipt}
    {p : FinalizedProjection} (h : buildProjection candidate block certificate receipts t = .ok p u)
    (hreads : ∀ n < candidate.accounts.toList.length, t.env.storage (t.asked + n) = true) :
    t.actor.store.projectionOf candidate block certificate receipts = .ok p := by
  obtain ⟨accounts, issuedAt, v, haccounts, hissued, rfl⟩ := buildProjection_eq_ok h
  obtain ⟨hactor, hrows⟩ := projectAccounts_eq_ok haccounts
  have hissued := challengeIssuedAt_eq_ok hissued
  rw [hactor] at hissued
  rw [hrows hreads]
  exact Except.bind_eq_ok.2 ⟨issuedAt, hissued, rfl⟩

end NodeM

/-! ## Committing one block after the other -/

/-- Commit a finalized block on a database whose reads succeed. -/
def commitBlock (validators : List ValidatorId) (p : Block × CommitCertificate)
    (s : Store × LedgerState) : Except NodeError (Store × LedgerState) :=
  match LedgerState.applyFinalizedBlock p.1 p.2 validators s.2 with
  | .error e _ => .error (.context "execute finalized block" (.protocol e))
  | .ok receipts candidate => do
    let projection ← s.1.projectionOf candidate p.1 p.2 receipts
    let store ← (s.1.persistFinalized projection).mapError .storage
    return (store, candidate)

/-- The projection of a block on a store that has a height for the open challenge. -/
def Store.projected (s : Store) (candidate : LedgerState) (block : Block)
    (certificate : CommitCertificate) (receipts : List TransactionReceipt) (issuedAt : String) :
    FinalizedProjection :=
  finalizedProjection candidate block certificate receipts
    (candidate.accounts.toList.map
      (s.accountProjection (accountActivity (receipts.mapIdx TransactionReceipt.projection))))
    issuedAt

section
variable {validators : List ValidatorId} {block : Block} {certificate : CommitCertificate}
  {s s' : Store} {ledger candidate : LedgerState}

theorem commitBlock_eq_ok :
    commitBlock validators (block, certificate) (s, ledger) = .ok (s', candidate) ↔
      ∃ receipts issuedAt,
        LedgerState.applyFinalizedBlock block certificate validators ledger =
          .ok receipts candidate ∧
        s.challengeIssuedAt candidate receipts = .ok issuedAt ∧
        s.persistFinalized (s.projected candidate block certificate receipts issuedAt) = .ok s' := by
  unfold commitBlock
  cases hledger : LedgerState.applyFinalizedBlock block certificate validators ledger with
  | error e l => simp
  | ok receipts l =>
      simp only [Except.bind_eq_ok, Except.pure_eq_ok, Except.mapError_eq_ok, Prod.mk.injEq,
        EStateM.Result.ok.injEq]
      constructor
      · rintro ⟨p, hp, store, hstore, rfl, rfl⟩
        obtain ⟨issuedAt, hissued, hp⟩ := Except.bind_eq_ok.1 hp
        obtain rfl := Except.pure_eq_ok.1 hp
        exact ⟨receipts, issuedAt, ⟨rfl, rfl⟩, hissued, hstore⟩
      · rintro ⟨_, issuedAt, ⟨rfl, rfl⟩, hissued, hstore⟩
        exact ⟨_, Except.bind_eq_ok.2 ⟨issuedAt, hissued, rfl⟩, s', hstore, rfl, rfl⟩

/-- A node commits as `commitBlock` does, if its reads of accounts succeed. -/
theorem NodeM.commitFinalized_of_reads (gossip : Bool) (t : Turn)
    (hreads : ∀ receipts candidate, LedgerState.applyFinalizedBlock block certificate
        t.actor.validatorIds t.actor.ledger = .ok receipts candidate →
      ∀ n < candidate.accounts.toList.length, t.env.storage (t.asked + n) = true) :
    (NodeM.commitFinalized block certificate gossip t).state.actor = t.actor ∨
      ∃ receipts store candidate lastBlockAt,
        t.actor.Commits block certificate receipts candidate store ∧
        commitBlock t.actor.validatorIds (block, certificate) (t.actor.store, t.actor.ledger) =
          .ok (store, candidate) ∧
        (NodeM.commitFinalized block certificate gossip t).state.actor =
          { t.actor.committed candidate store with lastBlockAt } := by
  rcases NodeM.commitFinalized_stores block certificate gossip t with ⟨e, asked, os, -, he⟩ |
    ⟨receipts, candidate, projection, u, store, asked, os, asked', os', lastBlockAt, -, -, hledger,
      hprojection, hstore, hstate, -⟩
  · left
    rw [he]
    rfl
  · right
    refine ⟨receipts, store, candidate, lastBlockAt,
      ⟨hledger, t, u, projection, rfl, hprojection, hstore⟩, ?_, by rw [hstate]; rfl⟩
    have hp := NodeM.buildProjection_of_reads hprojection (hreads _ _ hledger)
    obtain ⟨issuedAt, hissued, hp⟩ := Except.bind_eq_ok.1 hp
    obtain rfl := Except.pure_eq_ok.1 hp
    exact commitBlock_eq_ok.2 ⟨receipts, issuedAt, hledger, hissued, hstore⟩

end

/-! ## The tables after a commit -/

section
variable {height : UInt64}

omit [Primitives] [Formats] in
/-- An account is inserted when its numbers fit their columns. -/
theorem Store.insertAccount_eq_ok {rows rows' : BTreeMap String AccountRow}
    {account : AccountProjection} : insertAccount height rows account = .ok rows' ↔
      (account.balanceAtoms.toNat < 2 ^ 63 ∧ account.nonce.toNat < 2 ^ 63 ∧
        account.transactionCount.toNat < 2 ^ 63) ∧
      rows.insert account.address ⟨account, height⟩ = rows' := by
  simp only [insertAccount, bindInteger, Except.bind_eq_ok, Except.ensure_eq_ok, Except.pure_eq_ok,
    exists_and_left, exists_const, and_assoc]

omit [Primitives] [Formats] in
/-- A transaction is inserted when its numbers fit their columns and no other one has its place. -/
theorem Store.insertTransaction_eq_ok {rows rows' : BTreeMap String TransactionRow}
    {tx : TransactionProjection} : insertTransaction height rows tx = .ok rows' ↔
      (tx.amountAtoms.toNat < 2 ^ 63 ∧ tx.nonce.toNat < 2 ^ 63 ∧
        ∀ (id : String) (row : TransactionRow), rows[id]? = some row →
          row.id = tx.id ∨ row.blockHeight ≠ height ∨ row.index ≠ tx.index) ∧
      rows.insert tx.id ⟨tx.id, height, tx.index, tx.kind, tx.sender, tx.recipient, tx.amountAtoms,
        tx.nonce⟩ = rows' := by
  have hplaces : (rows.values.all fun row =>
      row.id = tx.id || row.blockHeight ≠ height || row.index ≠ tx.index) = true ↔
      ∀ (id : String) (row : TransactionRow), rows[id]? = some row →
        row.id = tx.id ∨ row.blockHeight ≠ height ∨ row.index ≠ tx.index := by
    rw [List.all_eq_true]
    constructor
    · intro h id row hrow
      simpa [or_assoc] using h row (BTreeMap.mem_values_iff.2 ⟨id, hrow⟩)
    · intro h row hrow
      obtain ⟨id, hid⟩ := BTreeMap.mem_values_iff.1 hrow
      simpa [or_assoc] using h id row hid
  simp only [insertTransaction, bindInteger, Except.bind_eq_ok, Except.ensure_eq_ok,
    Except.pure_eq_ok, exists_and_left, exists_const, and_assoc, hplaces]

omit [Primitives] in
/-- The accounts of the ledger have their rows, and other rows are as they were. -/
theorem Store.accounts_inserted {s : Store} {activity : BTreeMap String UInt64}
    {accounts : BTreeMap Address AccountState} {rows : BTreeMap String AccountRow}
    (h : (accounts.toList.map (s.accountProjection activity)).foldlM (insertAccount height)
      s.accounts = .ok rows) :
    (∀ address account, accounts[address]? = some account →
      (s.accountProjection activity (address, account)).transactionCount.toNat < 2 ^ 63 ∧
      rows[Formats.addressToText address]? =
        some ⟨s.accountProjection activity (address, account), height⟩) ∧
    ∀ text, (∀ address ∈ accounts, Formats.addressToText address ≠ text) →
      rows[text]? = s.accounts[text]? := by
  have hmem : ∀ address account, accounts[address]? = some account →
      s.accountProjection activity (address, account) ∈
        accounts.toList.map (s.accountProjection activity) := fun address account ha =>
    List.mem_map_of_mem (Std.ExtTreeMap.mem_toList_iff_getElem?_eq_some.2 ha)
  have hkeys : (accounts.toList.map (s.accountProjection activity)).map (·.address) =
      (accounts.toList.map Prod.fst).map Formats.addressToText := by
    rw [List.map_map, List.map_map]
    rfl
  have hbound := Except.foldlM_forall (f := insertAccount height)
    (P := fun p => p.transactionCount.toNat < 2 ^ 63) (fun _ _ _ h => (insertAccount_eq_ok.1 h).1.2.2) h
  have hinsert : ∀ rows (a : AccountProjection) rows', insertAccount height rows a = .ok rows' →
      rows' = rows.insert a.address ⟨a, height⟩ := fun _ _ _ h => (insertAccount_eq_ok.1 h).2.symm
  obtain ⟨hin, hout⟩ := BTreeMap.getElem?_foldlM_insert hinsert h
    (hkeys ▸ (BTreeMap.nodup_map_fst accounts).map Formats.addressToText_injective)
  refine ⟨fun address account ha => ⟨hbound _ (hmem _ _ ha), hin _ (hmem _ _ ha)⟩,
    fun text htext => hout text fun htaken => ?_⟩
  rw [hkeys, List.mem_map] at htaken
  obtain ⟨address, haddress, rfl⟩ := htaken
  obtain ⟨p, hp, rfl⟩ := List.mem_map.1 haddress
  refine htext p.1 ?_ rfl
  exact Std.ExtTreeMap.mem_iff_isSome_getElem?.2
    (by rw [Std.ExtTreeMap.mem_toList_iff_getElem?_eq_some.1 hp]; rfl)

omit [Primitives] in
theorem ids_of_projections (receipts : List TransactionReceipt) :
    (receipts.mapIdx TransactionReceipt.projection).map (·.id) =
      (receipts.map (·.transactionId)).map Hash32.toText := by
  refine List.ext_getElem? fun index => ?_
  rw [List.getElem?_map, List.getElem?_mapIdx, List.getElem?_map, List.getElem?_map]
  cases receipts[index]? <;> rfl

omit [Primitives] in
/-- The transactions of the receipts have their rows, and other rows are as they were. -/
theorem Store.transactions_inserted {rows rows' : BTreeMap String TransactionRow}
    {receipts : List TransactionReceipt}
    (h : (receipts.mapIdx TransactionReceipt.projection).foldlM (insertTransaction height) rows =
      .ok rows') (hnodup : (receipts.map (·.transactionId)).Nodup) :
    (∀ index r, receipts[index]? = some r → ∃ row, rows'[r.transactionId.toText]? = some row ∧
      row.blockHeight = height ∧ row.index = UInt32.ofNat index) ∧
    ∀ text, (∀ r ∈ receipts, r.transactionId.toText ≠ text) → rows'[text]? = rows[text]? := by
  have hkeys := ids_of_projections receipts
  have hinsert : ∀ rows (tx : TransactionProjection) rows',
      insertTransaction height rows tx = .ok rows' → rows' = rows.insert tx.id ⟨tx.id, height,
        tx.index, tx.kind, tx.sender, tx.recipient, tx.amountAtoms, tx.nonce⟩ :=
    fun _ _ _ h => (insertTransaction_eq_ok.1 h).2.symm
  obtain ⟨hin, hout⟩ := BTreeMap.getElem?_foldlM_insert hinsert h
    (hkeys ▸ hnodup.map Hash32.toText_injective)
  refine ⟨fun index r hr => ?_, fun text htext => hout text fun htaken => ?_⟩
  · have hget : (receipts.mapIdx TransactionReceipt.projection)[index]? =
        some (r.projection index) := by
      rw [List.getElem?_mapIdx, hr]
      rfl
    exact ⟨_, hin _ (List.mem_of_getElem? hget), rfl, rfl⟩
  · rw [hkeys, List.map_map, List.mem_map] at htaken
    obtain ⟨r, hr, rfl⟩ := htaken
    exact htext r hr rfl

end

/-! ## What the explorer shows -/

section
omit [Formats]

/-- The number of the finalized transactions that involve an address. -/
def transactionCount (history : BlockHistory) (address : Address) : Nat :=
  (history.map fun p => p.1.transactions.countP (·.involves address)).sum

/-- A finalized transaction with the height of its block and its index there. -/
def Listed (history : BlockHistory) (id : String) (height : UInt64) (index : Nat) : Prop :=
  ∃ p ∈ history, ∃ t, p.1.header.height = height ∧ p.1.transactions[index]? = some t ∧
    t.id.toText = id

/-- A challenge is open since the block that claims the one before it, the first since the start. -/
structure IssuedAt (history : BlockHistory) (id height : UInt64) : Prop where
  first : id = 0 → height = 0
  claimed : id ≠ 0 → ∃ p ∈ history, (∃ t ∈ p.1.transactions, opensChallenge id t = true) ∧
    p.1.header.height = height
  only : ∀ p ∈ history, (∃ t ∈ p.1.transactions, opensChallenge id t = true) →
    p.1.header.height = height

theorem transactionCount_append (history : BlockHistory) (p : Block × CommitCertificate)
    (address : Address) : transactionCount (history ++ [p]) address =
      transactionCount history address + p.1.transactions.countP (·.involves address) := by
  simp [transactionCount]

theorem listed_append {history : BlockHistory} {p : Block × CommitCertificate} {id : String}
    {height : UInt64} {index : Nat} : Listed (history ++ [p]) id height index ↔
      Listed history id height index ∨ ∃ t, p.1.header.height = height ∧
        p.1.transactions[index]? = some t ∧ t.id.toText = id := by
  simp only [Listed, List.mem_append, List.mem_singleton, or_and_right, exists_or, exists_eq_left]

end

/-- The row of an account. -/
structure ShowsAccount (history : BlockHistory) (address : Address) (account : AccountState)
    (row : AccountProjection) : Prop where
  text : row.address = Formats.addressToText address
  balanceAtoms : row.balanceAtoms = account.balanceAtoms
  nonce : row.nonce = account.nextNonce
  displayName : row.displayName = account.displayName
  transactionCount : row.transactionCount.toNat = transactionCount history address

/-- The tables of the explorer as a history and its ledger determine them. -/
structure Shown (history : BlockHistory) (s : Store) (ledger : LedgerState) : Prop where
  accounts : ∀ text row, s.account text = some row ↔ ∃ address account,
    text = Formats.addressToText address ∧ ledger.accounts[address]? = some account ∧
      ShowsAccount history address account row
  transactions : ∀ id height index,
    (∃ row, s.transactions[id]? = some row ∧ row.blockHeight = height ∧ row.index.toNat = index) ↔
      Listed history id height index
  challenge : history ≠ [] → ∃ view height,
    s.metadata["challenge"]? = some (Formats.challengeToText view) ∧
      view.challengeId = s!"{ledger.activeChallengeId}" ∧ view.issuedAtHeight = s!"{height}" ∧
      IssuedAt history ledger.activeChallengeId height

/-- The invariant of the tables of the explorer. -/
structure Projected (history : BlockHistory) (s : Store) (ledger : LedgerState) : Prop where
  account : ∀ address account, ledger.accounts[address]? = some account → ∃ row,
    s.account (Formats.addressToText address) = some row ∧ row.transactionCount.toNat < 2 ^ 63 ∧
      ShowsAccount history address account row
  owner : ∀ text row, s.account text = some row →
    ∃ address ∈ ledger.accounts, Formats.addressToText address = text
  idle : ∀ address, address ∉ ledger.accounts → transactionCount history address = 0
  transactions : ∀ id height index,
    (∃ row, s.transactions[id]? = some row ∧ row.blockHeight = height ∧ row.index.toNat = index) ↔
      Listed history id height index
  applied : ∀ p ∈ history, ∀ t ∈ p.1.transactions, t.id ∈ ledger.appliedTransactions
  start : history = [] → s.metadata["challenge"]? = none ∧ ledger.activeChallengeId = 0
  challenge : history ≠ [] → ∃ view height,
    s.metadata["challenge"]? = some (Formats.challengeToText view) ∧
      view.challengeId = s!"{ledger.activeChallengeId}" ∧ view.issuedAtHeight = s!"{height}" ∧
      IssuedAt history ledger.activeChallengeId height
  claims : ∀ p ∈ history, ∀ t ∈ p.1.transactions, ∀ id, opensChallenge id t = true →
    id ≤ ledger.activeChallengeId

theorem projected_empty (chainId : ChainId) : Projected [] .empty (.new chainId) where
  account _ _ h := by simp [LedgerState.new] at h
  owner _ _ h := by simp [Store.account, Store.empty] at h
  idle _ _ := rfl
  transactions id height index := by simp [Store.empty, Listed]
  applied := nofun
  start _ := ⟨rfl, rfl⟩
  challenge h := absurd rfl h
  claims := nofun

theorem Projected.of_same {history : BlockHistory} {s s' : Store} {ledger : LedgerState}
    (h : Projected history s ledger) (hs : s.SameTables s') : Projected history s' ledger := by
  have haccount : ∀ text, s'.account text = s.account text := fun text => by
    rw [Store.account, hs.accounts]
    rfl
  refine ⟨?_, ?_, h.idle, ?_, h.applied, ?_, ?_, h.claims⟩
  · simpa only [haccount] using h.account
  · simpa only [haccount] using h.owner
  · simpa only [hs.transactions] using h.transactions
  · simpa only [hs.metadata] using h.start
  · simpa only [hs.metadata] using h.challenge

theorem Projected.shown {history : BlockHistory} {s : Store} {ledger : LedgerState}
    (h : Projected history s ledger) : Shown history s ledger where
  accounts text row := by
    constructor
    · intro hrow
      obtain ⟨address, haddress, rfl⟩ := h.owner text row hrow
      obtain ⟨account, haccount⟩ := Option.isSome_iff_exists.1
        (Std.ExtTreeMap.mem_iff_isSome_getElem?.1 haddress)
      obtain ⟨row', hrow', -, hshows⟩ := h.account address account haccount
      obtain rfl := Option.some.inj (hrow.symm.trans hrow')
      exact ⟨address, account, rfl, haccount, hshows⟩
    · rintro ⟨address, account, rfl, haccount, hshows⟩
      obtain ⟨row', hrow', -, hshows'⟩ := h.account address account haccount
      have hrows : row = row' := by
        cases row
        cases row'
        simp only [AccountProjection.mk.injEq]
        refine ⟨hshows.text.trans hshows'.text.symm, ?_, ?_, ?_, ?_⟩
        · exact hshows.balanceAtoms.trans hshows'.balanceAtoms.symm
        · exact hshows.nonce.trans hshows'.nonce.symm
        · exact hshows.displayName.trans hshows'.displayName.symm
        · exact UInt64.toNat_inj.1
            (hshows.transactionCount.trans hshows'.transactionCount.symm)
      rw [hrows]
      exact hrow'
  transactions := h.transactions
  challenge := h.challenge

/-- The rows of the transactions after a block, when they were those of a history that the ledger has
applied. -/
theorem listed_commit {history : BlockHistory} {rows rows' : BTreeMap String TransactionRow}
    {ledger candidate : LedgerState} {block : Block} {certificate : CommitCertificate}
    {receipts : List TransactionReceipt}
    (hrows : ∀ id height index,
      (∃ row, rows[id]? = some row ∧ row.blockHeight = height ∧ row.index.toNat = index) ↔
        Listed history id height index)
    (happlied : ∀ p ∈ history, ∀ t ∈ p.1.transactions, t.id ∈ ledger.appliedTransactions)
    (hb : ledger.BlockApplied block receipts candidate)
    (htransactions : (receipts.mapIdx TransactionReceipt.projection).foldlM
      (Store.insertTransaction block.header.height) rows = .ok rows')
    (id : String) (height : UInt64) (index : Nat) :
    (∃ row, rows'[id]? = some row ∧ row.blockHeight = height ∧
      row.index.toNat = index) ↔ Listed (history ++ [(block, certificate)]) id height index := by
  obtain ⟨c, hrun, rfl⟩ := hb.executed
  have hdescribes := LedgerState.applyTransactions_describes hrun
  obtain ⟨hnodup, hfresh⟩ := LedgerState.applyTransactions_fresh hrun
  have hids := ids_of_receipts hdescribes
  have hlen := hb.length_le
  unfold maxBlockBytes at hlen
  obtain ⟨hin, hout⟩ := Store.transactions_inserted htransactions (hids ▸ hnodup)
  have hpair : ∀ index : Nat, (receipts[index]?).map (·.transactionId) =
      (block.transactions[index]?).map (·.id) := by
    intro index
    rw [← List.getElem?_map, hids, List.getElem?_map]
  rw [listed_append, ← hrows]
  constructor
  · rintro ⟨row, hrow, rfl, rfl⟩
    by_cases hnew : ∃ r ∈ receipts, r.transactionId.toText = id
    · obtain ⟨r, hr, rfl⟩ := hnew
      obtain ⟨index, hindex⟩ := List.mem_iff_getElem?.1 hr
      obtain ⟨row', hrow', hheight, hplace⟩ := hin index r hindex
      obtain rfl := Option.some.inj (hrow.symm.trans hrow')
      have ht := hpair index
      rw [hindex] at ht
      obtain ⟨t, ht, hid⟩ := Option.map_eq_some_iff.1 ht.symm
      have hlt := (List.getElem?_eq_some_iff.1 ht).1
      refine .inr ⟨t, hheight.symm, ?_, congrArg Hash32.toText hid⟩
      rw [hplace, UInt32.toNat_ofNat', Nat.mod_eq_of_lt (by omega)]
      exact ht
    · push Not at hnew
      exact .inl ⟨row, (hout id hnew).symm.trans hrow, rfl, rfl⟩
  · rintro (⟨row, hrow, rfl, rfl⟩ | ⟨t, rfl, ht, rfl⟩)
    · refine ⟨row, (hout id fun r hr hid => ?_).trans hrow, rfl, rfl⟩
      -- the identifiers of the block are new
      obtain ⟨p, hp, t, -, ht, hid'⟩ := (hrows _ _ _).1 ⟨row, hrow, rfl, rfl⟩
      have hsame := Hash32.toText_injective (hid'.trans hid.symm)
      have hmem : r.transactionId ∈ block.transactions.map (·.id) :=
        hids ▸ List.mem_map_of_mem hr
      exact hfresh _ hmem (hsame ▸ happlied p hp t (List.mem_of_getElem? ht))
    · have hr := hpair index
      rw [ht] at hr
      obtain ⟨r, hr, hid⟩ := Option.map_eq_some_iff.1 hr
      obtain ⟨row, hrow, hheight, hplace⟩ := hin index r hr
      have hid : r.transactionId = t.id := hid
      rw [hid] at hrow
      have hlt : index < block.transactions.length := (List.getElem?_eq_some_iff.1 ht).1
      refine ⟨row, hrow, hheight, ?_⟩
      rw [hplace, UInt32.toNat_ofNat', Nat.mod_eq_of_lt (by omega)]

namespace Projected

variable {history : BlockHistory} {s s' : Store} {ledger candidate : LedgerState} {block : Block}
  {certificate : CommitCertificate} {receipts : List TransactionReceipt}

/-- What the rows so far say of an account. -/
theorem count_so_far (h : Projected history s ledger) (address : Address) :
    ((s.account (Formats.addressToText address)).elim 0 (·.transactionCount)).toNat =
        transactionCount history address ∧
      ((s.account (Formats.addressToText address)).elim 0 (·.transactionCount)).toNat < 2 ^ 63 := by
  cases hrow : s.account (Formats.addressToText address) with
  | none =>
      refine ⟨?_, Nat.two_pow_pos 63⟩
      refine (h.idle address fun haddress => ?_).symm
      obtain ⟨account, haccount⟩ := Option.isSome_iff_exists.1
        (Std.ExtTreeMap.mem_iff_isSome_getElem?.1 haddress)
      obtain ⟨row, hrow', -⟩ := h.account address account haccount
      exact nomatch hrow.symm.trans hrow'
  | some row =>
      obtain ⟨address', haddress, htext⟩ := h.owner _ row hrow
      obtain rfl := Formats.addressToText_injective htext
      obtain ⟨account, haccount⟩ := Option.isSome_iff_exists.1
        (Std.ExtTreeMap.mem_iff_isSome_getElem?.1 haddress)
      obtain ⟨row', hrow', hlt, hshows⟩ := h.account address' account haccount
      obtain rfl := Option.some.inj (hrow.symm.trans hrow')
      exact ⟨hshows.transactionCount, hlt⟩

/-- The count of an account after a block. -/
theorem count_after (h : Projected history s ledger) {p : Address × AccountState}
    (hdescribes : List.Forall₂ Describes block.transactions receipts)
    (hlen : block.transactions.length ≤ maxBlockBytes) :
    (s.accountProjection (accountActivity (receipts.mapIdx TransactionReceipt.projection))
        p).transactionCount.toNat =
      transactionCount (history ++ [(block, certificate)]) p.1 := by
  obtain ⟨hcount, hlt⟩ := h.count_so_far p.1
  have hle : block.transactions.countP (·.involves p.1) ≤ maxBlockBytes :=
    List.countP_le_length.trans hlen
  unfold maxBlockBytes at hle
  rw [transactionCount_append, ← hcount]
  change (_ + _ : UInt64).toNat = _
  rw [activity_of_receipts hdescribes, UInt64.toNat_add, UInt64.toNat_ofNat', Nat.mod_eq_of_lt]
  · rw [Nat.mod_eq_of_lt (by omega)]
  · rw [Nat.mod_eq_of_lt (by omega)]
    omega

/-- The metadata after some blocks have the height at which the open challenge was opened. -/
theorem recorded (h : Projected history s ledger) (hne : history ≠ [])
    (hid : candidate.currentChallenge.id = ledger.activeChallengeId) : ∃ height,
      NodeM.recordedChallengeHeight candidate s.metadata["challenge"]? = some s!"{height}" ∧
        IssuedAt history ledger.activeChallengeId height := by
  obtain ⟨view, height, hmetadata, hview, hheight, hat⟩ := h.challenge hne
  refine ⟨height, ?_, hat⟩
  have hsame : view.challengeId = s!"{candidate.currentChallenge.id}" := by
    rw [hview, hid]
  unfold NodeM.recordedChallengeHeight
  rw [hmetadata, Option.bind_some, Formats.challengeFromText_toText]
  exact (if_pos (congrArg some hsame)).trans (congrArg some hheight)

/-- The height that is stored for the open challenge is the one of the block that opened it. -/
theorem issuedAt (h : Projected history s ledger)
    (hb : ledger.BlockApplied block receipts candidate) {issued : String}
    (hissued : s.challengeIssuedAt candidate receipts = .ok issued) :
    ∃ height, issued = s!"{height}" ∧
      IssuedAt (history ++ [(block, certificate)]) candidate.activeChallengeId height := by
  obtain ⟨c, hrun, rfl⟩ := hb.executed
  obtain ⟨hle, hopens⟩ := challenges_of_block hrun
  unfold Store.challengeIssuedAt at hissued
  rcases challenge_of_receipts hrun with ⟨hkept, hsame⟩ | ⟨hadvanced, t, ht, hnext⟩
  · -- no transaction of the block opens the challenge that is open after it
    have hnone : ¬∃ t ∈ block.transactions, opensChallenge c.activeChallengeId t = true := by
      rintro ⟨t, ht, hid⟩
      have hlt := (hopens t ht _ hid).1
      rw [hsame] at hlt
      exact UInt64.lt_irrefl _ hlt
    rw [if_neg (by rw [hkept]; exact Bool.false_ne_true)] at hissued
    by_cases hempty : history = []
    · obtain ⟨hmetadata, hzero⟩ := h.start hempty
      have hid : (c.finish block).currentChallenge.id = 0 :=
        (Challenge.forId_id _).trans (hsame.trans hzero)
      rw [hmetadata] at hissued
      dsimp only [NodeM.recordedChallengeHeight] at hissued
      change (if _ then _ else _) = Except.ok issued at hissued
      rw [if_pos hid] at hissued
      refine ⟨0, (Except.ok.inj hissued).symm, fun _ => rfl, fun hne => ?_, fun p hp hp' => ?_⟩
      · exact absurd (hsame.trans hzero) hne
      · rw [hempty] at hp
        obtain rfl := List.mem_singleton.1 hp
        exact absurd hp' hnone
    · have hid : (c.finish block).currentChallenge.id = ledger.activeChallengeId :=
        (Challenge.forId_id _).trans hsame
      obtain ⟨height, hrecorded, hat⟩ := h.recorded hempty hid
      rw [hrecorded] at hissued
      refine ⟨height, (Except.ok.inj hissued).symm, ?_⟩
      change IssuedAt _ c.activeChallengeId _
      rw [hsame] at hnone ⊢
      refine ⟨hat.first, fun hne => ?_, fun p hp hp' => ?_⟩
      · obtain ⟨p, hp, hopened⟩ := hat.claimed hne
        exact ⟨p, List.mem_append_left _ hp, hopened⟩
      · rcases List.mem_append.1 hp with hp | hp
        · exact hat.only p hp hp'
        · obtain rfl := List.mem_singleton.1 hp
          exact absurd hp' hnone
  · rw [if_pos hadvanced] at hissued
    have hlt := (hopens t ht _ hnext).1
    refine ⟨block.header.height, (Except.ok.inj hissued).symm, fun hzero => ?_, fun _ => ?_,
      fun p hp hp' => ?_⟩
    · change c.activeChallengeId = 0 at hzero
      rw [hzero] at hlt
      exact absurd hlt UInt64.not_lt_zero
    · exact ⟨(block, certificate), List.mem_append_right _ List.mem_cons_self, ⟨t, ht, hnext⟩, rfl⟩
    · rcases List.mem_append.1 hp with hp | hp
      · obtain ⟨t', ht', hopened⟩ := hp'
        have hle' := h.claims p hp t' ht' _ hopened
        exact absurd (UInt64.lt_of_lt_of_le hlt hle') (UInt64.lt_irrefl _)
      · obtain rfl := List.mem_singleton.1 hp
        rfl

/-- The accounts after a block. -/
theorem accounts_commit (h : Projected history s ledger)
    (hb : ledger.BlockApplied block receipts candidate) {height : UInt64}
    (haccounts : (candidate.accounts.toList.map (s.accountProjection
      (accountActivity (receipts.mapIdx TransactionReceipt.projection)))).foldlM
      (Store.insertAccount height) s.accounts = .ok s'.accounts) :
    (∀ address account, candidate.accounts[address]? = some account → ∃ row,
      s'.account (Formats.addressToText address) = some row ∧
        row.transactionCount.toNat < 2 ^ 63 ∧
        ShowsAccount (history ++ [(block, certificate)]) address account row) ∧
    (∀ text row, s'.account text = some row →
      ∃ address ∈ candidate.accounts, Formats.addressToText address = text) ∧
    ∀ address, address ∉ candidate.accounts →
      transactionCount (history ++ [(block, certificate)]) address = 0 := by
  obtain ⟨c, hrun, rfl⟩ := hb.executed
  have hdescribes := LedgerState.applyTransactions_describes hrun
  have hstored := (LedgerState.changes_of_run hrun).stored
  obtain ⟨hin, hout⟩ := Store.accounts_inserted haccounts
  refine ⟨fun address account haccount => ?_, fun text row hrow => ?_, fun address haddress => ?_⟩
  · obtain ⟨hbound, hrow⟩ := hin address account haccount
    refine ⟨_, by rw [Store.account, hrow]; rfl, hbound, rfl, rfl, rfl, rfl, ?_⟩
    exact h.count_after hdescribes hb.length_le
  · by_contra hnone
    push Not at hnone
    have hrow' : s.account text = some row := by
      rw [Store.account, ← hout text hnone]
      exact hrow
    obtain ⟨address, haddress, htext⟩ := h.owner text row hrow'
    exact hnone address ((hstored address).2 (.inl haddress)) htext
  · have haddress : address ∉ c.accounts := haddress
    rw [hstored, not_or] at haddress
    have hzero : block.transactions.countP (·.involves address) = 0 := by
      refine List.countP_eq_zero.2 fun t ht hinvolves => haddress.2 ?_
      obtain ⟨i, hi, rfl⟩ := List.getElem_of_mem ht
      have hd := hdescribes.get hi (hdescribes.length_eq ▸ hi)
      exact ⟨_, List.get_mem _ _, hd.stores hinvolves⟩
    rw [transactionCount_append, h.idle address haddress.1, hzero]

/-- The transactions after a block. -/
theorem transactions_commit (h : Projected history s ledger)
    (hb : ledger.BlockApplied block receipts candidate)
    (htransactions : (receipts.mapIdx TransactionReceipt.projection).foldlM
      (Store.insertTransaction block.header.height) s.transactions = .ok s'.transactions)
    (id : String) (height : UInt64) (index : Nat) :
    (∃ row, s'.transactions[id]? = some row ∧ row.blockHeight = height ∧
      row.index.toNat = index) ↔ Listed (history ++ [(block, certificate)]) id height index :=
  listed_commit h.transactions h.applied hb htransactions id height index

/-- A commit keeps the tables in step with the history. -/
theorem commitBlock (h : Projected history s ledger) {validators : List ValidatorId}
    (hc : KCoin.commitBlock validators (block, certificate) (s, ledger) = .ok (s', candidate)) :
    Projected (history ++ [(block, certificate)]) s' candidate := by
  obtain ⟨receipts, issued, hledger, hissued, hstore⟩ := commitBlock_eq_ok.1 hc
  obtain ⟨-, hb⟩ := LedgerState.applyFinalizedBlock_eq_ok.1 hledger
  obtain ⟨-, -, htransactions, haccounts, hs'⟩ := Store.persistFinalized_eq_ok hstore
  obtain ⟨haccount, howner, hidle⟩ := h.accounts_commit hb haccounts
  obtain ⟨height, rfl, hat⟩ : ∃ height, issued = s!"{height}" ∧ IssuedAt
      (history ++ [(block, certificate)]) candidate.activeChallengeId height := h.issuedAt hb hissued
  have hne : history ++ [(block, certificate)] ≠ [] := List.append_ne_nil_of_right_ne_nil _ nofun
  refine ⟨haccount, howner, hidle, h.transactions_commit hb htransactions, ?_,
    fun hnil => absurd hnil hne, fun _ => ?_, ?_⟩
  · obtain ⟨c, hrun, rfl⟩ := hb.executed
    have happlied := (LedgerState.changes_of_run hrun).applied
    have hids := ids_of_receipts (LedgerState.applyTransactions_describes hrun)
    intro p hp t ht
    refine (happlied _).2 ?_
    rcases List.mem_append.1 hp with hp | hp
    · exact .inl (h.applied p hp t ht)
    · obtain rfl := List.mem_singleton.1 hp
      have hmem : t.id ∈ receipts.map (·.transactionId) := hids ▸ List.mem_map_of_mem ht
      exact .inr (List.mem_map.1 hmem)
  · have hmetadata : s'.metadata["challenge"]? = some (s.projected candidate block certificate
        receipts s!"{height}").challengeJson := by
      rw [hs']
      exact Std.ExtTreeMap.getElem?_insert_self
    exact ⟨_, height, hmetadata, congrArg (fun id : UInt64 => s!"{id}") (Challenge.forId_id _), rfl,
      hat⟩
  · obtain ⟨c, hrun, rfl⟩ := hb.executed
    obtain ⟨hle, hopens⟩ := challenges_of_block hrun
    intro p hp t ht id hid
    rcases List.mem_append.1 hp with hp | hp
    · exact UInt64.le_trans (h.claims p hp t ht id hid) hle
    · obtain rfl := List.mem_singleton.1 hp
      exact (hopens t ht id hid).2

end Projected

/-! ## Commits in a row -/

/-- A node that commits blocks, one after the other, from an empty store on, with restarts and
whatever else it does in between. The reads of accounts succeed; when another operation of the
database fails, so does the commit. -/
inductive CommitRun (config : NodeConfig) : NodeActor → Prop
  | start (network : Bool) (peers : BTreeSet PeerId) (time : Instant) (a : NodeActor)
      (h : startNode config .empty network peers time = .ok a) : CommitRun config a
  | restart (a a' : NodeActor) (network : Bool) (peers : BTreeSet PeerId) (time : Instant)
      (run : CommitRun config a) (h : startNode config a.store network peers time = .ok a') :
      CommitRun config a'
  | commit (t : Turn) (block : Block) (certificate : CommitCertificate) (gossip : Bool)
      (run : CommitRun config t.actor)
      (reads : ∀ receipts candidate, LedgerState.applyFinalizedBlock block certificate
          t.actor.validatorIds t.actor.ledger = .ok receipts candidate →
        ∀ n < candidate.accounts.toList.length, t.env.storage (t.asked + n) = true) :
      CommitRun config (NodeM.commitFinalized block certificate gossip t).state.actor
  | other (t t' : Turn) (run : CommitRun config t.actor) (h : t.Move t')
      (ledger : t'.actor.ledger = t.actor.ledger) : CommitRun config t'.actor

namespace CommitRun

variable {config : NodeConfig} {a : NodeActor}

/-- The tables are in step with the history in every state of the run. -/
theorem projected (h : CommitRun config a) : a.Wired config ∧ ∃ history, a.Chained history ∧
    Projected history a.store a.ledger := by
  induction h with
  | start network peers time a h =>
      have hs := startNode_started h
      obtain ⟨hc, hledger⟩ := Machine.chained_of_started Store.holds_empty hs
        (s := .new a.chainId) rfl
      refine ⟨hs.wired, [], hc, ?_⟩
      rw [hs.store_eq, hledger]
      exact projected_empty _
  | restart a a' network peers time _ h ih =>
      obtain ⟨hw, history, hc, hp⟩ := ih
      have hs := startNode_started h
      have hchain : a'.chainId = a.chainId :=
        Except.ok.inj (hs.wired.chainId.symm.trans hw.chainId)
      have hreplay := hc.replay
      rw [hw.validatorIds, ← hchain] at hreplay
      obtain ⟨hc', hledger⟩ := Machine.chained_of_started hc.holds hs hreplay
      refine ⟨hs.wired, history, hc', ?_⟩
      rw [hs.store_eq, hledger]
      exact hp
  | commit t block certificate gossip _ reads ih =>
      obtain ⟨hw, history, hc, hp⟩ := ih
      rcases NodeM.commitFinalized_of_reads gossip t reads with hsame | ⟨receipts, store, candidate,
        lastBlockAt, hcommits, hcommit, hactor⟩
      · rw [hsame]
        exact ⟨hw, history, hc, hp⟩
      · rw [hactor]
        exact ⟨hw.of_same rfl rfl rfl rfl, history ++ [(block, certificate)],
          (hc.commit hcommits).of_same rfl rfl rfl rfl, hp.commitBlock hcommit⟩
  | other t t' _ h ledger ih =>
      obtain ⟨hw, history, hc, hp⟩ := ih
      have hw' := hw.move h
      refine ⟨hw', history, ?_⟩
      rcases h.tables with ⟨hledger, htables⟩ | ⟨block, certificate, receipts, candidate, store,
        hcommits, rfl⟩
      · refine ⟨hc.of_same hledger htables.blocks ?_ ?_, ?_⟩
        · exact Except.ok.inj (hw'.chainId.symm.trans hw.chainId)
        · exact hw'.validatorIds.trans hw.validatorIds.symm
        · rw [hledger]
          exact hp.of_same htables
      · -- a commit changes the ledger
        obtain ⟨-, hb⟩ := LedgerState.applyFinalizedBlock_eq_ok.1 hcommits.ledger
        have hheight := hb.height
        obtain ⟨c, -, rfl⟩ := hb.executed
        have hsame : block.header.height = t.actor.ledger.height := congrArg LedgerState.height ledger
        rw [hsame] at hheight
        omega

end CommitRun

/-- After every sequence of commits the tables of the explorer are what the finalized blocks and the
ledger determine. -/
theorem projection_correct {config : NodeConfig} {a : NodeActor} (h : CommitRun config a) :
    ∃ history, decodeHistory a.store.canonicalBlockRows = .ok history ∧
      LedgerState.replayFinalizedBlocks a.chainId history devValidatorIds = .ok a.ledger ∧
      Shown history a.store a.ledger := by
  obtain ⟨hw, history, hc, hp⟩ := h.projected
  have hreplay := hc.replay
  rw [hw.validatorIds] at hreplay
  refine ⟨history, hc.holds.decodeHistory fun p hp => ?_, ?_, hp.shown⟩
  · exact LedgerState.applyFinalizedBlocks_decodable hreplay hp
  · exact LedgerState.replayFinalizedBlocks_eq_ok.2 hreplay

end

section
open scoped Sample

/-- The record of the first block of a node that was given a claim. -/
def Sample.claimed : Option FinalizedWireRecord :=
  (Machine.play Sample.standalone Sample.environment
      [.submit (Sample.transaction 1 0 (.claimReward 0 (Challenge.forId 0).answer)) true, .tick]).bind
    fun m => m.store.canonicalBlockRows.getLast?.bind fun row => (NodeM.decodeRow row).toOption

/-- A node that commits a block with one claim. -/
theorem projection_correct_claim : ∃ record a b, Sample.claimed = some record ∧
    record.block.transactions.length = 1 ∧
    startNode Sample.standalone .empty false ∅ 0 = .ok a ∧
    b = (NodeM.commitFinalized record.block record.certificate false
      (Turn.begin Sample.environment a)).state.actor ∧
    b.ledger.height = 1 ∧ b.ledger.activeChallengeId = 1 ∧
    ∃ history, decodeHistory b.store.canonicalBlockRows = .ok history ∧
      LedgerState.replayFinalizedBlocks b.chainId history devValidatorIds = .ok b.ledger ∧
      Shown history b.store b.ledger := by
  have hrun : (Sample.claimed.bind fun record =>
      (startNode Sample.standalone .empty false ∅ 0).toOption.map fun a =>
        let b := (NodeM.commitFinalized record.block record.certificate false
          (Turn.begin Sample.environment a)).state.actor
        (record.block.transactions.length, b.ledger.height, b.ledger.activeChallengeId)) =
      some (1, 1, 1) := by
    decide +kernel
  obtain ⟨record, hrecord, hrun⟩ := Option.bind_eq_some_iff.1 hrun
  obtain ⟨a, ha, hrun⟩ := Option.map_eq_some_iff.1 hrun
  obtain ⟨hlength, hrun⟩ := Prod.mk.inj hrun
  obtain ⟨hheight, hid⟩ := Prod.mk.inj hrun
  have ha : startNode Sample.standalone .empty false ∅ 0 = .ok a := by
    cases hs : startNode Sample.standalone .empty false ∅ 0 with
    | error e => rw [hs] at ha; cases ha
    | ok a' => rw [hs] at ha; exact congrArg _ (Option.some.inj ha)
  have hrun : CommitRun Sample.standalone (NodeM.commitFinalized record.block record.certificate
      false (Turn.begin Sample.environment a)).state.actor :=
    .commit _ _ _ _ (.start false ∅ 0 a ha) fun _ _ _ _ _ => rfl
  exact ⟨record, a, _, hrecord, hlength, ha, rfl, hheight, hid, projection_correct hrun⟩

end

end KCoin
