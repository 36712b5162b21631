import KCoin.Node.Explorer

/-!
# Committing a block again

A store that was filled by committing the projections of the blocks 1, 2, … in order
(`Store.Persists`). The projection of the last block can be committed again without effect. That of
an earlier block passes the check of the hash, and then its accounts and the metadata go back to what
they were after that block (`Store.finality_idempotent`). A block with another hash is refused at
every finalized height.
-/

open Std Relation

namespace KCoin

/-! ## Filling a store -/

/-- The projection of a block of the given height, with each transaction and each account once. -/
structure FinalizedProjection.Lists (p : FinalizedProjection) (height : Nat) : Prop where
  height : p.height.toNat = height
  transactions : (p.transactions.map (·.id)).Nodup
  accounts : (p.changedAccounts.map (·.address)).Nodup

namespace Store

/-- The store after the projections of the blocks 1, 2, … are committed in order, with whatever is
written to the other tables in between. -/
inductive Persists : List FinalizedProjection → Store → Prop
  | empty : Persists [] .empty
  | block (ps : List FinalizedProjection) (s s' : Store) (p : FinalizedProjection)
      (before : Persists ps s) (lists : p.Lists (ps.length + 1))
      (h : s.persistFinalized p = .ok s') : Persists (ps ++ [p]) s'
  | other (ps : List FinalizedProjection) (s s' : Store) (before : Persists ps s)
      (same : s.SameTables s') : Persists ps s'

/-- A projection can be committed, and this leaves the finalized tables and the safety state of
every other height as they were. -/
def Repeats (s : Store) (p : FinalizedProjection) : Prop :=
  ∃ s', s.persistFinalized p = .ok s' ∧ s.SameTables s' ∧
    ∀ safety : UInt64 × List UInt8, safety.1 ≠ p.height →
      (s'.consensusSafety = some safety ↔ s.consensusSafety = some safety)

/-! ## Repeating the parts of a commit -/

section
variable {height : UInt64}

theorem insertAccount_again (rows : BTreeMap String AccountRow) (account : AccountProjection)
    (rows' : BTreeMap String AccountRow) (h : insertAccount height rows account = .ok rows') :
    insertAccount height rows' account = .ok rows' := by
  obtain ⟨hbounds, rfl⟩ := insertAccount_eq_ok.1 h
  exact insertAccount_eq_ok.2 ⟨hbounds, BTreeMap.insert_eq_self.2 ExtTreeMap.getElem?_insert_self⟩

theorem insertAccount_keeps (rows : BTreeMap String AccountRow) (account other : AccountProjection)
    (rows' : BTreeMap String AccountRow) (h : insertAccount height rows account = .ok rows)
    (hother : insertAccount height rows other = .ok rows') (hne : account.address ≠ other.address) :
    insertAccount height rows' account = .ok rows' := by
  obtain ⟨hbounds, hrow⟩ := insertAccount_eq_ok.1 h
  obtain ⟨-, rfl⟩ := insertAccount_eq_ok.1 hother
  refine insertAccount_eq_ok.2 ⟨hbounds, BTreeMap.insert_eq_self.2 ?_⟩
  rw [BTreeMap.getElem?_insert_ne hne.symm]
  exact BTreeMap.insert_eq_self.1 hrow

theorem insertTransaction_again (rows : BTreeMap String TransactionRow)
    (tx : TransactionProjection) (rows' : BTreeMap String TransactionRow)
    (h : insertTransaction height rows tx = .ok rows') :
    insertTransaction height rows' tx = .ok rows' := by
  obtain ⟨⟨hamount, hnonce, hplaces⟩, rfl⟩ := insertTransaction_eq_ok.1 h
  refine insertTransaction_eq_ok.2 ⟨⟨hamount, hnonce, fun id row hrow => ?_⟩,
    BTreeMap.insert_eq_self.2 ExtTreeMap.getElem?_insert_self⟩
  rw [ExtTreeMap.getElem?_insert] at hrow
  split at hrow
  · obtain rfl := Option.some.inj hrow
    exact .inl rfl
  · exact hplaces id row hrow

theorem insertTransaction_keeps (rows : BTreeMap String TransactionRow)
    (tx other : TransactionProjection) (rows' : BTreeMap String TransactionRow)
    (h : insertTransaction height rows tx = .ok rows)
    (hother : insertTransaction height rows other = .ok rows') (hne : tx.id ≠ other.id) :
    insertTransaction height rows' tx = .ok rows' := by
  obtain ⟨⟨hamount, hnonce, hplaces⟩, hrow⟩ := insertTransaction_eq_ok.1 h
  obtain ⟨⟨-, -, hothers⟩, rfl⟩ := insertTransaction_eq_ok.1 hother
  have hrow := BTreeMap.insert_eq_self.1 hrow
  refine insertTransaction_eq_ok.2 ⟨⟨hamount, hnonce, fun id row hid => ?_⟩, BTreeMap.insert_eq_self.2 ?_⟩
  · rw [ExtTreeMap.getElem?_insert] at hid
    split at hid
    · obtain rfl := Option.some.inj hid
      -- the other transaction was let in beside the row of this one
      rcases hothers tx.id _ hrow with hsame | hheight | hindex
      · exact absurd hsame hne
      · exact absurd rfl hheight
      · exact .inr (.inr (Ne.symm hindex))
    · exact hplaces id row hid
  · rw [BTreeMap.getElem?_insert_ne hne.symm]
    exact hrow

theorem updateMetadata_again (metadata : BTreeMap String String) (p : FinalizedProjection) :
    updateMetadata (updateMetadata metadata p) p = updateMetadata metadata p := by
  ext key value
  simp only [updateMetadata, ExtTreeMap.getElem?_insert]
  split_ifs <;> rfl

/-- The metadata name the height of the block that was committed last. -/
theorem updateMetadata_tip (metadata : BTreeMap String String) (p : FinalizedProjection) :
    (updateMetadata metadata p)["tip_height"]? = some s!"{p.height}" := by
  simp only [updateMetadata, ExtTreeMap.getElem?_insert]
  rfl

theorem toString_injective {n m : UInt64} (h : s!"{n}" = s!"{m}") : n = m := by
  have hdigits := congrArg (fun s : String => parseU64 s.toList) h
  change parseU64 (toString n).toList = parseU64 (toString m).toList at hdigits
  rw [toList_toString, toList_toString, parseU64_toDigits, parseU64_toDigits] at hdigits
  exact Option.some.inj hdigits

/-- The metadata are those after a block of one height at most. -/
theorem height_of_metadata {metadata : BTreeMap String String} {p q : FinalizedProjection}
    (hp : updateMetadata metadata p = metadata) (hq : updateMetadata metadata q = metadata) :
    p.height = q.height := by
  have htip := updateMetadata_tip metadata p
  rw [hp, ← hq, updateMetadata_tip] at htip
  exact (toString_injective (Option.some.inj htip)).symm

/-- The row of a block that was inserted has its hash, and the other rows are as they were. -/
theorem insertBlock_eq_ok {blocks blocks' : BTreeMap UInt64 BlockRow} {p : FinalizedProjection}
    (h : insertBlock blocks p = .ok blocks') :
    (∃ row, blocks'[p.height]? = some row ∧ row.blockHash = p.blockHash) ∧
      ∀ height, height ≠ p.height → blocks'[height]? = blocks[height]? := by
  cases hrow : blocks[p.height]? with
  | some row =>
      unfold insertBlock at h
      rw [hrow] at h
      obtain ⟨_, hhash, h⟩ := Except.bind_eq_ok.1 h
      obtain rfl := Except.pure_eq_ok.1 h
      exact ⟨⟨row, hrow, Except.ensure_eq_ok.1 hhash⟩, fun _ _ => rfl⟩
  | none =>
      obtain ⟨rfl, -⟩ := insertBlock_new hrow h
      refine ⟨⟨blockRow p, ExtTreeMap.getElem?_insert_self, rfl⟩, fun height hne => ?_⟩
      rw [BTreeMap.getElem?_insert_ne hne.symm]

end

/-! ## What a filled store has -/

section
variable {ps : List FinalizedProjection} {s s' : Store} {p q : FinalizedProjection}

/-- The height of a projection fits its column, and its row is there. -/
structure HasBlock (s : Store) (p : FinalizedProjection) : Prop where
  bound : p.height.toNat < 2 ^ 63
  row : ∃ row, s.blocks[p.height]? = some row ∧ row.blockHash = p.blockHash

/-- The other tables have what the projection says. -/
structure Shows (s : Store) (p : FinalizedProjection) : Prop where
  transactions : p.transactions.foldlM (insertTransaction p.height) s.transactions =
    .ok s.transactions
  accounts : p.changedAccounts.foldlM (insertAccount p.height) s.accounts = .ok s.accounts
  metadata : updateMetadata s.metadata p = s.metadata

/-- A block with another hash is refused. -/
theorem HasBlock.conflicts (h : s.HasBlock p) (hheight : q.height = p.height)
    (hhash : q.blockHash ≠ p.blockHash) :
    s.persistFinalized q = .error (.conflictingFinality p.height) := by
  obtain ⟨row, hrow, hsame⟩ := h.row
  have hbind : bindInteger q.height = .ok () := Except.ensure_eq_ok.2 (hheight ▸ h.bound)
  have hblock : insertBlock s.blocks q = .error (.conflictingFinality p.height) := by
    unfold insertBlock
    rw [hheight, hrow]
    refine Except.bind_eq_error.2 (.inl (Except.ensure_eq_error.2 ⟨fun he => ?_, rfl⟩))
    exact hhash (he.symm.trans hsame)
  exact Except.bind_eq_error.2 (.inr ⟨(), hbind, Except.bind_eq_error.2 (.inl hblock)⟩)

/-- A projection that the tables show can be committed again. -/
theorem HasBlock.repeats (h : s.HasBlock p) (hshows : s.Shows p) : s.Repeats p := by
  obtain ⟨row, hrow, hsame⟩ := h.row
  have hbind : bindInteger p.height = .ok () := Except.ensure_eq_ok.2 h.bound
  have hblock : insertBlock s.blocks p = .ok s.blocks := by
    unfold insertBlock
    rw [hrow]
    exact Except.bind_eq_ok.2 ⟨(), Except.ensure_eq_ok.2 hsame, rfl⟩
  refine ⟨{ s with consensusSafety := s.consensusSafety.filter fun safety => safety.1 ≠ p.height },
    ?_, ⟨rfl, rfl, rfl, rfl⟩, fun safety hne => ?_⟩
  · refine Except.bind_eq_ok.2 ⟨(), hbind, Except.bind_eq_ok.2 ⟨_, hblock, ?_⟩⟩
    refine Except.bind_eq_ok.2 ⟨_, hshows.transactions, ?_⟩
    refine Except.bind_eq_ok.2 ⟨_, hshows.accounts, ?_⟩
    rw [hshows.metadata]
    rfl
  · rw [Option.filter_eq_some_iff]
    exact ⟨fun hs => hs.1, fun hs => ⟨hs, decide_eq_true hne⟩⟩

/-- What is committed is shown. -/
theorem shows_of_persistFinalized {height : Nat} (hlists : p.Lists height)
    (h : s.persistFinalized p = .ok s') : s'.HasBlock p ∧ s'.Shows p ∧
      ∀ height, height ≠ p.height → s'.blocks[height]? = s.blocks[height]? := by
  obtain ⟨hbound, hblocks, htransactions, haccounts, hs'⟩ := persistFinalized_eq_ok h
  obtain ⟨hrow, hothers⟩ := insertBlock_eq_ok hblocks
  refine ⟨⟨hbound, hrow⟩, ⟨?_, ?_, ?_⟩, hothers⟩
  · exact Except.foldlM_again insertTransaction_again insertTransaction_keeps htransactions
      hlists.transactions
  · exact Except.foldlM_again insertAccount_again insertAccount_keeps haccounts hlists.accounts
  · rw [hs']
    exact updateMetadata_again s.metadata p

theorem Shows.of_same (h : s.Shows p) (hsame : s.SameTables s') : s'.Shows p where
  transactions := by rw [hsame.transactions]; exact h.transactions
  accounts := by rw [hsame.accounts]; exact h.accounts
  metadata := by rw [hsame.metadata]; exact h.metadata

/-- All blocks of a filled store are there, under their heights, and the last one is shown. -/
theorem Persists.blocks (h : Persists ps s) :
    (∀ k p, ps[k]? = some p → p.height.toNat = k + 1 ∧ s.HasBlock p) ∧
      ∀ p, ps.getLast? = some p → s.Shows p := by
  induction h with
  | empty => exact ⟨nofun, nofun⟩
  | block ps s s' p _ lists h ih =>
      obtain ⟨hhas, hshows, hothers⟩ := shows_of_persistFinalized lists h
      refine ⟨fun k q hq => ?_, fun q hq => ?_⟩
      · rw [List.getElem?_append] at hq
        split at hq
        · next hlt =>
            obtain ⟨hheight, hq⟩ := ih.1 k q hq
            have hne : q.height ≠ p.height := by
              intro he
              have hp := lists.height
              rw [← he] at hp
              omega
            refine ⟨hheight, hq.bound, ?_⟩
            rw [hothers q.height hne]
            exact hq.row
        · next hge =>
            obtain ⟨hk, rfl⟩ : k = ps.length ∧ p = q := by
              have hindex := (List.getElem?_eq_some_iff.1 hq).1
              rw [List.length_singleton] at hindex
              have hk : k = ps.length := by omega
              subst hk
              simpa using hq
            exact ⟨hk ▸ lists.height, hhas⟩
      · rw [List.getLast?_concat] at hq
        obtain rfl := Option.some.inj hq
        exact hshows
  | other ps s s' _ same ih =>
      refine ⟨fun k p hp => ?_, fun p hp => (ih.2 p hp).of_same same⟩
      obtain ⟨hheight, hbound, hrow⟩ := ih.1 k p hp
      exact ⟨hheight, hbound, same.blocks ▸ hrow⟩

/-- In a store with the blocks from 1 on, the projection of a block can be committed again without
effect if and only if the block is the last one, and a block with another hash is refused at its
height. -/
theorem finality_idempotent {k : Nat} (h : Persists ps s) (hp : ps[k]? = some p) :
    (s.Repeats p ↔ k + 1 = ps.length) ∧
      ∀ q : FinalizedProjection, q.height = p.height → q.blockHash ≠ p.blockHash →
        s.persistFinalized q = .error (.conflictingFinality p.height) := by
  obtain ⟨hblocks, hlast⟩ := h.blocks
  obtain ⟨hheight, hhas⟩ := hblocks k p hp
  refine ⟨⟨fun hrepeats => ?_, fun hk => ?_⟩, fun q => hhas.conflicts⟩
  · -- a repetition writes the height of its block into the metadata
    obtain ⟨s', hs', hsame, -⟩ := hrepeats
    obtain ⟨-, -, -, -, hs'⟩ := persistFinalized_eq_ok hs'
    have hmetadata : updateMetadata s.metadata p = s.metadata :=
      (congrArg Store.metadata hs').symm.trans hsame.metadata
    have hlt : k < ps.length := (List.getElem?_eq_some_iff.1 hp).1
    obtain ⟨q, hq⟩ : ∃ q, ps[ps.length - 1]? = some q :=
      ⟨_, List.getElem?_eq_getElem (by omega)⟩
    have hshows := hlast q (by rw [List.getLast?_eq_getElem?, hq])
    have hqheight := (hblocks (ps.length - 1) q hq).1
    have hsame : p.height = q.height := height_of_metadata hmetadata hshows.metadata
    rw [← hsame, hheight] at hqheight
    omega
  · refine hhas.repeats (hlast p ?_)
    rw [List.getLast?_eq_getElem?, ← hk]
    exact hp

end

end Store

/-! ## The store of a node -/

section
variable [Primitives] [Formats]

omit [Primitives] in
theorem NodeM.projectAccounts_addresses {activity : BTreeMap String UInt64}
    {accounts : List (Address × AccountState)} {rows : List AccountProjection} {t u : Turn}
    (h : projectAccounts activity accounts t = .ok rows u) :
    rows.map (·.address) = (accounts.map Prod.fst).map Formats.addressToText := by
  induction accounts generalizing t rows with
  | nil =>
      obtain ⟨rfl, -⟩ := EStateM.pure_eq_ok.1 h
      rfl
  | cons p accounts ih =>
      obtain ⟨existing, v, -, h⟩ := EStateM.bind_eq_ok.1 h
      obtain ⟨rest, w, hrest, h⟩ := EStateM.bind_eq_ok.1 h
      obtain ⟨rfl, rfl⟩ := EStateM.pure_eq_ok.1 h
      exact congrArg (Formats.addressToText p.1 :: ·) (ih hrest)

/-- What a node commits is the projection of the block after its ledger. -/
theorem NodeActor.Commits.lists {a : NodeActor} {block : Block} {certificate : CommitCertificate}
    {receipts : List TransactionReceipt} {candidate : LedgerState} {store : Store}
    (h : a.Commits block certificate receipts candidate store) :
    ∃ p, p.Lists (a.ledger.height.toNat + 1) ∧ a.store.persistFinalized p = .ok store := by
  obtain ⟨u, u', p, -, hprojection, hstore⟩ := h.store
  obtain ⟨accounts, issuedAt, v, haccounts, -, rfl⟩ := buildProjection_eq_ok hprojection
  obtain ⟨-, hb⟩ := LedgerState.applyFinalizedBlock_eq_ok.1 h.ledger
  obtain ⟨c, hrun, -⟩ := hb.executed
  refine ⟨_, ⟨hb.height, ?_, ?_⟩, hstore⟩
  · have hids := ids_of_receipts (LedgerState.applyTransactions_describes hrun)
    have hnodup := (LedgerState.applyTransactions_fresh hrun).1
    rw [← hids] at hnodup
    exact ids_of_projections receipts ▸ hnodup.map Hash32.toText_injective
  · change (accounts.map (·.address)).Nodup
    rw [NodeM.projectAccounts_addresses haccounts]
    exact (BTreeMap.nodup_map_fst _).map Formats.addressToText_injective

/-- The store is one that was filled block by block. -/
def Store.Filled (s : Store) : Prop :=
  ∃ ps, Store.Persists ps s ∧ ps.length = s.canonicalBlockRows.length

theorem Store.Filled.move {config : NodeConfig} {t t' : Turn} (h : t.actor.store.Filled)
    (hrecorded : Machine.Recorded config t) (hmove : t.Move t') : t'.actor.store.Filled := by
  obtain ⟨ps, hps, hlength⟩ := h
  rcases hmove.tables with ⟨-, htables⟩ | ⟨block, certificate, receipts, candidate, store, hc, rfl⟩
  · refine ⟨ps, .other ps _ _ hps htables, ?_⟩
    rw [hlength, Store.canonicalBlockRows, Store.canonicalBlockRows, htables.blocks]
  · obtain ⟨-, history, hchained⟩ := hrecorded
    have hheights := congrArg List.length hchained.heights
    have hheights' := congrArg List.length (hchained.commit hc).heights
    simp only [List.length_map, List.length_range'] at hheights hheights'
    obtain ⟨p, hlists, hstore⟩ := hc.lists
    rw [← hheights, ← hlength] at hlists
    refine ⟨ps ++ [p], .block ps _ _ p hps hlists hstore, ?_⟩
    obtain ⟨-, hb⟩ := LedgerState.applyFinalizedBlock_eq_ok.1 hc.ledger
    have hheight := hb.height
    obtain ⟨c, -, rfl⟩ := hb.executed
    rw [List.length_append, List.length_singleton, hlength, hheights, ← hheight]
    exact hheights'.symm

/-- Every store of a node is filled block by block, so `Store.finality_idempotent` is about it. -/
theorem Machine.Reachable.filled {config : NodeConfig} {m : Machine} (h : Machine.Reachable config m) :
    m.store.Filled := by
  have hinv := h.invariant (S := fun s => Restorable config s ∧ s.Filled)
    (J := fun t => Recorded config t ∧ t.actor.store.Filled) ?_ ?_ ?_ ?_ ?_
  · exact hinv.1.2
  · exact ⟨restorable_empty, [], .empty, rfl⟩
  · intro store a env hstore hs
    exact ⟨⟨hs.wired, hstore.1.started hs⟩, hs.store_eq ▸ hstore.2⟩
  · exact fun _ _ h => h
  · exact fun t t' ht hmove => ⟨ht.1.move hmove, ht.2.move ht.1 hmove⟩
  · exact fun t ht => ⟨ht.1.restorable, ht.2⟩

end

/-! ## A repetition that takes balances back -/

/-- The projection of a block that leaves the account of `ada` with a balance. -/
def Sample.projection (height balance : UInt64) : FinalizedProjection where
  height
  blockHash := s!"block {height}"
  parentHash := s!"block {height - 1}"
  stateRoot := s!"state {height}"
  proposer := "alpha"
  round := 0
  timestampMs := height
  blockBytes := []
  certificateBytes := []
  transactions := [⟨s!"payment {height}", 0, "transfer", "ada", some "bob", 1, height⟩]
  changedAccounts := [⟨"ada", balance, height, none, height⟩]
  issuedSupplyAtoms := 100
  challengeJson := ""

/-- The store after two blocks, and after the first of them is committed once more. -/
def Sample.repeated : Option (Store × Store) := do
  let one ← (Store.empty.persistFinalized (projection 1 100)).toOption
  let two ← (one.persistFinalized (projection 2 99)).toOption
  let again ← (two.persistFinalized (projection 1 100)).toOption
  return (two, again)

theorem Sample.lists (height balance : UInt64) :
    (projection height balance).Lists height.toNat where
  height := rfl
  transactions := List.nodup_singleton _
  accounts := List.nodup_singleton _

theorem Sample.persists_repeated {s s' : Store} (h : repeated = some (s, s')) :
    Store.Persists [projection 1 100, projection 2 99] s ∧
      s.persistFinalized (projection 1 100) = .ok s' := by
  simp only [repeated, Option.bind_eq_bind, Option.bind_eq_some_iff, Option.pure_def] at h
  obtain ⟨one, hone, two, htwo, again, hagain, h⟩ := h
  cases h
  refine ⟨?_, Except.toOption_eq_some.1 hagain⟩
  refine .block [projection 1 100] one _ _ ?_ (lists 2 99) (Except.toOption_eq_some.1 htwo)
  exact .block [] _ one _ .empty (lists 1 100) (Except.toOption_eq_some.1 hone)

namespace Store
open Sample

/-- After two blocks the second can be committed again, and a fork of the first is refused. -/
theorem finality_idempotent_two : ∃ s, Persists [projection 1 100, projection 2 99] s ∧
    s.Repeats (projection 2 99) ∧
    s.persistFinalized { projection 1 100 with blockHash := "fork" } =
      .error (.conflictingFinality 1) := by
  obtain ⟨⟨s, s'⟩, hrun⟩ : ∃ p, repeated = some p :=
    Option.isSome_iff_exists.1 (by decide +kernel)
  have h := (persists_repeated hrun).1
  refine ⟨s, h, (finality_idempotent (k := 1) h rfl).1.2 rfl, ?_⟩
  exact (finality_idempotent (k := 0) h rfl).2 _ rfl (by decide)

/-- The first of two blocks is committed again: the tip is the first block, and the account has the
balance it had then. -/
theorem repetition_goes_back : ∃ s s', Persists [projection 1 100, projection 2 99] s ∧
    s.persistFinalized (projection 1 100) = .ok s' ∧
    s.metadata["tip_height"]? = some "2" ∧ s'.metadata["tip_height"]? = some "1" ∧
    (s.account "ada").map (·.balanceAtoms) = some 99 ∧
    (s'.account "ada").map (·.balanceAtoms) = some 100 ∧ ¬ s.Repeats (projection 1 100) := by
  have hrun : repeated.map (fun p => (p.1.metadata["tip_height"]?, p.2.metadata["tip_height"]?,
      (p.1.account "ada").map (·.balanceAtoms), (p.2.account "ada").map (·.balanceAtoms))) =
      some (some "2", some "1", some 99, some 100) := by
    decide +kernel
  obtain ⟨⟨s, s'⟩, hrun, hshows⟩ := Option.map_eq_some_iff.1 hrun
  obtain ⟨htip, htip', hbalance, hbalance'⟩ := by simpa only [Prod.mk.injEq] using hshows
  obtain ⟨h, hagain⟩ := persists_repeated hrun
  refine ⟨s, s', h, hagain, htip, htip', hbalance, hbalance', ?_⟩
  rintro ⟨s₁, hs₁, hsame, -⟩
  obtain rfl := Except.ok.inj (hagain.symm.trans hs₁)
  rw [hsame.metadata, htip] at htip'
  exact absurd (Option.some.inj htip') (by decide)

end Store

end KCoin
