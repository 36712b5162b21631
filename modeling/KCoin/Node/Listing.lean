import Mathlib.Data.Prod.Lex
import KCoin.Lib.Pages
import KCoin.Node.Explorer
import KCoin.Node.Instants

/-!
# The finalized transactions and their places

The table of the transactions has the transactions of the stored blocks and no others, each with the
height of its block and its index there, at every moment of a node's life (`Moment.Sound.listing`).
Sorted by these places it is the history itself, newest first.
-/

open Relation EStateM

namespace KCoin

/-! ## The transactions of a history -/

section
variable [Primitives]

/-- The transactions of a history were not applied before it, are distinct, and are applied after
it. -/
theorem LedgerState.applyFinalizedBlocks_fresh {validators : List ValidatorId} {s s' : LedgerState}
    {h : BlockHistory} (hrun : applyFinalizedBlocks validators h s = .ok () s') :
    ((h.flatMap (·.1.transactions)).map (·.id)).Nodup ∧
      (∀ id ∈ (h.flatMap (·.1.transactions)).map (·.id), id ∉ s.appliedTransactions) ∧
      ∀ id, id ∈ s'.appliedTransactions ↔
        id ∈ s.appliedTransactions ∨ id ∈ (h.flatMap (·.1.transactions)).map (·.id) := by
  induction h generalizing s with
  | nil =>
      obtain ⟨-, rfl⟩ := EStateM.pure_eq_ok.1 hrun
      exact ⟨.nil, nofun, fun id => by simp⟩
  | cons p h ih =>
      obtain ⟨rs, s₁, hp, hrest⟩ := EStateM.bind_eq_ok.1 hrun
      obtain ⟨-, hb⟩ := applyFinalizedBlock_eq_ok.1 hp
      obtain ⟨c, hts, rfl⟩ := hb.executed
      obtain ⟨hnodup, hfresh⟩ := applyTransactions_fresh hts
      obtain ⟨hnodup', hfresh', happlied'⟩ := ih hrest
      have happlied : ∀ id, id ∈ (c.finish p.1).appliedTransactions ↔
          id ∈ s.appliedTransactions ∨ id ∈ p.1.transactions.map (·.id) := by
        intro id
        rw [← ids_of_receipts (applyTransactions_describes hts), List.mem_map]
        exact (changes_of_run hts).applied id
      rw [List.flatMap_cons, List.map_append]
      refine ⟨List.nodup_append.2 ⟨hnodup, hnodup', fun id hid id' hid' => ?_⟩, fun id hid => ?_,
        fun id => ?_⟩
      · rintro rfl
        exact hfresh' id hid' ((happlied id).2 (.inr hid))
      · rcases List.mem_append.1 hid with hid | hid
        · exact hfresh id hid
        · exact fun hs => hfresh' id hid ((happlied id).2 (.inl hs))
      · rw [happlied', happlied, List.mem_append, or_assoc]

/-- A transaction with the height of its block and its index there. -/
abbrev Place := String × UInt64 × Nat

/-- The order of the places. -/
def Place.key (p : Place) : Nat ×ₗ Nat := toLex (p.2.1.toNat, p.2.2)

/-- The finalized transactions in their order. -/
def places (history : BlockHistory) : List Place :=
  history.flatMap fun p =>
    p.1.transactions.mapIdx fun index t => (t.id.toText, p.1.header.height, index)

theorem mem_places {history : BlockHistory} {id : String} {height : UInt64} {index : Nat} :
    (id, height, index) ∈ places history ↔ Listed history id height index := by
  simp only [places, Listed, List.mem_flatMap, List.mem_mapIdx, Prod.mk.injEq]
  constructor
  · rintro ⟨p, hp, i, hi, rfl, rfl, rfl⟩
    exact ⟨p, hp, _, rfl, List.getElem?_eq_getElem hi, rfl⟩
  · rintro ⟨p, hp, t, rfl, ht, rfl⟩
    obtain ⟨hi, rfl⟩ := List.getElem?_eq_some_iff.1 ht
    exact ⟨p, hp, index, hi, rfl, rfl, rfl⟩

theorem ids_of_places (history : BlockHistory) : (places history).map Prod.fst =
    ((history.flatMap (·.1.transactions)).map (·.id)).map Hash32.toText := by
  rw [places, List.map_flatMap, List.map_flatMap, List.map_flatMap]
  refine congrArg (List.flatMap · history) (funext fun p => List.ext_getElem? fun index => ?_)
  rw [List.getElem?_map, List.getElem?_mapIdx, List.getElem?_map, List.getElem?_map]
  cases p.1.transactions[index]? <;> rfl

/-- The transactions come in the order of their places, if the blocks come in the order of their
heights. -/
theorem pairwise_places {history : BlockHistory}
    (h : history.Pairwise fun p q => p.1.header.height.toNat < q.1.header.height.toNat) :
    (places history).Pairwise fun a b => Place.key a < Place.key b := by
  refine List.pairwise_flatMap.2 ⟨fun p _ => ?_, h.imp fun {p q} hlt a ha b hb => ?_⟩
  · rw [List.pairwise_iff_getElem]
    intro i j hi hj hij
    rw [List.getElem_mapIdx, List.getElem_mapIdx]
    exact Prod.Lex.toLex_lt_toLex.2 (.inr ⟨rfl, hij⟩)
  · obtain ⟨i, hi, rfl⟩ := List.mem_mapIdx.1 ha
    obtain ⟨j, hj, rfl⟩ := List.mem_mapIdx.1 hb
    exact Prod.Lex.toLex_lt_toLex.2 (.inl hlt)

end

/-! ## The table -/

/-- The place that a row says. -/
def TransactionRow.place (row : TransactionRow) : Place := (row.id, row.blockHeight, row.index.toNat)

namespace Store

section
variable [Primitives] {s s' : Store} {history : BlockHistory}

/-- The table of the transactions has those of a history, each under its identifier. -/
structure Lists (s : Store) (history : BlockHistory) : Prop where
  keys : ∀ (id : String) (row : TransactionRow), s.transactions[id]? = some row → row.id = id
  listed : ∀ id height index,
    (∃ row, s.transactions[id]? = some row ∧ row.blockHeight = height ∧ row.index.toNat = index) ↔
      Listed history id height index

theorem lists_empty : Store.empty.Lists [] where
  keys _ _ h := by simp [empty] at h
  listed id height index := by simp [empty, Listed]

theorem Lists.of_same (h : s.Lists history) (hs : s.SameTables s') : s'.Lists history where
  keys := by
    rw [hs.transactions]
    exact h.keys
  listed := by
    rw [hs.transactions]
    exact h.listed

/-- The rows of the table are those of the places. -/
theorem Lists.mem_place (h : s.Lists history) {p : Place} :
    (∃ row ∈ s.transactions.values, row.place = p) ↔ p ∈ places history := by
  obtain ⟨id, height, index⟩ := p
  rw [mem_places, ← h.listed]
  constructor
  · rintro ⟨row, hrow, hplace⟩
    obtain ⟨key, hkey⟩ := BTreeMap.mem_values_iff.1 hrow
    cases hplace
    exact ⟨row, by rw [h.keys key row hkey]; exact hkey, rfl, rfl⟩
  · rintro ⟨row, hrow, rfl, rfl⟩
    refine ⟨row, BTreeMap.mem_values_iff.2 ⟨id, hrow⟩, ?_⟩
    rw [TransactionRow.place, h.keys id row hrow]

omit [Primitives] in
theorem insertTransactions_keys {height : UInt64} {txs : List TransactionProjection}
    {rows rows' : BTreeMap String TransactionRow}
    (hrun : txs.foldlM (insertTransaction height) rows = .ok rows')
    (h : ∀ (id : String) (row : TransactionRow), rows[id]? = some row → row.id = id) :
    ∀ (id : String) (row : TransactionRow), rows'[id]? = some row → row.id = id := by
  induction txs generalizing rows with
  | nil =>
      cases hrun
      exact h
  | cons tx txs ih =>
      obtain ⟨rows₁, htx, hrun⟩ := Except.bind_eq_ok.1 hrun
      refine ih hrun fun id row hrow => ?_
      rw [← (insertTransaction_eq_ok.1 htx).2] at hrow
      by_cases hid : tx.id = id
      · subst hid
        rw [Std.ExtTreeMap.getElem?_insert_self] at hrow
        cases hrow
        rfl
      · rw [BTreeMap.getElem?_insert_ne hid] at hrow
        exact h id row hrow

end

end Store

/-! ## The store and its history -/

section
variable [Primitives] {config : NodeConfig} {history : BlockHistory}

/-- The store has the rows of a history and of its transactions, and the configured chain can
execute it. -/
structure Store.Listing (config : NodeConfig) (s : Store) (history : BlockHistory) : Prop where
  holds : s.Holds history
  lists : s.Lists history
  run : ∃ chainId ledger, (∀ c, ChainId.new config.chainId = .ok c → c = chainId) ∧
    LedgerState.applyFinalizedBlocks devValidatorIds history (.new chainId) = .ok () ledger

theorem Store.listing_empty (config : NodeConfig) : Store.empty.Listing config [] := by
  refine ⟨holds_empty, lists_empty, ?_⟩
  cases ChainId.new config.chainId with
  | ok c => exact ⟨c, _, by rintro _ ⟨⟩; rfl, rfl⟩
  | error e => exact ⟨⟨""⟩, _, nofun, rfl⟩

namespace Store.Listing

variable {s s' : Store} {history' : BlockHistory}

/-- The heights of the blocks are those from 1 on. -/
theorem heights (h : s.Listing config history) :
    history.map (·.1.header.height.toNat) = List.range' 1 history.length := by
  obtain ⟨chainId, ledger, -, hrun⟩ := h.run
  exact (LedgerState.applyFinalizedBlocks_heights hrun).1

theorem ascending (h : s.Listing config history) :
    history.Pairwise fun p q => p.1.header.height.toNat < q.1.header.height.toNat := by
  rw [← List.pairwise_map (R := (· < ·)), h.heights]
  exact List.pairwise_lt_range'

/-- The transactions have different identifiers. -/
theorem nodup_ids (h : s.Listing config history) :
    ((history.flatMap (·.1.transactions)).map (·.id)).Nodup := by
  obtain ⟨chainId, ledger, -, hrun⟩ := h.run
  exact (LedgerState.applyFinalizedBlocks_fresh hrun).1

theorem decodable (h : s.Listing config history) : ∀ p ∈ history,
    Block.decode p.1.canonicalBytes = .ok p.1 ∧
      CommitCertificate.decode p.2.canonicalBytes = .ok p.2 := by
  obtain ⟨chainId, ledger, -, hrun⟩ := h.run
  exact fun p hp => LedgerState.applyFinalizedBlocks_decodable hrun hp

/-- The history is the one that the rows are decoded to. -/
theorem decodeHistory (h : s.Listing config history) :
    decodeHistory s.canonicalBlockRows = .ok history := h.holds.decodeHistory h.decodable

/-- The row of a block is the one of its height. -/
theorem blockByHeight (h : s.Listing config history) {p : Block × CommitCertificate}
    (hp : p ∈ history) : p.1.header.height.toNat < 2 ^ 63 ∧
      s.blockByHeight p.1.header.height = .ok (some (finalizedRow p.1 p.2)) := by
  have hrow : finalizedRow p.1 p.2 ∈ s.canonicalBlockRows := by
    rw [h.holds.rows]
    exact List.mem_map_of_mem hp
  obtain ⟨k, hk⟩ := BTreeMap.mem_values_iff.1 hrow
  obtain ⟨hheight, hlt⟩ := h.holds.keys k _ hk
  obtain rfl : p.1.header.height = k := hheight
  exact ⟨hlt, Except.bind_eq_ok.2 ⟨(), Except.ensure_eq_ok.2 hlt, congrArg Except.ok hk⟩⟩

/-- The number of blocks fits the signed column of the block table. -/
theorem length_lt (h : s.Listing config history) : history.length < 2 ^ 63 := by
  by_contra hge
  have hmem : history.length ∈ history.map (·.1.header.height.toNat) := by
    rw [h.heights, List.mem_range'_1]
    omega
  obtain ⟨p, hp, hheight⟩ := List.mem_map.1 hmem
  have hlt := (h.blockByHeight hp).1
  omega

/-- A store with more rows has a longer history. -/
theorem prefix_of_rows (h : s.Listing config history) (h' : s'.Listing config history')
    (hrows : s.canonicalBlockRows <+: s'.canonicalBlockRows) : history <+: history' := by
  rw [h.holds.rows, h'.holds.rows] at hrows
  have htake := List.prefix_iff_eq_take.1 hrows
  rw [List.length_map, ← List.map_take] at htake
  have hdecode := decodeHistory_rows h.decodable
  rw [htake, decodeHistory_rows fun p hp => h'.decodable p (List.mem_of_mem_take hp)] at hdecode
  rw [← Except.ok.inj hdecode]
  exact List.take_prefix _ _

end Store.Listing

end

/-! ## Every moment -/

section
variable [Primitives] [Formats] {config : NodeConfig} {t t' : Turn} {history : BlockHistory}

theorem Store.Lists.commit {a : NodeActor} (h : a.store.Lists history) (hc : a.Chained history)
    {block : Block} {certificate : CommitCertificate} {receipts : List TransactionReceipt}
    {candidate : LedgerState} {store : Store}
    (hcommits : a.Commits block certificate receipts candidate store) :
    store.Lists (history ++ [(block, certificate)]) := by
  obtain ⟨u, u', projection, -, hprojection, hstore⟩ := hcommits.store
  obtain ⟨accounts, issuedAt, v, -, -, rfl⟩ := buildProjection_eq_ok hprojection
  obtain ⟨-, hb⟩ := LedgerState.applyFinalizedBlock_eq_ok.1 hcommits.ledger
  obtain ⟨-, -, htransactions, -, -⟩ := Store.persistFinalized_eq_ok hstore
  obtain ⟨-, -, happlied⟩ := LedgerState.applyFinalizedBlocks_fresh hc.replay
  refine ⟨Store.insertTransactions_keys htransactions h.keys, ?_⟩
  refine listed_commit h.listed (fun p hp tx htx => ?_) hb htransactions
  exact (happlied _).2 (.inr (List.mem_map_of_mem (List.mem_flatMap.2 ⟨p, hp, htx⟩)))

/-- The actor is wired as it was started, and its store has the history of its ledger. -/
def Turn.Listing (config : NodeConfig) (t : Turn) : Prop :=
  t.actor.Wired config ∧ ∃ history, t.actor.Chained history ∧ t.actor.store.Lists history

theorem Turn.Listing.move (h : t.Listing config) (hmove : t.Move t') : t'.Listing config := by
  obtain ⟨hw, history, hc, hl⟩ := h
  have hw' := hw.move hmove
  refine ⟨hw', ?_⟩
  rcases hmove.tables with ⟨hledger, htables⟩ | ⟨block, certificate, receipts, candidate, store,
    hcommits, rfl⟩
  · refine ⟨history, hc.of_same hledger htables.blocks ?_ ?_, hl.of_same htables⟩
    · exact Except.ok.inj (hw'.chainId.symm.trans hw.chainId)
    · exact hw'.validatorIds.trans hw.validatorIds.symm
  · exact ⟨_, hc.commit hcommits, hl.commit hc hcommits⟩

/-- Every store of a node has the rows of a history and of its transactions. -/
theorem Machine.Reachable.listing {m : Machine} (h : Machine.Reachable config m) :
    ∃ history, m.store.Listing config history := by
  refine (h.invariant (S := fun s => ∃ history, s.Listing config history)
    (J := Turn.Listing config) ⟨_, Store.listing_empty config⟩ ?_ (fun _ _ ht => ht)
    (fun _ _ ht hmove => ht.move hmove) ?_).1
  · rintro store a env ⟨history, hholds, hl, chainId, ledger, hchain, hrun⟩ hs
    obtain rfl := hchain a.chainId hs.wired.chainId
    exact ⟨hs.wired, history, (Machine.chained_of_started hholds hs hrun).1, hs.store_eq ▸ hl⟩
  · rintro t ⟨hw, history, hc, hl⟩
    refine ⟨history, hc.holds, hl, t.actor.chainId, t.actor.ledger, fun c hchain => ?_, ?_⟩
    · exact Except.ok.inj (hchain.symm.trans hw.chainId)
    · rw [← hw.validatorIds]
      exact hc.replay

theorem Moment.Sound.listing {i : Moment} (h : i.Sound config) :
    ∃ history, i.store.Listing config history := by
  obtain ⟨m, hm, hstore⟩ := h.crash
  rw [← hstore]
  exact hm.listing

/-- From moment to moment the history only grows. -/
theorem Moment.Sound.listing_of_steps {i j : Moment} (h : i.Sound config)
    (hsteps : ReflTransGen (Moment.Step config) i j) (hi : i.store.Listing config history) :
    ∃ more, j.store.Listing config (history ++ more) := by
  obtain ⟨history', hj⟩ := (h.steps hsteps).listing
  obtain ⟨more, rfl⟩ := hi.prefix_of_rows hj (h.rows_of_steps hsteps)
  exact ⟨more, hj⟩

end

end KCoin
