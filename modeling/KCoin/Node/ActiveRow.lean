import KCoin.Node.Equivocation
import KCoin.Node.Listing
import KCoin.Node.Reindex

/-!
# The active safety row over a node's life

At every moment of a node the active safety row is one of the next height, with the safety state of
the decision that was stored last. The commit of a block clears the row of its height and no other, in
the transaction that stores the block; a repair commits the stored blocks again, and none of them is of
the height of the active row.
-/

open Relation EStateM

namespace KCoin

/-! ## What a commit clears -/

namespace Store

/-- The safety row is cleared if it is of the height, and nothing else of the signer is changed. -/
structure Clears (height : UInt64) (s s' : Store) : Prop where
  safety : ∀ height' bytes, s'.consensusSafety = some (height', bytes) ↔
    s.consensusSafety = some (height', bytes) ∧ height' ≠ height
  signer : s'.signerState = s.signerState

variable {s s' : Store} {p : FinalizedProjection}

theorem clears_of_persistFinalized (h : s.persistFinalized p = .ok s') : s.Clears p.height s' := by
  obtain ⟨hsafety, hsigner⟩ := persistFinalized_safety h
  refine ⟨fun height bytes => ?_, hsigner⟩
  rw [hsafety, Option.filter_eq_some_iff, decide_eq_true_iff]

/-- The only row that the commit of a block can add is that of the block. -/
theorem height_of_persistFinalized {height : UInt64} (h : s.persistFinalized p = .ok s')
    (hnew : height ∉ s.blocks) (hrow : height ∈ s'.blocks) : height = p.height := by
  obtain ⟨-, hblocks, -⟩ := persistFinalized_eq_ok h
  unfold insertBlock at hblocks
  split at hblocks
  · obtain ⟨_, -, hblocks⟩ := Except.bind_eq_ok.1 hblocks
    rw [← Except.pure_eq_ok.1 hblocks] at hrow
    exact absurd hrow hnew
  · obtain ⟨_, -, hblocks⟩ := Except.bind_eq_ok.1 hblocks
    obtain ⟨_, -, hblocks⟩ := Except.bind_eq_ok.1 hblocks
    obtain ⟨_, -, hblocks⟩ := Except.bind_eq_ok.1 hblocks
    rw [← Except.pure_eq_ok.1 hblocks, Std.ExtTreeMap.mem_insert] at hrow
    rcases hrow with heq | hrow
    · exact (Std.compare_eq_iff_eq.1 heq).symm
    · exact absurd hrow hnew

/-- The transactions of a repair of a store with `n` blocks, and the height of the block that a
transaction commits. -/
inductive Repairs (n : Nat) (u : Store) : Option UInt64 → Store → Prop
  | clear : Repairs n u none u.clearProjections
  | refresh (p : FinalizedProjection) (v : Store) (h : u.refreshBlockProjection p = .ok v) :
      Repairs n u none v
  | commit (p : FinalizedProjection) (v : Store) (hle : p.height.toNat ≤ n)
      (h : u.persistFinalized p = .ok v) : Repairs n u (some p.height) v

variable {n : Nat} {u v : Store} {committed : Option UInt64}

theorem refreshBlockProjection_safety (h : u.refreshBlockProjection p = .ok v) :
    v.consensusSafety = u.consensusSafety ∧ v.signerState = u.signerState := by
  obtain ⟨_, -, h⟩ := Except.bind_eq_ok.1 h
  obtain ⟨_, -, h⟩ := Except.bind_eq_ok.1 h
  obtain ⟨_, -, h⟩ := Except.bind_eq_ok.1 h
  split at h
  · obtain ⟨_, -, h⟩ := Except.bind_eq_ok.1 h
    obtain ⟨_, -, h⟩ := Except.bind_eq_ok.1 h
    obtain rfl := Except.pure_eq_ok.1 h
    exact ⟨rfl, rfl⟩
  · cases h

/-- A transaction of a repair clears the row of the height it commits, if it commits a block. -/
theorem Repairs.clears (h : Repairs n u committed v) :
    (committed = none → v.consensusSafety = u.consensusSafety ∧ v.signerState = u.signerState) ∧
      ∀ height ∈ committed, u.Clears height v := by
  cases h with
  | clear => exact ⟨fun _ => ⟨rfl, rfl⟩, fun _ h => absurd h (Option.not_mem_none _)⟩
  | refresh p v h =>
      exact ⟨fun _ => refreshBlockProjection_safety h, fun _ h => absurd h (Option.not_mem_none _)⟩
  | commit p v hle h =>
      refine ⟨fun hnone => absurd hnone (Option.some_ne_none _), fun height hheight => ?_⟩
      obtain rfl := Option.mem_some_iff.1 hheight
      exact clears_of_persistFinalized h

/-- A safety row above the stored heights outlasts a repair. -/
theorem Repairs.keeps (hpath : ReflTransGen (fun u v => ∃ committed, Repairs n u committed v) u v)
    (habove : ∀ height bytes, u.consensusSafety = some (height, bytes) → n < height.toNat) :
    v.consensusSafety = u.consensusSafety ∧ v.signerState = u.signerState := by
  induction hpath with
  | refl => exact ⟨rfl, rfl⟩
  | tail _ hlast ih =>
      obtain ⟨hsafety, hsigner⟩ := ih
      obtain ⟨committed, hlast⟩ := hlast
      rw [← hsafety, ← hsigner]
      cases hlast with
      | clear => exact ⟨rfl, rfl⟩
      | refresh p v h => exact refreshBlockProjection_safety h
      | commit p v hle h =>
          obtain ⟨hcleared, hkept⟩ := persistFinalized_safety h
          refine ⟨hcleared.trans (Option.filter_eq_self_iff.2 fun row hrow => ?_), hkept⟩
          rw [hsafety] at hrow
          have hlt := habove row.1 row.2 hrow
          refine decide_eq_true fun heq => ?_
          rw [heq] at hlt
          omega

end Store

section
variable [Primitives] [Formats]

/-! ## The transactions of a repair -/

namespace ReindexM

open Store

variable {n : Nat} {s : Store}

omit [Primitives] [Formats] in
theorem reaches_commit {R : Store → Store → Prop} {f : Store → Except StorageError Store}
    (h : ∀ s', f s = .ok s' → R s s') : Reaches R (commit f) s := by
  refine Reaches.get_bind (Reaches.lift_bind fun s' hs' => ?_)
  exact ReflTransGen.single (h s' (Except.mapError_eq_ok.1 hs'))

/-- The rows of the blocks that follow a ledger are repaired one after the other. -/
theorem reaches_reindexRows {rows : List BlockRow} {ledger : LedgerState}
    (hle : ledger.height.toNat + rows.length ≤ n) :
    Reaches (fun u v => ∃ committed, Repairs n u committed v) (reindexRows rows ledger) s := by
  induction rows generalizing ledger s with
  | nil => exact .pure _
  | cons row rows ih =>
      refine Reaches.lift_bind fun block _ => Reaches.lift_bind fun certificate _ => ?_
      split
      · exact .of_readOnly (readOnly_throw _)
      · next receipts candidate hledger =>
          obtain ⟨-, hb⟩ := LedgerState.applyFinalizedBlock_eq_ok.1 hledger
          obtain ⟨c, -, rfl⟩ := hb.executed
          refine Reaches.get_bind (Reaches.lift_bind fun projection hprojection => ?_)
          obtain ⟨issuedAt, -, hprojection⟩ := Except.bind_eq_ok.1 hprojection
          have hheight : projection.height = block.header.height := by
            rw [← Except.pure_eq_ok.1 hprojection]
            rfl
          rw [List.length_cons] at hle
          have hbound : projection.height.toNat ≤ n := by
            rw [hheight, hb.height]
            omega
          refine (reaches_commit fun v hv => ⟨none, .refresh _ v hv⟩).bind fun _ u _ => ?_
          refine (reaches_commit fun v hv => ⟨_, .commit _ v hbound hv⟩).bind fun _ v _ => ?_
          refine ih ?_
          have hnext : (c.finish block).height.toNat = ledger.height.toNat + 1 := hb.height
          omega

/-- A repair runs its transactions on the blocks that are stored. -/
theorem reaches_reindexStore (chainId : ChainId) : Reaches
    (fun u v => ∃ committed, Repairs s.canonicalBlockRows.length u committed v)
    (reindexStore chainId) s := by
  refine Reaches.get_bind (Reaches.lift_bind fun _ _ => ?_)
  refine Reaches.modify_bind (.single ⟨none, .clear⟩) ?_
  refine (reaches_reindexRows ?_).bind fun ledger v _ => ?_
  · rw [show (LedgerState.new chainId).height.toNat = 0 from rfl, Nat.zero_add]
  · exact Reaches.get_bind (.of_readOnly (readOnly_lift _))

end ReindexM

/-! ## Every moment -/

variable {config : NodeConfig} {m : Machine} {i j : Moment}

/-- Whatever a store is left with has an active row at most. -/
theorem Machine.Reachable.active (h : Machine.Reachable config m) : m.store.Active := by
  refine (Reachable.covered (S := Store.Active) (J := Turn.InStep config)
    (Store.active_of_none rfl) covers_inStep (fun t => NodeM.produceStandalone_inStep)
    (fun m network peers time a env hm hactive ha => ?_) (fun t env ht => ?_)
    (fun t ht => ⟨ht.secured.active, ht.secured.past⟩) h).1
  · obtain ⟨hstore, hrecorded⟩ := hm.begins (.inr ⟨network, peers, time, ha⟩) env
    refine ⟨⟨hrecorded, ?_, fun s hs => absurd hs List.not_mem_nil⟩, startNode_inStep ha⟩
    change a.store.Active
    rw [hstore]
    exact hactive
  · exact ⟨ht.secured.of_same rfl rfl rfl rfl rfl rfl fun s hs => absurd hs List.not_mem_nil,
      ht.engine⟩

namespace Moment

theorem Sound.active (h : Sound config i) : i.store.Active := by
  obtain ⟨m, hm, hstore⟩ := h.crash
  rw [← hstore]
  exact hm.active

/-- A block that comes into the store from one moment to the next clears the row of its height. -/
theorem Sound.clears (h : Sound config i) (hstep : Step config i j) {height : UInt64}
    (hnew : height ∉ i.store.blocks) (hrow : height ∈ j.store.blocks) :
    i.store.Clears height j.store := by
  rcases h.store_step hstep with hsame | ⟨u, v, hu, hmove, htu, htv⟩
  · rw [hsame] at hrow
    exact absurd hrow hnew
  · rw [← htu] at hnew ⊢
    rw [← htv] at hrow ⊢
    rcases hmove.tables with ⟨-, htables⟩ | ⟨block, certificate, receipts, candidate, store, hc, rfl⟩
    · rw [htables.blocks] at hrow
      exact absurd hrow hnew
    · obtain ⟨_, _, projection, -, -, hstore⟩ := hc.store
      rw [Store.height_of_persistFinalized hstore hnew hrow]
      exact Store.clears_of_persistFinalized hstore

/-- The active row is of a height that is not stored. -/
theorem Sound.active_above (h : Sound config i) {height : UInt64} {bytes : List UInt8}
    (hsafety : i.store.consensusSafety = some (height, bytes)) :
    i.store.canonicalBlockRows.length < height.toNat := by
  obtain ⟨history, hlisting⟩ := h.listing
  obtain ⟨rfl, -⟩ := h.active height bytes hsafety
  have hheights : i.store.canonicalBlockRows.map (·.height.toNat) =
      List.range' 1 history.length := by
    rw [hlisting.holds.rows, List.map_map]
    exact hlisting.heights
  have htip := Store.toNat_tip hheights
  have hlt : history.length < 2 ^ 63 := hlisting.length_lt
  rw [hlisting.holds.rows, List.length_map]
  unfold Store.nextHeight
  rw [UInt64.toNat_add, htip]
  change history.length < (history.length + 1) % 2 ^ 64
  omega

/-- At every moment of a node the active safety row, if there is one, is of the height after the last
finalized one, and its safety state is that of the decision that was stored last, which is of that
height. A block that comes into the store clears the row of its height and no other, and so does a
block that a repair commits again; the repair of the store of a moment leaves the active row as it is. -/
theorem active_safety_row (h : Reachable config i) :
    i.store.Active ∧
    (∀ j height, Step config i j → height ∉ i.store.blocks → height ∈ j.store.blocks →
      i.store.Clears height j.store) ∧
    (∀ chainId s, Reaches
      (fun u v => ∃ committed, Store.Repairs s.canonicalBlockRows.length u committed v ∧
        (committed = none → v.consensusSafety = u.consensusSafety ∧ v.signerState = u.signerState) ∧
        ∀ height ∈ committed, u.Clears height v)
      (ReindexM.reindexStore chainId) s) ∧
    ∀ chainId s', (ReindexM.reindexStore chainId i.store).state = s' →
      s'.consensusSafety = i.store.consensusSafety ∧ s'.signerState = i.store.signerState := by
  have hs := h.sound
  refine ⟨hs.active, fun j height hstep => hs.clears hstep, fun chainId s => ?_,
    fun chainId s' hs' => ?_⟩
  · refine ReflTransGen.mono (fun u v hrepair => ?_) _ _ (ReindexM.reaches_reindexStore chainId)
    obtain ⟨committed, hrepair⟩ := hrepair
    exact ⟨committed, hrepair, hrepair.clears⟩
  · rw [← hs']
    exact Store.Repairs.keeps (ReindexM.reaches_reindexStore chainId)
      fun height bytes => hs.active_above

end Moment

end

open scoped Sample in
/-- A validator votes for the block that it is proposed, and its row is one of height 1. -/
theorem Moment.active_safety_row_vote : ∃ a first m bytes,
    startNode Sample.validatorNode .empty false ∅ 0 = .ok a ∧
    Sample.proposalAt a 5 = some first ∧
    Machine.play Sample.validatorNode Sample.environment
      [.consensusMessage (.proposal first.1 first.2)] = some m ∧
    m.store.consensusSafety = some (1, bytes) ∧
    ∃ row, m.store.signerState.getLast? = some row ∧ row.safetyState = bytes ∧
      Store.slotHeight row.slot = some 1 := by
  have hrun : (startNode Sample.validatorNode .empty false ∅ 0).toOption.any fun a =>
      (Sample.proposalAt a 5).any fun first =>
      (Machine.play Sample.validatorNode Sample.environment
        [.consensusMessage (.proposal first.1 first.2)]).any fun m =>
      m.store.consensusSafety.any fun safety => decide (safety.1 = 1) := by
    decide +kernel
  obtain ⟨a, ha, hrun⟩ := (Option.any_eq_true ..).1 hrun
  obtain ⟨first, hfirst, hrun⟩ := (Option.any_eq_true ..).1 hrun
  obtain ⟨m, hm, hrun⟩ := (Option.any_eq_true ..).1 hrun
  obtain ⟨⟨height, bytes⟩, hsafety, hheight⟩ := (Option.any_eq_true ..).1 hrun
  obtain rfl : height = 1 := of_decide_eq_true hheight
  have hreachable : Moment.Reachable Sample.validatorNode (.between m) :=
    Moment.steps_of_machine (Machine.play_reachable hm)
  obtain ⟨-, hrow⟩ := (Moment.active_safety_row hreachable).1 1 bytes hsafety
  exact ⟨a, first, m, bytes, Except.toOption_eq_some.1 ha, hfirst, hm, hsafety, hrow⟩

end KCoin
