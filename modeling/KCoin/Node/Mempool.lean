import KCoin.Protocol.Supply
import KCoin.Node.Chain

/-!
# The pool of waiting transactions

At every command boundary the pool applies, transaction by transaction, on top of the ledger
(`NodeActor.Pooled`): a transaction is admitted when it is valid after those that wait already, and
what is validated in a state of conserved supply can be applied; and after every block the pool is
made anew of the transactions that still apply. So a submission only fails for its own sake, and a
block of the first waiting transactions can always be built (`pool_applies`).
-/

open Relation EStateM

namespace KCoin

/-! ## Runs of transactions -/

namespace LedgerState

variable [Primitives] {s s' : LedgerState}

theorem applyTransactions_append {ts ts' : List SignedTransaction} {h : UInt64}
    {rs : List TransactionReceipt} : applyTransactions (ts ++ ts') h s = .ok rs s' ↔
      ∃ rs₁ s₁ rs₂, applyTransactions ts h s = .ok rs₁ s₁ ∧
        applyTransactions ts' h s₁ = .ok rs₂ s' ∧ rs = rs₁ ++ rs₂ := by
  induction ts generalizing s rs with
  | nil => simp
  | cons t ts ih =>
      simp only [List.cons_append, applyTransactions_cons_eq_ok, ih]
      constructor
      · rintro ⟨r, s₂, _, hr, ⟨rs₁, s₁, rs₂, h₁, h₂, rfl⟩, rfl⟩
        exact ⟨_, s₁, rs₂, ⟨r, s₂, rs₁, hr, h₁, rfl⟩, h₂, rfl⟩
      · rintro ⟨_, s₁, rs₂, ⟨r, s₂, rs₁, hr, h₁, rfl⟩, h₂, rfl⟩
        exact ⟨r, s₂, _, hr, ⟨rs₁, s₁, rs₂, h₁, h₂, rfl⟩, rfl⟩

/-- A part of a run from its start is a run. -/
theorem applyTransactions_take {ts : List SignedTransaction} {h : UInt64}
    {rs : List TransactionReceipt} (hrun : applyTransactions ts h s = .ok rs s') (n : Nat) :
    ∃ rs₁ s₁, applyTransactions (ts.take n) h s = .ok rs₁ s₁ := by
  rw [← List.take_append_drop n ts] at hrun
  obtain ⟨rs₁, s₁, -, h₁, -⟩ := applyTransactions_append.1 hrun
  exact ⟨rs₁, s₁, h₁⟩

/-- What a history of blocks leads to conserves the supply. -/
theorem applyFinalizedBlocks_conserved {validators : List ValidatorId} {h : BlockHistory}
    (hs : s.Conserved) (hrun : applyFinalizedBlocks validators h s = .ok () s') :
    s'.Conserved := by
  induction h generalizing s with
  | nil =>
      obtain ⟨-, rfl⟩ := EStateM.pure_eq_ok.1 hrun
      exact hs
  | cons p h ih =>
      obtain ⟨rs, s₁, hp, hrest⟩ := EStateM.bind_eq_ok.1 hrun
      exact ih ((applyFinalizedBlock_eq_ok.1 hp).2.conserved hs) hrest

end LedgerState

open LedgerState

/-- The selected transactions apply one after the other. -/
theorem NodeM.applyTransactions_select [Primitives] (s : LedgerState) (h : UInt64)
    (ts : List SignedTransaction) :
    ∃ rs s', applyTransactions (selectTransactions h s ts) h s = .ok rs s' := by
  induction ts generalizing s with
  | nil => exact ⟨[], s, rfl⟩
  | cons t ts ih =>
      unfold selectTransactions
      cases hr : applyTransaction t h s with
      | ok r s₁ =>
          obtain ⟨rs, s', hrest⟩ := ih s₁
          exact ⟨r :: rs, s', applyTransactions_cons_eq_ok.2 ⟨r, s₁, rs, hr, hrest, rfl⟩⟩
      | error e s₁ =>
          obtain rfl := atomic_applyTransaction t h s e s₁ hr
          exact ih s₁

/-! ## The invariant of the pool -/

namespace NodeActor

variable [Primitives] {config : NodeConfig} {a : NodeActor} {history : BlockHistory}

/-- The pool applies to the ledger at the next height, and its identifiers are those of its
transactions. -/
structure Pooled (a : NodeActor) : Prop where
  applies : ∃ rs s, applyTransactions a.mempool (a.ledger.height + 1) a.ledger = .ok rs s
  ids : ∀ id, id ∈ a.mempoolIds ↔ id ∈ a.mempool.map (·.id)

theorem Chained.conserved (h : a.Chained history) : a.ledger.Conserved :=
  applyFinalizedBlocks_conserved (conserved_new _) h.replay

theorem Pooled.accept (h : a.Pooled) (hc : a.Chained history) {t : SignedTransaction}
    (ht : a.Admits t) : Pooled { a with
      mempoolIds := a.mempoolIds.insert t.id
      mempool := a.mempool ++ [t] } where
  applies := by
    obtain ⟨height, rs, candidate, v, hheight, hrun, hv⟩ := ht.valid
    obtain rfl := Option.some.inj (hc.next_height.1.symm.trans hheight)
    have hcandidate : candidate.Conserved := hc.conserved.applyTransactions hrun
    obtain ⟨r, s, hr⟩ := hcandidate.applyTransaction_ok (validateTransaction_eq_ok.1 hv).1
    exact ⟨rs ++ [r], s, applyTransactions_append.2 ⟨rs, candidate, [r], hrun,
      applyTransactions_cons_eq_ok.2 ⟨r, s, [], hr, rfl, rfl⟩, rfl⟩⟩
  ids id := by
    change id ∈ a.mempoolIds.insert t.id ↔ id ∈ (a.mempool ++ [t]).map (·.id)
    rw [Std.ExtTreeSet.mem_insert, h.ids, Std.compare_eq_iff_eq]
    simp only [List.map_append, List.mem_append, List.map_cons, List.map_nil,
      List.mem_singleton]
    rw [or_comm, eq_comm]

/-- Whatever the ledger has become, the pool is made of what still applies. -/
theorem pooled_revalidated (hc : a.Chained history) : a.revalidated.Pooled where
  applies := by
    have hselect := NodeM.applyTransactions_select a.ledger (saturatingAdd a.ledger.height 1) a.mempool
    rw [hc.next_height.2] at hselect
    change ∃ rs s, applyTransactions (NodeM.selectTransactions (saturatingAdd a.ledger.height 1)
      a.ledger a.mempool) (a.ledger.height + 1) a.ledger = .ok rs s
    rw [hc.next_height.2]
    exact hselect
  ids id := by
    change id ∈ Std.ExtTreeSet.ofList _ compare ↔ _
    rw [Std.ExtTreeSet.mem_ofList, List.contains_iff_mem]
    rfl

theorem Pooled.of_same {a' : NodeActor} (h : a.Pooled) (hledger : a'.ledger = a.ledger)
    (hpool : a'.mempool = a.mempool) (hids : a'.mempoolIds = a.mempoolIds) : a'.Pooled where
  applies := by
    rw [hledger, hpool]
    exact h.applies
  ids := by
    rw [hids, hpool]
    exact h.ids

variable [Formats]

theorem Pooled.move {t t' : Turn} (h : t.actor.Pooled) (hc : t.actor.Chained history)
    (hmove : t.Move t') : t'.actor.Pooled := by
  cases hmove with
  | quiet hq =>
      cases hq with
      | accept tx htx => exact h.accept hc htx
      | _ => exact h.of_same rfl rfl rfl
  | commit block certificate receipts candidate store live hcommit =>
      exact pooled_revalidated ((hc.commit hcommit).of_same rfl rfl rfl rfl)
  | work hd hw => cases hw <;> exact h.of_same rfl rfl rfl
  | _ => exact h.of_same rfl rfl rfl

end NodeActor

/-! ## Submissions and blocks -/

section
variable [Primitives] {history : BlockHistory}

omit [Primitives] in
theorem NodeM.total_send {o : Occurrence} : Total (send o) := by
  refine Total.bind (fun _ _ _ => nofun) fun a => ?_
  split
  · exact total_modify _
  · exact total_pure _

omit [Primitives] in
theorem NodeM.orFail_eq_error {ε α : Type} {f : ε → NodeError} {y : Except ε α} {t u : Turn}
    {e : NodeError} (h : orFail f y t = .error e u) : ∃ e', y = .error e' := by
  cases y with
  | ok a => cases h
  | error e' => exact ⟨e', rfl⟩

/-- Why a node refuses a transaction: it is halted or synchronizes, it has the transaction already,
or the transaction is not valid after those that wait. -/
def NodeActor.Refuses (a : NodeActor) (tx : SignedTransaction) : Prop :=
  (a.halted = true ∨ a.syncTarget ≠ none) ∨
    (tx.id ∈ a.mempoolIds ∨ tx.id ∈ a.ledger.appliedTransactions) ∨
    ∃ rs s e, applyTransactions a.mempool (a.ledger.height + 1) a.ledger = .ok rs s ∧
      s.validateTransaction tx (a.ledger.height + 1) = .error e

theorem NodeM.acceptTransaction_fails {t : Turn} (hc : t.actor.Chained history)
    (hp : t.actor.Pooled) (tx : SignedTransaction) (gossip : Bool) :
    Fails (fun _ _ => t.actor.Refuses tx) (acceptTransaction tx gossip) t := by
  change Fails _ (_ >>= _) t
  refine .ensure_bind (fun h => .inl ?_) fun _ => .ensure_bind (fun h => .inr (.inl ?_)) fun _ => ?_
  · rcases not_and_or.1 h with h | h
    · exact .inl (by simpa using h)
    · exact .inr h
  · rcases not_and_or.1 h with h | h
    · exact .inl (not_not.1 h)
    · exact .inr (not_not.1 h)
  · refine .okOr_bind (fun h => nomatch hc.next_height.1.symm.trans h) fun height hheight => ?_
    obtain rfl := Option.some.inj (hc.next_height.1.symm.trans hheight)
    obtain ⟨rs, s, hrun⟩ := hp.applies
    split
    · next e s' herror => exact nomatch hrun.symm.trans herror
    · next rs' candidate hrun' =>
        refine .bind (fun e u he => ?_) fun v u _ => .of_total ?_
        · obtain ⟨e', hv⟩ := orFail_eq_error he
          exact .inr (.inr ⟨rs', candidate, e', hrun', hv⟩)
        · refine (total_modify _).bind fun _ => ?_
          split
          · exact total_send.bind fun _ => total_pure _
          · exact total_pure _

/-- A block of the first waiting transactions can be built. -/
theorem NodeActor.Pooled.buildBlock {a : NodeActor} (hp : a.Pooled) (hc : a.Chained history)
    (proposer : ValidatorId) (round : UInt32) (timestampMs : UInt64) (n : Nat) :
    ∃ block, a.ledger.buildBlock proposer round timestampMs (a.mempool.take n) = .ok block := by
  obtain ⟨rs, s, hrun⟩ := hp.applies
  obtain ⟨rs', s', hrun'⟩ := applyTransactions_take hrun n
  simp only [LedgerState.buildBlock, hc.next_height.1, okOr, pure_bind, hrun']
  exact ⟨_, rfl⟩

end

/-! ## Every run -/

section
variable [Primitives] [Formats] {config : NodeConfig} {m : Machine} {a : NodeActor}

theorem Machine.Reachable.pooled (h : Machine.Reachable config m) (ha : m.actor = some a) :
    (∃ history, a.Chained history) ∧ a.Pooled := by
  refine h.with_history ha (fun store a hs => ⟨?_, fun id => ?_⟩) fun t t' history hc hp hmove =>
    hp.move hc hmove
  · rw [hs.mempool.1]
    exact ⟨[], _, rfl⟩
  · rw [hs.mempool.1, hs.mempool.2]
    simp

/-- At every command boundary of every run the pool applies, in its order, to the ledger at the next
height; its identifiers are exactly those of its transactions, each once, and none is applied
already. So a submission is only refused for its own sake, and no waiting transaction keeps a block
from being built. -/
theorem pool_applies (h : Machine.Reachable config m) (ha : m.actor = some a) :
    (∃ height rs s, checkedAdd a.ledger.height 1 = some height ∧
      applyTransactions a.mempool height a.ledger = .ok rs s) ∧
    (∀ id, id ∈ a.mempoolIds ↔ id ∈ a.mempool.map (·.id)) ∧ (a.mempool.map (·.id)).Nodup ∧
    (∀ id ∈ a.mempoolIds, id ∉ a.ledger.appliedTransactions) ∧
    (∀ t tx gossip e u, t.actor = a → NodeM.acceptTransaction tx gossip t = .error e u →
      a.Refuses tx) ∧
    ∀ proposer round timestampMs, ∃ block,
      a.ledger.buildBlock proposer round timestampMs (a.mempool.take 1000) = .ok block := by
  obtain ⟨⟨history, hc⟩, hp⟩ := h.pooled ha
  obtain ⟨rs, s, hrun⟩ := hp.applies
  obtain ⟨hnodup, hfresh⟩ := applyTransactions_fresh hrun
  refine ⟨⟨_, rs, s, hc.next_height.1, hrun⟩, hp.ids, hnodup, fun id hid => hfresh id ((hp.ids id).1 hid), ?_, ?_⟩
  · rintro t tx gossip e u rfl he
    exact NodeM.acceptTransaction_fails hc hp tx gossip e u he
  · exact fun proposer round timestampMs => hp.buildBlock hc proposer round timestampMs 1000

end

open scoped Sample in
/-- A transfer waits behind the claim that it spends. -/
theorem pool_applies_claim_transfer :
    let claim := Sample.transaction 1 0 (.claimReward 0 (Challenge.forId 0).answer)
    let transfer := Sample.transaction 1 1 (.transfer ⟨Bytes.fill 20 7⟩ 5)
    ∃ m a, Machine.play Sample.standalone Sample.environment
        [.submit claim true, .submit transfer true] = some m ∧ m.actor = some a ∧
      a.mempool = [claim, transfer] ∧
      ∃ height rs s, checkedAdd a.ledger.height 1 = some height ∧
        applyTransactions a.mempool height a.ledger = .ok rs s := by
  intro claim transfer
  have hrun : ((Machine.play Sample.standalone Sample.environment
      [.submit claim true, .submit transfer true]).bind (·.actor)).map (·.mempool) =
      some [claim, transfer] := by decide +kernel
  obtain ⟨a, ha, hpool⟩ := Option.map_eq_some_iff.1 hrun
  obtain ⟨m, hm, ha⟩ := Option.bind_eq_some_iff.1 ha
  exact ⟨m, a, hm, ha, hpool, (pool_applies (Machine.play_reachable hm) ha).1⟩

end KCoin
