import KCoin.Node.Syncing
import KCoin.Node.Chain

/-!
# Halting

A node that is shown a certified block other than the one it has finalized at that height halts, and
nothing but the end of the process changes that: a halted node takes only steps of `Turn.Rest`, and of
these only such as change neither its ledger nor its store (`Turn.Frozen`).
-/

open Relation EStateM

namespace KCoin

section
variable [Primitives] [Formats]

namespace Turn

variable {t t' u : Turn}

omit [Primitives] [Formats] in
/-- The turn is that of a halted node, with the same ledger, store, pool and engine, and what left the
node since are neither commits nor consensus messages. -/
structure Frozen (t t' : Turn) : Prop where
  halted : t'.actor.halted = true
  ledger : t'.actor.ledger = t.actor.ledger
  store : t'.actor.store = t.actor.store
  mempool : t'.actor.mempool = t.actor.mempool ∧ t'.actor.mempoolIds = t.actor.mempoolIds
  consensus : t'.actor.consensus = t.actor.consensus
  current : t.actor.syncTarget = none → t'.actor.syncTarget = none
  idle : t.actor.syncTarget = none → t.actor.syncRequestId = none → t'.actor.syncRequestId = none
  trace : ∃ os, (∀ o ∈ os, o.Other) ∧ t'.trace = t.trace ++ os

omit [Primitives] [Formats] in
theorem Frozen.refl (h : t.actor.halted = true) : t.Frozen t :=
  ⟨h, rfl, rfl, ⟨rfl, rfl⟩, rfl, id, fun _ => id, [], by simp, (List.append_nil _).symm⟩

omit [Primitives] [Formats] in
theorem Frozen.trans {v : Turn} (h : t.Frozen u) (h' : u.Frozen v) : t.Frozen v where
  halted := h'.halted
  ledger := h'.ledger.trans h.ledger
  store := h'.store.trans h.store
  mempool := ⟨h'.mempool.1.trans h.mempool.1, h'.mempool.2.trans h.mempool.2⟩
  consensus := h'.consensus.trans h.consensus
  current hnone := h'.current (h.current hnone)
  idle hnone hidle := h'.idle (h.current hnone) (h.idle hnone hidle)
  trace := by
    obtain ⟨os, hos, htrace⟩ := h.trace
    obtain ⟨os', hos', htrace'⟩ := h'.trace
    refine ⟨os ++ os', fun o ho => (List.mem_append.1 ho).elim (hos o) (hos' o), ?_⟩
    rw [htrace', htrace, List.append_assoc]

omit [Formats] in
theorem Quiet.frozen (h : t.Quiet t') (hhalted : t.actor.halted = true) : t.Frozen t' := by
  have hs := h.sameCore
  have hstays : t'.actor.halted = true := NodeM.halted_of_quiet (.single h) hhalted
  refine ⟨hstays, hs.ledger, hs.store, ?_, hs.consensus, ?_, ?_, h.trace⟩
  · cases h with
    | accept tx h => exact nomatch hhalted.symm.trans h.live.1
    | _ => exact ⟨rfl, rfl⟩
  · intro hnone
    cases h with
    | fallBehind record hlive => exact nomatch hhalted.symm.trans hlive
    | caughtUp => rfl
    | halt => rfl
    | _ => exact hnone
  · intro hnone hidle
    cases h with
    | request peer id deadline h =>
        rw [hnone] at h
        cases h
    | fallBehind record hlive => exact nomatch hhalted.symm.trans hlive
    | say | meet | clock | accept => exact hidle
    | _ => rfl

/-- A step of a halted node that takes no part in consensus changes nothing of what counts. -/
theorem Rest.frozen (h : t.Rest t') (hhalted : t.actor.halted = true) : t.Frozen t' := by
  cases h with
  | quiet h => exact h.frozen hhalted
  | commit block certificate receipts candidate store live h =>
      exact nomatch hhalted.symm.trans live
  | clear live => exact nomatch hhalted.symm.trans live
  | renew key validators consensus live => exact nomatch hhalted.symm.trans live

theorem Frozen.of_rest (h : ReflTransGen Rest t u) (hhalted : t.actor.halted = true) :
    t.Frozen u := by
  induction h with
  | refl => exact .refl hhalted
  | tail _ hstep ih => exact ih.trans (hstep.frozen ih.halted)

end Turn

namespace NodeActor

/-- The actor after some commands, each in an environment of its own. -/
def afterCommands (a : NodeActor) (commands : List (Environment × Command)) : NodeActor :=
  commands.foldl (fun a p => (NodeM.handleCommand p.2 (Turn.begin p.1 a)).state.actor) a

variable {a : NodeActor}

theorem frozen_handleCommand (h : a.halted = true) (env : Environment) (c : Command) :
    (Turn.begin env a).Frozen (NodeM.handleCommand c (Turn.begin env a)).state :=
  .of_rest (NodeM.rest_handleCommand (t := Turn.begin env a) (.inr h) c) h

/-- What happens to a halted node with one command happens to it with any number. -/
theorem frozen_afterCommands (h : a.halted = true) (env : Environment)
    (commands : List (Environment × Command)) :
    (Turn.begin env a).Frozen (Turn.begin env (a.afterCommands commands)) := by
  induction commands generalizing a with
  | nil => exact .refl h
  | cons p commands ih =>
      have hfirst := frozen_handleCommand h p.1 p.2
      have hrest := ih hfirst.halted
      exact ⟨hrest.halted, hrest.ledger.trans hfirst.ledger, hrest.store.trans hfirst.store,
        ⟨hrest.mempool.1.trans hfirst.mempool.1, hrest.mempool.2.trans hfirst.mempool.2⟩,
        hrest.consensus.trans hfirst.consensus, fun hnone => hrest.current (hfirst.current hnone),
        fun hnone hidle => hrest.idle (hfirst.current hnone) (hfirst.idle hnone hidle), hrest.trace⟩

end NodeActor

/-! ## A conflict -/

namespace NodeM

variable {t : Turn}

omit [Formats] in
/-- A block of a finalized height that is not the finalized one halts the node. -/
theorem compareFinalized_conflict {block canonical : Block} {row : BlockRow}
    (hstorage : t.env.storage t.asked = true)
    (hrow : t.actor.store.blockByHeight block.header.height = .ok (some row))
    (hdecode : Block.decode row.blockBytes = .ok canonical) (hne : block.hash ≠ canonical.hash) :
    (compareFinalized block t).state =
      (enterHaltedState { t with asked := t.asked + 1 }).state := by
  let u : Turn := { t with asked := t.asked + 1 }
  have hread : readStore (·.blockByHeight block.header.height) t = .ok (some row) u :=
    readStore_of_ok hstorage hrow
  have hrun : compareFinalized block t =
      (if block.hash = canonical.hash then return ()
        else do enterHaltedState; throw (.message "conflicting certified block") : NodeM Unit) u := by
    exact (bind_of_ok hread).trans ((okOr_bind rfl).trans (orFail_bind hdecode))
  rw [hrun, if_neg hne]
  rfl

end NodeM

/-! ## Every run -/

/-- A halted node neither catches up nor waits for blocks. -/
def Turn.Stopped (t : Turn) : Prop :=
  t.actor.halted = true → t.actor.syncTarget = none ∧ t.actor.syncRequestId = none

theorem Turn.Stopped.move {t t' : Turn} (h : t.Stopped) (hmove : t.Move t') : t'.Stopped := by
  intro hhalted
  cases hmove with
  | quiet hq =>
      cases hq with
      | request peer id deadline hsome =>
          rw [(h hhalted).1] at hsome
          cases hsome
      | fallBehind record hlive => exact nomatch hlive.symm.trans hhalted
      | rotate | answered => exact ⟨(h hhalted).1, rfl⟩
      | caughtUp | halt => exact ⟨rfl, rfl⟩
      | _ => exact h hhalted
  | work hd hw => cases hw <;> exact h hhalted
  | _ => exact h hhalted

namespace Machine

theorem Reachable.stopped {config : NodeConfig} {m : Machine} (h : Reachable config m)
    {a : NodeActor} (ha : m.actor = some a) (env : Environment) : (Turn.begin env a).Stopped := by
  have hinv := h.invariant (S := fun _ => True) (J := Turn.Stopped) trivial ?_
    (fun _ _ h => h) (fun _ _ h hmove => h.move hmove) fun _ _ => trivial
  · exact (hinv.2 a ha).2 env
  · intro store a env _ hs hhalted
    exact nomatch hhalted.symm.trans hs.live

/-- A certified block of the node's chain with valid contents, of a height that is finalized with
another block, halts the node and changes neither its ledger nor its store. From then on, whatever
commands come, the node stays halted with the same ledger, store, pool and engine, sends no consensus
message, and does not begin to catch up. In a run, every finalized height has its block, and a halted
node is not catching up. -/
theorem conflicting_finality_halts (env : Environment) (a : NodeActor) :
    (∀ record source row canonical, a.Accepts record →
      record.block.header.height ≤ a.ledger.height → env.storage 0 = true →
      a.store.blockByHeight record.block.header.height = .ok (some row) →
      Block.decode row.blockBytes = .ok canonical → record.block.hash ≠ canonical.hash →
      let u := (NodeM.importFinalized record source (Turn.begin env a)).state
      u.actor.halted = true ∧ u.actor.ledger = a.ledger ∧ u.actor.store = a.store) ∧
    (a.halted = true → ∀ commands c, (Turn.begin env a).Frozen
      (NodeM.handleCommand c (Turn.begin env (a.afterCommands commands))).state) ∧
    ∀ config m, Reachable config m → m.actor = some a →
      (∀ k : UInt64, 1 ≤ k.toNat → k.toNat ≤ a.ledger.height.toNat → ∃ row canonical,
        a.store.blockByHeight k = .ok (some row) ∧ Block.decode row.blockBytes = .ok canonical ∧
          canonical.header.height = k) ∧
      (a.halted = true → a.syncTarget = none ∧ a.syncRequestId = none) := by
  refine ⟨?_, fun h commands c => ?_, fun config m hm ha => ⟨fun k hpos hle => ?_, ?_⟩⟩
  · intro record source row canonical haccepts hheight hstorage hrow hdecode hne
    cases hhalted : a.halted with
    | true =>
        have hnot : ¬(Turn.begin env a).actor.halted = false := fun hlive =>
          nomatch hlive.symm.trans hhalted
        have hrefused : NodeM.importFinalized record source (Turn.begin env a) =
            .error (.message "halted node refuses finalized-state mutation") (Turn.begin env a) :=
          bind_eq_error.2 (.inr ⟨a, _, rfl, bind_eq_error.2 (.inl (ensure_eq_error.2
            ⟨hnot, rfl, rfl⟩))⟩)
        rw [hrefused]
        exact ⟨hhalted, rfl, rfl⟩
    | false =>
        dsimp only
        rw [(NodeM.importFinalized_accepts source hhalted haccepts).1 hheight,
          NodeM.compareFinalized_conflict hstorage hrow hdecode hne]
        exact ⟨rfl, rfl, rfl⟩
  · have hbefore := NodeActor.frozen_afterCommands h env commands
    exact hbefore.trans (NodeActor.frozen_handleCommand hbefore.halted env c)
  · obtain ⟨-, hrec⟩ := hm.begins (.inl ha) env
    obtain ⟨-, history, hc⟩ := hrec
    obtain ⟨p, hp, hheight, hrow⟩ := hc.blockByHeight hpos hle
    exact ⟨_, p.1, hrow, (LedgerState.applyFinalizedBlocks_decodable hc.replay hp).1, hheight⟩
  · exact hm.stopped ha env

end Machine

end

open scoped Sample

/-- A certified first block with the header of an empty one and a transaction in it. -/
def Sample.filled (timestampMs : UInt64) : FinalizedWireRecord :=
  let proposer := ValidatorId.fromSigningKey
    ⟨Primitives.blake3 "kcoin.dev/v1/local-validator-key" [1]⟩
  let header := (Block.new Sample.chainId 1 Hash32.zero proposer 0 timestampMs Hash32.zero []).header
  let block : Block := ⟨header, [Sample.transaction 1 0 (.setDisplayName none)]⟩
  let vote := CommitVote.new Sample.chainId 1 0 block.consensusHash
  let signatures := (deterministicDevValidatorKeys.take 3).map fun key =>
    (⟨ValidatorId.fromSigningKey key, Primitives.sign key vote.signingBytes⟩ : CommitSignature)
  ⟨block, CommitCertificate.new vote signatures⟩

/-- The node does not halt for a certificate of another block when the contents that came with it are
not those of the block. -/
theorem Machine.conflicting_finality_unhalted : ∃ m a row canonical,
    play Sample.standalone Sample.environment [.tick] = some m ∧ m.actor = some a ∧
      let record := Sample.filled 7
      record.block.header.chainId = a.chainId ∧ record.certificate.chainId = a.chainId ∧
      1 ≤ record.block.header.height ∧ record.block.header.height ≤ a.ledger.height ∧
      record.certificate.verifyForBlock record.block a.validatorIds = .ok () ∧
      a.store.blockByHeight record.block.header.height = .ok (some row) ∧
      Block.decode row.blockBytes = .ok canonical ∧ record.block.hash ≠ canonical.hash ∧
      (NodeM.importFinalized record none (Turn.begin Sample.environment a)).state.actor.halted =
        false := by
  have hrun : (play Sample.standalone Sample.environment [.tick]).any (fun m =>
      m.actor.any fun a => (a.store.blockByHeight 1).toOption.join.any fun row =>
        (Block.decode row.blockBytes).toOption.any fun canonical =>
          let record := Sample.filled 7
          record.block.header.chainId = a.chainId ∧ record.certificate.chainId = a.chainId ∧
          1 ≤ record.block.header.height ∧ record.block.header.height ≤ a.ledger.height ∧
          record.certificate.verifyForBlock record.block a.validatorIds = .ok () ∧
          record.block.hash ≠ canonical.hash ∧
          (NodeM.importFinalized record none
            (Turn.begin Sample.environment a)).state.actor.halted = false) = true := by
    decide +kernel
  obtain ⟨m, hm, hrun⟩ := (Option.any_eq_true _ _).1 hrun
  obtain ⟨a, ha, hrun⟩ := (Option.any_eq_true _ _).1 hrun
  obtain ⟨row, hrow, hrun⟩ := (Option.any_eq_true _ _).1 hrun
  obtain ⟨canonical, hcanonical, hrun⟩ := (Option.any_eq_true _ _).1 hrun
  obtain ⟨hchain, hchain', hpos, hle, hcertificate, hne, hlive⟩ := of_decide_eq_true hrun
  have hrow := Except.toOption_eq_some.1 (Option.join_eq_some_iff.1 hrow)
  exact ⟨m, a, row, canonical, hm, ha, hchain, hchain', hpos, hle, hcertificate, hrow,
    Except.toOption_eq_some.1 hcanonical, hne, hlive⟩

end KCoin
