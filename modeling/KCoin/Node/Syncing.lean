import KCoin.Node.Machine

/-!
# Synchronization and voting

A node sets or raises the height it has to reach only for a record that came with the command and
passed every check (`Turn.Follows`), and while it has such a height, or is halted, it takes no part
in consensus: a command that finds it so takes only the steps of `Turn.Rest`.
-/

open Relation EStateM Borsh

namespace KCoin

section
variable [Primitives]

namespace Turn

omit [Primitives] in
/-- The target stays. -/
def SameTarget (t t' : Turn) : Prop := t'.actor.syncTarget = t.actor.syncTarget

omit [Primitives] in
/-- The target stays, or is given up, or is the height of one of some records. -/
def Follows (P : FinalizedWireRecord → Prop) (t t' : Turn) : Prop :=
  t'.actor.syncTarget = t.actor.syncTarget ∨ t'.actor.syncTarget = none ∨
    ∃ record, P record ∧ t'.actor.syncTarget = some record.block.header.height

omit [Primitives] in
theorem Follows.trans {P : FinalizedWireRecord → Prop} {t u v : Turn} (h : t.Follows P u)
    (h' : u.Follows P v) : t.Follows P v := by
  rcases h' with heq | hnone | hraised
  · unfold Follows
    rw [heq]
    exact h
  · exact .inr (.inl hnone)
  · exact .inr (.inr hraised)

omit [Primitives] in
theorem Follows.of_path {P : FinalizedWireRecord → Prop} {t u : Turn}
    (h : ReflTransGen (Follows P) t u) : t.Follows P u := by
  induction h with
  | refl => exact .inl rfl
  | tail _ hlast ih => exact ih.trans hlast

end Turn

omit [Primitives] in
/-- A node that falls behind a height has to reach it, unless it is to reach a higher one already.
-/
theorem raised_target (target : Option UInt64) (height : UInt64) :
    some (target.elim height (max · height)) = target ∨
      some (target.elim height (max · height)) = some height := by
  cases target with
  | none => exact .inr rfl
  | some known =>
      change some (if known ≤ height then height else known) = _ ∨
        some (if known ≤ height then height else known) = _
      split
      · exact .inr rfl
      · exact .inl rfl

namespace NodeM

variable {α β : Type} {t : Turn} {x : NodeM α} {P : FinalizedWireRecord → Prop}

/-! ## What leaves the target as it is -/

omit [Primitives] in
theorem sameTarget_of_reaches (h : Reaches Turn.SameTarget x t) :
    (x t).state.actor.syncTarget = t.actor.syncTarget := by
  have hpath : ∀ {u}, ReflTransGen Turn.SameTarget t u →
      u.actor.syncTarget = t.actor.syncTarget := by
    intro u hu
    induction hu with
    | refl => rfl
    | tail _ hlast ih => exact Eq.trans hlast ih
  exact hpath h

omit [Primitives] in
theorem Reading.same (h : Reading x) (t : Turn) : Reaches Turn.SameTarget x t := by
  obtain ⟨asked, os, -, ht⟩ := h t
  rw [Reaches, ht]
  exact .single rfl

omit [Primitives] in
theorem same_requestSyncBlocks (peer : PeerId) :
    Reaches Turn.SameTarget (requestSyncBlocks peer) t := by
  refine reaches_actor_bind <| .ensure_bind fun _ => reaches_okOr_bind fun height _ => ?_
  refine ((reading_ask _).same t).bind fun answer u _ => reaches_okOr_bind fun id _ => ?_
  let o := Occurrence.request peer (.blocks height 128)
  refine Reaches.bind ((reading_record (o := o) trivial).same u) fun _ v _ => ?_
  exact ((reading_ask _).same v).bind fun time w _ => reaches_update rfl

omit [Primitives] in
theorem same_retrySyncAfterFailure (failed : PeerId) (id : Option OutboundSyncRequestId) :
    Reaches Turn.SameTarget (retrySyncAfterFailure failed id) t := by
  refine reaches_actor_bind ?_
  split
  · exact .pure _
  · split
    · exact .pure _
    · refine reaches_update_bind rfl ?_
      split
      · exact .pure _
      · exact same_requestSyncBlocks _

omit [Primitives] in
theorem same_retryTimedOutSyncRequest (time : Instant) :
    Reaches Turn.SameTarget (retryTimedOutSyncRequest time) t := by
  refine reaches_actor_bind ?_
  split
  · exact .pure _
  · split
    · split
      · exact .pure _
      · exact same_retrySyncAfterFailure _ _
    · exact .pure _

theorem same_statusTick : Reaches Turn.SameTarget statusTick t := by
  refine reaches_actor_bind <| ((reading_ask _).same t).bind fun time u _ => ?_
  split
  · refine ((reading_ask _).same u).bind fun time v _ => ?_
    exact reaches_update_bind rfl (reading_publishValidatorStatus.same _)
  · exact .pure _

theorem same_tickDue : Reaches Turn.SameTarget tickDue t := by
  refine ((reading_ask _).same t).bind fun time u _ => ?_
  refine (same_retryTimedOutSyncRequest time).bind fun _ v _ => ?_
  refine same_statusTick.bind fun _ w _ => reaches_actor_bind ?_
  split
  · exact .pure _
  · refine ((reading_ask _).same w).bind fun time x _ => ?_
    split <;> exact .pure _

variable [Formats]

end NodeM

/-! ## No part in consensus -/

variable [Formats]

/-- A step of a node that takes no part in consensus. -/
inductive Turn.Rest : Turn → Turn → Prop
  | quiet {t t' : Turn} (h : t.Quiet t') : Rest t t'
  | commit (t : Turn) (block : Block) (certificate : CommitCertificate)
      (receipts : List TransactionReceipt) (candidate : LedgerState) (store : Store)
      (live : t.actor.halted = false)
      (h : t.actor.Commits block certificate receipts candidate store) :
      Rest t ((t.stored store).withActor (t.actor.committed candidate store))
  | clear (t : Turn) (live : t.actor.halted = false) :
      Rest t (t.withActor { t.actor with
        proposalBlocks := ∅
        recoveryMessages := []
        recoveryBroadcasts := []
        consensusStarted := false })
  | renew (t : Turn) (key : SigningKey) (validators : ValidatorSet) (consensus : Consensus)
      (live : t.actor.halted = false) (hkey : t.actor.localValidatorKey = some key)
      (hvalidators : ValidatorSet.new t.actor.validatorIds = .ok validators)
      (h : Consensus.new (ValidatorId.fromSigningKey key) validators (t.actor.ledger.height + 1)
        (.forChain t.actor.config.chainId) = .ok consensus) :
      Rest t (t.withActor { t.actor with consensus := some consensus })

theorem Turn.Rest.move {t t' : Turn} (h : t.Rest t') : t.Move t' := by
  cases h with
  | quiet h => exact .quiet h
  | commit block certificate receipts candidate store live h =>
      exact .commit t block certificate receipts candidate store live h
  | clear => exact .clear t
  | renew key validators consensus live hkey hvalidators h =>
      exact .renew t key validators consensus hkey hvalidators h

namespace NodeM

variable {α : Type} {t : Turn} {x : NodeM α}

theorem rest_of_quiet (h : Reaches Turn.Quiet x t) : Reaches Turn.Rest x t :=
  reaches_mono (fun _ _ => .quiet) h

theorem Reading.rest (h : Reading x) (t : Turn) : Reaches Turn.Rest x t :=
  rest_of_quiet (h.reaches t)

theorem rest_commitFinalized (block : Block) (certificate : CommitCertificate) (gossip : Bool)
    (live : t.actor.halted = false) :
    Reaches Turn.Rest (commitFinalized block certificate gossip) t :=
  reaches_commitFinalized block certificate gossip (fun u asked os h => .quiet (.say u asked os h))
    (fun u lastBlockAt => .quiet (.clock u lastBlockAt u.actor.lastStatusAt))
    fun u receipts candidate store hu h =>
      .commit u block certificate receipts candidate store (hu ▸ live) h

/-- A commit does not halt the node. -/
theorem commitFinalized_halted {block : Block} {certificate : CommitCertificate} {gossip : Bool}
    {u : Turn} (h : commitFinalized block certificate gossip t = .ok () u) :
    u.actor.halted = t.actor.halted := by
  rcases commitFinalized_cases block certificate gossip t with ⟨e, asked, os, -, he⟩ |
    ⟨receipts, candidate, store, asked, os, asked', os', lastBlockAt, -, -, -, hstate, -⟩
  · exact nomatch he.symm.trans h
  · rw [h] at hstate
    obtain rfl : u = _ := hstate
    rfl

theorem rest_importNext (record : FinalizedWireRecord) (live : t.actor.halted = false) :
    Reaches Turn.Rest (importNext record) t := by
  refine (rest_commitFinalized record.block record.certificate false live).bind fun _ u hu => ?_
  have live : u.actor.halted = false := (commitFinalized_halted hu).trans live
  refine (reaches_resetConsensus (.clear u live) ?_).bind fun _ v _ =>
    rest_of_quiet quiet_finishSyncIfCurrent
  rintro v key validators consensus rfl hkey hvalidators hconsensus
  exact .renew _ key validators consensus live hkey hvalidators hconsensus

theorem rest_importFinalized (record : FinalizedWireRecord) (source : Option PeerId) :
    Reaches Turn.Rest (importFinalized record source) t := by
  refine reaches_actor_bind <| .ensure_bind fun live => .ensure_bind fun hchain => ?_
  refine reaches_orFail_bind fun _ hcommitments => reaches_orFail_bind fun _ hcertificate => ?_
  split
  · exact rest_of_quiet (quiet_compareFinalized _)
  · split
    · split
      · exact rest_of_quiet (quiet_beginSync _ ⟨hchain, hcommitments, hcertificate⟩)
      · exact (reading_throw _).rest t
    · exact rest_importNext record live

theorem rest_importRecords (records : List FinalizedWireRecord) :
    Reaches Turn.Rest (importRecords records) t := by
  induction records generalizing t with
  | nil => exact .pure _
  | cons record rest ih => exact (rest_importFinalized record none).bind fun _ _ _ => ih

theorem rest_importBatch (peer : PeerId) (fromHeight : UInt64) (records : List (List UInt8)) :
    Reaches Turn.Rest (importBatch peer fromHeight records) t := by
  refine reaches_okOr_bind fun decoded _ => reaches_actor_bind ?_
  refine .lift_bind fun _ _ => (rest_importRecords decoded).bind fun _ u _ => ?_
  refine reaches_actor_bind <| .ensure_bind fun _ => ?_
  refine (reading_publishValidatorStatus.rest u).bind fun _ v _ => ?_
  exact rest_of_quiet (quiet_continueSync peer)

theorem rest_handleSyncResponse (peer : PeerId) (intent : OutboundSyncIntent)
    (response : SyncResponse) : Reaches Turn.Rest (handleSyncResponse peer intent response) t := by
  refine reaches_actor_bind <| .lift_bind fun _ _ => ?_
  split
  · split
    · exact rest_of_quiet (quiet_handleHigherStatus ..)
    · exact .pure _
  · split
    · exact rest_of_quiet (quiet_handleEmptyBatch _)
    · exact rest_importBatch _ _ _
  · exact (reading_throw _).rest t
  · exact (reading_throw _).rest t
  · exact (reading_throw _).rest t

omit [Formats] in
/-- Whether a node is halted does not change to the better. -/
theorem halted_of_quiet {u : Turn} (h : ReflTransGen Turn.Quiet t u)
    (ht : t.actor.halted = true) : u.actor.halted = true := by
  induction h with
  | refl => exact ht
  | tail _ hlast ih =>
      cases hlast with
      | halt => rfl
      | _ => exact ih

/-- A node that is behind or halted starts no consensus at a tick. -/
theorem rest_tick (h : t.actor.syncTarget.isSome ∨ t.actor.halted = true) :
    Reaches Turn.Rest tick t := by
  rw [tick_eq]
  refine (rest_of_quiet quiet_tickDue).bind fun due u hu => ?_
  cases due with
  | false => exact .pure _
  | true =>
      have live := tickDue_live hu
      have hquiet := quiet_tickDue (t := t)
      have hsame := sameTarget_of_reaches (same_tickDue (t := t))
      rw [Reaches, hu] at hquiet
      rw [hu] at hsame
      have hbehind : u.actor.syncTarget.isSome := by
        rcases h with h | h
        · rw [show u.actor.syncTarget = t.actor.syncTarget from hsame]
          exact h
        · have hhalted : u.actor.halted = true := halted_of_quiet hquiet h
          rw [live] at hhalted
          cases hhalted
      refine reaches_actor_bind ?_
      split
      · refine reaches_actor_bind <| reaches_okOr_bind fun proposer _ => ?_
        refine ((reading_ask _).rest u).bind fun time v hv => ?_
        have hactor := (reading_ask _).actor_eq hv
        refine reaches_orFail_bind fun block _ => reaches_orFail_bind fun _ _ => ?_
        exact rest_commitFinalized _ _ true (hactor ▸ live)
      · rw [if_neg fun hnone => by rw [hnone] at hbehind; cases hbehind]
        exact .pure _
      · exact .pure _

theorem rest_processConsensusEvent (h : t.actor.syncTarget.isSome ∨ t.actor.halted = true)
    (event : Event) : Reaches Turn.Rest (processConsensusEvent event) t := by
  refine reaches_actor_bind ?_
  rw [if_pos (.inr h)]
  exact .pure _

theorem rest_handleConsensusMessage (h : t.actor.syncTarget.isSome ∨ t.actor.halted = true)
    (wire : ConsensusWireMessage) : Reaches Turn.Rest (handleConsensusMessage wire) t := by
  refine reaches_actor_bind ?_
  rw [if_pos (.inr h)]
  exact .pure _

/-- A node that is behind or halted when a command comes takes no part in consensus. -/
theorem rest_handleCommand (h : t.actor.syncTarget.isSome ∨ t.actor.halted = true) (c : Command) :
    Reaches Turn.Rest (handleCommand c) t := by
  cases c with
  | submit transaction gossip =>
      exact reaches_logged ((rest_of_quiet (quiet_acceptTransaction transaction gossip)).bind
        fun _ _ _ => .pure _)
  | tick => exact reaches_logged (rest_tick h)
  | consensusMessage message => exact reaches_logged (rest_handleConsensusMessage h message)
  | consensusTimeout timeout =>
      refine reaches_actor_bind ?_
      split
      · exact reaches_logged (rest_processConsensusEvent h _)
      · exact .pure _
  | importFinalized record source => exact reaches_logged (rest_importFinalized record source)
  | peerConnected peer =>
      refine reaches_update_bind (.quiet (.meet t _)) (reaches_actor_bind ?_)
      split
      · next h => exact reaches_logged (rest_of_quiet (quiet_ensureActiveSyncRequest peer h))
      · split
        · exact reaches_logged ((reading_requestStatus peer).rest _)
        · exact .pure _
  | peerDisconnected peer =>
      refine reaches_update_bind (.quiet (.meet t _)) (reaches_actor_bind ?_)
      split
      · exact reaches_logged (rest_of_quiet (quiet_retrySyncAfterFailure peer none))
      · exact .pure _
  | syncRequest token request =>
      exact reaches_logged ((reading_respondToSync token request).rest t)
  | syncResponse peer intent response =>
      have hresponse := rest_handleSyncResponse (t := t) peer intent response
      unfold Reaches NodeM.handleCommand at *
      dsimp only
      cases h : NodeM.handleSyncResponse peer intent response t with
      | ok _ u =>
          rw [h] at hresponse
          exact hresponse
      | error e u =>
          rw [h] at hresponse
          exact hresponse.trans (reaches_logged (rest_of_quiet
            (quiet_retrySyncAfterFailure intent.peer (some intent.requestId))))
  | syncFailure peer intent error =>
      unfold NodeM.handleCommand
      dsimp only
      split
      · exact reaches_logged (rest_of_quiet (quiet_retrySyncAfterFailure _ _))
      · exact .pure _
  | validatorStatus status =>
      exact reaches_logged ((reading_acceptValidatorStatus status).rest t)

end NodeM

/-! ## What is not done while a node is behind -/

/-- Nothing is signed, the engine is not stepped but at most exchanged for a fresh one, and no
consensus message leaves but one that is being sent again at the start. -/
structure Turn.Silent (t t' : Turn) : Prop where
  signed : t'.actor.store.signerState = t.actor.store.signerState
  engine : t'.actor.consensus = t.actor.consensus ∨
    ∃ localId validators height config consensus,
      Consensus.new localId validators height config = .ok consensus ∧
        t'.actor.consensus = some consensus
  messages : ∀ wire, .consensus wire ∈ t'.trace → .consensus wire ∈ t.trace ∨ wire ∈ t.wires

namespace Turn

variable {t t' u : Turn}

omit [Primitives] [Formats] in
theorem Silent.of_same (hstore : t'.actor.store = t.actor.store)
    (hengine : t'.actor.consensus = t.actor.consensus) (htrace : t'.trace = t.trace) :
    t.Silent t' :=
  ⟨congrArg _ hstore, .inl hengine, fun _ h => .inl (htrace ▸ h)⟩

omit [Formats] in
theorem Quiet.silent (h : t.Quiet t') : t.Silent t' := by
  have hs := h.sameCore
  obtain ⟨os, hos, htrace⟩ := h.trace
  refine ⟨congrArg _ hs.store, .inl hs.consensus, fun wire hmem => ?_⟩
  rw [htrace] at hmem
  exact .inl ((List.mem_append.1 hmem).resolve_right fun hm => (hos _ hm).elim)

/-- The commit of a block signs nothing. -/
theorem silent_commit {block : Block} {certificate : CommitCertificate}
    {receipts : List TransactionReceipt} {candidate : LedgerState} {store : Store}
    (h : t.actor.Commits block certificate receipts candidate store) :
    t.Silent ((t.stored store).withActor (t.actor.committed candidate store)) := by
  obtain ⟨-, -, p, -, -, hstore⟩ := h.store
  have hsigned : store.signerState = t.actor.store.signerState := by
    rw [(Store.persistFinalized_eq_ok hstore).2.2.2.2]
  refine ⟨hsigned, .inl rfl, fun wire hmem => ?_⟩
  · rcases List.mem_append.1 hmem with hm | hm
    · exact .inl hm
    · cases List.mem_singleton.1 hm

/-- A step that is taken while the node is behind or halted is silent. -/
theorem Move.silent (h : t.Move t') (hb : t.actor.syncTarget.isSome ∨ t.actor.halted = true) :
    t.Silent t' := by
  cases h with
  | quiet h => exact h.silent
  | commit block certificate receipts candidate store live h => exact silent_commit h
  | renew key validators consensus hkey hvalidators h =>
      exact ⟨rfl, .inr ⟨_, _, _, _, consensus, h, rfl⟩, fun _ hm => .inl hm⟩
  | resend wire h =>
      refine ⟨rfl, .inl rfl, fun wire' hmem => ?_⟩
      rcases List.mem_append.1 hmem with hm | hm
      · exact .inl hm
      · cases List.mem_singleton.1 hm
        exact .inr h
  | work hd h =>
      rcases hb with hb | hb
      · rw [hd.current] at hb
        cases hb
      · exact nomatch hb.symm.trans hd.live
  | clear | start | resume | resent => exact .of_same rfl rfl rfl

theorem Rest.silent (h : t.Rest t') : t.Silent t' ∧ t'.wires = t.wires := by
  cases h with
  | quiet h => exact ⟨h.silent, h.locals.2.2.2.2⟩
  | commit block certificate receipts candidate store live h => exact ⟨silent_commit h, rfl⟩
  | clear => exact ⟨.of_same rfl rfl rfl, rfl⟩
  | renew key validators consensus live hkey hvalidators h =>
      exact ⟨⟨rfl, .inr ⟨_, _, _, _, consensus, h, rfl⟩, fun _ hm => .inl hm⟩, rfl⟩

/-- A turn in which the node takes no part in consensus is silent. -/
theorem Silent.of_rest (h : ReflTransGen Rest t u) : t.Silent u ∧ u.wires = t.wires := by
  induction h with
  | refl => exact ⟨.of_same rfl rfl rfl, rfl⟩
  | tail _ hstep ih =>
      obtain ⟨hs, hwires⟩ := ih
      obtain ⟨hlast, hlastWires⟩ := hstep.silent
      refine ⟨⟨hlast.signed.trans hs.signed, ?_, fun wire hmem => ?_⟩, hlastWires.trans hwires⟩
      · rcases hlast.engine with heq | hnew
        · rw [heq]
          exact hs.engine
        · exact .inr hnew
      · rcases hlast.messages wire hmem with hm | hm
        · exact hs.messages wire hm
        · rw [hwires] at hm
          exact .inr hm

/-- The steps on the way are silent where they are taken behind or halted. -/
def Guarded (t t' : Turn) : Prop :=
  ReflTransGen (fun u v => u.Move v ∧
    (u.actor.syncTarget.isSome ∨ u.actor.halted = true → u.Silent v)) t t'

theorem Guarded.of_moves (h : ReflTransGen Move t u) : t.Guarded u :=
  ReflTransGen.mono (fun _ _ hmove => ⟨hmove, hmove.silent⟩) _ _ h

/-- The target is the height of a certified block of the node's chain. -/
def Targeted (t : Turn) : Prop :=
  ∀ target, t.actor.syncTarget = some target →
    ∃ record, t.actor.Accepts record ∧ record.block.header.height = target

theorem Targeted.move (h : t.Targeted) (hmove : t.Move t') : t'.Targeted := by
  have hkeep : ∀ {v : Turn}, v.actor.syncTarget = t.actor.syncTarget →
      v.actor.chainId = t.actor.chainId → v.actor.validatorIds = t.actor.validatorIds →
      v.Targeted := by
    intro v htarget hchain hids target hv
    obtain ⟨record, haccepts, hheight⟩ := h target (htarget ▸ hv)
    refine ⟨record, ⟨?_, haccepts.commitments, ?_⟩, hheight⟩
    · rw [hchain]
      exact haccepts.chain
    · rw [hids]
      exact haccepts.certificate
  have hnone : ∀ {v : Turn}, v.actor.syncTarget = none → v.Targeted := by
    intro v hv target htarget
    exact nomatch htarget.symm.trans hv
  cases hmove with
  | quiet hq =>
      cases hq with
      | fallBehind record hlive haccepts hlt =>
          rcases raised_target t.actor.syncTarget record.block.header.height with hkept | hraised
          · exact hkeep hkept rfl rfl
          · intro target htarget
            have heq := Option.some.inj (hraised.symm.trans htarget)
            exact ⟨record, ⟨haccepts.chain, haccepts.commitments, haccepts.certificate⟩, heq⟩
      | caughtUp => exact hnone rfl
      | halt => exact hnone rfl
      | _ => exact hkeep rfl rfl rfl
  | work hd hw =>
      cases hw <;> exact hkeep rfl rfl rfl
  | _ => exact hkeep rfl rfl rfl

end Turn

namespace Machine

variable {config : NodeConfig} {m : Machine}

end Machine

end

end KCoin
