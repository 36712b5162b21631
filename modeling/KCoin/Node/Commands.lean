import KCoin.Node.Handlers

/-!
# The commands of a node

A relation that contains the steps of the bookkeeping, what the consensus driver does, and the import
of a block, contains what every command does (`Turn.Covers`); only the tick of a standalone node,
which makes a block alone, has to be looked at besides. Most such relations contain the driver because
they contain its single steps (`Turn.Closed`); the first of them is that of the steps of a node
themselves.
-/

open Relation EStateM Borsh

namespace KCoin

section
variable [Primitives] [Formats]

namespace NodeM

/-- Import the block of the next height. -/
def importNext (record : FinalizedWireRecord) : NodeM Unit := do
  commitFinalized record.block record.certificate false
  resetConsensus
  finishSyncIfCurrent

/-- A certified block of a finalized height is compared with the finalized one, and one of the next
height is imported. -/
theorem importFinalized_accepts {t : Turn} {record : FinalizedWireRecord} (source : Option PeerId)
    (live : t.actor.halted = false) (haccepts : t.actor.Accepts record) :
    (record.block.header.height ≤ t.actor.ledger.height →
      importFinalized record source t = compareFinalized record.block t) ∧
    (¬record.block.header.height ≤ t.actor.ledger.height →
      record.block.header.height = t.actor.ledger.height + 1 →
      importFinalized record source t = importNext record t) := by
  have hrun : importFinalized record source t = _ :=
    (ensure_bind live).trans <| (ensure_bind haccepts.chain).trans <|
      (orFail_bind haccepts.commitments).trans (orFail_bind haccepts.certificate)
  rw [hrun]
  constructor
  · intro hle
    rw [if_pos hle]
  · intro hlt hnext
    rw [if_neg hlt, if_neg (not_not_intro hnext)]
    rfl

omit [Formats] in
/-- The part of a tick up to the production of a block, and whether there is one to produce. -/
def tickDue : NodeM Bool := do
  let time ← now
  retryTimedOutSyncRequest time
  statusTick
  let a ← actor
  if a.halted then return false
  else
    let time ← now
    if a.mempool = [] ∧ time - a.lastBlockAt < a.config.heartbeatMs.toNat then return false
    else return true

/-- Produce a block by the role of the node. -/
def produce : NodeM Unit := do
  let a ← actor
  match a.config.role with
  | .standalone => produceStandalone
  | .validator => if a.syncTarget = none then ensureConsensusStarted else return ()
  | .observer => return ()

theorem tick_eq : tick = tickDue >>= fun due => if due then produce else pure () := by
  funext t
  simp only [tick, tickDue, bind_assoc]
  refine congrFun (bind_congr fun time => bind_congr fun _ => bind_congr fun _ => ?_) t
  funext u
  change (if u.actor.halted then _ else _ : NodeM Unit) u =
    ((if u.actor.halted then _ else _ : NodeM Bool) >>= _) u
  split
  · rfl
  · change (if _ then _ else _ : NodeM Unit) { u with asked := u.asked + 1 } =
      ((if _ then _ else _ : NodeM Bool) >>= _) { u with asked := u.asked + 1 }
    split <;> rfl

omit [Primitives] [Formats] in
theorem publishConsensusWire_wires {wire : ConsensusWireMessage} {t u : Turn}
    (h : publishConsensusWire wire t = .ok () u) : u.wires = t.wires := by
  change (if t.actor.network then _ else _ : NodeM Unit) t = _ at h
  split at h
  · obtain ⟨_, _, hencoded, h⟩ := bind_eq_ok.1 h
    obtain ⟨-, rfl⟩ := okOr_eq_ok.1 hencoded
    obtain rfl := modify_eq_ok.1 h
    rfl
  · obtain ⟨-, rfl⟩ := pure_eq_ok.1 h
    rfl

omit [Formats] in
theorem calm_tickDue {t : Turn} : Reaches Turn.Calm tickDue t := by
  refine ((reading_ask _).calm t).bind fun time u _ => ?_
  refine (calm_retryTimedOutSyncRequest time).bind fun _ v _ => ?_
  refine calm_statusTick.bind fun _ w _ => reaches_actor_bind ?_
  split
  · exact .pure _
  · refine ((reading_ask _).calm w).bind fun time x _ => ?_
    split <;> exact .pure _

omit [Formats] in
theorem quiet_tickDue {t : Turn} : Reaches Turn.Quiet tickDue t := Reaches.quiet calm_tickDue

end NodeM

/-- The relation contains what a node does, but for the block that a standalone node makes. -/
structure Turn.Covers (R : Turn → Turn → Prop) : Prop where
  quiet : ∀ {t u : Turn}, t.Quiet u → R t u
  process : ∀ {t : Turn} {event : Event}, event.External →
    (∀ p, event = .message (.proposal p) → t.actor.store.HasProposal p) →
    Reaches R (NodeM.processConsensusEvent event) t
  receive : ∀ {t : Turn} (signed : SignedProposal) (block : Block), t.Driving →
    signed.proposal.height = t.actor.ledger.height + 1 →
    block.consensusHash = signed.proposal.blockId → Reaches R (NodeM.receiveProposal signed block) t
  start : ∀ t : Turn, R t (t.withActor { t.actor with consensusStarted := true })
  imports : ∀ (t : Turn) (record : FinalizedWireRecord), t.actor.halted = false →
    Reaches R (NodeM.importNext record) t
  resume : ∀ t : Turn, R t { t with
    actor := { t.actor with recoveryMessages := [], recoveryBroadcasts := [] }
    wires := t.actor.recoveryBroadcasts }
  resend : ∀ (t : Turn) (wire : ConsensusWireMessage) (rest : List ConsensusWireMessage),
    t.wires = wire :: rest → R t { t with trace := t.trace ++ [.consensus wire] }
  resent : ∀ (t : Turn) (wire : ConsensusWireMessage) (rest : List ConsensusWireMessage),
    t.wires = wire :: rest → R t { t with wires := rest }

/-- What a command gives the engine to handle. -/
inductive Command.Hands : Command → Event → Prop
  | start (c : Command) : Hands c .start
  | message (wire : ConsensusWireMessage) : Hands (.consensusMessage wire) (.message wire.message)
  | timeout (t : Timeout) : Hands (.consensusTimeout t) (.timeout t)

/-- The certified blocks that a command brings. -/
inductive Command.Brings : Command → FinalizedWireRecord → Prop
  | finalized (record : FinalizedWireRecord) (source : Option PeerId) :
      Brings (.importFinalized record source) record
  | answered (peer : PeerId) (intent : OutboundSyncIntent) (records : List (List UInt8))
      (bytes : List UInt8) (record : FinalizedWireRecord) (hmem : bytes ∈ records)
      (h : tryFromSlice FinalizedWireRecord bytes = some record) :
      Brings (.syncResponse peer intent (.blocks records)) record

/-- The relation contains what a node does with events and certified blocks of a certain kind, but for
the block that a standalone node makes. -/
structure Turn.Serves (Ok : Event → Prop) (Certified : FinalizedWireRecord → Prop)
    (R : Turn → Turn → Prop) : Prop where
  calm : ∀ {t u : Turn}, t.Calm u → R t u
  process : ∀ {t : Turn} {event : Event}, event.External → Ok event →
    (∀ p, event = .message (.proposal p) → t.actor.store.HasProposal p) →
    Reaches R (NodeM.processConsensusEvent event) t
  receive : ∀ {t : Turn} (signed : SignedProposal) (block : Block), t.Driving →
    signed.proposal.height = t.actor.ledger.height + 1 →
    block.consensusHash = signed.proposal.blockId → Reaches R (NodeM.receiveProposal signed block) t
  start : ∀ t : Turn, R t (t.withActor { t.actor with consensusStarted := true })
  compares : ∀ (t : Turn) (record : FinalizedWireRecord), t.actor.Accepts record →
    Certified record → Reaches R (NodeM.compareFinalized record.block) t
  imports : ∀ (t : Turn) (record : FinalizedWireRecord), t.actor.halted = false →
    t.actor.Accepts record → Certified record → Reaches R (NodeM.importNext record) t
  resume : ∀ t : Turn, R t { t with
    actor := { t.actor with recoveryMessages := [], recoveryBroadcasts := [] }
    wires := t.actor.recoveryBroadcasts }
  resend : ∀ (t : Turn) (wire : ConsensusWireMessage) (rest : List ConsensusWireMessage),
    t.wires = wire :: rest → R t { t with trace := t.trace ++ [.consensus wire] }
  resent : ∀ (t : Turn) (wire : ConsensusWireMessage) (rest : List ConsensusWireMessage),
    t.wires = wire :: rest → R t { t with wires := rest }

theorem Turn.Covers.serves {R : Turn → Turn → Prop} (hR : Turn.Covers R) :
    Turn.Serves (fun _ => True) (fun _ => True) R where
  calm h := hR.quiet h.1
  process he _ hstored := hR.process he hstored
  receive := hR.receive
  start := hR.start
  compares _ _ _ _ := NodeM.reaches_mono (fun _ _ => hR.quiet) (NodeM.quiet_compareFinalized _)
  imports t record live _ _ := hR.imports t record live
  resume := hR.resume
  resend := hR.resend
  resent := hR.resent

/-- The relation contains what a node does, with the steps of the consensus driver one by one. -/
structure Turn.Closed (R : Turn → Turn → Prop) : Prop where
  quiet : ∀ {t u : Turn}, t.Quiet u → R t u
  drives : ∀ {α : Type} {x : NodeM α} {t : Turn}, t.Driving → NodeM.Drives x t → Reaches R x t
  start : ∀ t : Turn, R t (t.withActor { t.actor with consensusStarted := true })
  imports : ∀ (t : Turn) (record : FinalizedWireRecord), t.actor.halted = false →
    Reaches R (NodeM.importNext record) t
  resume : ∀ t : Turn, R t { t with
    actor := { t.actor with recoveryMessages := [], recoveryBroadcasts := [] }
    wires := t.actor.recoveryBroadcasts }
  resend : ∀ (t : Turn) (wire : ConsensusWireMessage) (rest : List ConsensusWireMessage),
    t.wires = wire :: rest → R t { t with trace := t.trace ++ [.consensus wire] }
  resent : ∀ (t : Turn) (wire : ConsensusWireMessage) (rest : List ConsensusWireMessage),
    t.wires = wire :: rest → R t { t with wires := rest }

end

theorem NodeM.drives_processConsensusEvent [Primitives] [Formats] {t : Turn} {event : Event}
    (h : t.Driving) (he : event.External) : Drives (processConsensusEvent event) t := by
  refine reaches_actor_bind ?_
  split
  · exact .pure _
  · have hb : ({ t with events := [event], current := none, effects := [] } : Turn).Driving :=
      ⟨h.role, h.current, h.live⟩
    refine .modify_bind (.single ⟨.work h (.begin t event he), hb⟩) ?_
    exact .get_bind (drives_drive _ hb)

namespace Turn.Closed

open NodeM

variable [Primitives] [Formats] {R : Turn → Turn → Prop} {t : Turn}

theorem process (hR : Turn.Closed R) {event : Event} (he : event.External) :
    Reaches R (processConsensusEvent event) t := by
  by_cases hguard : t.actor.config.role ≠ .validator ∨ t.actor.syncTarget.isSome ∨ t.actor.halted
  · refine reaches_actor_bind ?_
    rw [if_pos hguard]
    exact .pure _
  · have h := driving_of_not hguard
    exact hR.drives h (drives_processConsensusEvent h he)

theorem covers (hR : Turn.Closed R) : Turn.Covers R where
  quiet := hR.quiet
  process he _ := hR.process he
  receive signed block h hheight hid := hR.drives h (drives_receiveProposal signed block h hheight hid)
  start := hR.start
  imports := hR.imports
  resume := hR.resume
  resend := hR.resend
  resent := hR.resent

end Turn.Closed

/-! ## The stored proposals remain -/

section
variable [Primitives] [Formats] {t u : Turn}

theorem Turn.Move.hasProposal (h : t.Move u) {p : SignedProposal}
    (hp : t.actor.store.HasProposal p) : u.actor.store.HasProposal p := by
  cases h with
  | quiet hq =>
      rw [hq.sameCore.store]
      exact hp
  | commit block certificate receipts candidate store live hc =>
      obtain ⟨_, _, projection, -, -, hstore⟩ := hc.store
      obtain ⟨-, -, -, -, hstore⟩ := Store.persistFinalized_eq_ok hstore
      have hkept : store.HasProposal p := by
        rw [hstore]
        exact hp
      exact hkept
  | work hd hw =>
      cases hw with
      | storeProposal p safetyState decision block row store hcurrent hdecision hsig hblock hrow h =>
          exact hp.persist h
      | storeDecision message safetyState row signature store hcurrent hrow hproposal h =>
          exact hp.of_same (Store.persistConsensusDecision_proposals h)
      | receive signed block row store hreceives hrow h => exact hp.persist h
      | _ => exact hp
  | _ => exact hp

theorem Turn.hasProposal_of_moves (h : ReflTransGen Turn.Move t u) {p : SignedProposal}
    (hp : t.actor.store.HasProposal p) : u.actor.store.HasProposal p := by
  induction h with
  | refl => exact hp
  | tail _ hm ih => exact hm.hasProposal ih

namespace NodeM

/-- A relation that contains the steps of a node. -/
theorem closed_move : Turn.Closed Turn.Move where
  quiet := .quiet
  drives _ hx := hx.moves
  start t := .start t
  imports t record live := by
    refine (moves_commitFinalized record.block record.certificate false live).bind fun _ u _ => ?_
    refine moves_resetConsensus.bind fun _ v _ => ?_
    exact reaches_mono (fun _ _ => .quiet) quiet_finishSyncIfCurrent
  resume t := .resume t
  resend t wire rest h := .resend t wire (by rw [h]; exact List.mem_cons_self)
  resent t wire rest h := .resent t wire rest h

theorem moves_ensureConsensusStarted : Reaches Turn.Move ensureConsensusStarted t := by
  refine reaches_actor_bind ?_
  split
  · exact .pure _
  · exact reaches_update_bind (.start t) (closed_move.process trivial)

omit [Formats] in
/-- A proposal that was received and would be kept is stored. -/
theorem receiveProposal_stored {signed : SignedProposal} {block : Block}
    (h : receiveProposal signed block t = .ok true u) : u.actor.store.HasProposal signed := by
  obtain ⟨a, _, ha, h⟩ := bind_eq_ok.1 h
  cases ha
  obtain ⟨_, _, hknown, h⟩ := bind_eq_ok.1 h
  obtain ⟨-, rfl⟩ := ensure_eq_ok.1 hknown
  obtain ⟨consensus, _, hconsensus, h⟩ := bind_eq_ok.1 h
  obtain ⟨-, rfl⟩ := okOr_eq_ok.1 hconsensus
  obtain ⟨cacheable, _, hcacheable, h⟩ := bind_eq_ok.1 h
  obtain ⟨-, rfl⟩ := orFail_eq_ok.1 hcacheable
  split at h
  · obtain ⟨row, _, hencoded, h⟩ := bind_eq_ok.1 h
    obtain ⟨hrow, rfl⟩ := lift_eq_ok.1 hencoded
    obtain ⟨_, v, hwrite, h⟩ := bind_eq_ok.1 h
    obtain ⟨asked, store, hstore, rfl⟩ := writeStore_eq_ok hwrite
    obtain ⟨_, w, hlearn, h⟩ := bind_eq_ok.1 h
    obtain rfl := modify_eq_ok.1 hlearn
    obtain ⟨-, rfl⟩ := pure_eq_ok.1 h
    exact Store.hasProposal_of_persist hrow (Except.map_pair_eq_ok.1 hstore).1
  · obtain ⟨hfalse, -⟩ := pure_eq_ok.1 h
    cases hfalse

end NodeM

end

namespace Turn.Serves

open NodeM

variable [Primitives] [Formats] {Ok : Event → Prop} {Certified : FinalizedWireRecord → Prop}
  {R : Turn → Turn → Prop} {t : Turn} {α : Type} {x : NodeM α}

theorem calms (hR : Turn.Serves Ok Certified R) (h : Reaches Turn.Calm x t) : Reaches R x t :=
  reaches_mono (fun _ _ => hR.calm) h

theorem reading (hR : Turn.Serves Ok Certified R) (h : Reading x) (t : Turn) : Reaches R x t :=
  hR.calms (h.calm t)

/-! ## Consensus -/

theorem ensureConsensusStarted (hR : Turn.Serves Ok Certified R) (hstart : Ok .start) :
    Reaches R ensureConsensusStarted t := by
  refine reaches_actor_bind ?_
  split
  · exact .pure _
  · exact reaches_update_bind (hR.start t) (hR.process trivial hstart nofun)

theorem deliver (hR : Turn.Serves Ok Certified R) (hstart : Ok .start) {message : SignedMessage}
    (hok : Ok (.message message)) (h : ∀ p, message = .proposal p → t.actor.store.HasProposal p) :
    Reaches R (deliver message) t := by
  refine (hR.ensureConsensusStarted hstart).bind fun _ u hu => hR.process trivial hok ?_
  rintro p ⟨⟩
  have hpath := moves_ensureConsensusStarted (t := t)
  rw [Reaches, hu] at hpath
  exact Turn.hasProposal_of_moves hpath (h p rfl)

theorem handleConsensusMessage (hR : Turn.Serves Ok Certified R) (hstart : Ok .start)
    (wire : ConsensusWireMessage) (hok : Ok (.message wire.message)) :
    Reaches R (handleConsensusMessage wire) t := by
  refine reaches_actor_bind ?_
  split
  · exact .pure _
  · next hguard =>
      have h := driving_of_not hguard
      split
      · next signed block =>
          refine .ensure_bind fun hid => ?_
          split
          · next hheight =>
              refine Reaches.bind (hR.receive signed block h hheight hid)
                fun cacheable u hu => ?_
              split
              · next hkeep =>
                  rw [hkeep] at hu
                  refine hR.deliver hstart hok ?_
                  rintro _ ⟨⟩
                  exact receiveProposal_stored hu
              · exact .pure _
          · exact .pure _
      · next signed =>
          dsimp only
          split
          · exact hR.deliver hstart hok fun p hp => by cases hp
          · exact .pure _

/-! ## Finalized blocks and synchronization -/

theorem importFinalized (hR : Turn.Serves Ok Certified R) (record : FinalizedWireRecord)
    (source : Option PeerId) (h : Certified record) :
    Reaches R (importFinalized record source) t := by
  refine reaches_actor_bind <| .ensure_bind fun live => .ensure_bind fun hchain => ?_
  refine reaches_orFail_bind fun _ hcommitments => reaches_orFail_bind fun _ hcertificate => ?_
  split
  · exact hR.compares t record ⟨hchain, hcommitments, hcertificate⟩ h
  · split
    · split
      · exact hR.calms (calm_beginSync _ ⟨hchain, hcommitments, hcertificate⟩)
      · exact hR.reading (reading_throw _) t
    · exact hR.imports t record live ⟨hchain, hcommitments, hcertificate⟩ h

theorem importRecords (hR : Turn.Serves Ok Certified R) (records : List FinalizedWireRecord)
    (h : ∀ record ∈ records, Certified record) : Reaches R (importRecords records) t := by
  induction records generalizing t with
  | nil => exact .pure _
  | cons record rest ih =>
      obtain ⟨hfirst, hrest⟩ := List.forall_mem_cons.1 h
      exact (hR.importFinalized record none hfirst).bind fun _ _ _ => ih hrest

theorem importBatch (hR : Turn.Serves Ok Certified R) (peer : PeerId) (fromHeight : UInt64)
    (records : List (List UInt8)) (h : ∀ bytes ∈ records, ∀ record,
      tryFromSlice FinalizedWireRecord bytes = some record → Certified record) :
    Reaches R (importBatch peer fromHeight records) t := by
  refine reaches_okOr_bind fun decoded hdecoded => reaches_actor_bind ?_
  have hcertified : ∀ record ∈ decoded, Certified record := fun record hmem =>
    let ⟨bytes, hbytes, hrecord⟩ := Option.exists_of_mem_mapM hdecoded record hmem
    h bytes hbytes record hrecord
  refine .lift_bind fun _ _ => (hR.importRecords decoded hcertified).bind fun _ u _ => ?_
  refine reaches_actor_bind <| .ensure_bind fun _ => ?_
  refine (hR.reading reading_publishValidatorStatus u).bind fun _ v _ => ?_
  exact hR.calms (calm_continueSync peer)

theorem handleSyncResponse (hR : Turn.Serves Ok Certified R) (peer : PeerId) (intent : OutboundSyncIntent)
    (response : SyncResponse) (h : ∀ record, (Command.syncResponse peer intent response).Brings record →
      Certified record) : Reaches R (handleSyncResponse peer intent response) t := by
  refine reaches_actor_bind <| .lift_bind fun _ _ => ?_
  split
  · split
    · exact hR.calms (calm_handleHigherStatus ..)
    · exact .pure _
  · split
    · exact hR.calms (calm_handleEmptyBatch _)
    · exact hR.importBatch _ _ _ fun bytes hbytes record hrecord =>
        h record (.answered _ _ _ bytes record hbytes hrecord)
  · exact hR.reading (reading_throw _) t
  · exact hR.reading (reading_throw _) t
  · exact hR.reading (reading_throw _) t

/-! ## Ticks -/

theorem produce (hR : Turn.Serves Ok Certified R) (hstart : Ok .start)
    (hs : t.actor.config.role = .standalone → Reaches R produceStandalone t) :
    Reaches R produce t := by
  refine reaches_actor_bind ?_
  split
  · next hrole => exact hs hrole
  · split
    · exact hR.ensureConsensusStarted hstart
    · exact .pure _
  · exact .pure _

theorem tick (hR : Turn.Serves Ok Certified R) (hstart : Ok .start) (hs : ∀ u, NodeM.tickDue t = .ok true u →
    u.actor.config.role = .standalone → Reaches R produceStandalone u) : Reaches R tick t := by
  rw [tick_eq]
  refine (hR.calms calm_tickDue).bind fun due u hu => ?_
  cases due with
  | false => exact .pure _
  | true => exact hR.produce hstart (hs u hu)

/-! ## All commands -/

/-- A command does what is in the relation, if what it hands to the engine and the blocks that it brings
are of the kind, and the block that a standalone node makes at a tick is in the relation. -/
theorem handleCommand (hR : Turn.Serves Ok Certified R) (c : Command)
    (hok : ∀ e, c.Hands e → Ok e) (hcertified : ∀ record, c.Brings record → Certified record)
    (hs : c = .tick → ∀ u, NodeM.tickDue t = .ok true u → u.actor.config.role = .standalone →
      Reaches R produceStandalone u) : Reaches R (handleCommand c) t := by
  cases c with
  | submit transaction gossip =>
      exact reaches_logged ((hR.calms (calm_acceptTransaction transaction gossip)).bind
        fun _ _ _ => .pure _)
  | tick => exact reaches_logged (hR.tick (hok _ (.start _)) (hs rfl))
  | consensusMessage message =>
      exact reaches_logged (hR.handleConsensusMessage (hok _ (.start _)) message
        (hok _ (.message message)))
  | consensusTimeout timeout =>
      refine reaches_actor_bind ?_
      split
      · exact reaches_logged (hR.process trivial (hok _ (.timeout timeout)) nofun)
      · exact .pure _
  | importFinalized record source =>
      exact reaches_logged (hR.importFinalized record source
        (hcertified record (.finalized record source)))
  | peerConnected peer =>
      refine reaches_update_bind (hR.calm ⟨.meet t _, rfl⟩) (reaches_actor_bind ?_)
      split
      · next h => exact reaches_logged (hR.calms (calm_ensureActiveSyncRequest peer h))
      · split
        · exact reaches_logged (hR.reading (reading_requestStatus peer) _)
        · exact .pure _
  | peerDisconnected peer =>
      refine reaches_update_bind (hR.calm ⟨.meet t _, rfl⟩) (reaches_actor_bind ?_)
      split
      · exact reaches_logged (hR.calms (calm_retrySyncAfterFailure peer none))
      · exact .pure _
  | syncRequest token request =>
      exact reaches_logged (hR.reading (reading_respondToSync token request) t)
  | syncResponse peer intent response =>
      have hresponse := hR.handleSyncResponse (t := t) peer intent response hcertified
      unfold Reaches NodeM.handleCommand at *
      dsimp only
      cases h : NodeM.handleSyncResponse peer intent response t with
      | ok _ u =>
          rw [h] at hresponse
          exact hresponse
      | error e u =>
          rw [h] at hresponse
          exact hresponse.trans (reaches_logged (hR.calms
            (calm_retrySyncAfterFailure intent.peer (some intent.requestId))))
  | syncFailure peer intent error =>
      unfold NodeM.handleCommand
      dsimp only
      split
      · exact reaches_logged (hR.calms (calm_retrySyncAfterFailure _ _))
      · exact .pure _
  | validatorStatus status =>
      exact reaches_logged (hR.reading (reading_acceptValidatorStatus status) t)

/-! ## The start -/

theorem publishWires (hR : Turn.Serves Ok Certified R) {wires : List ConsensusWireMessage}
    (h : t.wires = wires) : Reaches R (publishWires wires) t := by
  induction wires generalizing t with
  | nil => exact .pure _
  | cons wire rest ih =>
      have hkeep : ∀ {u : Turn}, u.wires = wire :: rest →
          Reaches R (do modify fun t => { t with wires := rest }; NodeM.publishWires rest) u :=
        fun hu => .modify_bind (.single (hR.resent _ wire rest hu)) (ih rfl)
      change Reaches R (NodeM.publishConsensusWire wire >>= fun _ => _) t
      refine Reaches.bind ?_ fun _ u hu => hkeep ?_
      · refine reaches_actor_bind ?_
        split
        · exact reaches_okOr_bind fun _ _ => .modify (.single (hR.resend t wire rest h))
        · exact .pure _
      · refine (publishConsensusWire_wires hu).trans h

theorem resumeInterruptedConsensus (hR : Turn.Serves Ok Certified R) (hstart : Ok .start) :
    Reaches R resumeInterruptedConsensus t := by
  refine reaches_actor_bind <| .modify_bind (.single (hR.resume t)) ?_
  refine (hR.publishWires rfl).bind fun _ u _ => ?_
  exact reaches_update_bind (hR.start u) (hR.process trivial hstart nofun)

/-- A start does what is in the relation, halting included. -/
theorem boot (hR : Turn.Serves Ok Certified R) (hstart : Ok .start)
    (hhalt : ∀ u, Reaches R enterHaltedState u) : Reaches R boot t := by
  have hresume := hR.resumeInterruptedConsensus hstart (t := t)
  rcases eq_or_ne t.actor.recoveryMessages [] with hnone | hsome
  · have hrun : NodeM.boot t = .ok () t := congrFun (if_pos hnone) t
    rw [Reaches, hrun]
    exact .refl
  · have hrun : NodeM.boot t = _ := congrFun (if_neg hsome) t
    rw [Reaches, hrun]
    rw [Reaches] at hresume
    cases h : NodeM.resumeInterruptedConsensus t with
    | ok _ u =>
        rw [h] at hresume
        exact hresume
    | error e u =>
        rw [h] at hresume
        exact hresume.trans (hhalt u)

end Turn.Serves

namespace Turn.Covers

open NodeM

variable [Primitives] [Formats] {R : Turn → Turn → Prop} {t : Turn} {α : Type} {x : NodeM α}

theorem reading (hR : Turn.Covers R) (h : Reading x) (t : Turn) : Reaches R x t :=
  hR.serves.reading h t

/-- Every command does what is in the relation, if the block that a standalone node makes at a tick
is. -/
theorem handleCommand (hR : Turn.Covers R) (c : Command)
    (hs : c = .tick → ∀ u, NodeM.tickDue t = .ok true u → u.actor.config.role = .standalone →
      Reaches R produceStandalone u) : Reaches R (handleCommand c) t :=
  hR.serves.handleCommand c (fun _ _ => trivial) (fun _ _ => trivial) hs

theorem boot (hR : Turn.Covers R) : Reaches R boot t :=
  hR.serves.boot trivial fun _ => reaches_mono (fun _ _ => hR.quiet) quiet_enterHaltedState

end Turn.Covers

/-! ## The steps of a node -/

namespace NodeM

variable [Primitives] [Formats] {t : Turn}

omit [Formats] in
/-- A node that produces a block is not halted. -/
theorem tickDue_live {u : Turn} (h : tickDue t = .ok true u) : u.actor.halted = false := by
  obtain ⟨time, _, -, h⟩ := bind_eq_ok.1 h
  obtain ⟨_, _, -, h⟩ := bind_eq_ok.1 h
  obtain ⟨_, w, -, h⟩ := bind_eq_ok.1 h
  change (if w.actor.halted then _ else _ : NodeM Bool) w = _ at h
  split at h
  · cases h
  · next hlive =>
      obtain ⟨time, x, hx, h⟩ := bind_eq_ok.1 h
      have hactor := (reading_ask _).actor_eq hx
      split at h
      · cases h
      · obtain ⟨-, rfl⟩ := pure_eq_ok.1 h
        rw [hactor]
        simpa using hlive

theorem moves_produceStandalone (live : t.actor.halted = false) :
    Reaches Turn.Move produceStandalone t := by
  refine reaches_actor_bind <| reaches_okOr_bind fun proposer _ => ?_
  refine (closed_move.covers.reading (reading_ask _) t).bind fun time u hu => ?_
  have hactor := (reading_ask _).actor_eq hu
  refine reaches_orFail_bind fun block _ => reaches_orFail_bind fun _ _ => ?_
  exact moves_commitFinalized _ _ true (hactor ▸ live)

/-- A command takes steps of the node, whatever it is and however it ends. -/
theorem moves_handleCommand (c : Command) : Reaches Turn.Move (handleCommand c) t :=
  closed_move.covers.handleCommand c fun _ _ hu _ => moves_produceStandalone (tickDue_live hu)

theorem moves_boot : Reaches Turn.Move boot t := closed_move.covers.boot

end NodeM

end KCoin
