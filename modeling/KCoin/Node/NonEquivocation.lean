import KCoin.Node.Equivocation

/-!
# One message for each slot

A validator hands a message to the network only after the decision is in its signer table, and the
messages that it sends again after a crash are read from there. Rows are never removed, there is one
for each slot, and the message in a row is the one that was signed. So whatever a node ever sent, in
however many lives, is at most one message for each slot (`Machine.one_message_per_slot`).
-/

open Relation EStateM Borsh

namespace KCoin

/-! ## What the engine publishes -/

namespace Running

open EngineM Consensus

variable {V : MessageValidator} {r r' : Running} {new : SignedMessage → Prop}

/-- The messages to broadcast were there before, or are among the new ones. -/
def Speaks (new : SignedMessage → Prop) (r r' : Running) : Prop :=
  ∀ m, .broadcast m ∈ r'.effects → .broadcast m ∈ r.effects ∨ new m

theorem Speaks.refl (new : SignedMessage → Prop) (r : Running) : Speaks new r r := fun _ => .inl

theorem Speaks.of_moves (h : ReflTransGen (Speaks new) r r') : Speaks new r r' := by
  induction h with
  | refl => exact .refl new r
  | tail _ hm ih =>
      intro m he
      rcases hm m he with he | hnew
      · exact ih m he
      · exact .inr hnew

/-- Another effect is pushed. -/
theorem Speaks.emit (h : Speaks new r r') (f : Consensus → Consensus) {x : Effect}
    (hx : ∀ m, x ≠ .broadcast m) : Speaks new r ((r'.update f).emit x) := by
  intro m he
  rcases List.mem_append.1 he with he | he
  · exact h m he
  · exact absurd (List.mem_singleton.1 he).symm (hx m)

theorem speaks_castVote (r : Running) (kind : VoteKind) (value : VoteValue) :
    Speaks new r (r.castVote kind value) := by
  rcases r.castVote_cases kind value with ⟨-, he⟩ | ⟨-, he⟩ <;> rw [he]
  · exact .refl new r
  · have hdecide : Speaks new r (r.decide (.vote (r.consensus.voteOf kind value))) :=
      (Speaks.refl new r).emit _ (by simp)
    exact hdecide.emit (·.setPhase (phaseAfter kind)) (by simp)

theorem speaks_evaluatePrevotes (r : Running) (round : Round) :
    Speaks new r (r.evaluatePrevotes round) := by
  have hlearn : ∀ block proof, (r.learnValid round block proof).effects = r.effects := by
    intro block proof
    unfold learnValid
    split <;> rfl
  unfold evaluatePrevotes
  split
  · next block proof _ =>
      split
      · unfold precommitBlock
        split
        · intro m hm
          have hlock : .broadcast m ∈ (r.learnValid round block proof).effects ∨ new m :=
            speaks_castVote ((r.learnValid round block proof).update (·.setLock block)) .precommit
              (.block block) m hm
          rwa [hlearn] at hlock
        · intro m hm
          rw [hlearn] at hm
          exact .inl hm
      · exact .refl new r
  · split
    · exact speaks_castVote r _ _
    · exact .refl new r
  · exact .refl new r

theorem speaks_prevoteCurrent (r : Running) : Speaks new r r.prevoteCurrent := by
  unfold prevoteCurrent
  split
  · split
    · exact speaks_castVote r _ _
    · exact .refl new r
  · exact .refl new r

theorem finalize_speaks (cert : ConsensusCommitCertificate) :
    Reaches (Speaks new) (finalize cert) r := by
  refine Reaches.get_bind ?_
  split
  · exact .of_readOnly (readOnly_ensure _)
  · exact ReflTransGen.single ((Speaks.refl new r).emit _ (by simp))

theorem evaluateRound_speaks (round : Round) : Reaches (Speaks new) (evaluateRound V round) r := by
  refine Reaches.modify_bind (.single (speaks_evaluatePrevotes r round)) (Reaches.get_bind ?_)
  split
  · exact Reaches.lift_bind fun _ _ => finalize_speaks _
  · exact .pure _

theorem activateCurrentRound_speaks : Reaches (Speaks new) (activateCurrentRound V) r :=
  Reaches.modify_bind (.single (speaks_prevoteCurrent r)) (Reaches.get_bind (evaluateRound_speaks _))

theorem enterRound_speaks (round : Round) : Reaches (Speaks new) (enterRound V round) r := by
  refine Reaches.get_bind (Reaches.ensure_bind fun _ => ?_)
  refine Reaches.modify_bind (.single ((Speaks.refl new r).emit _ (by simp))) (Reaches.get_bind ?_)
  split
  · exact activateCurrentRound_speaks
  · split
    · exact Reaches.modify (.single ((Speaks.refl new _).emit _ (by simp)))
    · exact .pure _

theorem proposalReady_speaks (height : Height) (round : Round) (block : BlockId) :
    Reaches (Speaks new) (proposalReady height round block) r := by
  refine Reaches.get_bind (Reaches.ensure_bind fun _ => Reaches.ensure_bind fun _ => ?_)
  refine Reaches.modify_bind (.single (.refl new r)) (Reaches.get_bind ?_)
  split
  · exact .of_readOnly (readOnly_ensure _)
  · exact Reaches.modify (.single ((Speaks.refl new _).emit _ (by simp)))

theorem acceptValidatedMessage_speaks (m : SignedMessage) :
    Reaches (Speaks new) (acceptValidatedMessage V m) r := by
  cases m with
  | proposal p =>
      refine Reaches.get_bind ?_
      split
      · split
        · split
          · exact .pure _
          · exact Reaches.modify (.single ((Speaks.refl new r).emit id (by simp)))
        · refine Reaches.modify_bind (.single (.refl new r)) ?_
          split
          · exact activateCurrentRound_speaks
          · exact .pure _
      · exact .pure _
  | vote v =>
      refine Reaches.get_bind ?_
      split
      · split
        · split
          · exact .pure _
          · exact Reaches.modify (.single ((Speaks.refl new r).emit id (by simp)))
        · exact Reaches.modify_bind (.single (.refl new r)) (evaluateRound_speaks _)
      · exact .pure _

theorem handleTimeout_speaks (t : Timeout) : Reaches (Speaks new) (handleTimeout V t) r := by
  have hcast : ∀ (kind : VoteKind) (round : Round), Reaches (Speaks new) (do
      modify (·.castVote kind .nil)
      evaluateRound V round) r := fun kind round =>
    Reaches.modify_bind (.single (speaks_castVote r kind .nil)) (evaluateRound_speaks round)
  refine Reaches.get_bind ?_
  split
  · split
    · exact hcast _ _
    · exact hcast _ _
    · exact Reaches.ensure_bind fun _ => enterRound_speaks _
    · exact .pure _
  · exact .pure _

/-- The only message that an event can bring out is the one that it says is stored. -/
theorem handle_speaks {e : Event} (he : ∀ m, e = .persisted m → new m) :
    Reaches (Speaks new) (handle V e) r := by
  have hlive : ∀ {x : EngineM Unit}, Reaches (Speaks new) x r → Reaches (Speaks new) (do
      ensure (r.consensus.started = true) .notStarted
      if r.consensus.finalized = none then x else return ()) r := by
    intro x hx
    refine Reaches.ensure_bind fun _ => ?_
    split
    · exact hx
    · exact .pure _
  refine Reaches.get_bind ?_
  cases e with
  | start =>
      refine Reaches.ensure_bind fun _ => Reaches.modify_bind (.single (.refl new r)) ?_
      exact enterRound_speaks _
  | certificate cert => exact Reaches.lift_bind fun _ _ => finalize_speaks cert
  | proposalReady height round block => exact hlive (proposalReady_speaks height round block)
  | message m =>
      refine hlive (Reaches.get_bind (Reaches.lift_bind fun _ _ => ?_))
      exact acceptValidatedMessage_speaks m
  | persisted m =>
      have hpublish : Speaks new r (r.publish m) := by
        intro m' hm'
        rcases List.mem_append.1 hm' with hold | hnew
        · exact .inl hold
        · cases List.mem_singleton.1 hnew
          exact .inr (he m rfl)
      refine hlive (Reaches.get_bind (Reaches.ensure_bind fun _ => Reaches.lift_bind fun _ _ => ?_))
      exact Reaches.modify_bind (.single hpublish) (acceptValidatedMessage_speaks m)
  | timeout t => exact hlive (handleTimeout_speaks t)

end Running

/-- A step asks for the broadcast of the message only that the event says is stored. -/
theorem Consensus.step_broadcast {c : Consensus} {V : MessageValidator} {e : Event}
    {effects : List Effect} (h : (c.step e V).1 = .ok effects) {m : SignedMessage}
    (hm : .broadcast m ∈ effects) : e = .persisted m := by
  have hspeaks : Running.Speaks (fun m => e = .persisted m) ⟨c, []⟩
      (EngineM.handle V e ⟨c, []⟩).state :=
    Running.Speaks.of_moves (Running.handle_speaks fun _ => id)
  unfold Consensus.step at h
  cases hr : EngineM.handle V e ⟨c, []⟩ with
  | error err r =>
      rw [hr] at h
      cases h
  | ok _ r =>
      rw [hr] at h hspeaks
      obtain rfl := Except.ok.inj h
      exact (hspeaks m hm).resolve_left List.not_mem_nil

/-! ## The signer table -/

/-- The row is that of the signed message. -/
structure PersistedConsensusDecision.Of (row : PersistedConsensusDecision) (m : SignedMessage) :
    Prop where
  slot : row.slot = signerSlot m.signable
  signature : row.signature = m.signature
  signedMessage : toVec m = some row.signedMessage

theorem PersistedConsensusDecision.Of.unique {row : PersistedConsensusDecision}
    {m m' : SignedMessage} (h : row.Of m) (h' : row.Of m') : m = m' :=
  toVec_inj h.signedMessage h'.signedMessage

/-- A message has bytes. -/
theorem PersistedConsensusDecision.Of.signedMessage_ne {row : PersistedConsensusDecision}
    {m : SignedMessage} (h : row.Of m) : row.signedMessage ≠ [] := by
  obtain ⟨-, hencode⟩ := toVec_eq_some.1 h.signedMessage
  rw [hencode]
  cases m <;> exact List.cons_ne_nil _ _

/-- The message is in the signer table. -/
def Store.Records (s : Store) (m : SignedMessage) : Prop := ∃ row ∈ s.signerState, row.Of m

/-- There is one row for each slot, and every row is that of a message. -/
structure Store.Booked (s : Store) : Prop where
  slots : (s.signerState.map (·.slot)).Nodup
  rows : ∀ row ∈ s.signerState, ∃ m, row.Of m

/-- The slot of a message is given by its height, its round and its kind. -/
theorem signerSlot_of_key {m m' : SignableMessage} (hheight : m.height = m'.height)
    (hkey : DecisionKey.ofSignable m = DecisionKey.ofSignable m') : signerSlot m = signerSlot m' := by
  cases m with
  | proposal p =>
      cases m' with
      | proposal p' =>
          have hround : p.round = p'.round := DecisionKey.proposal.inj hkey
          have hheight : p.height = p'.height := hheight
          simp only [signerSlot, hheight, hround]
      | vote v' => cases hkey
  | vote v =>
      cases m' with
      | proposal p' => cases hkey
      | vote v' =>
          obtain ⟨hround, hkind⟩ := DecisionKey.vote.inj hkey
          have hheight : v.height = v'.height := hheight
          simp only [signerSlot, hheight, hround, hkind]

namespace Store

variable {s s' : Store} {m m' : SignedMessage} {row : PersistedConsensusDecision}

theorem Booked.of_same (h : s.Booked) (hsigner : s'.signerState = s.signerState) : s'.Booked := by
  refine ⟨?_, ?_⟩
  · rw [hsigner]
    exact h.slots
  · rw [hsigner]
    exact h.rows

/-- A signer table that only grows keeps its messages. -/
theorem Records.mono (h : s.Records m) (hsigner : s.signerState <+: s'.signerState) :
    s'.Records m := by
  obtain ⟨row, hrow, hof⟩ := h
  exact ⟨row, hsigner.subset hrow, hof⟩

/-- One message is recorded for a slot. -/
theorem Booked.unique (h : s.Booked) (hm : s.Records m) (hm' : s.Records m')
    (hslot : signerSlot m.signable = signerSlot m'.signable) : m = m' := by
  obtain ⟨row, hrow, hof⟩ := hm
  obtain ⟨row', hrow', hof'⟩ := hm'
  have hsame : row.slot = row'.slot := by rw [hof.slot, hof'.slot, hslot]
  obtain rfl := List.inj_on_of_nodup_map h.slots hrow hrow' hsame
  exact hof.unique hof'

/-- A decision is stored with its message, and it is stored as it was if its slot is taken. -/
theorem Booked.persistConsensusDecision (h : s.Booked) (hrow : row.Of m) {signature : List UInt8}
    (hs : s.persistConsensusDecision row = .ok (signature, s')) :
    signature = row.signature ∧ s'.Booked ∧ s'.Records m ∧
      (s' = s ∨ s'.signerState = s.signerState ++ [row]) := by
  obtain ⟨height, -, hs⟩ := Except.bind_eq_ok.1 hs
  split at hs
  · next existing hfind =>
      have hexisting := List.mem_of_find?_eq_some hfind
      have hslot : existing.slot = row.slot := by simpa using List.find?_some hfind
      obtain ⟨first, hfirst⟩ := h.rows existing hexisting
      obtain ⟨_, -, hs⟩ := Except.bind_eq_ok.1 hs
      obtain ⟨_, -, hs⟩ := Except.bind_eq_ok.1 hs
      obtain ⟨_, hmessage, hs⟩ := Except.bind_eq_ok.1 hs
      have hsame : existing.signedMessage = row.signedMessage := by
        rcases Except.ensure_eq_ok.1 hmessage with hempty | hempty | hsame
        · exact absurd hempty hfirst.signedMessage_ne
        · exact absurd hempty hrow.signedMessage_ne
        · exact hsame
      have hagain : existing.Of m := by
        obtain rfl : first = m := by
          refine toVec_inj hfirst.signedMessage ?_
          rw [hsame]
          exact hrow.signedMessage
        exact hfirst
      rw [if_neg fun hempty => hfirst.signedMessage_ne hempty.1] at hs
      cases Except.pure_eq_ok.1 hs
      exact ⟨hagain.signature.trans hrow.signature.symm, h, ⟨existing, hexisting, hagain⟩, .inl rfl⟩
  · next hfind =>
      obtain ⟨_, -, hs⟩ := Except.bind_eq_ok.1 hs
      cases Except.pure_eq_ok.1 hs
      have hfree : ∀ r ∈ s.signerState, r.slot ≠ row.slot := by simpa using hfind
      refine ⟨rfl, ⟨?_, ?_⟩, ⟨row, by simp, hrow⟩, .inr rfl⟩
      · rw [List.map_append, List.nodup_append]
        refine ⟨h.slots, List.nodup_singleton _, fun slot hslot slot' hslot' => ?_⟩
        obtain ⟨r, hr, rfl⟩ := List.mem_map.1 hslot
        obtain rfl := List.mem_singleton.1 hslot'
        exact hfree r hr
      · intro r hr
        rcases List.mem_append.1 hr with hr | hr
        · exact h.rows r hr
        · obtain rfl := List.mem_singleton.1 hr
          exact ⟨m, hrow⟩

end Store

/-! ## What is read back after a crash -/

section
variable [Primitives] [Formats] {config : NodeConfig}

/-- A decision that is read back is the one in its row. -/
theorem of_validatePersistedDecision {row : PersistedConsensusDecision} {height : Height}
    {m : SignedMessage} (h : validatePersistedDecision row height = .ok m) : row.Of m := by
  simp only [validatePersistedDecision, Except.bind_eq_ok, Except.okOr_eq_ok, Except.ensure_eq_ok,
    exists_const, Except.pure_eq_ok] at h
  obtain ⟨signed, hsigned, -, -, signBytes, -, ⟨hsignature, -, hslot⟩, -, -, -, -, -, rfl⟩ := h
  obtain ⟨hfits, hencode⟩ := tryFromSlice_sound hsigned
  exact ⟨hslot.symm, hsignature.symm, toVec_eq_some.2 ⟨hfits, hencode⟩⟩

theorem records_of_restoreDecisions {height : Height} {c c' : Consensus}
    {decisions : List PersistedConsensusDecision} {messages : List SignedMessage}
    (h : restoreDecisions height c decisions = .ok (c', messages)) :
    ∀ m ∈ messages, ∃ row ∈ decisions, row.Of m := by
  induction decisions generalizing c messages with
  | nil =>
      cases h
      exact fun m hm => absurd hm List.not_mem_nil
  | cons decision rest ih =>
      obtain ⟨signed, hsigned, h⟩ := Except.bind_eq_ok.1 h
      obtain ⟨next, -, h⟩ := Except.bind_eq_ok.1 h
      obtain ⟨⟨c₁, messages₁⟩, hrest, h⟩ := Except.bind_eq_ok.1 h
      cases Except.pure_eq_ok.1 h
      intro m hm
      rcases List.mem_cons.1 hm with rfl | hm
      · exact ⟨decision, List.mem_cons_self, of_validatePersistedDecision hsigned⟩
      · obtain ⟨row, hrow, hof⟩ := ih hrest m hm
        exact ⟨row, List.mem_cons_of_mem _ hrow, hof⟩

omit [Primitives] [Formats] in
theorem message_of_rebroadcastWire {variants : BTreeMap (UInt32 × BlockId) Block}
    {m : SignedMessage} {wire : ConsensusWireMessage}
    (h : rebroadcastWire variants m = .ok wire) : wire.message = m := by
  cases m with
  | proposal p =>
      obtain ⟨block, -, h⟩ := Except.bind_eq_ok.1 h
      rw [← Except.pure_eq_ok.1 h]
      rfl
  | vote v =>
      rw [← Except.pure_eq_ok.1 h]
      rfl

/-- What a node sends again after a crash is in its signer table. -/
theorem records_of_initialize {store : Store} {ledger : LedgerState} {ids : List ValidatorId}
    {key : Option SigningKey} {recovery : ConsensusRecovery}
    (h : initializeConsensusRecovery config store ledger ids key = .ok recovery) :
    ∀ wire ∈ recovery.rebroadcastWires, store.Records wire.message := by
  intro wire hwire
  cases key with
  | none =>
      obtain rfl := Except.ok.inj h
      exact absurd hwire List.not_mem_nil
  | some key =>
      obtain ⟨validators, -, h⟩ := Except.bind_eq_ok.1 h
      cases hsafety : store.consensusSafety with
      | none =>
          rw [hsafety] at h
          obtain ⟨fresh, hfresh, h⟩ := Except.bind_eq_ok.1 h
          obtain rfl := Except.pure_eq_ok.1 h
          exact absurd hwire List.not_mem_nil
      | some safety =>
          rw [hsafety] at h
          simp only [recoverInterrupted, Except.bind_eq_ok, Except.mapError_eq_ok,
            Except.pure_eq_ok] at h
          obtain ⟨-, -, state, -, -, -, -, -, rows, -, recovered, -, -, -, -, -, -, -, c₀, -,
            last, -, -, -, ⟨c₁, messages⟩, hrestored, wires, hwires, rfl⟩ := h
          obtain ⟨m, hm, hwire⟩ := Except.exists_of_mem_mapM hwires wire hwire
          obtain ⟨row, hrow, hof⟩ := records_of_restoreDecisions hrestored m hm
          rw [message_of_rebroadcastWire hwire]
          exact ⟨row, (List.mem_filter.1 hrow).1, hof⟩

theorem startNode_records {store : Store} {network : Bool} {peers : BTreeSet PeerId}
    {time : Instant} {a : NodeActor} (h : startNode config store network peers time = .ok a) :
    ∀ wire ∈ a.recoveryBroadcasts, store.Records wire.message := by
  simp only [startNode, Except.bind_eq_ok, Except.pure_eq_ok, Except.mapError_eq_ok] at h
  obtain ⟨chainId, -, _, -, history, -, ledger, -, key, -, recovery, hrecovery, rfl⟩ := h
  exact records_of_initialize hrecovery

/-! ## Turns -/

variable {t u : Turn}

/-- The signer table of the turn is in order, and it has every message that the turn holds stored,
is about to send or has sent. -/
structure Turn.Honest (t : Turn) : Prop where
  booked : t.actor.store.Booked
  events : ∀ m, .persisted m ∈ t.events → t.actor.store.Records m
  effects : ∀ m, .broadcast m ∈ t.current.toList ++ t.effects → t.actor.store.Records m
  wires : ∀ w ∈ t.actor.recoveryBroadcasts ++ t.wires, t.actor.store.Records w.message
  sent : ∀ w, .consensus w ∈ t.trace → t.actor.store.Records w.message

namespace Turn.Honest

omit [Primitives] [Formats] in
/-- A commit that removes nothing from the signer table. -/
theorem stored (h : t.Honest) {store : Store} (hbooked : store.Booked)
    (hsigner : t.actor.store.signerState <+: store.signerState) : (t.stored store).Honest where
  booked := hbooked
  events m hm := (h.events m hm).mono hsigner
  effects m hm := (h.effects m hm).mono hsigner
  wires w hw := (h.wires w hw).mono hsigner
  sent w hw := by
    refine (h.sent w ((List.mem_append.1 hw).resolve_right fun hnew => ?_)).mono hsigner
    cases List.mem_singleton.1 hnew

omit [Primitives] [Formats] in
theorem pushed (h : t.Honest) {event : Event}
    (he : ∀ m, event = .persisted m → t.actor.store.Records m) : (t.pushed event).Honest where
  booked := h.booked
  events m hm := by
    rcases List.mem_append.1 hm with hm | hm
    · exact h.events m hm
    · exact he m (List.mem_singleton.1 hm).symm
  effects := h.effects
  wires := h.wires
  sent := h.sent

end Turn.Honest

/-- The row of a decision that the node signs is that of the message with its signature. -/
theorem NodeActor.Decides.of {a : NodeActor} {message : SignableMessage} {safetyState : SafetyState}
    {row : PersistedConsensusDecision} (h : a.Decides message safetyState row) :
    row.Of (KCoin.signedMessage message row.signature) :=
  ⟨by simpa using h.slot, by simp, h.signedMessage⟩

/-- A step of the driver keeps the signer table in order and removes nothing from it. -/
theorem Turn.Work.honest (h : t.Work u) (ht : t.Honest) :
    u.Honest ∧ t.actor.store.signerState <+: u.actor.store.signerState := by
  have hsame : t.actor.store.signerState <+: t.actor.store.signerState := List.prefix_refl _
  have hproposal : ∀ {row : PersistedConsensusProposal} {store : Store},
      t.actor.store.persistConsensusProposal row = .ok store →
      (t.stored store).Honest ∧ t.actor.store.signerState <+: store.signerState := by
    intro row store hstore
    have hsigner := (Store.persistConsensusProposal_safety hstore).2
    have hprefix : t.actor.store.signerState <+: store.signerState := by
      rw [hsigner]
    exact ⟨ht.stored (ht.booked.of_same hsigner) hprefix, hprefix⟩
  cases h with
  | begin event he =>
      refine ⟨⟨ht.booked, fun m hm => ?_, fun m hm => ?_, ht.wires, ht.sent⟩, hsame⟩
      · cases List.mem_singleton.1 hm
        exact he.elim
      · exact absurd hm (by simp)
  | step event rest consensus hevents hc =>
      refine ⟨⟨ht.booked, fun m hm => ht.events m ?_, fun m hm => ht.events m ?_, ht.wires,
        ht.sent⟩, hsame⟩
      · rw [hevents]
        exact List.mem_cons_of_mem _ hm
      · -- the engine broadcasts only what the event says is stored
        rw [Option.toList_none, List.nil_append] at hm
        cases hstep : (consensus.step event t.actor.messageValidator.validator).1 with
        | error err =>
            rw [hstep] at hm
            exact absurd hm List.not_mem_nil
        | ok effects =>
            rw [hstep] at hm
            rw [hevents, Consensus.step_broadcast hstep hm]
            exact List.mem_cons_self
  | take effect rest heffects =>
      refine ⟨⟨ht.booked, ht.events, fun m hm => ht.effects m ?_, ht.wires, ht.sent⟩, hsame⟩
      rw [heffects]
      exact List.mem_append_right _ hm
  | propose | learn => exact ⟨⟨ht.booked, ht.events, ht.effects, ht.wires, ht.sent⟩, hsame⟩
  | ready => exact ⟨ht.pushed (by simp), hsame⟩
  | storeProposal p safetyState decision block row store _ _ _ _ _ hstore => exact hproposal hstore
  | receive signed block row store _ _ hstore => exact hproposal hstore
  | storeDecision message safetyState row signature store _ hrow _ hstore =>
      obtain ⟨-, hbooked, -, hsigner⟩ := ht.booked.persistConsensusDecision hrow.of hstore
      have hprefix : t.actor.store.signerState <+: store.signerState := by
        rcases hsigner with rfl | hsigner
        · exact hsame
        · rw [hsigner]
          exact List.prefix_append _ _
      have hstored := ht.stored hbooked hprefix
      refine ⟨⟨hbooked, hstored.events, fun m hm => hstored.effects m ?_, hstored.wires,
        hstored.sent⟩, hprefix⟩
      exact List.mem_append_right _ hm
  | storeEvent kind bytes =>
      exact ⟨ht.stored (ht.booked.of_same rfl) hsame, hsame⟩
  | acknowledge message safetyState row signature hrow hstore =>
      obtain ⟨rfl, -, hrecords, -⟩ := ht.booked.persistConsensusDecision hrow.of hstore
      refine ⟨ht.pushed fun m hm => ?_, hsame⟩
      cases hm
      exact hrecords
  | broadcast message wire hcurrent hwire =>
      refine ⟨⟨ht.booked, ht.events, ht.effects, ht.wires, fun w hw => ?_⟩, hsame⟩
      rcases List.mem_append.1 hw with hw | hw
      · exact ht.sent w hw
      · obtain rfl : w = wire := Occurrence.consensus.inj (List.mem_singleton.1 hw)
        have hmessage : w.message = message := by cases hwire <;> rfl
        rw [hmessage]
        exact ht.effects message (by rw [hcurrent]; exact List.mem_append_left _ List.mem_cons_self)

theorem Turn.Move.honest (h : t.Move u) (ht : t.Honest) :
    u.Honest ∧ t.actor.store.signerState <+: u.actor.store.signerState := by
  have hsame : t.actor.store.signerState <+: t.actor.store.signerState := List.prefix_refl _
  cases h with
  | quiet hq =>
      have hs := hq.sameCore
      obtain ⟨-, hevents, hcurrent, heffects, hwires⟩ := hq.locals
      obtain ⟨os, hos, htrace⟩ := hq.trace
      refine ⟨⟨?_, ?_, ?_, ?_, fun w hw => ?_⟩, ?_⟩
      · rw [hs.store]
        exact ht.booked
      · rw [hs.store, hevents]
        exact ht.events
      · rw [hs.store, hcurrent, heffects]
        exact ht.effects
      · rw [hs.store, hs.recoveryBroadcasts, hwires]
        exact ht.wires
      · rw [hs.store]
        rw [htrace] at hw
        refine ht.sent w ((List.mem_append.1 hw).resolve_right fun hw => ?_)
        exact hos _ hw
      · rw [hs.store]
  | commit block certificate receipts candidate store live hc =>
      obtain ⟨_, _, projection, -, -, hstore⟩ := hc.store
      have hsigner := (Store.persistFinalized_safety hstore).2
      have hprefix : t.actor.store.signerState <+: store.signerState := by
        rw [hsigner]
      have hstored := ht.stored (ht.booked.of_same hsigner) hprefix
      exact ⟨⟨hstored.booked, hstored.events, hstored.effects, hstored.wires, hstored.sent⟩, hprefix⟩
  | clear =>
      refine ⟨⟨ht.booked, ht.events, ht.effects, fun w hw => ?_, ht.sent⟩, hsame⟩
      exact ht.wires w (List.mem_append_right _ hw)
  | renew | start => exact ⟨⟨ht.booked, ht.events, ht.effects, ht.wires, ht.sent⟩, hsame⟩
  | resume =>
      refine ⟨⟨ht.booked, ht.events, ht.effects, fun w hw => ?_, ht.sent⟩, hsame⟩
      exact ht.wires w (List.mem_append_left _ hw)
  | resend wire hwire =>
      refine ⟨⟨ht.booked, ht.events, ht.effects, ht.wires, fun w hw => ?_⟩, hsame⟩
      rcases List.mem_append.1 hw with hw | hw
      · exact ht.sent w hw
      · obtain rfl : w = wire := Occurrence.consensus.inj (List.mem_singleton.1 hw)
        exact ht.wires w (List.mem_append_right _ hwire)
  | resent wire rest hrest =>
      refine ⟨⟨ht.booked, ht.events, ht.effects, fun w hw => ht.wires w ?_, ht.sent⟩, hsame⟩
      rw [hrest]
      rcases List.mem_append.1 hw with hw | hw
      · exact List.mem_append_left _ hw
      · exact List.mem_append_right _ (List.mem_cons_of_mem _ hw)
  | work hd hw => exact hw.honest ht

theorem honest_of_moves (h : ReflTransGen Turn.Move t u) (ht : t.Honest) :
    u.Honest ∧ t.actor.store.signerState <+: u.actor.store.signerState := by
  induction h with
  | refl => exact ⟨ht, List.prefix_refl _⟩
  | tail _ hmove ih =>
      obtain ⟨hu, hprefix⟩ := hmove.honest ih.1
      exact ⟨hu, ih.2.trans hprefix⟩

/-! ## Every run -/

namespace Machine

variable {m m' : Machine}

/-- The signer table of the node is in order, and it has every message that the node sent or is about
to send again. -/
structure Honest (m : Machine) : Prop where
  booked : m.store.Booked
  sent : ∀ w ∈ m.published, m.store.Records w.message
  running : ∀ a, m.actor = some a → a.store = m.store ∧
    ∀ w ∈ a.recoveryBroadcasts, m.store.Records w.message

theorem Honest.begin (h : m.Honest) {a : NodeActor} (ha : m.Begins config a) (env : Environment) :
    (Turn.begin env a).Honest ∧ a.store = m.store := by
  have hactor : a.store = m.store ∧ ∀ w ∈ a.recoveryBroadcasts, m.store.Records w.message := by
    rcases ha with ha | ⟨network, peers, time, ha⟩
    · exact h.running a ha
    · exact ⟨(startNode_started ha).store_eq, startNode_records ha⟩
  obtain ⟨hstore, hwires⟩ := hactor
  refine ⟨⟨?_, fun m hm => ?_, fun m hm => ?_, fun w hw => ?_, fun w hw => ?_⟩, hstore⟩
  · change a.store.Booked
    rw [hstore]
    exact h.booked
  · exact absurd hm List.not_mem_nil
  · exact absurd hm List.not_mem_nil
  · change a.store.Records w.message
    rw [hstore]
    exact hwires w ((List.mem_append.1 hw).resolve_right List.not_mem_nil)
  · exact absurd hw List.not_mem_nil

omit [Primitives] [Formats] in
theorem mem_wires {trace : List Occurrence} {w : ConsensusWireMessage} :
    w ∈ trace.filterMap Occurrence.wire? ↔ .consensus w ∈ trace := by
  rw [List.mem_filterMap]
  constructor
  · rintro ⟨o, ho, hwire⟩
    cases o with
    | consensus w' =>
        obtain rfl := Option.some.inj hwire
        exact ho
    | _ => cases hwire
  · exact fun ho => ⟨_, ho, rfl⟩

/-- A turn that is finished, or cut off by a crash, leaves every message that was sent in the signer
table, and removes nothing from it. -/
theorem Honest.step (h : m.Honest) (hstep : Step config m m') :
    m'.Honest ∧ m.store.signerState <+: m'.store.signerState := by
  cases hstep with
  | finish t ht =>
      obtain ⟨env, a, ha, hpath⟩ := ht.moves
      obtain ⟨hbegin, hstore⟩ := h.begin ha env
      obtain ⟨hend, hprefix⟩ := honest_of_moves hpath hbegin
      have hprefix : m.store.signerState <+: t.actor.store.signerState := hstore ▸ hprefix
      refine ⟨⟨hend.booked, fun w hw => ?_, ?_⟩, hprefix⟩
      · rcases List.mem_append.1 hw with hw | hw
        · exact (h.sent w hw).mono hprefix
        · exact hend.sent w (mem_wires.1 hw)
      · rintro _ ⟨⟩
        exact ⟨rfl, fun w hw => hend.wires w (List.mem_append_left _ hw)⟩
  | crash t trace ht hto =>
      obtain ⟨env, a, ha, hpath⟩ := ht.moves
      obtain ⟨hbegin, hstore⟩ := h.begin ha env
      obtain ⟨u, os, hu, hos, heq⟩ := crash_point hpath (show [] ++ trace <+: _ from hto)
      obtain ⟨hend, hprefix⟩ := honest_of_moves hu hbegin
      have htrace : trace = u.trace ++ os := heq
      have hleft : (m.crashed trace).store = u.actor.store := by
        change m.store.after trace = _
        rw [htrace, Store.after_append, Store.after_other _ hos]
        exact (store_of_moves hstore hu).symm
      have hprefix : m.store.signerState <+: u.actor.store.signerState := hstore ▸ hprefix
      rw [hleft]
      refine ⟨⟨by rw [hleft]; exact hend.booked, fun w hw => ?_, fun a ha => by cases ha⟩, hprefix⟩
      rw [hleft]
      rcases List.mem_append.1 hw with hw | hw
      · exact (h.sent w hw).mono hprefix
      · rw [mem_wires, htrace] at hw
        refine hend.sent w ((List.mem_append.1 hw).resolve_right fun hw => ?_)
        exact hos _ hw

/-- What a node can come to when it may be started with another configuration after each crash. -/
def Operated (m : Machine) : Prop :=
  ReflTransGen (fun m m' => ∃ config, Step config m m') created m

theorem Operated.refl : Operated created := ReflTransGen.refl

theorem Operated.step (h : Operated m) (hstep : Step config m m') : Operated m' :=
  ReflTransGen.tail h ⟨config, hstep⟩

theorem Operated.honest (h : Operated m) : m.Honest := by
  induction h with
  | refl =>
      exact ⟨⟨List.nodup_nil, fun _ hrow => absurd hrow List.not_mem_nil⟩,
        fun _ hw => absurd hw List.not_mem_nil, fun a ha => by cases ha⟩
  | tail _ hstep ih =>
      obtain ⟨config, hstep⟩ := hstep
      exact (ih.step hstep).1

/-- Whatever happened to a node, however often it crashed and with whatever configurations it was
started again, each message that it ever sent is in its signer table with its signature, and for each
height, round and kind of message it sent one message with one signature at most. -/
theorem one_message_per_slot (h : Operated m) :
    (∀ w ∈ m.published, m.store.Records w.message) ∧
    ∀ w ∈ m.published, ∀ w' ∈ m.published,
      w.message.signable.height = w'.message.signable.height →
      DecisionKey.ofSignable w.message.signable = DecisionKey.ofSignable w'.message.signable →
      w.message = w'.message := by
  refine ⟨h.honest.sent, fun w hw w' hw' hheight hkey => ?_⟩
  exact h.honest.booked.unique (h.honest.sent w hw) (h.honest.sent w' hw')
    (signerSlot_of_key hheight hkey)

end Machine

end

section
open scoped Sample
open Sample

namespace Machine

/-- A validator that votes for a proposal of the first round, crashes, and starts again. -/
def restarted : Option Machine := do
  let a ← (startNode validatorNode .empty true ∅ 0).toOption
  let first ← proposalAt a 5
  let begun := created.finished (NodeM.boot (Turn.begin environment a)).state
  let b ← begun.actor
  let voted := begun.finished (NodeM.handleCommand (.consensusMessage (.proposal first.1 first.2))
    (Turn.begin environment b)).state
  let again ← (startNode validatorNode voted.store true ∅ 0).toOption
  return (voted.crashed []).finished (NodeM.boot (Turn.begin environment again)).state

theorem restarted_operated {m : Machine} (h : restarted = some m) : Operated m := by
  simp only [restarted, bind, pure, Option.bind_eq_some_iff, Option.some.injEq] at h
  obtain ⟨a, ha, first, -, b, hb, again, hagain, rfl⟩ := h
  have hbegun := Operated.refl.step (@Step.finish _ _ validatorNode _ _
    (.boot environment true ∅ 0 a rfl (Except.toOption_eq_some.1 ha)))
  have hvoted := hbegun.step (@Step.finish _ _ validatorNode _ _ (.command environment
    (.consensusMessage (.proposal first.1 first.2)) b hb))
  have hcrashed := hvoted.step (@Step.crash _ _ validatorNode _ _ [] (.command environment .tick _ rfl)
    (List.nil_prefix))
  exact hcrashed.step (@Step.finish _ _ validatorNode _ _
    (.boot environment true ∅ 0 again rfl (Except.toOption_eq_some.1 hagain)))

/-- The vote is sent once before the crash and once after it, and it is the same vote. -/
theorem one_message_per_slot_restarted : ∃ m w w', restarted = some m ∧
    m.published[0]? = some w ∧ m.published[1]? = some w' ∧ w.message = w'.message := by
  have hrun : restarted.any fun m =>
      (m.published[0]?).any fun w => (m.published[1]?).any fun w' =>
        decide (w.message.signable.height = w'.message.signable.height ∧
          DecisionKey.ofSignable w.message.signable = DecisionKey.ofSignable w'.message.signable) := by
    decide +kernel
  obtain ⟨m, hm, hrun⟩ := (Option.any_eq_true ..).1 hrun
  obtain ⟨w, hw, hrun⟩ := (Option.any_eq_true ..).1 hrun
  obtain ⟨w', hw', hrun⟩ := (Option.any_eq_true ..).1 hrun
  obtain ⟨hheight, hkey⟩ := of_decide_eq_true hrun
  exact ⟨m, w, w', hm, hw, hw', (one_message_per_slot (restarted_operated hm)).2 w
    (List.mem_of_getElem? hw) w' (List.mem_of_getElem? hw') hheight hkey⟩

end Machine

end

end KCoin
