import KCoin.Node.Certificates
import KCoin.Node.Safety
import KCoin.Node.Sample

/-!
# Double proposals

The engine reports a second proposal of a round as evidence. But a node hands a proposal to its engine
only after it stored it, the store takes one proposal for a height and round, and the engine caches
no other. So the second proposal fails before it reaches the engine (`NodeM.second_proposal`), and no
run of a node ever records a double proposal (`Machine.double_proposals_unrecorded`).
-/

open Std Relation EStateM Borsh

namespace KCoin

/-! ## What the engine caches -/

/-- The event brings the proposal to the engine. -/
def Event.Carries (e : Event) (p : SignedProposal) : Prop :=
  e = .message (.proposal p) ∨ e = .persisted (.proposal p)

namespace Running

open EngineM Consensus

variable {V : MessageValidator} {r r' r'' : Running} {new : SignedProposal → Prop}

/-- The cached proposals were cached before, or are among the new ones. -/
def Caches (new : SignedProposal → Prop) (r r' : Running) : Prop :=
  ∀ (round : Round) (p : SignedProposal), r'.consensus.proposals[round]? = some p →
    r.consensus.proposals[round]? = some p ∨ new p

theorem Caches.of_eq (h : r'.consensus.proposals = r.consensus.proposals) : Caches new r r' := by
  intro round p hp
  rw [h] at hp
  exact .inl hp

theorem Caches.of_moves (h : ReflTransGen (Caches new) r r') : Caches new r r' := by
  induction h with
  | refl => exact .of_eq rfl
  | tail _ hm ih =>
      intro round p hp
      rcases hm round p hp with hp | hnew
      · exact ih round p hp
      · exact .inr hnew

theorem caches_of_evaluated {α : Type} {x : EngineM α} (h : Reaches Evaluated x r) :
    Reaches (Caches new) x r :=
  .single (.of_eq (Evaluated.of_moves h).proposals)

theorem enterRound_caches (round : Round) : Reaches (Caches new) (enterRound V round) r := by
  have hbegin : Caches new r (r.beginRound round) := by
    intro k p hp
    have hp : (r.consensus.proposals.filter _)[k]? = some p := hp
    rw [ExtTreeMap.getElem?_filter', Option.filter_eq_some_iff] at hp
    exact .inl hp.1
  refine Reaches.get_bind (Reaches.ensure_bind fun _ => ?_)
  refine Reaches.modify_bind (.single hbegin) (Reaches.get_bind ?_)
  split
  · exact caches_of_evaluated activateCurrentRound_evaluated
  · split
    · exact Reaches.modify (.single (.of_eq rfl))
    · exact .pure _

theorem proposalReady_caches (height : Height) (round : Round) (block : BlockId) :
    Reaches (Caches new) (proposalReady height round block) r := by
  refine Reaches.get_bind (Reaches.ensure_bind fun _ => Reaches.ensure_bind fun _ => ?_)
  refine Reaches.modify_bind (.single (.of_eq rfl)) (Reaches.get_bind ?_)
  split
  · exact .of_readOnly (readOnly_ensure _)
  · exact Reaches.modify (.single (.of_eq rfl))

theorem handleTimeout_caches (t : Timeout) : Reaches (Caches new) (handleTimeout V t) r := by
  have hcast : ∀ (kind : VoteKind) (round : Round), Reaches (Caches new) (do
      modify (·.castVote kind .nil)
      evaluateRound V round) r := by
    intro kind round
    exact Reaches.modify_bind (.single (.of_eq (evaluated_castVote r kind .nil).proposals))
      (caches_of_evaluated (evaluateRound_evaluated round))
  refine Reaches.get_bind ?_
  split
  · split
    · exact hcast _ _
    · exact hcast _ _
    · exact Reaches.ensure_bind fun _ => enterRound_caches _
    · exact .pure _
  · exact .pure _

theorem acceptValidatedMessage_caches {m : SignedMessage} (hm : ∀ p, m = .proposal p → new p) :
    Reaches (Caches new) (acceptValidatedMessage V m) r := by
  refine .single ?_
  cases hround : r.consensus.roundIsCacheable m.signable.round with
  | false =>
      rw [acceptValidatedMessage_outside hround]
      exact .of_eq rfl
  | true =>
      cases m with
      | proposal p =>
          show Caches new r (acceptProposal V p r).state
          cases hcached : r.consensus.proposals[p.proposal.round]? with
          | some first =>
              rw [acceptProposal_of_cached hround hcached]
              show Caches new r (if _ then _ else _)
              split <;> exact .of_eq rfl
          | none =>
              intro round q hq
              rw [(acceptProposal_of_free (V := V) hround hcached).proposals] at hq
              have hq : (r.consensus.proposals.insert p.proposal.round p)[round]? = some q := hq
              rw [ExtTreeMap.getElem?_insert] at hq
              split at hq
              · cases hq
                exact .inr (hm p rfl)
              · exact .inl hq
      | vote v =>
          show Caches new r (acceptVote V v r).state
          cases hcached : (r.consensus.votesBy v.vote.round v.vote.kind)[v.vote.validator]? with
          | some first =>
              rw [acceptVote_of_cached hround hcached]
              show Caches new r (if _ then _ else _)
              split <;> exact .of_eq rfl
          | none =>
              exact .of_eq (acceptVote_of_free (V := V) hround hcached).proposals

/-- The engine caches no proposal but the one an event brings. -/
theorem handle_caches {e : Event} (he : ∀ p, e.Carries p → new p) :
    Reaches (Caches new) (handle V e) r := by
  have hlive : ∀ {x : EngineM Unit}, Reaches (Caches new) x r → Reaches (Caches new) (do
      ensure (r.consensus.started = true) .notStarted
      if r.consensus.finalized = none then x else return ()) r := by
    intro x hx
    refine Reaches.ensure_bind fun _ => ?_
    split
    · exact hx
    · exact .pure _
  refine Reaches.get_bind ?_
  cases e with
  | start =>
      refine Reaches.ensure_bind fun _ => Reaches.modify_bind (.single (.of_eq rfl)) ?_
      exact enterRound_caches _
  | certificate cert =>
      exact Reaches.lift_bind fun _ _ => caches_of_evaluated (finalize_evaluated cert)
  | proposalReady height round block => exact hlive (proposalReady_caches height round block)
  | message m =>
      refine hlive (Reaches.get_bind (Reaches.lift_bind fun _ _ => ?_))
      exact acceptValidatedMessage_caches fun p hp => he p (.inl (congrArg _ hp))
  | persisted m =>
      refine hlive (Reaches.get_bind (Reaches.ensure_bind fun _ => Reaches.lift_bind fun _ _ => ?_))
      refine Reaches.modify_bind (.single (.of_eq rfl)) ?_
      exact acceptValidatedMessage_caches fun p hp => he p (.inr (congrArg _ hp))
  | timeout t => exact hlive (handleTimeout_caches t)

end Running

/-- After a step the engine caches what it cached before, and the proposal that the event brought. -/
theorem Consensus.step_proposals {c : Consensus} {V : MessageValidator} {e : Event} {round : Round}
    {p : SignedProposal} (h : (c.step e V).2.proposals[round]? = some p) :
    c.proposals[round]? = some p ∨ e.Carries p := by
  have hcaches := Running.Caches.of_moves
    (Running.handle_caches (V := V) (r := ⟨c, []⟩) (e := e) fun _ => id)
  rw [Consensus.step_state] at h
  exact hcaches round p h

section
variable [Primitives]

/-! ## An engine whose proposals are stored -/

/-- The proposal that the event brings, if it brings one, is stored. -/
def Event.Stored (s : Store) (e : Event) : Prop := ∀ p, e.Carries p → s.HasProposal p

/-- The engine of a node: it was used in a session with Ed25519 validation, and the proposals that it
caches are stored. -/
structure Consensus.Backed (s : Store) (c : Consensus) : Prop where
  session : ∃ returned, (⟨c, returned⟩ : Session).Reachable fun V _ _ => V.UsesEd25519
  stored : ∀ (round : Round) (p : SignedProposal), c.proposals[round]? = some p → s.HasProposal p

namespace Consensus.Backed

variable {s s' : Store} {c : Consensus} {V : MessageValidator} {e : Event}

theorem mono (h : c.Backed s) (hs : ∀ p, s.HasProposal p → s'.HasProposal p) : c.Backed s' :=
  ⟨h.session, fun round p hp => hs p (h.stored round p hp)⟩

theorem step (h : c.Backed s) (hV : V.UsesEd25519) (he : e.Stored s) : (c.step e V).2.Backed s := by
  obtain ⟨returned, hr⟩ := h.session
  refine ⟨⟨_, hr.step (V := V) (e := e) hV⟩, fun round p hp => ?_⟩
  rcases step_proposals hp with hold | hnew
  · exact h.stored round p hold
  · exact he p hnew

/-- An engine that is only brought stored proposals finds no double proposal. -/
theorem no_double_proposal (h : c.Backed s) (he : e.Stored s) {effects : List Effect}
    (hs : (c.step e V).1 = .ok effects) (proposer : ValidatorId) (first second : SignedProposal) :
    .evidence (.doubleProposal proposer first second) ∉ effects := by
  intro hmem
  obtain ⟨-, hbrings, hvalid, hcached, hne, -⟩ := step_evidence hs hmem
  obtain ⟨returned, hr⟩ := h.session
  have hvetted := hr.vetted (Q := fun _ => True) fun _ _ _ _ => trivial
  obtain ⟨p, hp, heq⟩ := Option.map_eq_some_iff.1 hcached
  obtain rfl : p = first := SignedMessage.proposal.inj heq
  obtain ⟨hround, _, -, hfirst⟩ := hvetted.proposals _ p hp
  obtain ⟨-, hheight, -⟩ := hfirst.context
  obtain ⟨-, hheight', -⟩ := context_of_validateMessage hvalid
  have hsecond : s.HasProposal second := by
    refine he second ?_
    rcases hbrings with hbrings | ⟨hbrings, -⟩
    · exact .inl hbrings
    · exact .inr hbrings
  refine hne (congrArg SignedMessage.proposal ?_)
  exact (h.stored _ p hp).unique hsecond (hheight.trans hheight'.symm) hround

end Consensus.Backed

/-! ## Stores without double proposals -/

variable [Formats] {config : NodeConfig}

/-- The signatures in the store are by the key of the node, and all evidence in its log is of double
votes. -/
structure Store.Clean (config : NodeConfig) (s : Store) : Prop where
  signed : ∀ key, localKey config = .ok (some key) → ∀ row ∈ s.signerState,
    row.signature = (Primitives.sign key row.signBytes).toList
  log : ∀ bytes, ("evidence", bytes) ∈ s.consensusWal → ∃ validator first second,
    bytes = utf8 (Formats.evidenceToText (.doubleVote validator first second))

namespace Store.Clean

variable {s s' : Store}

theorem of_same (h : s.Clean config) (hsigner : s'.signerState = s.signerState)
    (hlog : s'.consensusWal = s.consensusWal) : s'.Clean config := by
  refine ⟨?_, ?_⟩
  · rw [hsigner]
    exact h.signed
  · rw [hlog]
    exact h.log

theorem appendConsensusEvent (h : s.Clean config) {kind : String} {bytes : List UInt8}
    (hevidence : kind = "evidence" → ∃ validator first second,
      bytes = utf8 (Formats.evidenceToText (.doubleVote validator first second))) :
    (s.appendConsensusEvent kind bytes).Clean config := by
  refine ⟨h.signed, fun written hwritten => ?_⟩
  rcases List.mem_append.1 hwritten with hold | hnew
  · exact h.log written hold
  · obtain ⟨hkind, hbytes⟩ := Prod.mk.inj (List.mem_singleton.1 hnew)
    rw [hbytes]
    exact hevidence hkind.symm

theorem persistConsensusProposal (h : s.Clean config) {row : PersistedConsensusProposal}
    (hs : s.persistConsensusProposal row = .ok s') : s'.Clean config := by
  obtain ⟨_, -, hs⟩ := Except.bind_eq_ok.1 hs
  split at hs
  · obtain ⟨_, -, hs⟩ := Except.bind_eq_ok.1 hs
    obtain rfl := Except.pure_eq_ok.1 hs
    exact h
  · obtain rfl := Except.pure_eq_ok.1 hs
    exact h.of_same rfl rfl

/-- A decision with a signature by the key of the node is stored with that signature. -/
theorem persistConsensusDecision (h : s.Clean config) {key : SigningKey}
    (hkey : localKey config = .ok (some key)) {row : PersistedConsensusDecision}
    (hrow : row.signature = (Primitives.sign key row.signBytes).toList) {signature : List UInt8}
    (hs : s.persistConsensusDecision row = .ok (signature, s')) :
    signature = row.signature ∧ s'.Clean config := by
  obtain ⟨height, -, hs⟩ := Except.bind_eq_ok.1 hs
  split at hs
  · next existing hfind =>
      have hexisting := h.signed key hkey existing (List.mem_of_find?_eq_some hfind)
      obtain ⟨_, hbytes, hs⟩ := Except.bind_eq_ok.1 hs
      obtain ⟨_, -, hs⟩ := Except.bind_eq_ok.1 hs
      obtain ⟨_, -, hs⟩ := Except.bind_eq_ok.1 hs
      rw [Except.ensure_eq_ok.1 hbytes, ← hrow] at hexisting
      split at hs
      · cases Except.pure_eq_ok.1 hs
        refine ⟨hexisting, fun key hkey r hr => ?_, h.log⟩
        obtain ⟨r, hmem, rfl⟩ := List.mem_map.1 hr
        have hsigned := h.signed key hkey r hmem
        split <;> exact hsigned
      · cases Except.pure_eq_ok.1 hs
        exact ⟨hexisting, h⟩
  · obtain ⟨_, -, hs⟩ := Except.bind_eq_ok.1 hs
    cases Except.pure_eq_ok.1 hs
    refine ⟨rfl, fun key' hkey' r hr => ?_, h.log⟩
    rcases List.mem_append.1 hr with hr | hr
    · exact h.signed key' hkey' r hr
    · obtain rfl := List.mem_singleton.1 hr
      obtain rfl := Option.some.inj (Except.ok.inj (hkey.symm.trans hkey'))
      exact hrow

end Store.Clean

/-! ## Turns without double proposals -/

variable {t u : Turn}

/-- The stores of the turn are clean, its engine caches stored proposals, and the events that are
still to be handled bring only such. -/
structure Turn.Grounded (config : NodeConfig) (t : Turn) : Prop where
  key : localKey config = .ok t.actor.localValidatorKey
  clean : t.actor.store.Clean config
  past : ∀ s, .committed s ∈ t.trace → s.Clean config
  engine : ∀ c ∈ t.actor.consensus, c.Backed t.actor.store
  events : ∀ e ∈ t.events, e.Stored t.actor.store

namespace Turn.Grounded

/-- A change that concerns neither the store nor the engine. -/
theorem of_same (h : t.Grounded config)
    (hkey : u.actor.localValidatorKey = t.actor.localValidatorKey)
    (hstore : u.actor.store = t.actor.store) (hconsensus : u.actor.consensus = t.actor.consensus)
    (hevents : u.events = t.events)
    (htrace : ∀ s, .committed s ∈ u.trace → .committed s ∈ t.trace) : u.Grounded config := by
  refine ⟨?_, ?_, fun s hs => h.past s (htrace s hs), ?_, ?_⟩
  · rw [hkey]
    exact h.key
  · rw [hstore]
    exact h.clean
  · rw [hstore, hconsensus]
    exact h.engine
  · rw [hstore, hevents]
    exact h.events

/-- A commit to the store that leaves the stored proposals. -/
theorem stored (h : t.Grounded config) {store : Store}
    (hmono : ∀ p, t.actor.store.HasProposal p → store.HasProposal p) (hclean : store.Clean config) :
    (t.stored store).Grounded config := by
  refine ⟨h.key, hclean, fun s hs => ?_, fun c hc => (h.engine c hc).mono hmono,
    fun e he p hp => hmono p (h.events e he p hp)⟩
  rcases List.mem_append.1 hs with hs | hs
  · exact h.past s hs
  · cases List.mem_singleton.1 hs
    exact hclean

theorem pushed (h : t.Grounded config) {event : Event} (he : event.Stored t.actor.store) :
    (t.pushed event).Grounded config := by
  refine ⟨h.key, h.clean, h.past, h.engine, fun e hmem => ?_⟩
  rcases List.mem_append.1 hmem with hmem | hmem
  · exact h.events e hmem
  · obtain rfl := List.mem_singleton.1 hmem
    exact he

/-- Another engine. -/
theorem exchange (h : t.Grounded config) {c : Consensus} (hc : c.Backed t.actor.store) :
    (t.withActor { t.actor with consensus := some c }).Grounded config := by
  refine ⟨h.key, h.clean, h.past, ?_, h.events⟩
  rintro _ ⟨⟩
  exact hc

end Turn.Grounded

/-- The stored proposals remain, and a turn without double proposals remains one. -/
structure Turn.Keeps (config : NodeConfig) (t u : Turn) : Prop where
  stored : ∀ p, t.actor.store.HasProposal p → u.actor.store.HasProposal p
  grounded : t.Grounded config → u.Grounded config

namespace NodeM

variable {α : Type} {x : NodeM α}

theorem Keeps.of_path (h : ReflTransGen (Turn.Keeps config) t u) : t.Keeps config u := by
  induction h with
  | refl => exact ⟨fun _ => id, id⟩
  | tail _ hlast ih =>
      exact ⟨fun p hp => hlast.stored p (ih.stored p hp), fun h => hlast.grounded (ih.grounded h)⟩

theorem Keeps.of_ok (h : Reaches (Turn.Keeps config) x t) {a : α} (hu : x t = .ok a u) :
    t.Keeps config u := by
  rw [Reaches, hu] at h
  exact Keeps.of_path h

/-- A change that concerns neither the store nor the engine. -/
theorem keeps_of_same (hkey : u.actor.localValidatorKey = t.actor.localValidatorKey)
    (hstore : u.actor.store = t.actor.store) (hconsensus : u.actor.consensus = t.actor.consensus)
    (hevents : u.events = t.events)
    (htrace : ∀ s, .committed s ∈ u.trace → .committed s ∈ t.trace) : t.Keeps config u := by
  refine ⟨?_, fun h => h.of_same hkey hstore hconsensus hevents htrace⟩
  rw [hstore]
  exact fun _ => id

theorem keeps_quiet (h : t.Quiet u) : t.Keeps config u := by
  have hs := h.sameCore
  obtain ⟨os, hos, htrace⟩ := h.trace
  refine keeps_of_same hs.localValidatorKey hs.store hs.consensus h.locals.2.1 fun s hmem => ?_
  rw [htrace] at hmem
  rcases List.mem_append.1 hmem with hmem | hmem
  · exact hmem
  · exact (hos _ hmem).elim

theorem Reading.keeps (h : Reading x) (t : Turn) : Reaches (Turn.Keeps config) x t :=
  reaches_mono (fun _ _ => keeps_quiet) (h.reaches t)

/-- A commit to the store. -/
theorem keeps_stored {store : Store}
    (hmono : ∀ p, t.actor.store.HasProposal p → store.HasProposal p)
    (hclean : t.Grounded config → store.Clean config) : t.Keeps config (t.stored store) :=
  ⟨hmono, fun h => h.stored hmono (hclean h)⟩

theorem keeps_said (asked : Nat) : t.Keeps config (t.said asked []) :=
  keeps_quiet (.say t asked [] fun _ => nofun)

theorem keeps_writeStore {g : Store → Except StorageError (α × Store)}
    (hmono : ∀ a store, g t.actor.store = .ok (a, store) →
      ∀ p, t.actor.store.HasProposal p → store.HasProposal p)
    (hclean : ∀ a store, g t.actor.store = .ok (a, store) → t.Grounded config →
      store.Clean config) : Reaches (Turn.Keeps config) (writeStore g) t := by
  rcases writeStore_cases g t with ⟨e, asked, he⟩ | ⟨asked, a, store, ha, hu⟩
  · rw [Reaches, he]
    exact .single (keeps_said asked)
  · rw [Reaches, hu]
    refine .tail (.single (keeps_said asked)) (keeps_stored (hmono a store ha) fun h => ?_)
    exact hclean a store ha (h.of_same rfl rfl rfl rfl fun s hs => List.mem_append_left _ hs)

theorem keeps_appendConsensusEvent {kind : String} {bytes : List UInt8}
    (h : kind = "evidence" → ∃ validator first second,
      bytes = utf8 (Formats.evidenceToText (.doubleVote validator first second))) :
    Reaches (Turn.Keeps config) (appendConsensusEvent kind bytes) t := by
  refine keeps_writeStore ?_ ?_
  · rintro _ _ ⟨⟩ p hp
    exact hp
  · rintro _ _ ⟨⟩ hg
    exact hg.clean.appendConsensusEvent h

theorem keeps_storeProposal (row : PersistedConsensusProposal) :
    Reaches (Turn.Keeps config)
      (writeStore fun s => (s.persistConsensusProposal row).map ((), ·)) t := by
  refine keeps_writeStore (fun _ store hs p hp => ?_) fun _ store hs hg => ?_
  · exact hp.persist (Except.map_pair_eq_ok.1 hs).1
  · exact hg.clean.persistConsensusProposal (Except.map_pair_eq_ok.1 hs).1

theorem keeps_persistLocalProposal (m : SignedMessage) :
    Reaches (Turn.Keeps config) (persistLocalProposal m) t := by
  cases m with
  | vote v => exact .pure _
  | proposal p =>
      refine reaches_actor_bind <| reaches_okOr_bind fun block _ => .lift_bind fun row _ => ?_
      exact keeps_storeProposal row

/-- A decision that the node signed. -/
theorem keeps_persistDecision {row : PersistedConsensusDecision} {key : SigningKey}
    (hkey : t.actor.localValidatorKey = some key)
    (hrow : row.signature = (Primitives.sign key row.signBytes).toList) :
    Reaches (Turn.Keeps config) (persistDecision row) t := by
  rcases persistDecision_cases row t with ⟨e, asked, he⟩ | ⟨asked, signature, store, hs, hu⟩
  · rw [Reaches, he]
    exact .single (keeps_said asked)
  · rw [Reaches, hu]
    have hstored : (t.said asked []).Keeps config ((t.said asked []).stored store) := by
      refine keeps_stored (fun p hp => ?_) fun hg => ?_
      · exact hp.of_same (Store.persistConsensusDecision_proposals hs)
      · have hkey : localKey config = .ok (some key) := hg.key.trans (congrArg _ hkey)
        exact (hg.clean.persistConsensusDecision hkey hrow hs).2
    refine .tail (.tail (.single (keeps_said asked)) hstored) ?_
    exact keeps_of_same rfl rfl rfl rfl fun _ => id

theorem keeps_signAndPersist (message : SignableMessage) (safetyState : SafetyState) :
    Reaches (Turn.Keeps config) (signAndPersist message safetyState) t := by
  refine reaches_actor_bind <| reaches_okOr_bind fun key hkey => .ensure_bind fun _ => ?_
  refine reaches_okOr_bind fun signBytes _ => reaches_okOr_bind fun encoded _ => ?_
  refine (keeps_persistLocalProposal _).bind fun _ u hu => ?_
  have hkey : u.actor.localValidatorKey = some key := (persistLocalProposal_stored hu).2.1.trans hkey
  refine Reaches.bind (keeps_persistDecision hkey rfl) fun signature v _ => ?_
  refine reaches_okOr_bind fun bytes _ => ?_
  exact (keeps_appendConsensusEvent fun h => absurd h (by decide)).bind fun _ _ _ => .pure _

/-- The message that the node signed is stored, if it is a proposal. -/
theorem signAndPersist_stored {message : SignableMessage} {safetyState : SafetyState}
    {signed : SignedMessage} (h : signAndPersist message safetyState t = .ok signed u)
    (hg : u.Grounded config) : (Event.persisted signed).Stored u.actor.store := by
  obtain ⟨row, signature, hdecides, hstored, rfl, hproposal⟩ := signAndPersist_eq_ok h
  obtain ⟨key, signBytes, hkey, -, -, hbytes, hsignature⟩ := hdecides.signed
  have hlocal : localKey config = .ok (some key) := hg.key.trans (congrArg _ hkey)
  rw [← hbytes] at hsignature
  obtain ⟨rfl, -⟩ := hg.clean.persistConsensusDecision hlocal hsignature hstored
  rintro p (hp | hp)
  · cases hp
  · cases message with
    | vote v => cases hp
    | proposal body =>
        cases hp
        exact hproposal body rfl

theorem keeps_pushEvent {event : Event} (h : t.Grounded config → event.Stored t.actor.store) :
    Reaches (Turn.Keeps config) (pushEvent event) t :=
  .modify (.single ⟨fun _ => id, fun hg => hg.pushed (h hg)⟩)

/-- A change of the actor outside its store and its engine. -/
theorem keeps_update {g : NodeActor → NodeActor}
    (hkey : (g t.actor).localValidatorKey = t.actor.localValidatorKey)
    (hstore : (g t.actor).store = t.actor.store)
    (hconsensus : (g t.actor).consensus = t.actor.consensus) :
    Reaches (Turn.Keeps config) (update g) t :=
  reaches_update (keeps_of_same hkey hstore hconsensus rfl fun _ => id)

theorem keeps_publishConsensusWire (wire : ConsensusWireMessage) :
    Reaches (Turn.Keeps config) (publishConsensusWire wire) t := by
  refine reaches_actor_bind ?_
  split
  · refine reaches_okOr_bind fun _ _ => .modify (.single (keeps_of_same rfl rfl rfl rfl ?_))
    intro s hs
    exact (List.mem_append.1 hs).resolve_right fun hs => by cases List.mem_singleton.1 hs
  · exact .pure _

theorem keeps_broadcastConsensus (message : SignedMessage) :
    Reaches (Turn.Keeps config) (broadcastConsensus message) t := by
  cases message with
  | proposal p =>
      exact reaches_actor_bind <| reaches_okOr_bind fun block _ => keeps_publishConsensusWire _
  | vote v => exact keeps_publishConsensusWire _

/-- A block that is committed has no part in proposals and decisions. -/
theorem keeps_commitFinalized (block : Block) (certificate : CommitCertificate) (gossip : Bool) :
    Reaches (Turn.Keeps config) (commitFinalized block certificate gossip) t := by
  refine reaches_commitFinalized block certificate gossip
    (fun u asked os hos => keeps_quiet (.say u asked os hos))
    (fun u lastBlockAt => keeps_quiet (.clock u lastBlockAt u.actor.lastStatusAt))
    fun u receipts candidate store _ hcommits => ?_
  obtain ⟨_, _, projection, -, -, hstore⟩ := hcommits.store
  obtain ⟨-, -, -, -, hstore⟩ := Store.persistFinalized_eq_ok hstore
  have hmono : ∀ p, u.actor.store.HasProposal p → store.HasProposal p := by
    rw [hstore]
    exact fun _ hp => hp
  have hclean : u.Grounded config → store.Clean config := by
    intro hg
    rw [hstore]
    exact hg.clean.of_same rfl rfl
  refine ⟨hmono, fun hg => ?_⟩
  exact (hg.stored hmono (hclean hg)).of_same rfl rfl rfl rfl fun _ => id

/-- A fresh engine caches no proposals. -/
theorem keeps_resetConsensus : Reaches (Turn.Keeps config) resetConsensus t := by
  refine reaches_resetConsensus (keeps_of_same rfl rfl rfl rfl fun _ => id)
    fun u key validators consensus _ _ _ hnew => ⟨fun _ => id, fun hg => hg.exchange ?_⟩
  have hfresh := Consensus.new_eq_ok (S := ⟨validators, u.actor.ledger.height + 1,
    .forChain u.actor.config.chainId⟩) hnew
  refine ⟨⟨[], .new (S := ⟨validators, _, _⟩) hnew⟩, fun round p hp => ?_⟩
  rw [hfresh] at hp
  exact absurd hp (by simp [Consensus.initial])

theorem keeps_finalizeBlock (f : Finalization) :
    Reaches (Turn.Keeps config) (finalizeBlock f) t := by
  refine reaches_actor_bind <| reaches_okOr_bind fun block _ => ?_
  refine reaches_orFail_bind fun certificate _ => reaches_orFail_bind fun _ _ => ?_
  exact (keeps_commitFinalized block certificate true).bind fun _ _ _ => keeps_resetConsensus

/-! ## The driver -/

/-- An effect that does not report a double proposal. -/
theorem keeps_performEffect {effect : Effect}
    (h : ∀ proposer first second, effect ≠ .evidence (.doubleProposal proposer first second)) :
    Reaches (Turn.Keeps config) (performEffect effect) t := by
  cases effect with
  | requestProposal height round validBlock validRound =>
      refine reaches_actor_bind ?_
      refine ((reading_buildConsensusProposal _ _).keeps t).bind fun block u _ => ?_
      refine (keeps_update rfl rfl rfl).bind fun _ v _ => keeps_pushEvent fun _ p hp => ?_
      rcases hp with hp | hp <;> cases hp
  | persistBeforeBroadcast message safetyState =>
      refine (keeps_signAndPersist message safetyState).bind fun signed u hu => ?_
      exact keeps_pushEvent fun hg => signAndPersist_stored hu hg
  | broadcast message => exact keeps_broadcastConsensus message
  | scheduleTimeout timeout => exact (reading_record (o := .timer timeout) trivial).keeps t
  | finalize f => exact keeps_finalizeBlock f
  | evidence evidence =>
      refine keeps_appendConsensusEvent fun _ => ?_
      cases evidence with
      | doubleVote validator first second => exact ⟨validator, first, second, rfl⟩
      | doubleProposal proposer first second => exact absurd rfl (h proposer first second)

theorem keeps_performEffects {effects : List Effect}
    (h : ∀ proposer first second, .evidence (.doubleProposal proposer first second) ∉ effects) :
    Reaches (Turn.Keeps config) (performEffects effects) t := by
  induction effects generalizing t with
  | nil => exact .pure _
  | cons effect rest ih =>
      refine Reaches.modify_bind (.single (keeps_of_same rfl rfl rfl rfl fun _ => id)) ?_
      refine (keeps_performEffect fun proposer first second heq => ?_).bind fun _ _ _ => ih ?_
      · exact h proposer first second (heq ▸ List.mem_cons_self)
      · exact fun proposer first second hmem =>
          h proposer first second (List.mem_cons_of_mem _ hmem)

/-- The engine handles an event, and reports no double proposal. -/
theorem stepConsensus_grounded {event : Event} {rest : List Event} (h : t.Grounded config)
    (hevents : t.events = event :: rest) :
    (stepConsensus event rest t).state.Grounded config ∧
      ∀ effects u, stepConsensus event rest t = .ok effects u → ∀ proposer first second,
        .evidence (.doubleProposal proposer first second) ∉ effects := by
  have hevent : event.Stored t.actor.store := h.events event (hevents ▸ List.mem_cons_self)
  have hrest : ∀ e ∈ rest, e.Stored t.actor.store := fun e he =>
    h.events e (hevents ▸ List.mem_cons_of_mem _ he)
  rcases stepConsensus_cases event rest t with ⟨-, e, hrun⟩ |
    ⟨c, result, next, hc, hstep, hrun⟩
  · rw [hrun]
    refine ⟨h, fun effects u hu => ?_⟩
    cases hu
  · have hbacked := h.engine c hc
    have hnext := hbacked.step (V := t.actor.messageValidator.validator)
      (NodeMessageValidator.usesEd25519 _) hevent
    rw [hstep] at hnext
    rw [hrun]
    refine ⟨?_, fun effects u hu => ?_⟩
    · rw [readOnly_orFail]
      refine ⟨h.key, h.clean, h.past, ?_, hrest⟩
      rintro _ ⟨⟩
      exact hnext
    · obtain ⟨hresult, rfl⟩ := orFail_eq_ok.1 hu
      refine hbacked.no_double_proposal hevent (V := t.actor.messageValidator.validator) ?_
      rw [hstep, hresult]

/-- An event from outside is handled, if the proposal that it brings is stored. -/
theorem processConsensusEvent_grounded {event : Event} (h : t.Grounded config)
    (he : event.Stored t.actor.store) : (processConsensusEvent event t).state.Grounded config := by
  rcases processConsensusEvent_cases event t with hrun | hrun
  · rw [hrun]
    exact h
  · rw [hrun]
    refine drive_kept (Q := Turn.Grounded config) (fun ht hevents => ?_) _
      ⟨h.key, h.clean, h.past, h.engine, fun e hmem => ?_⟩
    · obtain ⟨hstep, hnone⟩ := stepConsensus_grounded ht hevents
      refine ⟨hstep, fun effects u hu hq => ?_⟩
      have hperform : Reaches (Turn.Keeps config) (performEffects effects) u :=
        keeps_performEffects (hnone effects u hu)
      exact (Keeps.of_path hperform).grounded hq
    · obtain rfl := List.mem_singleton.1 hmem
      exact he

/-- A proposal that is received is stored before it is known. -/
theorem keeps_receiveProposal (signed : SignedProposal) (block : Block) :
    Reaches (Turn.Keeps config) (receiveProposal signed block) t := by
  refine reaches_actor_bind <| .ensure_bind fun _ => reaches_okOr_bind fun consensus _ => ?_
  refine reaches_orFail_bind fun cacheable _ => ?_
  split
  · refine .lift_bind fun row _ => (keeps_storeProposal row).bind fun _ _ _ => ?_
    exact (keeps_update rfl rfl rfl).bind fun _ _ _ => .pure _
  · exact .pure _

theorem keeps_produceStandalone : Reaches (Turn.Keeps config) produceStandalone t := by
  refine reaches_actor_bind <| reaches_okOr_bind fun proposer _ => ?_
  refine Reaches.bind ((reading_ask _).keeps t) fun time u _ => ?_
  refine reaches_orFail_bind fun block _ => reaches_orFail_bind fun _ _ => ?_
  exact keeps_commitFinalized _ _ true

theorem keeps_importNext (record : FinalizedWireRecord) :
    Reaches (Turn.Keeps config) (importNext record) t := by
  refine (keeps_commitFinalized record.block record.certificate false).bind fun _ u _ => ?_
  refine keeps_resetConsensus.bind fun _ v _ => ?_
  exact reaches_mono (fun _ _ => keeps_quiet) quiet_finishSyncIfCurrent

end NodeM

/-- Whatever a node does, it finds no double proposal. -/
theorem covers_grounded : Turn.Covers fun t u => t.Grounded config → u.Grounded config where
  quiet hq := (NodeM.keeps_quiet hq).grounded
  process he hstored := .single fun h => NodeM.processConsensusEvent_grounded h fun p hp => by
    rcases hp with hp | rfl
    · exact hstored p hp
    · exact he.elim
  receive signed block _ _ _ := NodeM.reaches_mono (fun _ _ h => h.grounded)
    (NodeM.keeps_receiveProposal signed block)
  start t h := h.of_same rfl rfl rfl rfl fun _ => id
  imports t record _ :=
    NodeM.reaches_mono (fun _ _ h => h.grounded) (NodeM.keeps_importNext record)
  resume t h := h.of_same rfl rfl rfl rfl fun _ => id
  resend t wire rest _ h := h.of_same rfl rfl rfl rfl fun s hs =>
    (List.mem_append.1 hs).resolve_right fun hs => by cases List.mem_singleton.1 hs
  resent t wire rest _ h := h.of_same rfl rfl rfl rfl fun _ => id

/-! ## The second proposal -/

namespace NodeM

variable {first signed : SignedProposal}

omit [Primitives] [Formats] in
theorem actor_of_reaches {α : Type} {x : NodeM α}
    (h : Reaches (fun t u => u.actor = t.actor) x t) : (x t).state.actor = t.actor :=
  Reaches.kept (Q := fun u => u.actor = t.actor)
    (reaches_mono (fun _ _ hsame hq => hsame.trans hq) h) rfl

omit [Formats] in
/-- A proposal that differs from the stored one of its height and round is not received. -/
theorem receiveProposal_second (block : Block) (hstored : t.actor.store.HasProposal first)
    (hheight : signed.proposal.height = first.proposal.height)
    (hround : signed.proposal.round = first.proposal.round) (hne : signed ≠ first) :
    Reaches (fun t u => u.actor = t.actor) (receiveProposal signed block) t := by
  refine reaches_actor_bind <| .ensure_bind fun _ => reaches_okOr_bind fun consensus _ => ?_
  refine reaches_orFail_bind fun cacheable _ => ?_
  split
  · refine .lift_bind fun row hrow => ?_
    have hconflict : ∀ store, t.actor.store.persistConsensusProposal row ≠ .ok store := by
      intro store hs
      have hsecond := Store.hasProposal_of_persist hrow hs
      exact hne (hsecond.unique (hstored.persist hs) hheight hround)
    rcases writeStore_cases (fun s => (s.persistConsensusProposal row).map ((), ·)) t with
      ⟨e, asked, he⟩ | ⟨asked, a, store, hs, -⟩
    · rw [Reaches, bind_eq_error.2 (.inl he)]
      exact .single rfl
    · exact absurd (Except.map_pair_eq_ok.1 hs).1 (hconflict store)
  · exact .pure _

/-- A node that receives a second proposal for a height and round remains as it is: the proposal does
not reach its engine. -/
theorem second_proposal (block : Block) (hstored : t.actor.store.HasProposal first)
    (hheight : signed.proposal.height = first.proposal.height)
    (hround : signed.proposal.round = first.proposal.round) (hne : signed ≠ first) :
    (handleConsensusMessage (.proposal signed block) t).state.actor = t.actor := by
  have hreceive := receiveProposal_second block hstored hheight hround hne
  refine actor_of_reaches (reaches_actor_bind ?_)
  split
  · exact .pure _
  · refine .ensure_bind fun _ => ?_
    split
    · refine hreceive.bind fun cacheable u hu => ?_
      have hsame : u.actor = t.actor := by
        have hstate := actor_of_reaches hreceive
        rw [hu] at hstate
        exact hstate
      cases cacheable with
      | false => exact .pure _
      | true =>
          have hsecond := receiveProposal_stored hu
          rw [hsame] at hsecond
          exact absurd (hsecond.unique hstored hheight hround) hne
    · exact .pure _

end NodeM

/-! ## The engine of a node that starts -/

theorem session_of_restoreDecisions {height : Height} {c c' : Consensus}
    {decisions : List PersistedConsensusDecision} {messages : List SignedMessage}
    (h : restoreDecisions height c decisions = .ok (c', messages))
    {P : MessageValidator → Consensus → Event → Prop} (hc : (⟨c, []⟩ : Session).Reachable P) :
    (⟨c', []⟩ : Session).Reachable P := by
  induction decisions generalizing c messages with
  | nil =>
      cases h
      exact hc
  | cons decision rest ih =>
      obtain ⟨signed, -, h⟩ := Except.bind_eq_ok.1 h
      obtain ⟨next, hnext, h⟩ := Except.bind_eq_ok.1 h
      obtain ⟨⟨c₁, messages₁⟩, hrest, h⟩ := Except.bind_eq_ok.1 h
      cases Except.pure_eq_ok.1 h
      exact ih hrest (hc.restore (Except.mapError_eq_ok.1 hnext))

/-- The engine of a node that starts begins a session. -/
theorem session_of_initialize {store : Store} {ledger : LedgerState} {ids : List ValidatorId}
    {key : Option SigningKey} {recovery : ConsensusRecovery}
    (h : initializeConsensusRecovery config store ledger ids key = .ok recovery)
    {P : MessageValidator → Consensus → Event → Prop} :
    ∀ c ∈ recovery.consensus, (⟨c, []⟩ : Session).Reachable P := by
  intro c hc
  cases key with
  | none =>
      obtain rfl := Except.ok.inj h
      cases hc
  | some key =>
      obtain ⟨validators, -, h⟩ := Except.bind_eq_ok.1 h
      cases hsafety : store.consensusSafety with
      | none =>
          rw [hsafety] at h
          obtain ⟨fresh, hfresh, h⟩ := Except.bind_eq_ok.1 h
          obtain rfl := Except.pure_eq_ok.1 h
          cases hc
          exact .new (S := ⟨validators, _, _⟩) (Except.mapError_eq_ok.1 hfresh)
      | some safety =>
          rw [hsafety] at h
          simp only [recoverInterrupted, Except.bind_eq_ok, Except.mapError_eq_ok,
            Except.pure_eq_ok] at h
          obtain ⟨-, -, state, -, -, -, -, -, rows, -, recovered, -, -, -, -, -, -, -, c₀, hc₀,
            last, -, -, -, ⟨c₁, messages⟩, hrestored, wires, -, rfl⟩ := h
          cases hc
          exact session_of_restoreDecisions hrestored (.restored (S := ⟨validators, _, _⟩) hc₀)

theorem startNode_grounded {store : Store} {network : Bool} {peers : BTreeSet PeerId}
    {time : Instant} {a : NodeActor} (hclean : store.Clean config)
    (h : startNode config store network peers time = .ok a) (env : Environment) :
    (Turn.begin env a).Grounded config := by
  have hstarted := startNode_started h
  simp only [startNode, Except.bind_eq_ok, Except.pure_eq_ok, Except.mapError_eq_ok] at h
  obtain ⟨chainId, -, _, -, history, -, ledger, -, key, hkey, recovery, hrecovery, rfl⟩ := h
  obtain ⟨-, hidle⟩ := initializeConsensusRecovery_idle hrecovery
  refine ⟨hkey, hclean, fun s hs => absurd hs List.not_mem_nil, fun c hc => ?_,
    fun e he => absurd he List.not_mem_nil⟩
  refine ⟨⟨[], session_of_initialize hrecovery c hc⟩, fun round p hp => ?_⟩
  rw [(hidle c hc).proposals] at hp
  exact absurd hp (by simp)

/-! ## Every run -/

namespace Machine

variable {m : Machine}

theorem Reachable.clean (h : Reachable config m) : m.store.Clean config := by
  refine (Reachable.covered (S := Store.Clean config) (J := Turn.Grounded config) ?_ covers_grounded
    (fun t ht _ => (NodeM.Keeps.of_path NodeM.keeps_produceStandalone).grounded ht)
    (fun m network peers time a env _ hs ha => startNode_grounded hs ha env) (fun t env ht => ?_)
    (fun t ht => ⟨ht.clean, ht.past⟩) h).1
  · exact ⟨fun _ _ _ hrow => absurd hrow List.not_mem_nil,
      fun _ hbytes => absurd hbytes List.not_mem_nil⟩
  · exact ⟨ht.key, ht.clean, fun s hs => absurd hs List.not_mem_nil, ht.engine,
      fun e he => absurd he List.not_mem_nil⟩

/-- In every run of a node, also one that crashes and starts again, all evidence that is written to
the log is of a double vote. So no double proposal is ever recorded, whatever proposals the node
received. -/
theorem double_proposals_unrecorded (h : Reachable config m) :
    (∀ bytes, ("evidence", bytes) ∈ m.store.consensusWal → ∃ validator first second,
      bytes = utf8 (Formats.evidenceToText (.doubleVote validator first second))) ∧
    ∀ proposer first second,
      (∀ validator v w, utf8 (Formats.evidenceToText (.doubleVote validator v w)) ≠
        utf8 (Formats.evidenceToText (.doubleProposal proposer first second))) →
      ("evidence", utf8 (Formats.evidenceToText (.doubleProposal proposer first second))) ∉
        m.store.consensusWal := by
  refine ⟨h.clean.log, fun proposer first second hdiffer hmem => ?_⟩
  obtain ⟨validator, v, w, heq⟩ := h.clean.log _ hmem
  exact hdiffer validator v w heq.symm

end Machine

end

/-! ## Two proposals for one round -/

section
open scoped Sample

/-- Whether a proposal would be received can be computed. -/
instance (a : NodeActor) (signed : SignedProposal) (block : Block) :
    Decidable (a.Receives signed block) :=
  decidable_of_iff (signed.proposal.height = a.ledger.height + 1 ∧
      block.consensusHash = signed.proposal.blockId ∧
      a.proposalBlocks[signed.proposal.blockId]?.all (· = block) ∧
      a.consensus.any fun c => c.preflightMessage (NodeMessageValidator.validator ⟨a.ledger,
        a.proposalBlocks.insert signed.proposal.blockId block, a.validatorIds⟩)
        (.proposal signed) = .ok true)
    ⟨fun ⟨hheight, hid, hknown, hcacheable⟩ => ⟨hheight, hid, hknown, by
        obtain ⟨c, hc, h⟩ := (Option.any_eq_true ..).1 hcacheable
        exact ⟨c, hc, of_decide_eq_true h⟩⟩,
      fun ⟨hheight, hid, hknown, c, hc, h⟩ => ⟨hheight, hid, hknown,
        (Option.any_eq_true ..).2 ⟨c, hc, decide_eq_true h⟩⟩⟩

namespace Sample

/-- The second of the fixed validators. -/
def validatorNode : NodeConfig := ⟨"kcoin-local", .validator, some 1, 0, true⟩

/-- The key of the first of them, who proposes in the first round. -/
def proposerKey : SigningKey := ⟨Primitives.blake3 "kcoin.dev/v1/local-validator-key" [1]⟩

/-- The empty block of a time that follows the ledger, and a proposal for it by the first
validator. -/
def proposalAt (a : NodeActor) (timestampMs : UInt64) : Option (SignedProposal × Block) := do
  let proposer := ValidatorId.fromSigningKey proposerKey
  let block ← (a.ledger.buildBlock proposer 0 timestampMs []).toOption
  let proposal : Proposal := ⟨"kcoin-local", 1, 0, proposer, block.consensusHash, none, []⟩
  let bytes ← (SignableMessage.proposal proposal).signingBytes
  return (⟨proposal, (Primitives.sign proposerKey bytes).toList⟩, block)

end Sample

open Sample

namespace Machine

/-- The second validator receives two proposals of the first for the first round, both valid and
inside the window. It would receive each of them, and it votes at the height, but no evidence is
recorded. -/
theorem two_proposals_unrecorded : ∃ a first second before b after,
    startNode validatorNode .empty false ∅ 0 = .ok a ∧
    proposalAt a 5 = some first ∧ proposalAt a 6 = some second ∧
    play validatorNode environment [.consensusMessage (.proposal first.1 first.2)] = some before ∧
    before.actor = some b ∧
    play validatorNode environment [.consensusMessage (.proposal first.1 first.2),
      .consensusMessage (.proposal second.1 second.2)] = some after ∧
    a.Receives first.1 first.2 ∧ b.Receives second.1 second.2 ∧ first.1 ≠ second.1 ∧
    first.1.proposal.height = second.1.proposal.height ∧
    first.1.proposal.round = second.1.proposal.round ∧
    b.consensus.any (fun c => c.started && c.finalized.isNone) ∧
    after.store.consensusWal.all (·.1 ≠ "evidence") := by
  have hrun : (startNode validatorNode .empty false ∅ 0).toOption.any fun a =>
      (proposalAt a 5).any fun first => (proposalAt a 6).any fun second =>
      (play validatorNode environment
        [.consensusMessage (.proposal first.1 first.2)]).any fun before =>
      before.actor.any fun b =>
      (play validatorNode environment [.consensusMessage (.proposal first.1 first.2),
        .consensusMessage (.proposal second.1 second.2)]).any fun after =>
      decide (a.Receives first.1 first.2 ∧ b.Receives second.1 second.2 ∧ first.1 ≠ second.1 ∧
        first.1.proposal.height = second.1.proposal.height ∧
        first.1.proposal.round = second.1.proposal.round ∧
        b.consensus.any (fun c => c.started && c.finalized.isNone) ∧
        after.store.consensusWal.all (·.1 ≠ "evidence")) := by
    decide +kernel
  obtain ⟨a, ha, hrun⟩ := (Option.any_eq_true ..).1 hrun
  obtain ⟨first, hfirst, hrun⟩ := (Option.any_eq_true ..).1 hrun
  obtain ⟨second, hsecond, hrun⟩ := (Option.any_eq_true ..).1 hrun
  obtain ⟨before, hbefore, hrun⟩ := (Option.any_eq_true ..).1 hrun
  obtain ⟨b, hb, hrun⟩ := (Option.any_eq_true ..).1 hrun
  obtain ⟨after, hafter, hrun⟩ := (Option.any_eq_true ..).1 hrun
  exact ⟨a, first, second, before, b, after, Except.toOption_eq_some.1 ha, hfirst, hsecond, hbefore,
    hb, hafter, of_decide_eq_true hrun⟩

/-- The log of the second validator holds no double proposal after it received both. -/
theorem double_proposals_unrecorded_both : ∃ a first second m,
    startNode validatorNode .empty false ∅ 0 = .ok a ∧
    proposalAt a 5 = some first ∧ proposalAt a 6 = some second ∧
    play validatorNode environment [.consensusMessage (.proposal first.1 first.2),
      .consensusMessage (.proposal second.1 second.2)] = some m ∧
    ∀ proposer x y,
      ("evidence", utf8 (Formats.evidenceToText (.doubleProposal proposer x y))) ∉
        m.store.consensusWal := by
  have hrun : (startNode validatorNode .empty false ∅ 0).toOption.any fun a =>
      (proposalAt a 5).any fun first => (proposalAt a 6).any fun second =>
      (play validatorNode environment [.consensusMessage (.proposal first.1 first.2),
        .consensusMessage (.proposal second.1 second.2)]).isSome := by
    decide +kernel
  obtain ⟨a, ha, hrun⟩ := (Option.any_eq_true ..).1 hrun
  obtain ⟨first, hfirst, hrun⟩ := (Option.any_eq_true ..).1 hrun
  obtain ⟨second, hsecond, hrun⟩ := (Option.any_eq_true ..).1 hrun
  obtain ⟨m, hm⟩ := Option.isSome_iff_exists.1 hrun
  refine ⟨a, first, second, m, Except.toOption_eq_some.1 ha, hfirst, hsecond, hm, ?_⟩
  intro proposer x y
  refine (double_proposals_unrecorded (play_reachable hm)).2 proposer x y fun validator v w => ?_
  show utf8 "DoubleVote" ≠ utf8 "DoubleProposal"
  decide

end Machine

end

end KCoin
