import KCoin.Node.ActiveRow
import KCoin.Node.Lawful

/-!
# The votes of a node

While a node handles a command, the decisions that its engine returned wait to be stored, in their
order. With those in the signer table they are the history of the engine (`Turn.Voting`). A decision is
stored before the next one, the loop over the effects stops at the first failure, and what is lost then
was never signed for anyone. So whatever the node does, given authentic votes, its store stays lawful,
and an engine that is restored after a crash goes on with the history of the one before
(`Machine.Fed.lawful`).
-/

open Relation EStateM Borsh

namespace KCoin

section
variable [Primitives]

/-- The votes that an event brings are authentic, where Ed25519 accepts them. -/
def Event.Authentic (Auth : SignedVote → Prop) (e : Event) : Prop :=
  ∀ v ∈ e.votes, Ed25519 v → Auth v

theorem Event.Authentic.mono {Auth Auth' : SignedVote → Prop} {e : Event} (h : e.Authentic Auth)
    (hA : ∀ v, Auth v → Auth' v) : e.Authentic Auth' := fun v hv hsigned => hA v (h v hv hsigned)

variable [Formats] {config : NodeConfig} {validators : ValidatorSet} {Auth : SignedVote → Prop}
  {t u : Turn} {p q : List Decision}

/-! ## Turns -/

/-- The stores of the turn are lawful. The decisions of the engine are those in the signer table and
then the pending ones, and the events that are still to be handled bring trusted votes. -/
structure Turn.Voting (config : NodeConfig) (validators : ValidatorSet) (Auth : SignedVote → Prop)
    (pending : List Decision) (t : Turn) : Prop where
  lawful : t.actor.store.Lawful config validators Auth
  past : ∀ s, .committed s ∈ t.trace → s.Lawful config validators Auth
  key : localKey config = .ok t.actor.localValidatorKey
  engine : ∀ c ∈ t.actor.consensus, History (config.setup validators c.height)
    (t.actor.store.Trusts Auth) none (t.actor.store.decisionsAt c.height ++ pending) c
  pending : ∀ d ∈ pending, d.Proven ∧ ∃ c ∈ t.actor.consensus, d.1.height = c.height
  events : ∀ e ∈ t.events, e.Authentic (t.actor.store.Trusts Auth)

namespace Turn.Voting

/-- A change that concerns neither the store nor the engine. -/
theorem of_same (h : t.Voting config validators Auth p)
    (hkey : u.actor.localValidatorKey = t.actor.localValidatorKey)
    (hstore : u.actor.store = t.actor.store) (hconsensus : u.actor.consensus = t.actor.consensus)
    (hevents : u.events = t.events)
    (htrace : ∀ s, .committed s ∈ u.trace → .committed s ∈ t.trace) :
    u.Voting config validators Auth p := by
  refine ⟨?_, fun s hs => h.past s (htrace s hs), ?_, ?_, ?_, ?_⟩
  · rw [hstore]
    exact h.lawful
  · rw [hkey]
    exact h.key
  · rw [hstore, hconsensus]
    exact h.engine
  · rw [hconsensus]
    exact h.pending
  · rw [hstore, hevents]
    exact h.events

/-- Some of the pending decisions are lost. -/
theorem lose (h : t.Voting config validators Auth p) (hq : q.Sublist p) :
    t.Voting config validators Auth q where
  lawful := h.lawful
  past := h.past
  key := h.key
  engine c hc := (h.engine c hc).sublist (hq.append_left _)
  pending d hd := h.pending d (hq.subset hd)
  events := h.events

theorem quiet (h : t.Voting config validators Auth p) (hq : t.Quiet u) :
    u.Voting config validators Auth p := by
  have hs := hq.sameCore
  obtain ⟨os, hos, htrace⟩ := hq.trace
  refine h.of_same hs.localValidatorKey hs.store hs.consensus hq.locals.2.1 fun s hmem => ?_
  rw [htrace] at hmem
  exact (List.mem_append.1 hmem).resolve_right fun hmem => hos _ hmem

/-- Another store that is lawful, with as many decisions. -/
theorem stored (h : t.Voting config validators Auth p) {store : Store}
    (hlawful : store.Lawful config validators Auth)
    (hsigner : store.signerState = t.actor.store.signerState) :
    (t.stored store).Voting config validators Auth p := by
  have htrusts : store.Trusts Auth = t.actor.store.Trusts Auth := Store.trusts_congr hsigner
  refine ⟨hlawful, fun s hs => ?_, h.key, fun c hc => ?_, h.pending, fun e he => ?_⟩
  · rcases List.mem_append.1 hs with hs | hs
    · exact h.past s hs
    · cases List.mem_singleton.1 hs
      exact hlawful
  · change History _ (store.Trusts Auth) none (store.decisionsAt c.height ++ p) c
    rw [htrusts, Store.decisionsAt_congr hsigner]
    exact h.engine c hc
  · change e.Authentic (store.Trusts Auth)
    rw [htrusts]
    exact h.events e he

theorem pushed (h : t.Voting config validators Auth p) {event : Event}
    (he : event.Authentic (t.actor.store.Trusts Auth)) :
    (t.pushed event).Voting config validators Auth p := by
  refine ⟨h.lawful, h.past, h.key, h.engine, h.pending, fun e hmem => ?_⟩
  rcases List.mem_append.1 hmem with hmem | hmem
  · exact h.events e hmem
  · obtain rfl := List.mem_singleton.1 hmem
    exact he

/-- The first of the pending decisions is stored. -/
theorem record {d : Decision} (h : t.Voting config validators Auth (d :: p))
    {row : PersistedConsensusDecision} {signature : List UInt8} {store : Store} (hrow : row.Decided d)
    (hs : t.actor.store.persistConsensusDecision row = .ok (signature, store))
    (hheight : d.1.height = t.actor.store.nextHeight)
    (hown : ∃ key, t.actor.localValidatorKey = some key ∧
      d.1.signer = ValidatorId.fromSigningKey key) :
    (t.stored store).Voting config validators Auth p ∧
      t.actor.store.signerState <+: store.signerState := by
  obtain ⟨hproven, c, hc, hcheight⟩ := h.pending d List.mem_cons_self
  have hengine := h.engine c hc
  rw [← hcheight, hheight] at hengine
  have hordered : (t.actor.store.decisionsAt t.actor.store.nextHeight ++ [d]).Pairwise
      Decision.Before :=
    hengine.ordered.sublist (List.Sublist.append_left (by simp) _)
  have hlocal : ∃ key, localKey config = .ok (some key) ∧
      d.1.signer = ValidatorId.fromSigningKey key := by
    obtain ⟨key, hkey, hsigner⟩ := hown
    exact ⟨key, h.key.trans (congrArg Except.ok hkey), hsigner⟩
  rcases h.lawful.persist hrow hs hheight hlocal hproven hordered
    (hengine.justified d (by simp)) with rfl | ⟨hsigner, hlawful⟩
  · exact ⟨(h.lose (List.sublist_cons_self d p)).stored h.lawful rfl, List.prefix_refl _⟩
  have hprefix : t.actor.store.signerState <+: store.signerState := ⟨[row], hsigner.symm⟩
  have htrusts : ∀ v, t.actor.store.Trusts Auth v → store.Trusts Auth v := fun v hv =>
    hv.mono hprefix
  refine ⟨⟨hlawful, fun s hs => ?_, h.key, fun c' hc' => ?_,
    fun e he => h.pending e (List.mem_cons_of_mem d he), fun e he => (h.events e he).mono htrusts⟩,
    hprefix⟩
  · rcases List.mem_append.1 hs with hs | hs
    · exact h.past s hs
    · cases List.mem_singleton.1 hs
      exact hlawful
  · obtain rfl : c' = c := Option.some.inj (hc'.symm.trans hc)
    have hsame := (h.engine c' hc).mono htrusts
    change History _ (store.Trusts Auth) none (store.decisionsAt c'.height ++ p) c'
    rw [Store.decisionsAt_append hsigner hrow, if_pos hcheight, List.append_assoc]
    exact hsame

end Turn.Voting

/-! ## The driver between two decisions -/

/-- What the driver does that leaves the decisions as they are. -/
def Turn.Upholds (config : NodeConfig) (validators : ValidatorSet) (Auth : SignedVote → Prop)
    (p : List Decision) (t u : Turn) : Prop :=
  t.Voting config validators Auth p →
    u.Voting config validators Auth p ∧ u.actor.store.signerState = t.actor.store.signerState

/-- What is left of a turn in which decisions were stored: some are still pending, and the signer table
has grown at most. -/
structure Turn.Grows (config : NodeConfig) (validators : ValidatorSet) (Auth : SignedVote → Prop)
    (p : List Decision) (t u : Turn) : Prop where
  voting : u.Voting config validators Auth p
  signer : t.actor.store.signerState <+: u.actor.store.signerState

namespace NodeM

variable {α : Type} {x : NodeM α}

theorem Upholds.of_path (h : ReflTransGen (Turn.Upholds config validators Auth p) t u) :
    t.Upholds config validators Auth p u := by
  induction h with
  | refl => exact fun h => ⟨h, rfl⟩
  | tail _ hlast ih =>
      intro h
      obtain ⟨hv, hsigner⟩ := ih h
      obtain ⟨hv', hsigner'⟩ := hlast hv
      exact ⟨hv', hsigner'.trans hsigner⟩

theorem Upholds.of_ok (h : Reaches (Turn.Upholds config validators Auth p) x t) {a : α}
    (hu : x t = .ok a u) : t.Upholds config validators Auth p u := by
  rw [Reaches, hu] at h
  exact Upholds.of_path h

theorem upholds_of_same (hkey : u.actor.localValidatorKey = t.actor.localValidatorKey)
    (hstore : u.actor.store = t.actor.store) (hconsensus : u.actor.consensus = t.actor.consensus)
    (hevents : u.events = t.events)
    (htrace : ∀ s, .committed s ∈ u.trace → .committed s ∈ t.trace) :
    t.Upholds config validators Auth p u := fun h =>
  ⟨h.of_same hkey hstore hconsensus hevents htrace, congrArg Store.signerState hstore⟩

theorem upholds_quiet (h : t.Quiet u) : t.Upholds config validators Auth p u := fun hv =>
  ⟨hv.quiet h, congrArg Store.signerState h.sameCore.store⟩

theorem Reading.upholds (h : Reading x) (t : Turn) :
    Reaches (Turn.Upholds config validators Auth p) x t :=
  reaches_mono (fun _ _ => upholds_quiet) (h.reaches t)

/-- A commit that concerns neither decisions nor blocks. -/
theorem upholds_writeStore {g : Store → Except StorageError (α × Store)}
    (h : ∀ a store, g t.actor.store = .ok (a, store) →
      store.signerState = t.actor.store.signerState ∧
      store.consensusSafety = t.actor.store.consensusSafety ∧
      store.blocks = t.actor.store.blocks) :
    Reaches (Turn.Upholds config validators Auth p) (writeStore g) t := by
  have hsaid : ∀ asked, t.Upholds config validators Auth p (t.said asked []) := fun asked =>
    upholds_quiet (.say t asked [] fun _ ho => absurd ho List.not_mem_nil)
  rcases writeStore_cases g t with ⟨e, asked, he⟩ | ⟨asked, a, store, ha, hu⟩
  · rw [Reaches, he]
    exact .single (hsaid asked)
  · rw [Reaches, hu]
    obtain ⟨hsigner, hsafety, hblocks⟩ := h a store ha
    refine .tail (.single (hsaid asked)) fun hv => ⟨?_, hsigner⟩
    exact hv.stored (hv.lawful.of_same hsigner hsafety hblocks) hsigner

theorem upholds_appendConsensusEvent (kind : String) (bytes : List UInt8) :
    Reaches (Turn.Upholds config validators Auth p) (appendConsensusEvent kind bytes) t := by
  refine upholds_writeStore ?_
  rintro _ _ ⟨⟩
  exact ⟨rfl, rfl, rfl⟩

theorem upholds_storeProposal (row : PersistedConsensusProposal) :
    Reaches (Turn.Upholds config validators Auth p)
      (writeStore fun s => (s.persistConsensusProposal row).map ((), ·)) t := by
  refine upholds_writeStore fun _ store hs => ?_
  have hstore := (Except.map_pair_eq_ok.1 hs).1
  obtain ⟨hsafety, hsigner⟩ := Store.persistConsensusProposal_safety hstore
  exact ⟨hsigner, hsafety, (Store.persistConsensusProposal_tables hstore).blocks⟩

theorem upholds_persistLocalProposal (m : SignedMessage) :
    Reaches (Turn.Upholds config validators Auth p) (persistLocalProposal m) t := by
  cases m with
  | vote v => exact .pure _
  | proposal signed =>
      refine reaches_actor_bind <| reaches_okOr_bind fun block _ => .lift_bind fun row _ => ?_
      exact upholds_storeProposal row

theorem upholds_publishConsensusWire (wire : ConsensusWireMessage) :
    Reaches (Turn.Upholds config validators Auth p) (publishConsensusWire wire) t := by
  refine reaches_actor_bind ?_
  split
  · refine reaches_okOr_bind fun _ _ => .modify (.single (upholds_of_same rfl rfl rfl rfl ?_))
    intro s hs
    exact (List.mem_append.1 hs).resolve_right fun hs => by cases List.mem_singleton.1 hs
  · exact .pure _

theorem upholds_broadcastConsensus (message : SignedMessage) :
    Reaches (Turn.Upholds config validators Auth p) (broadcastConsensus message) t := by
  cases message with
  | proposal signed =>
      exact reaches_actor_bind <| reaches_okOr_bind fun block _ => upholds_publishConsensusWire _
  | vote v => exact upholds_publishConsensusWire _

theorem upholds_pushEvent {event : Event}
    (h : t.Voting config validators Auth p → event.Authentic (t.actor.store.Trusts Auth)) :
    Reaches (Turn.Upholds config validators Auth p) (pushEvent event) t :=
  .modify (.single fun hv => ⟨hv.pushed (h hv), rfl⟩)

/-- A change of the actor outside its store and its engine. -/
theorem upholds_update {g : NodeActor → NodeActor}
    (hkey : (g t.actor).localValidatorKey = t.actor.localValidatorKey)
    (hstore : (g t.actor).store = t.actor.store)
    (hconsensus : (g t.actor).consensus = t.actor.consensus) :
    Reaches (Turn.Upholds config validators Auth p) (update g) t :=
  reaches_update (upholds_of_same hkey hstore hconsensus rfl fun _ => id)

/-! ## Decisions -/

/-- What follows a stored decision leaves the others as they are. -/
theorem Grows.upholds (h : t.Grows config validators Auth p u)
    (hx : Reaches (Turn.Upholds config validators Auth p) x u) :
    t.Grows config validators Auth p (x u).state := by
  obtain ⟨hv, hsigner⟩ := Upholds.of_path hx h.voting
  exact ⟨hv, hsigner ▸ h.signer⟩

theorem persistDecision_voting {d : Decision} {row : PersistedConsensusDecision}
    (h : t.Voting config validators Auth (d :: p)) (hrow : row.Decided d)
    (hheight : d.1.height = t.actor.store.nextHeight)
    (hown : ∃ key, t.actor.localValidatorKey = some key ∧
      d.1.signer = ValidatorId.fromSigningKey key) :
    t.Grows config validators Auth p (persistDecision row t).state := by
  have hsaid : ∀ asked, (t.said asked []).Voting config validators Auth (d :: p) := fun asked =>
    h.quiet (.say t asked [] fun _ ho => absurd ho List.not_mem_nil)
  rcases persistDecision_cases row t with ⟨e, asked, he⟩ | ⟨asked, signature, store, hs, hu⟩
  · rw [he]
    exact ⟨(hsaid asked).lose (List.sublist_cons_self d p), List.prefix_refl _⟩
  · rw [hu]
    obtain ⟨hv, hsigner⟩ := (hsaid asked).record hrow hs hheight hown
    exact ⟨hv.of_same rfl rfl rfl rfl fun _ => id, hsigner⟩

/-- A decision of the next height is signed and stored. -/
theorem signAndPersist_grows {d : Decision} (hg : t.Secured config)
    (h : t.Voting config validators Auth (d :: p)) (hheight : d.1.height = t.actor.ledger.height + 1) :
    t.Grows config validators Auth p (signAndPersist d.1 d.2 t).state := by
  have hlost : t.Grows config validators Auth p t :=
    ⟨h.lose (List.sublist_cons_self d p), List.prefix_refl _⟩
  refine kept_bind (x := actor) hlost fun a _ ha _ => ?_
  cases ha
  refine (readOnly_okOr _ _).bind_elim (P := fun r => t.Grows config validators Auth p r.state)
    (fun _ => hlost) fun key hkey => ?_
  obtain ⟨hkey, -⟩ := okOr_eq_ok.1 hkey
  refine (readOnly_ensure _).bind_elim (P := fun r => t.Grows config validators Auth p r.state)
    (fun _ => hlost) fun _ hsigner => ?_
  obtain ⟨hsigner, -⟩ := ensure_eq_ok.1 hsigner
  refine (readOnly_okOr _ _).bind_elim (P := fun r => t.Grows config validators Auth p r.state)
    (fun _ => hlost) fun signBytes _ => ?_
  refine (readOnly_okOr _ _).bind_elim (P := fun r => t.Grows config validators Auth p r.state)
    (fun _ => hlost) fun encoded hencoded => ?_
  obtain ⟨hencoded, -⟩ := okOr_eq_ok.1 hencoded
  -- the block of a proposal is stored before the decision
  let m := signedMessage d.1 (Primitives.sign key signBytes).toList
  have hlocal : Reaches (Turn.Upholds config validators Auth (d :: p)) (persistLocalProposal m) t :=
    upholds_persistLocalProposal m
  have hblock : t.Grows config validators Auth p (persistLocalProposal m t).state := by
    obtain ⟨hv, hsame⟩ := Upholds.of_path hlocal h
    exact ⟨hv.lose (List.sublist_cons_self d p), hsame ▸ List.prefix_refl _⟩
  refine kept_bind hblock fun _ u hu _ => ?_
  obtain ⟨hv, hsame⟩ := Upholds.of_ok hlocal hu h
  have hframe : t.Frame config u := Frame.of_ok (frame_persistLocalProposal m) hu
  have hnext : d.1.height = u.actor.store.nextHeight := by
    rw [(hframe.secured hg).nextHeight, hframe.ledger]
    exact hheight
  have hown : ∃ key, u.actor.localValidatorKey = some key ∧
      d.1.signer = ValidatorId.fromSigningKey key := ⟨key, hframe.key.trans hkey, hsigner⟩
  have hrow : PersistedConsensusDecision.Decided ⟨signerSlot d.1, signBytes,
      (Primitives.sign key signBytes).toList, Formats.safetyToVec d.2, encoded⟩ d :=
    ⟨⟨m, ⟨by simp [m], by simp [m], hencoded⟩, by simp [m]⟩, rfl⟩
  have hstored := persistDecision_voting hv hrow hnext hown
  have hstored : t.Grows config validators Auth p _ := ⟨hstored.voting, hsame ▸ hstored.signer⟩
  refine kept_bind hstored fun signature w _ hw => ?_
  refine Grows.upholds hw (reaches_okOr_bind fun bytes _ => ?_)
  exact (upholds_appendConsensusEvent _ _).bind fun _ _ _ => .pure _

/-- The event that says that a decision is stored brings trusted votes: the decided vote itself, or
the proof from the safety state. -/
theorem signAndPersist_authentic {d : Decision} {signed : SignedMessage}
    (h : t.Voting config validators Auth (d :: p)) (hu : signAndPersist d.1 d.2 t = .ok signed u)
    (hgrows : t.Grows config validators Auth p u) :
    (Event.persisted signed).Authentic (u.actor.store.Trusts Auth) := by
  obtain ⟨row, signature, hdecides, hstored, rfl, -⟩ := signAndPersist_eq_ok hu
  obtain ⟨hproven, c, hc, -⟩ := h.pending d List.mem_cons_self
  have hproof : ∀ v ∈ d.2.validRoundProof, u.actor.store.Trusts Auth v := fun v hv =>
    (((h.engine c hc).justified d (by simp)).sound.proof v hv).mono hgrows.signer
  obtain ⟨rfl, -, hrecords, -⟩ := hgrows.voting.lawful.booked.persistConsensusDecision hdecides.of
    hstored
  obtain ⟨message, safetyState⟩ := d
  cases message with
  | vote v =>
      intro v' hv' _
      obtain rfl := List.mem_singleton.1 hv'
      obtain ⟨state, hmem⟩ := hgrows.voting.lawful.readable.of_records hrecords
      exact .inr ⟨state, by simpa [SignableMessage.height] using hmem⟩
  | proposal body => exact fun v hv _ => hproof v (hproven body rfl hv)

/-- An effect that finalizes nothing stores the decision that it asks for, and no other. -/
theorem performEffect_grows {effect : Effect} {rest : List Effect} (hg : t.Secured config)
    (h : t.Voting config validators Auth (decisions (effect :: rest)))
    (hfinalize : ∀ f, effect ≠ .finalize f)
    (hheight : ∀ m state, effect = .persistBeforeBroadcast m state →
      m.height = t.actor.ledger.height + 1) :
    t.Grows config validators Auth (decisions rest) (performEffect effect t).state := by
  have hkept : ∀ {x : NodeM Unit}, decisions (effect :: rest) = decisions rest →
      Reaches (Turn.Upholds config validators Auth (decisions rest)) x t →
      t.Grows config validators Auth (decisions rest) (x t).state := fun {x} hsame hx =>
    Grows.upholds ⟨hsame ▸ h, List.prefix_refl _⟩ hx
  cases effect with
  | requestProposal height round validBlock validRound =>
      refine hkept rfl (reaches_actor_bind ?_)
      refine ((reading_buildConsensusProposal _ _).upholds t).bind fun block u _ => ?_
      refine (upholds_update rfl rfl rfl).bind fun _ v _ => upholds_pushEvent fun _ v hv => ?_
      exact absurd hv List.not_mem_nil
  | persistBeforeBroadcast m state =>
      have hdecision : t.Voting config validators Auth ((m, state) :: decisions rest) := h
      have hgrows := signAndPersist_grows hg hdecision (hheight m state rfl)
      refine kept_bind hgrows fun signed u hu hv => Grows.upholds hv (upholds_pushEvent fun _ => ?_)
      exact signAndPersist_authentic hdecision hu hv
  | broadcast message => exact hkept rfl (upholds_broadcastConsensus message)
  | scheduleTimeout timeout =>
      exact hkept rfl ((reading_record (o := .timer timeout) trivial).upholds t)
  | finalize f => exact absurd rfl (hfinalize f)
  | evidence evidence => exact hkept rfl (upholds_appendConsensusEvent _ _)

/-! ## Blocks -/

/-- The commit of a block with an authentic certificate. There are no decisions of the height after
it. -/
theorem commitFinalized_voting (block : Block) {certificate : CommitCertificate} (gossip : Bool)
    (hg : t.Secured config) (h : t.Voting config validators Auth [])
    (hfinal : certificate.Authentic (t.actor.store.Trusts Auth)) :
    (commitFinalized block certificate gossip t).state.Voting config validators Auth [] ∧
      ∀ u, commitFinalized block certificate gossip t = .ok () u →
        u.actor.store.decisionsAt (u.actor.ledger.height + 1) = [] := by
  rcases commitFinalized_cases block certificate gossip t with ⟨e, asked, os, hos, he⟩ |
    ⟨receipts, candidate, store, asked, os, asked', os', lastBlockAt, hos, hos', hc, hstate, -⟩
  · rw [he]
    exact ⟨h.quiet (.say t asked os hos), fun u hu => by cases hu⟩
  obtain ⟨-, history, hchained⟩ := hg.recorded
  have hsigner : store.signerState = t.actor.store.signerState := by
    obtain ⟨_, _, projection, -, -, hstore⟩ := hc.store
    exact (Store.persistFinalized_safety hstore).2
  obtain ⟨hlawful, hfresh⟩ := h.lawful.commit hchained hc hfinal
  have hsaid := h.quiet (.say t asked os hos)
  have hstored := hsaid.stored (t := t.said asked os) hlawful hsigner
  have hcommitted : (commitFinalized block certificate gossip t).state.Voting config validators
      Auth [] := by
    rw [hstate]
    refine hstored.of_same rfl rfl rfl rfl fun s hs => ?_
    exact (List.mem_append.1 hs).resolve_right fun hs => hos' _ hs
  refine ⟨hcommitted, fun u hu => ?_⟩
  rw [hu] at hstate
  obtain rfl : u = _ := hstate
  exact hfresh

/-- A fresh engine, of a height without decisions. -/
theorem resetConsensus_voting (hw : t.actor.Wired config)
    (hvalidators : ValidatorSet.new devValidatorIds = .ok validators)
    (h : t.Voting config validators Auth [])
    (hfresh : t.actor.store.decisionsAt (t.actor.ledger.height + 1) = []) :
    (resetConsensus t).state.Voting config validators Auth [] := by
  refine Reaches.kept (Q := Turn.Voting config validators Auth []) ?_ h
  refine reaches_resetConsensus (fun h => h.of_same rfl rfl rfl rfl fun _ => id) ?_
  rintro _ key validators' consensus rfl hkey hvalidators' hnew h
  obtain rfl : validators' = validators := by
    change ValidatorSet.new t.actor.validatorIds = .ok validators' at hvalidators'
    rw [hw.validatorIds, hvalidators] at hvalidators'
    exact (Except.ok.inj hvalidators').symm
  obtain rfl := Consensus.new_eq_ok (S := ⟨_, _, _⟩) hnew
  refine ⟨h.lawful, h.past, h.key, fun c hc => ?_, fun d hd => absurd hd List.not_mem_nil, h.events⟩
  obtain rfl := Option.some.inj hc
  have hbegin : History (config.setup validators' (t.actor.ledger.height + 1))
      (t.actor.store.Trusts Auth) none [] _ :=
    History.begin (Consensus.inv_initial ⟨_, hw.config_eq ▸ hnew⟩)
  change History _ _ none (t.actor.store.decisionsAt (t.actor.ledger.height + 1) ++ []) _
  rw [hfresh]
  exact hw.config_eq ▸ hbegin

/-- A block with an authentic certificate is committed, and the engine exchanged. -/
theorem commit_reset_voting (block : Block) {certificate : CommitCertificate} (gossip : Bool)
    (hvalidators : ValidatorSet.new devValidatorIds = .ok validators) (hg : t.Secured config)
    (h : t.Voting config validators Auth [])
    (hfinal : certificate.Authentic (t.actor.store.Trusts Auth)) :
    ((commitFinalized block certificate gossip >>= fun _ => resetConsensus) t).state.Voting config
      validators Auth [] := by
  obtain ⟨hcommit, hfresh⟩ := commitFinalized_voting block gossip hg h hfinal
  refine kept_bind hcommit fun _ u hu hv => ?_
  have hw : u.actor.Wired config := by
    rcases commitFinalized_secured block certificate gossip hg with ⟨e, v, he, -⟩ | ⟨v, hstate, hg', -⟩
    · cases he.symm.trans hu
    · rw [hu] at hstate
      obtain rfl : u = v := hstate
      exact hg'.recorded.1
  exact resetConsensus_voting hw hvalidators hv (hfresh u hu)

/-- The block that the engine finalized is committed with the precommits of the engine. -/
theorem finalizeBlock_voting {f : Finalization}
    (hvalidators : ValidatorSet.new devValidatorIds = .ok validators) (hg : t.Secured config)
    (h : t.Voting config validators Auth [])
    (hf : ∀ v ∈ f.certificate.precommits, t.actor.store.Trusts Auth v) :
    (finalizeBlock f t).state.Voting config validators Auth [] := by
  refine Reaches.kept (Q := Turn.Voting config validators Auth []) ?_ h
  refine reaches_actor_bind <| reaches_okOr_bind fun block _ => ?_
  refine reaches_orFail_bind fun certificate hconvert => reaches_orFail_bind fun _ _ => ?_
  refine .single fun h => commit_reset_voting _ _ hvalidators hg h fun v hv _ => hf v ?_
  rw [ConsensusCommitCertificate.fromProtocol_toProtocol hconvert] at hv
  exact (List.mem_insertionSort _).1 hv

/-! ## The engine at work -/

/-- The decisions among the effects are stored one after the other. -/
theorem performEffects_voting {effects : List Effect}
    (hvalidators : ValidatorSet.new devValidatorIds = .ok validators) (h : Steady config t)
    (hv : t.Voting config validators Auth (decisions effects))
    (he : Emitted (t.actor.ledger.height + 1) effects)
    (hover : (∃ f, .finalize f ∈ effects) → ∀ c ∈ t.actor.consensus, c.Over)
    (hfinal : ∀ f, .finalize f ∈ effects → ∀ v ∈ f.certificate.precommits,
      t.actor.store.Trusts Auth v) :
    (performEffects effects t).state.Voting config validators Auth [] := by
  induction effects generalizing t with
  | nil => exact hv
  | cons effect rest ih =>
      let u : Turn := { t with current := some effect, effects := rest }
      have hu : Steady config u :=
        ⟨⟨h.1.secured.of_same rfl rfl rfl rfl rfl rfl fun _ => id, h.1.engine⟩, h.2⟩
      have huv : u.Voting config validators Auth (decisions (effect :: rest)) :=
        hv.of_same rfl rfl rfl rfl fun _ => id
      have hrun : performEffects (effect :: rest) t =
          (performEffect effect >>= fun _ => performEffects rest) u := rfl
      rw [hrun]
      by_cases hfinalize : ∃ f, effect = .finalize f
      · -- no decision follows a finalization
        obtain ⟨f, rfl⟩ := hfinalize
        obtain ⟨hrest, hnone⟩ := he.after_finalize
        have hlast : decisions rest = [] := by
          refine List.eq_nil_iff_forall_not_mem.2 fun d hd => ?_
          have hzero := (hrest 0).decisions d.1 d.2 (mem_decisions.1 hd)
          have hone := (hrest 1).decisions d.1 d.2 (mem_decisions.1 hd)
          exact absurd (hzero.symm.trans hone) (by decide)
        have huv : u.Voting config validators Auth [] := hlast ▸ huv
        have hfinalized : InStepWith config u.events (performEffect (.finalize f) u).state :=
          finalizeBlock_inStep f hu.1 (hover ⟨f, List.mem_cons_self⟩)
        have hstored : (performEffect (.finalize f) u).state.Voting config validators Auth [] :=
          finalizeBlock_voting hvalidators hu.1.secured huv (hfinal f List.mem_cons_self)
        refine kept_bind hstored fun _ v hrun hv => ?_
        rw [hrun] at hfinalized
        refine ih ⟨hfinalized.1, hfinalized.2 ▸ hu.2⟩ (hlast.symm ▸ hv) (hrest _) ?_ ?_
        · rintro ⟨f', hf'⟩
          exact absurd hf' (hnone f')
        · exact fun f' hf' => absurd hf' (hnone f')
      · have hnot : ∀ f, effect ≠ .finalize f := fun f hf => hfinalize ⟨f, hf⟩
        have hheight : ∀ m state, effect = .persistBeforeBroadcast m state →
            m.height = t.actor.ledger.height + 1 := fun m state hm =>
          he.decisions m state (hm ▸ List.mem_cons_self)
        have hgrows := performEffect_grows (t := u) hu.1.secured huv hnot hheight
        have hperform : Reaches (Turn.Frame config) (performEffect effect) u :=
          frame_performEffect hnot hheight
        refine kept_bind (hgrows.voting.lose (List.nil_sublist _)) fun _ v hrun _ => ?_
        rw [hrun] at hgrows
        have hsame := Frame.of_ok hperform hrun
        refine ih ⟨hu.1.frame hsame, hsame.plain hu.2⟩ hgrows.voting ?_ ?_ ?_
        · rw [hsame.ledger]
          exact he.tail
        · rintro ⟨f', hf'⟩
          rw [hsame.consensus]
          exact hover ⟨f', List.mem_cons_of_mem _ hf'⟩
        · exact fun f' hf' v hv => (hfinal f' (List.mem_cons_of_mem _ hf') v hv).mono hgrows.signer

/-- The engine handles an event that brings trusted votes. -/
theorem stepConsensus_voting {event : Event} {rest : List Event} (h : Steady config t)
    (hv : t.Voting config validators Auth []) (hevents : t.events = event :: rest) :
    (stepConsensus event rest t).state.Voting config validators Auth [] ∧
      ∀ effects u, stepConsensus event rest t = .ok effects u →
        u.Voting config validators Auth (decisions effects) ∧
        ∀ f, .finalize f ∈ effects → ∀ v ∈ f.certificate.precommits,
          u.actor.store.Trusts Auth v := by
  have hplain : event.Plain := h.2 event (hevents ▸ List.mem_cons_self)
  have hevent : event.Authentic (t.actor.store.Trusts Auth) :=
    hv.events event (hevents ▸ List.mem_cons_self)
  have hrest : ∀ e ∈ rest, e.Authentic (t.actor.store.Trusts Auth) := fun e he =>
    hv.events e (hevents ▸ List.mem_cons_of_mem _ he)
  rcases stepConsensus_cases event rest t with ⟨-, e, hrun⟩ |
    ⟨c, result, next, hc, hstep, hrun⟩
  · rw [hrun]
    exact ⟨hv, fun effects u hu => by cases hu⟩
  have hhistory := hv.engine c hc
  rw [List.append_nil] at hhistory
  have hbrings : ∀ v ∈ event.votes, t.actor.messageValidator.validator.Accepts v →
      t.actor.store.Trusts Auth v := fun v hmem haccepted =>
    hevent v hmem (((NodeMessageValidator.usesEd25519 _).accepts v).1 haccepted)
  have hnext := hhistory.step_authentic hbrings
  have hreturned : ∀ effects, result = .ok effects → (∀ d ∈ decisions effects, d.Proven) ∧
      ∀ f, .finalize f ∈ effects → ∀ v ∈ f.certificate.precommits,
        t.actor.store.Trusts Auth v := by
    intro effects hs
    exact hhistory.returned_of_step hbrings (by rw [hstep, hs])
  obtain ⟨-, -, hemitted⟩ := c.step_emitted (V := t.actor.messageValidator.validator) hplain
    (h.1.engine.unstarted c hc)
  rw [hstep] at hnext hemitted
  have hheight : next.height = c.height := congrArg Setup.height hnext.inv.setup
  have hstepped : Turn.Voting config validators Auth (handedOut result) { t with
      actor := { t.actor with consensus := some next }
      events := rest
      current := none
      effects := result.toOption.getD [] } := by
    refine ⟨hv.lawful, hv.past, hv.key, fun c' hc' => ?_, fun d hd => ?_, hrest⟩
    · obtain rfl := Option.some.inj hc'
      rw [hheight]
      exact hnext
    · cases result with
      | error e => exact absurd hd List.not_mem_nil
      | ok effects =>
          refine ⟨(hreturned effects rfl).1 d hd, next, rfl, ?_⟩
          rw [hheight]
          exact (hemitted effects rfl).1.decisions d.1 d.2 (mem_decisions.1 hd)
  rw [hrun]
  refine ⟨?_, fun effects u hu => ?_⟩
  · rw [readOnly_orFail]
    exact hstepped.lose (List.nil_sublist _)
  · obtain ⟨rfl, rfl⟩ := orFail_eq_ok.1 hu
    exact ⟨hstepped, (hreturned effects rfl).2⟩

/-! ## What a node does -/

/-- A turn in step whose decisions are all stored. -/
def Settled (config : NodeConfig) (validators : ValidatorSet) (Auth : SignedVote → Prop)
    (t : Turn) : Prop :=
  t.InStep config ∧ t.Voting config validators Auth []

theorem Settled.quiet (h : Settled config validators Auth t) (hq : t.Quiet u) :
    Settled config validators Auth u := ⟨h.1.quiet hq, h.2.quiet hq⟩

theorem processConsensusEvent_settled {event : Event}
    (hvalidators : ValidatorSet.new devValidatorIds = .ok validators) (he : event.External)
    (hauthentic : event.Authentic Auth) (h : Settled config validators Auth t) :
    Settled config validators Auth (processConsensusEvent event t).state := by
  refine ⟨processConsensusEvent_inStep he h.1, ?_⟩
  rcases processConsensusEvent_cases event t with hrun | hrun
  · rw [hrun]
    exact h.2
  · let u : Turn := { t with events := [event], current := none, effects := [] }
    have hsteady : Steady config u := by
      refine ⟨⟨h.1.secured.of_same rfl rfl rfl rfl rfl rfl fun _ => id, h.1.engine⟩, ?_⟩
      intro e hmem cert
      obtain rfl := List.mem_singleton.1 hmem
      rintro rfl
      exact he
    have hvoting : u.Voting config validators Auth [] := by
      refine ⟨h.2.lawful, h.2.past, h.2.key, h.2.engine, h.2.pending, fun e hmem => ?_⟩
      obtain rfl := List.mem_singleton.1 hmem
      exact hauthentic.mono fun v => .inl
    rw [hrun]
    refine (drive_kept (Q := fun u => Steady config u ∧ u.Voting config validators Auth [])
      (fun {t event rest} ht hevents => ?_) t.env.fuel ⟨hsteady, hvoting⟩).2
    obtain ⟨hstep, heffects⟩ := stepConsensus_steady ht.1 hevents
    obtain ⟨hvstep, hveffects⟩ := stepConsensus_voting ht.1 ht.2 hevents
    refine ⟨⟨hstep, hvstep⟩, fun effects u hu hq => ?_⟩
    obtain ⟨hemitted, hover⟩ := heffects effects u hu
    obtain ⟨hpending, hfinal⟩ := hveffects effects u hu
    exact ⟨performEffects_steady hq.1 hemitted hover,
      performEffects_voting hvalidators hq.1 hpending hemitted hover hfinal⟩

theorem receiveProposal_settled (signed : SignedProposal) (block : Block)
    (h : Settled config validators Auth t) :
    Settled config validators Auth (receiveProposal signed block t).state := by
  have hupholds : Reaches (Turn.Upholds config validators Auth []) (receiveProposal signed block)
      t := by
    refine reaches_actor_bind <| .ensure_bind fun _ => reaches_okOr_bind fun consensus _ => ?_
    refine reaches_orFail_bind fun cacheable _ => ?_
    split
    · refine .lift_bind fun row _ => (upholds_storeProposal row).bind fun _ _ _ => ?_
      exact (upholds_update rfl rfl rfl).bind fun _ _ _ => .pure _
    · exact .pure _
  exact ⟨receiveProposal_inStep signed block h.1, (Upholds.of_path hupholds h.2).1⟩

/-- A block with an authentic certificate is imported. -/
theorem importNext_settled {record : FinalizedWireRecord}
    (hvalidators : ValidatorSet.new devValidatorIds = .ok validators)
    (hA : record.certificate.Authentic Auth) (h : Settled config validators Auth t) :
    Settled config validators Auth (importNext record t).state := by
  refine ⟨importNext_inStep record h.1, ?_⟩
  have hrun : importNext record = (commitFinalized record.block record.certificate false >>= fun _ =>
      resetConsensus) >>= fun _ => finishSyncIfCurrent := by
    rw [bind_assoc]
    rfl
  rw [hrun]
  have hcommit := commit_reset_voting record.block false hvalidators
    h.1.secured h.2 (hA.mono fun v => .inl)
  refine kept_bind hcommit fun _ u _ hu => ?_
  exact Reaches.kept (reaches_mono (fun _ _ hq hu => hu.quiet hq) quiet_finishSyncIfCurrent) hu

end NodeM

/-- Whatever a node does with authentic votes, its store stays lawful. -/
theorem serves_settled (hvalidators : ValidatorSet.new devValidatorIds = .ok validators) :
    Turn.Serves (Event.Authentic Auth) (·.certificate.Authentic Auth) fun t u =>
      NodeM.Settled config validators Auth t → NodeM.Settled config validators Auth u where
  calm hq h := h.quiet hq.1
  compares _ _ _ _ := NodeM.reaches_mono (fun _ _ hq h => h.quiet hq) (NodeM.quiet_compareFinalized _)
  process he hauthentic _ := .single fun h =>
    NodeM.processConsensusEvent_settled hvalidators he hauthentic h
  receive signed block _ _ _ := .single fun h => NodeM.receiveProposal_settled signed block h
  start t h := ⟨covers_inStep.start t h.1, h.2.of_same rfl rfl rfl rfl fun _ => id⟩
  imports t record _ _ hA := .single fun h => NodeM.importNext_settled hvalidators hA h
  resume t h := ⟨covers_inStep.resume t h.1, h.2.of_same rfl rfl rfl rfl fun _ => id⟩
  resend t wire rest hwires h := by
    refine ⟨covers_inStep.resend t wire rest hwires h.1, h.2.of_same rfl rfl rfl rfl fun s hs => ?_⟩
    exact (List.mem_append.1 hs).resolve_right fun hs => by cases List.mem_singleton.1 hs
  resent t wire rest hwires h :=
    ⟨covers_inStep.resent t wire rest hwires h.1, h.2.of_same rfl rfl rfl rfl fun _ => id⟩

/-! ## The engine of a node that starts -/

omit [Primitives] in
theorem Store.Readable.getLast_decisionsAt {s : Store} {height : Height}
    {row : PersistedConsensusDecision} (h : s.Readable)
    (hlast : (s.consensusDecisions height).getLast? = some row) :
    ∃ d, row.Decided d ∧ (s.decisionsAt height).getLast? = some d := by
  have hmem : row ∈ s.signerState :=
    (List.mem_filter.1 (List.mem_of_getLast? hlast)).1
  obtain ⟨d, hd⟩ := h row hmem
  refine ⟨d, hd, ?_⟩
  obtain ⟨init, hinit⟩ := List.getLast?_eq_some_iff.1 hlast
  unfold decisionsAt
  rw [hinit, List.filterMap_append]
  simp [hd.decision?]

theorem history_of_restoreDecisions {S : Setup} {A : SignedVote → Prop} {entries : List Decision}
    {height : Height} {c c' : Consensus} {decisions : List PersistedConsensusDecision}
    {messages : List SignedMessage} (h : restoreDecisions height c decisions = .ok (c', messages))
    (hc : History S A none entries c) : History S A none entries c' := by
  induction decisions generalizing c messages with
  | nil =>
      cases h
      exact hc
  | cons decision rest ih =>
      obtain ⟨signed, -, h⟩ := Except.bind_eq_ok.1 h
      obtain ⟨next, hnext, h⟩ := Except.bind_eq_ok.1 h
      obtain ⟨⟨c₁, messages₁⟩, hrest, h⟩ := Except.bind_eq_ok.1 h
      cases Except.pure_eq_ok.1 h
      obtain ⟨-, ds, rfl⟩ := Consensus.restoreLocalDecision_eq_ok (Except.mapError_eq_ok.1 hnext)
      exact ih hrest (hc.advance (hc.inv.bookkeeping _ _ _) (.of_eq rfl ⟨rfl, rfl⟩ id fun _ => id))

/-- The engine of a node that starts on a lawful store goes on with the stored decisions. -/
theorem initializeConsensusRecovery_history {store : Store} {ledger : LedgerState}
    {key : Option SigningKey} {recovery : ConsensusRecovery}
    (hvalidators : ValidatorSet.new devValidatorIds = .ok validators)
    (hlawful : store.Lawful config validators Auth) (hnext : store.nextHeight = ledger.height + 1)
    (h : initializeConsensusRecovery config store ledger devValidatorIds key = .ok recovery) :
    ∀ c ∈ recovery.consensus, History (config.setup validators c.height) (store.Trusts Auth) none
      (store.decisionsAt c.height) c := by
  intro c hc
  cases key with
  | none =>
      obtain rfl := Except.ok.inj h
      cases hc
  | some key =>
      obtain ⟨validators', hvalidators', h⟩ := Except.bind_eq_ok.1 h
      obtain rfl : validators' = validators :=
        Except.ok.inj ((Except.mapError_eq_ok.1 hvalidators').symm.trans hvalidators)
      cases hsafety : store.consensusSafety with
      | none =>
          rw [hsafety] at h
          obtain ⟨fresh, hfresh, h⟩ := Except.bind_eq_ok.1 h
          have hfresh := Except.mapError_eq_ok.1 hfresh
          cases Except.pure_eq_ok.1 h
          obtain rfl := Option.some.inj hc
          obtain rfl := Consensus.new_eq_ok (S := config.setup validators' (ledger.height + 1)) hfresh
          have hidle := hlawful.idle hsafety
          rw [hnext] at hidle
          change History _ _ none (store.decisionsAt (ledger.height + 1)) _
          rw [hidle]
          exact History.begin (Consensus.inv_initial ⟨_, hfresh⟩)
      | some safety =>
          rw [hsafety] at h
          simp only [recoverInterrupted, Except.bind_eq_ok, Except.mapError_eq_ok,
            Except.pure_eq_ok, Except.okOr_eq_ok, Except.ensure_eq_ok, exists_const] at h
          obtain ⟨-, state, hstate, -, _, -, rows, -, recovered, -, -, -, _, -, c₀, hc₀, last, hlast,
            hbytes, ⟨c₁, messages⟩, hrestored, wires, -, rfl⟩ := h
          obtain rfl := Option.some.inj hc
          obtain ⟨hround, -, -, rfl⟩ := (Consensus.newWithSafetyState_eq_ok
            (S := config.setup validators' (ledger.height + 1))).1 hc₀
          -- the active safety state is that of the decision stored last
          obtain ⟨d, hd, hdlast⟩ := hlawful.readable.getLast_decisionsAt hlast
          obtain rfl : d.2 = state := by
            rw [hd.safetyState] at hbytes
            rw [← hbytes, Formats.safetyFromSlice_toVec] at hstate
            exact Option.some.inj hstate
          have hresumed : History (config.setup validators' (ledger.height + 1)) (store.Trusts Auth)
              none (store.decisionsAt (ledger.height + 1))
              ((Consensus.initial (.fromSigningKey key) validators' (ledger.height + 1)
                (ConsensusConfig.forChain config.chainId)).resumeFrom d.2) :=
            Host.history_resumeFrom (hlawful.ordered _) (hlawful.justified _) hdlast hround
          have hrestored := history_of_restoreDecisions hrestored hresumed
          have hheight : c₁.height = ledger.height + 1 := congrArg Setup.height hrestored.inv.setup
          change History _ _ none (store.decisionsAt c₁.height) c₁
          rw [hheight]
          exact hrestored

/-- A node that starts on a lawful store. -/
theorem startNode_settled {store : Store} {network : Bool} {peers : BTreeSet PeerId}
    {time : Instant} {a : NodeActor} {env : Environment}
    (hvalidators : ValidatorSet.new devValidatorIds = .ok validators)
    (hlawful : store.Lawful config validators Auth)
    (hsecured : (Turn.begin env a).Secured config)
    (h : startNode config store network peers time = .ok a) :
    NodeM.Settled config validators Auth (Turn.begin env a) := by
  have hstarted := startNode_started h
  have hnext : store.nextHeight = a.ledger.height + 1 := hstarted.store_eq ▸ hsecured.nextHeight
  refine ⟨⟨hsecured, startNode_inStep h⟩, ?_, fun s hs => absurd hs List.not_mem_nil,
    hstarted.wired.localValidatorKey, fun c hc => ?_, fun d hd => absurd hd List.not_mem_nil,
    fun e he => absurd he List.not_mem_nil⟩
  · exact hstarted.store_eq.symm ▸ hlawful
  · simp only [startNode, Except.bind_eq_ok, Except.pure_eq_ok, Except.mapError_eq_ok] at h
    obtain ⟨chainId, -, _, -, history, -, ledger, -, key, -, recovery, hrecovery, rfl⟩ := h
    rw [List.append_nil]
    exact initializeConsensusRecovery_history hvalidators hlawful hnext hrecovery c hc

/-! ## Every run -/

/-- The command brings authentic votes only. -/
structure Command.Authentic (Auth : SignedVote → Prop) (c : Command) : Prop where
  events : ∀ e, c.Hands e → e.Authentic Auth
  records : ∀ record, c.Brings record → record.certificate.Authentic Auth

omit [Formats] in
theorem Command.Authentic.mono {Auth Auth' : SignedVote → Prop} {c : Command} (h : c.Authentic Auth)
    (hA : ∀ v, Auth v → Auth' v) : c.Authentic Auth' :=
  ⟨fun e he => (h.events e he).mono hA, fun record hr => (h.records record hr).mono hA⟩

namespace Machine

variable {m m' : Machine} {t : Turn}

/-- A turn in which the node is given authentic votes only. -/
inductive Feeds (config : NodeConfig) (Auth : SignedVote → Prop) (m : Machine) : Turn → Prop
  | boot (env : Environment) (network : Bool) (peers : BTreeSet PeerId) (time : Instant)
      (a : NodeActor) (stopped : m.actor = none)
      (h : startNode config m.store network peers time = .ok a) :
      Feeds config Auth m (NodeM.boot (Turn.begin env a)).state
  | command (env : Environment) (c : Command) (a : NodeActor) (running : m.actor = some a)
      (authentic : c.Authentic Auth) :
      Feeds config Auth m (NodeM.handleCommand c (Turn.begin env a)).state

/-- A step of a node that is given authentic votes only. -/
inductive FedStep (config : NodeConfig) (Auth : SignedVote → Prop) (m : Machine) : Machine → Prop
  | finish (t : Turn) (h : m.Feeds config Auth t) : FedStep config Auth m (m.finished t)
  | crash (t : Turn) (trace : List Occurrence) (h : m.Feeds config Auth t)
      (hto : trace <+: t.trace) : FedStep config Auth m (m.crashed trace)

/-- What a node that is given authentic votes only can come to. -/
def Fed (config : NodeConfig) (Auth : SignedVote → Prop) (m : Machine) : Prop :=
  ReflTransGen (FedStep config Auth) created m

theorem Feeds.turns (h : m.Feeds config Auth t) : m.Turns config t := by
  cases h with
  | boot env network peers time a stopped h => exact .boot env network peers time a stopped h
  | command env c a running _ => exact .command env c a running

theorem FedStep.step (h : FedStep config Auth m m') : Step config m m' := by
  cases h with
  | finish t h => exact .finish t h.turns
  | crash t trace h hto => exact .crash t trace h.turns hto

theorem FedStep.mono {Auth' : SignedVote → Prop} (h : FedStep config Auth m m')
    (hA : ∀ v, Auth v → Auth' v) : FedStep config Auth' m m' := by
  have hfeeds : ∀ {t}, m.Feeds config Auth t → m.Feeds config Auth' t := by
    intro t ht
    cases ht with
    | boot env network peers time a stopped ha => exact .boot env network peers time a stopped ha
    | command env c a running hc => exact .command env c a running (hc.mono hA)
  cases h with
  | finish t h => exact .finish t (hfeeds h)
  | crash t trace h hto => exact .crash t trace (hfeeds h) hto

theorem Fed.mono {Auth' : SignedVote → Prop} (h : Fed config Auth m) (hA : ∀ v, Auth v → Auth' v) :
    Fed config Auth' m :=
  ReflTransGen.mono (fun _ _ hstep => FedStep.mono hstep hA) _ _ h

theorem Fed.reachable (h : Fed config Auth m) : Reachable config m :=
  ReflTransGen.mono (fun _ _ => FedStep.step) _ _ h

theorem Fed.honest (h : Fed config Auth m) : m.Honest :=
  Operated.honest (ReflTransGen.mono (fun _ _ hstep => ⟨config, hstep⟩) _ _ h.reachable)

/-- A turn of a run begins on a store whose active safety row is the one of its next height. -/
theorem Reachable.secured (h : Reachable config m) {a : NodeActor} (ha : m.Begins config a)
    (env : Environment) : (Turn.begin env a).Secured config := by
  obtain ⟨hstore, hrecorded⟩ := h.begins ha env
  refine ⟨hrecorded, ?_, fun s hs => absurd hs List.not_mem_nil⟩
  change a.store.Active
  rw [hstore]
  exact h.active

/-- In every run on authentic votes, crashes and restarts included, the store is lawful, and whenever
a turn begins the decisions of the engine are those that are stored. -/
theorem Fed.settled (hvalidators : ValidatorSet.new devValidatorIds = .ok validators)
    (hrole : config.role ≠ .standalone) (h : Fed config Auth m) :
    m.store.Lawful config validators Auth ∧ ∀ a, m.actor = some a → ∀ env,
      NodeM.Settled config validators Auth (Turn.begin env a) := by
  have hserves : Turn.Serves (Event.Authentic Auth) (·.certificate.Authentic Auth) fun t u =>
      NodeM.Settled config validators Auth t → NodeM.Settled config validators Auth u :=
    serves_settled hvalidators
  have hstart : Event.Authentic Auth .start := fun v hv => absurd hv List.not_mem_nil
  have hhalt : ∀ u, Reaches (fun t u => NodeM.Settled config validators Auth t →
      NodeM.Settled config validators Auth u) NodeM.enterHaltedState u := fun _ =>
    NodeM.reaches_mono (fun _ _ hq h => h.quiet hq) NodeM.quiet_enterHaltedState
  induction h with
  | refl => exact ⟨.empty, fun a ha => by cases ha⟩
  | @tail m m' hm hstep ih =>
      obtain ⟨hlawful, hrunning⟩ := ih
      have hturn : ∀ t, m.Feeds config Auth t → NodeM.Settled config validators Auth t := by
        intro t ht
        cases ht with
        | boot env network peers time a stopped ha =>
            have hsecured := (Fed.reachable hm).secured (.inr ⟨_, _, _, ha⟩) env
            exact Reaches.kept (hserves.boot hstart hhalt) (startNode_settled hvalidators hlawful hsecured ha)
        | command env c a running hc =>
            refine Reaches.kept (hserves.handleCommand c hc.events hc.records fun _ u _ hu => ?_)
              (hrunning a running env)
            refine .single fun hsettled => absurd ?_ hrole
            rw [← hsettled.1.secured.recorded.1.config_eq]
            exact hu
      cases hstep with
      | finish t h =>
          obtain ⟨hin, hv⟩ := hturn t h
          refine ⟨hv.lawful, ?_⟩
          rintro _ ⟨⟩ env
          refine ⟨⟨?_, hin.engine⟩, ?_⟩
          · exact hin.secured.of_same rfl rfl rfl rfl rfl rfl fun s hs => absurd hs List.not_mem_nil
          · exact ⟨hv.lawful, fun s hs => absurd hs List.not_mem_nil, hv.key, hv.engine, hv.pending,
              fun e he => absurd he List.not_mem_nil⟩
      | crash t trace h hto =>
          refine ⟨?_, fun a ha => by cases ha⟩
          rcases m.store.after_cases trace with hsame | hcommitted
          · change (m.store.after trace).Lawful config validators Auth
            rw [hsame]
            exact hlawful
          · exact (hturn t h).2.past _ (hto.subset hcommitted)

/-- Every turn of such a run begins settled. -/
theorem Fed.begins (hvalidators : ValidatorSet.new devValidatorIds = .ok validators)
    (hrole : config.role ≠ .standalone) (h : Fed config Auth m) {a : NodeActor}
    (ha : m.Begins config a) (env : Environment) :
    NodeM.Settled config validators Auth (Turn.begin env a) := by
  obtain ⟨hlawful, hrunning⟩ := h.settled hvalidators hrole
  rcases ha with ha | ⟨network, peers, time, ha⟩
  · exact hrunning a ha env
  · exact startNode_settled hvalidators hlawful (h.reachable.secured (.inr ⟨_, _, _, ha⟩) env) ha

end Machine

end

end KCoin
