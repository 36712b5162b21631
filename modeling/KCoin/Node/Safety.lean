import KCoin.Consensus.Emitted
import KCoin.Node.Sync

/-!
# The active safety row

A validator that stores a decision makes its safety state the active one, and the commit of a block
clears the active state of its height. The engine of a node is one of the next height, unless it has
finalized the block of that height and does nothing more (`NodeActor.InStep`), so the active row is
always one of the next height, and the one that was stored with the last decision (`Store.Active`).
-/

open Relation EStateM

namespace KCoin

/-! ## The row and the tables -/

namespace Store

/-- The finalized block of the greatest height. -/
def tip (s : Store) : Option BlockRow := s.canonicalBlockRows.getLast?

/-- One more than the greatest finalized height, and 1 if there is none. -/
def nextHeight (s : Store) : UInt64 := s.tip.elim 0 (·.height) + 1

/-- The active safety row is one of the next height, and it is the safety state of the decision that
was stored last, which is one of that height too. -/
def Active (s : Store) : Prop :=
  ∀ height bytes, s.consensusSafety = some (height, bytes) → height = s.nextHeight ∧
    ∃ row, s.signerState.getLast? = some row ∧ row.safetyState = bytes ∧
      slotHeight row.slot = some height

variable {s s' : Store}

/-- The tip of blocks from height 1 on is the last of them. -/
theorem toNat_tip {n : Nat} (h : s.canonicalBlockRows.map (·.height.toNat) = List.range' 1 n) :
    (s.tip.elim 0 (·.height)).toNat = n := by
  have hlast : s.tip.map (·.height.toNat) = (List.range' 1 n).getLast? := by
    rw [tip, ← List.getLast?_map, h]
  rw [List.getLast?_range'] at hlast
  cases htip : s.tip with
  | none =>
      rw [htip] at hlast
      split at hlast
      · next hzero => exact hzero.symm
      · cases hlast
  | some row =>
      rw [htip] at hlast
      split at hlast
      · cases hlast
      · simpa using hlast

theorem active_of_none (h : s.consensusSafety = none) : s.Active := by
  intro height bytes hsafety
  rw [h] at hsafety
  cases hsafety

theorem Active.of_same (h : s.Active) (hblocks : s'.blocks = s.blocks)
    (hsafety : s'.consensusSafety = s.consensusSafety) (hsigner : s'.signerState = s.signerState) :
    s'.Active := by
  intro height bytes hrow
  rw [hsafety] at hrow
  rw [nextHeight, tip, canonicalBlockRows, hblocks, hsigner]
  exact h height bytes hrow

/-- The commit of a block clears the safety state of its height and no other. -/
theorem persistFinalized_safety {p : FinalizedProjection} (h : s.persistFinalized p = .ok s') :
    s'.consensusSafety = s.consensusSafety.filter (fun safety => safety.1 ≠ p.height) ∧
      s'.signerState = s.signerState := by
  obtain ⟨-, -, -, -, hs'⟩ := persistFinalized_eq_ok h
  rw [hs']
  exact ⟨rfl, rfl⟩

/-- A proposal has no part in the safety state. -/
theorem persistConsensusProposal_safety {p : PersistedConsensusProposal}
    (h : s.persistConsensusProposal p = .ok s') :
    s'.consensusSafety = s.consensusSafety ∧ s'.signerState = s.signerState := by
  obtain ⟨_, -, h⟩ := Except.bind_eq_ok.1 h
  split at h
  · obtain ⟨_, -, h⟩ := Except.bind_eq_ok.1 h
    obtain rfl := Except.pure_eq_ok.1 h
    exact ⟨rfl, rfl⟩
  · obtain rfl := Except.pure_eq_ok.1 h
    exact ⟨rfl, rfl⟩

/-- A repeated decision changes a message at most, and a new one becomes the last, with its safety
state as the active one. -/
theorem persistConsensusDecision_safety {row : PersistedConsensusDecision} {signature : List UInt8}
    (h : s.persistConsensusDecision row = .ok (signature, s')) :
    (s'.consensusSafety = s.consensusSafety ∧
      ∃ f : PersistedConsensusDecision → PersistedConsensusDecision,
        (∀ r, (f r).slot = r.slot ∧ (f r).safetyState = r.safetyState) ∧
        s'.signerState = s.signerState.map f) ∨
    ∃ height, slotHeight row.slot = some height ∧
      s'.consensusSafety = some (height, row.safetyState) ∧
      s'.signerState = s.signerState ++ [row] := by
  obtain ⟨height, hheight, h⟩ := Except.bind_eq_ok.1 h
  have hheight := Except.okOr_eq_ok.1 hheight
  split at h
  · obtain ⟨_, -, h⟩ := Except.bind_eq_ok.1 h
    obtain ⟨_, -, h⟩ := Except.bind_eq_ok.1 h
    obtain ⟨_, -, h⟩ := Except.bind_eq_ok.1 h
    refine .inl ?_
    split at h
    · cases Except.pure_eq_ok.1 h
      refine ⟨rfl, _, fun r => ?_, rfl⟩
      split <;> exact ⟨rfl, rfl⟩
    · cases Except.pure_eq_ok.1 h
      exact ⟨rfl, id, fun _ => ⟨rfl, rfl⟩, (List.map_id _).symm⟩
  · obtain ⟨_, -, h⟩ := Except.bind_eq_ok.1 h
    cases Except.pure_eq_ok.1 h
    exact .inr ⟨height, hheight, rfl, rfl⟩

/-- A decision of the next height keeps the active row. -/
theorem Active.persistConsensusDecision (h : s.Active) {row : PersistedConsensusDecision}
    {signature : List UInt8} (hrun : s.persistConsensusDecision row = .ok (signature, s'))
    (hheight : slotHeight row.slot = some s.nextHeight) (hblocks : s'.blocks = s.blocks) :
    s'.Active := by
  intro height bytes hsafety
  rw [nextHeight, tip, canonicalBlockRows, hblocks]
  rcases persistConsensusDecision_safety hrun with ⟨hsame, f, hf, hsigner⟩ |
    ⟨height', hslot, hrow, hsigner⟩
  · rw [hsame] at hsafety
    obtain ⟨hnext, last, hlast, hbytes, hslot⟩ := h height bytes hsafety
    refine ⟨hnext, f last, ?_, (hf last).2.trans hbytes, ?_⟩
    · rw [hsigner, List.getLast?_map, hlast, Option.map_some]
    · rw [(hf last).1, hslot]
  · rw [hrow] at hsafety
    cases hsafety
    obtain rfl := Option.some.inj (hheight.symm.trans hslot)
    exact ⟨rfl, row, by rw [hsigner, List.getLast?_concat], rfl, hslot⟩

end Store

/-! ## Turns with an active row -/

section
variable [Primitives] [Formats] {config : NodeConfig} {t u : Turn}

/-- The store of the turn, and every store it committed before, has an active row at most. -/
structure Turn.Secured (config : NodeConfig) (t : Turn) : Prop where
  recorded : Machine.Recorded config t
  active : t.actor.store.Active
  past : ∀ s, .committed s ∈ t.trace → s.Active

omit [Formats] in
/-- The highest stored block is the tip of the ledger. -/
theorem NodeActor.Chained.nextHeight {a : NodeActor} {history : BlockHistory}
    (h : a.Chained history) : a.store.nextHeight = a.ledger.height + 1 :=
  congrArg (· + 1) (UInt64.toNat_inj.1 (Store.toNat_tip h.heights))

omit [Formats] in
theorem Turn.Secured.nextHeight (h : t.Secured config) :
    t.actor.store.nextHeight = t.actor.ledger.height + 1 := by
  obtain ⟨-, history, hc⟩ := h.recorded
  exact hc.nextHeight

omit [Formats] in
/-- A commit that is no block, of a store that has an active row at most. -/
theorem Turn.Secured.stored (h : t.Secured config) {store : Store}
    (htables : t.actor.store.SameTables store) (hactive : store.Active) :
    (t.stored store).Secured config := by
  obtain ⟨hw, history, hc⟩ := h.recorded
  refine ⟨⟨hw.of_same rfl rfl rfl rfl, history, hc.of_same rfl htables.blocks rfl rfl⟩, hactive,
    fun s hs => ?_⟩
  rcases List.mem_append.1 hs with hs | hs
  · exact h.past s hs
  · cases List.mem_singleton.1 hs
    exact hactive

omit [Formats] in
/-- A change that concerns neither the chain of the actor nor its store. -/
theorem Turn.Secured.of_same (h : t.Secured config) (hconfig : u.actor.config = t.actor.config)
    (hchain : u.actor.chainId = t.actor.chainId)
    (hids : u.actor.validatorIds = t.actor.validatorIds)
    (hkey : u.actor.localValidatorKey = t.actor.localValidatorKey)
    (hledger : u.actor.ledger = t.actor.ledger) (hstore : u.actor.store = t.actor.store)
    (htrace : ∀ s, .committed s ∈ u.trace → .committed s ∈ t.trace) : u.Secured config := by
  obtain ⟨hw, history, hc⟩ := h.recorded
  refine ⟨⟨hw.of_same hconfig hchain hids hkey, history,
    hc.of_same hledger (congrArg Store.blocks hstore) hchain hids⟩, ?_, fun s hs => ?_⟩
  · rw [hstore]
    exact h.active
  · exact h.past s (htrace s hs)

omit [Formats] in
/-- What else leaves the node makes no difference. -/
theorem Turn.Secured.said (h : t.Secured config) (asked : Nat) {os : List Occurrence}
    (hos : ∀ s, .committed s ∉ os) : (t.said asked os).Secured config := by
  refine h.of_same rfl rfl rfl rfl rfl rfl fun s hs => ?_
  exact (List.mem_append.1 hs).resolve_right (hos s)

/-- The commit of a block clears the active row. -/
theorem Turn.Secured.commit (h : t.Secured config) {block : Block} {certificate : CommitCertificate}
    {receipts : List TransactionReceipt} {candidate : LedgerState} {store : Store}
    (hc : t.actor.Commits block certificate receipts candidate store) :
    ((t.stored store).withActor (t.actor.committed candidate store)).Secured config := by
  obtain ⟨hw, history, hchained⟩ := h.recorded
  have hactive : store.Active := by
    obtain ⟨_, _, projection, -, hprojection, hstore⟩ := hc.store
    obtain ⟨accounts, issuedAt, -, -, -, rfl⟩ := buildProjection_eq_ok hprojection
    have hheight : block.header.height = t.actor.ledger.height + 1 := by
      have hb := (LedgerState.applyFinalizedBlock_eq_ok.1 hc.ledger).2
      rw [← UInt64.toNat_inj, hb.height, checkedAdd_eq_some.1 hchained.next_height.1]
      rfl
    refine Store.active_of_none ?_
    rw [(Store.persistFinalized_safety hstore).1, Option.filter_eq_none_iff]
    rintro ⟨height, bytes⟩ hsafety
    have hnext := (h.active height bytes hsafety).1
    rw [h.nextHeight, ← hheight] at hnext
    have hcleared : height = (finalizedProjection candidate block certificate receipts accounts
        issuedAt).height := hnext
    simpa using hcleared
  refine ⟨⟨hw.of_same rfl rfl rfl rfl, _, hchained.commit hc⟩, hactive, fun s hs => ?_⟩
  rcases List.mem_append.1 hs with hs | hs
  · exact h.past s hs
  · cases List.mem_singleton.1 hs
    exact hactive

theorem Turn.Secured.quiet (h : t.Secured config) (hq : t.Quiet u) : u.Secured config := by
  have hs := hq.sameCore
  obtain ⟨os, hos, htrace⟩ := hq.trace
  refine ⟨h.recorded.move (.quiet hq), by rw [hs.store]; exact h.active, fun s hmem => ?_⟩
  rw [htrace] at hmem
  rcases List.mem_append.1 hmem with hmem | hmem
  · exact h.past s hmem
  · exact (hos _ hmem).elim

/-! ## The driver between two blocks -/

/-- What the driver leaves as it is while it commits no block. -/
structure Turn.Frame (config : NodeConfig) (t u : Turn) : Prop where
  key : u.actor.localValidatorKey = t.actor.localValidatorKey
  ledger : u.actor.ledger = t.actor.ledger
  consensus : u.actor.consensus = t.actor.consensus
  plain : (∀ e ∈ t.events, e.Plain) → ∀ e ∈ u.events, e.Plain
  secured : t.Secured config → u.Secured config

namespace NodeM

variable {α : Type} {x : NodeM α}

omit [Formats] in
theorem Frame.of_path (h : ReflTransGen (Turn.Frame config) t u) : t.Frame config u := by
  induction h with
  | refl => exact ⟨rfl, rfl, rfl, id, id⟩
  | tail _ hlast ih =>
      exact ⟨hlast.key.trans ih.key, hlast.ledger.trans ih.ledger,
        hlast.consensus.trans ih.consensus, fun h => hlast.plain (ih.plain h),
        fun h => hlast.secured (ih.secured h)⟩

omit [Formats] in
theorem Frame.of_ok (h : Reaches (Turn.Frame config) x t) {a : α} (hu : x t = .ok a u) :
    t.Frame config u := by
  rw [Reaches, hu] at h
  exact Frame.of_path h

theorem frame_quiet (h : t.Quiet u) : t.Frame config u := by
  have hs := h.sameCore
  refine ⟨hs.localValidatorKey, hs.ledger, hs.consensus, fun hp => ?_, fun hg => hg.quiet h⟩
  rw [h.locals.2.1]
  exact hp

theorem Reading.frame (h : Reading x) (t : Turn) : Reaches (Turn.Frame config) x t :=
  reaches_mono (fun _ _ => frame_quiet) (h.reaches t)

omit [Formats] in
/-- A commit that is no block. -/
theorem frame_stored {store : Store} (asked : Nat)
    (h : t.Secured config → t.actor.store.SameTables store ∧ store.Active) :
    t.Frame config ((t.said asked []).stored store) := by
  refine ⟨rfl, rfl, rfl, id, fun hg => ?_⟩
  obtain ⟨htables, hactive⟩ := h hg
  exact (hg.said asked fun _ => List.not_mem_nil).stored htables hactive

omit [Formats] in
theorem frame_said (asked : Nat) : t.Frame config (t.said asked []) :=
  ⟨rfl, rfl, rfl, id, fun hg => hg.said asked fun _ => List.not_mem_nil⟩

omit [Formats] in
theorem frame_writeStore {g : Store → Except StorageError (α × Store)}
    (h : ∀ a store, g t.actor.store = .ok (a, store) → t.Secured config →
      t.actor.store.SameTables store ∧ store.Active) :
    Reaches (Turn.Frame config) (writeStore g) t := by
  rcases writeStore_cases g t with ⟨e, asked, he⟩ | ⟨asked, a, store, ha, hu⟩
  · rw [Reaches, he]
    exact .single (frame_said asked)
  · rw [Reaches, hu]
    exact .single (frame_stored asked (h a store ha))

omit [Formats] in
theorem frame_appendConsensusEvent (kind : String) (bytes : List UInt8) :
    Reaches (Turn.Frame config) (appendConsensusEvent kind bytes) t := by
  refine frame_writeStore fun _ store hs hg => ?_
  cases hs
  exact ⟨⟨rfl, rfl, rfl, rfl⟩, hg.active.of_same rfl rfl rfl⟩

omit [Formats] in
/-- A proposal is stored without a change of the active row. -/
theorem frame_storeProposal (row : PersistedConsensusProposal) :
    Reaches (Turn.Frame config) (writeStore fun s => (s.persistConsensusProposal row).map ((), ·))
      t := by
  refine frame_writeStore fun _ store hs hg => ?_
  have hstore := (Except.map_pair_eq_ok.1 hs).1
  have htables := Store.persistConsensusProposal_tables hstore
  obtain ⟨hsafety, hsigner⟩ := Store.persistConsensusProposal_safety hstore
  exact ⟨htables, hg.active.of_same htables.blocks hsafety hsigner⟩

omit [Formats] in
theorem frame_persistLocalProposal (m : SignedMessage) :
    Reaches (Turn.Frame config) (persistLocalProposal m) t := by
  cases m with
  | vote v => exact .pure _
  | proposal p =>
      refine reaches_actor_bind <| reaches_okOr_bind fun block _ => .lift_bind fun row _ => ?_
      exact frame_storeProposal row

omit [Formats] in
/-- A decision of the next height is stored with its safety state. -/
theorem frame_persistDecision {row : PersistedConsensusDecision}
    (h : Store.slotHeight row.slot = some (t.actor.ledger.height + 1)) :
    Reaches (Turn.Frame config) (persistDecision row) t := by
  rcases persistDecision_cases row t with ⟨e, asked, he⟩ | ⟨asked, signature, store, hs, hu⟩
  · rw [Reaches, he]
    exact .single (frame_said asked)
  · rw [Reaches, hu]
    have hstored : t.Frame config ((t.said asked []).stored store) := by
      refine frame_stored asked fun hg => ?_
      have htables := Store.persistConsensusDecision_tables hs
      rw [← hg.nextHeight] at h
      exact ⟨htables, hg.active.persistConsensusDecision hs h htables.blocks⟩
    refine .single ⟨rfl, rfl, rfl, id, fun hg => ?_⟩
    exact (hstored.secured hg).of_same rfl rfl rfl rfl rfl rfl fun _ => id

theorem frame_signAndPersist {message : SignableMessage} (safetyState : SafetyState)
    (h : message.height = t.actor.ledger.height + 1) :
    Reaches (Turn.Frame config) (signAndPersist message safetyState) t := by
  refine reaches_actor_bind <| reaches_okOr_bind fun key _ => .ensure_bind fun _ => ?_
  refine reaches_okOr_bind fun signBytes _ => reaches_okOr_bind fun encoded _ => ?_
  have hlocal : Reaches (Turn.Frame config) (persistLocalProposal
      (signedMessage message (Primitives.sign key signBytes).toList)) t :=
    frame_persistLocalProposal _
  refine hlocal.bind fun _ u hu => ?_
  have hslot : Store.slotHeight (signerSlot message) = some (u.actor.ledger.height + 1) := by
    rw [Store.slotHeight_signerSlot, h, (Frame.of_ok hlocal hu).ledger]
  refine Reaches.bind (frame_persistDecision hslot) fun signature v _ => ?_
  refine reaches_okOr_bind fun bytes _ => ?_
  exact (frame_appendConsensusEvent _ _).bind fun _ _ _ => .pure _

omit [Formats] in
theorem frame_publishConsensusWire (wire : ConsensusWireMessage) :
    Reaches (Turn.Frame config) (publishConsensusWire wire) t := by
  refine reaches_actor_bind ?_
  split
  · refine reaches_okOr_bind fun _ _ => .modify (.single ⟨rfl, rfl, rfl, id, fun hg => ?_⟩)
    exact hg.said t.asked fun s hs => by cases List.mem_singleton.1 hs
  · exact .pure _

omit [Formats] in
theorem frame_broadcastConsensus (message : SignedMessage) :
    Reaches (Turn.Frame config) (broadcastConsensus message) t := by
  cases message with
  | proposal p =>
      exact reaches_actor_bind <| reaches_okOr_bind fun block _ => frame_publishConsensusWire _
  | vote v => exact frame_publishConsensusWire _

omit [Formats] in
theorem frame_pushEvent {event : Event} (h : event.Plain) :
    Reaches (Turn.Frame config) (pushEvent event) t := by
  refine .modify (.single ⟨rfl, rfl, rfl, fun hp e he => ?_, fun hg => ?_⟩)
  · rcases List.mem_append.1 he with he | he
    · exact hp e he
    · obtain rfl := List.mem_singleton.1 he
      exact h
  · exact hg.of_same rfl rfl rfl rfl rfl rfl fun _ => id

omit [Formats] in
/-- A change of the blocks that the actor knows. -/
theorem frame_learn {f : NodeActor → BTreeMap BlockId Block} :
    Reaches (Turn.Frame config) (update fun a => { a with proposalBlocks := f a }) t :=
  reaches_update ⟨rfl, rfl, rfl, id, fun hg => hg.of_same rfl rfl rfl rfl rfl rfl fun _ => id⟩

/-- An effect that finalizes nothing, and no decision but of the next height. -/
theorem frame_performEffect {effect : Effect} (hfinalize : ∀ f, effect ≠ .finalize f)
    (hheight : ∀ m state, effect = .persistBeforeBroadcast m state →
      m.height = t.actor.ledger.height + 1) :
    Reaches (Turn.Frame config) (performEffect effect) t := by
  cases effect with
  | requestProposal height round validBlock validRound =>
      refine reaches_actor_bind ?_
      refine ((reading_buildConsensusProposal _ _).frame t).bind fun block u _ => ?_
      exact frame_learn.bind fun _ _ _ => frame_pushEvent nofun
  | persistBeforeBroadcast message safetyState =>
      refine (frame_signAndPersist safetyState (hheight message safetyState rfl)).bind ?_
      exact fun signed u _ => frame_pushEvent nofun
  | broadcast message => exact frame_broadcastConsensus message
  | scheduleTimeout timeout => exact (reading_record (o := .timer timeout) trivial).frame t
  | finalize f => exact absurd rfl (hfinalize f)
  | evidence evidence => exact frame_appendConsensusEvent _ _

end NodeM

/-! ## The engine of the next height -/

/-- The engine of a node is one of the next height, unless it has finalized a block and takes no
further part. -/
structure NodeActor.InStep (a : NodeActor) : Prop where
  keyless : a.localValidatorKey = none → a.consensus = none
  unstarted : ∀ c ∈ a.consensus, c.started = false → c.proposals = ∅
  height : ∀ c ∈ a.consensus, c.height = a.ledger.height + 1 ∨ c.Over

/-- A turn with an active row at most, and with an engine of the next height. -/
structure Turn.InStep (config : NodeConfig) (t : Turn) : Prop where
  secured : t.Secured config
  engine : t.actor.InStep

omit [Primitives] [Formats] in
theorem NodeActor.InStep.of_none {a : NodeActor} (h : a.consensus = none) : a.InStep := by
  refine ⟨fun _ => h, fun c hc => ?_, fun c hc => ?_⟩
  · rw [h] at hc
    cases hc
  · rw [h] at hc
    cases hc

omit [Primitives] [Formats] in
theorem NodeActor.InStep.of_same {a a' : NodeActor} (h : a.InStep)
    (hkey : a'.localValidatorKey = a.localValidatorKey) (hledger : a'.ledger = a.ledger)
    (hconsensus : a'.consensus = a.consensus) : a'.InStep := by
  obtain ⟨hkeyless, hunstarted, hheight⟩ := h
  refine ⟨?_, ?_, ?_⟩
  · rw [hkey, hconsensus]
    exact hkeyless
  · rw [hconsensus]
    exact hunstarted
  · rw [hconsensus, hledger]
    exact hheight

omit [Primitives] [Formats] in
/-- The engine remains in step, and what it returns is of the next height. -/
theorem NodeActor.InStep.step {a : NodeActor} (h : a.InStep) {c next : Consensus}
    (hc : a.consensus = some c) {event : Event} (hplain : event.Plain) {V : MessageValidator}
    {result : Except ConsensusError (List Effect)} (hstep : c.step event V = (result, next)) :
    NodeActor.InStep { a with consensus := some next } ∧
      ∀ effects, result = .ok effects → Emitted (a.ledger.height + 1) effects ∧
        ((∃ f, .finalize f ∈ effects) → next.Over) := by
  have hkeyless : a.localValidatorKey ≠ none := fun hkey =>
    absurd ((h.keyless hkey).symm.trans hc) nofun
  have hunstarted := h.unstarted c hc
  rcases h.height c hc with hheight | hover
  · obtain ⟨hsame, hstarted, hemitted⟩ := c.step_emitted (V := V) hplain hunstarted
    rw [hstep] at hsame hstarted hemitted
    rw [← hheight]
    refine ⟨⟨fun hkey => absurd hkey hkeyless, ?_, ?_⟩, hemitted⟩
    · rintro _ ⟨⟩
      exact hstarted
    · rintro _ ⟨⟩
      exact .inl (hsame.trans hheight)
  · obtain ⟨hsame, hnothing⟩ := hover.step (V := V) hplain
    rw [hstep] at hsame hnothing
    obtain rfl : next = c := hsame
    refine ⟨⟨fun hkey => absurd hkey hkeyless, ?_, ?_⟩, fun effects heffects => ?_⟩
    · rintro _ ⟨⟩
      exact hunstarted
    · rintro _ ⟨⟩
      exact .inr hover
    · obtain rfl := hnothing effects heffects
      exact ⟨.nil _, fun _ => hover⟩

omit [Formats] in
theorem Turn.InStep.frame (h : t.InStep config) (hf : t.Frame config u) : u.InStep config :=
  ⟨hf.secured h.secured, h.engine.of_same hf.key hf.ledger hf.consensus⟩

theorem Turn.InStep.quiet (h : t.InStep config) (hq : t.Quiet u) : u.InStep config :=
  h.frame (NodeM.frame_quiet hq)

namespace NodeM

omit [Formats] in
/-- A fresh engine is one of the next height. -/
theorem resetConsensus_inStep (h : t.Secured config)
    (hkeyless : t.actor.localValidatorKey = none → t.actor.consensus = none) :
    ∃ u, resetConsensus t = .ok () u ∧ u.InStep config ∧ u.events = t.events := by
  obtain ⟨consensus, hrun, hnone, hsome⟩ := resetConsensus_renews h.recorded
  refine ⟨_, hrun, ⟨h.of_same rfl rfl rfl rfl rfl rfl fun _ => id, ?_⟩, rfl⟩
  cases hkey : t.actor.localValidatorKey with
  | none =>
      obtain rfl : consensus = none := (hnone hkey).trans (hkeyless hkey)
      exact .of_none rfl
  | some key =>
      obtain ⟨validators, c, hnew, rfl⟩ := hsome key hkey
      obtain rfl := Consensus.new_eq_ok (S := ⟨_, _, _⟩) hnew
      refine ⟨fun hnokey => ?_, fun c hc _ => ?_, fun c hc => .inl ?_⟩
      · exact absurd (hkey.symm.trans hnokey) nofun
      · cases hc
        rfl
      · cases hc
        rfl

/-- The commit of a block fails and changes nothing here, or the ledger moves to the block and the
engine remains the one it was. Only the announcement of the block can fail then. -/
theorem commitFinalized_secured (block : Block) (certificate : CommitCertificate) (gossip : Bool)
    (h : t.Secured config) :
    (∃ e u, commitFinalized block certificate gossip t = .error e u ∧ t.Quiet u) ∨
    ∃ u, (commitFinalized block certificate gossip t).state = u ∧ u.Secured config ∧
      u.actor.localValidatorKey = t.actor.localValidatorKey ∧
      u.actor.consensus = t.actor.consensus ∧ u.events = t.events ∧
      (gossip = false → commitFinalized block certificate gossip t = .ok () u) := by
  rcases commitFinalized_cases block certificate gossip t with ⟨e, asked, os, hos, he⟩ |
    ⟨receipts, candidate, store, asked, os, asked', os', lastBlockAt, hos, hos', hc, hstate, hok⟩
  · exact .inl ⟨e, _, he, .say t asked os hos⟩
  · refine .inr ⟨_, hstate, ?_, rfl, rfl, rfl, fun hgossip => ?_⟩
    · have hsaid : (t.said asked os).Secured config := h.quiet (.say t asked os hos)
      have hstored := hsaid.commit (t := t.said asked os) hc
      have hclock := hstored.quiet (.clock _ lastBlockAt t.actor.lastStatusAt)
      exact hclock.quiet (.say _ asked' os' hos')
    · rw [← hstate]
      exact EStateM.Result.eq_of_isOk (hok hgossip)

/-- A turn in step, with given events to handle. -/
def InStepWith (config : NodeConfig) (events : List Event) (t : Turn) : Prop :=
  t.InStep config ∧ t.events = events

/-- A commit by an engine that is over, and the exchange of that engine. -/
theorem commit_reset_inStep (block : Block) (certificate : CommitCertificate) (gossip : Bool)
    (h : t.InStep config) (hover : ∀ c ∈ t.actor.consensus, c.Over) :
    InStepWith config t.events
      ((commitFinalized block certificate gossip >>= fun _ => resetConsensus) t).state := by
  have hcommit : InStepWith config t.events
      (commitFinalized block certificate gossip t).state := by
    rcases commitFinalized_secured block certificate gossip h.secured with ⟨e, u, he, hq⟩ |
      ⟨u, hstate, hg, hkey, hconsensus, hevents, -⟩
    · rw [he]
      exact ⟨h.quiet hq, hq.locals.2.1⟩
    · rw [hstate]
      refine ⟨⟨hg, ⟨?_, ?_, fun c hc => .inr ?_⟩⟩, hevents⟩
      · rw [hkey, hconsensus]
        exact h.engine.keyless
      · rw [hconsensus]
        exact h.engine.unstarted
      · rw [hconsensus] at hc
        exact hover c hc
  refine kept_bind hcommit fun _ u _ hu => ?_
  obtain ⟨v, hreset, hv, hevents⟩ := resetConsensus_inStep hu.1.secured hu.1.engine.keyless
  rw [hreset]
  exact ⟨hv, hevents.trans hu.2⟩

/-- A finalization by an engine that is over brings about a fresh one. -/
theorem finalizeBlock_inStep (f : Finalization) (h : t.InStep config)
    (hover : ∀ c ∈ t.actor.consensus, c.Over) :
    InStepWith config t.events (finalizeBlock f t).state := by
  refine Reaches.kept (Q := InStepWith config t.events) ?_ ⟨h, rfl⟩
  refine reaches_actor_bind <| reaches_okOr_bind fun block _ => ?_
  refine reaches_orFail_bind fun certificate _ => reaches_orFail_bind fun _ _ => ?_
  exact .single fun _ => commit_reset_inStep block certificate true h hover

/-! ## The engine at work -/

/-- A turn in step whose events to handle are those that a node brings about. -/
def Steady (config : NodeConfig) (t : Turn) : Prop :=
  t.InStep config ∧ ∀ e ∈ t.events, e.Plain

/-- Effects of the next height are carried out, and when one of them finalizes a block the engine is
over. -/
theorem performEffects_steady {effects : List Effect} (h : Steady config t)
    (he : Emitted (t.actor.ledger.height + 1) effects)
    (hover : (∃ f, .finalize f ∈ effects) → ∀ c ∈ t.actor.consensus, c.Over) :
    Steady config (performEffects effects t).state := by
  induction effects generalizing t with
  | nil => exact h
  | cons effect rest ih =>
      let u : Turn := { t with current := some effect, effects := rest }
      have hu : Steady config u :=
        ⟨⟨h.1.secured.of_same rfl rfl rfl rfl rfl rfl fun _ => id, h.1.engine⟩, h.2⟩
      have hrun : performEffects (effect :: rest) t =
          (performEffect effect >>= fun _ => performEffects rest) u := rfl
      rw [hrun]
      by_cases hfinalize : ∃ f, effect = .finalize f
      · obtain ⟨f, rfl⟩ := hfinalize
        have hfinalized : InStepWith config u.events (performEffect (.finalize f) u).state :=
          finalizeBlock_inStep f hu.1 (hover ⟨f, List.mem_cons_self ..⟩)
        obtain ⟨hrest, hnone⟩ := he.after_finalize
        refine kept_bind ⟨hfinalized.1, hfinalized.2 ▸ hu.2⟩ fun _ v _ hv => ?_
        refine ih hv (hrest _) ?_
        rintro ⟨f', hf'⟩
        exact absurd hf' (hnone f')
      · have hperform : Reaches (Turn.Frame config) (performEffect effect) u := by
          refine frame_performEffect (fun f hf => hfinalize ⟨f, hf⟩) fun m state hm => ?_
          exact he.decisions m state (hm ▸ List.mem_cons_self ..)
        have hframe := Frame.of_path hperform
        refine kept_bind ⟨hu.1.frame hframe, hframe.plain hu.2⟩ fun _ v hv hsteady => ?_
        have hsame := Frame.of_ok hperform hv
        refine ih hsteady ?_ ?_
        · rw [hsame.ledger]
          exact he.tail
        · rintro ⟨f', hf'⟩
          rw [hsame.consensus]
          exact hover ⟨f', List.mem_cons_of_mem _ hf'⟩

omit [Formats] in
/-- The engine handles an event. -/
theorem stepConsensus_steady {event : Event} {rest : List Event} (h : Steady config t)
    (hevents : t.events = event :: rest) :
    Steady config (stepConsensus event rest t).state ∧
      ∀ effects u, stepConsensus event rest t = .ok effects u →
        Emitted (u.actor.ledger.height + 1) effects ∧
        ((∃ f, .finalize f ∈ effects) → ∀ c ∈ u.actor.consensus, c.Over) := by
  have hplain : event.Plain := h.2 event (hevents ▸ List.mem_cons_self ..)
  have hrest : ∀ e ∈ rest, e.Plain := fun e he => h.2 e (hevents ▸ List.mem_cons_of_mem _ he)
  rcases stepConsensus_cases event rest t with ⟨-, e, hrun⟩ |
    ⟨c, result, next, hc, hstep, hrun⟩
  · rw [hrun]
    refine ⟨h, fun effects u hu => ?_⟩
    cases hu
  · have hnext := h.1.engine.step hc hplain hstep
    have hsteady : Steady config { t with
        actor := { t.actor with consensus := some next }
        events := rest
        current := none
        effects := result.toOption.getD [] } :=
      ⟨⟨h.1.secured.of_same rfl rfl rfl rfl rfl rfl fun _ => id, hnext.1⟩, hrest⟩
    rw [hrun]
    refine ⟨?_, fun effects u hu => ?_⟩
    · rw [readOnly_orFail]
      exact hsteady
    · obtain ⟨hresult, rfl⟩ := orFail_eq_ok.1 hu
      obtain ⟨hemitted, hover⟩ := hnext.2 effects hresult
      exact ⟨hemitted, fun hf c hc => by cases hc; exact hover hf⟩

theorem processConsensusEvent_inStep {event : Event} (he : event.External) (h : t.InStep config) :
    (processConsensusEvent event t).state.InStep config := by
  rcases processConsensusEvent_cases event t with hrun | hrun
  · rw [hrun]
    exact h
  · have hsteady : Steady config { t with events := [event], current := none, effects := [] } := by
      refine ⟨⟨h.secured.of_same rfl rfl rfl rfl rfl rfl fun _ => id, h.engine⟩, ?_⟩
      intro e hmem cert
      obtain rfl := List.mem_singleton.1 hmem
      rintro rfl
      exact he
    rw [hrun]
    refine (drive_kept (Q := Steady config) (fun ht hevents => ?_) t.env.fuel hsteady).1
    obtain ⟨hstep, heffects⟩ := stepConsensus_steady ht hevents
    refine ⟨hstep, fun effects u hu hq => ?_⟩
    obtain ⟨hemitted, hover⟩ := heffects effects u hu
    exact performEffects_steady hq hemitted hover

omit [Formats] in
/-- A proposal that is received and kept. -/
theorem receiveProposal_inStep (signed : SignedProposal) (block : Block) (h : t.InStep config) :
    (receiveProposal signed block t).state.InStep config := by
  have hframe : Reaches (Turn.Frame config) (receiveProposal signed block) t := by
    refine reaches_actor_bind <| .ensure_bind fun _ => reaches_okOr_bind fun consensus _ => ?_
    refine reaches_orFail_bind fun cacheable _ => ?_
    split
    · refine .lift_bind fun row _ => (frame_storeProposal row).bind fun _ _ _ => ?_
      exact frame_learn.bind fun _ _ _ => .pure _
    · exact .pure _
  exact h.frame (Frame.of_path hframe)

/-- A block that is imported. -/
theorem importNext_inStep (record : FinalizedWireRecord) (h : t.InStep config) :
    (importNext record t).state.InStep config := by
  have hfinish : ∀ u, u.InStep config → (finishSyncIfCurrent u).state.InStep config := fun u hu =>
    Reaches.kept (reaches_mono (fun _ _ hq hu => hu.quiet hq) quiet_finishSyncIfCurrent) hu
  rcases commitFinalized_secured record.block record.certificate false h.secured with
    ⟨e, u, he, hq⟩ | ⟨u, -, hg, hkey, hconsensus, -, hok⟩
  · rw [importNext, bind_eq_error.2 (.inl he)]
    exact h.quiet hq
  · obtain ⟨v, hreset, hv, -⟩ := resetConsensus_inStep hg (by
      rw [hkey, hconsensus]
      exact h.engine.keyless)
    rw [importNext, bind_of_ok (hok rfl), bind_of_ok hreset]
    exact hfinish v hv

/-- A standalone node has no engine to keep in step. -/
theorem produceStandalone_inStep (h : t.InStep config)
    (hrole : t.actor.config.role = .standalone) :
    (produceStandalone t).state.InStep config := by
  have hw := h.secured.recorded.1
  have hkey : t.actor.localValidatorKey = none := by
    have hlocal := hw.localValidatorKey
    rw [← hw.config_eq, localKey, if_neg (by rw [hrole]; decide)] at hlocal
    exact (Except.ok.inj hlocal).symm
  refine Reaches.kept (Q := Turn.InStep config) ?_ h
  refine reaches_actor_bind <| reaches_okOr_bind fun proposer _ => ?_
  have hclock : Reading clock := reading_ask _
  refine (reaches_mono (fun _ _ hq hu => hu.quiet hq) (hclock.reaches t)).bind fun time u hu => ?_
  have hactor := hclock.actor_eq hu
  refine reaches_orFail_bind fun block _ => reaches_orFail_bind fun _ _ => .single fun h => ?_
  rcases commitFinalized_secured block _ true h.secured with ⟨e, v, he, hq⟩ |
    ⟨v, hstate, hg, -, hconsensus, -, -⟩
  · rw [he]
    exact h.quiet hq
  · rw [hstate]
    exact ⟨hg, .of_none (hconsensus.trans (h.engine.keyless (hactor ▸ hkey)))⟩

end NodeM

/-- Whatever a node does, its engine stays in step. -/
theorem covers_inStep : Turn.Covers fun t u => t.InStep config → u.InStep config where
  quiet hq h := h.quiet hq
  process he _ := .single fun h => NodeM.processConsensusEvent_inStep he h
  receive signed block _ _ _ := .single fun h => NodeM.receiveProposal_inStep signed block h
  start t h := h.frame ⟨rfl, rfl, rfl, id, fun hg => hg.of_same rfl rfl rfl rfl rfl rfl fun _ => id⟩
  imports t record _ := .single fun h => NodeM.importNext_inStep record h
  resume t h := h.frame ⟨rfl, rfl, rfl, id, fun hg => hg.of_same rfl rfl rfl rfl rfl rfl fun _ => id⟩
  resend t wire rest _ h := h.frame ⟨rfl, rfl, rfl, id, fun hg =>
    hg.said t.asked fun s hs => by cases List.mem_singleton.1 hs⟩
  resent t wire rest _ h := h.frame ⟨rfl, rfl, rfl, id, fun hg =>
    hg.of_same rfl rfl rfl rfl rfl rfl fun _ => id⟩

/-! ## The engine of a node that starts -/

/-- An engine that has not started, of a height and without proposals. -/
structure Consensus.Idle (height : Height) (c : Consensus) : Prop where
  height_eq : c.height = height
  unstarted : c.started = false
  proposals : c.proposals = ∅

theorem restoreDecisions_idle {height : Height} {c c' : Consensus}
    {decisions : List PersistedConsensusDecision} {messages : List SignedMessage}
    (h : restoreDecisions height c decisions = .ok (c', messages)) (hc : c.Idle height) :
    c'.Idle height := by
  induction decisions generalizing c messages with
  | nil =>
      cases h
      exact hc
  | cons decision rest ih =>
      obtain ⟨signed, -, h⟩ := Except.bind_eq_ok.1 h
      obtain ⟨next, hnext, h⟩ := Except.bind_eq_ok.1 h
      obtain ⟨⟨c₁, messages₁⟩, hrest, h⟩ := Except.bind_eq_ok.1 h
      cases Except.pure_eq_ok.1 h
      obtain ⟨-, ds, rfl⟩ := Consensus.restoreLocalDecision_eq_ok (Except.mapError_eq_ok.1 hnext)
      exact ih hrest ⟨hc.height_eq, hc.unstarted, hc.proposals⟩

/-- The engine of a node that starts is one of the next height. -/
theorem initializeConsensusRecovery_idle {store : Store} {ledger : LedgerState}
    {ids : List ValidatorId} {key : Option SigningKey} {recovery : ConsensusRecovery}
    (h : initializeConsensusRecovery config store ledger ids key = .ok recovery) :
    (key = none → recovery.consensus = none) ∧
      ∀ c ∈ recovery.consensus, c.Idle (ledger.height + 1) := by
  cases key with
  | none =>
      obtain rfl := Except.ok.inj h
      exact ⟨fun _ => rfl, nofun⟩
  | some key =>
      refine ⟨nofun, fun c hc => ?_⟩
      obtain ⟨validators, -, h⟩ := Except.bind_eq_ok.1 h
      cases hsafety : store.consensusSafety with
      | none =>
          rw [hsafety] at h
          obtain ⟨fresh, hfresh, h⟩ := Except.bind_eq_ok.1 h
          obtain rfl := Except.pure_eq_ok.1 h
          obtain rfl := Consensus.new_eq_ok (S := ⟨validators, ledger.height + 1,
            .forChain config.chainId⟩) (Except.mapError_eq_ok.1 hfresh)
          cases hc
          exact ⟨rfl, rfl, rfl⟩
      | some safety =>
          rw [hsafety] at h
          simp only [recoverInterrupted, Except.bind_eq_ok, Except.mapError_eq_ok,
            Except.pure_eq_ok] at h
          obtain ⟨-, -, state, -, -, -, -, -, rows, -, recovered, -, -, -, -, -, -, -, c₀, hc₀,
            last, -, -, -, ⟨c₁, messages⟩, hrestored, wires, -, rfl⟩ := h
          obtain ⟨-, -, -, rfl⟩ := (Consensus.newWithSafetyState_eq_ok (S := ⟨validators,
            ledger.height + 1, .forChain config.chainId⟩)).1 hc₀
          cases hc
          exact restoreDecisions_idle hrestored ⟨rfl, rfl, rfl⟩

theorem startNode_inStep {store : Store} {network : Bool} {peers : BTreeSet PeerId}
    {time : Instant} {a : NodeActor} (h : startNode config store network peers time = .ok a) :
    a.InStep := by
  simp only [startNode, Except.bind_eq_ok, Except.pure_eq_ok, Except.mapError_eq_ok] at h
  obtain ⟨chainId, -, _, -, history, -, ledger, -, key, -, recovery, hrecovery, rfl⟩ := h
  obtain ⟨hnone, hidle⟩ := initializeConsensusRecovery_idle hrecovery
  exact ⟨hnone, fun c hc _ => (hidle c hc).proposals, fun c hc => .inl (hidle c hc).height_eq⟩

end

end KCoin
