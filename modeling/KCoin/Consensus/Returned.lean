import KCoin.Consensus.Agreement

/-!
# What a caller gets to see

The caller of an engine sees the effects of the steps that return. A decision it does not see is
never stored or sent, and a timer it does not see never fires. In a run in which no event swallows
a change, every pending decision and the timer of the current phase have been returned. Otherwise
the engine can wait for a decision to be persisted, and for a timer, that nobody knows of
(`swallowed_prevote`).
-/

open Relation EStateM

namespace KCoin

/-! ## Sessions -/

/-- An engine with the effects that its steps have returned. -/
structure Session where
  consensus : Consensus
  returned : List Effect

/-- The effects that a step returns. -/
def returnedEffects : Except ConsensusError (List Effect) → List Effect
  | .ok effects => effects
  | .error _ => []

namespace Session

def step (s : Session) (V : MessageValidator) (e : Event) : Session where
  consensus := (s.consensus.step e V).2
  returned := s.returned ++ returnedEffects (s.consensus.step e V).1

/-- The sessions whose steps all meet a condition on the event and the state before it. -/
inductive Reachable (P : MessageValidator → Consensus → Event → Prop) : Session → Prop
  | new {localId : ValidatorId} {S : Setup} {c : Consensus}
      (created : Consensus.new localId S.validators S.height S.config = .ok c) :
      Reachable P ⟨c, []⟩
  | restored {localId : ValidatorId} {S : Setup} {state : SafetyState} {V : MessageValidator}
      {c : Consensus} (created : Consensus.newWithSafetyState localId S.validators S.height
        S.config state V = .ok c) : Reachable P ⟨c, []⟩
  | restore {s : Session} {m : SignableMessage} {c : Consensus} (before : Reachable P s)
      (restored : s.consensus.restoreLocalDecision m = .ok c) : Reachable P ⟨c, s.returned⟩
  | step {s : Session} {V : MessageValidator} {e : Event} (before : Reachable P s)
      (allowed : P V s.consensus e) : Reachable P (s.step V e)

/-- Every pending decision and the timer of the current phase have been returned. -/
structure Tracked (s : Session) : Prop where
  pending : ∀ (key : DecisionKey) m, s.consensus.pendingPersistence[key]? = some m →
    ∃ state, .persistBeforeBroadcast m state ∈ s.returned
  timer : s.consensus.started = true → s.consensus.finalized = none →
    .scheduleTimeout (s.consensus.timeout s.consensus.phase) ∈ s.returned

/-- An event that fails has not changed the phase, the lock or the local decisions. -/
def Harmless (s : Session) (V : MessageValidator) (e : Event) : Prop :=
  ∀ err, (s.consensus.step e V).1 = .error err →
    (s.consensus.step e V).2.phase = s.consensus.phase ∧
    (s.consensus.step e V).2.locked = s.consensus.locked ∧
    (s.consensus.step e V).2.localDecisions = s.consensus.localDecisions

end Session

/-! ## Moves are tracked -/

namespace Running

open Consensus

variable {V : MessageValidator} {r r' : Running} {past : List Effect}

/-- The pending decisions and the timer are among the effects returned before and those pushed
since the event came in. -/
structure Tracked (past : List Effect) (r : Running) : Prop where
  pending : ∀ (key : DecisionKey) m, r.consensus.pendingPersistence[key]? = some m →
    ∃ state, .persistBeforeBroadcast m state ∈ past ++ r.effects
  timer : r.consensus.Live →
    .scheduleTimeout (r.consensus.timeout r.consensus.phase) ∈ past ++ r.effects
  bounded : r.consensus.started = false →
    r.consensus.round < r.consensus.config.maxRoundsPerHeight

/-- The timer of the current phase is the same. -/
structure SameTimer (c c' : Consensus) : Prop where
  timeout : c'.timeout c'.phase = c.timeout c.phase
  live : c'.Live → c.Live

theorem SameTimer.of_undone {c c' : Consensus} (h : c.Undone c') : SameTimer c c' := by
  obtain ⟨-, hh, hc⟩ := Setup.mk.inj h.setup
  refine ⟨?_, fun hl => ⟨h.started ▸ hl.started, h.finalized ▸ hl.finalized⟩⟩
  unfold Consensus.timeout
  rw [hh, hc, h.round, h.phase]

theorem Tracked.emit (h : r.Tracked past) (e : Effect) : (r.emit e).Tracked past := by
  have hmem : ∀ {x : Effect}, x ∈ past ++ r.effects → x ∈ past ++ (r.emit e).effects := by
    intro x hx
    rw [Running.emit, ← List.append_assoc]
    exact List.mem_append_left _ hx
  exact ⟨fun key m hm => (h.pending key m hm).imp fun _ => hmem, fun hl => hmem (h.timer hl),
    h.bounded⟩

/-- A change of the state that enters no decision and stays in the phase. -/
theorem Tracked.update (h : r.Tracked past) {f : Consensus → Consensus}
    (hp : ∀ (key : DecisionKey) m, (f r.consensus).pendingPersistence[key]? = some m →
      r.consensus.pendingPersistence[key]? = some m)
    (ht : SameTimer r.consensus (f r.consensus))
    (hb : (f r.consensus).started = false →
      (f r.consensus).round < (f r.consensus).config.maxRoundsPerHeight) :
    (r.update f).Tracked past := by
  refine ⟨fun key m hm => h.pending key m (hp key m hm), fun hl => ?_, hb⟩
  show .scheduleTimeout ((f r.consensus).timeout (f r.consensus).phase) ∈ past ++ r.effects
  rw [ht.timeout]
  exact h.timer (ht.live hl)

/-- A decision is entered and pushed at once. -/
theorem pending_decide (h : r.Tracked past) (m : SignableMessage) (key : DecisionKey)
    (x : SignableMessage) (hx : (r.decide m).consensus.pendingPersistence[key]? = some x) :
    ∃ state, .persistBeforeBroadcast x state ∈ past ++ (r.decide m).effects := by
  have hx' : (r.consensus.pendingPersistence.insert (.ofSignable m) m)[key]? = some x := hx
  rw [Std.ExtTreeMap.getElem?_insert] at hx'
  split at hx'
  · cases hx'
    exact ⟨_, List.mem_append_right _ (List.mem_append_right _ (List.mem_singleton_self _))⟩
  · obtain ⟨state, hs⟩ := h.pending key x hx'
    refine ⟨state, ?_⟩
    rcases List.mem_append.1 hs with hs | hs
    · exact List.mem_append_left _ hs
    · exact List.mem_append_right _ (List.mem_append_left _ hs)

/-- A new phase begins with its timer. -/
theorem Tracked.of_schedule
    (hp : ∀ (key : DecisionKey) m, r.consensus.pendingPersistence[key]? = some m →
      ∃ state, .persistBeforeBroadcast m state ∈ past ++ r.effects)
    (hb : r.consensus.started = false →
      r.consensus.round < r.consensus.config.maxRoundsPerHeight) : r.schedule.Tracked past := by
  refine ⟨fun key m hm => ?_, fun _ => ?_, hb⟩
  · obtain ⟨state, hs⟩ := hp key m hm
    refine ⟨state, ?_⟩
    rw [schedule, Running.emit, ← List.append_assoc]
    exact List.mem_append_left _ hs
  · exact List.mem_append_right _ (List.mem_append_right _ (List.mem_singleton_self _))

theorem Tracked.castVote (h : r.Tracked past) (kind : VoteKind) (value : VoteValue) :
    (r.castVote kind value).Tracked past := by
  rcases r.castVote_cases kind value with ⟨-, he⟩ | ⟨-, he⟩ <;> rw [he]
  · exact h
  · exact .of_schedule (pending_decide h _) h.bounded

/-- A round begins with its timer, and forgets decisions at most. -/
theorem tracked_beginRound
    (hp : ∀ (key : DecisionKey) m, r.consensus.pendingPersistence[key]? = some m →
      ∃ state, .persistBeforeBroadcast m state ∈ past ++ r.effects)
    (hs : r.consensus.started = true) (round : Round) : (r.beginRound round).Tracked past := by
  refine .of_schedule (fun key m hm => hp key m ?_) fun hf => absurd (hs.symm.trans hf) nofun
  have hm' : (r.consensus.pendingPersistence.filter _)[key]? = some m := hm
  rw [Std.ExtTreeMap.getElem?_filter', Option.filter_eq_some_iff] at hm'
  exact hm'.1

/-- A finalized engine needs no timer. -/
theorem Tracked.finalizeWith (h : r.Tracked past) (cert : ConsensusCommitCertificate) :
    (r.finalizeWith cert).Tracked past := by
  have hfinal : (r.update (·.setFinalized ⟨cert.height, cert.round, cert.blockId, cert⟩)).Tracked
      past := ⟨h.pending, fun hl => absurd hl.finalized nofun, h.bounded⟩
  exact hfinal.emit _

theorem Micro.tracked (hm : Micro V r r') (h : r.Tracked past) : r'.Tracked past := by
  -- a change of the state that concerns neither decisions nor the phase
  have hsame : ∀ {f : Consensus → Consensus},
      (f r.consensus).pendingPersistence = r.consensus.pendingPersistence →
      SameTimer r.consensus (f r.consensus) → (f r.consensus).started = r.consensus.started →
      (f r.consensus).round = r.consensus.round → (f r.consensus).config = r.consensus.config →
      (r.update f).Tracked past := by
    intro f hp ht hs hr hc
    refine h.update (fun key m hm => hp ▸ hm) ht fun hf => ?_
    rw [hr, hc]
    exact h.bounded (hs ▸ hf)
  cases hm with
  | start started bound =>
      exact tracked_beginRound (r := r.update (·.setStarted)) h.pending rfl _
  | startRefused started bound => exact absurd (h.bounded started) bound
  | nextRound live phase next bound => exact tracked_beginRound h.pending live.started _
  | requestProposal started phase proposer =>
      exact (hsame rfl ⟨rfl, fun hl => ⟨hl.started, hl.finalized⟩⟩ rfl rfl rfl).emit _
  | takeRequest live requested => exact hsame rfl ⟨rfl, fun _ => live⟩ rfl rfl rfl
  | @decideProposal live round _ requested free =>
      have htake : (r.update (·.eraseRequest round)).Tracked past :=
        hsame rfl ⟨rfl, fun _ => live⟩ rfl rfl rfl
      refine ⟨pending_decide htake _, fun _ => ?_, h.bounded⟩
      rcases List.mem_append.1 (htake.timer ⟨live.started, live.finalized⟩) with ht | ht
      · exact List.mem_append_left _ ht
      · exact List.mem_append_right _ (List.mem_append_left _ ht)
  | prevoteProposal live phase cached => exact h.castVote _ _
  | prevoteNil live phase => exact h.castVote _ _
  | precommitNil live phase => exact h.castVote _ _
  | learnValid live quorum newer => exact hsame rfl ⟨rfl, fun _ => live⟩ rfl rfl rfl
  | @lockAndPrecommit live block _ phase quorum valid =>
      have hlock : (r.update (·.setLock block)).Tracked past :=
        hsame rfl ⟨rfl, fun _ => live⟩ rfl rfl rfl
      exact hlock.castVote _ _
  | cacheProposal live validated cacheable fresh =>
      exact hsame rfl ⟨rfl, fun _ => live⟩ rfl rfl rfl
  | cacheVote live validated cacheable fresh => exact hsame rfl ⟨rfl, fun _ => live⟩ rfl rfl rfl
  | publish live pending validated =>
      refine Tracked.emit (h.update (fun key x hx => ?_) ⟨rfl, fun _ => live⟩ h.bounded) _
      exact getElem?_of_erasePending hx
  | doubleProposal live validated cached differ => exact h.emit _
  | doubleVote live validated cached differ => exact h.emit _
  | finalizeVotes live quorum accepted => exact h.finalizeWith _
  | finalizeCertificate unfinalized validated => exact h.finalizeWith _

theorem tracked_of_moves (hm : ReflTransGen (Micro V) r r') (h : r.Tracked past) :
    r'.Tracked past := by
  induction hm with
  | refl => exact h
  | tail _ hm ih => exact hm.tracked ih

end Running

namespace Session

variable {P : MessageValidator → Consensus → Event → Prop} {s : Session}

/-- A session keeps the invariant of its engine, whatever the node accepts. -/
theorem Reachable.inv (hr : Reachable P s) :
    ∃ S boot, s.consensus.Inv S (fun _ => True) boot := by
  induction hr with
  | @new _ S _ created =>
      refine ⟨S, none, ?_⟩
      rw [Consensus.new_eq_ok created]
      exact Consensus.inv_initial ⟨_, created⟩
  | @restored _ S state _ _ created =>
      obtain ⟨hr, -, hs, rfl⟩ := Consensus.newWithSafetyState_eq_ok.1 created
      refine ⟨S, some state, Consensus.inv_resumeFrom (hs.mono fun _ _ => trivial) hr ?_⟩
      intro r h1 b h2
      exact .inr ⟨state, rfl, h1, h2⟩
  | restore before restored ih =>
      obtain ⟨S, boot, hi⟩ := ih
      obtain ⟨-, ds, rfl⟩ := Consensus.restoreLocalDecision_eq_ok restored
      exact ⟨S, boot, hi.bookkeeping _ _ _⟩
  | @step s V e before allowed ih =>
      obtain ⟨S, boot, hi⟩ := ih
      exact ⟨S, boot, ((History.begin hi).step (fun _ _ => trivial) e).inv⟩

/-- A step leaves the validators, the height and the configuration as they are. -/
theorem Reachable.step_setup (hr : Reachable P s) (V : MessageValidator) (e : Event) :
    (s.step V e).consensus.setup = s.consensus.setup := by
  obtain ⟨S, boot, hi⟩ := hr.inv
  have hstep := ((History.begin hi).step (V := V) (fun _ _ => trivial) e).inv.setup
  exact hstep.trans hi.setup.symm

/-- An engine could be created anew with the configuration of a session. -/
theorem Reachable.created (hr : Reachable P s) : ∃ localId fresh,
    Consensus.new localId s.consensus.setup.validators s.consensus.setup.height
      s.consensus.setup.config = .ok fresh := by
  induction hr with
  | @new localId S c created =>
      rw [Consensus.new_eq_ok created]
      exact ⟨localId, c, created⟩
  | @restored localId _ _ _ _ created =>
      obtain ⟨-, ⟨fresh, hfresh⟩, -, rfl⟩ := Consensus.newWithSafetyState_eq_ok.1 created
      exact ⟨localId, fresh, hfresh⟩
  | restore before restored ih =>
      obtain ⟨-, ds, rfl⟩ := Consensus.restoreLocalDecision_eq_ok restored
      exact ih
  | @step s V e before allowed ih =>
      rw [before.step_setup V e]
      exact ih

/-- A step that swallows nothing keeps track of decisions and timers. -/
theorem Tracked.step (h : s.Tracked) {S : Setup} {boot : Option SafetyState}
    (hi : s.consensus.Inv S (fun _ => True) boot) {V : MessageValidator} {e : Event}
    (hn : ¬s.consensus.Swallows V e) : (s.step V e).Tracked := by
  have hbegin : Running.Tracked s.returned ⟨s.consensus, []⟩ := by
    refine ⟨fun key m hm => ?_, fun hl => ?_, fun hs => (hi.unstarted hs).2⟩
    · rw [List.append_nil]
      exact h.pending key m hm
    · rw [List.append_nil]
      exact h.timer hl.started hl.finalized
  have hmoves := Running.handle_reaches (V := V) (r := ⟨s.consensus, []⟩)
    (fun hs => (hi.unstarted hs).1) e
  have hfails := Running.handle_fails (V := V) (r := ⟨s.consensus, []⟩) hi.unstarted e
  have htracked := Running.tracked_of_moves hmoves hbegin
  unfold Session.step Consensus.step
  cases hr : EngineM.handle V e ⟨s.consensus, []⟩ with
  | ok _ r =>
      rw [hr] at htracked
      exact ⟨htracked.pending, fun hs hf => htracked.timer ⟨hs, hf⟩⟩
  | error err r =>
      show Tracked ⟨r.consensus, s.returned ++ []⟩
      rw [List.append_nil]
      rcases hfails err r hr with ⟨cert, f, -, -, -, -, -, rfl⟩ | ⟨-, hu | hs⟩
      · exact h
      · have ht := Running.SameTimer.of_undone hu
        refine ⟨fun key m hm => h.pending key m (hu.pending key m hm), fun hs hf => ?_⟩
        show .scheduleTimeout (r.consensus.timeout r.consensus.phase) ∈ s.returned
        obtain ⟨hs', hf'⟩ := ht.live ⟨hs, hf⟩
        rw [ht.timeout]
        exact h.timer hs' hf'
      · exact absurd hs hn

/-- A failed event that swallows nothing has changed nothing that matters. -/
theorem harmless_of_not_swallows {S : Setup} {boot : Option SafetyState}
    (hi : s.consensus.Inv S (fun _ => True) boot) {V : MessageValidator} {e : Event}
    (hn : ¬s.consensus.Swallows V e) : s.Harmless V e := by
  intro err he
  have hfails := Running.handle_fails (V := V) (r := ⟨s.consensus, []⟩) hi.unstarted e
  unfold Consensus.step at he ⊢
  cases hr : EngineM.handle V e ⟨s.consensus, []⟩ with
  | ok _ r =>
      rw [hr] at he
      cases he
  | error err' r =>
      rcases hfails err' r hr with ⟨cert, f, -, -, -, -, -, rfl⟩ | ⟨-, hu | hs⟩
      · exact ⟨rfl, rfl, rfl⟩
      · refine ⟨hu.phase, ?_, hu.localDecisions⟩
        show r.consensus.locked = s.consensus.locked
        unfold Consensus.locked
        rw [hu.lockedRound, hu.lockedBlock]
      · exact absurd hs hn

/-- In a session in which no event swallows a change, every pending decision has been returned to be
persisted, and so has the timer of the current phase; and an event that fails, unless it is the
first to swallow a change, has not changed the phase, the lock or the local decisions. -/
theorem decisions_and_timers_returned
    (hr : s.Reachable fun V c e => ¬c.Swallows V e) :
    s.Tracked ∧ ∀ V e, ¬s.consensus.Swallows V e → s.Harmless V e := by
  refine ⟨?_, fun V e hn => ?_⟩
  · induction hr with
    | new created =>
        rw [Consensus.new_eq_ok created]
        refine ⟨fun key m hm => by simp [Consensus.initial] at hm, fun hs => ?_⟩
        exact absurd hs Bool.false_ne_true
    | restored created =>
        obtain ⟨-, -, -, rfl⟩ := Consensus.newWithSafetyState_eq_ok.1 created
        refine ⟨fun key m hm => by simp [Consensus.initial, Consensus.resumeFrom] at hm,
          fun hs => ?_⟩
        exact absurd hs Bool.false_ne_true
    | restore before restored ih =>
        obtain ⟨hs, ds, rfl⟩ := Consensus.restoreLocalDecision_eq_ok restored
        exact ⟨ih.pending, ih.timer⟩
    | step before allowed ih =>
        obtain ⟨S, boot, hi⟩ := before.inv
        exact ih.step hi allowed
  · obtain ⟨S, boot, hi⟩ := hr.inv
    exact harmless_of_not_swallows hi hn

/-- A node that accepts every certificate swallows nothing. -/
theorem not_swallows_of_accepts {V : MessageValidator}
    (hV : ∀ cert, V.validateCertificate cert = .ok ()) (c : Consensus) (e : Event) :
    ¬c.Swallows V e := by
  have hrejects : ∀ (c : Consensus) round, ¬c.Rejects V round := by
    rintro c round ⟨block, precommits, err, -, he⟩
    rw [hV] at he
    cases he
  have haccepted : ∀ m, ¬c.SwallowsAccepted V m := by
    intro m hm
    cases m with
    | proposal p => exact hrejects _ _ hm.2.2.2.2
    | vote v => exact hrejects _ _ hm.2.2.2
  intro h
  cases e with
  | timeout t =>
      rcases h.2.2 with ⟨-, hr⟩ | ⟨-, hr⟩
      · exact hrejects _ _ hr
      · exact hrejects _ _ hr.2.2.2
  | message m => exact haccepted m h.2.2
  | persisted m => exact haccepted m h.2.2.2
  | start => exact h
  | certificate => exact h
  | proposalReady => exact h

end Session

/-! ## A swallowed prevote -/

namespace Sample

/-- A node that does not have the bytes of the block yet. -/
def missingBytes : MessageValidator :=
  { acceptAll with validateCertificate := fun _ => .error .invalidCertificate }

/-- The second of four validators, at its first height. -/
def secondSession : Session :=
  ⟨.initial (validatorOf 1) fourSetup.validators fourSetup.height fourSetup.config, []⟩

/-- The others precommit a block before the second validator has its proposal. -/
def precommitsFirst : List Event :=
  let precommit (i : UInt8) := Event.message (.vote (voteBy i .precommit (.block block)))
  [.start, precommit 0, precommit 2, precommit 3]

def blockedSession : Session := precommitsFirst.foldl (·.step missingBytes) secondSession

/-- Then the timer of its propose phase fires. -/
def proposeTimeout : Event := .timeout (secondSession.consensus.timeout .propose)

end Sample

namespace Session

open Sample

theorem second_created :
    Consensus.new (validatorOf 1) fourSetup.validators fourSetup.height fourSetup.config =
      .ok secondSession.consensus := by
  have hok : (Consensus.new (validatorOf 1) fourSetup.validators fourSetup.height
      fourSetup.config).isOk := by decide +kernel
  cases hc : Consensus.new (validatorOf 1) fourSetup.validators fourSetup.height
      fourSetup.config with
  | ok c => rw [Consensus.new_eq_ok hc]; rfl
  | error e =>
      rw [hc] at hok
      cases hok

theorem reachable_foldl {P : MessageValidator → Consensus → Event → Prop} {V : MessageValidator}
    (hP : ∀ c e, P V c e) (events : List Event) {s : Session} (hs : s.Reachable P) :
    (events.foldl (·.step V) s).Reachable P := by
  induction events generalizing s with
  | nil => exact hs
  | cons e rest ih => exact ih (hs.step (hP _ _))

theorem blocked_reachable {P : MessageValidator → Consensus → Event → Prop}
    (hP : ∀ c e, P missingBytes c e) : blockedSession.Reachable P :=
  reachable_foldl hP precommitsFirst (.new second_created)

/-- The proposal never comes: the validator prevotes nil and waits for the prevote to be persisted,
but the node was never asked to, and no timer is left to wake it. -/
theorem swallowed_prevote :
    ∃ s : Session, s.Reachable (fun _ _ _ => True) ∧
      ¬(s.step missingBytes proposeTimeout).Tracked ∧ ¬s.Harmless missingBytes proposeTimeout := by
  refine ⟨blockedSession, blocked_reachable fun _ _ => trivial, fun h => ?_, fun h => ?_⟩
  · have htimer : ¬(.scheduleTimeout ((blockedSession.step missingBytes
        proposeTimeout).consensus.timeout (blockedSession.step missingBytes
        proposeTimeout).consensus.phase) ∈ (blockedSession.step missingBytes
        proposeTimeout).returned) := by decide +kernel
    have hlive : (blockedSession.step missingBytes proposeTimeout).consensus.started = true ∧
        (blockedSession.step missingBytes proposeTimeout).consensus.finalized = none := by
      decide +kernel
    exact htimer (h.timer hlive.1 hlive.2)
  · have herror : (blockedSession.consensus.step proposeTimeout missingBytes).1 =
        .error (.validation .invalidCertificate) := by decide +kernel
    have hphase : (blockedSession.consensus.step proposeTimeout missingBytes).2.phase ≠
        blockedSession.consensus.phase := by decide +kernel
    exact hphase (h _ herror).1

/-- The same validator before the timer fires: its first timer was returned. -/
theorem decisions_and_timers_returned_accepting :
    ∃ s : Session, s.Tracked ∧ s.consensus.started = true ∧ s.returned ≠ [] := by
  have hr := @reachable_foldl (fun V c e => ¬c.Swallows V e) acceptAll
    (not_swallows_of_accepts fun _ => rfl) [.start, proposeTimeout] _ (.new second_created)
  exact ⟨_, (decisions_and_timers_returned hr).1, by decide +kernel, by decide +kernel⟩

end Session

end KCoin
