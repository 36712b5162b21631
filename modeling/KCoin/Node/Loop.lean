import KCoin.Consensus.Slots
import KCoin.Node.Handlers

/-!
# The driver's loop ends

The loop over consensus events feeds the engine the answers to its own effects. It ends after at most
five events (`NodeM.driver_terminates`): the event it begins with is the only one that can begin a
round or ask for a block, and each answer uses up a slot that was undecided. A block that is finalized
exchanges the engine for one that is not started, which takes no answer.
-/

open Relation EStateM Borsh

namespace KCoin

namespace Turn

/-- The weight of the pending events. -/
def eventsWeight (t : Turn) : Nat := (t.events.map Event.weight).sum

/-- The turn in which the loop begins. -/
def begun (t : Turn) (initial : Event) : Turn :=
  { t with events := [initial], current := none, effects := [] }

/-- The turn with another bound on the events handled in one go. -/
def withFuel (t : Turn) (fuel : Nat) : Turn := { t with env := { t.env with fuel } }

/-- The pending events are answers. -/
def Answering (t : Turn) : Prop := ∀ e ∈ t.events, e.Answer

/-- The pending events and the engine are the same. -/
def Holds (t u : Turn) : Prop := u.events = t.events ∧ u.actor.consensus = t.actor.consensus

/-- Effects of some weight were carried out: they brought about answers of no more weight, and if they
exchanged the engine, the new one is not started. -/
structure Performs (weight : Nat) (t u : Turn) : Prop where
  events : ∃ pushed : List Event, u.events = t.events ++ pushed ∧ (∀ e ∈ pushed, e.Answer) ∧
    (pushed.map Event.weight).sum ≤ weight
  engine : u.actor.consensus = t.actor.consensus ∨
    ∃ c, u.actor.consensus = some c ∧ c.started = false

variable {t u v : Turn} {m n : Nat}

theorem Holds.performs (h : t.Holds u) : Performs 0 t u :=
  ⟨⟨[], by simpa using h.1, nofun, le_refl 0⟩, .inl h.2⟩

theorem Performs.trans (h : Performs m t u) (h' : Performs n u v) : Performs (m + n) t v := by
  obtain ⟨pushed, hevents, hanswer, hweight⟩ := h.events
  obtain ⟨pushed', hevents', hanswer', hweight'⟩ := h'.events
  refine ⟨⟨pushed ++ pushed', ?_, ?_, ?_⟩, ?_⟩
  · rw [hevents', hevents, List.append_assoc]
  · intro e he
    exact (List.mem_append.1 he).elim (hanswer e) (hanswer' e)
  · rw [List.map_append, List.sum_append]
    exact Nat.add_le_add hweight hweight'
  · rcases h'.engine with hsame | hfresh
    · rw [hsame]
      exact h.engine
    · exact .inr hfresh

end Turn

namespace NodeM

variable {α β ε : Type} {x : NodeM α} {t u : Turn}

theorem Holds.of_path (h : ReflTransGen Turn.Holds t u) : t.Holds u := by
  induction h with
  | refl => exact ⟨rfl, rfl⟩
  | tail _ hlast ih => exact ⟨hlast.1.trans ih.1, hlast.2.trans ih.2⟩

theorem Holds.of_ok (h : Reaches Turn.Holds x t) {a : α} (hu : x t = .ok a u) : t.Holds u := by
  rw [Reaches, hu] at h
  exact Holds.of_path h

theorem Performs.of_path (h : ReflTransGen (Turn.Performs 0) t u) : Turn.Performs 0 t u := by
  induction h with
  | refl => exact Turn.Holds.performs ⟨rfl, rfl⟩
  | tail _ hlast ih => exact ih.trans hlast

variable [Primitives] [Formats]

/-! ## Effects -/

omit [Formats] in
theorem Reading.holds (h : Reading x) (t : Turn) : Reaches Turn.Holds x t :=
  reaches_mono (fun _ _ hq => ⟨hq.locals.2.1, hq.sameCore.consensus⟩) (h.reaches t)

omit [Primitives] [Formats] in
theorem holds_writeStore (g : Store → Except StorageError (α × Store)) :
    Reaches Turn.Holds (writeStore g) t := by
  rcases writeStore_cases g t with ⟨e, asked, he⟩ | ⟨asked, a, store, -, hu⟩
  · rw [Reaches, he]
    exact .single ⟨rfl, rfl⟩
  · rw [Reaches, hu]
    exact .single ⟨rfl, rfl⟩

omit [Primitives] [Formats] in
theorem holds_persistLocalProposal (m : SignedMessage) :
    Reaches Turn.Holds (persistLocalProposal m) t := by
  cases m with
  | vote v => exact .pure _
  | proposal p =>
      refine reaches_actor_bind <| reaches_okOr_bind fun block _ => .lift_bind fun row _ => ?_
      exact holds_writeStore _

omit [Primitives] [Formats] in
theorem holds_persistDecision (row : PersistedConsensusDecision) :
    Reaches Turn.Holds (persistDecision row) t := by
  rcases persistDecision_cases row t with ⟨e, asked, he⟩ | ⟨asked, signature, store, -, hu⟩
  · rw [Reaches, he]
    exact .single ⟨rfl, rfl⟩
  · rw [Reaches, hu]
    exact .single ⟨rfl, rfl⟩

theorem holds_signAndPersist (message : SignableMessage) (safetyState : SafetyState) :
    Reaches Turn.Holds (signAndPersist message safetyState) t := by
  refine reaches_actor_bind <| reaches_okOr_bind fun key _ => .ensure_bind fun _ => ?_
  refine reaches_okOr_bind fun signBytes _ => reaches_okOr_bind fun encoded _ => ?_
  refine (holds_persistLocalProposal _).bind fun _ _ _ => ?_
  refine (holds_persistDecision _).bind fun _ _ _ => reaches_okOr_bind fun bytes _ => ?_
  exact (holds_writeStore _).bind fun _ _ _ => .pure _

omit [Primitives] [Formats] in
theorem holds_broadcastConsensus (message : SignedMessage) :
    Reaches Turn.Holds (broadcastConsensus message) t := by
  have hpublish : ∀ wire, Reaches Turn.Holds (publishConsensusWire wire) t := by
    intro wire
    refine reaches_actor_bind ?_
    split
    · exact reaches_okOr_bind fun _ _ => ReflTransGen.single ⟨rfl, rfl⟩
    · exact .pure _
  cases message with
  | proposal p => exact reaches_actor_bind <| reaches_okOr_bind fun block _ => hpublish _
  | vote v => exact hpublish _

theorem holds_commitFinalized (block : Block) (certificate : CommitCertificate) (gossip : Bool) :
    Reaches Turn.Holds (commitFinalized block certificate gossip) t :=
  reaches_commitFinalized block certificate gossip (fun _ _ _ _ => ⟨rfl, rfl⟩)
    (fun _ _ => ⟨rfl, rfl⟩) fun _ _ _ _ _ _ => ⟨rfl, rfl⟩

omit [Formats] in
/-- A new engine is not started. -/
theorem performs_resetConsensus {u : Turn} (h : resetConsensus t = .ok () u) :
    Turn.Performs 0 t u := by
  have hreaches : Reaches (Turn.Performs 0) resetConsensus t := by
    refine reaches_resetConsensus (Turn.Holds.performs ⟨rfl, rfl⟩)
      fun u key validators c _ _ _ hc => ⟨⟨[], (List.append_nil _).symm, nofun, le_refl 0⟩, .inr ⟨c, rfl, ?_⟩⟩
    rw [Consensus.new_eq_ok (S := ⟨validators, _, _⟩) hc]
    rfl
  rw [Reaches, h] at hreaches
  exact Performs.of_path hreaches

theorem performs_finalizeBlock {f : Finalization} {u : Turn} (h : finalizeBlock f t = .ok () u) :
    Turn.Performs 0 t u := by
  obtain ⟨_, _, ha, h⟩ := bind_eq_ok.1 h
  cases ha
  obtain ⟨block, _, hblock, h⟩ := bind_eq_ok.1 h
  obtain ⟨-, rfl⟩ := okOr_eq_ok.1 hblock
  obtain ⟨certificate, _, hcertificate, h⟩ := bind_eq_ok.1 h
  obtain ⟨-, rfl⟩ := orFail_eq_ok.1 hcertificate
  obtain ⟨_, _, hverify, h⟩ := bind_eq_ok.1 h
  obtain ⟨-, rfl⟩ := orFail_eq_ok.1 hverify
  obtain ⟨_, v, hcommit, h⟩ := bind_eq_ok.1 h
  have hheld := Holds.of_ok (holds_commitFinalized block certificate true) hcommit
  exact hheld.performs.trans (performs_resetConsensus h)

omit [Primitives] [Formats] in
theorem performs_pushEvent (event : Event) {u : Turn} (he : event.Answer)
    (h : pushEvent event t = .ok () u) : Turn.Performs event.weight t u := by
  obtain rfl := modify_eq_ok.1 h
  exact ⟨⟨[event], rfl, by simpa using he, by simp⟩, .inl rfl⟩

/-- An effect brings about its answer. -/
theorem performs_performEffect {effect : Effect} {u : Turn} (h : performEffect effect t = .ok () u) :
    Turn.Performs effect.weight t u := by
  cases effect with
  | requestProposal height round validBlock validRound =>
      obtain ⟨_, _, ha, h⟩ := bind_eq_ok.1 h
      cases ha
      obtain ⟨block, v, hblock, h⟩ := bind_eq_ok.1 h
      obtain ⟨_, w, hlearn, h⟩ := bind_eq_ok.1 h
      obtain rfl := modify_eq_ok.1 hlearn
      have hheld := Holds.of_ok ((reading_buildConsensusProposal _ _).holds t) hblock
      have hlearned : Turn.Holds v { v with actor := { v.actor with
        proposalBlocks := v.actor.proposalBlocks.insert block.consensusHash block } } := ⟨rfl, rfl⟩
      have hpush := performs_pushEvent (.proposalReady _ _ _) trivial h
      have hall := hheld.performs.trans (hlearned.performs.trans hpush)
      rwa [Nat.zero_add, Nat.zero_add] at hall
  | persistBeforeBroadcast message safetyState =>
      obtain ⟨signed, v, hsign, h⟩ := bind_eq_ok.1 h
      have hheld := Holds.of_ok (holds_signAndPersist message safetyState) hsign
      have hpush := performs_pushEvent (.persisted signed) trivial h
      have hall := hheld.performs.trans hpush
      rwa [Nat.zero_add] at hall
  | broadcast message => exact (Holds.of_ok (holds_broadcastConsensus message) h).performs
  | scheduleTimeout timeout =>
      exact (Holds.of_ok ((reading_record (o := .timer timeout) trivial).holds t) h).performs
  | finalize finalization => exact performs_finalizeBlock h
  | evidence evidence => exact (Holds.of_ok (holds_writeStore _) h).performs

theorem performs_performEffects {effects : List Effect} {u : Turn}
    (h : performEffects effects t = .ok () u) : Turn.Performs (totalWeight effects) t u := by
  induction effects generalizing t with
  | nil =>
      obtain ⟨-, rfl⟩ := pure_eq_ok.1 h
      exact Turn.Holds.performs ⟨rfl, rfl⟩
  | cons effect rest ih =>
      obtain ⟨_, _, htake, h⟩ := bind_eq_ok.1 h
      obtain rfl := modify_eq_ok.1 htake
      obtain ⟨_, v, hone, h⟩ := bind_eq_ok.1 h
      have htaken : t.Holds { t with current := some effect, effects := rest } := ⟨rfl, rfl⟩
      have hrest := (performs_performEffect hone).trans (ih h)
      simpa using htaken.performs.trans hrest

/-! ## The iterations -/

/-- What the loop does with the first pending event. -/
def iterate (event : Event) (rest : List Event) : NodeM Unit := do
  let effects ← stepConsensus event rest
  performEffects effects

/-- The turns in which the loop takes an event, one for each event it processes. -/
def iterations : Nat → Turn → List Turn
  | 0, _ => []
  | fuel + 1, t =>
    match t.events with
    | [] => []
    | event :: rest =>
      t :: match iterate event rest t with
        | .ok _ u => iterations fuel u
        | .error _ _ => []

end NodeM

namespace Turn

variable [Primitives] [Formats]

/-- The engine's step with the first pending event. -/
def engineStep (t : Turn) : Option (Except ConsensusError (List Effect) × Consensus) := do
  let event ← t.events.head?
  let consensus ← t.actor.consensus
  return consensus.step event t.actor.messageValidator.validator

/-- The slots that the step decides. -/
def decided (t : Turn) : List DecisionKey :=
  t.engineStep.elim [] fun (result, _) => decidedSlots (result.toOption.getD [])

/-- The step changes the round. -/
def changesRound (t : Turn) : Bool :=
  t.engineStep.any fun (_, next) => t.actor.consensus.any fun c => next.round ≠ c.round

/-- The votes in the round of the engine that it can still cast. -/
def openVotes (t : Turn) : Nat :=
  t.actor.consensus.elim 0 fun c =>
    if c.started then (c.undecided (voteSlots c.round)).length else 0

/-- The engine, if it takes answers, has decided some slots. -/
def Taken (t : Turn) (slots : List DecisionKey) : Prop :=
  ∀ c, t.actor.consensus = some c → c.started = true → ∀ k ∈ slots, k ∈ c.localDecisions

/-- A bound on the events that are still to be processed. -/
def measure (t : Turn) : Nat := t.eventsWeight + t.openVotes

end Turn

namespace NodeM

variable [Primitives] [Formats] {t u : Turn} {event : Event} {rest : List Event}

/-- An iteration fails, or the engine takes a step and its effects are carried out. -/
theorem iterate_eq_ok (h : iterate event rest t = .ok () u) :
    ∃ c effects next v, t.actor.consensus = some c ∧
      c.step event t.actor.messageValidator.validator = (.ok effects, next) ∧
      v.events = rest ∧ v.actor.consensus = some next ∧ Turn.Performs (totalWeight effects) v u := by
  obtain ⟨effects, v, hstep, hperform⟩ := bind_eq_ok.1 h
  rcases stepConsensus_cases event rest t with ⟨-, e, hrun⟩ | ⟨c, result, next, hc, hengine, hrun⟩
  · exact nomatch hrun.symm.trans hstep
  · obtain ⟨rfl, rfl⟩ := orFail_eq_ok.1 (hrun.symm.trans hstep)
    exact ⟨c, effects, next, _, hc, hengine, rfl, rfl, performs_performEffects hperform⟩

omit [Primitives] [Formats] in
/-- What the engine can still cast after its effects are carried out. -/
theorem openVotes_of_performs {v : Turn} {weight : Nat} {next : Consensus}
    (h : Turn.Performs weight v u) (hv : v.actor.consensus = some next) :
    u.openVotes ≤ (next.undecided (voteSlots next.round)).length := by
  unfold Turn.openVotes
  rcases h.engine with hsame | ⟨c, hfresh, hstarted⟩
  · rw [hsame, hv]
    simp only [Option.elim_some]
    split
    · exact le_refl _
    · exact Nat.zero_le _
  · rw [hfresh]
    simp [hstarted]

omit [Primitives] [Formats] in
theorem eventsWeight_of_performs {v : Turn} {weight : Nat} (h : Turn.Performs weight v u) :
    u.eventsWeight ≤ v.eventsWeight + weight := by
  obtain ⟨pushed, hevents, -, hweight⟩ := h.events
  unfold Turn.eventsWeight
  rw [hevents, List.map_append, List.sum_append]
  omega

omit [Primitives] [Formats] in
/-- The answers that are left are followed by those that the effects brought about. -/
theorem answering_of_performs {v : Turn} {weight : Nat} (h : Turn.Performs weight v u)
    (hv : v.Answering) : u.Answering := by
  obtain ⟨pushed, hevents, hanswer, -⟩ := h.events
  intro e he
  rw [hevents] at he
  exact (List.mem_append.1 he).elim (hv e) (hanswer e)

/-- An answer uses up some of the measure. -/
theorem measure_iterate (ht : t.Answering) (hevents : t.events = event :: rest)
    (h : iterate event rest t = .ok () u) : u.Answering ∧ u.measure < t.measure := by
  obtain ⟨c, effects, next, v, hc, hstep, hrest, hv, hperform⟩ := iterate_eq_ok h
  have he : event.Answer := ht event (hevents ▸ List.mem_cons_self)
  have hstarted := Consensus.started_of_step he hstep
  have hengine := Consensus.step_answer_weight he hstep
  have hopen := openVotes_of_performs hperform hv
  have hweight := eventsWeight_of_performs hperform
  refine ⟨answering_of_performs hperform fun e hmem => ?_, ?_⟩
  · exact ht e (hevents ▸ List.mem_cons_of_mem _ (hrest ▸ hmem))
  · have htopen : t.openVotes = (c.undecided (voteSlots c.round)).length := by
      simp [Turn.openVotes, hc, hstarted]
    have htweight : t.eventsWeight = event.weight + v.eventsWeight := by
      simp [Turn.eventsWeight, hevents, hrest]
    unfold Turn.measure
    omega

theorem iterations_le (ht : t.Answering) (fuel : Nat) :
    (iterations fuel t).length ≤ t.measure := by
  induction fuel generalizing t with
  | zero => exact Nat.zero_le _
  | succ fuel ih =>
      unfold iterations
      split
      · exact Nat.zero_le _
      · next event rest hevents =>
          rw [List.length_cons]
          split
          · next u hu =>
              obtain ⟨hanswering, hlt⟩ := measure_iterate ht hevents hu
              exact (ih hanswering).trans_lt hlt
          · have hpos := (ht event (hevents ▸ List.mem_cons_self)).weight_pos
            have hweight : event.weight ≤ t.eventsWeight := by
              simp [Turn.eventsWeight, hevents]
            exact (hpos.trans_le hweight).trans_le (Nat.le_add_right _ _)

/-- What the first event leaves to be processed. -/
theorem measure_first (h : iterate event [] t = .ok () u) : u.Answering ∧ u.measure ≤ 4 := by
  obtain ⟨c, effects, next, v, -, hstep, hrest, hv, hperform⟩ := iterate_eq_ok h
  obtain ⟨-, -, hbound⟩ := Consensus.step_bounded hstep
  have hopen := openVotes_of_performs hperform hv
  have hweight := eventsWeight_of_performs hperform
  refine ⟨answering_of_performs hperform fun e hmem => ?_, ?_⟩
  · rw [hrest] at hmem
    cases hmem
  · have hvweight : v.eventsWeight = 0 := by simp [Turn.eventsWeight, hrest]
    unfold Turn.measure
    omega

/-! ## Slots and rounds -/

/-- An iteration fails and decides nothing, or its slots are those of the step's effects. -/
theorem decided_cases (hevents : t.events = event :: rest) :
    (t.decided = [] ∧ ∀ u, iterate event rest t ≠ .ok () u) ∨
      ∃ c effects next, t.actor.consensus = some c ∧
        c.step event t.actor.messageValidator.validator = (.ok effects, next) ∧
        t.decided = decidedSlots effects ∧ ∀ u, iterate event rest t = .ok () u →
          ∃ v, v.actor.consensus = some next ∧ Turn.Performs (totalWeight effects) v u := by
  cases hc : t.actor.consensus with
  | none =>
      refine .inl ⟨by simp [Turn.decided, Turn.engineStep, hevents, hc], fun u hu => ?_⟩
      obtain ⟨c, _, _, _, hsome, -⟩ := iterate_eq_ok hu
      exact nomatch hc.symm.trans hsome
  | some c =>
      have hdecided : t.decided = decidedSlots
          ((c.step event t.actor.messageValidator.validator).1.toOption.getD []) := by
        simp [Turn.decided, Turn.engineStep, hevents, hc]
      cases hstep : c.step event t.actor.messageValidator.validator with
      | mk result next =>
          rw [hstep] at hdecided
          cases result with
          | error err =>
              refine .inl ⟨hdecided, fun u hu => ?_⟩
              obtain ⟨_, _, _, _, hsome, hstep', -⟩ := iterate_eq_ok hu
              cases hc.symm.trans hsome
              exact nomatch hstep.symm.trans hstep'
          | ok effects =>
              refine .inr ⟨c, effects, next, rfl, hstep, hdecided, fun u hu => ?_⟩
              obtain ⟨_, _, _, v, hsome, hstep', -, hv, hperform⟩ := iterate_eq_ok hu
              cases hc.symm.trans hsome
              cases hstep.symm.trans hstep'
              exact ⟨v, hv, hperform⟩

omit [Primitives] [Formats] in
/-- A new engine that is not started has no slots taken that matter. -/
theorem taken_of_performs {v : Turn} {weight : Nat} {next : Consensus} {slots : List DecisionKey}
    (h : Turn.Performs weight v u) (hv : v.actor.consensus = some next)
    (hslots : ∀ k ∈ slots, k ∈ next.localDecisions) : u.Taken slots := by
  intro c hc hstarted
  rcases h.engine with hsame | ⟨c', hfresh, hunstarted⟩
  · rw [hsame, hv] at hc
    cases hc
    exact hslots
  · rw [hfresh] at hc
    cases hc
    rw [hunstarted] at hstarted
    cases hstarted

/-- An iteration decides slots that are not among those already taken. -/
theorem taken_iterate {slots : List DecisionKey} (ht : t.Answering) (hslots : slots.Nodup)
    (htaken : t.Taken slots) (hevents : t.events = event :: rest) :
    (slots ++ t.decided).Nodup ∧
      ∀ u, iterate event rest t = .ok () u → u.Taken (slots ++ t.decided) := by
  have he : event.Answer := ht event (hevents ▸ List.mem_cons_self)
  rcases decided_cases hevents with ⟨hnone, hfails⟩ | ⟨c, effects, next, hc, hstep, hdecided, hok⟩
  · rw [hnone, List.append_nil]
    exact ⟨hslots, fun u hu => absurd hu (hfails u)⟩
  · rw [hdecided]
    have hold := htaken c hc (Consensus.started_of_step he hstep)
    have hfills := Consensus.step_answer he hstep
    obtain ⟨new, rfl, -, hnodup, hnew⟩ := hfills.effects
    refine ⟨List.nodup_append.2 ⟨hslots, hnodup, fun k hk k' hk' heq => ?_⟩, fun u hu => ?_⟩
    · exact (Consensus.mem_undecided.1 (hnew k' hk').1).2 (heq ▸ hold k hk)
    · obtain ⟨v, hv, hperform⟩ := hok u hu
      refine taken_of_performs hperform hv fun k hk => ?_
      rcases List.mem_append.1 hk with hk | hk
      · exact hfills.kept k (hold k hk)
      · exact (hnew k hk).2

theorem nodup_iterations {slots : List DecisionKey} (ht : t.Answering) (hslots : slots.Nodup)
    (htaken : t.Taken slots) (fuel : Nat) :
    (slots ++ (iterations fuel t).flatMap Turn.decided).Nodup := by
  induction fuel generalizing t slots with
  | zero => simpa [iterations] using hslots
  | succ fuel ih =>
      unfold iterations
      split
      · simpa using hslots
      · next event rest hevents =>
          obtain ⟨hnodup, hnext⟩ := taken_iterate ht hslots htaken hevents
          rw [List.flatMap_cons, ← List.append_assoc]
          split
          · next u hu => exact ih (measure_iterate ht hevents hu).1 hnodup (hnext u hu)
          · simpa using hnodup

/-- The first event decides each slot at most once. -/
theorem taken_first (hevents : t.events = event :: rest) :
    t.decided.Nodup ∧ ∀ u, iterate event rest t = .ok () u → u.Taken t.decided := by
  rcases decided_cases hevents with ⟨hnone, hfails⟩ | ⟨c, effects, next, hc, hstep, hdecided, hok⟩
  · rw [hnone]
    exact ⟨List.nodup_nil, fun u hu => absurd hu (hfails u)⟩
  · obtain ⟨hnodup, hkept, -⟩ := Consensus.step_bounded hstep
    rw [hdecided]
    refine ⟨hnodup, fun u hu => ?_⟩
    obtain ⟨v, hv, hperform⟩ := hok u hu
    exact taken_of_performs hperform hv hkept

omit [Formats] in
/-- An answer does not change the round. -/
theorem changesRound_answering (ht : t.Answering) : t.changesRound = false := by
  unfold Turn.changesRound Turn.engineStep
  cases hevents : t.events with
  | nil => rfl
  | cons event rest =>
      have he : event.Answer := ht event (hevents ▸ List.mem_cons_self)
      cases hc : t.actor.consensus with
      | none => rfl
      | some c => simpa using Consensus.step_answer_round he

theorem changesRound_iterations (ht : t.Answering) (fuel : Nat) :
    (iterations fuel t).countP Turn.changesRound = 0 := by
  induction fuel generalizing t with
  | zero => rfl
  | succ fuel ih =>
      unfold iterations
      split
      · rfl
      · next event rest hevents =>
          rw [List.countP_cons_of_neg (by simp [changesRound_answering ht])]
          split
          · next u hu => exact ih (measure_iterate ht hevents hu).1
          · rfl

/-! ## Failures of an iteration

The loop is given a bound on its iterations. Nothing else fails for want of them. -/

/-- The computation does not fail for want of iterations. -/
def Finishes (x : NodeM α) : Prop := ∀ t, Fails (fun e _ => e ≠ .outOfFuel) x t

section
variable {α β ε : Type} {x : NodeM α} {f : α → NodeM β}

omit [Primitives] [Formats]

theorem Finishes.bind (hx : Finishes x) (hf : ∀ a, Finishes (f a)) : Finishes (x >>= f) :=
  fun t => (hx t).bind fun a u _ => hf a u

theorem finishes_total (h : Total x) : Finishes x := fun _ => .of_total h

theorem finishes_pure (a : α) : Finishes (pure a) := finishes_total (total_pure a)

theorem finishes_throw {e : NodeError} (h : e ≠ .outOfFuel) : Finishes (throw e : NodeM α) :=
  fun _ _ _ he => by
    obtain ⟨rfl, -⟩ := throw_eq_error.1 he
    exact h

theorem finishes_actor : Finishes actor := finishes_total fun _ _ _ => nofun

theorem finishes_update (g : NodeActor → NodeActor) : Finishes (update g) :=
  finishes_total (total_modify _)

theorem finishes_record (o : Occurrence) : Finishes (record o) := finishes_total (total_modify _)

theorem finishes_ask (answer : Environment → Nat → α) : Finishes (ask answer) :=
  finishes_total fun _ _ _ => nofun

theorem finishes_ensure {c : Prop} [Decidable c] {e : NodeError} (h : e ≠ .outOfFuel) :
    Finishes (ensure c e) := fun _ => .of_ensure fun _ => h

theorem finishes_okOr {e : NodeError} (h : e ≠ .outOfFuel) (o : Option α) :
    Finishes (okOr e o) := fun _ _ _ he => by
  obtain ⟨-, rfl, -⟩ := okOr_eq_error.1 he
  exact h

theorem finishes_lift {y : Except NodeError α} (h : ∀ e, y = .error e → e ≠ .outOfFuel) :
    Finishes (liftM y) := fun _ _ _ he => by
  obtain ⟨hy, -⟩ := lift_eq_error.1 he
  exact h _ hy

theorem finishes_orFail {g : ε → NodeError} (h : ∀ e, g e ≠ .outOfFuel) (y : Except ε α) :
    Finishes (orFail g y) := by
  cases y with
  | ok a => exact finishes_pure a
  | error e => exact finishes_throw (h e)

theorem finishes_within (text : String) (x : NodeM α) : Finishes (within text x) := fun t e u he => by
  unfold within at he
  split at he
  · cases he
  · cases he
    exact nofun

theorem finishes_readStore (g : Store → Except StorageError α) : Finishes (readStore g) :=
  (finishes_ask _).bind fun _ => (finishes_ensure (by simp)).bind fun _ =>
    finishes_actor.bind fun _ => finishes_orFail (by simp) _

theorem finishes_writeStore (g : Store → Except StorageError (α × Store)) :
    Finishes (writeStore g) :=
  (finishes_readStore g).bind fun _ => (finishes_update _).bind fun _ =>
    (finishes_record _).bind fun _ => finishes_pure _

end

omit [Primitives] [Formats] in
theorem finishes_projectAccounts [Formats] (activity : BTreeMap String UInt64)
    (accounts : List (Address × AccountState)) : Finishes (projectAccounts activity accounts) := by
  induction accounts with
  | nil => exact finishes_pure _
  | cons account rest ih =>
      refine Finishes.bind ?_ fun _ => ih.bind fun _ => finishes_pure _
      exact (finishes_ask _).bind fun _ => finishes_actor.bind fun _ => finishes_pure _

omit [Formats] in
theorem challengeHeightIn_error {challengeId : UInt64} {rows : List BlockRow} {e : NodeError}
    (h : challengeHeightIn challengeId rows = .error e) : e ≠ .outOfFuel := by
  induction rows with
  | nil => cases h
  | cons row rest ih =>
      unfold challengeHeightIn at h
      split at h
      · cases h
        exact nofun
      · split at h
        · cases h
        · exact ih h

theorem finishes_buildProjection (candidate : LedgerState) (block : Block)
    (certificate : CommitCertificate) (receipts : List TransactionReceipt) :
    Finishes (buildProjection candidate block certificate receipts) := by
  have hissued : Finishes (challengeIssuedAt candidate receipts) := by
    refine (finishes_readStore _).bind fun metadata => ?_
    split
    · exact finishes_pure _
    · split
      · exact finishes_pure _
      · refine Finishes.bind ?_ fun _ => finishes_pure _
        unfold canonicalChallengeIssuedHeight
        split
        · exact finishes_pure _
        · exact (finishes_readStore _).bind fun rows => finishes_lift fun _ => challengeHeightIn_error
  exact (finishes_projectAccounts _ _).bind fun _ => hissued.bind fun _ => finishes_pure _

theorem finishes_commitFinalized (block : Block) (certificate : CommitCertificate) (gossip : Bool) :
    Finishes (commitFinalized block certificate gossip) := by
  refine finishes_actor.bind fun a => ?_
  split
  · exact finishes_throw (by simp)
  · refine (finishes_buildProjection _ _ _ _).bind fun projection => ?_
    refine (finishes_within _ _).bind fun store => (finishes_total (total_modify _)).bind fun _ => ?_
    have hrevalidate : Finishes revalidateMempool := finishes_update _
    refine hrevalidate.bind fun _ => (finishes_ask _).bind fun time => ?_
    refine (finishes_update _).bind fun _ => ?_
    split
    · exact (finishes_okOr (by simp) _).bind fun _ => finishes_record _
    · exact finishes_pure _

omit [Formats] in
theorem finishes_resetConsensus : Finishes resetConsensus := by
  refine (finishes_update _).bind fun _ => finishes_actor.bind fun a => ?_
  split
  · exact finishes_pure _
  · refine (finishes_orFail (by simp) _).bind fun validators => ?_
    exact (finishes_orFail (by simp) _).bind fun consensus => finishes_update _

omit [Formats] in
theorem finishes_buildConsensusProposal (round : Round) (validBlock : Option BlockId) :
    Finishes (buildConsensusProposal round validBlock) := by
  refine finishes_actor.bind fun a => ?_
  split
  · exact finishes_pure _
  · refine (finishes_okOr (by simp) _).bind fun key => (finishes_ask _).bind fun time => ?_
    exact finishes_orFail (by simp) _

omit [Primitives] [Formats] in
theorem finishes_persistLocalProposal (m : SignedMessage) : Finishes (persistLocalProposal m) := by
  cases m with
  | vote v => exact finishes_pure _
  | proposal p =>
      refine finishes_actor.bind fun a => (finishes_okOr (by simp) _).bind fun block => ?_
      refine Finishes.bind (finishes_lift fun e he => ?_) fun row => finishes_writeStore _
      rcases Except.bind_eq_error.1 he with he | ⟨_, -, he⟩
      · obtain ⟨-, rfl⟩ := Except.okOr_eq_error.1 he
        exact nofun
      · cases he

omit [Primitives] [Formats] in
theorem finishes_persistDecision (row : PersistedConsensusDecision) :
    Finishes (persistDecision row) :=
  (finishes_readStore _).bind fun _ => (finishes_total (total_modify _)).bind fun _ =>
    finishes_pure _

theorem finishes_signAndPersist (message : SignableMessage) (safetyState : SafetyState) :
    Finishes (signAndPersist message safetyState) := by
  refine finishes_actor.bind fun a => (finishes_okOr (by simp) _).bind fun key => ?_
  refine (finishes_ensure (by simp)).bind fun _ => (finishes_okOr (by simp) _).bind fun bytes => ?_
  refine (finishes_okOr (by simp) _).bind fun encoded => ?_
  refine (finishes_persistLocalProposal _).bind fun _ => ?_
  refine (finishes_persistDecision _).bind fun signature => ?_
  refine (finishes_okOr (by simp) _).bind fun signed => ?_
  exact (finishes_writeStore _).bind fun _ => finishes_pure _

omit [Primitives] [Formats] in
theorem finishes_publishConsensusWire (wire : ConsensusWireMessage) :
    Finishes (publishConsensusWire wire) := by
  refine finishes_actor.bind fun a => ?_
  split
  · exact (finishes_okOr (by simp) _).bind fun _ => finishes_record _
  · exact finishes_pure _

theorem finishes_performEffect (effect : Effect) : Finishes (performEffect effect) := by
  cases effect with
  | requestProposal height round validBlock validRound =>
      refine finishes_actor.bind fun a => (finishes_buildConsensusProposal _ _).bind fun block => ?_
      exact (finishes_update _).bind fun _ => finishes_total (total_modify _)
  | persistBeforeBroadcast message safetyState =>
      exact (finishes_signAndPersist _ _).bind fun _ => finishes_total (total_modify _)
  | broadcast message =>
      cases message with
      | proposal p =>
          refine finishes_actor.bind fun a => (finishes_okOr (by simp) _).bind fun block => ?_
          exact finishes_publishConsensusWire _
      | vote v => exact finishes_publishConsensusWire _
  | scheduleTimeout timeout => exact finishes_record _
  | finalize finalization =>
      refine finishes_actor.bind fun a => (finishes_okOr (by simp) _).bind fun block => ?_
      refine (finishes_orFail (by simp) _).bind fun certificate => ?_
      refine (finishes_orFail (by simp) _).bind fun _ => ?_
      exact (finishes_commitFinalized _ _ _).bind fun _ => finishes_resetConsensus
  | evidence evidence => exact finishes_writeStore _

theorem finishes_iterate (event : Event) (rest : List Event) : Finishes (iterate event rest) := by
  have heffects : ∀ effects, Finishes (performEffects effects) := by
    intro effects
    induction effects with
    | nil => exact finishes_pure _
    | cons effect rest ih =>
        refine (finishes_total (total_modify _)).bind fun _ => ?_
        exact (finishes_performEffect effect).bind fun _ => ih
  refine Finishes.bind ?_ heffects
  refine finishes_actor.bind fun a => (finishes_okOr (by simp) _).bind fun consensus => ?_
  exact (finishes_total (total_modify _)).bind fun _ => finishes_orFail (by simp) _

/-! ## The loop -/

theorem drive_iterate (h : t.events = event :: rest) (fuel : Nat) :
    drive (fuel + 1) t = (iterate event rest >>= fun _ => drive fuel) t := by
  rw [drive_cons h, iterate, bind_assoc]

/-- With more rounds than the loop has iterations it ends, and further rounds make no difference. -/
theorem drive_of_iterations {fuel : Nat} (h : (iterations fuel t).length < fuel) (extra : Nat) :
    drive (fuel + extra) t = drive fuel t ∧ ∀ u, drive fuel t ≠ .error .outOfFuel u := by
  induction fuel generalizing t with
  | zero => exact absurd h (Nat.not_lt_zero _)
  | succ fuel ih =>
      rw [Nat.add_right_comm]
      cases hevents : t.events with
      | nil =>
          rw [drive_nil hevents, drive_nil hevents]
          exact ⟨rfl, fun u => nofun⟩
      | cons event rest =>
          rw [drive_iterate hevents, drive_iterate hevents]
          simp only [iterations, hevents, List.length_cons] at h
          cases hrun : iterate event rest t with
          | ok a u =>
              rw [bind_of_ok hrun, bind_of_ok hrun]
              rw [hrun] at h
              exact ih (Nat.lt_of_succ_lt_succ h)
          | error e u =>
              rw [bind_eq_error.2 (.inl hrun), bind_eq_error.2 (.inl hrun)]
              refine ⟨rfl, fun v hv => ?_⟩
              cases hv
              exact finishes_iterate event rest t _ _ hrun rfl

/-- What the loop does with its first event. -/
theorem iterations_begun (t : Turn) (initial : Event) (fuel : Nat) :
    iterations (fuel + 1) (t.begun initial) = t.begun initial ::
      match iterate initial [] (t.begun initial) with
      | .ok _ u => iterations fuel u
      | .error _ _ => [] := rfl

theorem iterations_begun_le (t : Turn) (initial : Event) (fuel : Nat) :
    (iterations fuel (t.begun initial)).length ≤ 5 := by
  cases fuel with
  | zero => exact Nat.zero_le _
  | succ fuel =>
      rw [iterations_begun, List.length_cons]
      split
      · next u hu =>
          obtain ⟨hanswering, hmeasure⟩ := measure_first hu
          exact Nat.succ_le_succ ((iterations_le hanswering fuel).trans hmeasure)
      · simp

/-- The loop over consensus events ends, whatever the engine is and with whatever event it begins:
it processes at most five events, and with six rounds it returns or fails for another reason. It
decides no slot twice and changes the round at most once. -/
theorem driver_terminates (t : Turn) (initial : Event) :
    (∀ fuel, (iterations fuel (t.begun initial)).length ≤ 5 ∧
      ((iterations fuel (t.begun initial)).flatMap Turn.decided).Nodup ∧
      (iterations fuel (t.begun initial)).countP Turn.changesRound ≤ 1) ∧
    (∀ extra, drive (6 + extra) (t.begun initial) = drive 6 (t.begun initial)) ∧
    ∀ extra u, processConsensusEvent initial (t.withFuel (6 + extra)) ≠ .error .outOfFuel u := by
  have hdrive := fun t : Turn =>
    drive_of_iterations (Nat.lt_succ_of_le (iterations_begun_le t initial 6))
  refine ⟨fun fuel => ⟨iterations_begun_le t initial fuel, ?_, ?_⟩, fun extra => (hdrive t extra).1,
    fun extra u => ?_⟩
  · cases fuel with
    | zero => exact List.nodup_nil
    | succ fuel =>
        obtain ⟨hnodup, htaken⟩ := taken_first (t := t.begun initial) rfl
        rw [iterations_begun, List.flatMap_cons]
        split
        · next u hu => exact nodup_iterations (measure_first hu).1 hnodup (htaken u hu) fuel
        · simpa using hnodup
  · cases fuel with
    | zero => exact Nat.zero_le _
    | succ fuel =>
        rw [iterations_begun, List.countP_cons]
        split
        · next u hu =>
            rw [changesRound_iterations (measure_first hu).1]
            split <;> simp
        · split <;> simp
  · rcases processConsensusEvent_cases initial (t.withFuel (6 + extra)) with hrun | hrun
    · rw [hrun]
      exact nofun
    · rw [hrun]
      have hrounds := hdrive (t.withFuel (6 + extra))
      change drive (6 + extra) ((t.withFuel (6 + extra)).begun initial) ≠ _
      rw [(hrounds extra).1]
      exact (hrounds 0).2 u

end NodeM

end KCoin
