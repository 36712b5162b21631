import KCoin.Consensus.Transitions

/-!
# The slots that an event decides

An event decides each slot at most once, and only a timer or the start changes the round or asks for
a block. The events that answer the engine's own effects, a block that was asked for and a message
that was persisted, do neither: they decide the slot of the proposal, or votes of the round that are
still undecided (`Fills`).
-/

open Relation EStateM

namespace KCoin

/-! ## Slots -/

/-- The slot that an effect decides. -/
def Effect.slot : Effect → Option DecisionKey
  | .persistBeforeBroadcast message _ => some (.ofSignable message)
  | _ => none

/-- The slots that effects decide. -/
def decidedSlots (effects : List Effect) : List DecisionKey := effects.filterMap Effect.slot

/-- The effect asks for a block. -/
def Effect.isRequest : Effect → Bool
  | .requestProposal .. => true
  | _ => false

/-- How many events an effect can bring about: a block that was asked for brings the decision to
propose it. -/
def Effect.weight : Effect → Nat
  | .requestProposal .. => 2
  | .persistBeforeBroadcast .. => 1
  | _ => 0

def totalWeight (effects : List Effect) : Nat := (effects.map Effect.weight).sum

/-- The slots of the two votes in a round. -/
def voteSlots (round : Round) : List DecisionKey := [.vote round .prevote, .vote round .precommit]

/-- The event answers an effect: a block that was asked for, or a message that was persisted. -/
def Event.Answer : Event → Prop
  | .proposalReady .. | .persisted _ => True
  | _ => False

/-- How many events an answer can still bring about, itself included. -/
def Event.weight : Event → Nat
  | .proposalReady .. => 2
  | .persisted _ => 1
  | _ => 0

/-- The slots that an answer may decide in a round. -/
def Event.slots (round : Round) : Event → List DecisionKey
  | .proposalReady _ requested _ => [.proposal requested]
  | _ => voteSlots round

@[simp] theorem decidedSlots_nil : decidedSlots [] = [] := rfl

@[simp] theorem decidedSlots_append (l l' : List Effect) :
    decidedSlots (l ++ l') = decidedSlots l ++ decidedSlots l' :=
  List.filterMap_append

theorem decidedSlots_cons (e : Effect) (l : List Effect) :
    decidedSlots (e :: l) = e.slot.toList ++ decidedSlots l := by
  cases h : e.slot <;> simp [decidedSlots, h]

@[simp] theorem totalWeight_nil : totalWeight [] = 0 := rfl

@[simp] theorem totalWeight_cons (e : Effect) (l : List Effect) :
    totalWeight (e :: l) = e.weight + totalWeight l :=
  List.sum_cons

@[simp] theorem totalWeight_append (l l' : List Effect) :
    totalWeight (l ++ l') = totalWeight l + totalWeight l' := by
  simp [totalWeight]

/-- Effects that ask for no block bring about one event for each slot they decide. -/
theorem totalWeight_eq {effects : List Effect} (h : ∀ e ∈ effects, e.isRequest = false) :
    totalWeight effects = (decidedSlots effects).length := by
  induction effects with
  | nil => rfl
  | cons e rest ih =>
      have hrest := ih fun e he => h e (List.mem_cons_of_mem _ he)
      have hone : e.weight = e.slot.toList.length := by
        cases e with
        | requestProposal => cases h _ List.mem_cons_self
        | persistBeforeBroadcast | broadcast | scheduleTimeout | finalize | evidence => rfl
      rw [totalWeight_cons, decidedSlots_cons, List.length_append, hone, hrest]

theorem nodup_voteSlots (round : Round) : (voteSlots round).Nodup := by simp [voteSlots]

theorem Event.nodup_slots (e : Event) (round : Round) : (e.slots round).Nodup := by
  cases e <;> simp [Event.slots, voteSlots]

theorem Event.length_slots_le (e : Event) (round : Round) : (e.slots round).length ≤ 2 := by
  cases e <;> simp [Event.slots, voteSlots]

theorem Event.Answer.weight_pos {e : Event} (h : e.Answer) : 0 < e.weight := by
  cases e with
  | proposalReady | persisted => simp [Event.weight]
  | start | message _ | timeout _ | certificate _ => exact h.elim

theorem mem_voteSlots (round : Round) (kind : VoteKind) :
    DecisionKey.vote round kind ∈ voteSlots round := by
  cases kind <;> simp [voteSlots]

/-- The slots among some that are not decided. -/
def Consensus.undecided (c : Consensus) (slots : List DecisionKey) : List DecisionKey :=
  slots.filter (· ∉ c.localDecisions)

@[simp] theorem Consensus.mem_undecided {c : Consensus} {slots : List DecisionKey}
    {k : DecisionKey} : k ∈ c.undecided slots ↔ k ∈ slots ∧ k ∉ c.localDecisions := by
  simp [Consensus.undecided]

theorem Consensus.length_undecided_le (c : Consensus) (slots : List DecisionKey) :
    (c.undecided slots).length ≤ slots.length :=
  List.length_filter_le _ _

namespace Running

/-- The round stays, no block is asked for, and of the given slots some that were undecided are
decided, each once. -/
structure Fills (slots : List DecisionKey) (r r' : Running) : Prop where
  round : r'.consensus.round = r.consensus.round
  kept : ∀ k ∈ r.consensus.localDecisions, k ∈ r'.consensus.localDecisions
  effects : ∃ new, r'.effects = r.effects ++ new ∧ (∀ e ∈ new, e.isRequest = false) ∧
    (decidedSlots new).Nodup ∧ ∀ k ∈ decidedSlots new,
      k ∈ r.consensus.undecided slots ∧ k ∈ r'.consensus.localDecisions

variable {slots : List DecisionKey} {r r' r'' : Running}

/-- Nothing is decided. -/
theorem Fills.of_same (hround : r'.consensus.round = r.consensus.round)
    (hdecisions : r'.consensus.localDecisions = r.consensus.localDecisions)
    (new : List Effect) (heffects : r'.effects = r.effects ++ new)
    (hrequest : ∀ e ∈ new, e.isRequest = false) (hslots : decidedSlots new = []) :
    Fills slots r r' := by
  refine ⟨hround, fun k hk => hdecisions ▸ hk, new, heffects, hrequest, ?_⟩
  simp [hslots]

theorem Fills.refl (r : Running) : Fills slots r r :=
  .of_same rfl rfl [] (by simp) (by simp) rfl

theorem Fills.trans (h : Fills slots r r') (h' : Fills slots r' r'') : Fills slots r r'' := by
  obtain ⟨new, heffects, hrequest, hnodup, hnew⟩ := h.effects
  obtain ⟨new', heffects', hrequest', hnodup', hnew'⟩ := h'.effects
  refine ⟨h'.round.trans h.round, fun k hk => h'.kept k (h.kept k hk), new ++ new', ?_, ?_, ?_, ?_⟩
  · rw [heffects', heffects, List.append_assoc]
  · intro e he
    rcases List.mem_append.1 he with he | he
    · exact hrequest e he
    · exact hrequest' e he
  · rw [decidedSlots_append, List.nodup_append]
    refine ⟨hnodup, hnodup', fun k hk k' hk' heq => ?_⟩
    -- what the second part decides was undecided after the first
    exact (Consensus.mem_undecided.1 (hnew' k' hk').1).2 (heq ▸ (hnew k hk).2)
  · intro k hk
    rw [decidedSlots_append] at hk
    rcases List.mem_append.1 hk with hk | hk
    · exact ⟨(hnew k hk).1, h'.kept k (hnew k hk).2⟩
    · obtain ⟨hmem, hfree⟩ := Consensus.mem_undecided.1 (hnew' k hk).1
      exact ⟨Consensus.mem_undecided.2 ⟨hmem, fun hold => hfree (h.kept k hold)⟩, (hnew' k hk).2⟩

/-- What is decided is no longer undecided. -/
theorem Fills.length_le (h : Fills slots r r') (hslots : slots.Nodup) {new : List Effect}
    (heffects : r'.effects = r.effects ++ new) :
    (decidedSlots new).length + (r'.consensus.undecided slots).length ≤
      (r.consensus.undecided slots).length := by
  obtain ⟨new', heffects', -, hnodup, hnew⟩ := h.effects
  obtain rfl : new = new' := List.append_cancel_left (heffects.symm.trans heffects')
  have hdistinct : (decidedSlots new ++ r'.consensus.undecided slots).Nodup := by
    refine List.nodup_append.2 ⟨hnodup, hslots.filter _, fun k hk k' hk' heq => ?_⟩
    exact (Consensus.mem_undecided.1 hk').2 (heq ▸ (hnew k hk).2)
  have hsub : decidedSlots new ++ r'.consensus.undecided slots ⊆ r.consensus.undecided slots := by
    intro k hk
    rcases List.mem_append.1 hk with hk | hk
    · exact (hnew k hk).1
    · obtain ⟨hmem, hfree⟩ := Consensus.mem_undecided.1 hk
      exact Consensus.mem_undecided.2 ⟨hmem, fun hold => hfree (h.kept k hold)⟩
  rw [← List.length_append]
  exact (List.subperm_of_subset hdistinct hsub).length_le

theorem Fills.undecided_le (h : Fills slots r r') (others : List DecisionKey) :
    (r'.consensus.undecided others).length ≤ (r.consensus.undecided others).length := by
  refine (List.monotone_filter_right others fun k hk => ?_).length_le
  simp only [decide_not, Bool.not_eq_true', decide_eq_false_iff_not] at hk ⊢
  exact fun hold => hk (h.kept k hold)

/-- What is decided by the effects so far, if none was before. -/
theorem Fills.bounded (h : Fills slots r r') (hslots : slots.Nodup)
    (hidle : ∀ e ∈ r.effects, e.isRequest = false) (hnone : decidedSlots r.effects = []) :
    (decidedSlots r'.effects).Nodup ∧
      (∀ k ∈ decidedSlots r'.effects, k ∈ r'.consensus.localDecisions) ∧
      totalWeight r'.effects + (r'.consensus.undecided slots).length ≤
        (r.consensus.undecided slots).length := by
  obtain ⟨new, heffects, hrequest, hnodup, hnew⟩ := h.effects
  have hcount := h.length_le hslots heffects
  have hall : ∀ e ∈ r'.effects, e.isRequest = false := by
    intro e he
    rw [heffects] at he
    exact (List.mem_append.1 he).elim (hidle e) (hrequest e)
  have hdecided : decidedSlots r'.effects = decidedSlots new := by
    rw [heffects, decidedSlots_append, hnone, List.nil_append]
  rw [totalWeight_eq hall, hdecided]
  exact ⟨hnodup, fun k hk => (hnew k hk).2, hcount⟩

theorem Fills.of_path (h : ReflTransGen (Fills slots) r r') : Fills slots r r' := by
  induction h with
  | refl => exact .refl r
  | tail _ hlast ih => exact ih.trans hlast

/-- Votes of the round are cast. -/
def Votes (r r' : Running) : Prop := Fills (voteSlots r.consensus.round) r r'

theorem Votes.trans (h : r.Votes r') (h' : r'.Votes r'') : r.Votes r'' := by
  unfold Votes at h'
  rw [h.round] at h'
  exact Fills.trans h h'

theorem Votes.of_path (h : ReflTransGen Votes r r') : r.Votes r' := by
  induction h with
  | refl => exact .refl r
  | tail _ hlast ih => exact ih.trans hlast

/-! ## Votes -/

theorem decide_fills {m : SignableMessage} (hm : DecisionKey.ofSignable m ∈ slots)
    (hfree : DecisionKey.ofSignable m ∉ r.consensus.localDecisions) : Fills slots r (r.decide m) := by
  have hkeys : ∀ k, k ∈ (r.decide m).consensus.localDecisions ↔
      .ofSignable m = k ∨ k ∈ r.consensus.localDecisions := by
    intro k
    change k ∈ r.consensus.localDecisions.insert _ _ ↔ _
    rw [Std.ExtTreeMap.mem_insert, Std.compare_eq_iff_eq]
  refine ⟨rfl, fun k hk => (hkeys k).2 (.inr hk), _, rfl, by simp [Effect.isRequest], ?_⟩
  simp [decidedSlots, Effect.slot, hkeys, hm, hfree]

theorem castVote_votes (kind : VoteKind) (value : VoteValue) : r.Votes (r.castVote kind value) := by
  rcases r.castVote_cases kind value with ⟨-, he⟩ | ⟨hfree, he⟩
  · rw [he]
    exact .refl r
  · rw [he]
    have hdecide : r.Votes (r.decide (.vote (r.consensus.voteOf kind value))) :=
      decide_fills (mem_voteSlots _ kind) hfree
    refine hdecide.trans (.of_same rfl rfl [.scheduleTimeout _] rfl ?_ rfl)
    simp [Effect.isRequest]

theorem fills_update {f : Consensus → Consensus} (hround : (f r.consensus).round = r.consensus.round)
    (hdecisions : (f r.consensus).localDecisions = r.consensus.localDecisions) :
    Fills slots r (r.update f) :=
  .of_same hround hdecisions [] (by simp [update]) (by simp) rfl

theorem fills_emit {e : Effect} (hrequest : e.isRequest = false) (hslot : e.slot = none) :
    Fills slots r (r.emit e) :=
  .of_same rfl rfl [e] rfl (by simpa using hrequest) (by simp [decidedSlots, hslot])

theorem learnValid_votes (round : Round) (block : BlockId) (proof : List SignedVote) :
    r.Votes (r.learnValid round block proof) := by
  unfold learnValid
  split
  · exact fills_update rfl rfl
  · exact .refl r

theorem evaluatePrevotes_votes (round : Round) : r.Votes (r.evaluatePrevotes round) := by
  unfold evaluatePrevotes
  split
  · next block proof _ =>
    split
    · refine (learnValid_votes round block proof).trans ?_
      unfold precommitBlock
      split
      · exact Votes.trans (fills_update (f := (·.setLock _)) rfl rfl) (castVote_votes _ _)
      · exact .refl _
    · exact .refl r
  · split
    · exact castVote_votes _ _
    · exact .refl r
  · exact .refl r

theorem prevoteCurrent_votes : r.Votes r.prevoteCurrent := by
  unfold prevoteCurrent
  split
  · split
    · exact castVote_votes _ _
    · exact .refl r
  · exact .refl r

end Running

/-! ## Handlers -/

namespace EngineM

open Running Consensus

variable {V : MessageValidator} {r : Running}

theorem reaches_finalize (cert : ConsensusCommitCertificate) :
    Reaches Votes (finalize cert) r := by
  refine .get_bind ?_
  split
  · exact .of_readOnly (readOnly_ensure _)
  · refine .modify (g := fun _ => r.finalizeWith cert) (.single ?_)
    exact Votes.trans (fills_update (f := (·.setFinalized _)) rfl rfl) (fills_emit rfl rfl)

theorem reaches_evaluateRound (round : Round) : Reaches Votes (evaluateRound V round) r := by
  refine .modify_bind (.single (evaluatePrevotes_votes round)) (.get_bind ?_)
  split
  · exact .lift_bind fun _ _ => reaches_finalize _
  · exact .pure _

theorem reaches_activateCurrentRound : Reaches Votes (activateCurrentRound V) r :=
  .modify_bind (.single prevoteCurrent_votes) (.get_bind (reaches_evaluateRound _))

theorem reaches_acceptValidatedMessage (m : SignedMessage) :
    Reaches Votes (acceptValidatedMessage V m) r := by
  cases m with
  | proposal p =>
      refine .get_bind ?_
      split
      · split
        · split
          · exact .pure _
          · exact .modify (.single (fills_emit rfl rfl))
        · refine .modify_bind (.single (fills_update rfl rfl)) ?_
          split
          · exact reaches_activateCurrentRound
          · exact .pure _
      · exact .pure _
  | vote v =>
      refine .get_bind ?_
      split
      · split
        · split
          · exact .pure _
          · exact .modify (.single (fills_emit rfl rfl))
        · exact .modify_bind (.single (fills_update rfl rfl)) (reaches_evaluateRound _)
      · exact .pure _

theorem reaches_receiveMessage (m : SignedMessage) : Reaches Votes (receiveMessage V m) r :=
  .get_bind (.lift_bind fun _ _ => reaches_acceptValidatedMessage m)

theorem reaches_persisted (m : SignedMessage) : Reaches Votes (persisted V m) r := by
  refine .get_bind (.ensure_bind fun _ => .lift_bind fun _ _ => ?_)
  refine .modify_bind (.single ?_) (reaches_acceptValidatedMessage m)
  exact Votes.trans (fills_update (f := (·.erasePending _)) rfl rfl) (fills_emit rfl rfl)

/-- The block that was asked for decides the slot of the proposal, unless it is decided. -/
theorem reaches_proposalReady (height : Height) (round : Round) (block : BlockId) :
    Reaches (Fills [.proposal round]) (proposalReady height round block) r := by
  refine .get_bind (.ensure_bind fun _ => .ensure_bind fun _ => ?_)
  refine .modify_bind (.single (fills_update rfl rfl)) (.get_bind ?_)
  split
  · exact .of_readOnly (readOnly_ensure _)
  · next hfree =>
      refine .modify (.single (decide_fills (List.mem_singleton.2 rfl) fun hmem => ?_))
      rw [Std.ExtTreeMap.mem_iff_isSome_getElem?, hfree] at hmem
      cases hmem

/-! ## Rounds that begin -/

/-- A round that begins casts votes, or asks for a block. -/
theorem enterRound_eq_ok {round : Round} {r' : Running} (h : enterRound V round r = .ok () r') :
    (r.beginRound round).Votes r' ∨ r' = (r.beginRound round).requestProposal := by
  obtain ⟨_, _, hget, h⟩ := bind_eq_ok.1 h
  cases hget
  obtain ⟨_, _, hbound, h⟩ := bind_eq_ok.1 h
  obtain ⟨-, rfl⟩ := ensure_eq_ok.1 hbound
  obtain ⟨_, _, hbegin, h⟩ := bind_eq_ok.1 h
  obtain rfl := modify_eq_ok.1 hbegin
  obtain ⟨_, _, hget, h⟩ := bind_eq_ok.1 h
  cases hget
  split at h
  · have hreaches := reaches_activateCurrentRound (V := V) (r := r.beginRound round)
    rw [Reaches, h] at hreaches
    exact .inl (.of_path hreaches)
  · split at h
    · exact .inr (modify_eq_ok.1 h).symm
    · obtain ⟨-, rfl⟩ := pure_eq_ok.1 h
      exact .inl (.refl _)

/-- What the events other than the start and a certificate are checked for first. -/
theorem reaches_guarded {R : Running → Running → Prop} {x : EngineM Unit} (hx : Reaches R x r) :
    Reaches R (do
      ensure (r.consensus.started = true) .notStarted
      if r.consensus.finalized = none then x else return ()) r := by
  refine .ensure_bind fun _ => ?_
  split
  · exact hx
  · exact .pure _

theorem votes_of_eq_ok {x : EngineM Unit} {r' : Running} (hx : Reaches Votes x r)
    (h : x r = .ok () r') : r.Votes r' := by
  rw [Reaches, h] at hx
  exact .of_path hx

theorem handleTimeout_eq_ok {t : Timeout} {r' : Running} (h : handleTimeout V t r = .ok () r') :
    r.Votes r' ∨ ∃ round, enterRound V round r = .ok () r' := by
  have hvote : ∀ kind, Reaches Votes (do
      modify (·.castVote kind .nil)
      evaluateRound V r.consensus.round) r := fun kind =>
    .modify_bind (.single (castVote_votes kind _)) (reaches_evaluateRound _)
  obtain ⟨_, _, hget, h⟩ := bind_eq_ok.1 h
  cases hget
  split at h
  · cases hphase : r.consensus.phase <;> simp only [hphase] at h
    case propose => exact .inl (votes_of_eq_ok (hvote .prevote) h)
    case prevote => exact .inl (votes_of_eq_ok (hvote .precommit) h)
    case precommit =>
      obtain ⟨_, _, hnext, h⟩ := bind_eq_ok.1 h
      obtain ⟨-, rfl⟩ := ensure_eq_ok.1 hnext
      exact .inr ⟨_, h⟩
    case finalized =>
      obtain ⟨-, rfl⟩ := pure_eq_ok.1 h
      exact .inl (.refl _)
  · obtain ⟨-, rfl⟩ := pure_eq_ok.1 h
    exact .inl (.refl _)

/-- An answer is handled in the round it comes in. -/
theorem fills_handle {e : Event} (he : e.Answer) :
    Fills (e.slots r.consensus.round) r (handle V e r).state := by
  have hguarded : ∀ {slots : List DecisionKey} {x : EngineM Unit}, Reaches (Fills slots) x r →
      Fills slots r ((do
        ensure (r.consensus.started = true) .notStarted
        if r.consensus.finalized = none then x else return () : EngineM Unit) r).state :=
    fun hx => .of_path (reaches_guarded hx)
  cases e with
  | proposalReady height round block =>
      exact hguarded (reaches_proposalReady height round block)
  | persisted m => exact Votes.of_path (reaches_guarded (reaches_persisted m))
  | start | message _ | timeout _ | certificate _ => exact he.elim

/-- The events that may begin a round are a timer and the start. -/
theorem handle_eq_ok {e : Event} {r' : Running} (h : handle V e r = .ok () r') :
    Fills (e.slots r.consensus.round) r r' ∨ ∃ (r₀ : Running) (round : Round),
      r₀.effects = r.effects ∧
        ((r₀.beginRound round).Votes r' ∨ r' = (r₀.beginRound round).requestProposal) := by
  cases e with
  | proposalReady height round block =>
      have hfills := fills_handle (V := V) (r := r) (e := .proposalReady height round block) trivial
      rw [h] at hfills
      exact .inl hfills
  | persisted m =>
      have hfills := fills_handle (V := V) (r := r) (e := .persisted m) trivial
      rw [h] at hfills
      exact .inl hfills
  | message m => exact .inl (votes_of_eq_ok (reaches_guarded (reaches_receiveMessage m)) h)
  | certificate cert =>
      have hreaches : Reaches Votes (handle V (.certificate cert)) r :=
        .get_bind (.lift_bind fun _ _ => reaches_finalize cert)
      exact .inl (votes_of_eq_ok hreaches h)
  | start =>
      obtain ⟨_, _, hget, h⟩ := bind_eq_ok.1 h
      cases hget
      obtain ⟨_, _, hstarted, h⟩ := bind_eq_ok.1 h
      obtain ⟨-, rfl⟩ := ensure_eq_ok.1 hstarted
      obtain ⟨_, _, hset, h⟩ := bind_eq_ok.1 h
      obtain rfl := modify_eq_ok.1 hset
      exact .inr ⟨r.update (·.setStarted), _, rfl, enterRound_eq_ok h⟩
  | timeout t =>
      obtain ⟨_, _, hget, h⟩ := bind_eq_ok.1 h
      cases hget
      obtain ⟨_, _, hstarted, h⟩ := bind_eq_ok.1 h
      obtain ⟨-, rfl⟩ := ensure_eq_ok.1 hstarted
      split at h
      · rcases handleTimeout_eq_ok h with hvotes | ⟨round, hround⟩
        · exact .inl hvotes
        · exact .inr ⟨r, round, rfl, enterRound_eq_ok hround⟩
      · obtain ⟨-, rfl⟩ := pure_eq_ok.1 h
        exact .inl (.refl _)

end EngineM

/-! ## Steps -/

namespace Consensus

open Running EngineM

variable {c : Consensus} {V : MessageValidator} {e : Event}

theorem step_eq_ok {effects : List Effect} {next : Consensus}
    (h : c.step e V = (.ok effects, next)) : handle V e ⟨c, []⟩ = .ok () ⟨next, effects⟩ := by
  unfold step at h
  split at h
  · next hok =>
      cases h
      exact hok
  · cases h

/-- An engine that is not started takes no answer. -/
theorem started_of_step {effects : List Effect} {next : Consensus} (he : e.Answer)
    (h : c.step e V = (.ok effects, next)) : c.started = true := by
  have h := step_eq_ok h
  obtain ⟨_, _, hget, h⟩ := bind_eq_ok.1 h
  cases hget
  cases e with
  | proposalReady | persisted =>
      obtain ⟨_, _, hstarted, -⟩ := bind_eq_ok.1 h
      exact (ensure_eq_ok.1 hstarted).1
  | start | message _ | timeout _ | certificate _ => exact he.elim

theorem step_answer_round (he : e.Answer) : (c.step e V).2.round = c.round := by
  rw [step_state]
  exact (fills_handle he).round

theorem step_answer {effects : List Effect} {next : Consensus} (he : e.Answer)
    (h : c.step e V = (.ok effects, next)) : Fills (e.slots c.round) ⟨c, []⟩ ⟨next, effects⟩ := by
  have hfills := fills_handle (V := V) (r := ⟨c, []⟩) he
  rw [step_eq_ok h] at hfills
  exact hfills

/-- What an answer brings about and the votes it leaves undecided are fewer than before. -/
theorem step_answer_weight {effects : List Effect} {next : Consensus} (he : e.Answer)
    (h : c.step e V = (.ok effects, next)) :
    totalWeight effects + (next.undecided (voteSlots next.round)).length <
      e.weight + (c.undecided (voteSlots c.round)).length := by
  have hfills := step_answer he h
  have hround : next.round = c.round := hfills.round
  rw [hround]
  cases e with
  | persisted m =>
      obtain ⟨-, -, hcount⟩ := hfills.bounded (nodup_voteSlots c.round) nofun rfl
      have hcount : totalWeight effects + (next.undecided (voteSlots c.round)).length ≤
        (c.undecided (voteSlots c.round)).length := hcount
      simp only [Event.weight]
      omega
  | proposalReady height round block =>
      -- the proposal takes its own slot, which is none of the votes
      obtain ⟨-, -, hcount⟩ := hfills.bounded (Event.nodup_slots _ _) nofun rfl
      have hone : totalWeight effects ≤ 1 := (Nat.le_add_right _ _).trans
        (hcount.trans (c.length_undecided_le [.proposal round]))
      have hvotes : (next.undecided (voteSlots c.round)).length ≤
        (c.undecided (voteSlots c.round)).length := hfills.undecided_le _
      simp only [Event.weight]
      omega
  | start | message _ | timeout _ | certificate _ => exact he.elim

/-- What a step decides, it decides once. What it brings about and the votes it leaves undecided are
limited. -/
theorem step_bounded {effects : List Effect} {next : Consensus}
    (h : c.step e V = (.ok effects, next)) :
    (decidedSlots effects).Nodup ∧ (∀ k ∈ decidedSlots effects, k ∈ next.localDecisions) ∧
      totalWeight effects + (next.undecided (voteSlots next.round)).length ≤ 4 := by
  have hopen := next.length_undecided_le (voteSlots next.round)
  rcases handle_eq_ok (step_eq_ok h) with hfills | ⟨r₀, round, heffects, hvotes | hrequest⟩
  · obtain ⟨hnodup, hkept, hcount⟩ := hfills.bounded (e.nodup_slots c.round) nofun rfl
    have hslots := (c.length_undecided_le (e.slots c.round)).trans (e.length_slots_le c.round)
    have hweight : totalWeight effects ≤ (c.undecided (e.slots c.round)).length :=
      (Nat.le_add_right _ _).trans hcount
    refine ⟨hnodup, hkept, ?_⟩
    simp only [voteSlots, List.length_cons, List.length_nil] at hopen ⊢
    omega
  · have heffects : (r₀.beginRound round).effects = [.scheduleTimeout _] :=
      congrArg (· ++ [Effect.scheduleTimeout _]) heffects
    obtain ⟨hnodup, hkept, hcount⟩ := Fills.bounded hvotes (nodup_voteSlots _)
      (by simp [heffects, Effect.isRequest]) (by simp [heffects, decidedSlots, Effect.slot])
    refine ⟨hnodup, hkept, ?_⟩
    have hround : next.round = (r₀.beginRound round).consensus.round := hvotes.round
    have hslots := (r₀.beginRound round).consensus.length_undecided_le
      (voteSlots (r₀.beginRound round).consensus.round)
    rw [hround]
    simp only [voteSlots, List.length_cons, List.length_nil] at hcount hslots ⊢
    omega
  · have heffects : effects = [.scheduleTimeout _, .requestProposal _ _ _ _] :=
      (congrArg Running.effects hrequest).trans
        (congrArg (· ++ [Effect.scheduleTimeout _] ++ [Effect.requestProposal _ _ _ _]) heffects)
    rw [heffects]
    refine ⟨List.nodup_nil, nofun, ?_⟩
    simp only [totalWeight_cons, totalWeight_nil, Effect.weight]
    simp only [voteSlots, List.length_cons, List.length_nil] at hopen ⊢
    omega

end Consensus

end KCoin
