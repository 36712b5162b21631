import KCoin.Consensus.Progress

/-!
# What the preflight of a message predicts

A node authenticates a message with `preflight_message` before it writes the bytes that come with
it. What it is told there is what the engine does with the message afterwards: the same error, or
nothing at all for a message out of the window, and otherwise the slot of the message is occupied
(`Consensus.preflight_predicts`).
-/

open Std Relation EStateM

namespace KCoin

/-- The cached message in the slot of a message: the proposal of its round, or the vote of its
round, kind and validator. -/
def Consensus.cached (c : Consensus) : SignableMessage → Option SignedMessage
  | .proposal p => (c.proposals[p.round]?).map .proposal
  | .vote v => ((c.votesBy v.round v.kind)[v.validator]?).map .vote

namespace Running

open EngineM Consensus

/-- The cached proposals and votes are as they were, and no evidence was found. -/
structure Evaluated (r r' : Running) : Prop where
  proposals : r'.consensus.proposals = r.consensus.proposals
  votes : r'.consensus.votes = r.consensus.votes
  evidence : ∀ e, .evidence e ∈ r'.effects → .evidence e ∈ r.effects

variable {V : MessageValidator} {r r' r'' : Running}

theorem Evaluated.refl (r : Running) : r.Evaluated r := ⟨rfl, rfl, fun _ => id⟩

theorem Evaluated.trans (h : r.Evaluated r') (h' : r'.Evaluated r'') : r.Evaluated r'' :=
  ⟨h'.proposals.trans h.proposals, h'.votes.trans h.votes, fun e he => h.evidence e (h'.evidence e he)⟩

theorem Evaluated.of_moves (h : ReflTransGen Evaluated r r') : r.Evaluated r' := by
  induction h with
  | refl => exact .refl r
  | tail _ hm ih => exact ih.trans hm

/-- The state is changed outside the caches. -/
theorem Evaluated.update (h : r.Evaluated r') {f : Consensus → Consensus}
    (hp : (f r'.consensus).proposals = r'.consensus.proposals)
    (hv : (f r'.consensus).votes = r'.consensus.votes) : r.Evaluated (r'.update f) :=
  ⟨hp.trans h.proposals, hv.trans h.votes, h.evidence⟩

/-- An effect that is no evidence is pushed. -/
theorem Evaluated.emit (h : r.Evaluated r') {x : Effect} (hx : ∀ e, x ≠ .evidence e) :
    r.Evaluated (r'.emit x) := by
  refine ⟨h.proposals, h.votes, ?_⟩
  intro e he
  rcases List.mem_append.1 he with he | he
  · exact h.evidence e he
  · exact absurd (List.mem_singleton.1 he).symm (hx e)

theorem Evaluated.cached_eq (h : r.Evaluated r') (m : SignableMessage) :
    r'.consensus.cached m = r.consensus.cached m := by
  cases m with
  | proposal p =>
      show (r'.consensus.proposals[p.round]?).map _ = (r.consensus.proposals[p.round]?).map _
      rw [h.proposals]
  | vote v =>
      show ((r'.consensus.votes[(v.round, v.kind)]?.getD ∅)[v.validator]?).map _ =
        ((r.consensus.votes[(v.round, v.kind)]?.getD ∅)[v.validator]?).map _
      rw [h.votes]

/-! ## Evaluation leaves the caches as they are -/

theorem evaluated_decide (r : Running) (m : SignableMessage) : r.Evaluated (r.decide m) := by
  have hadd : r.Evaluated (r.update (·.addDecision m)) := (Evaluated.refl r).update rfl rfl
  exact hadd.emit fun _ => nofun

theorem evaluated_castVote (r : Running) (kind : VoteKind) (value : VoteValue) :
    r.Evaluated (r.castVote kind value) := by
  rcases r.castVote_cases kind value with ⟨-, he⟩ | ⟨-, he⟩ <;> rw [he]
  · exact .refl r
  · have hphase := (evaluated_decide r (.vote (r.consensus.voteOf kind value))).update
      (f := (·.setPhase (phaseAfter kind))) rfl rfl
    exact hphase.emit fun _ => nofun

theorem evaluated_learnValid (r : Running) (round : Round) (block : BlockId)
    (proof : List SignedVote) : r.Evaluated (r.learnValid round block proof) := by
  unfold learnValid
  split
  · exact (Evaluated.refl r).update rfl rfl
  · exact .refl r

theorem evaluated_precommitBlock (r : Running) (round : Round) (block : BlockId) :
    r.Evaluated (r.precommitBlock round block) := by
  unfold precommitBlock
  split
  · have hlock : r.Evaluated (r.update (·.setLock block)) := (Evaluated.refl r).update rfl rfl
    exact hlock.trans (evaluated_castVote _ _ _)
  · exact .refl r

theorem evaluated_evaluatePrevotes (r : Running) (round : Round) :
    r.Evaluated (r.evaluatePrevotes round) := by
  unfold evaluatePrevotes
  split
  · split
    · exact (evaluated_learnValid r _ _ _).trans (evaluated_precommitBlock _ _ _)
    · exact .refl r
  · split
    · exact evaluated_castVote r _ _
    · exact .refl r
  · exact .refl r

theorem evaluated_prevoteCurrent (r : Running) : r.Evaluated r.prevoteCurrent := by
  unfold prevoteCurrent
  split
  · split
    · exact evaluated_castVote r _ _
    · exact .refl r
  · exact .refl r

theorem finalize_evaluated (cert : ConsensusCommitCertificate) :
    Reaches Evaluated (finalize cert) r := by
  refine Reaches.get_bind ?_
  split
  · exact .of_readOnly (readOnly_ensure _)
  · have hset : r.Evaluated (r.update (·.setFinalized ⟨cert.height, cert.round, cert.blockId, cert⟩)) :=
      (Evaluated.refl r).update rfl rfl
    exact ReflTransGen.single (hset.emit fun _ => nofun)

theorem evaluateRound_evaluated (round : Round) :
    Reaches Evaluated (evaluateRound V round) r := by
  refine Reaches.modify_bind (.single (evaluated_evaluatePrevotes r round)) (Reaches.get_bind ?_)
  split
  · exact Reaches.lift_bind fun _ _ => finalize_evaluated _
  · exact .pure _

theorem activateCurrentRound_evaluated : Reaches Evaluated (activateCurrentRound V) r :=
  Reaches.modify_bind (.single (evaluated_prevoteCurrent r))
    (Reaches.get_bind (evaluateRound_evaluated _))

/-! ## Accepting a message -/

/-- A message out of the window is passed over. -/
theorem acceptValidatedMessage_outside {m : SignedMessage}
    (h : r.consensus.roundIsCacheable m.signable.round = false) :
    acceptValidatedMessage V m r = .ok () r := by
  cases m with
  | proposal p =>
      refine get_bind.trans ?_
      rw [if_neg (by simpa [SignedMessage.signable, SignableMessage.round] using h)]
      rfl
  | vote v =>
      refine get_bind.trans ?_
      rw [if_neg (by simpa [SignedMessage.signable, SignableMessage.round] using h)]
      rfl

/-- A proposal whose slot is taken is no news, or evidence. -/
theorem acceptProposal_of_cached {p first : SignedProposal}
    (h : r.consensus.roundIsCacheable p.proposal.round = true)
    (hcached : r.consensus.proposals[p.proposal.round]? = some first) :
    acceptProposal V p r = .ok () (if first = p then r else
      r.emit (.evidence (.doubleProposal p.proposal.proposer first p))) := by
  refine get_bind.trans ?_
  rw [if_pos h, hcached]
  show (if first = p then return () else _ : EngineM Unit) r = _
  split <;> rfl

/-- A proposal whose slot is free is cached, and activates the current round. -/
theorem acceptProposal_of_free {p : SignedProposal}
    (h : r.consensus.roundIsCacheable p.proposal.round = true)
    (hfree : r.consensus.proposals[p.proposal.round]? = none) :
    (r.update (·.insertProposal p)).Evaluated (acceptProposal V p r).state := by
  have hrun : acceptProposal V p r = (if p.proposal.round = r.consensus.round then
      activateCurrentRound V else return () : EngineM Unit) (r.update (·.insertProposal p)) := by
    refine get_bind.trans ?_
    rw [if_pos h, hfree]
    rfl
  rw [hrun]
  split
  · exact .of_moves activateCurrentRound_evaluated
  · exact .refl _

/-- A vote whose slot is taken is no news, or evidence. -/
theorem acceptVote_of_cached {v first : SignedVote}
    (h : r.consensus.roundIsCacheable v.vote.round = true)
    (hcached : (r.consensus.votesBy v.vote.round v.vote.kind)[v.vote.validator]? = some first) :
    acceptVote V v r = .ok () (if first = v then r else
      r.emit (.evidence (.doubleVote v.vote.validator first v))) := by
  refine get_bind.trans ?_
  rw [if_pos h, hcached]
  show (if first = v then return () else _ : EngineM Unit) r = _
  split <;> rfl

/-- A vote whose slot is free is cached, and its round evaluated. -/
theorem acceptVote_of_free {v : SignedVote}
    (h : r.consensus.roundIsCacheable v.vote.round = true)
    (hfree : (r.consensus.votesBy v.vote.round v.vote.kind)[v.vote.validator]? = none) :
    (r.update (·.insertVote v)).Evaluated (acceptVote V v r).state := by
  have hrun : acceptVote V v r = evaluateRound V v.vote.round (r.update (·.insertVote v)) := by
    refine get_bind.trans ?_
    rw [if_pos h, hfree]
    rfl
  rw [hrun]
  exact .of_moves (evaluateRound_evaluated _)

/-- After a message in the window was accepted or refused, its slot is occupied. -/
theorem acceptValidatedMessage_cached {m : SignedMessage}
    (h : r.consensus.roundIsCacheable m.signable.round = true) :
    (acceptValidatedMessage V m r).state.consensus.cached m.signable =
      some ((r.consensus.cached m.signable).getD m) := by
  cases m with
  | proposal p =>
      show (acceptProposal V p r).state.consensus.cached (.proposal p.proposal) = _
      cases hcached : r.consensus.proposals[p.proposal.round]? with
      | some first =>
          rw [acceptProposal_of_cached h hcached]
          show (if _ then _ else _ : Running).consensus.cached _ = _
          split <;> simp [cached, SignedMessage.signable, Running.emit, hcached]
      | none =>
          rw [(acceptProposal_of_free h hcached).cached_eq]
          simp [cached, SignedMessage.signable, hcached, Running.update, insertProposal]
  | vote v =>
      show (acceptVote V v r).state.consensus.cached (.vote v.vote) = _
      cases hcached : (r.consensus.votesBy v.vote.round v.vote.kind)[v.vote.validator]? with
      | some first =>
          rw [acceptVote_of_cached h hcached]
          show (if _ then _ else _ : Running).consensus.cached _ = _
          split <;> simp [cached, SignedMessage.signable, Running.emit, hcached]
      | none =>
          rw [(acceptVote_of_free h hcached).cached_eq]
          simp [cached, SignedMessage.signable, hcached, Running.update, votesBy_insertVote]

end Running

/-! ## Preflight and step -/

namespace Consensus

open Running

variable {c : Consensus} {V : MessageValidator} {m : SignedMessage}

/-- A live engine goes on to receive a message. -/
theorem handle_message (hl : c.Live) (V : MessageValidator) (m : SignedMessage) :
    EngineM.handle V (.message m) ⟨c, []⟩ = EngineM.receiveMessage V m ⟨c, []⟩ := by
  refine get_bind.trans ((ensure_bind hl.started).trans ?_)
  rw [if_pos hl.finalized]

theorem preflightMessage_eq_ok {b : Bool} :
    c.preflightMessage V m = .ok b ↔
      c.validateMessage V m = .ok () ∧ c.roundIsCacheable m.signable.round = b := by
  rw [preflightMessage, Except.bind_eq_ok]
  exact ⟨fun ⟨_, hv, hb⟩ => ⟨hv, Except.pure_eq_ok.1 hb⟩, fun ⟨hv, hb⟩ => ⟨(), hv, by rw [hb]; rfl⟩⟩

theorem preflightMessage_eq_error {e : ConsensusError} :
    c.preflightMessage V m = .error e ↔ c.validateMessage V m = .error e := by
  rw [preflightMessage, Except.bind_eq_error]
  simp

/-- What the preflight of a message, which only reads the engine, says of a live engine. If it fails,
the step fails with the same error; if it answers no, the step does nothing; and if it answers yes,
the slot of the message holds afterwards what it held before, or else the message, whether the step
returns or fails. In the first two cases the engine is as it was. -/
theorem preflight_predicts (hl : c.Live) (V : MessageValidator) (m : SignedMessage) :
    (∀ e, c.preflightMessage V m = .error e → c.step (.message m) V = (.error e, c)) ∧
    (c.preflightMessage V m = .ok false → c.step (.message m) V = (.ok [], c)) ∧
    (c.preflightMessage V m = .ok true →
      (c.step (.message m) V).2.cached m.signable = some ((c.cached m.signable).getD m)) := by
  refine ⟨?_, ?_, ?_⟩
  · intro e he
    have hfail : EngineM.receiveMessage V m ⟨c, []⟩ = .error e ⟨c, []⟩ :=
      get_bind.trans (bind_eq_error.2 (.inl (lift_eq_error.2 ⟨preflightMessage_eq_error.1 he, rfl⟩)))
    unfold step
    rw [handle_message hl, hfail]
  · intro hno
    obtain ⟨hvalid, hround⟩ := preflightMessage_eq_ok.1 hno
    have hrun : EngineM.receiveMessage V m ⟨c, []⟩ = .ok () ⟨c, []⟩ :=
      get_bind.trans ((lift_bind hvalid).trans (acceptValidatedMessage_outside hround))
    unfold step
    rw [handle_message hl, hrun]
  · intro hyes
    obtain ⟨hvalid, hround⟩ := preflightMessage_eq_ok.1 hyes
    have hrun : EngineM.receiveMessage V m ⟨c, []⟩ =
        EngineM.acceptValidatedMessage V m ⟨c, []⟩ := get_bind.trans (lift_bind hvalid)
    rw [step_state, handle_message hl, hrun]
    exact acceptValidatedMessage_cached (r := ⟨c, []⟩) hround

/-- The second of four validators hears a prevote: it is inside the window and enters the cache. -/
theorem preflight_predicts_prevote :
    ∃ (c : Consensus) (m : SignedMessage), c.preflightMessage Sample.acceptAll m = .ok true ∧
      c.cached m.signable = none ∧
      (c.step (.message m) Sample.acceptAll).2.cached m.signable = some m := by
  let c := (Sample.secondSession.step Sample.acceptAll .start).consensus
  let m : SignedMessage := .vote (Sample.voteBy 0 .prevote .nil)
  have hl : c.Live := ⟨by decide +kernel, by decide +kernel⟩
  have hyes : c.preflightMessage Sample.acceptAll m = .ok true := by
    rw [preflightMessage_eq_ok]
    exact ⟨by decide +kernel, by decide +kernel⟩
  have hfree : c.cached m.signable = none := by decide +kernel
  refine ⟨c, m, hyes, hfree, ?_⟩
  rw [(preflight_predicts hl Sample.acceptAll m).2.2 hyes, hfree]
  rfl

end Consensus

end KCoin
