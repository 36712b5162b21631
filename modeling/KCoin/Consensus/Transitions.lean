import KCoin.Consensus.Validation

/-!
# What a step of the engine does

Every handler is a sequence of the moves of `Micro`, each with the condition under which the engine
makes it. Whatever an event does, returned or failed, is such a sequence (`handle_reaches`), so an
invariant of the engine is proved once for each move.
-/

open Relation EStateM

namespace KCoin

/-- The engine is started and has not finalized a block. -/
structure Consensus.Live (c : Consensus) : Prop where
  started : c.started = true
  finalized : c.finalized = none

/-! ## The moves -/

namespace Running

open EngineM Consensus

/-- One move of the engine, with the condition under which it is made. -/
inductive Micro (V : MessageValidator) (r : Running) : Running → Prop
  /-- The first round of an engine begins. -/
  | start (started : r.consensus.started = false)
      (bound : r.consensus.round < r.consensus.config.maxRoundsPerHeight) :
      Micro V r ((r.update (·.setStarted)).beginRound r.consensus.round)
  /-- An engine whose first round is beyond the limit only counts as started. -/
  | startRefused (started : r.consensus.started = false)
      (bound : ¬r.consensus.round < r.consensus.config.maxRoundsPerHeight) :
      Micro V r (r.update (·.setStarted))
  | nextRound (live : r.consensus.Live) (phase : r.consensus.phase = .precommit)
      (next : r.consensus.round.toNat + 1 < 2 ^ 32)
      (bound : r.consensus.round + 1 < r.consensus.config.maxRoundsPerHeight) :
      Micro V r (r.beginRound (r.consensus.round + 1))
  | requestProposal (started : r.consensus.started = true) (phase : r.consensus.phase = .propose)
      (proposer : r.consensus.validators.proposer r.consensus.height r.consensus.round =
        r.consensus.localId) :
      Micro V r r.requestProposal
  | takeRequest (live : r.consensus.Live) {round : Round}
      (requested : round ∈ r.consensus.requestedProposals) :
      Micro V r (r.update (·.eraseRequest round))
  | decideProposal (live : r.consensus.Live) {round : Round} {block : BlockId}
      (requested : round ∈ r.consensus.requestedProposals)
      (free : r.consensus.localDecisions[DecisionKey.proposal round]? = none) :
      Micro V r ((r.update (·.eraseRequest round)).decide
        (.proposal (r.consensus.proposalOf r.consensus.height round block)))
  | prevoteProposal (live : r.consensus.Live) {p : SignedProposal}
      (phase : r.consensus.phase = .propose)
      (cached : r.consensus.proposals[r.consensus.round]? = some p) :
      Micro V r (r.castVote .prevote (r.consensus.prevoteFor p.proposal))
  | prevoteNil (live : r.consensus.Live) (phase : r.consensus.phase = .propose) :
      Micro V r (r.castVote .prevote .nil)
  | precommitNil (live : r.consensus.Live) (phase : r.consensus.phase = .prevote) :
      Micro V r (r.castVote .precommit .nil)
  | learnValid (live : r.consensus.Live) {round : Round} {block : BlockId}
      {proof : List SignedVote}
      (quorum : r.consensus.quorumVotes round .prevote = some (.block block, proof))
      (newer : round ≤ r.consensus.round ∧ ∀ known ∈ r.consensus.validRound, known < round) :
      Micro V r (r.update (·.setValid round block proof))
  | lockAndPrecommit (live : r.consensus.Live) {block : BlockId} {proof : List SignedVote}
      (phase : r.consensus.phase = .prevote)
      (quorum : r.consensus.quorumVotes r.consensus.round .prevote = some (.block block, proof))
      (valid : ∃ known, r.consensus.validRound = some known ∧ r.consensus.round ≤ known) :
      Micro V r (r.lockAndPrecommit block)
  | cacheProposal (live : r.consensus.Live) {p : SignedProposal}
      (validated : r.consensus.validateMessage V (.proposal p) = .ok ())
      (cacheable : r.consensus.roundIsCacheable p.proposal.round = true)
      (fresh : r.consensus.proposals[p.proposal.round]? = none) :
      Micro V r (r.update (·.insertProposal p))
  | cacheVote (live : r.consensus.Live) {v : SignedVote}
      (validated : r.consensus.validateMessage V (.vote v) = .ok ())
      (cacheable : r.consensus.roundIsCacheable v.vote.round = true)
      (fresh : (r.consensus.votesBy v.vote.round v.vote.kind)[v.vote.validator]? = none) :
      Micro V r (r.update (·.insertVote v))
  | publish (live : r.consensus.Live) {m : SignedMessage}
      (pending : r.consensus.pendingPersistence[DecisionKey.ofSignable m.signable]? =
        some m.signable)
      (validated : r.consensus.validateMessage V m = .ok ()) :
      Micro V r (r.publish m)
  | doubleProposal (live : r.consensus.Live) {first p : SignedProposal}
      (validated : r.consensus.validateMessage V (.proposal p) = .ok ())
      (cached : r.consensus.proposals[p.proposal.round]? = some first) (differ : first ≠ p) :
      Micro V r (r.emit (.evidence (.doubleProposal p.proposal.proposer first p)))
  | doubleVote (live : r.consensus.Live) {first v : SignedVote}
      (validated : r.consensus.validateMessage V (.vote v) = .ok ())
      (cached : (r.consensus.votesBy v.vote.round v.vote.kind)[v.vote.validator]? = some first)
      (differ : first ≠ v) :
      Micro V r (r.emit (.evidence (.doubleVote v.vote.validator first v)))
  | finalizeVotes (live : r.consensus.Live) {round : Round} {block : BlockId}
      {precommits : List SignedVote}
      (quorum : r.consensus.quorumVotes round .precommit = some (.block block, precommits))
      (accepted : V.validateCertificate (r.consensus.certificateOf round block precommits) =
        .ok ()) :
      Micro V r (r.finalizeWith (r.consensus.certificateOf round block precommits))
  | finalizeCertificate {cert : ConsensusCommitCertificate}
      (unfinalized : r.consensus.finalized = none)
      (validated : r.consensus.validateCertificate V cert = .ok ()) :
      Micro V r (r.finalizeWith cert)

variable {V : MessageValidator} {r : Running}

/-! ## Small facts about the moves -/

/-- A vote is cast, unless its slot is decided. -/
theorem castVote_cases (r : Running) (kind : VoteKind) (value : VoteValue) :
    (DecisionKey.vote r.consensus.round kind ∈ r.consensus.localDecisions ∧
      r.castVote kind value = r) ∨
    (DecisionKey.vote r.consensus.round kind ∉ r.consensus.localDecisions ∧
      r.castVote kind value = ((r.decide (.vote (r.consensus.voteOf kind value))).update
        (·.setPhase (phaseAfter kind))).schedule) := by
  unfold castVote
  split
  · next h => exact .inl ⟨h, rfl⟩
  · next h => exact .inr ⟨h, rfl⟩

theorem Live.castVote (h : r.consensus.Live) (kind : VoteKind) (value : VoteValue) :
    (r.castVote kind value).consensus.Live := by
  rcases r.castVote_cases kind value with ⟨-, he⟩ | ⟨-, he⟩ <;> rw [he]
  · exact h
  · exact ⟨h.started, h.finalized⟩

/-- What `learn_valid` leaves as it is. -/
theorem learnValid_frame (r : Running) (round : Round) (block : BlockId)
    (proof : List SignedVote) :
    (r.learnValid round block proof).consensus.round = r.consensus.round ∧
    (r.learnValid round block proof).consensus.phase = r.consensus.phase ∧
    (r.learnValid round block proof).consensus.started = r.consensus.started ∧
    (r.learnValid round block proof).consensus.finalized = r.consensus.finalized ∧
    (r.learnValid round block proof).consensus.quorumVotes = r.consensus.quorumVotes := by
  unfold learnValid
  split <;> exact ⟨rfl, rfl, rfl, rfl, rfl⟩

/-- After a quorum of the current round is learned, the valid round is at least the current. -/
theorem learnValid_known (r : Running) (block : BlockId) (proof : List SignedVote) :
    ∃ known, (r.learnValid r.consensus.round block proof).consensus.validRound = some known ∧
      r.consensus.round ≤ known := by
  unfold learnValid
  split
  · exact ⟨_, rfl, UInt32.le_refl _⟩
  · next h =>
      cases hv : r.consensus.validRound with
      | none => exact absurd ⟨UInt32.le_refl _, by rw [hv]; rfl⟩ h
      | some known =>
          refine ⟨known, rfl, UInt32.not_lt.1 fun hlt => h ⟨UInt32.le_refl _, ?_⟩⟩
          simpa [hv] using hlt

/-- A round has no new proposal in its cache when it begins. -/
theorem mem_of_mem_beginRound {round round' : Round}
    (h : round' ∈ (r.beginRound round).consensus.proposals) : round' ∈ r.consensus.proposals := by
  exact Std.ExtTreeMap.mem_of_mem_filter h

/-! ## Handlers are sequences of moves -/

theorem learnValid_reaches (h : r.consensus.Live) {round : Round} {block : BlockId}
    {proof : List SignedVote}
    (hq : r.consensus.quorumVotes round .prevote = some (.block block, proof)) :
    ReflTransGen (Micro V) r (r.learnValid round block proof) := by
  unfold learnValid
  split
  · next hn =>
      refine .single (.learnValid h hq ⟨hn.1, fun known hk => ?_⟩)
      exact of_decide_eq_true ((Option.all_eq_true _ _).1 hn.2 known hk)
  · exact .refl

theorem precommitBlock_reaches (h : r.consensus.Live) {round : Round} {block : BlockId}
    {proof : List SignedVote}
    (hq : r.consensus.quorumVotes round .prevote = some (.block block, proof))
    (hv : round = r.consensus.round →
      ∃ known, r.consensus.validRound = some known ∧ r.consensus.round ≤ known) :
    ReflTransGen (Micro V) r (r.precommitBlock round block) ∧
      (r.precommitBlock round block).consensus.Live := by
  unfold precommitBlock
  split
  · next hcur =>
      obtain ⟨rfl, hphase⟩ := hcur
      have hlocked : (r.update (·.setLock block)).consensus.Live := ⟨h.started, h.finalized⟩
      exact ⟨.single (.lockAndPrecommit h hphase hq (hv rfl)), Live.castVote hlocked _ _⟩
  · exact ⟨.refl, h⟩

theorem evaluatePrevotes_reaches (h : r.consensus.Live) (round : Round) :
    ReflTransGen (Micro V) r (r.evaluatePrevotes round) ∧
      (r.evaluatePrevotes round).consensus.Live := by
  unfold evaluatePrevotes
  split
  · next block proof hq =>
      split
      · obtain ⟨hr, -, hs, hf, hv⟩ := r.learnValid_frame round block proof
        have hlive : (r.learnValid round block proof).consensus.Live :=
          ⟨hs.trans h.started, hf.trans h.finalized⟩
        have hlock := precommitBlock_reaches (V := V) hlive (hv ▸ hq) fun hcur => by
          rw [hr] at hcur ⊢
          subst hcur
          exact r.learnValid_known block proof
        exact ⟨(learnValid_reaches h hq).trans hlock.1, hlock.2⟩
      · exact ⟨.refl, h⟩
  · split
    · next hcur => exact ⟨.single (.precommitNil h hcur.2), Live.castVote h _ _⟩
    · exact ⟨.refl, h⟩
  · exact ⟨.refl, h⟩

theorem finalize_reaches {cert : ConsensusCommitCertificate}
    (h : r.consensus.finalized = none → Micro V r (r.finalizeWith cert)) :
    Reaches (Micro V) (finalize cert) r := by
  refine Reaches.get_bind ?_
  split
  · exact .of_readOnly (readOnly_ensure _)
  · next hf => exact ReflTransGen.single (h hf)

theorem evaluatePrecommits_reaches (h : r.consensus.Live) (round : Round) :
    Reaches (Micro V) (evaluatePrecommits V round) r := by
  refine Reaches.get_bind ?_
  split
  · next block precommits hq =>
      refine Reaches.lift_bind fun _ hv => finalize_reaches fun _ => ?_
      exact .finalizeVotes h hq (validation_eq_ok.1 hv)
  · exact .pure _

theorem evaluateRound_reaches (h : r.consensus.Live) (round : Round) :
    Reaches (Micro V) (evaluateRound V round) r :=
  have ⟨hr, hl⟩ := evaluatePrevotes_reaches h round
  Reaches.modify_bind hr (evaluatePrecommits_reaches hl round)

theorem prevoteCurrent_reaches (h : r.consensus.Live) :
    ReflTransGen (Micro V) r r.prevoteCurrent ∧ r.prevoteCurrent.consensus.Live := by
  unfold prevoteCurrent
  split
  · next hphase =>
      split
      · next p hc => exact ⟨.single (.prevoteProposal h hphase hc), Live.castVote h _ _⟩
      · exact ⟨.refl, h⟩
  · exact ⟨.refl, h⟩

theorem activateCurrentRound_reaches (h : r.consensus.Live) :
    Reaches (Micro V) (activateCurrentRound V) r :=
  have ⟨hr, hl⟩ := prevoteCurrent_reaches h
  Reaches.modify_bind hr (Reaches.get_bind (evaluateRound_reaches hl _))

/-- What a round begins with, once it has begun. -/
theorem openRound_reaches (hs : r.consensus.started = true) (hp : r.consensus.phase = .propose)
    (hl : r.consensus.round ∈ r.consensus.proposals → r.consensus.Live) :
    Reaches (Micro V)
      (if r.consensus.round ∈ r.consensus.proposals then activateCurrentRound V
        else if r.consensus.validators.proposer r.consensus.height r.consensus.round =
          r.consensus.localId then modify Running.requestProposal else return ()) r := by
  split
  · next hc => exact activateCurrentRound_reaches (hl hc)
  · split
    · next hprop => exact Reaches.modify (.single (.requestProposal hs hp hprop))
    · exact .pure _

/-- A request is taken, and its proposal decided unless the slot is taken too. -/
theorem proposalReady_reaches (h : r.consensus.Live) (height : Height) (round : Round)
    (block : BlockId) : Reaches (Micro V) (proposalReady height round block) r := by
  refine Reaches.get_bind (Reaches.ensure_bind fun hheight => Reaches.ensure_bind fun hreq => ?_)
  subst hheight
  unfold Reaches
  change ReflTransGen (Micro V) r ((requestPersistence
    (.proposal (r.consensus.proposalOf r.consensus.height round block)))
      (r.update (·.eraseRequest round))).state
  cases hdecided : r.consensus.localDecisions[DecisionKey.proposal round]? with
  | none =>
      have hrun : requestPersistence
          (.proposal (r.consensus.proposalOf r.consensus.height round block))
          (r.update (·.eraseRequest round)) = .ok () ((r.update (·.eraseRequest round)).decide
            (.proposal (r.consensus.proposalOf r.consensus.height round block))) := by
        refine bind_of_ok (get_eq_ok.2 ⟨rfl, rfl⟩) |>.trans ?_
        rw [show (r.update (·.eraseRequest round)).consensus.localDecisions[DecisionKey.ofSignable
          (.proposal (r.consensus.proposalOf r.consensus.height round block))]? = none from hdecided]
        rfl
      rw [hrun]
      exact .single (.decideProposal h hreq hdecided)
  | some existing =>
      refine (ReflTransGen.single (.takeRequest h hreq)).trans ?_
      refine Reaches.get_bind ?_
      rw [show (r.update (·.eraseRequest round)).consensus.localDecisions[DecisionKey.ofSignable
        (.proposal (r.consensus.proposalOf r.consensus.height round block))]? = some existing
          from hdecided]
      exact .of_readOnly (readOnly_ensure _)

theorem acceptProposal_reaches (h : r.consensus.Live) {p : SignedProposal}
    (hv : r.consensus.validateMessage V (.proposal p) = .ok ()) :
    Reaches (Micro V) (acceptProposal V p) r := by
  refine Reaches.get_bind ?_
  split
  · next hcache =>
      split
      · next hcached =>
          split
          · exact .pure _
          · next hne => exact Reaches.modify (.single (.doubleProposal h hv hcached hne))
      · next hfresh =>
          refine Reaches.modify_bind (.single (.cacheProposal h hv hcache hfresh)) ?_
          split
          · exact activateCurrentRound_reaches (r := r.update (·.insertProposal p))
              ⟨h.started, h.finalized⟩
          · exact .pure _
  · exact .pure _

theorem acceptVote_reaches (h : r.consensus.Live) {v : SignedVote}
    (hv : r.consensus.validateMessage V (.vote v) = .ok ()) :
    Reaches (Micro V) (acceptVote V v) r := by
  refine Reaches.get_bind ?_
  split
  · next hcache =>
      split
      · next hcached =>
          split
          · exact .pure _
          · next hne => exact Reaches.modify (.single (.doubleVote h hv hcached hne))
      · next hfresh =>
          refine Reaches.modify_bind (.single (.cacheVote h hv hcache hfresh)) ?_
          exact evaluateRound_reaches (r := r.update (·.insertVote v)) ⟨h.started, h.finalized⟩ _
  · exact .pure _

theorem acceptValidatedMessage_reaches (h : r.consensus.Live) {m : SignedMessage}
    (hv : r.consensus.validateMessage V m = .ok ()) :
    Reaches (Micro V) (acceptValidatedMessage V m) r := by
  cases m with
  | proposal p => exact acceptProposal_reaches h hv
  | vote v => exact acceptVote_reaches h hv

theorem persisted_reaches (h : r.consensus.Live) (m : SignedMessage) :
    Reaches (Micro V) (persisted V m) r := by
  refine Reaches.get_bind (Reaches.ensure_bind fun hp => Reaches.lift_bind fun _ hv => ?_)
  refine Reaches.modify_bind (.single (.publish h hp hv)) ?_
  -- validation does not look at what is pending
  have hsame := @validateMessage_congr r.consensus (r.publish m).consensus rfl
  exact acceptValidatedMessage_reaches (r := r.publish m) ⟨h.started, h.finalized⟩ (hsame ▸ hv)

theorem handleTimeout_reaches (h : r.consensus.Live) (t : Timeout) :
    Reaches (Micro V) (handleTimeout V t) r := by
  refine Reaches.get_bind ?_
  split
  · split
    · next hphase =>
        exact Reaches.modify_bind (.single (.prevoteNil h hphase))
          (evaluateRound_reaches (Live.castVote h _ _) _)
    · next hphase =>
        exact Reaches.modify_bind (.single (.precommitNil h hphase))
          (evaluateRound_reaches (Live.castVote h _ _) _)
    · next hphase =>
        refine Reaches.ensure_bind fun hnext => Reaches.get_bind (Reaches.ensure_bind fun hb => ?_)
        refine Reaches.modify_bind (.single (.nextRound h hphase hnext hb)) (Reaches.get_bind ?_)
        exact openRound_reaches h.started rfl fun _ => ⟨h.started, h.finalized⟩
    · exact .pure _
  · exact .pure _

/-- The first round of an engine. It has cached no proposal yet, so nothing is evaluated. -/
theorem start_reaches (hs : r.consensus.started = false) (hp : r.consensus.proposals = ∅) :
    Reaches (Micro V) (do
      modify (·.update (·.setStarted))
      enterRound V r.consensus.round) r := by
  refine Reaches.ensure_bind_after (t := r.update (·.setStarted))
    (fun hb => .single (.startRefused hs hb)) fun hb => ?_
  refine (ReflTransGen.single (.start hs hb)).trans (openRound_reaches rfl rfl fun hc => ?_)
  have hnone : r.consensus.round ∉ r.consensus.proposals := by simp [hp]
  exact absurd (mem_of_mem_beginRound hc) hnone

/-- Whatever an event does, returned or failed, is a sequence of moves. Before an engine starts it
has cached no proposal, so its first round evaluates nothing. -/
theorem handle_reaches (hp : r.consensus.started = false → r.consensus.proposals = ∅)
    (e : Event) : Reaches (Micro V) (handle V e) r := by
  refine Reaches.get_bind ?_
  have hlive : ∀ {x : EngineM Unit},
      (r.consensus.Live → Reaches (Micro V) x r) →
      Reaches (Micro V) (do
        ensure (r.consensus.started = true) .notStarted
        if r.consensus.finalized = none then x else return ()) r := fun {x} hx => by
    refine Reaches.ensure_bind fun hs => ?_
    split
    · next hf => exact hx ⟨hs, hf⟩
    · exact .pure _
  cases e with
  | start => exact Reaches.ensure_bind fun hs => start_reaches hs (hp hs)
  | certificate cert =>
      refine Reaches.lift_bind fun _ hv => finalize_reaches fun hf => ?_
      exact .finalizeCertificate hf hv
  | proposalReady height round block => exact hlive fun h => proposalReady_reaches h height round block
  | message m =>
      refine hlive fun h => Reaches.get_bind (Reaches.lift_bind fun _ hv => ?_)
      exact acceptValidatedMessage_reaches h hv
  | persisted m => exact hlive fun h => persisted_reaches h m
  | timeout t => exact hlive fun h => handleTimeout_reaches h t

end Running

/-- The state after a step is the one its handling leaves, returned or failed. -/
theorem Consensus.step_state (c : Consensus) (e : Event) (V : MessageValidator) :
    (c.step e V).2 = (EngineM.handle V e ⟨c, []⟩).state.consensus := by
  unfold Consensus.step
  cases EngineM.handle V e ⟨c, []⟩ <;> rfl

end KCoin
