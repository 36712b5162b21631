import KCoin.Consensus.Transitions

/-!
# What a failed step leaves

A step that fails returns no effects, so whatever it changed before it failed goes unreported. The
checks of a message come before the first change. The one check that comes after changes is the
node's validation of the certificate of a precommit quorum, at the end of `evaluate_round`: this
module says exactly which changes come before it (`handle_fails`).
-/

open Relation EStateM

namespace KCoin

def ConsensusError.isConflict : ConsensusError → Bool
  | .conflictingCommit _ _ => true
  | _ => false

namespace Consensus

variable {c c' c'' : Consensus} {V : MessageValidator} {e : ConsensusError}

/-! ## Errors of the checks -/

theorem validation_error {x : Except ConsensusValidationError Unit} (h : validation x = .error e) :
    e.isConflict = false := by
  cases x with
  | ok _ => cases h
  | error _ =>
      cases h
      rfl

theorem validateContext_error {chainId : String} {height : Height}
    (h : c.validateContext chainId height = .error e) : e.isConflict = false := by
  simp only [validateContext, Except.bind_eq_error, Except.ensure_eq_error] at h
  obtain ⟨-, rfl⟩ | ⟨_, -, -, rfl⟩ := h <;> rfl

theorem validateVoteStructure_error {v : SignedVote} (h : c.validateVoteStructure v = .error e) :
    e.isConflict = false := by
  simp only [validateVoteStructure, Except.bind_eq_error, Except.ensure_eq_error] at h
  obtain h | ⟨_, -, ⟨-, rfl⟩ | ⟨_, -, -, rfl⟩⟩ := h
  · exact validateContext_error h
  · rfl
  · rfl

theorem validateVotes_error {round : Round} {kind : VoteKind} {block : BlockId}
    {malformed : ConsensusError} (hm : malformed.isConflict = false)
    {signers : BTreeSet ValidatorId} {votes : List SignedVote}
    (h : c.validateVotes V round kind block malformed signers votes = .error e) :
    e.isConflict = false := by
  induction votes generalizing signers with
  | nil => cases h
  | cons v rest ih =>
      simp only [validateVotes, Except.bind_eq_error, Except.ensure_eq_error] at h
      obtain ⟨-, rfl⟩ | ⟨_, -, h | ⟨_, -, ⟨-, rfl⟩ | ⟨_, -, h | ⟨_, -, h⟩⟩⟩⟩ := h
      · rfl
      · exact validateVoteStructure_error h
      · exact hm
      · exact validation_error h
      · exact ih h

theorem validateProposalStructure_error {p : SignedProposal}
    (h : c.validateProposalStructure V p = .error e) : e.isConflict = false := by
  simp only [validateProposalStructure, Except.bind_eq_error, Except.ensure_eq_error] at h
  obtain h | ⟨_, -, ⟨-, rfl⟩ | ⟨_, -, ⟨-, rfl⟩ | ⟨_, -, ⟨-, rfl⟩ | ⟨_, -, h⟩⟩⟩⟩ := h
  · exact validateContext_error h
  · rfl
  · rfl
  · rfl
  · split at h
    · obtain ⟨-, rfl⟩ := Except.ensure_eq_error.1 h
      rfl
    · simp only [Except.bind_eq_error, Except.ensure_eq_error] at h
      obtain ⟨-, rfl⟩ | ⟨_, -, ⟨-, rfl⟩ | ⟨_, -, h⟩⟩ := h
      · rfl
      · rfl
      · exact validateVotes_error rfl h

theorem validateMessage_error {m : SignedMessage} (h : c.validateMessage V m = .error e) :
    e.isConflict = false := by
  simp only [validateMessage, Except.bind_eq_error, Except.ensure_eq_error] at h
  obtain ⟨-, rfl⟩ | ⟨_, -, h⟩ := h
  · rfl
  · cases m with
    | proposal p =>
        obtain h | ⟨_, -, h⟩ := Except.bind_eq_error.1 h
        · exact validateProposalStructure_error h
        · exact validation_error h
    | vote v =>
        obtain h | ⟨_, -, h⟩ := Except.bind_eq_error.1 h
        · exact validateVoteStructure_error h
        · exact validation_error h

theorem validateCertificate_error {cert : ConsensusCommitCertificate}
    (h : c.validateCertificate V cert = .error e) : e.isConflict = false := by
  simp only [validateCertificate, Except.bind_eq_error, Except.ensure_eq_error] at h
  obtain h | ⟨_, -, ⟨-, rfl⟩ | ⟨_, -, h | ⟨_, -, h⟩⟩⟩ := h
  · exact validateContext_error h
  · rfl
  · exact validateVotes_error rfl h
  · exact validation_error h

/-! ## Changes that do no harm -/

/-- Neither the position, the lock nor the local decisions changed, and nothing is newly pending. -/
structure Undone (c c' : Consensus) : Prop where
  setup : c'.setup = c.setup
  round : c'.round = c.round
  phase : c'.phase = c.phase
  started : c'.started = c.started
  finalized : c'.finalized = c.finalized
  lockedRound : c'.lockedRound = c.lockedRound
  lockedBlock : c'.lockedBlock = c.lockedBlock
  localDecisions : c'.localDecisions = c.localDecisions
  pending : ∀ (k : DecisionKey) m, c'.pendingPersistence[k]? = some m →
    c.pendingPersistence[k]? = some m

theorem Undone.refl (c : Consensus) : c.Undone c :=
  ⟨rfl, rfl, rfl, rfl, rfl, rfl, rfl, rfl, fun _ _ => id⟩

theorem Undone.trans (h : c.Undone c') (h' : c'.Undone c'') : c.Undone c'' :=
  ⟨h'.setup.trans h.setup, h'.round.trans h.round, h'.phase.trans h.phase,
    h'.started.trans h.started, h'.finalized.trans h.finalized,
    h'.lockedRound.trans h.lockedRound, h'.lockedBlock.trans h.lockedBlock,
    h'.localDecisions.trans h.localDecisions, fun k m hm => h.pending k m (h'.pending k m hm)⟩

theorem getElem?_of_erasePending {key k : DecisionKey} {m : SignableMessage}
    (h : (c.erasePending key).pendingPersistence[k]? = some m) :
    c.pendingPersistence[k]? = some m := by
  have h' : (c.pendingPersistence.erase key)[k]? = some m := h
  rw [Std.ExtTreeMap.getElem?_erase] at h'
  split at h'
  · cases h'
  · exact h'

/-! ## Swallowed changes -/

/-- A precommit quorum is in the cache whose certificate the node rejects. -/
def Rejects (V : MessageValidator) (c : Consensus) (round : Round) : Prop :=
  ∃ block precommits e, c.quorumVotes round .precommit = some (.block block, precommits) ∧
    V.validateCertificate (c.certificateOf round block precommits) = .error e

/-- A prevote quorum is in the cache that makes the engine precommit: for nil, or for a block whose
proposal is cached. -/
def Decides (c : Consensus) (round : Round) : Prop :=
  round = c.round ∧ c.phase = .prevote ∧
    ((∃ block proof, c.quorumVotes round .prevote = some (.block block, proof) ∧
      c.hasProposal round block = true) ∨
    ∃ proof, c.quorumVotes round .prevote = some (.nil, proof))

/-- Accepting a message changes what a failure does not report. -/
def SwallowsAccepted (V : MessageValidator) (c : Consensus) : SignedMessage → Prop
  | .proposal p =>
    c.roundIsCacheable p.proposal.round = true ∧ c.proposals[p.proposal.round]? = none ∧
      p.proposal.round = c.round ∧ (c.phase = .propose ∨ (c.insertProposal p).Decides c.round) ∧
      c.Rejects V c.round
  | .vote v =>
    c.roundIsCacheable v.vote.round = true ∧
      (c.votesBy v.vote.round v.vote.kind)[v.vote.validator]? = none ∧
      (c.insertVote v).Decides v.vote.round ∧ (c.insertVote v).Rejects V v.vote.round

/-- The next round begins with a cached proposal and a rejected precommit quorum. -/
def SwallowsRound (V : MessageValidator) (c : Consensus) : Prop :=
  c.round.toNat + 1 < 2 ^ 32 ∧ c.round + 1 < c.config.maxRoundsPerHeight ∧
    c.round + 1 ∈ (c.setRound (c.round + 1)).proposals ∧
    (c.setRound (c.round + 1)).Rejects V (c.round + 1)

/-- Handling an event changes what the failure does not report. -/
def Swallows (V : MessageValidator) (c : Consensus) : Event → Prop
  | .timeout t => c.Live ∧ c.isLive t = true ∧
    ((c.phase = .propose ∨ c.phase = .prevote) ∧ c.Rejects V c.round ∨
      c.phase = .precommit ∧ c.SwallowsRound V)
  | .message m => c.Live ∧ c.validateMessage V m = .ok () ∧ c.SwallowsAccepted V m
  | .persisted m => c.Live ∧
    c.pendingPersistence[DecisionKey.ofSignable m.signable]? = some m.signable ∧
    c.validateMessage V m = .ok () ∧ c.SwallowsAccepted V m
  | _ => False

end Consensus

namespace Running

open EngineM Consensus

variable {V : MessageValidator} {r : Running}

/-- How a handler other than that of certificates fails: with no conflict, and with no harm unless
it is one of the cases in `S`. -/
def Failure (S : Prop) (c : Consensus) (e : ConsensusError) (r : Running) : Prop :=
  e.isConflict = false ∧ (c.Undone r.consensus ∨ S)

theorem Failure.of_undone {S : Prop} {c c' : Consensus} {e : ConsensusError} {r' : Running}
    (h : Failure S c' e r') (hu : c.Undone c') : Failure S c e r' :=
  ⟨h.1, h.2.imp hu.trans id⟩

theorem learnValid_undone (round : Round) (block : BlockId) (proof : List SignedVote) :
    r.consensus.Undone (r.learnValid round block proof).consensus := by
  unfold learnValid
  split
  · exact ⟨rfl, rfl, rfl, rfl, rfl, rfl, rfl, rfl, fun _ _ => id⟩
  · exact .refl _

/-- A prevote quorum changes nothing but the valid value, unless it makes the engine precommit. -/
theorem evaluatePrevotes_undone {round : Round} (h : ¬r.consensus.Decides round) :
    r.consensus.Undone (r.evaluatePrevotes round).consensus := by
  unfold evaluatePrevotes
  split
  · next block proof hq =>
      split
      · next hp =>
          obtain ⟨hr, hph, -⟩ := r.learnValid_frame round block proof
          unfold precommitBlock
          rw [hr, hph, if_neg]
          · exact learnValid_undone _ _ _
          · exact fun ⟨hc, hphase⟩ => h ⟨hc, hphase, .inl ⟨block, proof, hq, hp⟩⟩
      · exact .refl _
  · next proof hq =>
      rw [if_neg fun ⟨hc, hphase⟩ => h ⟨hc, hphase, .inr ⟨proof, hq⟩⟩]
      exact .refl _
  · exact .refl _

/-- What evaluation leaves as it is. -/
structure Frame (c c' : Consensus) : Prop where
  setup : c'.setup = c.setup
  round : c'.round = c.round
  quorumVotes : c'.quorumVotes = c.quorumVotes

theorem Frame.rejects {c c' : Consensus} (h : Frame c c') {round : Round}
    (hr : c'.Rejects V round) : c.Rejects V round := by
  obtain ⟨block, precommits, e, hq, hv⟩ := hr
  obtain ⟨-, hh, hc⟩ := Setup.mk.inj h.setup
  refine ⟨block, precommits, e, h.quorumVotes ▸ hq, ?_⟩
  unfold certificateOf at hv ⊢
  rwa [hh, hc] at hv

theorem castVote_frame (kind : VoteKind) (value : VoteValue) :
    Frame r.consensus (r.castVote kind value).consensus := by
  rcases r.castVote_cases kind value with ⟨-, he⟩ | ⟨-, he⟩ <;> rw [he]
  · exact ⟨rfl, rfl, rfl⟩
  · exact ⟨rfl, rfl, rfl⟩

theorem prevoteCurrent_frame : Frame r.consensus r.prevoteCurrent.consensus := by
  unfold prevoteCurrent
  split
  · split
    · exact castVote_frame _ _
    · exact ⟨rfl, rfl, rfl⟩
  · exact ⟨rfl, rfl, rfl⟩

theorem evaluatePrevotes_frame (round : Round) :
    Frame r.consensus (r.evaluatePrevotes round).consensus := by
  have hlearn : ∀ block proof, Frame r.consensus (r.learnValid round block proof).consensus :=
    fun block proof => ⟨(learnValid_undone round block proof).setup,
      (learnValid_undone round block proof).round, (r.learnValid_frame round block proof).2.2.2.2⟩
  unfold evaluatePrevotes
  split
  · next block proof _ =>
      split
      · unfold precommitBlock
        split
        · have hcast := @castVote_frame ((r.learnValid round block proof).update (·.setLock block))
            .precommit (.block block)
          exact ⟨hcast.setup.trans (hlearn block proof).setup,
            hcast.round.trans (hlearn block proof).round,
            hcast.quorumVotes.trans (hlearn block proof).quorumVotes⟩
        · exact hlearn block proof
      · exact ⟨rfl, rfl, rfl⟩
  · split
    · exact castVote_frame _ _
    · exact ⟨rfl, rfl, rfl⟩
  · exact ⟨rfl, rfl, rfl⟩

/-! ## How handlers fail -/

/-- An evaluation fails only because the node rejects the certificate of a precommit quorum. -/
theorem evaluateRound_fails (h : r.consensus.Live) (round : Round) :
    Fails (fun e s => e.isConflict = false ∧ s = r.evaluatePrevotes round ∧
      r.consensus.Rejects V round) (evaluateRound V round) r := by
  refine Fails.modify_bind (Fails.get_bind ?_)
  split
  · next block precommits hq =>
      refine Fails.lift_bind (fun e he => ⟨validation_error he, rfl, ?_⟩) fun _ _ => ?_
      · refine (evaluatePrevotes_frame round).rejects ⟨block, precommits, ?_⟩
        cases hv : V.validateCertificate _ with
        | ok _ =>
            rw [hv] at he
            cases he
        | error ve => exact ⟨ve, hq, rfl⟩
      · refine Fails.get_bind ?_
        have hlive := (evaluatePrevotes_reaches (V := V) h round).2.finalized
        rw [hlive]
        exact .of_total (total_set _)
  · exact .of_total (total_pure _)

theorem activateCurrentRound_fails (h : r.consensus.Live) :
    Fails (fun e s => e.isConflict = false ∧ r.consensus.Rejects V r.consensus.round ∧
      (r.consensus.Undone s.consensus ∨ r.consensus.phase = .propose ∨
        r.consensus.Decides r.consensus.round)) (activateCurrentRound V) r := by
  have hlive := (prevoteCurrent_reaches (V := V) h).2
  refine Fails.modify_bind (Fails.get_bind fun e s he => ?_)
  obtain ⟨hc, rfl, hr⟩ := evaluateRound_fails hlive _ e s he
  rw [prevoteCurrent_frame.round] at hr
  refine ⟨hc, prevoteCurrent_frame.rejects hr, ?_⟩
  by_cases hp : r.consensus.phase = .propose
  · exact .inr (.inl hp)
  · have hcur : r.prevoteCurrent = r := by rw [prevoteCurrent, if_neg hp]
    rw [hcur]
    by_cases hd : r.consensus.Decides r.consensus.round
    · exact .inr (.inr hd)
    · exact .inl (evaluatePrevotes_undone hd)

theorem acceptVote_fails (h : r.consensus.Live) (v : SignedVote) :
    Fails (Failure (r.consensus.SwallowsAccepted V (.vote v)) r.consensus) (acceptVote V v) r := by
  refine Fails.get_bind ?_
  split
  · next hcache =>
      split
      · split
        · exact .of_total (total_pure _)
        · exact .of_total (total_modify _)
      · next hfresh =>
          refine Fails.modify_bind fun e s he => ?_
          have hins : r.consensus.Undone (r.consensus.insertVote v) :=
            ⟨rfl, rfl, rfl, rfl, rfl, rfl, rfl, rfl, fun _ _ => id⟩
          obtain ⟨hc, rfl, hr⟩ := evaluateRound_fails (r := r.update (·.insertVote v))
            ⟨h.started, h.finalized⟩ _ e s he
          refine ⟨hc, ?_⟩
          by_cases hd : (r.consensus.insertVote v).Decides v.vote.round
          · exact .inr ⟨hcache, hfresh, hd, hr⟩
          · exact .inl (hins.trans (evaluatePrevotes_undone (r := r.update (·.insertVote v)) hd))
  · exact .of_total (total_pure _)

theorem acceptProposal_fails (h : r.consensus.Live) (p : SignedProposal) :
    Fails (Failure (r.consensus.SwallowsAccepted V (.proposal p)) r.consensus)
      (acceptProposal V p) r := by
  refine Fails.get_bind ?_
  split
  · next hcache =>
      split
      · split
        · exact .of_total (total_pure _)
        · exact .of_total (total_modify _)
      · next hfresh =>
          refine Fails.modify_bind ?_
          split
          · next hround =>
              have hins : r.consensus.Undone (r.consensus.insertProposal p) :=
                ⟨rfl, rfl, rfl, rfl, rfl, rfl, rfl, rfl, fun _ _ => id⟩
              intro e s he
              obtain ⟨hc, hr, hu⟩ := activateCurrentRound_fails
                (r := r.update (·.insertProposal p)) ⟨h.started, h.finalized⟩ e s he
              refine ⟨hc, hu.imp hins.trans fun hd => ⟨hcache, hfresh, hround, hd, ?_⟩⟩
              exact @Frame.rejects V _ _ ⟨rfl, rfl, rfl⟩ _ hr
          · exact .of_total (total_pure _)
  · exact .of_total (total_pure _)

theorem acceptValidatedMessage_fails (h : r.consensus.Live) (m : SignedMessage) :
    Fails (Failure (r.consensus.SwallowsAccepted V m) r.consensus) (acceptValidatedMessage V m)
      r := by
  cases m with
  | proposal p => exact acceptProposal_fails h p
  | vote v => exact acceptVote_fails h v

theorem receiveMessage_fails (h : r.consensus.Live) (m : SignedMessage) :
    Fails (Failure (r.consensus.Swallows V (.message m)) r.consensus) (receiveMessage V m) r := by
  refine Fails.get_bind (Fails.lift_bind (fun e he => ?_) fun _ hv e s he => ?_)
  · exact ⟨validateMessage_error he, .inl (.refl _)⟩
  · obtain ⟨hc, hu⟩ := acceptValidatedMessage_fails h m e s he
    exact ⟨hc, hu.imp id fun hs => ⟨h, hv, hs⟩⟩

theorem persisted_fails (h : r.consensus.Live) (m : SignedMessage) :
    Fails (Failure (r.consensus.Swallows V (.persisted m)) r.consensus) (persisted V m) r := by
  refine Fails.get_bind (Fails.ensure_bind (fun _ => ?_) fun hp =>
    Fails.lift_bind (fun e he => ?_) fun _ hv => Fails.modify_bind fun e s he => ?_)
  · exact ⟨rfl, .inl (.refl _)⟩
  · exact ⟨validateMessage_error he, .inl (.refl _)⟩
  · have herase : r.consensus.Undone (r.publish m).consensus :=
      ⟨rfl, rfl, rfl, rfl, rfl, rfl, rfl, rfl, fun _ _ => getElem?_of_erasePending⟩
    obtain ⟨hc, hu⟩ := acceptValidatedMessage_fails (r := r.publish m) ⟨h.started, h.finalized⟩ m
      e s he
    refine ⟨hc, hu.imp herase.trans fun hs => ⟨h, hp, hv, ?_⟩⟩
    cases m <;> exact hs

/-- A round that begins fails only in its evaluation. -/
theorem enterRound_fails (h : r.consensus.Live) (hn : r.consensus.round.toNat + 1 < 2 ^ 32) :
    Fails (Failure (r.consensus.SwallowsRound V) r.consensus)
      (enterRound V (r.consensus.round + 1)) r := by
  refine Fails.get_bind (Fails.ensure_bind (fun _ => ⟨rfl, .inl (.refl _)⟩) fun hb =>
    Fails.modify_bind (Fails.get_bind ?_))
  split
  · next hc =>
      intro e s he
      obtain ⟨hconf, hr, -⟩ := activateCurrentRound_fails
        (r := r.beginRound (r.consensus.round + 1)) ⟨h.started, h.finalized⟩ e s he
      exact ⟨hconf, .inr ⟨hn, hb, hc, hr⟩⟩
  · split
    · exact .of_total (total_modify _)
    · exact .of_total (total_pure _)

theorem handleTimeout_fails (h : r.consensus.Live) (t : Timeout) :
    Fails (Failure (r.consensus.Swallows V (.timeout t)) r.consensus) (handleTimeout V t) r := by
  refine Fails.get_bind ?_
  split
  · next hlive =>
      split
      · next hp =>
          refine Fails.modify_bind fun e s he => ?_
          obtain ⟨hc, -, hr⟩ := evaluateRound_fails (Live.castVote h _ _) _ e s he
          exact ⟨hc, .inr ⟨h, hlive, .inl ⟨.inl hp, (castVote_frame _ _).rejects hr⟩⟩⟩
      · next hp =>
          refine Fails.modify_bind fun e s he => ?_
          obtain ⟨hc, -, hr⟩ := evaluateRound_fails (Live.castVote h _ _) _ e s he
          exact ⟨hc, .inr ⟨h, hlive, .inl ⟨.inr hp, (castVote_frame _ _).rejects hr⟩⟩⟩
      · next hp =>
          refine Fails.ensure_bind (fun _ => ⟨rfl, .inl (.refl _)⟩) fun hn e s he => ?_
          obtain ⟨hc, hu⟩ := enterRound_fails h hn e s he
          exact ⟨hc, hu.imp id fun hs => ⟨h, hlive, .inr ⟨hp, hs⟩⟩⟩
      · exact .of_total (total_pure _)
  · exact .of_total (total_pure _)

theorem proposalReady_fails (height : Height) (round : Round) (block : BlockId) {S : Prop} :
    Fails (Failure S r.consensus) (proposalReady height round block) r := by
  refine Fails.get_bind (Fails.ensure_bind (fun _ => ⟨rfl, .inl (.refl _)⟩) fun _ =>
    Fails.ensure_bind (fun _ => ⟨rfl, .inl (.refl _)⟩) fun _ => Fails.modify_bind
      (Fails.get_bind ?_))
  split
  · exact .of_ensure fun _ =>
      ⟨rfl, .inl ⟨rfl, rfl, rfl, rfl, rfl, rfl, rfl, rfl, fun _ _ => id⟩⟩
  · exact .of_total (total_modify _)

/-- How a step fails: a certificate conflicts with what is finalized, and nothing changed; or there
is no conflict, and no harm unless the event swallows a change. Before it starts, an engine has
cached no proposal and its round is within the limit. -/
theorem handle_fails (hp : r.consensus.started = false → r.consensus.proposals = ∅ ∧
      r.consensus.round < r.consensus.config.maxRoundsPerHeight) (e : Event) :
    Fails (fun err s => (∃ cert f, e = .certificate cert ∧
        r.consensus.validateCertificate V cert = .ok () ∧ r.consensus.finalized = some f ∧
        f.blockId ≠ cert.blockId ∧ err = .conflictingCommit f.blockId cert.blockId ∧ s = r) ∨
      Failure (r.consensus.Swallows V e) r.consensus err s) (handle V e) r := by
  refine Fails.get_bind ?_
  have hlive : ∀ {x : EngineM Unit},
      (r.consensus.Live → Fails (Failure (r.consensus.Swallows V e) r.consensus) x r) →
      Fails (fun err s => (∃ cert f, e = .certificate cert ∧
        r.consensus.validateCertificate V cert = .ok () ∧ r.consensus.finalized = some f ∧
        f.blockId ≠ cert.blockId ∧ err = .conflictingCommit f.blockId cert.blockId ∧ s = r) ∨
        Failure (r.consensus.Swallows V e) r.consensus err s) (do
        ensure (r.consensus.started = true) .notStarted
        if r.consensus.finalized = none then x else return ()) r := fun {x} hx => by
    refine Fails.ensure_bind (fun _ => .inr ⟨rfl, .inl (.refl _)⟩) fun hs => ?_
    split
    · next hf => exact fun err s he => .inr (hx ⟨hs, hf⟩ err s he)
    · exact .of_total (total_pure _)
  cases e with
  | start =>
      refine Fails.ensure_bind (fun _ => .inr ⟨rfl, .inl (.refl _)⟩) fun hs => ?_
      obtain ⟨hnone, hround⟩ := hp hs
      refine Fails.modify_bind (Fails.get_bind (Fails.ensure_bind (absurd hround) fun _ =>
        Fails.modify_bind (Fails.get_bind ?_)))
      split
      · next hc =>
          have hmem := mem_of_mem_beginRound (r := r.update (·.setStarted)) hc
          rw [show (r.update (·.setStarted)).consensus.proposals = ∅ from hnone] at hmem
          exact absurd hmem Std.ExtTreeMap.not_mem_empty
      · split
        · exact .of_total (total_modify _)
        · exact .of_total (total_pure _)
  | certificate cert =>
      refine Fails.lift_bind (fun err he => .inr ⟨validateCertificate_error he, .inl (.refl _)⟩)
        fun _ hv => Fails.get_bind ?_
      split
      · next f hf => exact .of_ensure fun hne => .inl ⟨cert, f, rfl, hv, hf, hne, rfl, rfl⟩
      · exact .of_total (total_set _)
  | proposalReady height round block => exact hlive fun _ => proposalReady_fails height round block
  | message m => exact hlive fun h => receiveMessage_fails h m
  | persisted m => exact hlive fun h => persisted_fails h m
  | timeout t => exact hlive fun h => handleTimeout_fails h t

end Running

end KCoin
