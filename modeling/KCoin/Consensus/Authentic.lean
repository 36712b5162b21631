import KCoin.Consensus.Agreement

/-!
# Events with authentic votes

A node accepts every vote whose signature is valid, so what its engine can rely on is that the votes
it is given are authentic. An engine only asks about the votes that an event brings
(`Consensus.step_restrict`), so its history is kept when these are (`History.step_authentic`), and
what it returns has authentic votes again (`History.returned_of_step`): a proposal of its own carries
the proof that is in its safety state, and a certificate has the precommits of a quorum.
-/

open Relation EStateM

namespace KCoin

/-! ## The votes of an event -/

/-- The votes that a message brings: those of a proof, or itself. -/
def SignedMessage.votes : SignedMessage → List SignedVote
  | .proposal p => p.proposal.validRoundProof
  | .vote v => [v]

/-- The votes that an event brings to the engine. -/
def Event.votes : Event → List SignedVote
  | .message m => m.votes
  | .persisted m => m.votes
  | .certificate cert => cert.precommits
  | _ => []

open Classical in
/-- The validation that accepts authentic votes only. -/
noncomputable def MessageValidator.restrict (V : MessageValidator) (Auth : SignedVote → Prop) :
    MessageValidator :=
  { V with validateVote := fun v => do V.validateVote v; ensure (Auth v) .invalidSignature }

namespace MessageValidator

variable {V : MessageValidator} {Auth : SignedVote → Prop} {v : SignedVote}

theorem accepts_restrict (h : (V.restrict Auth).Accepts v) : Auth v := by
  classical
  obtain ⟨_, -, hauth⟩ := Except.bind_eq_ok.1 h
  exact Except.ensure_eq_ok.1 hauth

/-- Where every accepted vote is authentic nothing changes. -/
theorem validateVote_restrict (h : V.Accepts v → Auth v) :
    (V.restrict Auth).validateVote v = V.validateVote v := by
  unfold restrict
  dsimp only
  cases hv : V.validateVote v with
  | error e => rfl
  | ok u => exact if_pos (h hv)

end MessageValidator

namespace Consensus

variable {c : Consensus} {V : MessageValidator} {Auth : SignedVote → Prop}

theorem validateVotes_restrict {votes : List SignedVote}
    (h : ∀ v ∈ votes, V.Accepts v → Auth v) (round : Round) (kind : VoteKind) (block : BlockId)
    (malformed : ConsensusError) (signers : BTreeSet ValidatorId) :
    c.validateVotes (V.restrict Auth) round kind block malformed signers votes =
      c.validateVotes V round kind block malformed signers votes := by
  induction votes generalizing signers with
  | nil => rfl
  | cons v rest ih =>
      obtain ⟨hv, hrest⟩ := List.forall_mem_cons.1 h
      simp only [validateVotes, MessageValidator.validateVote_restrict hv, ih hrest]

theorem validateMessage_restrict {m : SignedMessage} (h : ∀ v ∈ m.votes, V.Accepts v → Auth v) :
    c.validateMessage (V.restrict Auth) m = c.validateMessage V m := by
  cases m with
  | proposal p =>
      have hproof : ∀ round, c.validateVotes (V.restrict Auth) round .prevote p.proposal.blockId
          .invalidValidRoundProof ∅ p.proposal.validRoundProof =
          c.validateVotes V round .prevote p.proposal.blockId .invalidValidRoundProof ∅
            p.proposal.validRoundProof :=
        fun round => validateVotes_restrict h round _ _ _ _
      have hstructure : c.validateProposalStructure (V.restrict Auth) p =
          c.validateProposalStructure V p := by
        cases hround : p.proposal.validRound with
        | none => simp only [validateProposalStructure, hround]
        | some round => simp only [validateProposalStructure, hround, hproof]
      simp only [validateMessage, hstructure]
      rfl
  | vote v =>
      have hv := MessageValidator.validateVote_restrict (h v List.mem_cons_self)
      simp only [validateMessage, hv]

theorem validateCertificate_restrict {cert : ConsensusCommitCertificate}
    (h : ∀ v ∈ cert.precommits, V.Accepts v → Auth v) :
    c.validateCertificate (V.restrict Auth) cert = c.validateCertificate V cert := by
  simp only [validateCertificate, validateVotes_restrict h]
  rfl

/-- The engine asks only about the votes that the event brings. -/
theorem step_restrict {e : Event} (h : ∀ v ∈ e.votes, V.Accepts v → Auth v) :
    c.step e (V.restrict Auth) = c.step e V := by
  have hlive : ∀ {x y : EngineM Unit}, x ⟨c, []⟩ = y ⟨c, []⟩ → (do
      ensure (c.started = true) .notStarted
      if c.finalized = none then x else return () : EngineM Unit) ⟨c, []⟩ = (do
      ensure (c.started = true) .notStarted
      if c.finalized = none then y else return () : EngineM Unit) ⟨c, []⟩ := by
    intro x y hxy
    by_cases hs : c.started = true
    · rw [ensure_bind hs, ensure_bind hs]
      split
      · exact hxy
      · rfl
    · rw [bind_eq_error.2 (.inl (ensure_eq_error.2 ⟨hs, rfl, rfl⟩)),
        bind_eq_error.2 (.inl (ensure_eq_error.2 ⟨hs, rfl, rfl⟩))]
  have hhandle : EngineM.handle (V.restrict Auth) e ⟨c, []⟩ = EngineM.handle V e ⟨c, []⟩ := by
    cases e with
    | start => rfl
    | proposalReady height round block => rfl
    | timeout t => rfl
    | certificate cert =>
        change (liftM (c.validateCertificate (V.restrict Auth) cert) >>= _ : EngineM Unit) _ = _
        rw [validateCertificate_restrict h]
        rfl
    | message m =>
        refine hlive ?_
        change (liftM (c.validateMessage (V.restrict Auth) m) >>= _ : EngineM Unit) _ = _
        rw [validateMessage_restrict h]
        rfl
    | persisted m =>
        refine hlive ?_
        change (ensure _ _ >>= fun _ => liftM (c.validateMessage (V.restrict Auth) m) >>= _ :
          EngineM Unit) _ = _
        rw [validateMessage_restrict h]
        rfl
  unfold step
  rw [hhandle]

end Consensus

/-! ## Quorums of authentic votes -/

namespace Setup

variable {S : Setup} {Auth : SignedVote → Prop} {boot : Option SafetyState} {round : Round}
  {kind : VoteKind} {block : BlockId} {votes : List SignedVote} {s : SafetyState}

/-- An authentic vote of the height. -/
def OfHeight (S : Setup) (Auth : SignedVote → Prop) (v : SignedVote) : Prop :=
  v.vote.height = S.height ∧ Auth v

theorem Quorum.ofHeight (h : S.Quorum Auth round kind block votes) :
    S.Quorum (S.OfHeight Auth) round kind block votes where
  admissible v hv :=
    { h.admissible v hv with
      authentic := ⟨(h.admissible v hv).height, (h.admissible v hv).authentic⟩ }
  agree := h.agree
  distinct := h.distinct
  enough := h.enough

theorem Polka.ofHeight (h : S.Polka Auth round block) : S.Polka (S.OfHeight Auth) round block :=
  h.imp fun _ hq => hq.ofHeight

theorem Sound.ofHeight (h : S.Sound Auth s) : S.Sound (S.OfHeight Auth) s :=
  { h with
    valid := fun r hr b hb => ⟨(h.valid r hr b hb).1, (h.valid r hr b hb).2.ofHeight⟩ }

/-- The votes of the proof in a safety state are authentic. -/
theorem Sound.proof (h : S.Sound Auth s) : ∀ v ∈ s.validRoundProof, Auth v := by
  intro v hv
  cases hround : s.validRound with
  | none =>
      rw [h.noProof hround] at hv
      exact absurd hv List.not_mem_nil
  | some r =>
      obtain ⟨b, hb⟩ := Option.isSome_iff_exists.1 (h.validPaired.trans (by rw [hround]; rfl))
      exact ((h.valid r hround b hb).2.admissible v hv).authentic

end Setup

/-- A decision is justified by votes of its height. -/
theorem Decision.Justified.ofHeight {S : Setup} {Auth : SignedVote → Prop} {d : Decision}
    (h : d.Justified S Auth none) : d.Justified S (S.OfHeight Auth) none where
  sound := h.sound.ofHeight
  backed r hr b hb := by
    rcases h.backed r hr b hb with hp | ⟨_, hn, _⟩
    · exact .inl hp.ofHeight
    · cases hn
  round := h.round
  precommit := h.precommit
  prevote v b hv hk hb r hr := by
    obtain ⟨hlt, hlock | ⟨vr, h1, h2, hp⟩⟩ := h.prevote v b hv hk hb r hr
    · exact ⟨hlt, .inl hlock⟩
    · exact ⟨hlt, .inr ⟨vr, h1, h2, hp.ofHeight⟩⟩

/-! ## What a step returns -/

/-- A proposal is decided with the proof that is in the safety state. -/
def Decision.Proven (d : Decision) : Prop :=
  ∀ p, d.1 = .proposal p → p.validRoundProof ⊆ d.2.validRoundProof

namespace Running

open Consensus

variable {S : Setup} {Auth : SignedVote → Prop} {boot : Option SafetyState}
  {entries : List Decision} {V : MessageValidator} {r r' : Running}

/-- The proposals among the effects have proofs, and the precommits of what is finalized are
authentic. -/
structure Faithful (Auth : SignedVote → Prop) (r : Running) : Prop where
  proven : ∀ d ∈ decisions r.effects, d.Proven
  certificate : ∀ f, .finalize f ∈ r.effects → ∀ v ∈ f.certificate.precommits, Auth v

theorem Faithful.emit (h : r.Faithful Auth) (f : Consensus → Consensus) {e : Effect}
    (hd : ∀ m s, e = .persistBeforeBroadcast m s → Decision.Proven (m, s))
    (hf : ∀ f, e = .finalize f → ∀ v ∈ f.certificate.precommits, Auth v) :
    ((r.update f).emit e).Faithful Auth := by
  refine ⟨fun d hmem => ?_, fun f hmem => ?_⟩
  · rcases List.mem_append.1 (mem_decisions.1 hmem) with hold | hnew
    · exact h.proven d (mem_decisions.2 hold)
    · exact hd d.1 d.2 (List.mem_singleton.1 hnew).symm
  · rcases List.mem_append.1 hmem with hold | hnew
    · exact h.certificate f hold
    · exact hf f (List.mem_singleton.1 hnew).symm

theorem Faithful.castVote (h : r.Faithful Auth) (kind : VoteKind) (value : VoteValue) :
    (r.castVote kind value).Faithful Auth := by
  rcases r.castVote_cases kind value with ⟨-, he⟩ | ⟨-, he⟩ <;> rw [he]
  · exact h
  · have hdecide : (r.decide (.vote (r.consensus.voteOf kind value))).Faithful Auth :=
      h.emit _ (by rintro m s ⟨⟩ p ⟨⟩) (by simp)
    exact hdecide.emit (·.setPhase (phaseAfter kind)) (by simp) (by simp)

theorem proofFor_subset (c : Consensus) (round : Round) (block : BlockId) :
    c.proofFor round block ⊆ c.validProof := by
  unfold proofFor
  split
  · split
    · exact List.Subset.refl _
    · exact List.nil_subset _
  · exact List.nil_subset _

theorem Micro.faithful (hm : Micro V r r') (hV : ∀ v, V.Accepts v → Auth v)
    (hh : r.History S Auth boot entries) (h : r.Faithful Auth) : r'.Faithful Auth := by
  cases hm with
  | start =>
      have hstarted : (r.update (·.setStarted)).Faithful Auth := ⟨h.proven, h.certificate⟩
      exact hstarted.emit (·.setRound r.consensus.round) (by simp) (by simp)
  | nextRound => exact h.emit _ (by simp) (by simp)
  | requestProposal => exact h.emit _ (by simp) (by simp)
  | @decideProposal live round block requested free =>
      refine h.emit (fun c => (c.eraseRequest round).addDecision _) ?_ (by simp)
      rintro m s ⟨⟩ p ⟨⟩
      exact proofFor_subset r.consensus round block
  | prevoteProposal => exact h.castVote _ _
  | prevoteNil => exact h.castVote _ _
  | precommitNil => exact h.castVote _ _
  | @lockAndPrecommit live block =>
      exact Faithful.castVote (r := r.update (·.setLock block)) ⟨h.proven, h.certificate⟩ _ _
  | publish => exact h.emit _ (by simp) (by simp)
  | doubleProposal => exact h.emit id (by simp) (by simp)
  | doubleVote => exact h.emit id (by simp) (by simp)
  | finalizeVotes live quorum =>
      refine h.emit _ (by simp) ?_
      rintro f ⟨⟩ v hv
      exact ((hh.inv.quorum_of_quorumVotes quorum).1.admissible v hv).authentic
  | finalizeCertificate unfinalized validated =>
      refine h.emit _ (by simp) ?_
      rintro f ⟨⟩ v hv
      exact hV v ((quorum_of_validateCertificate validated).admissible v hv).authentic
  | _ => exact ⟨h.proven, h.certificate⟩

theorem faithful_of_moves (hm : ReflTransGen (Micro V) r r') (hV : ∀ v, V.Accepts v → Auth v)
    (hh : r.History S Auth boot entries) (h : r.Faithful Auth) : r'.Faithful Auth := by
  induction hm with
  | refl => exact h
  | tail hpath hm ih => exact hm.faithful hV (hh.of_moves hpath hV) ih

end Running

namespace History

variable {S : Setup} {Auth : SignedVote → Prop} {boot : Option SafetyState}
  {entries : List Decision} {c : Consensus} {V : MessageValidator} {e : Event}

/-- A step on authentic votes keeps the history. -/
theorem step_authentic (h : History S Auth boot entries c)
    (he : ∀ v ∈ e.votes, V.Accepts v → Auth v) :
    History S Auth boot (entries ++ handedOut (c.step e V).1) (c.step e V).2 := by
  have hstep := h.step (V := V.restrict Auth) (fun v => MessageValidator.accepts_restrict) e
  rwa [Consensus.step_restrict he] at hstep

/-- What such a step returns: proposals with their proofs, and certificates of authentic precommits. -/
theorem returned_of_step (h : History S Auth boot entries c)
    (he : ∀ v ∈ e.votes, V.Accepts v → Auth v) {effects : List Effect}
    (hs : (c.step e V).1 = .ok effects) : (∀ d ∈ decisions effects, d.Proven) ∧
      ∀ f, .finalize f ∈ effects → ∀ v ∈ f.certificate.precommits, Auth v := by
  have hbegin : Running.History S Auth boot entries ⟨c, []⟩ := by
    unfold Running.History
    rwa [show decisions ([] : List Effect) = [] from rfl, List.append_nil]
  have hfaithful := Running.faithful_of_moves (V := V.restrict Auth)
    (Running.handle_reaches (r := ⟨c, []⟩) (fun hn => (h.inv.unstarted hn).1) e)
    (fun v => MessageValidator.accepts_restrict) hbegin ⟨by simp [decisions], by simp⟩
  rw [← Consensus.step_restrict he] at hs
  unfold Consensus.step at hs
  cases hr : EngineM.handle (V.restrict Auth) e ⟨c, []⟩ with
  | error err r =>
      rw [hr] at hs
      cases hs
  | ok _ r =>
      rw [hr] at hfaithful hs
      obtain rfl := Except.ok.inj hs
      exact ⟨hfaithful.proven, hfaithful.certificate⟩

end History

end KCoin
