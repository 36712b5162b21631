import KCoin.Consensus.Engine

/-!
# What the engine accepts

The checks of the engine as facts about what they let through: admissible votes, quorums of votes
of distinct validators, and the safety states an engine can be restored from. All of them are
about the validator set, the height and the configuration only (`Setup`), not about the state of
the engine.
-/

namespace KCoin

/-- What the engines of one height have in common. -/
structure Setup where
  validators : ValidatorSet
  height : Height
  config : ConsensusConfig

def Consensus.setup (c : Consensus) : Setup := ⟨c.validators, c.height, c.config⟩

/-- The votes that the node accepts. -/
def MessageValidator.Accepts (V : MessageValidator) (v : SignedVote) : Prop :=
  V.validateVote v = .ok ()

/-- The node accepts the votes of a fixed set. -/
def MessageValidator.Fixed (P : SignedVote → Prop) (V : MessageValidator) : Prop :=
  ∀ v, V.Accepts v ↔ P v

namespace Setup

variable (S : Setup) (Auth : SignedVote → Prop)

/-- A well-formed vote of the height, authenticated by `Auth`. -/
structure Admissible (v : SignedVote) : Prop where
  size : v.signature.length ≤ S.config.maxSignatureBytes
  chainId : v.vote.chainId = S.config.chainId
  height : v.vote.height = S.height
  member : v.vote.validator ∈ S.validators.validators
  round : v.vote.round < S.config.maxRoundsPerHeight
  authentic : Auth v

/-- Votes of one kind in one round for one block. -/
def Agree (round : Round) (kind : VoteKind) (block : BlockId) (v : SignedVote) : Prop :=
  v.vote.round = round ∧ v.vote.kind = kind ∧ v.vote.value = .block block

/-- A quorum of admissible votes of distinct validators for a block. -/
structure Quorum (round : Round) (kind : VoteKind) (block : BlockId) (votes : List SignedVote) :
    Prop where
  admissible : ∀ v ∈ votes, S.Admissible Auth v
  agree : ∀ v ∈ votes, Agree round kind block v
  distinct : (votes.map (·.vote.validator)).Nodup
  enough : S.validators.quorum ≤ votes.length

/-- There is a quorum of prevotes for a block in a round. -/
def Polka (round : Round) (block : BlockId) : Prop :=
  ∃ votes, S.Quorum Auth round .prevote block votes

/-- There is a quorum of precommits for a block in a round. -/
def Committed (round : Round) (block : BlockId) : Prop :=
  ∃ votes, S.Quorum Auth round .precommit block votes

/-- A safety state an engine can be restored from: its lock and its valid value are not ahead of
it, the valid value has a quorum of prevotes, and it is newer than the lock or the same. -/
structure Sound (s : SafetyState) : Prop where
  height : s.height = S.height
  lockPaired : s.lockedBlock.isSome = s.lockedRound.isSome
  lockRound : ∀ r ∈ s.lockedRound, r ≤ s.round
  covered : ∀ r ∈ s.lockedRound, ∀ b ∈ s.lockedBlock,
    ∃ vr ∈ s.validRound, ∃ vb ∈ s.validBlock, r < vr ∨ vr = r ∧ vb = b
  validPaired : s.validBlock.isSome = s.validRound.isSome
  noProof : s.validRound = none → s.validRoundProof = []
  valid : ∀ r ∈ s.validRound, ∀ b ∈ s.validBlock,
    r ≤ s.round ∧ S.Quorum Auth r .prevote b s.validRoundProof

variable {S Auth} {Auth' : SignedVote → Prop} {round : Round} {kind : VoteKind} {block : BlockId}
  {votes : List SignedVote} {v : SignedVote} {s : SafetyState}

theorem Admissible.mono (h : S.Admissible Auth v) (hA : ∀ v, Auth v → Auth' v) :
    S.Admissible Auth' v :=
  { h with authentic := hA v h.authentic }

theorem Quorum.mono (h : S.Quorum Auth round kind block votes) (hA : ∀ v, Auth v → Auth' v) :
    S.Quorum Auth' round kind block votes :=
  { h with admissible := fun v hv => (h.admissible v hv).mono hA }

theorem Polka.mono (h : S.Polka Auth round block) (hA : ∀ v, Auth v → Auth' v) :
    S.Polka Auth' round block := h.imp fun _ hq => hq.mono hA

theorem Committed.mono (h : S.Committed Auth round block) (hA : ∀ v, Auth v → Auth' v) :
    S.Committed Auth' round block := h.imp fun _ hq => hq.mono hA

theorem Sound.mono (h : S.Sound Auth s) (hA : ∀ v, Auth v → Auth' v) : S.Sound Auth' s :=
  { h with valid := fun r hr b hb => ⟨(h.valid r hr b hb).1, (h.valid r hr b hb).2.mono hA⟩ }

/-- A quorum has at most as many votes as there are validators. -/
theorem Quorum.length_le (h : S.Quorum Auth round kind block votes) :
    votes.length ≤ S.validators.len := by
  have hsub : votes.map (·.vote.validator) ⊆ S.validators.validators := fun x hx => by
    obtain ⟨v, hv, rfl⟩ := List.mem_map.1 hx
    exact (h.admissible v hv).member
  have hle := (List.subperm_of_subset h.distinct hsub).length_le
  rwa [List.length_map] at hle

end Setup

namespace Consensus

variable {c : Consensus} {V : MessageValidator} {u : Unit}

/-! ## Votes, proposals and certificates -/

theorem validateContext_eq_ok {chainId : String} {height : Height} :
    c.validateContext chainId height = .ok u ↔ chainId = c.config.chainId ∧ height = c.height := by
  simp [validateContext, Except.bind_eq_ok]

theorem validateVoteStructure_eq_ok {v : SignedVote} :
    c.validateVoteStructure v = .ok u ↔
      v.vote.chainId = c.config.chainId ∧ v.vote.height = c.height ∧
      v.vote.validator ∈ c.validators.validators ∧
      v.vote.round < c.config.maxRoundsPerHeight := by
  simp [validateVoteStructure, Except.bind_eq_ok, validateContext_eq_ok, ValidatorSet.contains,
    and_assoc]

/-- The loop over a list of votes accepts the admissible votes for the block of validators that
are distinct and not among the signers seen before. -/
theorem validateVotes_eq_ok {round : Round} {kind : VoteKind} {block : BlockId}
    {malformed : ConsensusError} {signers : BTreeSet ValidatorId} {votes : List SignedVote} :
    c.validateVotes V round kind block malformed signers votes = .ok u ↔
      (∀ v ∈ votes, c.setup.Admissible V.Accepts v) ∧
      (∀ v ∈ votes, Setup.Agree round kind block v) ∧
      (votes.map (·.vote.validator)).Nodup ∧ ∀ v ∈ votes, v.vote.validator ∉ signers := by
  induction votes generalizing signers with
  | nil => simp [validateVotes]
  | cons v rest ih =>
      have hadm : c.setup.Admissible V.Accepts v ↔
          v.signature.length ≤ c.config.maxSignatureBytes ∧ c.validateVoteStructure v = .ok u ∧
            V.validateVote v = .ok () := by
        rw [validateVoteStructure_eq_ok]
        exact ⟨fun h => ⟨h.size, ⟨h.chainId, h.height, h.member, h.round⟩, h.authentic⟩,
          fun ⟨h1, ⟨h2, h3, h4, h5⟩, h6⟩ => ⟨h1, h2, h3, h4, h5, h6⟩⟩
      have hsigners : (∀ w ∈ rest, w.vote.validator ∉ signers.insert v.vote.validator) ↔
          (∀ w ∈ rest, w.vote.validator ∉ signers) ∧
            v.vote.validator ∉ rest.map (·.vote.validator) := by
        simp only [Std.ExtTreeSet.mem_insert, Std.compare_eq_iff_eq, not_or, List.mem_map, not_exists,
          not_and]
        exact ⟨fun h => ⟨fun w hw => (h w hw).2, fun w hw he => (h w hw).1 he.symm⟩,
          fun h w hw => ⟨fun he => h.2 w hw he.symm, h.1 w hw⟩⟩
      simp only [validateVotes, Except.bind_eq_ok, Except.ensure_eq_ok, validation_eq_ok,
        exists_const, List.forall_mem_cons, List.map_cons, List.nodup_cons, hadm, ih, hsigners,
        Setup.Agree]
      tauto

/-- The loop over the votes of a proof or a certificate, with the bound on their number. -/
theorem quorum_of_validateVotes {round : Round} {kind : VoteKind} {block : BlockId}
    {malformed : ConsensusError} {votes : List SignedVote} :
    (c.validators.quorum ≤ votes.length ∧ votes.length ≤ c.validators.len ∧
      c.validateVotes V round kind block malformed ∅ votes = .ok u) ↔
      c.setup.Quorum V.Accepts round kind block votes := by
  rw [validateVotes_eq_ok]
  exact ⟨fun ⟨h1, _, h2, h3, h4, _⟩ => ⟨h2, h3, h4, h1⟩,
    fun h => ⟨h.enough, h.length_le, h.admissible, h.agree, h.distinct, by simp⟩⟩

theorem admissible_of_validateMessage {v : SignedVote}
    (h : c.validateMessage V (.vote v) = .ok u) : c.setup.Admissible V.Accepts v := by
  simp only [validateMessage, Except.bind_eq_ok, Except.ensure_eq_ok, validation_eq_ok,
    exists_const, validateVoteStructure_eq_ok] at h
  obtain ⟨h1, ⟨h2, h3, h4, h5⟩, h6⟩ := h
  exact ⟨h1, h2, h3, h4, h5, h6⟩

/-- A proposal that names an earlier round for its block proves that the block had a quorum of
prevotes there. -/
theorem quorum_of_validateMessage {p : SignedProposal} {validRound : Round}
    (h : c.validateMessage V (.proposal p) = .ok u) (hv : p.proposal.validRound = some validRound) :
    validRound < p.proposal.round ∧
      c.setup.Quorum V.Accepts validRound .prevote p.proposal.blockId
        p.proposal.validRoundProof := by
  simp only [validateMessage, validateProposalStructure, hv, Except.bind_eq_ok,
    Except.ensure_eq_ok, exists_const, validateContext_eq_ok] at h
  obtain ⟨-, _, ⟨-, -, -, -, hlt, ⟨hq, hn⟩, hvotes⟩, -⟩ := h
  exact ⟨hlt, quorum_of_validateVotes.1 ⟨hq, hn, hvotes⟩⟩

theorem quorum_of_validateCertificate {cert : ConsensusCommitCertificate}
    (h : c.validateCertificate V cert = .ok u) :
    c.setup.Quorum V.Accepts cert.round .precommit cert.blockId cert.precommits := by
  simp only [validateCertificate, Except.bind_eq_ok, Except.ensure_eq_ok, exists_const,
    validateContext_eq_ok] at h
  obtain ⟨-, ⟨-, hq, hn⟩, _, hvotes, -⟩ := h
  exact quorum_of_validateVotes.1 ⟨hq, hn, hvotes⟩

/-! ## Validation does not read the state -/

section
variable {c' : Consensus}

theorem validateVoteStructure_congr (h : c'.setup = c.setup) :
    c'.validateVoteStructure = c.validateVoteStructure := by
  obtain ⟨hv, hh, hc⟩ := Setup.mk.inj h
  funext v
  simp only [validateVoteStructure, validateContext, hv, hh, hc]

theorem validateVotes_congr (h : c'.setup = c.setup) : c'.validateVotes = c.validateVotes := by
  obtain ⟨-, -, hc⟩ := Setup.mk.inj h
  funext V round kind block malformed signers votes
  induction votes generalizing signers with
  | nil => rfl
  | cons v rest ih => simp only [validateVotes, validateVoteStructure_congr h, hc, ih]

theorem validateMessage_congr (h : c'.setup = c.setup) :
    c'.validateMessage = c.validateMessage := by
  obtain ⟨hv, hh, hc⟩ := Setup.mk.inj h
  funext V m
  cases m with
  | proposal p =>
      simp only [validateMessage, validateProposalStructure, validateContext,
        validateVotes_congr h, hv, hh, hc]
  | vote v => simp only [validateMessage, validateVoteStructure_congr h, hc]

theorem validateCertificate_congr (h : c'.setup = c.setup) :
    c'.validateCertificate = c.validateCertificate := by
  obtain ⟨hv, hh, hc⟩ := Setup.mk.inj h
  funext V cert
  simp only [validateCertificate, validateContext, validateVotes_congr h, hv, hh, hc]

end

/-! ## Safety states -/

theorem lockIsWellFormed_iff {s : SafetyState} :
    lockIsWellFormed s = true ↔
      s.lockedBlock.isSome = s.lockedRound.isSome ∧ ∀ r ∈ s.lockedRound, r ≤ s.round := by
  unfold lockIsWellFormed
  cases s.lockedRound <;> cases s.lockedBlock <;> simp

theorem validValueIsWellFormed_iff {s : SafetyState} :
    c.validValueIsWellFormed s = true ↔
      s.validBlock.isSome = s.validRound.isSome ∧
      (s.validRound = none → s.validRoundProof = []) ∧
      ∀ r ∈ s.validRound, r ≤ s.round ∧ c.validators.quorum ≤ s.validRoundProof.length ∧
        s.validRoundProof.length ≤ c.validators.len := by
  unfold validValueIsWellFormed
  cases s.validRound <;> cases s.validBlock <;> simp [and_assoc]

theorem lockIsCoveredByValidValue_iff {s : SafetyState}
    (hp : s.lockedBlock.isSome = s.lockedRound.isSome) :
    lockIsCoveredByValidValue s = true ↔
      ∀ r ∈ s.lockedRound, ∀ b ∈ s.lockedBlock,
        ∃ vr ∈ s.validRound, ∃ vb ∈ s.validBlock, r < vr ∨ vr = r ∧ vb = b := by
  unfold lockIsCoveredByValidValue
  cases hr : s.lockedRound <;> cases hb : s.lockedBlock <;> simp only [hr, hb] at hp ⊢
  · simp
  · cases hp
  · cases hp
  · cases s.validRound <;> cases s.validBlock <;> simp

/-- The check of a restored safety state accepts the sound ones. -/
theorem validateRestoredSafetyState_eq_ok {s : SafetyState} (hh : s.height = c.height) :
    c.validateRestoredSafetyState s V = .ok u ↔ c.setup.Sound V.Accepts s := by
  have hwell : lockIsWellFormed s && c.validValueIsWellFormed s && lockIsCoveredByValidValue s ↔
      (lockIsWellFormed s ∧ c.validValueIsWellFormed s) ∧ lockIsCoveredByValidValue s := by
    simp only [Bool.and_eq_true]
  simp only [validateRestoredSafetyState, Except.bind_eq_ok, Except.ensure_eq_ok, exists_const,
    hwell, lockIsWellFormed_iff, validValueIsWellFormed_iff]
  constructor
  · rintro ⟨⟨⟨⟨hp, hr⟩, hvp, hnp, hq⟩, hcov⟩, hvotes⟩
    refine ⟨hh, hp, hr, (lockIsCoveredByValidValue_iff hp).1 hcov, hvp, hnp, fun r hr b hb => ?_⟩
    rw [Option.mem_def] at hr hb
    rw [hr, hb] at hvotes
    obtain ⟨hle, hge, hlen⟩ := hq r hr
    exact ⟨hle, quorum_of_validateVotes.1 ⟨hge, hlen, hvotes⟩⟩
  · intro h
    have hvotes : ∀ r ∈ s.validRound, ∃ b ∈ s.validBlock, r ≤ s.round ∧
        c.setup.Quorum V.Accepts r .prevote b s.validRoundProof := fun r hr => by
      obtain ⟨b, hb⟩ := Option.isSome_iff_exists.1
        (h.validPaired.trans (Option.isSome_iff_exists.2 ⟨r, hr⟩))
      exact ⟨b, hb, h.valid r hr b hb⟩
    refine ⟨⟨⟨⟨h.lockPaired, h.lockRound⟩, h.validPaired, h.noProof, fun r hr => ?_⟩,
      (lockIsCoveredByValidValue_iff h.lockPaired).2 h.covered⟩, ?_⟩
    · obtain ⟨b, -, hle, hq⟩ := hvotes r hr
      exact ⟨hle, hq.enough, hq.length_le⟩
    · split
      · next r b hr hb => exact (quorum_of_validateVotes.2 (h.valid r hr b hb).2).2.2
      · rfl

variable {localId : ValidatorId} {S : Setup} {s : SafetyState}

theorem new_eq_ok (h : new localId S.validators S.height S.config = .ok c) :
    c = initial localId S.validators S.height S.config := by
  simp only [new, Except.bind_eq_ok, Except.pure_eq_ok] at h
  obtain ⟨-, -, -, -, -, -, -, -, -, -, -, -, h⟩ := h
  exact h.symm

theorem maxRounds_ne_zero (h : ∃ c, new localId S.validators S.height S.config = .ok c) :
    S.config.maxRoundsPerHeight ≠ 0 := by
  obtain ⟨c, h⟩ := h
  simp only [new, Except.bind_eq_ok, Except.ensure_eq_ok, exists_const] at h
  exact h.2.2.2.2.1

/-- An engine is restored from the sound safety states of its height that are not in the last
round. -/
theorem newWithSafetyState_eq_ok :
    newWithSafetyState localId S.validators S.height S.config s V = .ok c ↔
      s.round.toNat + 1 < S.config.maxRoundsPerHeight.toNat ∧
      (∃ fresh, new localId S.validators S.height S.config = .ok fresh) ∧
      S.Sound V.Accepts s ∧
      c = (initial localId S.validators S.height S.config).resumeFrom s := by
  simp only [newWithSafetyState, Except.bind_eq_ok, Except.ensure_eq_ok, exists_const,
    Except.pure_eq_ok]
  constructor
  · rintro ⟨hh, hr, fresh, hnew, _, hs, rfl⟩
    obtain rfl := new_eq_ok hnew
    exact ⟨hr, ⟨_, hnew⟩, (validateRestoredSafetyState_eq_ok hh).1 hs, rfl⟩
  · rintro ⟨hr, ⟨fresh, hnew⟩, hs, rfl⟩
    obtain rfl := new_eq_ok hnew
    exact ⟨hs.height, hr, _, hnew, (), (validateRestoredSafetyState_eq_ok hs.height).2 hs, rfl⟩

/-- Restoring a decision changes the local decisions only. -/
theorem restoreLocalDecision_eq_ok {c' : Consensus} {m : SignableMessage}
    (h : c.restoreLocalDecision m = .ok c') :
    c.started = false ∧ ∃ ds, c' = { c with localDecisions := ds } := by
  simp only [restoreLocalDecision, Except.bind_eq_ok, Except.ensure_eq_ok, exists_const] at h
  obtain ⟨hs, _, -, _, -, -, -, h⟩ := h
  refine ⟨hs, ?_⟩
  split at h
  · split at h
    · exact ⟨c.localDecisions, (Except.pure_eq_ok.1 h).symm⟩
    · cases h
  · exact ⟨_, (Except.pure_eq_ok.1 h).symm⟩

end Consensus

end KCoin
