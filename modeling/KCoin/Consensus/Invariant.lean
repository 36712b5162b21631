import KCoin.Lib.Quorum
import KCoin.Consensus.Failures

/-!
# The invariant of an engine

What holds of an engine between any two of its moves: its caches hold admissible messages only, and
its safety state is one that an engine can be restored from. The lock is not ahead of the valid
value because a quorum of the current round is learned as the valid value before it is locked, and
because two quorums in one cache are for the same block.
-/

open Std

namespace KCoin

/-! ## Quorums of one height -/

/-- All but the faulty validators that can be tolerated. -/
theorem ValidatorSet.quorum_eq (s : ValidatorSet) : s.quorum = s.len - (s.len - 1) / 3 :=
  if_neg (Nat.pos_iff_ne_zero.1 s.len_pos)

/-- Two quorums are together more than the validators. -/
theorem ValidatorSet.len_lt_two_quorum (s : ValidatorSet) : s.len < s.quorum + s.quorum := by
  have hpos := s.len_pos
  rw [s.quorum_eq]
  omega

namespace Setup

variable {S : Setup} {Auth : SignedVote → Prop} {round round' : Round} {kind kind' : VoteKind}
  {block block' : BlockId} {votes votes' : List SignedVote}

/-- The signers of a quorum. -/
theorem Quorum.signers (h : S.Quorum Auth round kind block votes) :
    (votes.map (·.vote.validator)).Nodup ∧
      votes.map (·.vote.validator) ⊆ S.validators.validators ∧
      S.validators.quorum ≤ (votes.map (·.vote.validator)).length := by
  refine ⟨h.distinct, fun x hx => ?_, by simpa using h.enough⟩
  obtain ⟨v, hv, rfl⟩ := List.mem_map.1 hx
  exact (h.admissible v hv).member

/-- Two quorums have votes of one validator. -/
theorem Quorum.exists_common (h : S.Quorum Auth round kind block votes)
    (h' : S.Quorum Auth round' kind' block' votes') :
    ∃ v ∈ votes, ∃ v' ∈ votes', v.vote.validator = v'.vote.validator := by
  obtain ⟨hd, hs, hq⟩ := h.signers
  obtain ⟨hd', hs', hq'⟩ := h'.signers
  have hlen := S.validators.len_lt_two_quorum
  obtain ⟨x, hx, hx', -⟩ := List.exists_common (fun _ : ValidatorId => False)
    S.validators.nodup hd hd' hs hs' (by
      simp only [decide_false, List.filter_false, List.length_nil]
      unfold ValidatorSet.len at hlen
      omega)
  obtain ⟨v, hv, rfl⟩ := List.mem_map.1 hx
  obtain ⟨v', hv', he⟩ := List.mem_map.1 hx'
  exact ⟨v, hv, v', hv', he.symm⟩

/-- Two quorums in one cache of votes are for the same block. -/
theorem Quorum.block_unique {m : BTreeMap ValidatorId SignedVote}
    (h : S.Quorum Auth round kind block votes) (h' : S.Quorum Auth round' kind' block' votes')
    (hm : ∀ v ∈ votes, m[v.vote.validator]? = some v)
    (hm' : ∀ v ∈ votes', m[v.vote.validator]? = some v) : block' = block := by
  obtain ⟨v, hv, v', hv', he⟩ := h.exists_common h'
  obtain rfl : v = v' := Option.some.inj ((hm v hv).symm.trans (he ▸ hm' v' hv'))
  have hblock := (h.agree v hv).2.2.symm.trans (h'.agree v hv').2.2
  exact (VoteValue.block.inj hblock).symm

/-- A lock rests on a quorum of prevotes, unless the engine was created with it. -/
def Backed (S : Setup) (Auth : SignedVote → Prop) (boot : Option SafetyState) (round : Round)
    (block : BlockId) : Prop :=
  S.Polka Auth round block ∨
    ∃ s ∈ boot, s.lockedRound = some round ∧ s.lockedBlock = some block

theorem Backed.mono {Auth' : SignedVote → Prop} {boot : Option SafetyState}
    (h : S.Backed Auth boot round block) (hA : ∀ v, Auth v → Auth' v) :
    S.Backed Auth' boot round block := h.imp (·.mono hA) id

end Setup

/-! ## The invariant -/

/-- The next round, when there is one. -/
theorem Round.lt_succ {r : Round} (h : r.toNat + 1 < 2 ^ 32) : r < r + 1 := by
  rw [UInt32.lt_iff_toNat_lt, UInt32.toNat_add]
  simp only [UInt32.toNat_one]
  omega

namespace Consensus

/-- What holds of an engine between its moves. The engine was created with the safety state `boot`,
if any. -/
structure Inv (S : Setup) (Auth : SignedVote → Prop) (boot : Option SafetyState) (c : Consensus) :
    Prop where
  setup : c.setup = S
  sound : S.Sound Auth c.safetyState
  votes : ∀ round kind x v, (c.votesBy round kind)[x]? = some v →
    S.Admissible Auth v ∧ v.vote.round = round ∧ v.vote.kind = kind ∧ v.vote.validator = x
  proposals : ∀ round p, c.proposals[round]? = some p →
    ∀ vr ∈ p.proposal.validRound, vr < round ∧ S.Polka Auth vr p.proposal.blockId
  /-- Before an engine starts it caches nothing. -/
  unstarted : c.started = false →
    c.proposals = ∅ ∧ c.round < c.config.maxRoundsPerHeight
  /-- It resumes in a later round than that of its lock and its valid value. -/
  resumed : c.started = false → (∀ r ∈ c.lockedRound, r < c.round) ∧
    ∀ r ∈ c.validRound, r < c.round
  proposing : c.phase = .propose → ∀ r ∈ c.lockedRound, r < c.round
  /-- A quorum learned in the current round is in the cache. -/
  current : c.validRound = some c.round →
    ∀ v ∈ c.validProof, (c.votesBy c.round .prevote)[v.vote.validator]? = some v
  backed : ∀ r ∈ c.lockedRound, ∀ b ∈ c.lockedBlock, S.Backed Auth boot r b
  finalized : ∀ f ∈ c.finalized, S.Committed Auth f.round f.blockId

variable {S : Setup} {Auth Auth' : SignedVote → Prop} {boot : Option SafetyState}
  {c : Consensus}

theorem Inv.mono (h : c.Inv S Auth boot) (hA : ∀ v, Auth v → Auth' v) : c.Inv S Auth' boot :=
  { h with
    sound := h.sound.mono hA
    votes := fun r k x v hv => ⟨(h.votes r k x v hv).1.mono hA, (h.votes r k x v hv).2⟩
    proposals := fun r p hp vr hvr =>
      ⟨(h.proposals r p hp vr hvr).1, (h.proposals r p hp vr hvr).2.mono hA⟩
    backed := fun r hr b hb => (h.backed r hr b hb).mono hA
    finalized := fun f hf => (h.finalized f hf).mono hA }

/-! ### Creation -/

theorem inv_initial {localId : ValidatorId}
    (h : ∃ c, new localId S.validators S.height S.config = .ok c) :
    (initial localId S.validators S.height S.config).Inv S Auth boot where
  setup := rfl
  sound := ⟨rfl, rfl, nofun, nofun, rfl, fun _ => rfl, nofun⟩
  votes r k x v hv := by simp [votesBy, initial] at hv
  proposals r p hp := by simp [initial] at hp
  unstarted _ := ⟨rfl, UInt32.pos_iff_ne_zero.2 (maxRounds_ne_zero h)⟩
  resumed _ := ⟨nofun, nofun⟩
  proposing _ := nofun
  current := nofun
  backed := nofun
  finalized := nofun

/-- A restored engine keeps the invariant; its lock rests on a quorum if the safety state's did. -/
theorem inv_resumeFrom {localId : ValidatorId} {s : SafetyState} (hs : S.Sound Auth s)
    (hr : s.round.toNat + 1 < S.config.maxRoundsPerHeight.toNat)
    (hb : ∀ r ∈ s.lockedRound, ∀ b ∈ s.lockedBlock, S.Backed Auth boot r b) :
    ((initial localId S.validators S.height S.config).resumeFrom s).Inv S Auth boot := by
  have hlt : s.round < s.round + 1 :=
    Round.lt_succ (Nat.lt_trans hr S.config.maxRoundsPerHeight.toNat_lt)
  have hlocked : ∀ r ∈ s.lockedRound, r < s.round + 1 := fun r h =>
    UInt32.lt_of_le_of_lt (hs.lockRound r h) hlt
  have hvalid : ∀ r ∈ s.validRound, r < s.round + 1 := fun r h => by
    obtain ⟨b, hb⟩ := Option.isSome_iff_exists.1
      (hs.validPaired.trans (Option.isSome_iff_exists.2 ⟨r, h⟩))
    exact UInt32.lt_of_le_of_lt (hs.valid r h b hb).1 hlt
  exact {
    setup := rfl
    sound := { hs with
      height := rfl
      lockRound := fun r h => UInt32.le_of_lt (hlocked r h)
      valid := fun r h b hb => ⟨UInt32.le_of_lt (hvalid r h), (hs.valid r h b hb).2⟩ }
    votes := fun r k x v hv => by simp [votesBy, initial, resumeFrom] at hv
    proposals := fun r p hp => by simp [initial, resumeFrom] at hp
    unstarted := fun _ => ⟨rfl, by
      rw [UInt32.lt_iff_toNat_lt]
      exact (Nat.mod_le _ _).trans_lt hr⟩
    resumed := fun _ => ⟨hlocked, hvalid⟩
    proposing := fun _ => hlocked
    current := fun h => absurd (hvalid _ h) (UInt32.lt_irrefl _)
    backed := hb
    finalized := nofun }

/-! ### Quorums in the cache -/

/-- What `quorum_votes` finds among cached votes that are admissible: a quorum of them. -/
theorem quorum_of_quorumVotes (hsetup : c.setup = S) {round : Round} {kind : VoteKind}
    (hvotes : ∀ x v, (c.votesBy round kind)[x]? = some v →
      S.Admissible Auth v ∧ v.vote.round = round ∧ v.vote.kind = kind ∧ v.vote.validator = x)
    {block : BlockId} {votes : List SignedVote}
    (hq : c.quorumVotes round kind = some (.block block, votes)) :
    S.Quorum Auth round kind block votes ∧
      ∀ v ∈ votes, (c.votesBy round kind)[v.vote.validator]? = some v := by
  have henough : S.validators.quorum ≤ votes.length := by
    have hsome := List.find?_some hq
    rw [← hsetup]
    exact of_decide_eq_true hsome
  have hgroup := BTreeMap.getElem?_group
    (ExtTreeMap.mem_toList_iff_getElem?_eq_some.1 (List.mem_of_find?_eq_some hq))
  have hcached : ∀ v ∈ votes, (c.votesBy round kind)[v.vote.validator]? = some v ∧
      v.vote.value = .block block := fun v hv => by
    rw [hgroup, List.mem_filter] at hv
    obtain ⟨x, hx⟩ := BTreeMap.mem_values hv.1
    obtain ⟨-, -, -, rfl⟩ := hvotes x v hx
    exact ⟨hx, of_decide_eq_true hv.2⟩
  refine ⟨⟨fun v hv => ?_, fun v hv => ?_, ?_, henough⟩, fun v hv => (hcached v hv).1⟩
  · exact (hvotes _ v (hcached v hv).1).1
  · obtain ⟨-, hr, hk, -⟩ := hvotes _ v (hcached v hv).1
    exact ⟨hr, hk, (hcached v hv).2⟩
  · rw [hgroup]
    refine (List.filter_sublist.map _).nodup ?_
    exact BTreeMap.nodup_map_values _ _ fun x v hx => (hvotes x v hx).2.2.2

theorem Inv.quorum_of_quorumVotes (h : c.Inv S Auth boot) {round : Round} {kind : VoteKind}
    {block : BlockId} {votes : List SignedVote}
    (hq : c.quorumVotes round kind = some (.block block, votes)) :
    S.Quorum Auth round kind block votes ∧
      ∀ v ∈ votes, (c.votesBy round kind)[v.vote.validator]? = some v :=
  Consensus.quorum_of_quorumVotes h.setup (h.votes round kind) hq

/-! ### Updates -/

/-- The invariant does not look at requests and local decisions. -/
theorem Inv.bookkeeping (h : c.Inv S Auth boot) (requests : BTreeSet Round)
    (decisions pending : BTreeMap DecisionKey SignableMessage) :
    Inv S Auth boot { c with
      requestedProposals := requests
      localDecisions := decisions
      pendingPersistence := pending } :=
  ⟨h.setup, h.sound, h.votes, h.proposals, h.unstarted, h.resumed, h.proposing, h.current, h.backed,
    h.finalized⟩

theorem Inv.addDecision (h : c.Inv S Auth boot) (m : SignableMessage) :
    (c.addDecision m).Inv S Auth boot := h.bookkeeping _ _ _

theorem Inv.setStarted (h : c.Inv S Auth boot) : c.setStarted.Inv S Auth boot :=
  ⟨h.setup, h.sound, h.votes, h.proposals, nofun, nofun, h.proposing, h.current, h.backed, h.finalized⟩

theorem Inv.setPhase (h : c.Inv S Auth boot) {phase : Phase} (hp : phase ≠ .propose) :
    (c.setPhase phase).Inv S Auth boot :=
  ⟨h.setup, h.sound, h.votes, h.proposals, h.unstarted, h.resumed, fun he => absurd he hp, h.current,
    h.backed, h.finalized⟩

theorem Inv.setFinalized (h : c.Inv S Auth boot) {f : Finalization}
    (hf : S.Committed Auth f.round f.blockId) : (c.setFinalized f).Inv S Auth boot :=
  ⟨h.setup, h.sound, h.votes, h.proposals, h.unstarted, h.resumed, nofun, h.current, h.backed,
    fun _ hg => Option.some.inj hg ▸ hf⟩

theorem votesBy_setRound {round r : Round} {kind : VoteKind} {x : ValidatorId} {v : SignedVote}
    (h : ((c.setRound round).votesBy r kind)[x]? = some v) : (c.votesBy r kind)[x]? = some v := by
  unfold votesBy setRound pruneCaches at h
  simp only [ExtTreeMap.getElem?_filter'] at h
  unfold votesBy
  cases hm : c.votes[(r, kind)]? with
  | none => simp [hm] at h
  | some m =>
      rw [hm, Option.filter] at h
      split at h
      · exact h
      · simp at h

/-- A later round begins. What was locked or learned is from an earlier round. -/
theorem Inv.setRound (h : c.Inv S Auth boot) (hs : c.started = true) {round : Round}
    (hlock : ∀ r ∈ c.lockedRound, r < round) (hvalid : ∀ r ∈ c.validRound, r < round) :
    (c.setRound round).Inv S Auth boot where
  setup := h.setup
  sound := { h.sound with
    lockRound := fun r hr => UInt32.le_of_lt (hlock r hr)
    valid := fun r hr b hb => ⟨UInt32.le_of_lt (hvalid r hr), (h.sound.valid r hr b hb).2⟩ }
  votes r k x v hv := h.votes r k x v (votesBy_setRound hv)
  proposals r p hp := by
    have hp' : (c.proposals.filter _)[r]? = some p := hp
    rw [ExtTreeMap.getElem?_filter', Option.filter_eq_some_iff] at hp'
    exact h.proposals r p hp'.1
  unstarted hf := absurd (hs.symm.trans hf) nofun
  resumed hf := absurd (hs.symm.trans hf) nofun
  proposing _ := hlock
  current he := absurd (hvalid round he) (UInt32.lt_irrefl _)
  backed := h.backed
  finalized := h.finalized

/-- A quorum that is newer than the valid value becomes the valid value. -/
theorem Inv.setValid (h : c.Inv S Auth boot) (hs : c.started = true) {round : Round}
    {block : BlockId} {proof : List SignedVote}
    (hq : c.quorumVotes round .prevote = some (.block block, proof))
    (hle : round ≤ c.round) (hnew : ∀ known ∈ c.validRound, known < round) :
    (c.setValid round block proof).Inv S Auth boot where
  setup := h.setup
  sound := { h.sound with
    covered := fun r hr b hb => by
      obtain ⟨vr, hvr, vb, -, hrv⟩ := h.sound.covered r hr b hb
      refine ⟨round, rfl, block, rfl, .inl ?_⟩
      obtain hlt | ⟨rfl, -⟩ := hrv
      · exact UInt32.lt_trans hlt (hnew vr hvr)
      · exact hnew vr hvr
    validPaired := rfl
    noProof := nofun
    valid := fun r hr b hb => by
      cases hr
      cases hb
      exact ⟨hle, (h.quorum_of_quorumVotes hq).1⟩ }
  votes := h.votes
  proposals := h.proposals
  unstarted hf := absurd (hs.symm.trans hf) nofun
  resumed hf := absurd (hs.symm.trans hf) nofun
  proposing := h.proposing
  current he v hv := by
    obtain rfl : round = c.round := Option.some.inj he
    exact (h.quorum_of_quorumVotes hq).2 v hv
  backed := h.backed
  finalized := h.finalized

/-- At a quorum of the current round the valid value is that of the quorum. -/
theorem Inv.valid_eq (h : c.Inv S Auth boot) {block : BlockId} {proof : List SignedVote}
    (hq : c.quorumVotes c.round .prevote = some (.block block, proof))
    (hknown : ∃ known, c.validRound = some known ∧ c.round ≤ known) :
    c.validRound = some c.round ∧ c.validBlock = some block := by
  obtain ⟨known, hk, hge⟩ := hknown
  obtain ⟨b, hb⟩ := Option.isSome_iff_exists.1
    (h.sound.validPaired.trans (Option.isSome_iff_exists.2 ⟨known, hk⟩))
  obtain ⟨hle, hv⟩ := h.sound.valid known hk b hb
  obtain rfl : known = c.round := UInt32.le_antisymm hle hge
  obtain ⟨hquorum, hcached⟩ := h.quorum_of_quorumVotes hq
  obtain rfl := hquorum.block_unique hv hcached (h.current hk)
  exact ⟨hk, hb⟩

/-- A lock held in the current round is for the block of its quorum. -/
theorem Inv.lock_le (h : c.Inv S Auth boot) {block : BlockId} {proof : List SignedVote}
    (hq : c.quorumVotes c.round .prevote = some (.block block, proof))
    (hknown : ∃ known, c.validRound = some known ∧ c.round ≤ known) :
    ∀ r ∈ c.lockedRound, r < c.round ∨ r = c.round ∧ c.lockedBlock = some block := by
  intro r hr
  obtain ⟨hv, hb⟩ := h.valid_eq hq hknown
  obtain ⟨b, hlb⟩ := Option.isSome_iff_exists.1
    (h.sound.lockPaired.trans (Option.isSome_iff_exists.2 ⟨r, hr⟩))
  obtain ⟨vr, hvr, vb, hvb, hcov⟩ := h.sound.covered r hr b hlb
  obtain rfl : c.round = vr := Option.some.inj (hv.symm.trans hvr)
  obtain rfl : block = vb := Option.some.inj (hb.symm.trans hvb)
  exact hcov.imp id fun ⟨he, hbb⟩ => ⟨he.symm, hbb ▸ hlb⟩

/-- A quorum of the current round is locked. -/
theorem Inv.setLock (h : c.Inv S Auth boot) (hs : c.started = true) (hp : c.phase = .prevote)
    {block : BlockId} {proof : List SignedVote}
    (hq : c.quorumVotes c.round .prevote = some (.block block, proof))
    (hknown : ∃ known, c.validRound = some known ∧ c.round ≤ known) :
    (c.setLock block).Inv S Auth boot where
  setup := h.setup
  sound := { h.sound with
    lockPaired := rfl
    lockRound := fun r hr => by
      cases hr
      exact UInt32.le_refl _
    covered := fun r hr b hb => by
      cases hr
      cases hb
      obtain ⟨hv, hb⟩ := h.valid_eq hq hknown
      exact ⟨_, hv, _, hb, .inr ⟨rfl, rfl⟩⟩ }
  votes := h.votes
  proposals := h.proposals
  unstarted hf := absurd (hs.symm.trans hf) nofun
  resumed hf := absurd (hs.symm.trans hf) nofun
  proposing he := absurd (hp.symm.trans he) nofun
  current := h.current
  backed r hr b hb := by
    cases hr
    cases hb
    exact .inl ⟨proof, (h.quorum_of_quorumVotes hq).1⟩
  finalized := h.finalized

/-- An accepted proposal is cached. -/
theorem Inv.insertProposal (h : c.Inv S Auth boot) (hs : c.started = true) {V : MessageValidator}
    (hV : ∀ v, V.Accepts v → Auth v) {p : SignedProposal}
    (hp : c.validateMessage V (.proposal p) = .ok ()) :
    (c.insertProposal p).Inv S Auth boot where
  setup := h.setup
  sound := h.sound
  votes := h.votes
  proposals r q hq vr hvr := by
    have hq' : (c.proposals.insert p.proposal.round p)[r]? = some q := hq
    rw [ExtTreeMap.getElem?_insert] at hq'
    split at hq'
    · next he =>
        cases hq'
        obtain rfl := Std.compare_eq_iff_eq.1 he
        obtain ⟨hlt, hquorum⟩ := quorum_of_validateMessage hp hvr
        rw [h.setup] at hquorum
        exact ⟨hlt, _, hquorum.mono hV⟩
    · exact h.proposals r q hq' vr hvr
  unstarted hf := absurd (hs.symm.trans hf) nofun
  resumed hf := absurd (hs.symm.trans hf) nofun
  proposing := h.proposing
  current := h.current
  backed := h.backed
  finalized := h.finalized

/-- A cached vote stays when a vote of another validator, round or kind is cached. -/
theorem votesBy_insertVote (c : Consensus) (v : SignedVote) (round : Round) (kind : VoteKind)
    (x : ValidatorId) :
    ((c.insertVote v).votesBy round kind)[x]? =
      if v.vote.round = round ∧ v.vote.kind = kind ∧ v.vote.validator = x then some v
      else (c.votesBy round kind)[x]? := by
  change (((c.votes.insert (v.vote.round, v.vote.kind) _)[(round, kind)]?).getD ∅)[x]? = _
  rw [ExtTreeMap.getElem?_insert]
  by_cases hkey : v.vote.round = round ∧ v.vote.kind = kind
  · obtain ⟨rfl, rfl⟩ := hkey
    simp [ExtTreeMap.getElem?_insert]
  · have hne : compare (v.vote.round, v.vote.kind) (round, kind) ≠ .eq := fun he => by
      obtain ⟨h1, h2⟩ := Prod.mk.inj (Std.compare_eq_iff_eq.1 he)
      exact hkey ⟨h1, h2⟩
    rw [if_neg hne, if_neg fun ⟨h1, h2, _⟩ => hkey ⟨h1, h2⟩]
    rfl

/-- An accepted vote of a validator that had none is cached. -/
theorem Inv.insertVote (h : c.Inv S Auth boot) {V : MessageValidator}
    (hV : ∀ v, V.Accepts v → Auth v) {v : SignedVote}
    (hv : c.validateMessage V (.vote v) = .ok ())
    (hfresh : (c.votesBy v.vote.round v.vote.kind)[v.vote.validator]? = none) :
    (c.insertVote v).Inv S Auth boot where
  setup := h.setup
  sound := h.sound
  votes r k x w hw := by
    rw [votesBy_insertVote] at hw
    split at hw
    · next he =>
        cases hw
        exact ⟨h.setup ▸ (admissible_of_validateMessage hv).mono hV, he⟩
    · exact h.votes r k x w hw
  proposals := h.proposals
  unstarted := h.unstarted
  resumed := h.resumed
  proposing := h.proposing
  current he w hw := by
    rw [votesBy_insertVote, if_neg]
    · exact h.current he w hw
    · rintro ⟨hr, hk, hx⟩
      have hcached := h.current he w hw
      rw [← hx] at hcached
      rw [hr, hk] at hfresh
      exact nomatch hfresh.symm.trans hcached
  backed := h.backed
  finalized := h.finalized

end Consensus

end KCoin
