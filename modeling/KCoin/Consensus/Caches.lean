import KCoin.Consensus.Progress

/-!
# The size of the caches

An engine keeps messages and decisions of the rounds around its own, no matter which messages it is
sent: whatever enters is in the window of its round, and a round that begins forgets what has fallen
out of the window. What was restored before the start may be older, so the caches are bounded from
the start on (`Session.bounded_caches`).
-/

open Std Relation

namespace KCoin

namespace Consensus

/-! ## Queries -/

/-- The number of rounds with a cached proposal or vote. -/
def cachedRoundCount (c : Consensus) : Nat :=
  (ExtTreeSet.ofList (c.proposals.keys ++ c.votes.keys.map (·.1)) compare).size

/-- The number of cached votes of a round and kind. -/
def voteCount (c : Consensus) (round : Round) (kind : VoteKind) : Nat :=
  (c.votes[(round, kind)]?.map (·.size)).getD 0

/-! ## The window -/

/-- Everything an engine keeps is of a round in the window. -/
structure Windowed (c : Consensus) : Prop where
  proposals : ∀ round ∈ c.proposals, c.roundIsCacheable round = true
  votes : ∀ key ∈ c.votes, c.roundIsCacheable key.1 = true
  requested : ∀ round ∈ c.requestedProposals, c.roundIsCacheable round = true
  decisions : ∀ key ∈ c.localDecisions, c.roundIsCacheable key.round = true
  pending : ∀ key ∈ c.pendingPersistence, c.roundIsCacheable key.round = true

variable {c : Consensus} {round : Round}

/-- The window reaches from the retained rounds before the current one to the rounds ahead. The
number of retained rounds is cut off at the size of a round, which can only narrow the window. -/
theorem bounds_of_roundIsCacheable (h : c.roundIsCacheable round = true) :
    c.round.toNat - (c.config.maxCachedRounds - 1) ≤ round.toNat ∧
      round.toNat ≤ c.round.toNat + c.config.maxRoundAhead.toNat := by
  unfold roundIsCacheable at h
  simp only [Bool.and_eq_true, decide_eq_true_eq] at h
  have hcut : (UInt32.ofNat (c.config.maxCachedRounds - 1)).toNat ≤ c.config.maxCachedRounds - 1 := by
    rw [UInt32.toNat_ofNat']
    exact Nat.mod_le _ _
  omega

theorem roundIsCacheable_self (c : Consensus) : c.roundIsCacheable c.round = true := by
  simp [roundIsCacheable]

/-- What is left after the caches are pruned is in the window. -/
theorem windowed_pruneCaches (c : Consensus) : c.pruneCaches.Windowed := by
  have hmap : ∀ {β : Type} (m : BTreeMap DecisionKey β) (key : DecisionKey),
      key ∈ m.filter (fun key _ => c.roundIsCacheable key.round) →
      c.roundIsCacheable key.round = true := by
    intro β m key hkey
    obtain ⟨_, hkeep⟩ := ExtTreeMap.mem_filter.1 hkey
    simpa using hkeep
  refine ⟨?_, ?_, ?_, fun key => hmap _ key, fun key => hmap _ key⟩
  · intro round hround
    obtain ⟨_, hkeep⟩ := ExtTreeMap.mem_filter.1 hround
    simp only [ExtTreeMap.getKey_eq] at hkeep
    exact hkeep
  · intro key hkey
    obtain ⟨_, hkeep⟩ := ExtTreeMap.mem_filter.1 hkey
    simp only [ExtTreeMap.getKey_eq] at hkeep
    exact hkeep
  · intro round hround
    obtain ⟨_, hkeep⟩ := ExtTreeSet.mem_filter.1 hround
    simp only [ExtTreeSet.get_eq] at hkeep
    exact hkeep

/-- A decision in the window is kept when the caches are pruned. -/
theorem pruneCaches_decision {key : DecisionKey} (h : c.roundIsCacheable key.round = true) :
    c.pruneCaches.localDecisions[key]? = c.localDecisions[key]? ∧
      c.pruneCaches.pendingPersistence[key]? = c.pendingPersistence[key]? := by
  have hkeep : ∀ o : Option SignableMessage,
      o.filter (fun _ => c.roundIsCacheable key.round) = o := by
    intro o
    cases o <;> simp [h]
  unfold pruneCaches
  simp only [ExtTreeMap.getElem?_filter', hkeep, and_self]

/-! ### What enters the caches -/

theorem Windowed.addDecision (h : c.Windowed) {m : SignableMessage}
    (hm : c.roundIsCacheable (DecisionKey.ofSignable m).round = true) :
    (c.addDecision m).Windowed := by
  have hinsert : ∀ (decisions : BTreeMap DecisionKey SignableMessage) (key : DecisionKey),
      (∀ key ∈ decisions, c.roundIsCacheable key.round = true) →
      key ∈ decisions.insert (.ofSignable m) m → c.roundIsCacheable key.round = true := by
    intro decisions key hdecisions hkey
    rcases ExtTreeMap.mem_insert.1 hkey with hnew | hold
    · obtain rfl := Std.compare_eq_iff_eq.1 hnew
      exact hm
    · exact hdecisions key hold
  exact ⟨h.proposals, h.votes, h.requested, fun key => hinsert _ key h.decisions,
    fun key => hinsert _ key h.pending⟩

theorem Windowed.insertRequest (h : c.Windowed) : c.insertRequest.Windowed := by
  refine ⟨h.proposals, h.votes, ?_, h.decisions, h.pending⟩
  intro round hround
  rcases ExtTreeSet.mem_insert.1 hround with hnew | hold
  · obtain rfl := Std.compare_eq_iff_eq.1 hnew
    exact c.roundIsCacheable_self
  · exact h.requested round hold

theorem Windowed.eraseRequest (h : c.Windowed) (round : Round) : (c.eraseRequest round).Windowed :=
  ⟨h.proposals, h.votes, fun r hr => h.requested r (ExtTreeSet.mem_of_mem_erase hr), h.decisions,
    h.pending⟩

theorem Windowed.erasePending (h : c.Windowed) (key : DecisionKey) :
    (c.erasePending key).Windowed :=
  ⟨h.proposals, h.votes, h.requested, h.decisions,
    fun k hk => h.pending k (ExtTreeMap.mem_of_mem_erase hk)⟩

theorem Windowed.insertProposal (h : c.Windowed) {p : SignedProposal}
    (hp : c.roundIsCacheable p.proposal.round = true) : (c.insertProposal p).Windowed := by
  refine ⟨?_, h.votes, h.requested, h.decisions, h.pending⟩
  intro round hround
  rcases ExtTreeMap.mem_insert.1 hround with hnew | hold
  · obtain rfl := Std.compare_eq_iff_eq.1 hnew
    exact hp
  · exact h.proposals round hold

theorem Windowed.insertVote (h : c.Windowed) {v : SignedVote}
    (hv : c.roundIsCacheable v.vote.round = true) : (c.insertVote v).Windowed := by
  refine ⟨h.proposals, ?_, h.requested, h.decisions, h.pending⟩
  intro key hkey
  rcases ExtTreeMap.mem_insert.1 hkey with hnew | hold
  · obtain rfl := Std.compare_eq_iff_eq.1 hnew
    exact hv
  · exact h.votes key hold

/-! ### What the window bounds -/

/-- The cached rounds are no more than the window has, which keeps at least one round. -/
theorem Windowed.cachedRoundCount_le (h : c.Windowed) (hr : c.config.maxCachedRounds ≠ 0) :
    c.cachedRoundCount ≤ c.config.maxCachedRounds + c.config.maxRoundAhead.toNat := by
  have hcacheable : ∀ round ∈ ExtTreeSet.ofList (c.proposals.keys ++ c.votes.keys.map (·.1))
      compare, c.roundIsCacheable round = true := by
    intro round hround
    rcases List.mem_append.1 (BTreeSet.mem_ofList.1 hround) with hproposal | hvote
    · exact h.proposals round (ExtTreeMap.mem_keys.1 hproposal)
    · obtain ⟨key, hkey, rfl⟩ := List.mem_map.1 hvote
      exact h.votes key (ExtTreeMap.mem_keys.1 hkey)
  have hsize := BTreeSet.size_le_of_window (f := UInt32.toNat) (fun _ _ => UInt32.toNat_inj.1)
    fun round hround => bounds_of_roundIsCacheable (hcacheable round hround)
  unfold cachedRoundCount
  omega

/-- A validator has at most one cached vote of a round and kind. -/
theorem voteCount_le {S : Setup} {Auth : SignedVote → Prop} {boot : Option SafetyState}
    (h : c.Inv S Auth boot) (round : Round) (kind : VoteKind) :
    c.voteCount round kind ≤ c.validators.len := by
  have hcount : c.voteCount round kind = (c.votesBy round kind).keys.length := by
    unfold voteCount votesBy
    cases c.votes[(round, kind)]? <;> simp
  have hnodup : (c.votesBy round kind).keys.Nodup :=
    ExtTreeMap.distinct_keys.imp fun hne he => hne (Std.compare_eq_iff_eq.2 he)
  have hsub : (c.votesBy round kind).keys ⊆ c.validators.validators := by
    intro x hx
    obtain ⟨v, hv⟩ := Option.isSome_iff_exists.1
      (ExtTreeMap.mem_iff_isSome_getElem?.1 (ExtTreeMap.mem_keys.1 hx))
    obtain ⟨hadmissible, -, -, rfl⟩ := h.votes round kind x v hv
    rw [← h.setup] at hadmissible
    exact hadmissible.member
  rw [hcount]
  exact (List.subperm_of_subset hnodup hsub).length_le

end Consensus

/-! ## Moves -/

namespace Running

open Consensus

variable {V : MessageValidator} {S : Setup} {boot : Option SafetyState} {r r' : Running}

theorem windowed_castVote (h : r.consensus.Windowed) (kind : VoteKind) (value : VoteValue) :
    (r.castVote kind value).consensus.Windowed := by
  rcases r.castVote_cases kind value with ⟨-, he⟩ | ⟨-, he⟩ <;> rw [he]
  · exact h
  · have hdecided := h.addDecision (m := .vote (r.consensus.voteOf kind value))
      r.consensus.roundIsCacheable_self
    exact ⟨hdecided.proposals, hdecided.votes, hdecided.requested, hdecided.decisions,
      hdecided.pending⟩

/-- From its start on an engine keeps only what is in its window. -/
theorem Micro.windowed (hm : Micro V r r') (hi : r.consensus.Inv S (fun _ => True) boot)
    (h : r.consensus.started = true → r.consensus.Windowed) :
    r'.consensus.started = true → r'.consensus.Windowed := by
  have hsame : ∀ {c : Consensus}, r.consensus.Windowed → c.setup = r.consensus.setup →
      c.round = r.consensus.round → c.proposals = r.consensus.proposals →
      c.votes = r.consensus.votes → c.requestedProposals = r.consensus.requestedProposals →
      c.localDecisions = r.consensus.localDecisions →
      c.pendingPersistence = r.consensus.pendingPersistence → c.Windowed := by
    intro c hw hsetup hround hproposals hvotes hrequested hdecisions hpending
    have hkeep : c.roundIsCacheable = r.consensus.roundIsCacheable := by
      obtain ⟨-, -, hconfig⟩ := Setup.mk.inj hsetup
      funext round
      unfold roundIsCacheable
      rw [hround, hconfig]
    exact ⟨hkeep ▸ hproposals ▸ hw.proposals, hkeep ▸ hvotes ▸ hw.votes,
      hkeep ▸ hrequested ▸ hw.requested, hkeep ▸ hdecisions ▸ hw.decisions,
      hkeep ▸ hpending ▸ hw.pending⟩
  cases hm with
  | start started bound => exact fun _ => windowed_pruneCaches _
  | startRefused started bound => exact absurd (hi.unstarted started).2 bound
  | nextRound live phase next bound => exact fun _ => windowed_pruneCaches _
  | requestProposal started phase proposer => exact fun _ => (h started).insertRequest
  | takeRequest live requested => exact fun _ => (h live.started).eraseRequest _
  | decideProposal live requested free =>
      intro _
      exact ((h live.started).eraseRequest _).addDecision
        ((h live.started).requested _ requested)
  | prevoteProposal live phase cached => exact fun _ => windowed_castVote (h live.started) _ _
  | prevoteNil live phase => exact fun _ => windowed_castVote (h live.started) _ _
  | precommitNil live phase => exact fun _ => windowed_castVote (h live.started) _ _
  | learnValid live quorum newer =>
      exact fun _ => hsame (h live.started) rfl rfl rfl rfl rfl rfl rfl
  | @lockAndPrecommit live block _ phase quorum valid =>
      intro _
      have hlock : (r.update (·.setLock block)).consensus.Windowed :=
        hsame (h live.started) rfl rfl rfl rfl rfl rfl rfl
      exact windowed_castVote hlock _ _
  | cacheProposal live validated cacheable fresh =>
      exact fun _ => (h live.started).insertProposal cacheable
  | cacheVote live validated cacheable fresh =>
      exact fun _ => (h live.started).insertVote cacheable
  | publish live pending validated => exact fun _ => (h live.started).erasePending _
  | doubleProposal live validated cached differ => exact h
  | doubleVote live validated cached differ => exact h
  | finalizeVotes live quorum accepted =>
      exact fun _ => hsame (h live.started) rfl rfl rfl rfl rfl rfl rfl
  | finalizeCertificate unfinalized validated =>
      intro hs
      exact hsame (h hs) rfl rfl rfl rfl rfl rfl rfl

theorem windowed_of_moves (hm : ReflTransGen (Micro V) r r')
    (hh : r.History S (fun _ => True) boot [])
    (h : r.consensus.started = true → r.consensus.Windowed) :
    r'.consensus.started = true → r'.consensus.Windowed := by
  induction hm with
  | refl => exact h
  | tail hmoves hm ih => exact hm.windowed (hh.of_moves hmoves fun _ _ => trivial).inv ih

end Running

/-! ## Sessions -/

namespace Session

variable {P : MessageValidator → Consensus → Event → Prop} {s : Session}

theorem Reachable.windowed (hr : Reachable P s) :
    s.consensus.started = true → s.consensus.Windowed := by
  induction hr with
  | new created =>
      rw [Consensus.new_eq_ok created]
      exact nofun
  | restored created =>
      obtain ⟨-, -, -, rfl⟩ := Consensus.newWithSafetyState_eq_ok.1 created
      exact nofun
  | restore before restored ih =>
      obtain ⟨hs, ds, rfl⟩ := Consensus.restoreLocalDecision_eq_ok restored
      exact fun h => absurd (hs.symm.trans h) nofun
  | @step s V e before allowed ih =>
      obtain ⟨S, boot, hi⟩ := before.inv
      show (s.consensus.step e V).2.started = true → (s.consensus.step e V).2.Windowed
      rw [Consensus.step_state]
      exact Running.windowed_of_moves
        (Running.handle_reaches (V := V) (r := ⟨s.consensus, []⟩) (fun h => (hi.unstarted h).1) e)
        (History.begin hi) ih

/-- The configuration of an engine retains at least one round. -/
theorem Reachable.maxCachedRounds_ne_zero (hr : Reachable P s) :
    s.consensus.config.maxCachedRounds ≠ 0 := by
  obtain ⟨localId, fresh, hnew⟩ := hr.created
  simp only [Consensus.new, Except.bind_eq_ok, Except.ensure_eq_ok, exists_const] at hnew
  exact hnew.2.2.2.1

/-- In every session, once the engine is started and whatever it is sent, the rounds of its
proposals, votes, requests, decisions and pending messages are between the retained rounds before
its round and the rounds ahead, a validator of the set has at most one cached vote of a round and
kind, and the number of cached rounds is bounded. And when a round begins, the first or a later one,
the decisions of that round are kept. -/
theorem bounded_caches (hr : s.Reachable fun _ _ _ => True) :
    let c := s.consensus
    let inWindow (round : Round) := c.round.toNat - (c.config.maxCachedRounds - 1) ≤ round.toNat ∧
      round.toNat ≤ c.round.toNat + c.config.maxRoundAhead.toNat
    (c.started = true →
      (∀ round ∈ c.proposals, inWindow round) ∧ (∀ key ∈ c.votes, inWindow key.1) ∧
      (∀ round ∈ c.requestedProposals, inWindow round) ∧
      (∀ key ∈ c.localDecisions, inWindow key.round) ∧
      (∀ key ∈ c.pendingPersistence, inWindow key.round) ∧
      (∀ round kind x v, (c.votesBy round kind)[x]? = some v →
        v.vote.round = round ∧ v.vote.kind = kind ∧ v.vote.validator = x ∧
        x ∈ c.validators.validators) ∧
      (∀ round kind, c.voteCount round kind ≤ c.validators.len) ∧
      c.cachedRoundCount ≤ c.config.maxCachedRounds + c.config.maxRoundAhead.toNat) ∧
    ∀ (round : Round) (key : DecisionKey), key.round = round →
      (c.setRound round).localDecisions[key]? = c.localDecisions[key]? ∧
      (c.setRound round).pendingPersistence[key]? = c.pendingPersistence[key]? := by
  intro c inWindow
  refine ⟨?_, ?_⟩
  · intro hs
    have hw : c.Windowed := hr.windowed hs
    obtain ⟨S, boot, hi⟩ := hr.inv
    refine ⟨fun round h => ?_, fun key h => ?_, fun round h => ?_, fun key h => ?_,
      fun key h => ?_, ?_, Consensus.voteCount_le hi,
      hw.cachedRoundCount_le hr.maxCachedRounds_ne_zero⟩
    · exact Consensus.bounds_of_roundIsCacheable (hw.proposals round h)
    · exact Consensus.bounds_of_roundIsCacheable (hw.votes key h)
    · exact Consensus.bounds_of_roundIsCacheable (hw.requested round h)
    · exact Consensus.bounds_of_roundIsCacheable (hw.decisions key h)
    · exact Consensus.bounds_of_roundIsCacheable (hw.pending key h)
    · intro round kind x v hv
      obtain ⟨hadmissible, hround, hkind, rfl⟩ := hi.votes round kind x v hv
      rw [← hi.setup] at hadmissible
      exact ⟨hround, hkind, rfl, hadmissible.member⟩
  · intro round key hkey
    refine Consensus.pruneCaches_decision (c := { c with round, phase := .propose }) ?_
    rw [hkey]
    exact Consensus.roundIsCacheable_self _

/-- The second of four validators hears votes of the others: one round is cached. -/
theorem bounded_caches_blocked :
    ∃ s : Session, s.consensus.started = true ∧ s.consensus.cachedRoundCount = 1 ∧
      s.consensus.cachedRoundCount ≤
        s.consensus.config.maxCachedRounds + s.consensus.config.maxRoundAhead.toNat := by
  have hr : Sample.blockedSession.Reachable fun _ _ _ => True :=
    blocked_reachable fun _ _ => trivial
  have hs : Sample.blockedSession.consensus.started = true := by decide +kernel
  obtain ⟨-, -, -, -, -, -, -, hcount⟩ := (bounded_caches hr).1 hs
  exact ⟨_, hs, by decide +kernel, hcount⟩

end Session

end KCoin
