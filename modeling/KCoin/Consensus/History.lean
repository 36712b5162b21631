import KCoin.Consensus.Invariant

/-!
# The decisions of an engine

Every decision an engine hands out is a message with the safety state it was made in. Along a run
the safety states only move forward, no vote is for a slot that was voted before, a precommit for
a block comes with the lock on it, and a prevote for another block than the locked one has a newer
quorum of prevotes to show. A step keeps this for the decisions it returns, also when it fails and
returns none of the decisions it made.
-/

open Relation

namespace KCoin

/-- A message to be signed and stored, with the safety state to store with it. -/
abbrev Decision := SignableMessage × SafetyState

def Effect.decision : Effect → Option Decision
  | .persistBeforeBroadcast m s => some (m, s)
  | _ => none

/-- The decisions among some effects. -/
def decisions (effects : List Effect) : List Decision := effects.filterMap Effect.decision

@[simp] theorem decisions_append (l l' : List Effect) :
    decisions (l ++ l') = decisions l ++ decisions l' := List.filterMap_append

theorem mem_decisions {d : Decision} {effects : List Effect} :
    d ∈ decisions effects ↔ .persistBeforeBroadcast d.1 d.2 ∈ effects := by
  rw [decisions, List.mem_filterMap]
  constructor
  · rintro ⟨e, he, hd⟩
    cases e <;> cases hd
    exact he
  · exact fun he => ⟨_, he, rfl⟩

/-! ## The order of decisions -/

/-- A safety state is not after another: its round is not later, and neither is its lock. -/
structure SafetyState.Le (s t : SafetyState) : Prop where
  round : s.round ≤ t.round
  lock : ∀ r ∈ s.lockedRound, ∃ r' ∈ t.lockedRound, r < r' ∨ r' = r ∧ t.lockedBlock = s.lockedBlock

theorem SafetyState.Le.refl (s : SafetyState) : s.Le s :=
  ⟨UInt32.le_refl _, fun r hr => ⟨r, hr, .inr ⟨rfl, rfl⟩⟩⟩

theorem SafetyState.Le.trans {s t u : SafetyState} (h : s.Le t) (h' : t.Le u) : s.Le u := by
  refine ⟨UInt32.le_trans h.round h'.round, fun r hr => ?_⟩
  obtain ⟨r', hr', hlt | ⟨rfl, hb⟩⟩ := h.lock r hr
  · obtain ⟨r'', hr'', hlt' | ⟨rfl, -⟩⟩ := h'.lock r' hr'
    · exact ⟨r'', hr'', .inl (UInt32.lt_trans hlt hlt')⟩
    · exact ⟨r'', hr'', .inl hlt⟩
  · obtain ⟨r'', hr'', hlt' | ⟨rfl, hb'⟩⟩ := h'.lock r' hr'
    · exact ⟨r'', hr'', .inl hlt'⟩
    · exact ⟨r'', hr'', .inr ⟨rfl, hb'.trans hb⟩⟩

/-- A safety state is locked in a round or a later one, in that round on a given block. -/
def SafetyState.LockedSince (round : Round) (block : BlockId) (s : SafetyState) : Prop :=
  ∃ r ∈ s.lockedRound, round ≤ r ∧ (r = round → s.lockedBlock = some block)

theorem SafetyState.Le.lockedSince {s t : SafetyState} (h : s.Le t) {round : Round}
    {block : BlockId} (hr : s.lockedRound = some round) (hb : s.lockedBlock = some block) :
    t.LockedSince round block := by
  obtain ⟨r, hr', hlt | ⟨rfl, hb'⟩⟩ := h.lock round hr
  · exact ⟨r, hr', UInt32.le_of_lt hlt, fun he => absurd (he ▸ hlt) (UInt32.lt_irrefl _)⟩
  · exact ⟨r, hr', UInt32.le_refl _, fun _ => hb'.trans hb⟩

/-- A vote is for an earlier slot than another. -/
def Vote.Before (v w : Vote) : Prop :=
  v.round < w.round ∨ v.round = w.round ∧ v.kind.index < w.kind.index

theorem Vote.not_before {v w : Vote} (hr : v.round = w.round) (hk : v.kind = w.kind) :
    ¬v.Before w := by
  rintro (h | ⟨-, h⟩)
  · exact UInt32.lt_irrefl _ (hr ▸ h)
  · exact Nat.lt_irrefl _ (hk ▸ h)

/-- An engine in this phase has gone past its vote of a kind. -/
def Phase.hasCast : Phase → VoteKind → Bool
  | .propose, _ => false
  | .prevote, kind => kind = .prevote
  | .precommit, _ => true
  | .finalized, _ => true

namespace Decision

/-- A decision was made before another. -/
structure Before (d e : Decision) : Prop where
  le : d.2.Le e.2
  vote : ∀ v w, d.1 = .vote v → e.1 = .vote w → v.Before w

/-- Two members of an ordered list are the same, or one comes before the other. -/
theorem eq_or_before {l : List Decision} (h : l.Pairwise Before) {d e : Decision} (hd : d ∈ l)
    (he : e ∈ l) : d = e ∨ d.Before e ∨ e.Before d := by
  induction h with
  | nil => exact absurd hd List.not_mem_nil
  | cons hfirst _ ih =>
      rcases List.mem_cons.1 hd with rfl | hdl <;> rcases List.mem_cons.1 he with rfl | hel
      · exact .inl rfl
      · exact .inr (.inl (hfirst e hel))
      · exact .inr (.inr (hfirst d hdl))
      · exact ih hdl hel

/-- An engine has gone past a decision: it cannot vote in its slot any more. -/
structure Past (c : Consensus) (d : Decision) : Prop where
  le : d.2.Le c.safetyState
  vote : ∀ v, d.1 = .vote v → v.round < c.round ∨
    v.round = c.round ∧ c.started = true ∧ c.phase.hasCast v.kind = true

/-- A decision was made by the rules of the protocol. -/
structure Justified (S : Setup) (Auth : SignedVote → Prop) (boot : Option SafetyState)
    (d : Decision) : Prop where
  sound : S.Sound Auth d.2
  backed : ∀ r ∈ d.2.lockedRound, ∀ b ∈ d.2.lockedBlock, S.Backed Auth boot r b
  round : ∀ v, d.1 = .vote v → v.round = d.2.round
  /-- A block is locked before it is precommitted. -/
  precommit : ∀ v b, d.1 = .vote v → v.kind = .precommit → v.value = .block b →
    d.2.lockedRound = some v.round ∧ d.2.lockedBlock = some b
  /-- A locked engine prevotes the locked block, or one with a newer quorum of prevotes. -/
  prevote : ∀ v b, d.1 = .vote v → v.kind = .prevote → v.value = .block b →
    ∀ r ∈ d.2.lockedRound, r < v.round ∧
      (d.2.lockedBlock = some b ∨ ∃ vr, r < vr ∧ vr < v.round ∧ S.Polka Auth vr b)

variable {S : Setup} {Auth Auth' : SignedVote → Prop} {boot : Option SafetyState} {d : Decision}

theorem Justified.mono (h : d.Justified S Auth boot) (hA : ∀ v, Auth v → Auth' v) :
    d.Justified S Auth' boot :=
  { h with
    sound := h.sound.mono hA
    backed := fun r hr b hb => (h.backed r hr b hb).mono hA
    prevote := fun v b hv hk hb r hr => (h.prevote v b hv hk hb r hr).imp id
      (Or.imp id fun ⟨vr, h1, h2, hp⟩ => ⟨vr, h1, h2, hp.mono hA⟩) }

end Decision

/-! ## The history of an engine -/

namespace Consensus

/-- An engine moves on: neither its safety state nor its position in the round goes back. -/
structure Advances (c c' : Consensus) : Prop where
  le : c.safetyState.Le c'.safetyState
  position : c.round < c'.round ∨ c.round = c'.round ∧
    (c.started = true → c'.started = true ∧
      ∀ kind, c.phase.hasCast kind = true → c'.phase.hasCast kind = true)

theorem Advances.past {c c' : Consensus} (h : c.Advances c') {d : Decision} (hd : d.Past c) :
    d.Past c' := by
  refine ⟨hd.le.trans h.le, fun v hv => ?_⟩
  rcases hd.vote v hv with hlt | ⟨heq, hs, hp⟩
  · rcases h.position with hlt' | ⟨heq', -⟩
    · exact .inl (UInt32.lt_trans hlt hlt')
    · exact .inl (heq' ▸ hlt)
  · rcases h.position with hlt' | ⟨heq', hpos⟩
    · exact .inl (heq ▸ hlt')
    · exact .inr ⟨heq.trans heq', (hpos hs).1, (hpos hs).2 _ hp⟩

/-- The round and the lock stay as they are. -/
theorem Advances.of_eq {c c' : Consensus} (hround : c'.round = c.round)
    (hlock : c'.lockedRound = c.lockedRound ∧ c'.lockedBlock = c.lockedBlock)
    (hst : c.started = true → c'.started = true)
    (hp : ∀ kind, c.phase.hasCast kind = true → c'.phase.hasCast kind = true) : c.Advances c' := by
  refine ⟨⟨UInt32.le_of_eq hround.symm, fun r hr => ?_⟩, .inr ⟨hround.symm, fun h => ⟨hst h, hp⟩⟩⟩
  exact ⟨r, hlock.1.trans hr, .inr ⟨rfl, hlock.2⟩⟩

end Consensus

/-- The decisions `entries` of an engine, which is now in state `c`. -/
structure History (S : Setup) (Auth : SignedVote → Prop) (boot : Option SafetyState)
    (entries : List Decision) (c : Consensus) : Prop where
  inv : c.Inv S Auth boot
  ordered : entries.Pairwise Decision.Before
  past : ∀ d ∈ entries, d.Past c
  justified : ∀ d ∈ entries, d.Justified S Auth boot

namespace History

variable {S : Setup} {Auth Auth' : SignedVote → Prop} {boot : Option SafetyState}
  {entries : List Decision} {c c' : Consensus}

theorem mono (h : History S Auth boot entries c) (hA : ∀ v, Auth v → Auth' v) :
    History S Auth' boot entries c :=
  ⟨h.inv.mono hA, h.ordered, h.past, fun d hd => (h.justified d hd).mono hA⟩

/-- An engine begins without decisions. -/
theorem begin (h : c.Inv S Auth boot) : History S Auth boot [] c :=
  ⟨h, .nil, fun _ hd => absurd hd List.not_mem_nil, fun _ hd => absurd hd List.not_mem_nil⟩

/-- Decisions that were lost leave a history. -/
theorem sublist (h : History S Auth boot entries c) {l : List Decision} (hl : l.Sublist entries) :
    History S Auth boot l c :=
  ⟨h.inv, h.ordered.sublist hl, fun d hd => h.past d (hl.subset hd),
    fun d hd => h.justified d (hl.subset hd)⟩

/-- The engine moves on without a decision. -/
theorem advance (h : History S Auth boot entries c) (hc : c'.Inv S Auth boot)
    (ha : c.Advances c') : History S Auth boot entries c' :=
  ⟨hc, h.ordered, fun d hd => ha.past (h.past d hd), h.justified⟩

/-- The engine makes a decision. -/
theorem record (h : History S Auth boot entries c) (hc : c'.Inv S Auth boot)
    (ha : c.Advances c') {d : Decision} (hb : ∀ e ∈ entries, e.Before d) (hp : d.Past c')
    (hj : d.Justified S Auth boot) : History S Auth boot (entries ++ [d]) c' where
  inv := hc
  ordered := by
    refine List.pairwise_append.2 ⟨h.ordered, List.pairwise_singleton _ _, fun e he x hx => ?_⟩
    obtain rfl := List.mem_singleton.1 hx
    exact hb e he
  past e he := by
    rcases List.mem_append.1 he with he | he
    · exact ha.past (h.past e he)
    · obtain rfl := List.mem_singleton.1 he
      exact hp
  justified e he := by
    rcases List.mem_append.1 he with he | he
    · exact h.justified e he
    · obtain rfl := List.mem_singleton.1 he
      exact hj

/-- A proposal is decided. It takes no slot of a vote. -/
theorem decideProposal (h : History S Auth boot entries c) (p : Proposal) :
    History S Auth boot (entries ++ [(.proposal p, c.safetyState)])
      (c.addDecision (.proposal p)) := by
  refine h.record (h.inv.addDecision _)
    (.of_eq rfl ⟨rfl, rfl⟩ id fun _ => id) (fun e he => ?_) ?_ ?_
  · exact ⟨(h.past e he).le, fun _ _ _ => nofun⟩
  · exact ⟨.refl _, fun _ => nofun⟩
  · exact ⟨h.inv.sound, h.inv.backed, fun _ => nofun, fun _ _ => nofun, fun _ _ => nofun⟩

/-- A vote is cast in the current round: a prevote before anything else, a precommit after the
prevote. -/
theorem castVote (h : History S Auth boot entries c) (hs : c.started = true) {kind : VoteKind}
    {value : VoteValue}
    (hphase : kind = .prevote ∧ c.phase = .propose ∨ kind = .precommit ∧ c.phase = .prevote)
    (hprecommit : ∀ b, kind = .precommit → value = .block b →
      c.lockedRound = some c.round ∧ c.lockedBlock = some b)
    (hprevote : ∀ b, kind = .prevote → value = .block b → ∀ r ∈ c.lockedRound, r < c.round ∧
      (c.lockedBlock = some b ∨ ∃ vr, r < vr ∧ vr < c.round ∧ S.Polka Auth vr b)) :
    History S Auth boot (entries ++ [(.vote (c.voteOf kind value), c.safetyState)])
      ((c.addDecision (.vote (c.voteOf kind value))).setPhase (Running.phaseAfter kind)) := by
  refine h.record ((h.inv.addDecision _).setPhase ?_)
    (.of_eq rfl ⟨rfl, rfl⟩ id fun k hk => ?_) (fun e he => ?_) ?_ ?_
  · cases kind <;> exact nofun
  · change c.phase.hasCast k = true at hk
    rcases hphase with ⟨rfl, hp⟩ | ⟨rfl, hp⟩ <;> rw [hp] at hk
    · exact nomatch hk
    · rfl
  · refine ⟨(h.past e he).le, fun v w hv hw => ?_⟩
    cases hw
    refine ((h.past e he).vote v hv).imp id fun ⟨heq, _, hp⟩ => ⟨heq, ?_⟩
    rcases hphase with ⟨rfl, hp'⟩ | ⟨rfl, hp'⟩ <;> rw [hp'] at hp
    · exact nomatch hp
    · rw [of_decide_eq_true hp]
      exact Nat.zero_lt_one
  · refine ⟨.refl _, fun v hv => ?_⟩
    cases hv
    exact .inr ⟨rfl, hs, by cases kind <;> rfl⟩
  · refine ⟨h.inv.sound, h.inv.backed, fun v hv => ?_, fun v b hv hk hb => ?_,
      fun v b hv hk hb => ?_⟩ <;> cases hv
    · rfl
    · exact hprecommit b hk hb
    · exact hprevote b hk hb

/-- A round begins: the first one, or the one after the current. -/
theorem beginRound (h : History S Auth boot entries c) (hs : c.started = true) {round : Round}
    (hround : c.round < round) : History S Auth boot entries (c.setRound round) := by
  refine h.advance (h.inv.setRound hs (fun r hr => ?_) fun r hr => ?_) ⟨?_, .inl hround⟩
  · exact UInt32.lt_of_le_of_lt (h.inv.sound.lockRound r hr) hround
  · obtain ⟨b, hb⟩ := Option.isSome_iff_exists.1
      (h.inv.sound.validPaired.trans (Option.isSome_iff_exists.2 ⟨r, hr⟩))
    exact UInt32.lt_of_le_of_lt (h.inv.sound.valid r hr b hb).1 hround
  · exact ⟨UInt32.le_of_lt hround, fun r hr => ⟨r, hr, .inr ⟨rfl, rfl⟩⟩⟩

theorem start (h : History S Auth boot entries c) (hs : c.started = false) :
    History S Auth boot entries (c.setStarted.setRound c.round) := by
  obtain ⟨hlock, hvalid⟩ := h.inv.resumed hs
  refine h.advance (h.inv.setStarted.setRound rfl hlock hvalid) ⟨.refl _, .inr ⟨rfl, fun he => ?_⟩⟩
  exact absurd (hs.symm.trans he) nofun

end History

/-! ## Moves keep the history -/

namespace Running

open Consensus

variable {S : Setup} {Auth : SignedVote → Prop} {boot : Option SafetyState}
  {entries : List Decision} {V : MessageValidator} {r r' : Running}

/-- The history of an engine with the decisions made since an event came in. -/
abbrev History (S : Setup) (Auth : SignedVote → Prop) (boot : Option SafetyState)
    (entries : List Decision) (r : Running) : Prop :=
  KCoin.History S Auth boot (entries ++ decisions r.effects) r.consensus

/-- An effect that is no decision is pushed. -/
theorem History.emit (h : r.History S Auth boot entries) {e : Effect} (he : e.decision = none) :
    (r.emit e).History S Auth boot entries := by
  have hd : decisions (r.emit e).effects = decisions r.effects := by
    simp [Running.emit, decisions, he]
  rw [History, hd]
  exact h

/-- A decision is made, and the state changed after it. -/
theorem History.record {m : SignableMessage} {f : Consensus → Consensus}
    (h : KCoin.History S Auth boot
      (entries ++ decisions r.effects ++ [(m, r.consensus.safetyState)])
      (f (r.consensus.addDecision m))) : ((r.decide m).update f).History S Auth boot entries := by
  have hd : decisions (r.decide m).effects =
      decisions r.effects ++ [(m, r.consensus.safetyState)] := decisions_append _ _
  rw [List.append_assoc, ← hd] at h
  exact h

/-- A vote is cast, or its slot is taken already. -/
theorem History.castVote (h : r.History S Auth boot entries) (hs : r.consensus.started = true)
    {kind : VoteKind} {value : VoteValue}
    (hphase : kind = .prevote ∧ r.consensus.phase = .propose ∨
      kind = .precommit ∧ r.consensus.phase = .prevote)
    (hprecommit : ∀ b, kind = .precommit → value = .block b →
      r.consensus.lockedRound = some r.consensus.round ∧ r.consensus.lockedBlock = some b)
    (hprevote : ∀ b, kind = .prevote → value = .block b → ∀ l ∈ r.consensus.lockedRound,
      l < r.consensus.round ∧ (r.consensus.lockedBlock = some b ∨
        ∃ vr, l < vr ∧ vr < r.consensus.round ∧ S.Polka Auth vr b)) :
    (r.castVote kind value).History S Auth boot entries := by
  rcases r.castVote_cases kind value with ⟨-, he⟩ | ⟨-, he⟩ <;> rw [he]
  · exact h
  · exact (History.record (KCoin.History.castVote h hs hphase hprecommit hprevote)).emit rfl

/-- The value of the prevote for a proposal respects the lock. -/
theorem prevoteFor_eq_block {c : Consensus} {p : Proposal} {b : BlockId}
    (h : c.prevoteFor p = .block b) :
    p.blockId = b ∧ ∀ l ∈ c.lockedRound,
      c.lockedBlock = some b ∨ ∃ vr ∈ p.validRound, l < vr := by
  unfold prevoteFor at h
  split at h
  · next hl _ =>
      cases h
      exact ⟨rfl, fun l hl' => nomatch hl.symm.trans hl'⟩
  · next hb =>
      split at h
      · next heq =>
          cases h
          exact ⟨rfl, fun _ _ => .inl (heq ▸ hb)⟩
      · split at h
        · next l vr hl hvr =>
            split at h
            · next hlt =>
                cases h
                refine ⟨rfl, fun l' hl' => .inr ⟨vr, hvr, ?_⟩⟩
                exact Option.some.inj (hl.symm.trans hl') ▸ hlt
            · exact nomatch h
        · exact nomatch h
  · exact nomatch h

/-- The prevote for a cached proposal. -/
theorem History.prevoteProposal (h : r.History S Auth boot entries)
    (hs : r.consensus.started = true) (hp : r.consensus.phase = .propose) {p : SignedProposal}
    (hc : r.consensus.proposals[r.consensus.round]? = some p) :
    (r.castVote .prevote (r.consensus.prevoteFor p.proposal)).History S Auth boot entries := by
  refine h.castVote hs (.inl ⟨rfl, hp⟩) (fun _ => nofun) fun b _ hb l hl => ?_
  refine ⟨h.inv.proposing hp l hl, ?_⟩
  obtain ⟨rfl, hlock⟩ := prevoteFor_eq_block hb
  refine (hlock l hl).imp id fun ⟨vr, hvr, hlt⟩ => ?_
  obtain ⟨hround, hpolka⟩ := h.inv.proposals _ p hc vr hvr
  exact ⟨vr, hlt, hround, hpolka⟩

/-- A quorum of the current round is locked and precommitted. -/
theorem History.lockAndPrecommit (h : r.History S Auth boot entries)
    (hs : r.consensus.started = true) (hp : r.consensus.phase = .prevote) {block : BlockId}
    {proof : List SignedVote}
    (hq : r.consensus.quorumVotes r.consensus.round .prevote = some (.block block, proof))
    (hv : ∃ known, r.consensus.validRound = some known ∧ r.consensus.round ≤ known) :
    (r.lockAndPrecommit block).History S Auth boot entries := by
  have hlock : (r.update (·.setLock block)).History S Auth boot entries := by
    refine h.advance (h.inv.setLock hs hp hq hv) ⟨⟨UInt32.le_refl _, fun l hl => ?_⟩,
      .inr ⟨rfl, fun hst => ⟨hst, fun _ => id⟩⟩⟩
    refine ⟨r.consensus.round, rfl, (h.inv.lock_le hq hv l hl).imp id fun ⟨he, hb⟩ => ?_⟩
    exact ⟨he.symm, hb.symm⟩
  refine hlock.castVote hs (.inr ⟨rfl, hp⟩) (fun b _ hb => ?_) fun _ => nofun
  cases hb
  exact ⟨rfl, rfl⟩

/-- Every move keeps the history. -/
theorem Micro.history (hm : Micro V r r') (hV : ∀ v, V.Accepts v → Auth v)
    (h : r.History S Auth boot entries) : r'.History S Auth boot entries := by
  -- a change of the state that stays where it is
  have hupdate : ∀ {f : Consensus → Consensus}, (f r.consensus).Inv S Auth boot →
      (f r.consensus).round = r.consensus.round →
      (f r.consensus).lockedRound = r.consensus.lockedRound ∧
        (f r.consensus).lockedBlock = r.consensus.lockedBlock →
      (r.consensus.started = true → (f r.consensus).started = true) →
      (∀ k, r.consensus.phase.hasCast k = true → (f r.consensus).phase.hasCast k = true) →
      (r.update f).History S Auth boot entries := fun hc hr hl hst hph =>
    KCoin.History.advance h hc (.of_eq hr hl hst hph)
  cases hm with
  | start started bound => exact History.emit (KCoin.History.start h started) rfl
  | startRefused started bound =>
      exact hupdate h.inv.setStarted rfl ⟨rfl, rfl⟩ (fun _ => rfl) fun _ => id
  | nextRound live phase next bound =>
      exact History.emit (KCoin.History.beginRound h live.started (Round.lt_succ next)) rfl
  | requestProposal started phase proposer =>
      refine History.emit ?_ rfl
      exact hupdate (h.inv.bookkeeping _ _ _) rfl ⟨rfl, rfl⟩ id fun _ => id
  | takeRequest live requested =>
      exact hupdate (h.inv.bookkeeping _ _ _) rfl ⟨rfl, rfl⟩ id fun _ => id
  | @decideProposal live round _ requested free =>
      have htake : (r.update (·.eraseRequest round)).History S Auth boot entries :=
        hupdate (h.inv.bookkeeping _ _ _) rfl ⟨rfl, rfl⟩ id fun _ => id
      exact @History.record S Auth boot entries (r.update (·.eraseRequest round)) _ id
        (KCoin.History.decideProposal htake _)
  | prevoteProposal live phase cached => exact h.prevoteProposal live.started phase cached
  | prevoteNil live phase =>
      exact h.castVote live.started (.inl ⟨rfl, phase⟩) (fun _ => nofun) fun _ _ => nofun
  | precommitNil live phase =>
      exact h.castVote live.started (.inr ⟨rfl, phase⟩) (fun _ _ => nofun) fun _ => nofun
  | learnValid live quorum newer =>
      exact hupdate (h.inv.setValid live.started quorum newer.1 newer.2) rfl ⟨rfl, rfl⟩ id
        fun _ => id
  | lockAndPrecommit live phase quorum valid =>
      exact h.lockAndPrecommit live.started phase quorum valid
  | cacheProposal live validated cacheable fresh =>
      exact hupdate (h.inv.insertProposal live.started hV validated) rfl ⟨rfl, rfl⟩ id
        fun _ => id
  | cacheVote live validated cacheable fresh =>
      exact hupdate (h.inv.insertVote hV validated fresh) rfl ⟨rfl, rfl⟩ id fun _ => id
  | publish live pending validated =>
      refine History.emit ?_ rfl
      exact hupdate (h.inv.bookkeeping _ _ _) rfl ⟨rfl, rfl⟩ id fun _ => id
  | doubleProposal live validated cached differ => exact h.emit rfl
  | doubleVote live validated cached differ => exact h.emit rfl
  | finalizeVotes live quorum accepted =>
      refine History.emit ?_ rfl
      exact hupdate (h.inv.setFinalized ⟨_, (h.inv.quorum_of_quorumVotes quorum).1⟩) rfl ⟨rfl, rfl⟩ id fun _ _ => rfl
  | finalizeCertificate unfinalized validated =>
      refine History.emit ?_ rfl
      have hq := quorum_of_validateCertificate validated
      rw [h.inv.setup] at hq
      exact hupdate (h.inv.setFinalized ⟨_, hq.mono hV⟩) rfl ⟨rfl, rfl⟩ id fun _ _ => rfl

theorem History.of_moves (hm : ReflTransGen (Micro V) r r') (hV : ∀ v, V.Accepts v → Auth v)
    (h : r.History S Auth boot entries) : r'.History S Auth boot entries := by
  induction hm with
  | refl => exact h
  | tail _ hm ih => exact hm.history hV ih

/-- What a move pushes to finalize, the engine has finalized. -/
theorem Micro.finalizes (hm : Micro V r r')
    (h : ∀ f, .finalize f ∈ r.effects → r.consensus.finalized = some f) :
    ∀ f, .finalize f ∈ r'.effects → r'.consensus.finalized = some f := by
  have hemit : ∀ {q : Running} {e : Effect}, (∀ f, e ≠ .finalize f) →
      (∀ f, .finalize f ∈ q.effects → q.consensus.finalized = some f) →
      ∀ f, .finalize f ∈ (q.emit e).effects → (q.emit e).consensus.finalized = some f :=
    fun he hr f hf => by
      rcases List.mem_append.1 hf with hf | hf
      · exact hr f hf
      · exact absurd (List.mem_singleton.1 hf).symm (he f)
  have hcast : ∀ {q : Running} (kind : VoteKind) (value : VoteValue),
      (∀ f, .finalize f ∈ q.effects → q.consensus.finalized = some f) →
      ∀ f, .finalize f ∈ (q.castVote kind value).effects →
        (q.castVote kind value).consensus.finalized = some f := fun {q} kind value hq => by
    rcases q.castVote_cases kind value with ⟨-, he⟩ | ⟨-, he⟩ <;> rw [he]
    · exact hq
    · exact hemit (fun _ => nofun) (hemit (q := q) (fun _ => nofun) hq)
  have hfinal : ∀ {cert : ConsensusCommitCertificate}, r.consensus.finalized = none →
      ∀ f, .finalize f ∈ (r.finalizeWith cert).effects →
        (r.finalizeWith cert).consensus.finalized = some f := fun hnone f hf => by
    rcases List.mem_append.1 hf with hf | hf
    · exact nomatch hnone.symm.trans (h f hf)
    · cases List.mem_singleton.1 hf
      rfl
  cases hm with
  | start started bound => exact hemit (fun _ => nofun) h
  | startRefused started bound => exact h
  | nextRound live phase next bound => exact hemit (fun _ => nofun) h
  | requestProposal started phase proposer => exact hemit (fun _ => nofun) h
  | takeRequest live requested => exact h
  | decideProposal live requested free => exact hemit (fun _ => nofun) h
  | prevoteProposal live phase cached => exact hcast _ _ h
  | prevoteNil live phase => exact hcast _ _ h
  | precommitNil live phase => exact hcast _ _ h
  | learnValid live quorum newer => exact h
  | lockAndPrecommit live phase quorum valid => exact hcast _ _ h
  | cacheProposal live validated cacheable fresh => exact h
  | cacheVote live validated cacheable fresh => exact h
  | publish live pending validated => exact hemit (fun _ => nofun) h
  | doubleProposal live validated cached differ => exact hemit (fun _ => nofun) h
  | doubleVote live validated cached differ => exact hemit (fun _ => nofun) h
  | finalizeVotes live quorum accepted => exact hfinal live.finalized
  | finalizeCertificate unfinalized validated => exact hfinal unfinalized

theorem finalizes_of_moves (hm : ReflTransGen (Micro V) r r')
    (h : ∀ f, .finalize f ∈ r.effects → r.consensus.finalized = some f) :
    ∀ f, .finalize f ∈ r'.effects → r'.consensus.finalized = some f := by
  induction hm with
  | refl => exact h
  | tail _ hm ih => exact hm.finalizes ih

end Running

/-! ## A step keeps the history -/

/-- The decisions that a step hands out: those of its effects, and none when it fails. -/
def handedOut : Except ConsensusError (List Effect) → List Decision
  | .ok effects => decisions effects
  | .error _ => []

/-- What a step returns as final is what the engine has finalized. -/
theorem Consensus.finalized_of_step {c : Consensus} {V : MessageValidator} {e : Event}
    (hp : c.started = false → c.proposals = ∅) {effects : List Effect}
    (hs : (c.step e V).1 = .ok effects) {f : Finalization} (hf : .finalize f ∈ effects) :
    (c.step e V).2.finalized = some f := by
  have hfinal := Running.finalizes_of_moves
    (Running.handle_reaches (V := V) (r := ⟨c, []⟩) hp e) fun _ => nofun
  unfold step at hs ⊢
  cases hr : EngineM.handle V e ⟨c, []⟩ with
  | ok _ r =>
      rw [hr] at hfinal hs
      cases hs
      exact hfinal f hf
  | error err r =>
      rw [hr] at hs
      cases hs

namespace History

variable {S : Setup} {Auth : SignedVote → Prop} {boot : Option SafetyState}
  {entries : List Decision} {c : Consensus} {V : MessageValidator}

/-- The engine while it handles an event, whether it will return or fail. -/
theorem handle (h : History S Auth boot entries c) (hV : ∀ v, V.Accepts v → Auth v) (e : Event) :
    (EngineM.handle V e ⟨c, []⟩).state.History S Auth boot entries := by
  have hbegin : Running.History S Auth boot entries ⟨c, []⟩ := by
    unfold Running.History
    rwa [show decisions ([] : List Effect) = [] from rfl, List.append_nil]
  exact hbegin.of_moves (Running.handle_reaches (fun hs => (h.inv.unstarted hs).1) e) hV

/-- A step keeps the history, also when it fails and the decisions it made are lost. -/
theorem step (h : History S Auth boot entries c) (hV : ∀ v, V.Accepts v → Auth v) (e : Event) :
    History S Auth boot (entries ++ handedOut (c.step e V).1) (c.step e V).2 := by
  have hh := h.handle hV e
  unfold Consensus.step
  cases hr : EngineM.handle V e ⟨c, []⟩ with
  | ok _ r =>
      rw [hr] at hh
      exact hh
  | error err r =>
      rw [hr] at hh
      exact hh.sublist (by simp [handedOut])

/-- A step returns only the finalization of blocks that a quorum precommitted. -/
theorem committed_of_step (h : History S Auth boot entries c) (hV : ∀ v, V.Accepts v → Auth v)
    {e : Event} {effects : List Effect} (hs : (c.step e V).1 = .ok effects) {f : Finalization}
    (hf : .finalize f ∈ effects) : S.Committed Auth f.round f.blockId :=
  (h.step hV e).inv.finalized f
    (Consensus.finalized_of_step (fun hn => (h.inv.unstarted hn).1) hs hf)

/-- A step that finds a conflict has found two blocks that a quorum precommitted. -/
theorem conflict_of_step (h : History S Auth boot entries c) (hV : ∀ v, V.Accepts v → Auth v)
    {e : Event} {a b : BlockId} (hs : (c.step e V).1 = .error (.conflictingCommit a b)) :
    a ≠ b ∧ (∃ r, S.Committed Auth r a) ∧ ∃ r, S.Committed Auth r b := by
  have hfail := Running.handle_fails (V := V) (r := ⟨c, []⟩) h.inv.unstarted e
  unfold Consensus.step at hs
  cases hr : EngineM.handle V e ⟨c, []⟩ with
  | ok _ r =>
      rw [hr] at hs
      cases hs
  | error err r =>
      rw [hr] at hs
      cases hs
      rcases hfail _ _ hr with ⟨cert, f, rfl, hcert, hf, hne, heq, rfl⟩ | ⟨hconf, -⟩
      · cases heq
        have hq := Consensus.quorum_of_validateCertificate hcert
        rw [h.inv.setup] at hq
        exact ⟨hne, ⟨f.round, h.inv.finalized f hf⟩, cert.round, _, hq.mono hV⟩
      · cases hconf

end History

end KCoin
