import KCoin.Consensus.Emitted
import KCoin.Consensus.Returned

/-!
# Progress and finality

The round and the phase of an engine never go back, nor do the round of its lock and that of its
valid value, and an engine that has finalized a block stays as it is (`step_of_finalized`). The
exception is an engine that finalizes a block by a certificate before it is started: `start` does
not look at what is finalized, and begins the round again (`Consensus.Reopens`).
-/

open Relation EStateM

namespace KCoin

/-- The phases of a round in their order. -/
def Phase.rank : Phase → Nat
  | .propose => 0
  | .prevote => 1
  | .precommit => 2
  | .finalized => 3

theorem Phase.rank_le_finalized (p : Phase) : p.rank ≤ Phase.finalized.rank := by
  cases p <;> decide

namespace Consensus

/-- The pair of round and phase does not go back, and neither does the round of the lock or that of
the valid value. -/
structure Progress (c c' : Consensus) : Prop where
  height : c'.height = c.height
  position : c.round < c'.round ∨ c.round = c'.round ∧ c.phase.rank ≤ c'.phase.rank
  locked : ∀ r ∈ c.lockedRound, ∃ r' ∈ c'.lockedRound, r ≤ r'
  valid : ∀ r ∈ c.validRound, ∃ r' ∈ c'.validRound, r ≤ r'

/-- An engine that has finalized a block is in the last phase, and one that has neither done so nor
been started is in the first. -/
structure Placed (c : Consensus) : Prop where
  last : ∀ f, c.finalized = some f → c.phase = .finalized
  first : c.started = false → c.finalized = none → c.phase = .propose

/-- The event starts an engine that has finalized a block before. -/
def Reopens (c : Consensus) (e : Event) : Prop :=
  e = .start ∧ c.started = false ∧ c.finalized ≠ none

variable {c c' c'' : Consensus} {V : MessageValidator}

theorem Progress.refl (c : Consensus) : c.Progress c :=
  ⟨rfl, .inr ⟨rfl, Nat.le_refl _⟩, fun r hr => ⟨r, hr, UInt32.le_refl r⟩,
    fun r hr => ⟨r, hr, UInt32.le_refl r⟩⟩

theorem Progress.trans (h : c.Progress c') (h' : c'.Progress c'') : c.Progress c'' := by
  refine ⟨h'.height.trans h.height, ?_, ?_, ?_⟩
  · rcases h.position with hlt | ⟨heq, hle⟩ <;> rcases h'.position with hlt' | ⟨heq', hle'⟩
    · exact .inl (UInt32.lt_trans hlt hlt')
    · exact .inl (heq' ▸ hlt)
    · exact .inl (heq ▸ hlt')
    · exact .inr ⟨heq.trans heq', Nat.le_trans hle hle'⟩
  · intro r hr
    obtain ⟨r', hr', hle⟩ := h.locked r hr
    obtain ⟨r'', hr'', hle'⟩ := h'.locked r' hr'
    exact ⟨r'', hr'', UInt32.le_trans hle hle'⟩
  · intro r hr
    obtain ⟨r', hr', hle⟩ := h.valid r hr
    obtain ⟨r'', hr'', hle'⟩ := h'.valid r' hr'
    exact ⟨r'', hr'', UInt32.le_trans hle hle'⟩

/-- The engine stays in its round, with the same lock and valid value. -/
theorem Progress.of_same (hheight : c'.height = c.height) (hround : c'.round = c.round)
    (hphase : c.phase.rank ≤ c'.phase.rank) (hlock : c'.lockedRound = c.lockedRound)
    (hvalid : c'.validRound = c.validRound) : c.Progress c' := by
  refine ⟨hheight, .inr ⟨hround.symm, hphase⟩, ?_, ?_⟩
  · intro r hr
    exact ⟨r, hlock.trans hr, UInt32.le_refl r⟩
  · intro r hr
    exact ⟨r, hvalid.trans hr, UInt32.le_refl r⟩

end Consensus

/-! ## Moves of a started engine -/

namespace Running

open Consensus

variable {V : MessageValidator} {S : Setup} {boot : Option SafetyState} {r r' : Running}

/-- A vote is cast in the phase before its own. -/
theorem progress_castVote {kind : VoteKind} (value : VoteValue)
    (hp : r.consensus.phase.rank ≤ (phaseAfter kind).rank) :
    r.consensus.Progress (r.castVote kind value).consensus := by
  rcases r.castVote_cases kind value with ⟨-, he⟩ | ⟨-, he⟩ <;> rw [he]
  · exact .refl _
  · exact .of_same rfl rfl hp rfl rfl

theorem progress_finalizeWith (cert : ConsensusCommitCertificate) :
    r.consensus.Progress (r.finalizeWith cert).consensus :=
  .of_same rfl rfl (Phase.rank_le_finalized _) rfl rfl

/-- A move of a started engine goes forward. -/
theorem Micro.progress (hm : Micro V r r') (hs : r.consensus.started = true)
    (hi : r.consensus.Inv S (fun _ => True) boot) : r.consensus.Progress r'.consensus := by
  have hsame : ∀ {c : Consensus}, c.height = r.consensus.height → c.round = r.consensus.round →
      c.phase = r.consensus.phase → c.lockedRound = r.consensus.lockedRound →
      c.validRound = r.consensus.validRound → r.consensus.Progress c := by
    intro c hh hr hp hl hv
    exact .of_same hh hr (Nat.le_of_eq (congrArg Phase.rank hp.symm)) hl hv
  cases hm with
  | start started bound => exact absurd (started.symm.trans hs) nofun
  | startRefused started bound => exact absurd (started.symm.trans hs) nofun
  | nextRound live phase next bound =>
      exact ⟨rfl, .inl (Round.lt_succ next), fun l hl => ⟨l, hl, UInt32.le_refl l⟩,
        fun l hl => ⟨l, hl, UInt32.le_refl l⟩⟩
  | requestProposal started phase proposer => exact hsame rfl rfl rfl rfl rfl
  | takeRequest live requested => exact hsame rfl rfl rfl rfl rfl
  | decideProposal live requested free => exact hsame rfl rfl rfl rfl rfl
  | prevoteProposal live phase cached => exact progress_castVote _ (by simp [phase, Phase.rank])
  | prevoteNil live phase => exact progress_castVote _ (by simp [phase, Phase.rank])
  | precommitNil live phase =>
      exact progress_castVote _ (by simp [phase, phaseAfter, Phase.rank])
  | @learnValid live round block proof quorum newer =>
      refine ⟨rfl, .inr ⟨rfl, Nat.le_refl _⟩, fun l hl => ⟨l, hl, UInt32.le_refl l⟩, ?_⟩
      intro known hknown
      exact ⟨round, rfl, UInt32.le_of_lt (newer.2 known hknown)⟩
  | @lockAndPrecommit live block _ phase quorum valid =>
      have hlock : r.consensus.Progress (r.update (·.setLock block)).consensus := by
        refine ⟨rfl, .inr ⟨rfl, Nat.le_refl _⟩, ?_, fun l hl => ⟨l, hl, UInt32.le_refl l⟩⟩
        intro l hl
        exact ⟨r.consensus.round, rfl, hi.sound.lockRound l hl⟩
      refine hlock.trans (progress_castVote (r := r.update (·.setLock block)) _ ?_)
      show r.consensus.phase.rank ≤ _
      simp [phase, phaseAfter, Phase.rank]
  | cacheProposal live validated cacheable fresh => exact hsame rfl rfl rfl rfl rfl
  | cacheVote live validated cacheable fresh => exact hsame rfl rfl rfl rfl rfl
  | publish live pending validated => exact hsame rfl rfl rfl rfl rfl
  | doubleProposal live validated cached differ => exact .refl _
  | doubleVote live validated cached differ => exact .refl _
  | finalizeVotes live quorum accepted => exact progress_finalizeWith _
  | finalizeCertificate unfinalized validated => exact progress_finalizeWith _

theorem castVote_finalized (kind : VoteKind) (value : VoteValue) :
    (r.castVote kind value).consensus.finalized = r.consensus.finalized := by
  rcases r.castVote_cases kind value with ⟨-, he⟩ | ⟨-, he⟩
  · rw [he]
  · rw [he]
    rfl

/-- A move of a started engine that finalizes a block leads to the last phase. -/
theorem Micro.finalized_phase (hm : Micro V r r') (hs : r.consensus.started = true)
    (h : ∀ f, r.consensus.finalized = some f → r.consensus.phase = .finalized) :
    ∀ f, r'.consensus.finalized = some f → r'.consensus.phase = .finalized := by
  -- what happens only while nothing is finalized, and finalizes nothing
  have hlive : ∀ {c : Consensus}, r.consensus.Live → c.finalized = r.consensus.finalized →
      ∀ f, c.finalized = some f → c.phase = .finalized := by
    intro c live heq f hf
    rw [heq, live.finalized] at hf
    cases hf
  cases hm with
  | start started bound => exact absurd (started.symm.trans hs) nofun
  | startRefused started bound => exact absurd (started.symm.trans hs) nofun
  | nextRound live phase next bound => exact hlive live rfl
  | requestProposal started phase proposer => exact h
  | takeRequest live requested => exact hlive live rfl
  | decideProposal live requested free => exact hlive live rfl
  | prevoteProposal live phase cached => exact hlive live (castVote_finalized _ _)
  | prevoteNil live phase => exact hlive live (castVote_finalized _ _)
  | precommitNil live phase => exact hlive live (castVote_finalized _ _)
  | learnValid live quorum newer => exact hlive live rfl
  | lockAndPrecommit live phase quorum valid => exact hlive live (castVote_finalized _ _)
  | cacheProposal live validated cacheable fresh => exact hlive live rfl
  | cacheVote live validated cacheable fresh => exact hlive live rfl
  | publish live pending validated => exact hlive live rfl
  | doubleProposal live validated cached differ => exact h
  | doubleVote live validated cached differ => exact h
  | finalizeVotes live quorum accepted => exact fun _ _ => rfl
  | finalizeCertificate unfinalized validated => exact fun _ _ => rfl

/-- A started engine goes forward through any number of moves. -/
theorem progress_of_moves (hm : ReflTransGen (Micro V) r r') (hs : r.consensus.started = true)
    (hh : r.History S (fun _ => True) boot [])
    (hc : ∀ f, r.consensus.finalized = some f → r.consensus.phase = .finalized) :
    r.consensus.Progress r'.consensus ∧ r'.consensus.Placed := by
  induction hm with
  | refl => exact ⟨.refl _, hc, fun h => absurd (hs.symm.trans h) nofun⟩
  | @tail u v hmoves hm ih =>
      have hstarted : u.consensus.started = true := started_of_moves hmoves hs
      have hinv : u.consensus.Inv S (fun _ => True) boot :=
        (hh.of_moves hmoves fun _ _ => trivial).inv
      refine ⟨ih.1.trans (hm.progress hstarted hinv), hm.finalized_phase hstarted ih.2.last, ?_⟩
      intro h
      exact absurd ((hm.started hstarted).symm.trans h) nofun

/-! ## Engines that are not started -/

/-- The first round of an engine begins with its timer. Nothing is cached yet, so the engine asks for
a proposal at most. -/
theorem handle_start (hs : r.consensus.started = false) (hp : r.consensus.proposals = ∅)
    (hb : r.consensus.round < r.consensus.config.maxRoundsPerHeight) :
    EngineM.handle V .start r = .ok () (if r.consensus.validators.proposer r.consensus.height
        r.consensus.round = r.consensus.localId then
      ((r.update (·.setStarted)).beginRound r.consensus.round).requestProposal
      else (r.update (·.setStarted)).beginRound r.consensus.round) := by
  have hnone : r.consensus.round ∉
      ((r.update (·.setStarted)).beginRound r.consensus.round).consensus.proposals := by
    intro hc
    have hmem := mem_of_mem_beginRound hc
    rw [show (r.update (·.setStarted)).consensus.proposals = ∅ from hp] at hmem
    simp at hmem
  refine get_bind.trans ((ensure_bind hs).trans (modify_bind.trans ?_))
  refine get_bind.trans ((ensure_bind hb).trans (modify_bind.trans (get_bind.trans ?_)))
  rw [if_neg hnone]
  show (if r.consensus.validators.proposer r.consensus.height r.consensus.round =
    r.consensus.localId then modify Running.requestProposal else return () : EngineM Unit) _ = _
  split <;> rfl

/-- The moves that follow the first are those of a started engine. -/
theorem start_moves (hs : r.consensus.started = false) (hp : r.consensus.proposals = ∅)
    (hb : r.consensus.round < r.consensus.config.maxRoundsPerHeight) :
    ReflTransGen (Micro V) ((r.update (·.setStarted)).beginRound r.consensus.round)
      (EngineM.handle V .start r).state := by
  rw [handle_start hs hp hb]
  show ReflTransGen (Micro V) _ (if _ then _ else _)
  split
  · next hproposer => exact .single (.requestProposal rfl rfl hproposer)
  · exact .refl

/-- Before it is started, an engine only takes a certificate. -/
theorem handle_unstarted (hs : r.consensus.started = false) {e : Event} (he : e ≠ .start) :
    (EngineM.handle V e r).state = r ∨ ∃ cert, r.consensus.finalized = none ∧
      r.consensus.validateCertificate V cert = .ok () ∧
      EngineM.handle V e r = .ok () (r.finalizeWith cert) := by
  have hrefused : ∀ x : EngineM Unit, ((do
      ensure (r.consensus.started = true) .notStarted
      if r.consensus.finalized = none then x else return () : EngineM Unit) r).state = r := by
    intro x
    rw [bind_eq_error.2 (.inl (ensure_eq_error.2 ⟨by simp [hs], rfl, rfl⟩))]
    rfl
  cases e with
  | start => exact absurd rfl he
  | certificate cert =>
      cases hv : r.consensus.validateCertificate V cert with
      | error err =>
          left
          have hfail : EngineM.handle V (.certificate cert) r = .error err r :=
            bind_eq_error.2 (.inr ⟨r, r, rfl, bind_eq_error.2 (.inl (lift_eq_error.2 ⟨hv, rfl⟩))⟩)
          rw [hfail]
          rfl
      | ok u =>
          have hrun : EngineM.handle V (.certificate cert) r = EngineM.finalize cert r :=
            get_bind.trans (lift_bind hv)
          rw [hrun]
          cases hf : r.consensus.finalized with
          | none =>
              refine .inr ⟨cert, rfl, hv, get_bind.trans ?_⟩
              rw [hf]
              rfl
          | some f =>
              left
              have hstay : EngineM.finalize cert r = (ensure (f.blockId = cert.blockId)
                  (.conflictingCommit f.blockId cert.blockId) : EngineM Unit) r := by
                refine get_bind.trans ?_
                rw [hf]
              rw [hstay]
              exact readOnly_ensure _ r
  | proposalReady height round block => exact .inl (hrefused _)
  | message m => exact .inl (hrefused _)
  | persisted m => exact .inl (hrefused _)
  | timeout t => exact .inl (hrefused _)

end Running

/-! ## Steps -/

namespace Consensus

open Running

variable {S : Setup} {boot : Option SafetyState} {c : Consensus} {V : MessageValidator} {e : Event}

/-- What a step does when its handling leaves everything as it is. -/
theorem step_of_still (h : EngineM.handle V e ⟨c, []⟩ = .ok () ⟨c, []⟩ ∨
    ∃ err, EngineM.handle V e ⟨c, []⟩ = .error err ⟨c, []⟩) :
    (c.step e V).2 = c ∧ ∀ effects, (c.step e V).1 = .ok effects → effects = [] := by
  unfold step
  rcases h with h | ⟨err, h⟩ <;> rw [h]
  · exact ⟨rfl, fun effects heffects => (Except.ok.inj heffects).symm⟩
  · exact ⟨rfl, nofun⟩

/-- An engine that has finalized a block stays as it is and has no effects, unless it is started
only then. -/
theorem step_of_finalized {f : Finalization} (hf : c.finalized = some f) (hn : ¬c.Reopens e)
    (V : MessageValidator) :
    (c.step e V).2 = c ∧ ∀ effects, (c.step e V).1 = .ok effects → effects = [] := by
  have hlive : ∀ x : EngineM Unit, (do
      ensure (c.started = true) .notStarted
      if c.finalized = none then x else return () : EngineM Unit) ⟨c, []⟩ = .ok () ⟨c, []⟩ ∨
      ∃ err, (do
        ensure (c.started = true) .notStarted
        if c.finalized = none then x else return () : EngineM Unit) ⟨c, []⟩ =
          .error err ⟨c, []⟩ := by
    intro x
    by_cases hs : c.started = true
    · left
      rw [EStateM.ensure_bind hs, if_neg (by simp [hf])]
      rfl
    · exact .inr ⟨_, bind_eq_error.2 (.inl (ensure_eq_error.2 ⟨hs, rfl, rfl⟩))⟩
  cases e with
  | start =>
      have hs : c.started = true := by
        by_contra hs
        exact hn ⟨rfl, by simpa using hs, by simp [hf]⟩
      refine step_of_still (.inr ⟨.alreadyStarted, bind_eq_error.2 (.inr ⟨_, _, rfl, ?_⟩)⟩)
      exact bind_eq_error.2 (.inl (ensure_eq_error.2 ⟨by simp [hs], rfl, rfl⟩))
  | certificate cert =>
      cases hv : c.validateCertificate V cert with
      | error err =>
          exact step_of_still (.inr ⟨err,
            bind_eq_error.2 (.inr ⟨_, _, rfl, bind_eq_error.2 (.inl (lift_eq_error.2 ⟨hv, rfl⟩))⟩)⟩)
      | ok u =>
          have hstay : EngineM.handle V (.certificate cert) ⟨c, []⟩ =
              (ensure (f.blockId = cert.blockId) (.conflictingCommit f.blockId cert.blockId) :
                EngineM Unit) ⟨c, []⟩ := by
            refine get_bind.trans ((lift_bind hv).trans (get_bind.trans ?_))
            simp only [hf]
          refine step_of_still ?_
          rw [hstay]
          by_cases hb : f.blockId = cert.blockId
          · exact .inl (ensure_eq_ok.2 ⟨hb, rfl⟩)
          · exact .inr ⟨_, ensure_eq_error.2 ⟨hb, rfl, rfl⟩⟩
  | proposalReady height round block => exact step_of_still (hlive _)
  | message m => exact step_of_still (hlive _)
  | persisted m => exact step_of_still (hlive _)
  | timeout t => exact step_of_still (hlive _)

/-- A step goes forward, unless it opens a finalized engine again. -/
theorem step_progress (hi : c.Inv S (fun _ => True) boot) (hc : c.Placed) (hn : ¬c.Reopens e)
    (V : MessageValidator) : c.Progress (c.step e V).2 ∧ (c.step e V).2.Placed := by
  cases hf : c.finalized with
  | some f =>
      rw [(step_of_finalized hf hn V).1]
      exact ⟨.refl c, hc⟩
  | none =>
      rw [step_state]
      have hbegin : Running.History S (fun _ => True) boot [] ⟨c, []⟩ := History.begin hi
      cases hs : c.started with
      | true =>
          have hmoves := handle_reaches (V := V) (r := ⟨c, []⟩) (fun h => (hi.unstarted h).1) e
          exact progress_of_moves hmoves hs hbegin hc.last
      | false =>
          obtain ⟨hnone, hbound⟩ := hi.unstarted hs
          by_cases he : e = .start
          · subst he
            have hmoves := start_moves (V := V) (r := ⟨c, []⟩) hs hnone hbound
            have hstart : Running.History S (fun _ => True) boot []
                ((Running.update ⟨c, []⟩ (·.setStarted)).beginRound c.round) :=
              (Micro.start (V := V) (r := ⟨c, []⟩) hs hbound).history (fun _ _ => trivial) hbegin
            obtain ⟨hprogress, hplaced⟩ := progress_of_moves hmoves rfl hstart fun f hfin =>
              nomatch hf.symm.trans hfin
            have hfirst : c.Progress (c.setStarted.setRound c.round) := by
              refine .of_same rfl rfl ?_ rfl rfl
              rw [hc.first hs hf]
              exact Nat.zero_le _
            exact ⟨hfirst.trans hprogress, hplaced⟩
          · rcases handle_unstarted (V := V) (r := ⟨c, []⟩) hs he with hsame | ⟨cert, -, -, hrun⟩
            · rw [hsame]
              exact ⟨.refl c, hc⟩
            · rw [hrun]
              exact ⟨progress_finalizeWith (r := ⟨c, []⟩) cert, fun _ _ => rfl, nofun⟩

/-- Starting an engine that has finalized a block takes it back to the first phase. -/
theorem step_of_reopens (hi : c.Inv S (fun _ => True) boot) (hc : c.Placed) (hr : c.Reopens e)
    (V : MessageValidator) : ¬c.Progress (c.step e V).2 := by
  obtain ⟨rfl, hs, hf⟩ := hr
  obtain ⟨f, hf⟩ := Option.ne_none_iff_exists'.1 hf
  obtain ⟨hnone, hbound⟩ := hi.unstarted hs
  have hback : (c.step .start V).2.round = c.round ∧ (c.step .start V).2.phase = .propose := by
    rw [step_state, handle_start (r := ⟨c, []⟩) hs hnone hbound]
    show (if _ then _ else _ : Running).consensus.round = _ ∧
      (if _ then _ else _ : Running).consensus.phase = _
    split <;> exact ⟨rfl, rfl⟩
  intro h
  rcases h.position with hlt | ⟨-, hle⟩
  · rw [hback.1] at hlt
    exact UInt32.lt_irrefl _ hlt
  · rw [hback.2, hc.last f hf] at hle
    exact absurd hle (by decide)

end Consensus

/-! ## Sessions -/

namespace Session

variable {P : MessageValidator → Consensus → Event → Prop} {s s' : Session}

/-- The sessions that a session goes on to, by steps that meet a condition. -/
inductive Next (P : MessageValidator → Consensus → Event → Prop) (s : Session) : Session → Prop
  | restore {m : SignableMessage} {c : Consensus}
      (restored : s.consensus.restoreLocalDecision m = .ok c) : Next P s ⟨c, s.returned⟩
  | step {V : MessageValidator} {e : Event} (allowed : P V s.consensus e) :
      Next P s (s.step V e)

theorem Reachable.next (hr : Reachable P s) (hn : Next P s s') : Reachable P s' := by
  cases hn with
  | restore restored => exact hr.restore restored
  | step allowed => exact hr.step allowed

theorem Reachable.placed (hr : Reachable (fun _ c e => ¬c.Reopens e) s) : s.consensus.Placed := by
  induction hr with
  | new created =>
      rw [Consensus.new_eq_ok created]
      exact ⟨nofun, fun _ _ => rfl⟩
  | restored created =>
      obtain ⟨-, -, -, rfl⟩ := Consensus.newWithSafetyState_eq_ok.1 created
      exact ⟨nofun, fun _ _ => rfl⟩
  | restore before restored ih =>
      obtain ⟨-, ds, rfl⟩ := Consensus.restoreLocalDecision_eq_ok restored
      exact ⟨ih.last, ih.first⟩
  | @step s V e before allowed ih =>
      obtain ⟨S, boot, hi⟩ := before.inv
      exact (Consensus.step_progress hi ih allowed V).2

/-- A session goes forward, and leaves a finalized engine as it is. -/
theorem Next.progress (hn : Next (fun _ c e => ¬c.Reopens e) s s')
    (hr : Reachable (fun _ c e => ¬c.Reopens e) s) :
    s.consensus.Progress s'.consensus ∧ ∀ f, s.consensus.finalized = some f →
      s'.consensus.finalized = some f ∧ s'.returned = s.returned := by
  cases hn with
  | restore restored =>
      obtain ⟨-, ds, rfl⟩ := Consensus.restoreLocalDecision_eq_ok restored
      exact ⟨.of_same rfl rfl (Nat.le_refl _) rfl rfl, fun f hf => ⟨hf, rfl⟩⟩
  | @step V e allowed =>
      obtain ⟨S, boot, hi⟩ := hr.inv
      refine ⟨(Consensus.step_progress hi hr.placed allowed V).1, ?_⟩
      intro f hf
      obtain ⟨hsame, hnone⟩ := Consensus.step_of_finalized hf allowed V
      refine ⟨(congrArg Consensus.finalized hsame).trans hf, ?_⟩
      show s.returned ++ returnedEffects (s.consensus.step e V).1 = s.returned
      cases hres : (s.consensus.step e V).1 with
      | ok effects => simp [returnedEffects, hnone effects hres]
      | error err => simp [returnedEffects]

/-- In a session in which no event starts an engine that has finalized a block before, whatever else
is fed to it in whatever order, the round and the phase never go back within the height, nor do the
round of the lock and that of the valid value; and once a block is finalized, the finalization and
the last phase stay, and no step returns an effect any more. -/
theorem progress_monotone (hr : s.Reachable fun _ c e => ¬c.Reopens e)
    (hl : ReflTransGen (Next fun _ c e => ¬c.Reopens e) s s') :
    s.consensus.Progress s'.consensus ∧ ∀ f, s.consensus.finalized = some f →
      s'.consensus.finalized = some f ∧ s'.consensus.phase = .finalized ∧
      s'.returned = s.returned := by
  suffices h : s'.Reachable (fun _ c e => ¬c.Reopens e) ∧ s.consensus.Progress s'.consensus ∧
      ∀ f, s.consensus.finalized = some f →
        s'.consensus.finalized = some f ∧ s'.returned = s.returned by
    obtain ⟨hr', hprogress, hfinal⟩ := h
    refine ⟨hprogress, ?_⟩
    intro f hf
    obtain ⟨hf', hreturned⟩ := hfinal f hf
    exact ⟨hf', hr'.placed.last f hf', hreturned⟩
  induction hl with
  | refl => exact ⟨hr, .refl _, fun f hf => ⟨hf, rfl⟩⟩
  | tail _ hn ih =>
      obtain ⟨hr', hprogress, hfinal⟩ := ih
      obtain ⟨hstep, hkeep⟩ := hn.progress hr'
      refine ⟨hr'.next hn, hprogress.trans hstep, ?_⟩
      intro f hf
      obtain ⟨hf', hreturned⟩ := hfinal f hf
      obtain ⟨hf'', hreturned'⟩ := hkeep f hf'
      exact ⟨hf'', hreturned'.trans hreturned⟩

end Session

/-! ## A certificate before the start -/

namespace Sample

/-- The single validator's certificate for a block. -/
def singleCertificate : ConsensusCommitCertificate :=
  ⟨"kcoin-local", 1, 0, block, [⟨⟨"kcoin-local", 1, 0, .precommit, validator, .block block⟩, []⟩]⟩

def singleSession : Session :=
  ⟨.initial validator setup.validators setup.height setup.config, []⟩

end Sample

namespace Session

open Sample

theorem single_created :
    Consensus.new validator setup.validators setup.height setup.config =
      .ok singleSession.consensus := by
  have hok : (Consensus.new validator setup.validators setup.height setup.config).isOk := by
    decide +kernel
  cases hc : Consensus.new validator setup.validators setup.height setup.config with
  | ok c => rw [Consensus.new_eq_ok hc]; rfl
  | error e =>
      rw [hc] at hok
      cases hok

/-- The engine learns a certificate first and is started then: the finalization is there, but the
engine is in its first phase again and asks for a timer. -/
theorem certificate_before_start :
    ∃ s s' : Session, s.Reachable (fun _ _ _ => True) ∧
      ReflTransGen (Next fun _ _ _ => True) s s' ∧ ¬s.consensus.Progress s'.consensus ∧
      s.consensus.finalized ≠ none ∧ s.consensus.phase = .finalized ∧
      s'.consensus.phase ≠ .finalized ∧ s'.returned ≠ s.returned := by
  refine ⟨singleSession.step acceptAll (.certificate singleCertificate),
    (singleSession.step acceptAll (.certificate singleCertificate)).step acceptAll .start,
    (Reachable.new single_created).step trivial, .single (.step trivial), ?_, by decide +kernel,
    by decide +kernel, by decide +kernel, by decide +kernel⟩
  have hback : ∀ c c' : Consensus, c'.round = c.round → c'.phase.rank < c.phase.rank →
      ¬c.Progress c' := by
    intro c c' hround hrank hprogress
    rcases hprogress.position with hlt | ⟨-, hle⟩
    · exact UInt32.lt_irrefl _ (hround ▸ hlt)
    · exact Nat.not_le_of_lt hrank hle
  exact hback _ _ (by decide +kernel) (by decide +kernel)

/-- The other way round the certificate finalizes the block for good. -/
theorem progress_monotone_certificate :
    ∃ s s' : Session, s.consensus.finalized ≠ none ∧
      s'.consensus.finalized = s.consensus.finalized ∧ s'.consensus.phase = .finalized ∧
      s'.returned = s.returned := by
  have hstarted : (singleSession.step acceptAll .start).Reachable
      (fun _ c e => ¬c.Reopens e) := (Reachable.new single_created).step (by
    intro h
    exact h.2.2 rfl)
  have hs := hstarted.step (V := acceptAll) (e := .certificate singleCertificate) nofun
  have hf : ((singleSession.step acceptAll .start).step acceptAll
      (.certificate singleCertificate)).consensus.finalized ≠ none := by decide +kernel
  obtain ⟨f, hf'⟩ := Option.ne_none_iff_exists'.1 hf
  have hl := ReflTransGen.single (Next.step (P := fun _ c e => ¬c.Reopens e)
    (s := (singleSession.step acceptAll .start).step acceptAll (.certificate singleCertificate))
    (V := acceptAll) (e := .certificate singleCertificate) nofun)
  obtain ⟨hfinal, hphase, hreturned⟩ := (progress_monotone hs hl).2 f hf'
  exact ⟨_, _, hf, hfinal.trans hf'.symm, hphase, hreturned⟩

end Session

end KCoin
