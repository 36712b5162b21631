import KCoin.Consensus.Transitions

/-!
# What a step asks its caller to do

The decisions that a step returns are of the height of the engine, and a finalization is the last of
them: no decision follows it (`Consensus.step_emitted`). An engine that has finalized a block returns
no effects any more (`Consensus.Over.step`).
-/

open Relation EStateM

namespace KCoin

/-- What a node feeds to its engine: anything but a certificate. -/
def Event.Plain (e : Event) : Prop := ∀ cert, e ≠ .certificate cert

/-- The decisions are of one height, and after a finalization there is no decision and no other
finalization. -/
structure Emitted (height : Height) (effects : List Effect) : Prop where
  decisions : ∀ m state, .persistBeforeBroadcast m state ∈ effects → m.height = height
  last : effects.Pairwise fun e e' => ∀ f, e = .finalize f →
    (∀ m state, e' ≠ .persistBeforeBroadcast m state) ∧ ∀ f', e' ≠ .finalize f'

namespace Emitted

variable {height : Height} {e : Effect} {effects : List Effect}

theorem nil (height : Height) : Emitted height [] := ⟨nofun, .nil⟩

theorem tail (h : Emitted height (e :: effects)) : Emitted height effects :=
  ⟨fun m state hm => h.decisions m state (List.mem_cons_of_mem _ hm),
    (List.pairwise_cons.1 h.last).2⟩

/-- What follows a finalization is no decision of any height and no other finalization. -/
theorem after_finalize {f : Finalization} (h : Emitted height (.finalize f :: effects)) :
    (∀ height', Emitted height' effects) ∧ ∀ f', .finalize f' ∉ effects := by
  obtain ⟨hhead, htail⟩ := List.pairwise_cons.1 h.last
  refine ⟨fun height' => ⟨fun m state hm => ?_, htail⟩, fun f' hf' => ?_⟩
  · exact absurd rfl ((hhead _ hm f rfl).1 m state)
  · exact absurd rfl ((hhead _ hf' f rfl).2 f')

theorem concat (h : Emitted height effects)
    (hd : ∀ m state, e = .persistBeforeBroadcast m state → m.height = height)
    (hlast : (∃ f, .finalize f ∈ effects) →
      (∀ m state, e ≠ .persistBeforeBroadcast m state) ∧ ∀ f', e ≠ .finalize f') :
    Emitted height (effects ++ [e]) := by
  refine ⟨fun m state hm => ?_, List.pairwise_append.2 ⟨h.last, List.pairwise_singleton _ _, ?_⟩⟩
  · rcases List.mem_append.1 hm with hm | hm
    · exact h.decisions m state hm
    · exact hd m state (List.mem_singleton.1 hm).symm
  · rintro a ha b hb f rfl
    obtain rfl := List.mem_singleton.1 hb
    exact hlast ⟨f, ha⟩

end Emitted

/-! ## Moves -/

namespace Running

open Consensus

variable {V : MessageValidator} {height : Height} {r r' : Running}

/-- What holds of an engine of a height while it handles an event. -/
structure Orderly (height : Height) (r : Running) : Prop where
  height_eq : r.consensus.height = height
  unstarted : r.consensus.started = false → r.consensus.proposals = ∅
  emitted : Emitted height r.effects
  unfinished : r.consensus.finalized = none → ∀ f, .finalize f ∉ r.effects

/-- A change of the state that starts and finalizes nothing. -/
theorem Orderly.update (h : r.Orderly height) {f : Consensus → Consensus}
    (hheight : (f r.consensus).height = r.consensus.height)
    (hfinalized : (f r.consensus).finalized = r.consensus.finalized)
    (hunstarted : (f r.consensus).started = false → (f r.consensus).proposals = ∅) :
    (r.update f).Orderly height :=
  ⟨hheight.trans h.height_eq, hunstarted, h.emitted, fun hf => h.unfinished (hfinalized ▸ hf)⟩

/-- An effect that is neither a decision nor a finalization. -/
theorem Orderly.emit (h : r.Orderly height) {e : Effect}
    (hd : ∀ m state, e ≠ .persistBeforeBroadcast m state) (hf : ∀ f, e ≠ .finalize f) :
    (r.emit e).Orderly height := by
  refine ⟨h.height_eq, h.unstarted, h.emitted.concat (fun m s he => absurd he (hd m s))
    fun _ => ⟨hd, hf⟩, fun hnone f hmem => ?_⟩
  rcases List.mem_append.1 hmem with hmem | hmem
  · exact h.unfinished hnone f hmem
  · exact hf f (List.mem_singleton.1 hmem).symm

theorem Orderly.schedule (h : r.Orderly height) : r.schedule.Orderly height := h.emit nofun nofun

theorem Orderly.decide (h : r.Orderly height) (live : r.consensus.finalized = none)
    {m : SignableMessage} (hm : m.height = r.consensus.height) : (r.decide m).Orderly height := by
  refine ⟨h.height_eq, h.unstarted, h.emitted.concat ?_ ?_, fun hnone f hmem => ?_⟩
  · rintro m' state he
    cases he
    exact hm.trans h.height_eq
  · rintro ⟨f, hf⟩
    exact absurd hf (h.unfinished live f)
  · rcases List.mem_append.1 hmem with hmem | hmem
    · exact h.unfinished live f hmem
    · cases List.mem_singleton.1 hmem

theorem Orderly.castVote (h : r.Orderly height) (live : r.consensus.finalized = none)
    (kind : VoteKind) (value : VoteValue) : (r.castVote kind value).Orderly height := by
  rcases r.castVote_cases kind value with ⟨-, he⟩ | ⟨-, he⟩ <;> rw [he]
  · exact h
  · have hdecide := h.decide live (m := .vote (r.consensus.voteOf kind value)) rfl
    exact (hdecide.update rfl rfl hdecide.unstarted).schedule

theorem Orderly.finalizeWith (h : r.Orderly height) (live : r.consensus.finalized = none)
    (cert : ConsensusCommitCertificate) : (r.finalizeWith cert).Orderly height := by
  refine ⟨h.height_eq, h.unstarted, h.emitted.concat nofun ?_, fun hnone => nomatch hnone⟩
  rintro ⟨f, hf⟩
  exact absurd hf (h.unfinished live f)

theorem Orderly.beginRound (h : r.Orderly height) (started : r.consensus.started = true)
    (round : Round) : (r.beginRound round).Orderly height := by
  refine Orderly.schedule (h.update rfl rfl fun hs => ?_)
  exact absurd (started.symm.trans hs) nofun

theorem Micro.orderly (hm : Micro V r r') (h : r.Orderly height) : r'.Orderly height := by
  cases hm with
  | start started bound =>
      have hstarted : (r.update (·.setStarted)).Orderly height := h.update rfl rfl nofun
      exact hstarted.beginRound rfl _
  | startRefused started bound => exact h.update rfl rfl nofun
  | nextRound live phase next bound => exact h.beginRound live.started _
  | requestProposal started phase proposer =>
      exact Orderly.emit (h.update rfl rfl h.unstarted) nofun nofun
  | takeRequest live requested => exact h.update rfl rfl h.unstarted
  | @decideProposal live round _ requested free =>
      have htake : (r.update (·.eraseRequest round)).Orderly height := h.update rfl rfl h.unstarted
      exact htake.decide live.finalized rfl
  | prevoteProposal live phase cached => exact h.castVote live.finalized _ _
  | prevoteNil live phase => exact h.castVote live.finalized _ _
  | precommitNil live phase => exact h.castVote live.finalized _ _
  | learnValid live quorum newer => exact h.update rfl rfl h.unstarted
  | @lockAndPrecommit live block _ phase quorum valid =>
      have hlock : (r.update (·.setLock block)).Orderly height := h.update rfl rfl h.unstarted
      exact hlock.castVote live.finalized _ _
  | cacheProposal live validated cacheable fresh =>
      exact h.update rfl rfl fun hs => absurd (live.started.symm.trans hs) nofun
  | cacheVote live validated cacheable fresh => exact h.update rfl rfl h.unstarted
  | publish live pending validated =>
      exact Orderly.emit (h.update rfl rfl h.unstarted) nofun nofun
  | doubleProposal live validated cached differ => exact h.emit nofun nofun
  | doubleVote live validated cached differ => exact h.emit nofun nofun
  | finalizeVotes live quorum accepted => exact h.finalizeWith live.finalized _
  | finalizeCertificate unfinalized validated => exact h.finalizeWith unfinalized _

theorem orderly_of_moves (hm : ReflTransGen (Micro V) r r') (h : r.Orderly height) :
    r'.Orderly height := by
  induction hm with
  | refl => exact h
  | tail _ hm ih => exact hm.orderly ih

theorem Micro.started (hm : Micro V r r') (h : r.consensus.started = true) :
    r'.consensus.started = true := by
  cases hm with
  | start => rfl
  | startRefused => rfl
  | prevoteProposal live => exact (Live.castVote live _ _).started
  | prevoteNil live => exact (Live.castVote live _ _).started
  | precommitNil live => exact (Live.castVote live _ _).started
  | @lockAndPrecommit live block =>
      have hlock : (r.update (·.setLock block)).consensus.Live := ⟨live.started, live.finalized⟩
      exact (Live.castVote hlock _ _).started
  | _ => exact h

theorem started_of_moves (hm : ReflTransGen (Micro V) r r') (h : r.consensus.started = true) :
    r'.consensus.started = true := by
  induction hm with
  | refl => exact h
  | tail _ hm ih => exact hm.started ih

/-- An engine that has handled an event is started. -/
theorem started_of_handle {e : Event} (he : e.Plain)
    (hp : r.consensus.started = false → r.consensus.proposals = ∅)
    (h : EngineM.handle V e r = .ok () r') : r'.consensus.started = true := by
  have hmoves := handle_reaches (V := V) hp e
  rw [Reaches, h] at hmoves
  cases hs : r.consensus.started with
  | true => exact started_of_moves hmoves hs
  | false =>
      obtain ⟨r₀, _, hr₀, h⟩ := bind_eq_ok.1 h
      obtain ⟨rfl, rfl⟩ := get_eq_ok.1 hr₀
      cases e with
      | start =>
          obtain ⟨_, _, hensure, h⟩ := bind_eq_ok.1 h
          obtain ⟨-, rfl⟩ := ensure_eq_ok.1 hensure
          obtain ⟨_, _, hmodify, h⟩ := bind_eq_ok.1 h
          obtain rfl := modify_eq_ok.1 hmodify
          -- the first round of an engine evaluates nothing
          obtain ⟨r₁, _, hr₁, h⟩ := bind_eq_ok.1 h
          obtain ⟨rfl, rfl⟩ := get_eq_ok.1 hr₁
          obtain ⟨_, _, hensure, h⟩ := bind_eq_ok.1 h
          obtain ⟨-, rfl⟩ := ensure_eq_ok.1 hensure
          obtain ⟨_, _, hmodify, h⟩ := bind_eq_ok.1 h
          obtain rfl := modify_eq_ok.1 hmodify
          obtain ⟨r₂, _, hr₂, h⟩ := bind_eq_ok.1 h
          obtain ⟨rfl, rfl⟩ := get_eq_ok.1 hr₂
          have hopen := openRound_reaches (V := V)
            (r := (r.update (·.setStarted)).beginRound r.consensus.round) rfl rfl fun hc => by
              have hmem := mem_of_mem_beginRound hc
              rw [show (r.update (·.setStarted)).consensus.proposals = ∅ from hp hs] at hmem
              simp at hmem
          have hrun := congrArg (fun x => x.state.consensus.started) h
          exact started_of_moves hopen rfl |>.symm.trans hrun |>.symm
      | certificate cert => exact absurd rfl (he cert)
      | _ =>
          obtain ⟨_, _, hensure, h⟩ := bind_eq_ok.1 h
          obtain ⟨hstarted, -⟩ := ensure_eq_ok.1 hensure
          rw [hs] at hstarted
          cases hstarted

end Running

namespace Consensus

open Running

variable {V : MessageValidator} {c : Consensus} {e : Event}

/-- The engine has finalized a block and takes no further part. -/
structure Over (c : Consensus) : Prop where
  started : c.started = true
  finalized : c.finalized ≠ none

/-- The engine remains one of its height, and what a step returns is in order. When it finalizes a
block it is over. -/
theorem step_emitted (he : e.Plain) (hp : c.started = false → c.proposals = ∅) :
    (c.step e V).2.height = c.height ∧
    ((c.step e V).2.started = false → (c.step e V).2.proposals = ∅) ∧
    ∀ effects, (c.step e V).1 = .ok effects → Emitted c.height effects ∧
      ((∃ f, .finalize f ∈ effects) → (c.step e V).2.Over) := by
  have hbegin : Running.Orderly c.height ⟨c, []⟩ := ⟨rfl, hp, .nil _, fun _ _ => List.not_mem_nil⟩
  have horderly := orderly_of_moves (handle_reaches (V := V) (r := ⟨c, []⟩) hp e) hbegin
  unfold step
  cases hr : EngineM.handle V e ⟨c, []⟩ with
  | error err r =>
      rw [hr] at horderly
      exact ⟨horderly.height_eq, horderly.unstarted, nofun⟩
  | ok _ r =>
      rw [hr] at horderly
      refine ⟨horderly.height_eq, horderly.unstarted, fun effects heffects => ?_⟩
      obtain rfl := Except.ok.inj heffects
      refine ⟨horderly.emitted, fun ⟨f, hf⟩ => ⟨started_of_handle he hp hr, fun hnone => ?_⟩⟩
      exact horderly.unfinished hnone f hf

/-- An engine that is over does nothing. -/
theorem Over.step (h : c.Over) (he : e.Plain) :
    (c.step e V).2 = c ∧ ∀ effects, (c.step e V).1 = .ok effects → effects = [] := by
  have hlive : ∀ x : EngineM Unit, (do
      ensure (c.started = true) .notStarted
      if c.finalized = none then x else return () : EngineM Unit) ⟨c, []⟩ = .ok () ⟨c, []⟩ := by
    intro x
    rw [ensure_bind h.started, if_neg h.finalized]
    rfl
  have hstep : ∀ err, EngineM.handle V e ⟨c, []⟩ = .ok () ⟨c, []⟩ ∨
      EngineM.handle V e ⟨c, []⟩ = .error err ⟨c, []⟩ →
      (c.step e V).2 = c ∧ ∀ effects, (c.step e V).1 = .ok effects → effects = [] := by
    intro err hr
    unfold Consensus.step
    rcases hr with hr | hr <;> rw [hr]
    · exact ⟨rfl, fun effects heffects => (Except.ok.inj heffects).symm⟩
    · exact ⟨rfl, nofun⟩
  cases e with
  | start =>
      refine hstep .alreadyStarted (.inr (bind_eq_error.2 (.inr ⟨_, _, rfl, ?_⟩)))
      exact bind_eq_error.2 (.inl (ensure_eq_error.2 ⟨by simp [h.started], rfl, rfl⟩))
  | certificate cert => exact absurd rfl (he cert)
  | _ => exact hstep .notStarted (.inl (hlive _))

end Consensus

end KCoin
