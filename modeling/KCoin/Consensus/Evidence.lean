import KCoin.Consensus.Preflight
import KCoin.Consensus.Caches

/-!
# Whom the engine accuses

An engine that is sent two messages for one slot reports them as evidence against their signer. Both
messages were validated and are of one slot. But the engine compares the signed messages, and a
statement that arrives a second time under another valid signature is reported too
(`Consensus.Resigned`). In a run without such copies every evidence shows two different statements,
so a validator that signs one statement in each slot is not accused (`Session.evidence_genuine`).
-/

open Std Relation EStateM

namespace KCoin

/-! ## Evidence -/

def SignableMessage.chainId : SignableMessage → String
  | .proposal p => p.chainId
  | .vote v => v.chainId

def SignedMessage.signer : SignedMessage → ValidatorId
  | .proposal p => p.proposal.proposer
  | .vote v => v.vote.validator

namespace Evidence

def accused : Evidence → ValidatorId
  | .doubleVote validator _ _ => validator
  | .doubleProposal proposer _ _ => proposer

/-- The message that was cached first. -/
def first : Evidence → SignedMessage
  | .doubleVote _ first _ => .vote first
  | .doubleProposal _ first _ => .proposal first

def second : Evidence → SignedMessage
  | .doubleVote _ _ second => .vote second
  | .doubleProposal _ _ second => .proposal second

end Evidence

/-- A message passes the validation of an engine of the height, with the help of the node. -/
def Setup.Validates (S : Setup) (V : MessageValidator) (m : SignedMessage) : Prop :=
  ∃ c : Consensus, c.setup = S ∧ c.validateMessage V m = .ok ()

/-- Evidence of two different statements in one slot by one validator: the proposer of the round when
they are proposals. Both were validated by one of the nodes in `Q`. -/
structure Evidence.Genuine (S : Setup) (Q : MessageValidator → Prop) (e : Evidence) : Prop where
  first : ∃ V, Q V ∧ S.Validates V e.first
  second : ∃ V, Q V ∧ S.Validates V e.second
  signers : e.first.signer = e.accused ∧ e.second.signer = e.accused
  member : e.accused ∈ S.validators.validators
  proposer : ∀ round, DecisionKey.ofSignable e.first.signable = .proposal round →
    e.accused = S.validators.proposer S.height round
  chainId : e.first.signable.chainId = e.second.signable.chainId
  height : e.first.signable.height = e.second.signable.height
  slot : DecisionKey.ofSignable e.first.signable = DecisionKey.ofSignable e.second.signable
  differ : e.first.signable ≠ e.second.signable

namespace Consensus

variable {c : Consensus} {V : MessageValidator} {e : Event} {m : SignedMessage}

/-- An event brings a message to be accepted: one from the network, or an own one that is stored. -/
def Brings (c : Consensus) (e : Event) (m : SignedMessage) : Prop :=
  e = .message m ∨
    e = .persisted m ∧ c.pendingPersistence[DecisionKey.ofSignable m.signable]? = some m.signable

/-- The event brings the statement that is in the cache already under another signature, and the node
accepts that one too. -/
def Resigned (c : Consensus) (V : MessageValidator) (e : Event) : Prop :=
  c.Live ∧ ∃ m first, c.Brings e m ∧ c.validateMessage V m = .ok () ∧
    c.cached m.signable = some first ∧ first ≠ m ∧ first.signable = m.signable

/-! ## What validation says of a message -/

theorem context_of_validateMessage (h : c.validateMessage V m = .ok ()) :
    m.signable.chainId = c.config.chainId ∧ m.signable.height = c.height ∧
      m.signer ∈ c.validators.validators := by
  cases m with
  | proposal p =>
      simp only [validateMessage, validateProposalStructure, Except.bind_eq_ok,
        Except.ensure_eq_ok, exists_const, validateContext_eq_ok, ValidatorSet.contains,
        decide_eq_true_eq] at h
      obtain ⟨-, _, ⟨⟨hchain, hheight⟩, hmember, -⟩, -⟩ := h
      exact ⟨hchain, hheight, hmember⟩
  | vote v =>
      have hadmissible := admissible_of_validateMessage h
      exact ⟨hadmissible.chainId, hadmissible.height, hadmissible.member⟩

/-- A proposal is signed by the proposer of its round. -/
theorem proposer_of_validateMessage {p : SignedProposal}
    (h : c.validateMessage V (.proposal p) = .ok ()) :
    p.proposal.proposer = c.validators.proposer c.height p.proposal.round := by
  simp only [validateMessage, validateProposalStructure, Except.bind_eq_ok, Except.ensure_eq_ok,
    exists_const, validateContext_eq_ok] at h
  obtain ⟨-, _, ⟨-, -, hproposer, -⟩, -⟩ := h
  exact hproposer

end Consensus

namespace Setup

variable {S : Setup} {V : MessageValidator} {m : SignedMessage}

theorem Validates.context (h : S.Validates V m) :
    m.signable.chainId = S.config.chainId ∧ m.signable.height = S.height ∧
      m.signer ∈ S.validators.validators := by
  obtain ⟨c, rfl, hm⟩ := h
  exact Consensus.context_of_validateMessage hm

theorem Validates.proposer {p : SignedProposal} (h : S.Validates V (.proposal p)) :
    p.proposal.proposer = S.validators.proposer S.height p.proposal.round := by
  obtain ⟨c, rfl, hp⟩ := h
  exact Consensus.proposer_of_validateMessage hp

end Setup

/-! ## Which events find evidence -/

namespace Running

open EngineM Consensus

variable {V : MessageValidator} {r r' : Running} {e : Evidence} {m : SignedMessage}

/-- No evidence was found. -/
def Silent (r r' : Running) : Prop := ∀ e, .evidence e ∈ r'.effects → .evidence e ∈ r.effects

theorem Silent.of_moves (h : ReflTransGen Silent r r') : r.Silent r' := by
  induction h with
  | refl => exact fun _ => id
  | tail _ hm ih => exact fun e he => ih e (hm e he)

/-- An effect that is no evidence is pushed. -/
theorem silent_emit (f : Consensus → Consensus) {x : Effect} (hx : ∀ e, x ≠ .evidence e) :
    r.Silent ((r.update f).emit x) := by
  intro e he
  rcases List.mem_append.1 he with he | he
  · exact he
  · exact absurd (List.mem_singleton.1 he).symm (hx e)

theorem silent_of_evaluated {α : Type} {x : EngineM α} (h : Reaches Evaluated x r) :
    Reaches Silent x r :=
  .single (Evaluated.of_moves h).evidence

theorem enterRound_silent (round : Round) : Reaches Silent (enterRound V round) r := by
  refine Reaches.get_bind (Reaches.ensure_bind fun _ => ?_)
  refine Reaches.modify_bind (.single (silent_emit _ fun _ => nofun)) (Reaches.get_bind ?_)
  split
  · exact silent_of_evaluated activateCurrentRound_evaluated
  · split
    · exact Reaches.modify (.single (silent_emit _ fun _ => nofun))
    · exact .pure _

theorem proposalReady_silent (height : Height) (round : Round) (block : BlockId) :
    Reaches Silent (proposalReady height round block) r := by
  refine Reaches.get_bind (Reaches.ensure_bind fun _ => Reaches.ensure_bind fun _ => ?_)
  refine Reaches.modify_bind (.single fun _ => id) (Reaches.get_bind ?_)
  split
  · exact .of_readOnly (readOnly_ensure _)
  · exact Reaches.modify (.single (silent_emit _ fun _ => nofun))

theorem handleTimeout_silent (t : Timeout) : Reaches Silent (handleTimeout V t) r := by
  have hcast : ∀ (kind : VoteKind) (round : Round), Reaches Silent (do
      modify (·.castVote kind .nil)
      evaluateRound V round) r := by
    intro kind round
    exact Reaches.modify_bind (.single (evaluated_castVote r kind .nil).evidence)
      (silent_of_evaluated (evaluateRound_evaluated round))
  refine Reaches.get_bind ?_
  split
  · split
    · exact hcast _ _
    · exact hcast _ _
    · exact Reaches.ensure_bind fun _ => enterRound_silent _
    · exact .pure _
  · exact .pure _

/-- Only a message that is accepted can bring evidence. -/
theorem handle_silent {x : Event} (hm : ∀ m, x ≠ .message m) (hp : ∀ m, x ≠ .persisted m) :
    Reaches Silent (handle V x) r := by
  have hlive : ∀ {y : EngineM Unit}, Reaches Silent y r → Reaches Silent (do
      ensure (r.consensus.started = true) .notStarted
      if r.consensus.finalized = none then y else return ()) r := by
    intro y hy
    refine Reaches.ensure_bind fun _ => ?_
    split
    · exact hy
    · exact .pure _
  refine Reaches.get_bind ?_
  cases x with
  | start =>
      refine Reaches.ensure_bind fun _ => Reaches.modify_bind (.single fun _ => id) ?_
      exact enterRound_silent _
  | certificate cert =>
      exact Reaches.lift_bind fun _ _ => silent_of_evaluated (finalize_evaluated cert)
  | proposalReady height round block => exact hlive (proposalReady_silent height round block)
  | message m => exact absurd rfl (hm m)
  | persisted m => exact absurd rfl (hp m)
  | timeout t => exact hlive (handleTimeout_silent t)

/-- The evidence that accepting a message brings: the message and the one in its slot. -/
theorem evidence_of_accept (h : acceptValidatedMessage V m r = .ok () r')
    (hnone : .evidence e ∉ r.effects) (he : .evidence e ∈ r'.effects) :
    r.consensus.cached m.signable = some e.first ∧ e.second = m ∧ e.first ≠ m ∧
      e.accused = m.signer := by
  cases hround : r.consensus.roundIsCacheable m.signable.round with
  | false =>
      rw [acceptValidatedMessage_outside hround] at h
      cases h
      exact absurd he hnone
  | true =>
      cases m with
      | proposal p =>
          have h : acceptProposal V p r = .ok () r' := h
          cases hcached : r.consensus.proposals[p.proposal.round]? with
          | some first =>
              rw [acceptProposal_of_cached hround hcached] at h
              cases h
              split at he
              · exact absurd he hnone
              · next hne =>
                  obtain hold | hnew := List.mem_append.1 he
                  · exact absurd hold hnone
                  · cases List.mem_singleton.1 hnew
                    refine ⟨by simp [cached, SignedMessage.signable, hcached, Evidence.first], rfl,
                      ?_, rfl⟩
                    exact fun heq => hne (SignedMessage.proposal.inj heq)
          | none =>
              have hsilent := (acceptProposal_of_free (V := V) hround hcached).evidence
              rw [h] at hsilent
              exact absurd (hsilent e he) hnone
      | vote v =>
          have h : acceptVote V v r = .ok () r' := h
          cases hcached : (r.consensus.votesBy v.vote.round v.vote.kind)[v.vote.validator]? with
          | some first =>
              rw [acceptVote_of_cached hround hcached] at h
              cases h
              split at he
              · exact absurd he hnone
              · next hne =>
                  obtain hold | hnew := List.mem_append.1 he
                  · exact absurd hold hnone
                  · cases List.mem_singleton.1 hnew
                    refine ⟨by simp [cached, SignedMessage.signable, hcached, Evidence.first], rfl,
                      ?_, rfl⟩
                    exact fun heq => hne (SignedMessage.vote.inj heq)
          | none =>
              have hsilent := (acceptVote_of_free (V := V) hround hcached).evidence
              rw [h] at hsilent
              exact absurd (hsilent e he) hnone

end Running

namespace Consensus

open Running

variable {c : Consensus} {V : MessageValidator} {x : Event} {m : SignedMessage}

/-- A step that returns evidence was brought a message for a slot that held another one. -/
theorem step_evidence {effects : List Effect} (h : (c.step x V).1 = .ok effects) {e : Evidence}
    (he : .evidence e ∈ effects) :
    c.Live ∧ c.Brings x e.second ∧ c.validateMessage V e.second = .ok () ∧
      c.cached e.second.signable = some e.first ∧ e.first ≠ e.second ∧
      e.accused = e.second.signer := by
  obtain ⟨r', hr⟩ : ∃ r', EngineM.handle V x ⟨c, []⟩ = .ok () r' ∧ r'.effects = effects := by
    unfold step at h
    cases hr : EngineM.handle V x ⟨c, []⟩ with
    | ok _ r => exact ⟨r, rfl, by rw [hr] at h; exact Except.ok.inj h⟩
    | error err r =>
        rw [hr] at h
        cases h
  obtain ⟨hr, rfl⟩ := hr
  by_cases hsilent : (∀ m, x ≠ .message m) ∧ ∀ m, x ≠ .persisted m
  · have hno := Silent.of_moves (handle_silent (V := V) (r := ⟨c, []⟩) hsilent.1 hsilent.2)
    rw [hr] at hno
    exact absurd (hno e he) List.not_mem_nil
  · obtain ⟨_, _, hget, h⟩ := bind_eq_ok.1 hr
    obtain ⟨rfl, rfl⟩ := get_eq_ok.1 hget
    have hlive : ∀ {y : EngineM Unit}, (do
        ensure (c.started = true) .notStarted
        if c.finalized = none then y else return () : EngineM Unit) ⟨c, []⟩ = .ok () r' →
        c.Live ∧ y ⟨c, []⟩ = .ok () r' := by
      intro y hy
      obtain ⟨_, _, hensure, hy⟩ := bind_eq_ok.1 hy
      obtain ⟨hs, rfl⟩ := ensure_eq_ok.1 hensure
      split at hy
      · next hf => exact ⟨⟨hs, hf⟩, hy⟩
      · obtain ⟨-, rfl⟩ := EStateM.pure_eq_ok.1 hy
        exact absurd he List.not_mem_nil
    cases x with
    | message m =>
        obtain ⟨hl, hreceive⟩ := hlive h
        obtain ⟨_, _, hget, hreceive⟩ := bind_eq_ok.1 hreceive
        obtain ⟨rfl, rfl⟩ := get_eq_ok.1 hget
        obtain ⟨_, _, hlift, haccept⟩ := bind_eq_ok.1 hreceive
        obtain ⟨hvalid, rfl⟩ := lift_eq_ok.1 hlift
        obtain ⟨hcached, rfl, hne, haccused⟩ := evidence_of_accept haccept List.not_mem_nil he
        exact ⟨hl, .inl rfl, hvalid, hcached, hne, haccused⟩
    | persisted m =>
        obtain ⟨hl, hpersisted⟩ := hlive h
        obtain ⟨_, _, hget, hpersisted⟩ := bind_eq_ok.1 hpersisted
        obtain ⟨rfl, rfl⟩ := get_eq_ok.1 hget
        obtain ⟨_, _, hensure, hpersisted⟩ := bind_eq_ok.1 hpersisted
        obtain ⟨hpending, rfl⟩ := ensure_eq_ok.1 hensure
        obtain ⟨_, _, hlift, hpersisted⟩ := bind_eq_ok.1 hpersisted
        obtain ⟨hvalid, rfl⟩ := lift_eq_ok.1 hlift
        obtain ⟨_, _, hmodify, haccept⟩ := bind_eq_ok.1 hpersisted
        obtain rfl := modify_eq_ok.1 hmodify
        have hnone : .evidence e ∉ (Running.publish ⟨c, []⟩ m).effects := by
          simp [Running.publish, Running.emit, Running.update]
        obtain ⟨hcached, rfl, hne, haccused⟩ := evidence_of_accept haccept hnone he
        exact ⟨hl, .inr ⟨rfl, hpending⟩, hvalid, hcached, hne, haccused⟩
    | start => exact absurd (by simp) hsilent
    | certificate cert => exact absurd (by simp) hsilent
    | proposalReady height round block => exact absurd (by simp) hsilent
    | timeout t => exact absurd (by simp) hsilent

/-- A copy of the cached statement under another signature is reported as evidence. -/
theorem step_of_resigned (hw : c.Windowed) (h : c.Resigned V x) :
    ∃ effects e, (c.step x V).1 = .ok effects ∧ .evidence e ∈ effects ∧
      e.first.signable = e.second.signable := by
  obtain ⟨hl, m, first, hbrings, hvalid, hcached, hne, hsame⟩ := h
  -- what is in a slot is in the window
  have haccept : ∀ {r : Running}, r.consensus.Windowed → r.consensus.cached m.signable = some first →
      ∃ e, EngineM.acceptValidatedMessage V m r = .ok () (r.emit (.evidence e)) ∧
        e.first.signable = e.second.signable := by
    intro r hw hcached
    cases m with
    | proposal p =>
        obtain ⟨q, hq, rfl⟩ := Option.map_eq_some_iff.1 hcached
        have hround := hw.proposals _ (ExtTreeMap.mem_iff_isSome_getElem?.2 (by rw [hq]; rfl))
        refine ⟨.doubleProposal p.proposal.proposer q p,
          (acceptProposal_of_cached hround hq).trans ?_, hsame⟩
        rw [if_neg fun heq => hne (congrArg _ heq)]
    | vote v =>
        obtain ⟨w, hv, rfl⟩ := Option.map_eq_some_iff.1 hcached
        have hkey : (v.vote.round, v.vote.kind) ∈ r.consensus.votes := by
          rw [ExtTreeMap.mem_iff_isSome_getElem?]
          unfold votesBy at hv
          cases hk : r.consensus.votes[(v.vote.round, v.vote.kind)]? with
          | some by_validator => rfl
          | none => simp [hk] at hv
        refine ⟨.doubleVote v.vote.validator w v,
          (acceptVote_of_cached (hw.votes _ hkey) hv).trans ?_, hsame⟩
        rw [if_neg fun heq => hne (congrArg _ heq)]
  rcases hbrings with rfl | ⟨rfl, hpending⟩
  · obtain ⟨e, hrun, hbodies⟩ := haccept (r := ⟨c, []⟩) hw hcached
    have hstep : EngineM.handle V (.message m) ⟨c, []⟩ = .ok () (Running.emit ⟨c, []⟩ (.evidence e)) :=
      (handle_message hl V m).trans (get_bind.trans ((lift_bind hvalid).trans hrun))
    refine ⟨[.evidence e], e, ?_, List.mem_singleton_self _, hbodies⟩
    unfold step
    rw [hstep]
    rfl
  · obtain ⟨e, hrun, hbodies⟩ := haccept (r := Running.publish ⟨c, []⟩ m)
      (hw.erasePending _) hcached
    have hstep : EngineM.handle V (.persisted m) ⟨c, []⟩ =
        .ok () ((Running.publish ⟨c, []⟩ m).emit (.evidence e)) := by
      refine get_bind.trans ((ensure_bind hl.started).trans ?_)
      rw [if_pos hl.finalized]
      refine get_bind.trans ((ensure_bind hpending).trans ((lift_bind hvalid).trans ?_))
      exact modify_bind.trans hrun
    refine ⟨[.broadcast m, .evidence e], e, ?_, by simp, hbodies⟩
    unfold step
    rw [hstep]
    rfl

/-! ## What is cached was validated -/

/-- The cached messages are in their slots, and one of the nodes in `Q` validated each of them. -/
structure Vetted (S : Setup) (Q : MessageValidator → Prop) (c : Consensus) : Prop where
  setup : c.setup = S
  proposals : ∀ round p, c.proposals[round]? = some p →
    p.proposal.round = round ∧ ∃ V, Q V ∧ S.Validates V (.proposal p)
  votes : ∀ round kind x v, (c.votesBy round kind)[x]? = some v →
    (v.vote.round = round ∧ v.vote.kind = kind ∧ v.vote.validator = x) ∧
      ∃ V, Q V ∧ S.Validates V (.vote v)

variable {S : Setup} {Q : MessageValidator → Prop} {c' : Consensus}

theorem Vetted.of_same (h : Vetted S Q c) (hs : c'.setup = c.setup)
    (hp : c'.proposals = c.proposals) (hv : c'.votes = c.votes) : Vetted S Q c' := by
  refine ⟨hs.trans h.setup, ?_, ?_⟩
  · rw [hp]
    exact h.proposals
  · unfold votesBy
    rw [hv]
    exact h.votes

theorem Vetted.setRound (h : Vetted S Q c) (round : Round) : Vetted S Q (c.setRound round) := by
  refine ⟨h.setup, ?_, fun r k x v hv => h.votes r k x v (votesBy_setRound hv)⟩
  intro r p hp
  have hp : (c.proposals.filter _)[r]? = some p := hp
  rw [ExtTreeMap.getElem?_filter', Option.filter_eq_some_iff] at hp
  exact h.proposals r p hp.1

theorem Vetted.insertProposal (h : Vetted S Q c) (hQ : Q V) {p : SignedProposal}
    (hp : c.validateMessage V (.proposal p) = .ok ()) : Vetted S Q (c.insertProposal p) := by
  refine ⟨h.setup, ?_, h.votes⟩
  intro r q hq
  have hq : (c.proposals.insert p.proposal.round p)[r]? = some q := hq
  rw [ExtTreeMap.getElem?_insert] at hq
  split at hq
  · next he =>
      cases hq
      exact ⟨Std.compare_eq_iff_eq.1 he, V, hQ, c, h.setup, hp⟩
  · exact h.proposals r q hq

theorem Vetted.insertVote (h : Vetted S Q c) (hQ : Q V) {v : SignedVote}
    (hv : c.validateMessage V (.vote v) = .ok ()) : Vetted S Q (c.insertVote v) := by
  refine ⟨h.setup, h.proposals, ?_⟩
  intro r k x w hw
  rw [votesBy_insertVote] at hw
  split at hw
  · next he =>
      cases hw
      exact ⟨he, V, hQ, c, h.setup, hv⟩
  · exact h.votes r k x w hw

/-- The message in a slot is for that slot and was validated. -/
theorem Vetted.of_cached (h : Vetted S Q c) {m : SignableMessage} {first : SignedMessage}
    (hm : c.cached m = some first) :
    DecisionKey.ofSignable first.signable = DecisionKey.ofSignable m ∧
      (∀ v, m = .vote v → first.signer = v.validator) ∧ ∃ V, Q V ∧ S.Validates V first := by
  cases m with
  | proposal p =>
      obtain ⟨q, hq, rfl⟩ := Option.map_eq_some_iff.1 hm
      obtain ⟨hround, hvalid⟩ := h.proposals _ q hq
      exact ⟨congrArg DecisionKey.proposal hround, nofun, hvalid⟩
  | vote v =>
      obtain ⟨w, hw, rfl⟩ := Option.map_eq_some_iff.1 hm
      obtain ⟨⟨hround, hkind, hsigner⟩, hvalid⟩ := h.votes _ _ _ w hw
      refine ⟨?_, ?_, hvalid⟩
      · show DecisionKey.vote w.vote.round w.vote.kind = .vote v.round v.kind
        rw [hround, hkind]
      · rintro _ ⟨⟩
        exact hsigner

/-- What a step returns as evidence is genuine, unless it was brought a copy under another
signature. -/
theorem Vetted.genuine (h : Vetted S Q c) (hQ : Q V) (hn : ¬c.Resigned V x)
    {effects : List Effect} (hs : (c.step x V).1 = .ok effects) {e : Evidence}
    (he : .evidence e ∈ effects) : e.Genuine S Q := by
  obtain ⟨hl, hbrings, hvalid, hcached, hne, haccused⟩ := step_evidence hs he
  obtain ⟨hslot, hsigner, V', hQ', hfirst⟩ := h.of_cached hcached
  have hsecond : S.Validates V e.second := ⟨c, h.setup, hvalid⟩
  obtain ⟨hchain, hheight, hmember⟩ := hsecond.context
  obtain ⟨hchain', hheight', -⟩ := hfirst.context
  have hproposer : ∀ round, DecisionKey.ofSignable e.first.signable = .proposal round →
      e.accused = S.validators.proposer S.height round ∧ e.first.signer = e.accused := by
    intro round hround
    cases e with
    | doubleVote _ first second => cases hround
    | doubleProposal _ first second =>
        cases hround
        have hround : first.proposal.round = second.proposal.round := DecisionKey.proposal.inj hslot
        have hexpected : second.proposal.proposer =
            S.validators.proposer S.height first.proposal.round := by
          rw [hround]
          exact hsecond.proposer
        rw [haccused]
        exact ⟨hexpected, hfirst.proposer.trans hexpected.symm⟩
  refine ⟨⟨V', hQ', hfirst⟩, ⟨V, hQ, hsecond⟩, ⟨?_, haccused.symm⟩, haccused ▸ hmember,
    fun round hround => (hproposer round hround).1, hchain'.trans hchain.symm,
    hheight'.trans hheight.symm, hslot, ?_⟩
  · cases e with
    | doubleVote _ first second => exact (hsigner _ rfl).trans haccused.symm
    | doubleProposal _ first second => exact (hproposer _ rfl).2
  · intro hsame
    exact hn ⟨hl, e.second, e.first, hbrings, hvalid, hcached, hne, hsame⟩

end Consensus

namespace Running

open Consensus

variable {S : Setup} {Q : MessageValidator → Prop} {V : MessageValidator} {r r' : Running}

theorem vetted_castVote (h : Vetted S Q r.consensus) (kind : VoteKind) (value : VoteValue) :
    Vetted S Q (r.castVote kind value).consensus := by
  rcases r.castVote_cases kind value with ⟨-, he⟩ | ⟨-, he⟩ <;> rw [he]
  · exact h
  · exact h.of_same rfl rfl rfl

/-- Every move of an engine keeps its caches vetted. -/
theorem Micro.vetted (hm : Micro V r r') (hQ : Q V) (h : Vetted S Q r.consensus) :
    Vetted S Q r'.consensus := by
  cases hm with
  | start started bound =>
      have hstarted : Vetted S Q r.consensus.setStarted := h.of_same rfl rfl rfl
      exact hstarted.setRound _
  | startRefused started bound => exact h.of_same rfl rfl rfl
  | nextRound live phase next bound => exact h.setRound _
  | requestProposal started phase proposer => exact h.of_same rfl rfl rfl
  | takeRequest live requested => exact h.of_same rfl rfl rfl
  | decideProposal live requested free => exact h.of_same rfl rfl rfl
  | prevoteProposal live phase cached => exact vetted_castVote h _ _
  | prevoteNil live phase => exact vetted_castVote h _ _
  | precommitNil live phase => exact vetted_castVote h _ _
  | learnValid live quorum newer => exact h.of_same rfl rfl rfl
  | @lockAndPrecommit live block _ phase quorum valid =>
      have hlock : Vetted S Q (r.update (·.setLock block)).consensus := h.of_same rfl rfl rfl
      exact vetted_castVote hlock _ _
  | cacheProposal live validated cacheable fresh => exact h.insertProposal hQ validated
  | cacheVote live validated cacheable fresh => exact h.insertVote hQ validated
  | publish live pending validated => exact h.of_same rfl rfl rfl
  | doubleProposal live validated cached differ => exact h
  | doubleVote live validated cached differ => exact h
  | finalizeVotes live quorum accepted => exact h.of_same rfl rfl rfl
  | finalizeCertificate unfinalized validated => exact h.of_same rfl rfl rfl

theorem vetted_of_moves (hm : ReflTransGen (Micro V) r r') (hQ : Q V)
    (h : Vetted S Q r.consensus) : Vetted S Q r'.consensus := by
  induction hm with
  | refl => exact h
  | tail _ hm ih => exact hm.vetted hQ ih

end Running

/-! ## Sessions -/

namespace Sample

/-- A prevote arrives under one signature and then under another. -/
def resignedVotes : List Event :=
  [.start, .message (.vote (voteBy 0 .prevote .nil)),
    .message (.vote { voteBy 0 .prevote .nil with signature := [1] })]

end Sample

namespace Session

open Sample

variable {P : MessageValidator → Consensus → Event → Prop} {Q : MessageValidator → Prop}
  {s : Session}

theorem Reachable.vetted (hr : Reachable P s) (hP : ∀ V c e, P V c e → Q V) :
    Consensus.Vetted s.consensus.setup Q s.consensus := by
  induction hr with
  | new created =>
      rw [Consensus.new_eq_ok created]
      exact ⟨rfl, fun r p hp => by simp [Consensus.initial] at hp,
        fun r k x v hv => by simp [Consensus.votesBy, Consensus.initial] at hv⟩
  | restored created =>
      obtain ⟨-, -, -, rfl⟩ := Consensus.newWithSafetyState_eq_ok.1 created
      refine ⟨rfl, fun r p hp => ?_, fun r k x v hv => ?_⟩
      · simp [Consensus.initial, Consensus.resumeFrom] at hp
      · simp [Consensus.votesBy, Consensus.initial, Consensus.resumeFrom] at hv
  | restore before restored ih =>
      obtain ⟨-, ds, rfl⟩ := Consensus.restoreLocalDecision_eq_ok restored
      exact ih.of_same rfl rfl rfl
  | @step s V e before allowed ih =>
      obtain ⟨S, boot, hi⟩ := before.inv
      have hstep : Consensus.Vetted s.consensus.setup Q (s.step V e).consensus := by
        show Consensus.Vetted s.consensus.setup Q (s.consensus.step e V).2
        rw [Consensus.step_state]
        exact Running.vetted_of_moves
          (Running.handle_reaches (V := V) (r := ⟨s.consensus, []⟩)
            (fun h => (hi.unstarted h).1) e) (hP _ _ _ allowed) ih
      rw [hstep.setup]
      exact hstep

/-- Let the nodes of a run be among `Q`, and let no event bring a copy of a cached statement under
another signature. Then all evidence that is returned is genuine: two messages that passed
validation, by one validator of the set for one slot, whose statements differ. So a validator whose
accepted messages all state what it signs, and that signs at most one statement for each slot, is
not accused. -/
theorem evidence_genuine (hr : s.Reachable fun V c e => Q V ∧ ¬c.Resigned V e) :
    (∀ e, .evidence e ∈ s.returned → e.Genuine s.consensus.setup Q) ∧
    ∀ (x : ValidatorId) (signs : SignableMessage → Prop),
      (∀ V m, Q V → s.consensus.setup.Validates V m → m.signer = x → signs m.signable) →
      (∀ a b, signs a → signs b → a.chainId = b.chainId → a.height = b.height →
        DecisionKey.ofSignable a = DecisionKey.ofSignable b → a = b) →
      ∀ e, .evidence e ∈ s.returned → e.accused ≠ x := by
  have hgenuine : ∀ e, .evidence e ∈ s.returned → e.Genuine s.consensus.setup Q := by
    induction hr with
    | new created => exact fun e he => absurd he List.not_mem_nil
    | restored created => exact fun e he => absurd he List.not_mem_nil
    | restore before restored ih =>
        obtain ⟨-, ds, rfl⟩ := Consensus.restoreLocalDecision_eq_ok restored
        exact ih
    | @step s V x before allowed ih =>
        have hvetted := before.vetted fun V c e h => h.1
        rw [before.step_setup V x]
        intro e he
        rcases List.mem_append.1 he with he | he
        · exact ih e he
        · cases hs : (s.consensus.step x V).1 with
          | error err =>
              rw [hs] at he
              exact absurd he List.not_mem_nil
          | ok effects =>
              rw [hs] at he
              exact hvetted.genuine allowed.1 allowed.2 hs he
  refine ⟨hgenuine, ?_⟩
  rintro x signs hsigns hone e he rfl
  have h := hgenuine e he
  obtain ⟨V, hQ, hfirst⟩ := h.first
  obtain ⟨V', hQ', hsecond⟩ := h.second
  exact h.differ (hone _ _ (hsigns V _ hQ hfirst h.signers.1) (hsigns V' _ hQ' hsecond h.signers.2)
    h.chainId h.height h.slot)

/-- The second of four validators hears the vote of another twice, under two signatures. -/
theorem resigned_vote_accused :
    ∃ s : Session, s.Reachable (fun V _ _ => V = acceptAll) ∧
      ∃ e, .evidence e ∈ s.returned ∧ ¬e.Genuine s.consensus.setup (· = acceptAll) := by
  have hr : (resignedVotes.foldl (·.step acceptAll) secondSession).Reachable
      fun V _ _ => V = acceptAll := reachable_foldl (fun _ _ => rfl) resignedVotes (.new second_created)
  refine ⟨_, hr, .doubleVote (validatorOf 0) (voteBy 0 .prevote .nil)
    { voteBy 0 .prevote .nil with signature := [1] }, by decide +kernel, ?_⟩
  intro h
  exact h.differ rfl

/-- Two prevotes of one validator for different values are genuine evidence. -/
theorem evidence_genuine_double_vote :
    ∃ s : Session, ∃ e, .evidence e ∈ s.returned ∧ e.accused = validatorOf 0 ∧
      e.Genuine s.consensus.setup (· = acceptAll) := by
  have hfree : ∀ {s : Session} {m : SignedMessage}, s.consensus.cached m.signable = none →
      ¬s.consensus.Resigned acceptAll (.message m) := by
    rintro s m hnone ⟨-, m', first, hbrings, -, hcached, -⟩
    rcases hbrings with heq | ⟨heq, -⟩ <;> cases heq
    exact nomatch hnone.symm.trans hcached
  have hstart : (secondSession.step acceptAll .start).Reachable
      fun V c e => V = acceptAll ∧ ¬c.Resigned V e := by
    refine (Reachable.new second_created).step ⟨rfl, ?_⟩
    rintro ⟨-, m, first, hbrings, -⟩
    rcases hbrings with heq | ⟨heq, -⟩ <;> cases heq
  have hfirst := hstart.step (V := acceptAll)
    (e := .message (.vote (voteBy 0 .prevote .nil))) ⟨rfl, hfree (by decide +kernel)⟩
  have hsecond := hfirst.step (V := acceptAll)
    (e := .message (.vote (voteBy 0 .prevote (.block block)))) ⟨rfl, by
      rintro ⟨-, m, first, hbrings, -, hcached, -, hsame⟩
      rcases hbrings with heq | ⟨heq, -⟩ <;> cases heq
      have hheld : first = .vote (voteBy 0 .prevote .nil) := by
        refine Option.some.inj (hcached.symm.trans ?_)
        decide +kernel
      rw [hheld] at hsame
      exact absurd hsame (by decide)⟩
  refine ⟨_, .doubleVote (validatorOf 0) (voteBy 0 .prevote .nil)
    (voteBy 0 .prevote (.block block)), ?_, rfl, (evidence_genuine hsecond).1 _ ?_⟩ <;>
    decide +kernel

end Session

end KCoin
