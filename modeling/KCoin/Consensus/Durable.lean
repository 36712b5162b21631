import KCoin.Consensus.History

/-!
# The durable lock

A validator runs an engine and stores the decisions it hands out, in the order they come. At any
point it may crash, which loses the engine and what was not stored, and resume from the safety state
stored last. However often it does, it can be restored from every safety state it was ever given,
and it never unlocks a block it precommitted: what it decides later is locked in that round or a
later one.
-/

open Relation

namespace KCoin

/-! ## A validator and its store -/

/-- A validator at one height. -/
structure Host where
  /-- The engine, unless the validator is down. -/
  engine : Option Consensus
  /-- The decisions handed out and not stored yet, in the order they came. -/
  outbox : List Decision
  /-- The stored decisions. -/
  log : List Decision
  /-- What the steps of the engine returned. -/
  returned : List (Except ConsensusError (List Effect))

namespace Host

/-- A validator before it runs for the first time. -/
def fresh : Host := ⟨none, [], [], []⟩

/-- The safety state a validator resumes from: the one stored last, or the one it began with. -/
def resumeState (boot : Option SafetyState) (log : List Decision) : Option SafetyState :=
  (log.getLast?.map (·.2)).or boot

/-- The engine of a validator that comes up. -/
def resume (localId : ValidatorId) (S : Setup) (boot : Option SafetyState) (log : List Decision)
    (V : MessageValidator) : Except ConsensusError Consensus :=
  match resumeState boot log with
  | none => Consensus.new localId S.validators S.height S.config
  | some s => Consensus.newWithSafetyState localId S.validators S.height S.config s V

/-- One step of a validator: it comes up, restores a decision before it starts, handles an event,
stores the next decision, or goes down. The validation is any of those that `Ok` allows. -/
inductive Step (localId : ValidatorId) (S : Setup) (boot : Option SafetyState)
    (Ok : MessageValidator → Prop) (h : Host) : Host → Prop
  | resume {V : MessageValidator} {c : Consensus} (hV : Ok V) (down : h.engine = none)
      (resumed : resume localId S boot h.log V = .ok c) :
      Step localId S boot Ok h { h with engine := some c }
  | restore {c c' : Consensus} {m : SignableMessage} (up : h.engine = some c)
      (restored : c.restoreLocalDecision m = .ok c') :
      Step localId S boot Ok h { h with engine := some c' }
  | handle {V : MessageValidator} {c : Consensus} (hV : Ok V) (up : h.engine = some c)
      (e : Event) :
      Step localId S boot Ok h { h with
        engine := some (c.step e V).2
        outbox := h.outbox ++ handedOut (c.step e V).1
        returned := h.returned ++ [(c.step e V).1] }
  | persist {d : Decision} {rest : List Decision} (next : h.outbox = d :: rest) :
      Step localId S boot Ok h { h with outbox := rest, log := h.log ++ [d] }
  | crash : Step localId S boot Ok h { h with engine := none, outbox := [] }

/-- What holds of a validator between its steps. -/
structure Inv (localId : ValidatorId) (S : Setup) (Auth : SignedVote → Prop)
    (boot : Option SafetyState) (h : Host) : Prop where
  ordered : (h.log ++ h.outbox).Pairwise Decision.Before
  justified : ∀ d ∈ h.log ++ h.outbox, d.Justified S Auth boot
  down : h.engine = none → h.outbox = []
  history : ∀ c, h.engine = some c → History S Auth boot (h.log ++ h.outbox) c
  /-- An engine was created before it returned anything. -/
  created : h.engine.isSome ∨ h.returned ≠ [] →
    ∃ c, Consensus.new localId S.validators S.height S.config = .ok c
  /-- Whatever was handed out, stored or lost, was made by the rules. -/
  handedOut : ∀ r ∈ h.returned, ∀ d ∈ handedOut r, d.Justified S Auth boot
  committed : ∀ effects, .ok effects ∈ h.returned → ∀ f, .finalize f ∈ effects →
    S.Committed Auth f.round f.blockId
  conflict : ∀ a b, .error (.conflictingCommit a b) ∈ h.returned →
    a ≠ b ∧ (∃ r, S.Committed Auth r a) ∧ ∃ r, S.Committed Auth r b

variable {localId : ValidatorId} {S : Setup} {Auth Auth' : SignedVote → Prop}
  {boot : Option SafetyState} {Ok : MessageValidator → Prop} {h h' : Host}

theorem Inv.mono (hi : h.Inv localId S Auth boot) (hA : ∀ v, Auth v → Auth' v) :
    h.Inv localId S Auth' boot :=
  { hi with
    justified := fun d hd => (hi.justified d hd).mono hA
    history := fun c hc => (hi.history c hc).mono hA
    handedOut := fun r hr d hd => (hi.handedOut r hr d hd).mono hA
    committed := fun effects he f hf => (hi.committed effects he f hf).mono hA
    conflict := fun a b he => by
      obtain ⟨hne, ⟨r, hr⟩, r', hr'⟩ := hi.conflict a b he
      exact ⟨hne, ⟨r, hr.mono hA⟩, r', hr'.mono hA⟩ }

theorem inv_fresh : fresh.Inv localId S Auth boot where
  ordered := .nil
  justified _ hd := absurd hd List.not_mem_nil
  down _ := rfl
  history _ hc := absurd hc (Option.some_ne_none _).symm
  created := by simp [fresh]
  handedOut _ hr := absurd hr List.not_mem_nil
  committed _ he := absurd he List.not_mem_nil
  conflict _ _ he := absurd he List.not_mem_nil

/-- An engine that resumes from the decision stored last goes on with the stored decisions. -/
theorem history_resumeFrom {log : List Decision} {last : Decision}
    (hordered : log.Pairwise Decision.Before) (hjustified : ∀ d ∈ log, d.Justified S Auth boot)
    (hlast : log.getLast? = some last)
    (hr : last.2.round.toNat + 1 < S.config.maxRoundsPerHeight.toNat) :
    History S Auth boot log
      ((Consensus.initial localId S.validators S.height S.config).resumeFrom last.2) := by
  have hj := hjustified last (List.mem_of_getLast? hlast)
  refine ⟨Consensus.inv_resumeFrom hj.sound hr hj.backed, hordered, fun d hd => ?_, hjustified⟩
  -- every stored decision is the last one or came before it
  have hle : d.2.Le last.2 := by
    obtain ⟨init, rfl⟩ := List.getLast?_eq_some_iff.1 hlast
    rcases List.mem_append.1 hd with hd | hd
    · exact ((List.pairwise_append.1 hordered).2.2 d hd last (by simp)).le
    · obtain rfl := List.mem_singleton.1 hd
      exact .refl _
  have hlt : last.2.round < last.2.round + 1 :=
    Round.lt_succ (Nat.lt_trans hr S.config.maxRoundsPerHeight.toNat_lt)
  refine ⟨hle.trans ⟨UInt32.le_of_lt hlt, fun r h => ⟨r, h, .inr ⟨rfl, rfl⟩⟩⟩, fun v hv => .inl ?_⟩
  rw [(hjustified d hd).round v hv]
  exact UInt32.lt_of_le_of_lt hle.round hlt

/-- A validator that resumes goes on with its history. -/
theorem Inv.resume (hi : h.Inv localId S Auth boot) {V : MessageValidator}
    (hV : ∀ v, V.Accepts v → Auth v) (hdown : h.engine = none) {c : Consensus}
    (hc : resume localId S boot h.log V = .ok c) :
    History S Auth boot (h.log ++ h.outbox) c ∧
      ∃ c₀, Consensus.new localId S.validators S.height S.config = .ok c₀ := by
  have hordered := hi.ordered
  have hjustified := hi.justified
  rw [hi.down hdown, List.append_nil] at hordered hjustified ⊢
  unfold Host.resume resumeState at hc
  cases hlast : h.log.getLast? with
  | none =>
      rw [hlast] at hc
      rw [List.getLast?_eq_none_iff.1 hlast]
      cases boot with
      | none =>
          obtain rfl := Consensus.new_eq_ok hc
          exact ⟨History.begin (Consensus.inv_initial ⟨_, hc⟩), _, hc⟩
      | some s =>
          obtain ⟨hr, hnew, hs, rfl⟩ := Consensus.newWithSafetyState_eq_ok.1 hc
          refine ⟨History.begin (Consensus.inv_resumeFrom (hs.mono hV) hr fun r h1 b h2 => ?_), hnew⟩
          exact .inr ⟨s, rfl, h1, h2⟩
  | some last =>
      rw [hlast] at hc
      obtain ⟨hr, hnew, -, rfl⟩ := Consensus.newWithSafetyState_eq_ok.1 hc
      exact ⟨history_resumeFrom hordered hjustified hlast hr, hnew⟩

/-- Every step keeps the invariant. -/
theorem Step.inv (hs : Step localId S boot Ok h h') (hOk : ∀ V, Ok V → ∀ v, V.Accepts v → Auth v)
    (hi : h.Inv localId S Auth boot) : h'.Inv localId S Auth boot := by
  cases hs with
  | resume hV down resumed =>
      obtain ⟨hh, hnew⟩ := hi.resume (hOk _ hV) down resumed
      exact { hi with
        down := nofun
        history := fun _ hc => Option.some.inj hc ▸ hh
        created := fun _ => hnew }
  | restore up restored =>
      obtain ⟨-, ds, rfl⟩ := Consensus.restoreLocalDecision_eq_ok restored
      exact { hi with
        down := nofun
        history := fun _ hc => Option.some.inj hc ▸
          (hi.history _ up).advance ((hi.history _ up).inv.bookkeeping _ _ _)
            (.of_eq rfl ⟨rfl, rfl⟩ id fun _ => id)
        created := fun _ => hi.created (.inl (by rw [up]; rfl)) }
  | handle hV up e =>
      have hh := (hi.history _ up).step (hOk _ hV) e
      rw [List.append_assoc] at hh
      exact {
        ordered := hh.ordered
        justified := hh.justified
        down := nofun
        history := fun _ hc => Option.some.inj hc ▸ hh
        created := fun _ => hi.created (.inl (by rw [up]; rfl))
        handedOut := fun r hr d hd => by
          rcases List.mem_append.1 hr with hr | hr
          · exact hi.handedOut r hr d hd
          · obtain rfl := List.mem_singleton.1 hr
            exact hh.justified d (by simp [hd])
        committed := fun effects he f hf => by
          rcases List.mem_append.1 he with he | he
          · exact hi.committed effects he f hf
          · exact (hi.history _ up).committed_of_step (hOk _ hV) (List.mem_singleton.1 he).symm hf
        conflict := fun a b he => by
          rcases List.mem_append.1 he with he | he
          · exact hi.conflict a b he
          · exact (hi.history _ up).conflict_of_step (hOk _ hV) (List.mem_singleton.1 he).symm }
  | @persist d rest next =>
      have hent : h.log ++ h.outbox = h.log ++ [d] ++ rest := by rw [next, List.append_cons]
      have hup : h.engine ≠ none := fun hd => by
        rw [hi.down hd] at next
        cases next
      exact {
        ordered := hent ▸ hi.ordered
        justified := hent ▸ hi.justified
        down := fun hd => absurd hd hup
        history := fun c hc => hent ▸ hi.history c hc
        created := fun _ => hi.created (.inl (Option.isSome_iff_ne_none.2 hup))
        handedOut := hi.handedOut
        committed := hi.committed
        conflict := hi.conflict }
  | crash =>
      have hsub : (h.log ++ []).Sublist (h.log ++ h.outbox) := by simp
      exact {
        ordered := hi.ordered.sublist hsub
        justified := fun d hd => hi.justified d (hsub.subset hd)
        down := fun _ => rfl
        history := fun _ hc => absurd hc (Option.some_ne_none _).symm
        created := fun hc => hi.created (.inr (hc.resolve_left (by simp)))
        handedOut := hi.handedOut
        committed := hi.committed
        conflict := hi.conflict }

/-- A stored decision stays. -/
theorem Step.mem_log (hs : Step localId S boot Ok h h') {d : Decision} (hd : d ∈ h.log) :
    d ∈ h'.log := by
  cases hs with
  | persist next => exact List.mem_append_left _ hd
  | resume => exact hd
  | restore => exact hd
  | handle => exact hd
  | crash => exact hd

/-! ## Runs -/

/-- The states of a validator in its runs. -/
def Reachable (localId : ValidatorId) (S : Setup) (boot : Option SafetyState)
    (Ok : MessageValidator → Prop) (h : Host) : Prop :=
  ReflTransGen (Step localId S boot Ok) fresh h

theorem Reachable.inv (hr : Reachable localId S boot Ok h)
    (hOk : ∀ V, Ok V → ∀ v, V.Accepts v → Auth v) : h.Inv localId S Auth boot := by
  induction hr with
  | refl => exact inv_fresh
  | tail _ hs ih => exact hs.inv hOk ih

/-- Whatever a step hands out comes after the stored decisions. -/
theorem Step.later (hs : Step localId S boot Ok h h')
    (hOk : ∀ V, Ok V → ∀ v, V.Accepts v → Auth v) (hi : h.Inv localId S Auth boot) {d : Decision}
    (hd : d ∈ h.log) :
    ∃ new, h'.returned = h.returned ++ new ∧
      ∀ r ∈ new, ∀ e ∈ KCoin.handedOut r, d.Before e := by
  cases hs with
  | handle hV up e =>
      refine ⟨_, rfl, fun r hr d' hd' => ?_⟩
      obtain rfl := List.mem_singleton.1 hr
      have hh := ((hi.history _ up).step (hOk _ hV) e).ordered
      exact (List.pairwise_append.1 hh).2.2 d (List.mem_append_left _ hd) d' hd'
  | resume => exact ⟨[], by simp⟩
  | restore => exact ⟨[], by simp⟩
  | persist => exact ⟨[], by simp⟩
  | crash => exact ⟨[], by simp⟩

/-- Along a run, whatever is handed out comes after the decisions stored before. -/
theorem later_of_run (hr : ReflTransGen (Step localId S boot Ok) h h')
    (hOk : ∀ V, Ok V → ∀ v, V.Accepts v → Auth v) (hi : h.Inv localId S Auth boot) {d : Decision}
    (hd : d ∈ h.log) :
    h'.Inv localId S Auth boot ∧ d ∈ h'.log ∧ ∃ new, h'.returned = h.returned ++ new ∧
      ∀ r ∈ new, ∀ e ∈ KCoin.handedOut r, d.Before e := by
  induction hr with
  | refl => exact ⟨hi, hd, [], by simp⟩
  | tail _ hs ih =>
      obtain ⟨hi', hd', new, hnew, hlater⟩ := ih
      obtain ⟨new', hnew', hlater'⟩ := hs.later hOk hi' hd'
      refine ⟨hs.inv hOk hi', hs.mem_log hd', new ++ new', by rw [hnew', hnew, List.append_assoc], ?_⟩
      intro r hr
      rcases List.mem_append.1 hr with hr | hr
      · exact hlater r hr
      · exact hlater' r hr

/-! ### Runs that are computed -/

/-- A step of a validator. -/
inductive Action
  | resume
  | handle (e : Event)
  | persist
  | crash

/-- The validator after a step, if the step is possible. -/
def act (localId : ValidatorId) (S : Setup) (V : MessageValidator) (h : Host) :
    Action → Option Host
  | .resume =>
    match h.engine, resume localId S none h.log V with
    | none, .ok c => some { h with engine := some c }
    | _, _ => none
  | .handle e => h.engine.map fun c => { h with
      engine := some (c.step e V).2
      outbox := h.outbox ++ KCoin.handedOut (c.step e V).1
      returned := h.returned ++ [(c.step e V).1] }
  | .persist =>
    match h.outbox with
    | d :: rest => some { h with outbox := rest, log := h.log ++ [d] }
    | [] => none
  | .crash => some { h with engine := none, outbox := [] }

theorem step_of_act {V : MessageValidator} (hV : Ok V) {a : Action}
    (ha : h.act localId S V a = some h') : Step localId S none Ok h h' := by
  cases a with
  | resume =>
      simp only [act] at ha
      split at ha
      · next hdown hc =>
          cases ha
          exact .resume hV hdown hc
      · cases ha
  | handle e =>
      obtain ⟨c, hc, rfl⟩ := Option.map_eq_some_iff.1 ha
      exact .handle hV hc e
  | persist =>
      simp only [act] at ha
      split at ha
      · next hnext =>
          cases ha
          exact .persist hnext
      · cases ha
  | crash =>
      cases ha
      exact .crash

/-- The validator after a list of steps, if they are possible. -/
def run (localId : ValidatorId) (S : Setup) (V : MessageValidator) (h : Host)
    (actions : List Action) : Option Host :=
  actions.foldlM (act localId S V) h

theorem steps_of_run {V : MessageValidator} (hV : Ok V) {actions : List Action}
    (hr : h.run localId S V actions = some h') : ReflTransGen (Step localId S none Ok) h h' := by
  induction actions generalizing h with
  | nil =>
      cases hr
      exact .refl
  | cons a rest ih =>
      obtain ⟨h₁, ha, hrest⟩ := Option.bind_eq_some_iff.1 hr
      exact (ih hrest).head (step_of_act hV ha)

/-! ## Restoring and locking -/

/-- An engine is restored from the safety state of every decision made by the rules. -/
theorem restorable {P : SignedVote → Prop} {d : Decision} (hd : d.Justified S P boot)
    (hnew : ∃ c, Consensus.new localId S.validators S.height S.config = .ok c)
    (hr : d.2.round.toNat + 1 < S.config.maxRoundsPerHeight.toNat) {V : MessageValidator}
    (hV : V.Fixed P) :
    Consensus.newWithSafetyState localId S.validators S.height S.config d.2 V =
      .ok ((Consensus.initial localId S.validators S.height S.config).resumeFrom d.2) :=
  Consensus.newWithSafetyState_eq_ok.2 ⟨hr, hnew, hd.sound.mono fun v => (hV v).2, rfl⟩

/-- The lock of a validator is durable. Every safety state `s` that was ever handed out is accepted
when the validator is restored from it, and the engine has the lock, the valid value and the proof
of the engine that handed it out, in the round after it. Once a precommit for a block is stored,
what was handed out after it, and whatever is handed out later in the run, before and after any
crash, is locked in that round on that block or in a later round. -/
theorem durable_lock {P : SignedVote → Prop} (hr : Reachable localId S boot (·.Fixed P) h)
    (hr' : ReflTransGen (Step localId S boot (·.Fixed P)) h h') :
    (∀ effects, .ok effects ∈ h.returned → ∀ m s, .persistBeforeBroadcast m s ∈ effects →
      s.round.toNat + 1 < S.config.maxRoundsPerHeight.toNat → ∀ V : MessageValidator, V.Fixed P →
      ∃ c, Consensus.newWithSafetyState localId S.validators S.height S.config s V = .ok c ∧
        c.round = s.round + 1 ∧ ∀ c₀ : Consensus, c₀.safetyState = s →
          c.locked = c₀.locked ∧ c.validValue = c₀.validValue ∧ c.validProof = c₀.validProof) ∧
    ∀ v b s, (.vote v, s) ∈ h.log → v.kind = .precommit → v.value = .block b →
      (∀ earlier later, h.log ++ h.outbox = earlier ++ (.vote v, s) :: later →
        ∀ d ∈ later, d.2.LockedSince v.round b) ∧
      ∀ new, h'.returned = h.returned ++ new → ∀ effects, .ok effects ∈ new →
        ∀ m s', .persistBeforeBroadcast m s' ∈ effects → s'.LockedSince v.round b := by
  have hOk : ∀ V : MessageValidator, V.Fixed P → ∀ v, V.Accepts v → P v := fun V hV v => (hV v).1
  have hi := hr.inv hOk
  refine ⟨fun effects he m s hm hround V hV => ?_, fun v b s hv hk hb => ?_⟩
  · have hj := hi.handedOut _ he (m, s) (mem_decisions.2 hm)
    have hnew := hi.created (.inr (List.ne_nil_of_mem he))
    refine ⟨_, restorable hj hnew hround hV, rfl, ?_⟩
    rintro c₀ rfl
    exact ⟨rfl, rfl, rfl⟩
  · obtain ⟨hlr, hlb⟩ :=
      (hi.justified _ (List.mem_append_left _ hv)).precommit v b rfl hk hb
    refine ⟨fun earlier later hent d hd => ?_, fun new hnew effects he m s' hm => ?_⟩
    · have hord := hi.ordered
      rw [hent] at hord
      have hbefore := (List.pairwise_cons.1 (List.pairwise_append.1 hord).2.1).1 d hd
      exact hbefore.le.lockedSince hlr hlb
    · obtain ⟨-, -, new', hnew', hlater⟩ := later_of_run hr' hOk hi hv
      obtain rfl := List.append_cancel_left (hnew.symm.trans hnew')
      exact (hlater _ he (m, s') (mem_decisions.2 hm)).le.lockedSince hlr hlb

end Host

namespace Sample

def validator : ValidatorId := ⟨Bytes.fill 32 1⟩

/-- A single validator at the first height. -/
def setup : Setup where
  validators := ⟨[validator], by decide, by decide⟩
  height := 1
  config := .forChain "kcoin-local"

def acceptAll : MessageValidator where
  validateProposal _ := .ok ()
  validateVote _ := .ok ()
  validateCertificate _ := .ok ()

def block : BlockId := ⟨Bytes.fill 32 7⟩

/-- The single validator proposes, prevotes and precommits a block. -/
def precommitRun : List Host.Action :=
  let proposal : Proposal := ⟨"kcoin-local", 1, 0, validator, block, none, []⟩
  let vote (kind : VoteKind) : Vote := ⟨"kcoin-local", 1, 0, kind, validator, .block block⟩
  [.resume, .handle .start, .handle (.proposalReady 1 0 block), .persist,
    .handle (.persisted (.proposal ⟨proposal, []⟩)), .persist,
    .handle (.persisted (.vote ⟨vote .prevote, []⟩)), .persist]

/-- It goes down, comes up in the next round and proposes again. -/
def resumeRun : List Host.Action :=
  [.crash, .resume, .handle .start, .handle (.proposalReady 1 1 block)]

end Sample

namespace Host

open Sample

theorem durable_lock_precommit_crash_propose :
    ∃ h h', Reachable validator setup none (·.Fixed fun _ => True) h ∧
      ReflTransGen (Step validator setup none (·.Fixed fun _ => True)) h h' ∧
      h.returned.length + 2 = h'.returned.length ∧
      ∀ new, h'.returned = h.returned ++ new → ∀ effects, .ok effects ∈ new →
        ∀ m s, .persistBeforeBroadcast m s ∈ effects → s.LockedSince 0 block := by
  have hV : acceptAll.Fixed fun _ => True := fun _ => ⟨fun _ => trivial, fun _ => rfl⟩
  have hrun : ((fresh.run validator setup acceptAll precommitRun).any fun h =>
      (h.log.any fun d => d.1 = .vote ⟨"kcoin-local", 1, 0, .precommit, validator, .block block⟩) &&
      (h.run validator setup acceptAll resumeRun).any fun h' =>
        h.returned.length + 2 = h'.returned.length) = true := by decide +kernel
  obtain ⟨h, hh, hrest⟩ := (Option.any_eq_true _ _).1 hrun
  obtain ⟨hlog, hresume⟩ := Bool.and_eq_true_iff.1 hrest
  obtain ⟨h', hh', hlen⟩ := (Option.any_eq_true _ _).1 hresume
  obtain ⟨⟨m, s⟩, hd, hm⟩ := List.any_eq_true.1 hlog
  obtain rfl := of_decide_eq_true hm
  have hr := steps_of_run hV hh
  have hr' := steps_of_run hV hh'
  refine ⟨h, h', hr, hr', of_decide_eq_true hlen, ?_⟩
  exact ((durable_lock hr hr').2 _ block s hd rfl rfl).2

end Host

end KCoin
