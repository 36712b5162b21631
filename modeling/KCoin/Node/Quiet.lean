import KCoin.Node.Start

/-!
# What changes neither the ledger nor the engine

Most of what an actor does concerns its bookkeeping: the pool of transactions, the state of
synchronization, its clocks and what it tells the operators. `Turn.Quiet` lists the steps of this
kind with the condition under which each is taken; none of them changes the store, the ledger or
the engine. A computation of the bookkeeping takes only such steps, and one that only reads, asks
and tells (`Reading`) is a single one.
-/

open Relation EStateM

namespace KCoin

/-- The parts of an actor that do not concern its bookkeeping are the same. -/
structure NodeActor.SameCore (a a' : NodeActor) : Prop where
  config : a'.config = a.config
  chainId : a'.chainId = a.chainId
  ledger : a'.ledger = a.ledger
  store : a'.store = a.store
  network : a'.network = a.network
  validatorIds : a'.validatorIds = a.validatorIds
  standaloneKeys : a'.standaloneKeys = a.standaloneKeys
  localValidatorKey : a'.localValidatorKey = a.localValidatorKey
  consensus : a'.consensus = a.consensus
  proposalBlocks : a'.proposalBlocks = a.proposalBlocks
  recoveryMessages : a'.recoveryMessages = a.recoveryMessages
  recoveryBroadcasts : a'.recoveryBroadcasts = a.recoveryBroadcasts

theorem NodeActor.SameCore.refl (a : NodeActor) : a.SameCore a := by
  constructor <;> rfl

/-- Neither a commit to the store nor a consensus message. -/
def Occurrence.Other : Occurrence → Prop
  | .committed _ | .consensus _ => False
  | _ => True

section
variable [Primitives]

/-- The node takes a transaction into its pool. -/
structure NodeActor.Admits (a : NodeActor) (t : SignedTransaction) : Prop where
  live : a.halted = false ∧ a.syncTarget = none
  fresh : t.id ∉ a.mempoolIds ∧ t.id ∉ a.ledger.appliedTransactions
  valid : ∃ height receipts candidate v, checkedAdd a.ledger.height 1 = some height ∧
    LedgerState.applyTransactions a.mempool height a.ledger = .ok receipts candidate ∧
    candidate.validateTransaction t height = .ok v

/-- A certified block of the node's chain. -/
structure NodeActor.Accepts (a : NodeActor) (record : FinalizedWireRecord) : Prop where
  chain : record.block.header.chainId = a.chainId ∧ record.certificate.chainId = a.chainId
  commitments : record.block.validateCommitments = .ok ()
  certificate : record.certificate.verifyForBlock record.block a.validatorIds = .ok ()

namespace Turn

/-- The turn after questions and messages that say nothing of the ledger or the engine. -/
def said (t : Turn) (asked : Nat) (os : List Occurrence) : Turn :=
  { t with asked, trace := t.trace ++ os }

/-- The turn with another actor. -/
def withActor (t : Turn) (a : NodeActor) : Turn := { t with actor := a }

/-- A step of the bookkeeping. -/
inductive Quiet : Turn → Turn → Prop
  | say (t : Turn) (asked : Nat) (os : List Occurrence) (h : ∀ o ∈ os, o.Other) :
      Quiet t (t.said asked os)
  | meet (t : Turn) (peers : BTreeSet PeerId) : Quiet t (t.withActor { t.actor with peers })
  | clock (t : Turn) (lastBlockAt lastStatusAt : Instant) :
      Quiet t (t.withActor { t.actor with lastBlockAt, lastStatusAt })
  | accept (t : Turn) (tx : SignedTransaction) (h : t.actor.Admits tx) :
      Quiet t (t.withActor { t.actor with
        mempoolIds := t.actor.mempoolIds.insert tx.id
        mempool := t.actor.mempool ++ [tx] })
  | request (t : Turn) (peer : PeerId) (id : OutboundSyncRequestId) (deadline : Instant)
      (h : t.actor.syncTarget.isSome) :
      Quiet t (t.withActor { t.actor with
        syncPeer := some peer
        syncRequestId := some id
        syncRequestDeadline := some deadline })
  | rotate (t : Turn) (peer : Option PeerId) :
      Quiet t (t.withActor { t.actor with
        syncPeer := peer
        syncRequestId := none
        syncRequestDeadline := none })
  | answered (t : Turn) :
      Quiet t (t.withActor { t.actor with syncRequestId := none, syncRequestDeadline := none })
  | fallBehind (t : Turn) (record : FinalizedWireRecord) (hlive : t.actor.halted = false)
      (h : t.actor.Accepts record) (hlt : t.actor.ledger.height < record.block.header.height) :
      Quiet t (t.withActor { t.actor with
        syncTarget := some
          (t.actor.syncTarget.elim record.block.header.height (max · record.block.header.height))
        consensusStarted := false })
  | caughtUp (t : Turn) (h : t.actor.syncTarget.any (· ≤ t.actor.ledger.height)) :
      Quiet t (t.withActor { t.actor with
        syncTarget := none
        syncPeer := none
        syncRequestId := none
        syncRequestDeadline := none })
  | halt (t : Turn) :
      Quiet t (t.withActor { t.actor with
        halted := true
        consensusStarted := false
        syncTarget := none
        syncPeer := none
        syncRequestId := none
        syncRequestDeadline := none })

variable {t t' : Turn}

theorem Quiet.sameCore (h : Quiet t t') : t.actor.SameCore t'.actor := by
  cases h <;> constructor <;> rfl

/-- The messages of the bookkeeping are other ones. -/
theorem Quiet.trace (h : Quiet t t') : ∃ os, (∀ o ∈ os, o.Other) ∧ t'.trace = t.trace ++ os := by
  cases h with
  | say asked os h => exact ⟨os, h, rfl⟩
  | _ => exact ⟨[], by simp, (List.append_nil _).symm⟩

/-- A step of the bookkeeping that does not halt the node. -/
def Calm (t t' : Turn) : Prop := Quiet t t' ∧ t'.actor.halted = t.actor.halted

/-- The local variables of the driver are the same. -/
theorem Quiet.locals (h : Quiet t t') : t'.env = t.env ∧ t'.events = t.events ∧
    t'.current = t.current ∧ t'.effects = t.effects ∧ t'.wires = t.wires := by
  cases h <;> exact ⟨rfl, rfl, rfl, rfl, rfl⟩

end Turn

end

namespace NodeM

variable {α β ε : Type}

/-! ## Reading, asking and telling -/

/-- The computation only reads, asks, and tells what is no consensus message. -/
def Reading (x : NodeM α) : Prop :=
  ∀ t, ∃ asked os, (∀ o ∈ os, Occurrence.Other o) ∧ (x t).state = t.said asked os

section
variable {x : NodeM α} {f : α → NodeM β}

theorem Reading.of_readOnly (h : ReadOnly x) : Reading x := fun t =>
  ⟨t.asked, [], by simp, by rw [h t, Turn.said, List.append_nil]⟩

theorem Reading.ok (h : Reading x) {t u : Turn} {a : α} (hx : x t = .ok a u) :
    ∃ asked os, (∀ o ∈ os, Occurrence.Other o) ∧ u = t.said asked os := by
  have ht := h t
  rwa [hx] at ht

/-- What a computation that only reads leaves of the actor. -/
theorem Reading.actor_eq (h : Reading x) {t u : Turn} {a : α} (hx : x t = .ok a u) :
    u.actor = t.actor := by
  obtain ⟨_, _, -, rfl⟩ := h.ok hx
  rfl

theorem Reading.bind (hx : Reading x) (hf : ∀ a, Reading (f a)) : Reading (x >>= f) := fun t => by
  obtain ⟨asked, os, hos, ht⟩ := hx t
  change ∃ asked os, _ ∧ (EStateM.bind x f t).state = _
  unfold EStateM.bind
  cases h : x t with
  | ok a u =>
      rw [h] at ht
      obtain rfl : u = t.said asked os := ht
      obtain ⟨asked', os', hos', hu⟩ := hf a (t.said asked os)
      refine ⟨asked', os ++ os', fun o ho => (List.mem_append.1 ho).elim (hos o) (hos' o), ?_⟩
      rw [hu, Turn.said, Turn.said, Turn.said, List.append_assoc]
  | error e u =>
      rw [h] at ht
      exact ⟨asked, os, hos, ht⟩

end

theorem readOnly_orFail (g : ε → NodeError) (y : Except ε α) : ReadOnly (orFail g y) := fun _ => by
  cases y <;> rfl

theorem readOnly_actor : ReadOnly actor := fun _ => rfl

theorem reading_pure (a : α) : Reading (pure a) := .of_readOnly fun _ => rfl

theorem reading_throw (e : NodeError) : Reading (throw e : NodeM α) :=
  .of_readOnly (readOnly_throw e)

theorem reading_actor : Reading actor := .of_readOnly readOnly_actor

theorem reading_ensure {c : Prop} [Decidable c] (e : NodeError) : Reading (ensure c e) :=
  .of_readOnly (readOnly_ensure e)

theorem reading_okOr (e : NodeError) (o : Option α) : Reading (okOr e o) :=
  .of_readOnly (readOnly_okOr e o)

theorem reading_orFail (g : ε → NodeError) (y : Except ε α) : Reading (orFail g y) :=
  .of_readOnly (readOnly_orFail g y)

theorem reading_lift (y : Except NodeError α) : Reading (liftM y) :=
  .of_readOnly (readOnly_lift y)

theorem reading_record {o : Occurrence} (h : o.Other) : Reading (record o) := fun t =>
  ⟨t.asked, [o], by simpa using h, rfl⟩

theorem reading_ask (answer : Environment → Nat → α) : Reading (ask answer) := fun t =>
  ⟨t.asked + 1, [], by simp, by
    rw [Turn.said, List.append_nil]
    rfl⟩

theorem reading_readStore (g : Store → Except StorageError α) : Reading (readStore g) :=
  (reading_ask _).bind fun _ => (reading_ensure _).bind fun _ => reading_actor.bind fun _ =>
    reading_orFail _ _

/-- A read of a working database returns what is in the store. -/
theorem readStore_of_ok {g : Store → Except StorageError α} {t : Turn} {a : α}
    (hstorage : t.env.storage t.asked = true) (h : g t.actor.store = .ok a) :
    readStore g t = .ok a { t with asked := t.asked + 1 } := by
  let u : Turn := { t with asked := t.asked + 1 }
  have hask : ask Environment.storage t = .ok true u := congrArg (Result.ok · u) hstorage
  have hrun : readStore g t = orFail .storage (g t.actor.store) u := bind_of_ok hask
  rw [hrun, h]
  rfl

/-- A read fails, or returns what is in the store. -/
theorem readStore_cases (g : Store → Except StorageError α) (t : Turn) :
    (∃ e asked, readStore g t = .error e (t.said asked [])) ∨
      ∃ asked a, g t.actor.store = .ok a ∧ readStore g t = .ok a (t.said asked []) := by
  let u : Turn := { t with asked := t.asked + 1 }
  have hu : u = t.said (t.asked + 1) [] := by
    rw [Turn.said, List.append_nil]
  cases hok : t.env.storage t.asked with
  | false =>
      have hask : ask Environment.storage t = .ok false u := congrArg (Result.ok · u) hok
      exact .inl ⟨_, t.asked + 1, bind_eq_error.2 (.inr ⟨false, u, hask, by rw [hu]; rfl⟩)⟩
  | true =>
      have hask : ask Environment.storage t = .ok true u := congrArg (Result.ok · u) hok
      cases hg : g t.actor.store with
      | error e =>
          have hrun : readStore g t = orFail .storage (g t.actor.store) u := bind_of_ok hask
          rw [hrun, hg]
          exact .inl ⟨.storage e, t.asked + 1, by rw [hu]; rfl⟩
      | ok a => exact .inr ⟨t.asked + 1, a, rfl, hu ▸ readStore_of_ok hok hg⟩

theorem readStore_eq_ok {g : Store → Except StorageError α} {t u : Turn} {a : α}
    (h : readStore g t = .ok a u) : g t.actor.store = .ok a := by
  rcases readStore_cases g t with ⟨e, asked, he⟩ | ⟨asked, b, hb, hu⟩
  · exact nomatch he.symm.trans h
  · cases hu.symm.trans h
    exact hb

theorem reading_send {o : Occurrence} (h : o.Other) : Reading (send o) :=
  reading_actor.bind fun a => by
    split
    · exact reading_record h
    · exact reading_pure _

theorem Reading.within {x : NodeM α} (h : Reading x) (text : String) : Reading (within text x) :=
  fun t => by
    have ht := h t
    unfold NodeM.within
    cases hr : x t <;> rw [hr] at ht <;> exact ht

theorem reading_requestStatus (peer : PeerId) : Reading (requestStatus peer) :=
  (reading_ask _).bind fun _ => (reading_okOr _ _).bind fun _ => reading_record trivial

section
variable [Primitives]

theorem reading_acceptValidatorStatus (signed : SignedValidatorStatus) :
    Reading (acceptValidatorStatus signed) := by
  refine reading_actor.bind fun a => (reading_ensure _).bind fun _ => ?_
  refine (reading_ask _).bind fun time => (reading_ensure _).bind fun _ => ?_
  refine (reading_okOr _ _).bind fun _ => (reading_ensure _).bind fun _ => ?_
  exact (reading_okOr _ _).bind fun _ => (reading_ensure _).bind fun _ => reading_ensure _

theorem reading_publishValidatorStatus : Reading publishValidatorStatus := by
  refine reading_actor.bind fun a => ?_
  split
  · exact reading_pure _
  · refine (reading_ask _).bind fun time => (reading_acceptValidatorStatus _).bind fun _ => ?_
    exact reading_send trivial

theorem reading_finalizedTip (a : NodeActor) : Reading (finalizedTip a) := by
  unfold finalizedTip
  split
  · exact reading_pure _
  · refine (reading_readStore _).bind fun row => (reading_okOr _ _).bind fun row => ?_
    exact (reading_lift _).bind fun record => (reading_okOr _ _).bind fun _ => reading_pure _

theorem reading_respondToSync (token : UInt64) (request : SyncRequest) :
    Reading (respondToSync token request) := by
  refine reading_actor.bind fun a => (reading_ensure _).bind fun _ => ?_
  split
  · exact (reading_finalizedTip a).bind fun tip => reading_record trivial
  · refine (reading_readStore _).bind fun rows => (reading_lift _).bind fun records => ?_
    exact reading_record trivial

variable [Formats]

omit [Primitives] [Formats] in
theorem reading_readAccount (address : String) : Reading (readAccount address) :=
  (reading_ask _).bind fun _ => reading_actor.bind fun _ => reading_pure _

omit [Primitives] in
theorem reading_projectAccounts (activity : BTreeMap String UInt64)
    (accounts : List (Address × AccountState)) : Reading (projectAccounts activity accounts) := by
  induction accounts with
  | nil => exact reading_pure _
  | cons p rest ih =>
      exact (reading_readAccount _).bind fun _ => ih.bind fun _ => reading_pure _

theorem reading_challengeIssuedAt (candidate : LedgerState) (receipts : List TransactionReceipt) :
    Reading (challengeIssuedAt candidate receipts) := by
  refine (reading_readStore _).bind fun metadata => ?_
  split
  · exact reading_pure _
  · split
    · exact reading_pure _
    · refine Reading.bind ?_ fun _ => reading_pure _
      unfold canonicalChallengeIssuedHeight
      split
      · exact reading_pure _
      · exact (reading_readStore _).bind fun _ => reading_lift _

theorem reading_buildProjection (candidate : LedgerState) (block : Block)
    (certificate : CommitCertificate) (receipts : List TransactionReceipt) :
    Reading (buildProjection candidate block certificate receipts) :=
  (reading_projectAccounts _ _).bind fun _ => (reading_challengeIssuedAt _ _).bind fun _ =>
    reading_pure _

end

/-! ## Steps one after the other -/

section
variable {R : Turn → Turn → Prop} {t : Turn}

theorem reaches_actor_bind {f : NodeActor → NodeM β} (h : Reaches R (f t.actor) t) :
    Reaches R (actor >>= f) t := h

theorem reaches_okOr_bind {e : NodeError} {o : Option α} {f : α → NodeM β}
    (h : ∀ a, o = some a → Reaches R (f a) t) : Reaches R (okOr e o >>= f) t :=
  .bind (.of_readOnly (readOnly_okOr e o)) fun a u hu => by
    obtain ⟨ha, rfl⟩ := okOr_eq_ok.1 hu
    exact h a ha

theorem orFail_eq_ok {g : ε → NodeError} {y : Except ε α} {a : α} {u : Turn} :
    orFail g y t = .ok a u ↔ y = .ok a ∧ t = u := by
  cases y with
  | ok b =>
      change Result.ok b t = .ok a u ↔ _
      simp
  | error e => exact ⟨nofun, fun h => nomatch h.1⟩

theorem orFail_bind {g : ε → NodeError} {y : Except ε α} {f : α → NodeM β} {a : α}
    (h : y = .ok a) : (orFail g y >>= f) t = f a t :=
  bind_of_ok (orFail_eq_ok.2 ⟨h, rfl⟩)

theorem reaches_orFail_bind {g : ε → NodeError} {y : Except ε α} {f : α → NodeM β}
    (h : ∀ a, y = .ok a → Reaches R (f a) t) : Reaches R (orFail g y >>= f) t :=
  .bind (.of_readOnly (readOnly_orFail g y)) fun a u hu => by
    obtain ⟨ha, rfl⟩ := orFail_eq_ok.1 hu
    exact h a ha

theorem reaches_update {g : NodeActor → NodeActor} (h : R t (t.withActor (g t.actor))) :
    Reaches R (update g) t :=
  ReflTransGen.single h

theorem reaches_update_bind {g : NodeActor → NodeActor} {f : Unit → NodeM β}
    (h : R t (t.withActor (g t.actor))) (hf : Reaches R (f ()) (t.withActor (g t.actor))) :
    Reaches R (update g >>= f) t :=
  ReflTransGen.head h hf

theorem reaches_logged {x : NodeM Unit} (h : Reaches R x t) : Reaches R (logged x) t := by
  unfold Reaches NodeM.logged at *
  cases hr : x t <;> rw [hr] at h <;> exact h

theorem reaches_mono {R S : Turn → Turn → Prop} (hRS : ∀ t u, R t u → S t u) {x : NodeM α}
    (h : Reaches R x t) : Reaches S x t :=
  ReflTransGen.mono hRS _ _ h

end

/-! ## Synchronization -/

section
variable [Primitives] {t : Turn}

theorem Reading.calm {x : NodeM α} (h : Reading x) (t : Turn) : Reaches Turn.Calm x t := by
  obtain ⟨asked, os, hos, ht⟩ := h t
  rw [Reaches, ht]
  exact .single ⟨.say t asked os hos, rfl⟩

/-- Reading comes first, and leaves the actor as it is. -/
theorem Reading.calm_bind {x : NodeM α} {f : α → NodeM β} (h : Reading x)
    (hf : ∀ a u, u.actor = t.actor → x t = .ok a u → Reaches Turn.Calm (f a) u) :
    Reaches Turn.Calm (x >>= f) t :=
  (h.calm t).bind fun a u hu => hf a u (h.actor_eq hu) hu

theorem calm_requestSyncBlocks (peer : PeerId) (h : t.actor.syncTarget.isSome) :
    Reaches Turn.Calm (requestSyncBlocks peer) t := by
  refine reaches_actor_bind <| .ensure_bind fun _ => reaches_okOr_bind fun height _ => ?_
  refine (reading_ask _).calm_bind fun answer u hu _ => reaches_okOr_bind fun id _ => ?_
  refine Reading.calm_bind (reading_record trivial) fun _ v hv _ => ?_
  refine (reading_ask _).calm_bind fun time w hw _ => reaches_update ?_
  exact ⟨.request w peer id _ (by rwa [hw, hv, hu]), rfl⟩

theorem calm_ensureActiveSyncRequest (peer : PeerId) (h : t.actor.syncTarget.isSome) :
    Reaches Turn.Calm (ensureActiveSyncRequest peer) t := by
  refine reaches_actor_bind ?_
  split
  · exact .pure _
  · exact calm_requestSyncBlocks peer h

theorem calm_finishSyncIfCurrent : Reaches Turn.Calm finishSyncIfCurrent t := by
  refine reaches_actor_bind ?_
  split
  · next h => exact reaches_update ⟨.caughtUp t h, rfl⟩
  · exact .pure _

theorem calm_retrySyncAfterFailure (failed : PeerId) (id : Option OutboundSyncRequestId) :
    Reaches Turn.Calm (retrySyncAfterFailure failed id) t := by
  refine reaches_actor_bind ?_
  split
  · exact .pure _
  · next h =>
      split
      · exact .pure _
      · refine reaches_update_bind ⟨.rotate t _, rfl⟩ ?_
        split
        · exact .pure _
        · refine calm_requestSyncBlocks _ ?_
          exact Option.isSome_iff_ne_none.2 fun hn => h (.inl hn)

theorem calm_retryTimedOutSyncRequest (time : Instant) :
    Reaches Turn.Calm (retryTimedOutSyncRequest time) t := by
  refine reaches_actor_bind ?_
  split
  · exact .pure _
  · split
    · split
      · exact .pure _
      · exact calm_retrySyncAfterFailure _ _
    · exact .pure _

theorem calm_beginSync (peer : PeerId) {record : FinalizedWireRecord}
    (h : t.actor.Accepts record) :
    Reaches Turn.Calm (beginSync peer record.block.header.height) t := by
  refine reaches_actor_bind <| .ensure_bind fun hlive => ?_
  split
  · exact .pure _
  · next hlt =>
      refine reaches_update_bind ⟨.fallBehind t record hlive h (UInt64.not_le.1 hlt), rfl⟩ ?_
      refine reading_publishValidatorStatus.calm_bind fun _ u hu _ => ?_
      split
      · refine calm_ensureActiveSyncRequest peer ?_
        rw [hu]
        rfl
      · exact .pure _

theorem calm_handleHigherStatus (peer : PeerId) (height : UInt64) (blockHash stateRoot : String)
    (tip : Option (List UInt8)) :
    Reaches Turn.Calm (handleHigherStatus peer height blockHash stateRoot tip) t := by
  refine reaches_actor_bind <| reaches_okOr_bind fun bytes _ => reaches_okOr_bind fun r _ => ?_
  refine .ensure_bind fun hchain => reaches_orFail_bind fun _ hcommitments => ?_
  refine reaches_orFail_bind fun _ hcertificate => .ensure_bind fun hfields => ?_
  rw [← hfields.1]
  exact calm_beginSync peer ⟨hchain, hcommitments, hcertificate⟩

theorem calm_continueSync (peer : PeerId) : Reaches Turn.Calm (continueSync peer) t := by
  refine reaches_actor_bind ?_
  split
  · exact .pure _
  · next target h =>
      split
      · split
        · exact calm_requestSyncBlocks peer (by rw [h]; rfl)
        · exact .pure _
      · exact calm_finishSyncIfCurrent

theorem calm_handleEmptyBatch (peer : PeerId) : Reaches Turn.Calm (handleEmptyBatch peer) t := by
  refine reaches_actor_bind <| .ensure_bind fun _ => ?_
  have hlast : ∀ u : Turn, Reaches Turn.Calm (update fun a =>
      { a with syncRequestId := none, syncRequestDeadline := none }) u :=
    fun u => reaches_update ⟨.answered u, rfl⟩
  split
  · exact (reading_requestStatus peer).calm_bind fun _ u _ _ => hlast u
  · exact hlast t

/-! ## Transactions and clocks -/

theorem calm_acceptTransaction (tx : SignedTransaction) (gossip : Bool) :
    Reaches Turn.Calm (acceptTransaction tx gossip) t := by
  refine reaches_actor_bind <| .ensure_bind fun hlive => .ensure_bind fun hfresh => ?_
  refine reaches_okOr_bind fun height hheight => ?_
  split
  · exact (reading_throw _).calm t
  · next receipts candidate hcandidate =>
      refine reaches_orFail_bind fun v hv => ?_
      refine reaches_update_bind ⟨.accept t tx ⟨hlive, hfresh, height, receipts, candidate, v,
        hheight, hcandidate, hv⟩, rfl⟩ ?_
      split
      · exact ((reading_send (o := .transaction tx) trivial).bind fun _ => reading_pure _).calm _
      · exact .pure _

theorem calm_statusTick : Reaches Turn.Calm statusTick t := by
  refine reaches_actor_bind <| (reading_ask _).calm_bind fun time u _ _ => ?_
  split
  · refine (reading_ask _).calm_bind fun time v _ _ => ?_
    exact reaches_update_bind ⟨.clock v _ _, rfl⟩ (reading_publishValidatorStatus.calm _)
  · exact .pure _

/-! ## Quiet computations -/

theorem Reaches.quiet {x : NodeM α} (h : Reaches Turn.Calm x t) : Reaches Turn.Quiet x t :=
  reaches_mono (fun _ _ => And.left) h

theorem Reading.reaches {x : NodeM α} (h : Reading x) (t : Turn) : Reaches Turn.Quiet x t :=
  Reaches.quiet (h.calm t)

theorem quiet_ensureActiveSyncRequest (peer : PeerId) (h : t.actor.syncTarget.isSome) :
    Reaches Turn.Quiet (ensureActiveSyncRequest peer) t :=
  Reaches.quiet (calm_ensureActiveSyncRequest peer h)

theorem quiet_finishSyncIfCurrent : Reaches Turn.Quiet finishSyncIfCurrent t :=
  Reaches.quiet calm_finishSyncIfCurrent

theorem quiet_retrySyncAfterFailure (failed : PeerId) (id : Option OutboundSyncRequestId) :
    Reaches Turn.Quiet (retrySyncAfterFailure failed id) t :=
  Reaches.quiet (calm_retrySyncAfterFailure failed id)

theorem quiet_beginSync (peer : PeerId) {record : FinalizedWireRecord}
    (h : t.actor.Accepts record) :
    Reaches Turn.Quiet (beginSync peer record.block.header.height) t :=
  Reaches.quiet (calm_beginSync peer h)

theorem quiet_handleHigherStatus (peer : PeerId) (height : UInt64) (blockHash stateRoot : String)
    (tip : Option (List UInt8)) :
    Reaches Turn.Quiet (handleHigherStatus peer height blockHash stateRoot tip) t :=
  Reaches.quiet (calm_handleHigherStatus peer height blockHash stateRoot tip)

theorem quiet_continueSync (peer : PeerId) : Reaches Turn.Quiet (continueSync peer) t :=
  Reaches.quiet (calm_continueSync peer)

theorem quiet_handleEmptyBatch (peer : PeerId) : Reaches Turn.Quiet (handleEmptyBatch peer) t :=
  Reaches.quiet (calm_handleEmptyBatch peer)

theorem quiet_acceptTransaction (tx : SignedTransaction) (gossip : Bool) :
    Reaches Turn.Quiet (acceptTransaction tx gossip) t :=
  Reaches.quiet (calm_acceptTransaction tx gossip)

/-! ## Halting -/

theorem quiet_enterHaltedState : Reaches Turn.Quiet enterHaltedState t :=
  ReflTransGen.single (.halt t)

theorem quiet_compareFinalized (block : Block) : Reaches Turn.Quiet (compareFinalized block) t := by
  refine ((reading_readStore _).reaches t).bind fun row u _ => reaches_okOr_bind fun existing _ => ?_
  refine reaches_orFail_bind fun canonical _ => ?_
  split
  · exact .pure _
  · exact quiet_enterHaltedState.bind fun _ _ _ => (reading_throw _).reaches _
end

end NodeM

end KCoin
