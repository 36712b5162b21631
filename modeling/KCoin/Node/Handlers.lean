import KCoin.Node.Moves

/-!
# The consensus driver takes the steps of a node

What the consensus driver does are steps of `Turn.Move` only, and so are a commit and the exchange
of the engine. In the driver the node remains a validator that takes part in consensus, with the same
effects still to be carried out (`Turn.Busy`).
-/

open Relation EStateM Borsh

namespace KCoin

/-! ## Storing something twice -/

namespace Store

/-- A proposal that was stored is stored again without a change. -/
theorem persistConsensusProposal_again {s s' : Store} {p : PersistedConsensusProposal}
    (h : s.persistConsensusProposal p = .ok s') : s'.persistConsensusProposal p = .ok s' := by
  obtain ⟨_, hbind, h⟩ := Except.bind_eq_ok.1 h
  refine Except.bind_eq_ok.2 ⟨(), hbind, ?_⟩
  cases hrow : s.consensusProposals[(p.height, p.round)]? with
  | some existing =>
      rw [hrow] at h
      obtain ⟨_, hsame, h⟩ := Except.bind_eq_ok.1 h
      obtain rfl := Except.pure_eq_ok.1 h
      rw [hrow]
      exact Except.bind_eq_ok.2 ⟨(), hsame, rfl⟩
  | none =>
      rw [hrow] at h
      obtain rfl := Except.pure_eq_ok.1 h
      simp only [Std.ExtTreeMap.getElem?_insert_self]
      exact Except.bind_eq_ok.2 ⟨(), Except.ensure_eq_ok.2 (by simp), rfl⟩

/-- A proposal that is stored with its block is there then. -/
theorem hasProposal_of_persist {s s' : Store} {p : SignedProposal} {block : Block}
    {row : PersistedConsensusProposal} (hrow : NodeM.proposalRow p block = .ok row)
    (h : s.persistConsensusProposal row = .ok s') : s'.HasProposal p := by
  obtain ⟨bytes, hbytes, hrow⟩ := Except.bind_eq_ok.1 hrow
  have hbytes := Except.okOr_eq_ok.1 hbytes
  obtain rfl := Except.pure_eq_ok.1 hrow
  obtain ⟨_, -, h⟩ := Except.bind_eq_ok.1 h
  split at h
  · next existing hexisting =>
      obtain ⟨_, hsame, h⟩ := Except.bind_eq_ok.1 h
      obtain rfl := Except.pure_eq_ok.1 h
      obtain ⟨-, -, hsigned⟩ := Except.ensure_eq_ok.1 hsame
      exact ⟨existing, hexisting, hbytes.trans (congrArg some hsigned.symm)⟩
  · obtain rfl := Except.pure_eq_ok.1 h
    exact ⟨_, Std.ExtTreeMap.getElem?_insert_self, hbytes⟩

/-- The stored proposals remain when another is stored. -/
theorem HasProposal.persist {s s' : Store} {p : SignedProposal} (h : s.HasProposal p)
    {row : PersistedConsensusProposal} (hs : s.persistConsensusProposal row = .ok s') :
    s'.HasProposal p := by
  obtain ⟨_, -, hs⟩ := Except.bind_eq_ok.1 hs
  split at hs
  · obtain ⟨_, -, hs⟩ := Except.bind_eq_ok.1 hs
    obtain rfl := Except.pure_eq_ok.1 hs
    exact h
  · next hnone =>
      obtain rfl := Except.pure_eq_ok.1 hs
      obtain ⟨existing, hexisting, hbytes⟩ := h
      refine ⟨existing, ?_, hbytes⟩
      rw [BTreeMap.getElem?_insert_ne]
      · exact hexisting
      · intro heq
        rw [heq, hexisting] at hnone
        cases hnone

theorem HasProposal.of_same {s s' : Store} {p : SignedProposal} (h : s.HasProposal p)
    (hsame : s'.consensusProposals = s.consensusProposals) : s'.HasProposal p := by
  unfold HasProposal
  rw [hsame]
  exact h

/-- One proposal is stored for a height and round. -/
theorem HasProposal.unique {s : Store} {p q : SignedProposal} (hp : s.HasProposal p)
    (hq : s.HasProposal q) (hheight : p.proposal.height = q.proposal.height)
    (hround : p.proposal.round = q.proposal.round) : p = q := by
  obtain ⟨row, hrow, hbytes⟩ := hp
  obtain ⟨row', hrow', hbytes'⟩ := hq
  rw [hheight, hround] at hrow
  obtain rfl := Option.some.inj (hrow.symm.trans hrow')
  obtain ⟨hfits, hencode⟩ := toVec_eq_some.1 hbytes
  obtain ⟨hfits', hencode'⟩ := toVec_eq_some.1 hbytes'
  exact encode_inj hfits hfits' (hencode.symm.trans hencode')

/-- A decision is no proposal. -/
theorem persistConsensusDecision_proposals {s s' : Store} {row : PersistedConsensusDecision}
    {signature : List UInt8} (h : s.persistConsensusDecision row = .ok (signature, s')) :
    s'.consensusProposals = s.consensusProposals := by
  obtain ⟨height, -, h⟩ := Except.bind_eq_ok.1 h
  split at h
  · obtain ⟨_, -, h⟩ := Except.bind_eq_ok.1 h
    obtain ⟨_, -, h⟩ := Except.bind_eq_ok.1 h
    obtain ⟨_, -, h⟩ := Except.bind_eq_ok.1 h
    split at h <;> cases Except.pure_eq_ok.1 h <;> rfl
  · obtain ⟨_, -, h⟩ := Except.bind_eq_ok.1 h
    cases Except.pure_eq_ok.1 h
    rfl

/-- The decision in a slot repeats another: it has the signed bytes, the safety state and the message
of the other. -/
theorem repeatDecision_same {s : Store} {existing row : PersistedConsensusDecision}
    (hbytes : existing.signBytes = row.signBytes) (hsafety : existing.safetyState = row.safetyState)
    (hmessage : existing.signedMessage = row.signedMessage ∨ row.signedMessage = []) :
    s.repeatDecision existing row = .ok (existing.signature, s) := by
  have hsame : existing.signedMessage = [] ∨ row.signedMessage = [] ∨
      existing.signedMessage = row.signedMessage := by
    rcases hmessage with h | h
    · exact .inr (.inr h)
    · exact .inr (.inl h)
  refine Except.bind_eq_ok.2 ⟨(), Except.ensure_eq_ok.2 hbytes, Except.bind_eq_ok.2 ⟨(),
    Except.ensure_eq_ok.2 hsafety, Except.bind_eq_ok.2 ⟨(), Except.ensure_eq_ok.2 hsame, ?_⟩⟩⟩
  refine if_neg fun h => ?_
  rcases hmessage with hm | hm
  · exact h.2 (hm ▸ h.1)
  · exact h.2 hm

/-- A decision that was stored is stored again without a change, with the same signature. -/
theorem persistConsensusDecision_again {s s' : Store} {row : PersistedConsensusDecision}
    {signature : List UInt8} (h : s.persistConsensusDecision row = .ok (signature, s')) :
    s'.persistConsensusDecision row = .ok (signature, s') := by
  obtain ⟨height, hheight, h⟩ := Except.bind_eq_ok.1 h
  refine Except.bind_eq_ok.2 ⟨height, hheight, ?_⟩
  cases hfind : s.signerState.find? (·.slot = row.slot) with
  | none =>
      rw [hfind] at h
      obtain ⟨_, -, h⟩ := Except.bind_eq_ok.1 h
      obtain ⟨rfl, rfl⟩ := Prod.ext_iff.1 (Except.pure_eq_ok.1 h)
      have hfound : (s.signerState ++ [row]).find? (·.slot = row.slot) = some row := by
        rw [List.find?_append, hfind]
        simp
      simp only [hfound]
      exact repeatDecision_same rfl rfl (.inl rfl)
  | some existing =>
      rw [hfind] at h
      obtain ⟨_, hbytes, h⟩ := Except.bind_eq_ok.1 h
      obtain ⟨_, hsafety, h⟩ := Except.bind_eq_ok.1 h
      obtain ⟨_, hmessage, h⟩ := Except.bind_eq_ok.1 h
      have hbytes := Except.ensure_eq_ok.1 hbytes
      have hsafety := Except.ensure_eq_ok.1 hsafety
      have hmessage := Except.ensure_eq_ok.1 hmessage
      split at h
      · -- the message of the row was filled in
        obtain ⟨rfl, rfl⟩ := Prod.ext_iff.1 (Except.pure_eq_ok.1 h)
        have hfound : (s.signerState.map fun r =>
            if r.slot = row.slot then { r with signedMessage := row.signedMessage } else r).find?
              (·.slot = row.slot) =
            some { existing with signedMessage := row.signedMessage } := by
          have hslot : existing.slot = row.slot := by simpa using List.find?_some hfind
          have hcomp : ((fun r : PersistedConsensusDecision => decide (r.slot = row.slot)) ∘
              fun r => if r.slot = row.slot then { r with signedMessage := row.signedMessage }
                else r) = fun r => decide (r.slot = row.slot) := by
            funext r
            rw [Function.comp_apply]
            split <;> rfl
          rw [List.find?_map, hcomp, hfind, Option.map_some, if_pos hslot]
        simp only [hfound]
        exact repeatDecision_same hbytes hsafety (.inl rfl)
      · next hempty =>
          obtain ⟨rfl, rfl⟩ := Prod.ext_iff.1 (Except.pure_eq_ok.1 h)
          simp only [hfind]
          refine repeatDecision_same hbytes hsafety ?_
          rcases hmessage with hm | hm | hm
          · exact .inr (Classical.byContradiction fun hne => hempty ⟨hm, hne⟩)
          · exact .inr hm
          · exact .inl hm

/-- The log has no part in a decision. -/
theorem persistConsensusDecision_append {s s' : Store} {row : PersistedConsensusDecision}
    {signature : List UInt8} (h : s.persistConsensusDecision row = .ok (signature, s'))
    (kind : String) (bytes : List UInt8) :
    (s.appendConsensusEvent kind bytes).persistConsensusDecision row =
      .ok (signature, s'.appendConsensusEvent kind bytes) := by
  obtain ⟨height, hheight, h⟩ := Except.bind_eq_ok.1 h
  refine Except.bind_eq_ok.2 ⟨height, hheight, ?_⟩
  have hsame : (s.appendConsensusEvent kind bytes).signerState = s.signerState := rfl
  rw [hsame]
  cases hfind : s.signerState.find? (·.slot = row.slot) with
  | none =>
      rw [hfind] at h
      obtain ⟨_, hbind, h⟩ := Except.bind_eq_ok.1 h
      obtain ⟨rfl, rfl⟩ := Prod.ext_iff.1 (Except.pure_eq_ok.1 h)
      exact Except.bind_eq_ok.2 ⟨(), hbind, rfl⟩
  | some existing =>
      rw [hfind] at h
      obtain ⟨_, hbytes, h⟩ := Except.bind_eq_ok.1 h
      obtain ⟨_, hsafety, h⟩ := Except.bind_eq_ok.1 h
      obtain ⟨_, hmessage, h⟩ := Except.bind_eq_ok.1 h
      refine Except.bind_eq_ok.2 ⟨(), hbytes, Except.bind_eq_ok.2 ⟨(), hsafety,
        Except.bind_eq_ok.2 ⟨(), hmessage, ?_⟩⟩⟩
      split at h
      · next hfill =>
          obtain ⟨rfl, rfl⟩ := Prod.ext_iff.1 (Except.pure_eq_ok.1 h)
          exact if_pos hfill
      · next hfill =>
          obtain ⟨rfl, rfl⟩ := Prod.ext_iff.1 (Except.pure_eq_ok.1 h)
          exact if_neg hfill

end Store

theorem NodeActor.ProposalStored.has {a : NodeActor} {p : SignedProposal} (h : a.ProposalStored p) :
    a.store.HasProposal p := by
  obtain ⟨block, row, -, hrow, hstored⟩ := h
  exact Store.hasProposal_of_persist hrow hstored

/-! ## Steps under a condition -/

namespace Turn

/-- A validator at work in consensus, with some effects still to be carried out. -/
structure Busy (rest : List Effect) (t : Turn) : Prop where
  driving : t.Driving
  effects : t.effects = rest

variable {rest : List Effect} {t u : Turn}

theorem Busy.said (h : Busy rest t) (asked : Nat) (os : List Occurrence) :
    Busy rest (t.said asked os) :=
  ⟨⟨h.driving.role, h.driving.current, h.driving.live⟩, h.effects⟩

theorem Busy.stored (h : Busy rest t) (store : Store) : Busy rest (t.stored store) :=
  ⟨⟨h.driving.role, h.driving.current, h.driving.live⟩, h.effects⟩

theorem Busy.learn [Primitives] (h : Busy rest t) (block : Block) :
    Busy rest (t.withActor (t.actor.learn block)) :=
  ⟨⟨h.driving.role, h.driving.current, h.driving.live⟩, h.effects⟩

theorem Busy.pushed (h : Busy rest t) (event : Event) : Busy rest (t.pushed event) :=
  ⟨⟨h.driving.role, h.driving.current, h.driving.live⟩, h.effects⟩

variable [Primitives] [Formats]

/-- A step that leaves a validator at work. -/
def BusyMove (rest : List Effect) (t t' : Turn) : Prop :=
  Move t t' ∧ (Busy rest t → Busy rest t')

theorem Busy.of_reaches (h : Busy rest t) (hu : ReflTransGen (BusyMove rest) t u) :
    Busy rest u := by
  induction hu with
  | refl => exact h
  | tail _ hlast ih => exact hlast.2 ih

end Turn

namespace NodeM

variable {α β ε : Type} [Primitives] [Formats] {rest : List Effect} {t : Turn} {x : NodeM α}
  {f : α → NodeM β}

/-- The computation takes steps of the node that leave a validator at work. -/
def Works (rest : List Effect) (x : NodeM α) (t : Turn) : Prop :=
  Reaches (Turn.BusyMove rest) x t

theorem busyMove_quiet {u : Turn} (h : t.Quiet u) (hu : t.Busy rest → u.Busy rest) :
    Turn.BusyMove rest t u :=
  ⟨.quiet h, hu⟩

theorem busyMove_work (h : t.Busy rest) {u : Turn} (hw : t.Work u) (hu : u.Busy rest) :
    Turn.BusyMove rest t u :=
  ⟨.work h.driving hw, fun _ => hu⟩

theorem Reading.works (hx : Reading x) (t : Turn) : Works rest x t := by
  obtain ⟨asked, os, hos, ht⟩ := hx t
  rw [Works, Reaches, ht]
  exact .single (busyMove_quiet (.say t asked os hos) fun h => h.said asked os)

theorem Reading.works_bind (hx : Reading x)
    (hf : ∀ a asked os, x t = .ok a (t.said asked os) → Works rest (f a) (t.said asked os)) :
    Works rest (x >>= f) t :=
  (hx.works t).bind fun a u hu => by
    obtain ⟨asked, os, -, rfl⟩ := hx.ok hu
    exact hf a asked os hu

omit [Primitives] [Formats] in
/-- A transaction on the store fails before it commits, or commits. -/
theorem writeStore_cases (g : Store → Except StorageError (α × Store)) (t : Turn) :
    (∃ e asked, writeStore g t = .error e (t.said asked [])) ∨
      ∃ asked a store, g t.actor.store = .ok (a, store) ∧
        writeStore g t = .ok a ((t.said asked []).stored store) := by
  rcases readStore_cases g t with ⟨e, asked, he⟩ | ⟨asked, ⟨a, store⟩, ha, hu⟩
  · exact .inl ⟨e, asked, bind_eq_error.2 (.inl he)⟩
  · exact .inr ⟨asked, a, store, ha, bind_of_ok hu⟩

/-! ## Commits -/

/-- What follows once a block is stored. -/
def settle (block : Block) (certificate : CommitCertificate) (gossip network : Bool) :
    NodeM Unit := do
  revalidateMempool
  let lastBlockAt ← now
  update fun a => { a with lastBlockAt }
  if gossip && network then
    let _ ← okOr .encoding (toVec (⟨block, certificate⟩ : FinalizedWireRecord))
    record (.finalized ⟨block, certificate⟩)

omit [Formats] in
/-- Only the announcement of the block can fail. -/
theorem settle_state (block : Block) (certificate : CommitCertificate) (gossip network : Bool)
    (t : Turn) : ∃ asked os lastBlockAt, (∀ o ∈ os, Occurrence.Other o) ∧
      (settle block certificate gossip network t).state =
        (t.withActor { t.actor.revalidated with lastBlockAt }).said asked os ∧
      (gossip = false → (settle block certificate gossip network t).isOk) := by
  let u := t.withActor { t.actor.revalidated with lastBlockAt := t.env.instant t.asked }
  let v := u.said (t.asked + 1) []
  have hv : { u with asked := t.asked + 1 } = v := by
    change _ = u.said _ _
    rw [Turn.said, List.append_nil]
  have hrun : settle block certificate gossip network t =
      (if gossip && network then do
        let _ ← okOr .encoding (toVec (⟨block, certificate⟩ : FinalizedWireRecord))
        record (.finalized ⟨block, certificate⟩)
      else pure () : NodeM Unit) v := by
    rw [← hv]
    rfl
  rw [hrun]
  cases hg : gossip && network with
  | false => exact ⟨t.asked + 1, [], t.env.instant t.asked, by simp, rfl, fun _ => rfl⟩
  | true =>
      have hreading : Reading (do
          let _ ← okOr .encoding (toVec (⟨block, certificate⟩ : FinalizedWireRecord))
          record (.finalized ⟨block, certificate⟩) : NodeM Unit) :=
        (reading_okOr _ _).bind fun _ => reading_record trivial
      obtain ⟨asked, os, hos, hstate⟩ := hreading v
      refine ⟨asked, os, t.env.instant t.asked, hos, hstate.trans ?_, fun hn => ?_⟩
      · change (u.said (t.asked + 1) []).said asked os = u.said asked os
        rw [Turn.said, Turn.said, Turn.said, List.append_nil]
      · rw [hn] at hg
        cases hg

/-- What follows the execution of a block. -/
theorem commitFinalized_executed {block : Block} {certificate : CommitCertificate} (gossip : Bool)
    {receipts : List TransactionReceipt} {candidate : LedgerState}
    (h : LedgerState.applyFinalizedBlock block certificate t.actor.validatorIds t.actor.ledger =
      .ok receipts candidate) :
    commitFinalized block certificate gossip t = (do
      let projection ← buildProjection candidate block certificate receipts
      let store ← within "atomically persist finalized block"
        (readStore (·.persistFinalized projection))
      modify fun t => { t with
        actor := { t.actor with store, ledger := candidate }
        trace := t.trace ++ [.committed store] }
      settle block certificate gossip t.actor.network : NodeM Unit) t := by
  unfold commitFinalized
  rw [bind_of_ok (rfl : actor t = .ok t.actor t)]
  simp only [h]
  rfl

/-- A commit fails and leaves the actor as it is, or the block is stored with its projection and the
actor moves to it. Only the announcement of the block can fail then. -/
theorem commitFinalized_stores (block : Block) (certificate : CommitCertificate) (gossip : Bool)
    (t : Turn) :
    (∃ e asked os, (∀ o ∈ os, Occurrence.Other o) ∧
      commitFinalized block certificate gossip t = .error e (t.said asked os)) ∨
    ∃ receipts candidate projection u store asked os asked' os' lastBlockAt,
      (∀ o ∈ os, Occurrence.Other o) ∧ (∀ o ∈ os', Occurrence.Other o) ∧
      LedgerState.applyFinalizedBlock block certificate t.actor.validatorIds t.actor.ledger =
        .ok receipts candidate ∧
      buildProjection candidate block certificate receipts t = .ok projection u ∧
      t.actor.store.persistFinalized projection = .ok store ∧
      (commitFinalized block certificate gossip t).state =
        (((t.said asked os).stored store).withActor
          { t.actor.committed candidate store with lastBlockAt }).said asked' os' ∧
      (gossip = false → (commitFinalized block certificate gossip t).isOk) := by
  cases hledger : LedgerState.applyFinalizedBlock block certificate t.actor.validatorIds
      t.actor.ledger with
  | error e s =>
      have hrun : commitFinalized block certificate gossip t =
          .error (.context "execute finalized block" (.protocol e)) t := by
        unfold commitFinalized
        rw [bind_of_ok (rfl : actor t = .ok t.actor t)]
        simp only [hledger]
        rfl
      refine .inl ⟨.context "execute finalized block" (.protocol e), t.asked, [], by simp,
        hrun.trans ?_⟩
      rw [Turn.said, List.append_nil]
  | ok receipts candidate =>
      rw [commitFinalized_executed gossip hledger]
      have hreading := reading_buildProjection candidate block certificate receipts
      cases hprojection : buildProjection candidate block certificate receipts t with
      | error e u =>
          obtain ⟨asked, os, hos, hu⟩ := hreading t
          rw [hprojection] at hu
          obtain rfl : u = t.said asked os := hu
          exact .inl ⟨e, asked, os, hos, bind_eq_error.2 (.inl hprojection)⟩
      | ok projection u =>
          obtain ⟨asked, os, hos, rfl⟩ := hreading.ok hprojection
          rw [bind_of_ok hprojection]
          rcases readStore_cases (·.persistFinalized projection) (t.said asked os) with
            ⟨e, asked', he⟩ | ⟨asked', store, hstore, hread⟩
          · refine .inl ⟨.context "atomically persist finalized block" e, asked', os, hos, ?_⟩
            have hwithin : within "atomically persist finalized block"
                (readStore (·.persistFinalized projection)) (t.said asked os) =
                .error (.context "atomically persist finalized block" e)
                  ((t.said asked os).said asked' []) := by
              rw [within, he]
            refine (bind_eq_error.2 (.inl hwithin)).trans ?_
            rw [Turn.said, Turn.said, Turn.said, List.append_nil]
          · have hwithin : within "atomically persist finalized block"
                (readStore (·.persistFinalized projection)) (t.said asked os) =
                .ok store (t.said asked' os) := by
              rw [within, hread]
              change Result.ok _ _ = _
              rw [Turn.said, Turn.said, Turn.said, List.append_nil]
            rw [bind_of_ok hwithin]
            obtain ⟨asked'', os', lastBlockAt, hos', hstate, hok⟩ := settle_state block certificate
              gossip t.actor.network (((t.said asked' os).stored store).withActor
                { t.actor with store, ledger := candidate })
            exact .inr ⟨receipts, candidate, projection, _, store, asked', os, asked'', os',
              lastBlockAt, hos, hos', rfl, hprojection, hstore, hstate, hok⟩

/-- A commit fails and leaves the actor as it is, or the actor moves to the block. Only the
announcement of the block can fail then. -/
theorem commitFinalized_cases (block : Block) (certificate : CommitCertificate) (gossip : Bool)
    (t : Turn) :
    (∃ e asked os, (∀ o ∈ os, Occurrence.Other o) ∧
      commitFinalized block certificate gossip t = .error e (t.said asked os)) ∨
    ∃ receipts candidate store asked os asked' os' lastBlockAt, (∀ o ∈ os, Occurrence.Other o) ∧
      (∀ o ∈ os', Occurrence.Other o) ∧
      t.actor.Commits block certificate receipts candidate store ∧
      (commitFinalized block certificate gossip t).state =
        (((t.said asked os).stored store).withActor
          { t.actor.committed candidate store with lastBlockAt }).said asked' os' ∧
      (gossip = false → (commitFinalized block certificate gossip t).isOk) := by
  rcases commitFinalized_stores block certificate gossip t with hfails | ⟨receipts, candidate,
    projection, u, store, asked, os, asked', os', lastBlockAt, hos, hos', hledger, hprojection, hstore,
    hstate⟩
  · exact .inl hfails
  · exact .inr ⟨receipts, candidate, store, asked, os, asked', os', lastBlockAt, hos, hos',
      ⟨hledger, t, u, projection, rfl, hprojection, hstore⟩, hstate⟩

/-- A commit takes the step that stores the block, and otherwise tells something and looks at the
clock. -/
theorem reaches_commitFinalized {R : Turn → Turn → Prop} (block : Block)
    (certificate : CommitCertificate) (gossip : Bool)
    (say : ∀ u asked os, (∀ o ∈ os, Occurrence.Other o) → R u (u.said asked os))
    (clock : ∀ u lastBlockAt, R u (u.withActor { u.actor with lastBlockAt }))
    (commit : ∀ u receipts candidate store, u.actor = t.actor →
      u.actor.Commits block certificate receipts candidate store →
      R u ((u.stored store).withActor (u.actor.committed candidate store))) :
    Reaches R (commitFinalized block certificate gossip) t := by
  rcases commitFinalized_cases block certificate gossip t with ⟨e, asked, os, hos, he⟩ |
    ⟨receipts, candidate, store, asked, os, asked', os', lastBlockAt, hos, hos', hcommits, hstate, -⟩
  · rw [Reaches, he]
    exact .single (say t asked os hos)
  · rw [Reaches, hstate]
    let u := t.said asked os
    let v := (u.stored store).withActor (t.actor.committed candidate store)
    have hcommit : R u v := commit u receipts candidate store rfl hcommits
    exact ((ReflTransGen.single (say t asked os hos)).tail hcommit).tail (clock v lastBlockAt)
      |>.tail (say _ asked' os' hos')

omit [Formats] in
/-- The exchange of the engine takes two steps. -/
theorem reaches_resetConsensus {R : Turn → Turn → Prop}
    (clear : R t (t.withActor { t.actor with
      proposalBlocks := ∅
      recoveryMessages := []
      recoveryBroadcasts := []
      consensusStarted := false }))
    (renew : ∀ u key validators consensus, u = t.withActor { t.actor with
        proposalBlocks := ∅
        recoveryMessages := []
        recoveryBroadcasts := []
        consensusStarted := false } →
      u.actor.localValidatorKey = some key → ValidatorSet.new u.actor.validatorIds = .ok validators →
      Consensus.new (ValidatorId.fromSigningKey key) validators (u.actor.ledger.height + 1)
        (.forChain u.actor.config.chainId) = .ok consensus →
      R u (u.withActor { u.actor with consensus := some consensus })) :
    Reaches R resetConsensus t := by
  refine reaches_update_bind clear (reaches_actor_bind ?_)
  split
  · exact .pure _
  · next key hkey =>
      refine reaches_orFail_bind fun validators hvalidators => ?_
      refine reaches_orFail_bind fun consensus hconsensus => reaches_update ?_
      exact renew _ key validators consensus rfl hkey hvalidators hconsensus

theorem works_commitFinalized (block : Block) (certificate : CommitCertificate) (gossip : Bool)
    (live : t.actor.halted = false) :
    Works rest (commitFinalized block certificate gossip) t := by
  refine reaches_commitFinalized block certificate gossip
    (fun u asked os hos => busyMove_quiet (.say u asked os hos) fun h => h.said asked os)
    (fun u lastBlockAt => busyMove_quiet (.clock u lastBlockAt u.actor.lastStatusAt) fun h => ?_)
    fun u receipts candidate store hu hcommits => ⟨?_, fun h => ?_⟩
  · exact ⟨⟨h.driving.role, h.driving.current, h.driving.live⟩, h.effects⟩
  · exact .commit u block certificate receipts candidate store (hu ▸ live) hcommits
  · exact ⟨⟨h.driving.role, h.driving.current, h.driving.live⟩, h.effects⟩

theorem works_resetConsensus : Works rest resetConsensus t := by
  refine reaches_resetConsensus ⟨.clear t, fun h => ?_⟩
    fun u key validators consensus _ hkey hvalidators hconsensus => ⟨?_, fun h => ?_⟩
  · exact ⟨⟨h.driving.role, h.driving.current, h.driving.live⟩, h.effects⟩
  · exact .renew u key validators consensus hkey hvalidators hconsensus
  · exact ⟨⟨h.driving.role, h.driving.current, h.driving.live⟩, h.effects⟩

theorem works_finalizeBlock (f : Finalization) (live : t.actor.halted = false) :
    Works rest (finalizeBlock f) t := by
  refine reaches_actor_bind <| reaches_okOr_bind fun block _ => ?_
  refine reaches_orFail_bind fun certificate _ => reaches_orFail_bind fun _ _ => ?_
  exact (works_commitFinalized block certificate true live).bind fun _ _ _ => works_resetConsensus

/-! ## Decisions -/

omit [Primitives] [Formats] in
/-- A transaction on the store that was committed. -/
theorem writeStore_eq_ok {g : Store → Except StorageError (α × Store)} {u : Turn} {a : α}
    (h : writeStore g t = .ok a u) : ∃ asked store, g t.actor.store = .ok (a, store) ∧
      u = (t.said asked []).stored store := by
  rcases writeStore_cases g t with ⟨e, asked, he⟩ | ⟨asked, b, store, hb, hu⟩
  · exact nomatch he.symm.trans h
  · cases hu.symm.trans h
    exact ⟨asked, store, hb, rfl⟩

theorem works_writeStore {g : Store → Except StorageError (α × Store)} (h : t.Busy rest)
    (hw : ∀ asked a store, g t.actor.store = .ok (a, store) →
      (t.said asked []).Work ((t.said asked []).stored store)) : Works rest (writeStore g) t := by
  rcases writeStore_cases g t with ⟨e, asked, he⟩ | ⟨asked, a, store, ha, hu⟩
  · rw [Works, Reaches, he]
    exact .single (busyMove_quiet (.say t asked [] (by simp)) fun h => h.said _ _)
  · rw [Works, Reaches, hu]
    have hs := h.said asked []
    exact .tail (.single (busyMove_quiet (.say t asked [] (by simp)) fun _ => hs))
      (busyMove_work hs (hw asked a store ha) (hs.stored store))

theorem works_appendConsensusEvent (h : t.Busy rest) (kind : String) (bytes : List UInt8) :
    Works rest (appendConsensusEvent kind bytes) t :=
  works_writeStore h fun asked a store hs => by
    cases hs
    exact .storeEvent (t.said asked []) kind bytes

omit [Primitives] [Formats] in
/-- What is left after a local proposal was stored. -/
theorem persistLocalProposal_eq_ok {m : SignedMessage} {u : Turn}
    (h : persistLocalProposal m t = .ok () u) :
    (∃ v, m = .vote v ∧ u = t) ∨ ∃ p block row asked store, m = .proposal p ∧
      t.actor.proposalBlocks[p.proposal.blockId]? = some block ∧ proposalRow p block = .ok row ∧
      t.actor.store.persistConsensusProposal row = .ok store ∧
      u = (t.said asked []).stored store := by
  cases m with
  | vote v =>
      cases h
      exact .inl ⟨v, rfl, rfl⟩
  | proposal p =>
      obtain ⟨a, _, ha, h⟩ := bind_eq_ok.1 h
      cases ha
      obtain ⟨block, _, hknown, h⟩ := bind_eq_ok.1 h
      obtain ⟨hblock, rfl⟩ := okOr_eq_ok.1 hknown
      obtain ⟨row, _, hencoded, h⟩ := bind_eq_ok.1 h
      obtain ⟨hrow, rfl⟩ := lift_eq_ok.1 hencoded
      obtain ⟨asked, store, hstore, rfl⟩ := writeStore_eq_ok h
      exact .inr ⟨p, block, row, asked, store, rfl, hblock, hrow,
        (Except.map_pair_eq_ok.1 hstore).1, rfl⟩

theorem works_persistLocalProposal {message : SignableMessage} {safetyState : SafetyState}
    {decision : PersistedConsensusDecision} (h : t.Busy rest)
    (hcurrent : t.current = some (.persistBeforeBroadcast message safetyState))
    (hdecision : t.actor.Decides message safetyState decision) :
    Works rest (persistLocalProposal (signedMessage message decision.signature)) t := by
  cases message with
  | vote v => exact .pure _
  | proposal p =>
      refine reaches_actor_bind <| reaches_okOr_bind fun block hblock => ?_
      refine .lift_bind fun row hrow => works_writeStore h fun asked _ store hstore => ?_
      exact .storeProposal (t.said asked []) ⟨p, decision.signature⟩ safetyState decision block row
        store hcurrent hdecision rfl hblock hrow (Except.map_pair_eq_ok.1 hstore).1

omit [Primitives] [Formats] in
/-- Storing a decision fails before it commits, or the decision is stored. -/
theorem persistDecision_cases (row : PersistedConsensusDecision) (t : Turn) :
    (∃ e asked, persistDecision row t = .error e (t.said asked [])) ∨
      ∃ asked signature store, t.actor.store.persistConsensusDecision row = .ok (signature, store) ∧
        persistDecision row t =
          .ok signature { (t.said asked []).stored store with current := none } := by
  rcases readStore_cases (·.persistConsensusDecision row) t with
    ⟨e, asked, he⟩ | ⟨asked, ⟨signature, store⟩, hs, hu⟩
  · exact .inl ⟨e, asked, bind_eq_error.2 (.inl he)⟩
  · exact .inr ⟨asked, signature, store, hs, bind_of_ok hu⟩

theorem works_persistDecision {message : SignableMessage} {safetyState : SafetyState}
    {row : PersistedConsensusDecision} (h : t.Busy rest)
    (hcurrent : t.current = some (.persistBeforeBroadcast message safetyState))
    (hrow : t.actor.Decides message safetyState row)
    (hproposal : ∀ p, message = .proposal p → t.actor.ProposalStored ⟨p, row.signature⟩) :
    Works rest (persistDecision row) t := by
  rcases persistDecision_cases row t with ⟨e, asked, he⟩ | ⟨asked, signature, store, hs, hu⟩
  · rw [Works, Reaches, he]
    exact .single (busyMove_quiet (.say t asked [] (by simp)) fun h => h.said _ _)
  · rw [Works, Reaches, hu]
    have hb := h.said asked []
    exact .tail (.single (busyMove_quiet (.say t asked [] (by simp)) fun _ => hb))
      (busyMove_work hb (.storeDecision (t.said asked []) message safetyState row signature store
        hcurrent hrow hproposal hs) ⟨⟨hb.driving.role, hb.driving.current, hb.driving.live⟩,
          hb.effects⟩)

omit [Primitives] [Formats] in
/-- The proposal of a local decision is stored. -/
theorem persistLocalProposal_stored {message : SignableMessage} {signature : List UInt8} {u : Turn}
    (h : persistLocalProposal (signedMessage message signature) t = .ok () u) :
    u.current = t.current ∧ u.actor.localValidatorKey = t.actor.localValidatorKey ∧
      ∀ p, message = .proposal p → u.actor.ProposalStored ⟨p, signature⟩ := by
  rcases persistLocalProposal_eq_ok h with ⟨v, hv, rfl⟩ |
    ⟨p, block, row, asked, store, hp, hblock, hrow, hstore, rfl⟩
  · refine ⟨rfl, rfl, ?_⟩
    rintro p rfl
    cases hv
  · refine ⟨rfl, rfl, ?_⟩
    rintro p rfl
    cases hp
    exact ⟨block, row, hblock, hrow, Store.persistConsensusProposal_again hstore⟩

theorem works_signAndPersist (message : SignableMessage) (safetyState : SafetyState)
    (h : t.Busy rest) (hcurrent : t.current = some (.persistBeforeBroadcast message safetyState)) :
    Works rest (signAndPersist message safetyState) t := by
  refine reaches_actor_bind <| reaches_okOr_bind fun key hkey => .ensure_bind fun hsigner => ?_
  refine reaches_okOr_bind fun signBytes hbytes => reaches_okOr_bind fun encoded hencoded => ?_
  let row : PersistedConsensusDecision :=
    { slot := signerSlot message
      signBytes
      signature := (Primitives.sign key signBytes).toList
      safetyState := Formats.safetyToVec safetyState
      signedMessage := encoded }
  have hrow : ∀ a : NodeActor, a.localValidatorKey = t.actor.localValidatorKey →
      a.Decides message safetyState row := fun a ha =>
    ⟨⟨key, signBytes, ha.trans hkey, hsigner, hbytes, rfl, rfl⟩, rfl, rfl, hencoded⟩
  have hlocal := works_persistLocalProposal h hcurrent (hrow t.actor rfl)
  refine hlocal.bind fun _ u hu => ?_
  obtain ⟨hucurrent, hukey, hproposal⟩ := persistLocalProposal_stored hu
  have hbusy : u.Busy rest := by
    have hreach := hlocal
    rw [Works, Reaches, hu] at hreach
    exact h.of_reaches hreach
  have hdecision := works_persistDecision hbusy (hucurrent.trans hcurrent) (hrow u.actor hukey)
    hproposal
  refine hdecision.bind fun signature v hv => reaches_okOr_bind fun bytes _ => ?_
  have hbusy : v.Busy rest := by
    have hreach := hdecision
    rw [Works, Reaches, hv] at hreach
    exact hbusy.of_reaches hreach
  exact (works_appendConsensusEvent hbusy _ _).bind fun _ _ _ => .pure _

/-- A decision that was signed is stored, a proposal with its block, and its message carries the
stored signature. -/
theorem signAndPersist_eq_ok {message : SignableMessage} {safetyState : SafetyState}
    {signed : SignedMessage} {u : Turn} (h : signAndPersist message safetyState t = .ok signed u) :
    ∃ row signature, u.actor.Decides message safetyState row ∧
      u.actor.store.persistConsensusDecision row = .ok (signature, u.actor.store) ∧
      signed = signedMessage message signature ∧
      ∀ p, message = .proposal p → u.actor.store.HasProposal ⟨p, row.signature⟩ := by
  obtain ⟨a, _, ha, h⟩ := bind_eq_ok.1 h
  cases ha
  obtain ⟨key, _, hkey', h⟩ := bind_eq_ok.1 h
  obtain ⟨hkey, rfl⟩ := okOr_eq_ok.1 hkey'
  obtain ⟨_, _, hsigner', h⟩ := bind_eq_ok.1 h
  obtain ⟨hsigner, rfl⟩ := ensure_eq_ok.1 hsigner'
  obtain ⟨signBytes, _, hbytes', h⟩ := bind_eq_ok.1 h
  obtain ⟨hbytes, rfl⟩ := okOr_eq_ok.1 hbytes'
  obtain ⟨encoded, _, hencoded', h⟩ := bind_eq_ok.1 h
  obtain ⟨hencoded, rfl⟩ := okOr_eq_ok.1 hencoded'
  obtain ⟨_, v, hlocal, h⟩ := bind_eq_ok.1 h
  obtain ⟨signature, w, hdecision, h⟩ := bind_eq_ok.1 h
  obtain ⟨bytes, _, hbytes', h⟩ := bind_eq_ok.1 h
  obtain ⟨-, rfl⟩ := okOr_eq_ok.1 hbytes'
  obtain ⟨_, x, happend, h⟩ := bind_eq_ok.1 h
  obtain ⟨rfl, rfl⟩ := pure_eq_ok.1 h
  obtain ⟨-, hvkey, hproposal⟩ := persistLocalProposal_stored hlocal
  rcases persistDecision_cases _ v with ⟨e, asked, he⟩ | ⟨asked, sig, store, hs, hw⟩
  · exact nomatch he.symm.trans hdecision
  · cases hw.symm.trans hdecision
    obtain ⟨asked', store', hstore', rfl⟩ := writeStore_eq_ok happend
    cases hstore'
    refine ⟨{ slot := signerSlot message, signBytes
              signature := (Primitives.sign key signBytes).toList
              safetyState := Formats.safetyToVec safetyState
              signedMessage := encoded }, signature,
      ⟨⟨key, signBytes, hvkey.trans hkey, hsigner, hbytes, rfl, rfl⟩, rfl, rfl, hencoded⟩, ?_, rfl,
      fun p hp => ?_⟩
    · exact Store.persistConsensusDecision_append (Store.persistConsensusDecision_again hs) _ _
    · have hkept : store.HasProposal ⟨p, (Primitives.sign key signBytes).toList⟩ :=
        (hproposal p hp).has.of_same (Store.persistConsensusDecision_proposals hs)
      exact hkept.of_same rfl

/-! ## Effects -/

theorem Works.busy (h : t.Busy rest) (hx : Works rest x t) {a : α} {u : Turn} (hu : x t = .ok a u) :
    u.Busy rest := by
  rw [Works, Reaches, hu] at hx
  exact h.of_reaches hx

theorem works_update {g : NodeActor → NodeActor} (h : t.Busy rest)
    (hw : t.Work (t.withActor (g t.actor))) (hu : (t.withActor (g t.actor)).Busy rest) :
    Works rest (update g) t :=
  reaches_update (busyMove_work h hw hu)

theorem works_pushEvent {event : Event} (h : t.Busy rest) (hw : t.Work (t.pushed event)) :
    Works rest (pushEvent event) t :=
  ReflTransGen.single (busyMove_work h hw (h.pushed event))

theorem works_publish {message : SignedMessage} {wire : ConsensusWireMessage} (h : t.Busy rest)
    (hcurrent : t.current = some (.broadcast message)) (hwire : t.actor.Wire message wire) :
    Works rest (publishConsensusWire wire) t := by
  refine reaches_actor_bind ?_
  split
  · refine reaches_okOr_bind fun _ _ => ReflTransGen.single ?_
    exact busyMove_work h (.broadcast t message wire hcurrent hwire)
      ⟨⟨h.driving.role, h.driving.current, h.driving.live⟩, h.effects⟩
  · exact .pure _

theorem works_broadcastConsensus (message : SignedMessage) (h : t.Busy rest)
    (hcurrent : t.current = some (.broadcast message)) :
    Works rest (broadcastConsensus message) t := by
  cases message with
  | proposal p =>
      refine reaches_actor_bind <| reaches_okOr_bind fun block hblock => ?_
      exact works_publish h hcurrent (.proposal hblock)
  | vote v => exact works_publish h hcurrent .vote

omit [Formats] in
theorem reading_buildConsensusProposal (round : Round) (validBlock : Option BlockId) :
    Reading (buildConsensusProposal round validBlock) := by
  refine reading_actor.bind fun a => ?_
  split
  · exact reading_pure _
  · refine (reading_okOr _ _).bind fun key => (reading_ask _).bind fun time => ?_
    exact reading_orFail _ _

omit [Formats] in
/-- The block that is proposed. -/
theorem buildConsensusProposal_eq_ok {round : Round} {validBlock : Option BlockId} {block : Block}
    {u : Turn} (h : buildConsensusProposal round validBlock t = .ok block u) :
    t.actor.Proposes round validBlock block := by
  obtain ⟨a, _, ha, h⟩ := bind_eq_ok.1 h
  cases ha
  cases hvalid : validBlock.bind (t.actor.proposalBlocks[·]?) with
  | some b =>
      rw [hvalid] at h
      obtain ⟨rfl, rfl⟩ := pure_eq_ok.1 h
      obtain ⟨id, hid, hknown⟩ := Option.bind_eq_some_iff.1 hvalid
      exact .again id hid hknown
  | none =>
      rw [hvalid] at h
      obtain ⟨key, _, hkey', h⟩ := bind_eq_ok.1 h
      obtain ⟨hkey, rfl⟩ := okOr_eq_ok.1 hkey'
      obtain ⟨time, v, htime, h⟩ := bind_eq_ok.1 h
      obtain ⟨hblock, rfl⟩ := orFail_eq_ok.1 h
      exact .fresh hvalid key time hkey hblock

theorem works_performEffect (effect : Effect) (h : t.Busy rest) (hcurrent : t.current = some effect) :
    Works rest (performEffect effect) t := by
  cases effect with
  | requestProposal height round validBlock validRound =>
      refine reaches_actor_bind ?_
      refine (reading_buildConsensusProposal _ _).works_bind fun block asked os hblock => ?_
      have hsaid := h.said asked os
      have hproposes := buildConsensusProposal_eq_ok hblock
      let u := (t.said asked os).withActor (t.actor.learn block)
      have hlearn : Turn.BusyMove rest (t.said asked os) u :=
        busyMove_work hsaid (.propose (t.said asked os) height round validBlock validRound block
          hcurrent hproposes) (hsaid.learn block)
      refine ReflTransGen.head hlearn (works_pushEvent (hsaid.learn block) ?_)
      refine .ready u height round validBlock validRound block hcurrent ?_
      exact Std.ExtTreeMap.getElem?_insert_self
  | persistBeforeBroadcast message safetyState =>
      have hsign := works_signAndPersist message safetyState h hcurrent
      refine hsign.bind fun signed u hu => ?_
      obtain ⟨row, signature, hrow, hstored, rfl, -⟩ := signAndPersist_eq_ok hu
      exact works_pushEvent (hsign.busy h hu)
        (.acknowledge u message safetyState row signature hrow hstored)
  | broadcast message => exact works_broadcastConsensus message h hcurrent
  | scheduleTimeout timeout => exact (reading_record (o := .timer timeout) trivial).works t
  | finalize finalization => exact works_finalizeBlock finalization h.driving.live
  | evidence evidence => exact works_appendConsensusEvent h _ _

/-! ## The loop -/

/-- The computation takes steps of the node and leaves it a validator that takes part in
consensus. -/
def Drives (x : NodeM α) (t : Turn) : Prop :=
  Reaches (fun t t' => Turn.Move t t' ∧ t'.Driving) x t

theorem Works.drives (h : t.Busy rest) (hx : Works rest x t) : Drives x t := by
  have hpath : ∀ {u}, ReflTransGen (Turn.BusyMove rest) t u →
      ReflTransGen (fun t t' => Turn.Move t t' ∧ t'.Driving) t u := by
    intro u hu
    induction hu with
    | refl => exact .refl
    | tail hu hlast ih => exact ih.tail ⟨hlast.1, (hlast.2 (h.of_reaches hu)).driving⟩
  exact hpath hx

theorem Drives.driving (h : t.Driving) (hx : Drives x t) {a : α} {u : Turn} (hu : x t = .ok a u) :
    u.Driving := by
  rw [Drives, Reaches, hu] at hx
  rcases hx.cases_tail with rfl | ⟨_, -, -, hlast⟩
  · exact h
  · exact hlast

theorem Drives.moves (hx : Drives x t) : Reaches Turn.Move x t :=
  reaches_mono (fun _ _ h => h.1) hx

theorem drives_performEffects {effects : List Effect} (h : t.Driving) (ht : t.effects = effects) :
    Drives (performEffects effects) t := by
  induction effects generalizing t with
  | nil => exact .pure _
  | cons effect rest ih =>
      let u : Turn := { t with current := some effect, effects := rest }
      have hu : u.Busy rest := ⟨⟨h.role, h.current, h.live⟩, rfl⟩
      refine ReflTransGen.head ⟨.work h (.take t effect rest ht), hu.driving⟩ ?_
      have hperform := works_performEffect effect hu rfl
      refine Reaches.bind (hperform.drives hu) fun _ v hv => ?_
      have hv := hperform.busy hu hv
      exact ih hv.driving hv.effects

omit [Formats] in
/-- Without an engine nothing happens, and otherwise the engine takes a step, which can be refused. -/
theorem stepConsensus_cases (event : Event) (events : List Event) (t : Turn) :
    (t.actor.consensus = none ∧ ∃ e, stepConsensus event events t = .error e t) ∨
    ∃ consensus result next, t.actor.consensus = some consensus ∧
      consensus.step event t.actor.messageValidator.validator = (result, next) ∧
      stepConsensus event events t =
        orFail (fun e => .context "consensus state transition failed" (.consensus e)) result
          { t with
            actor := { t.actor with consensus := some next }
            events := events
            current := none
            effects := result.toOption.getD [] } := by
  cases hc : t.actor.consensus with
  | none =>
      refine .inl ⟨rfl, .message "validator consensus driver is missing", ?_⟩
      refine bind_eq_error.2 (.inr ⟨t.actor, t, rfl, bind_eq_error.2 (.inl ?_)⟩)
      exact okOr_eq_error.2 ⟨hc, rfl, rfl⟩
  | some consensus =>
      refine .inr ⟨consensus, _, _, rfl, rfl, ?_⟩
      refine (bind_of_ok (rfl : actor t = .ok t.actor t)).trans ?_
      exact bind_of_ok (okOr_eq_ok.2 ⟨hc, rfl⟩)

theorem drives_stepConsensus {event : Event} {events : List Event} (h : t.Driving)
    (ht : t.events = event :: events) : Drives (stepConsensus event events) t ∧
      ∀ effects u, stepConsensus event events t = .ok effects u → u.effects = effects := by
  rcases stepConsensus_cases event events t with ⟨-, e, hrun⟩ |
    ⟨consensus, result, next, hc, hstep, hrun⟩
  · refine ⟨?_, fun effects u hu => nomatch hrun.symm.trans hu⟩
    rw [Drives, Reaches, hrun]
    exact .refl
  · have hmove := Turn.Work.step t event events consensus ht hc
    rw [hstep] at hmove
    refine ⟨?_, fun effects v hv => ?_⟩
    · rw [Drives, Reaches, hrun, readOnly_orFail]
      exact .single ⟨.work h hmove, h.role, h.current, h.live⟩
    · obtain ⟨hresult, rfl⟩ := orFail_eq_ok.1 (hrun.symm.trans hv)
      rw [hresult]
      rfl

theorem drives_drive (fuel : Nat) (h : t.Driving) : Drives (drive fuel) t := by
  induction fuel generalizing t with
  | zero => exact .of_readOnly (readOnly_throw _)
  | succ fuel ih =>
      refine .get_bind ?_
      split
      · exact .pure _
      · next event events ht =>
          obtain ⟨hstep, heffects⟩ := drives_stepConsensus h ht
          refine Reaches.bind hstep fun effects u hu => ?_
          have hdriving := hstep.driving h hu
          have hperform := drives_performEffects hdriving (heffects effects u hu)
          exact Reaches.bind hperform fun _ v hv => ih (hperform.driving hdriving hv)

theorem drive_nil (h : t.events = []) (fuel : Nat) : drive (fuel + 1) t = .ok () t := by
  refine (bind_of_ok (rfl : (get : NodeM Turn) t = .ok t t)).trans ?_
  rw [h]
  rfl

theorem drive_cons {event : Event} {events : List Event} (h : t.events = event :: events)
    (fuel : Nat) : drive (fuel + 1) t = (stepConsensus event events >>= fun effects =>
      performEffects effects >>= fun _ => drive fuel) t := by
  refine (bind_of_ok (rfl : (get : NodeM Turn) t = .ok t t)).trans ?_
  rw [h]

/-- What the engine keeps when it handles an event, and the effects it returns keep, is kept by the
driver. -/
theorem drive_kept {Q : Turn → Prop}
    (hstep : ∀ {t : Turn} {event : Event} {rest : List Event}, Q t → t.events = event :: rest →
      Q (stepConsensus event rest t).state ∧ ∀ effects u,
        stepConsensus event rest t = .ok effects u → Q u → Q (performEffects effects u).state)
    (fuel : Nat) (h : Q t) : Q (drive fuel t).state := by
  induction fuel generalizing t with
  | zero => exact h
  | succ fuel ih =>
      cases hevents : t.events with
      | nil =>
          rw [drive_nil hevents]
          exact h
      | cons event rest =>
          obtain ⟨hengine, heffects⟩ := hstep h hevents
          rw [drive_cons hevents]
          refine kept_bind hengine fun effects u hu hq => ?_
          exact kept_bind (heffects effects u hu hq) fun _ v _ hv => ih hv

/-- An event is handled, or the node takes no part in consensus. -/
theorem processConsensusEvent_cases (event : Event) (t : Turn) :
    processConsensusEvent event t = .ok () t ∨
    processConsensusEvent event t =
      drive t.env.fuel { t with events := [event], current := none, effects := [] } := by
  by_cases hguard : t.actor.config.role ≠ .validator ∨ t.actor.syncTarget.isSome ∨ t.actor.halted
  · exact .inl (congrFun (if_pos hguard) t)
  · exact .inr (congrFun (if_neg hguard) t)

omit [Primitives] [Formats] in
/-- What the consensus handlers check first. -/
theorem driving_of_not (h : ¬(t.actor.config.role ≠ .validator ∨ t.actor.syncTarget.isSome ∨
    t.actor.halted)) : t.Driving := by
  simp only [not_or, not_not, Bool.not_eq_true] at h
  exact ⟨h.1, Option.isNone_iff_eq_none.1 (Option.isSome_eq_false_iff.1 h.2.1), h.2.2⟩

theorem Works.moves (hx : Works rest x t) : Reaches Turn.Move x t :=
  reaches_mono (fun _ _ h => h.1) hx

theorem moves_commitFinalized (block : Block) (certificate : CommitCertificate) (gossip : Bool)
    (live : t.actor.halted = false) :
    Reaches Turn.Move (commitFinalized block certificate gossip) t := by
  have hworks : Works [] (commitFinalized block certificate gossip) t :=
    works_commitFinalized block certificate gossip live
  exact Works.moves hworks

theorem moves_resetConsensus : Reaches Turn.Move resetConsensus t := by
  have hworks : Works [] resetConsensus t := works_resetConsensus
  exact Works.moves hworks

theorem drives_receiveProposal (signed : SignedProposal) (block : Block) (h : t.Driving)
    (hheight : signed.proposal.height = t.actor.ledger.height + 1)
    (hid : block.consensusHash = signed.proposal.blockId) :
    Drives (receiveProposal signed block) t := by
  have hb : t.Busy t.effects := ⟨h, rfl⟩
  refine reaches_actor_bind <| .ensure_bind fun hknown => reaches_okOr_bind fun consensus hc => ?_
  refine reaches_orFail_bind fun cacheable hcacheable => ?_
  split
  · next hkeep =>
      refine .lift_bind fun row hrow => ?_
      have hpreflight : consensus.preflightMessage (NodeMessageValidator.validator ⟨t.actor.ledger,
          t.actor.proposalBlocks.insert signed.proposal.blockId block, t.actor.validatorIds⟩)
          (.proposal signed) = .ok true := by
        rw [hcacheable, hkeep]
      refine Works.drives hb ?_
      have hstore : Works t.effects (writeStore fun s =>
          (s.persistConsensusProposal row).map ((), ·)) t := works_writeStore hb
        fun asked _ store hs => .receive (t.said asked []) signed block row store
          ⟨hheight, hid, hknown, consensus, hc, hpreflight⟩ hrow ((Except.map_pair_eq_ok.1 hs).1)
      refine hstore.bind fun _ u hu => ?_
      have hbusy := hstore.busy hb hu
      obtain ⟨asked, store, hs, rfl⟩ := writeStore_eq_ok hu
      let u := (t.said asked []).stored store
      have hlearn : Works t.effects (update fun a => { a with
          proposalBlocks := a.proposalBlocks.insert signed.proposal.blockId block }) u := by
        rw [← hid]
        refine works_update hbusy ?_ (hbusy.learn block)
        exact .learn u signed block row ⟨hheight, hid, hknown, consensus, hc, hpreflight⟩ hrow
          (Store.persistConsensusProposal_again ((Except.map_pair_eq_ok.1 hs).1))
      exact hlearn.bind fun _ _ _ => .pure _
  · exact .pure _

end NodeM

end KCoin
