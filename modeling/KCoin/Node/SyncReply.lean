import KCoin.Node.CatchUp

/-!
# What the answer of a peer can change

The blocks of an answer are imported one after the other, up to the first that fails, and they have
consecutive heights after the ledger. So the ledger is extended by some of the first blocks of the
answer (`Turn.Extends`), whether the import returns or fails, and by none unless the answer belongs to
the request that is waited for (`NodeM.sync_reply_frame`).
-/

open Relation EStateM Borsh

namespace KCoin

/-! ## Extending the ledger -/

section
variable [Primitives]

namespace Turn

/-- The ledger, the store and the validators are the same. -/
structure SameFinality (t t' : Turn) : Prop where
  ledger : t'.actor.ledger = t.actor.ledger
  store : t'.actor.store = t.actor.store
  validatorIds : t'.actor.validatorIds = t.actor.validatorIds

/-- The ledger is extended by the blocks of some certified records, and is as it was, as the store is,
if there are none. -/
structure Extends (t t' : Turn) (imported : List FinalizedWireRecord) : Prop where
  ledger : LedgerState.applyFinalizedBlocks t.actor.validatorIds
    (imported.map fun record => (record.block, record.certificate)) t.actor.ledger =
      .ok () t'.actor.ledger
  certificates : ∀ record ∈ imported,
    record.certificate.verifyForBlock record.block t.actor.validatorIds = .ok ()
  store : imported = [] → t'.actor.store = t.actor.store
  validatorIds : t'.actor.validatorIds = t.actor.validatorIds

variable {t u v : Turn} {imported : List FinalizedWireRecord}

omit [Primitives] in
theorem SameFinality.trans (h : t.SameFinality u) (h' : u.SameFinality v) : t.SameFinality v :=
  ⟨h'.ledger.trans h.ledger, h'.store.trans h.store, h'.validatorIds.trans h.validatorIds⟩

omit [Primitives] in
theorem SameFinality.of_path (h : ReflTransGen SameFinality t u) : t.SameFinality u := by
  induction h with
  | refl => exact ⟨rfl, rfl, rfl⟩
  | tail _ hstep ih => exact ih.trans hstep

theorem Quiet.sameFinality (h : t.Quiet u) : t.SameFinality u :=
  ⟨h.sameCore.ledger, h.sameCore.store, h.sameCore.validatorIds⟩

theorem SameFinality.of_quiet (h : ReflTransGen Quiet t u) : t.SameFinality u :=
  .of_path (ReflTransGen.mono (fun _ _ => Quiet.sameFinality) _ _ h)

theorem SameFinality.extends (h : t.SameFinality u) : t.Extends u [] where
  ledger := by rw [h.ledger]; rfl
  certificates := nofun
  store _ := h.store
  validatorIds := h.validatorIds

/-- What follows an extension and keeps the ledger keeps the extension. -/
theorem Extends.same (h : t.Extends u imported) (h' : u.SameFinality v) : t.Extends v imported where
  ledger := by rw [h'.ledger]; exact h.ledger
  certificates := h.certificates
  store hnil := h'.store.trans (h.store hnil)
  validatorIds := h'.validatorIds.trans h.validatorIds

/-- One block, and then others. -/
theorem Extends.cons {record : FinalizedWireRecord} (h : t.Extends u [record])
    (h' : u.Extends v imported) : t.Extends v (record :: imported) where
  ledger := by
    have hrest := h'.ledger
    rw [h.validatorIds] at hrest
    exact LedgerState.applyFinalizedBlocks_append.2 ⟨u.actor.ledger, h.ledger, hrest⟩
  certificates r hr := by
    rcases List.mem_cons.1 hr with rfl | hr
    · exact h.certificates r List.mem_cons_self
    · rw [← h.validatorIds]
      exact h'.certificates r hr
  store := nofun
  validatorIds := h'.validatorIds.trans h.validatorIds

end Turn

end

/-! ## The import of a batch -/

section
variable [Primitives] [Formats] {t : Turn}

namespace NodeM

omit [Formats] in
theorem sameFinality_resetConsensus : t.SameFinality (resetConsensus t).state :=
  .of_path <| reaches_resetConsensus ⟨rfl, rfl, rfl⟩ fun _ _ _ _ _ _ _ _ => ⟨rfl, rfl, rfl⟩

/-- The import of the next block fails and changes nothing, or the ledger has the block, whatever
happens after the commit. -/
theorem importNext_extends (record : FinalizedWireRecord) :
    ((importNext record t).isOk = false ∧ t.SameFinality (importNext record t).state) ∨
      t.Extends (importNext record t).state [record] := by
  rcases commitFinalized_cases record.block record.certificate false t with
    ⟨e, asked, os, -, herror⟩ |
    ⟨receipts, candidate, store, asked, os, asked', os', lastBlockAt, -, -, hcommits, hstate, hok⟩
  · have hrun : importNext record t = .error e (t.said asked os) := bind_eq_error.2 (.inl herror)
    rw [hrun]
    exact .inl ⟨rfl, rfl, rfl, rfl⟩
  · right
    have hrun : importNext record t = (resetConsensus >>= fun _ => finishSyncIfCurrent)
        (commitFinalized record.block record.certificate false t).state :=
      bind_of_ok (Result.eq_of_isOk (hok rfl))
    have hcommit : t.Extends (commitFinalized record.block record.certificate false t).state
        [record] := by
      rw [hstate]
      refine ⟨?_, fun r hr => ?_, nofun, rfl⟩
      · exact LedgerState.applyFinalizedBlocks_singleton.2 ⟨receipts, hcommits.ledger⟩
      · obtain rfl := List.mem_singleton.1 hr
        exact (LedgerState.applyFinalizedBlock_eq_ok.1 hcommits.ledger).1
    rw [hrun]
    generalize (commitFinalized record.block record.certificate false t).state = u at hcommit
    refine hcommit.same (.of_path ?_)
    exact Reaches.bind (.single sameFinality_resetConsensus) fun _ v _ =>
      reaches_mono (fun _ _ => Turn.Quiet.sameFinality) quiet_finishSyncIfCurrent

/-- A record that a node does not accept changes nothing. -/
theorem importFinalized_cases (record : FinalizedWireRecord) (source : Option PeerId) (t : Turn) :
    (∃ e, importFinalized record source t = .error e t) ∨
      t.actor.halted = false ∧ t.actor.Accepts record := by
  let P : Result NodeError Turn Unit → Prop := fun r =>
    (∃ e, r = .error e t) ∨ t.actor.halted = false ∧ t.actor.Accepts record
  have error : ∀ e, P (.error e t) := fun e => .inl ⟨e, rfl⟩
  change P (importFinalized record source t)
  refine readOnly_actor.bind_elim error fun a ha => ?_
  obtain rfl := (Result.ok.inj ha).1
  refine (readOnly_ensure _).bind_elim error fun _ live => ?_
  refine (readOnly_ensure _).bind_elim error fun _ hchain => ?_
  refine (readOnly_orFail _ _).bind_elim error fun _ hcommitments => ?_
  refine (readOnly_orFail _ _).bind_elim error fun _ hcertificate => .inr ⟨?_, ?_, ?_, ?_⟩
  · exact (ensure_eq_ok.1 live).1
  · exact (ensure_eq_ok.1 hchain).1
  · exact (orFail_eq_ok.1 hcommitments).1
  · exact (orFail_eq_ok.1 hcertificate).1

/-- The import of a record of the next height fails and changes nothing, or extends the ledger by the
record. -/
theorem importFinalized_extends {record : FinalizedWireRecord}
    (hnext : record.block.header.height.toNat = t.actor.ledger.height.toNat + 1) :
    ((importFinalized record none t).isOk = false ∧
        t.SameFinality (importFinalized record none t).state) ∨
      t.Extends (importFinalized record none t).state [record] := by
  rcases importFinalized_cases record none t with ⟨e, he⟩ | ⟨live, haccepts⟩
  · rw [he]
    exact .inl ⟨rfl, rfl, rfl, rfl⟩
  · have hlt : ¬record.block.header.height ≤ t.actor.ledger.height := by
      rw [UInt64.le_iff_toNat_le]
      omega
    have hheight : record.block.header.height = t.actor.ledger.height + 1 := by
      have hbound := record.block.header.height.toNat_lt
      refine UInt64.toNat_inj.1 ?_
      rw [UInt64.toNat_add, hnext]
      exact (Nat.mod_eq_of_lt (hnext ▸ hbound)).symm
    rw [(importFinalized_accepts none live haccepts).2 hlt hheight]
    exact importNext_extends record

/-- Records of consecutive heights are imported up to the first that fails. -/
theorem importRecords_extends {records : List FinalizedWireRecord} {expected : Nat}
    (hsequence : validateSyncRecords expected records = .ok ())
    (hexpected : expected = t.actor.ledger.height.toNat + 1) :
    ∃ imported, imported <+: records ∧ t.Extends (importRecords records t).state imported := by
  induction records generalizing t expected with
  | nil => exact ⟨[], List.prefix_refl _, Turn.SameFinality.extends ⟨rfl, rfl, rfl⟩⟩
  | cons record rest ih =>
      obtain ⟨_, -, hsequence⟩ := Except.bind_eq_ok.1 hsequence
      obtain ⟨_, hheight, hsequence⟩ := Except.bind_eq_ok.1 hsequence
      have hheight := Except.ensure_eq_ok.1 hheight
      have hcases := importFinalized_extends (hheight.trans hexpected)
      cases himport : importFinalized record none t with
      | error e u =>
          have hrun : importRecords (record :: rest) t = .error e u :=
            bind_eq_error.2 (.inl himport)
          rw [himport] at hcases
          rw [hrun]
          rcases hcases with ⟨-, hsame⟩ | hextends
          · exact ⟨[], List.nil_prefix, hsame.extends⟩
          · exact ⟨[record], List.prefix_append [record] rest, hextends⟩
      | ok _ u =>
          have hrun : importRecords (record :: rest) t = importRecords rest u :=
            bind_of_ok himport
          rw [himport] at hcases
          rw [hrun]
          rcases hcases with ⟨hfails, -⟩ | hextends
          · cases hfails
          · have hledger := (LedgerState.applyFinalizedBlocks_heights hextends.ledger).2
            change u.actor.ledger.height.toNat = _ + 1 at hledger
            obtain ⟨imported, hprefix, hrest⟩ := ih hsequence (by rw [hledger, hexpected])
            exact ⟨record :: imported, (List.prefix_cons_inj record).2 hprefix, hextends.cons hrest⟩

/-- A batch that starts after the ledger is imported up to the first record that fails. -/
theorem importBatch_extends (peer : PeerId) {fromHeight : UInt64} (records : List (List UInt8))
    (hfrom : fromHeight.toNat = t.actor.ledger.height.toNat + 1) :
    ∃ imported, t.Extends (importBatch peer fromHeight records t).state imported ∧
      (imported ≠ [] → ∃ decoded, records.mapM (tryFromSlice FinalizedWireRecord) = some decoded ∧
        imported <+: decoded) := by
  let P : Result NodeError Turn Unit → Prop := fun r => ∃ imported, t.Extends r.state imported ∧
    (imported ≠ [] → ∃ decoded, records.mapM (tryFromSlice FinalizedWireRecord) = some decoded ∧
      imported <+: decoded)
  have error : ∀ e, P (.error e t) := fun e =>
    ⟨[], Turn.SameFinality.extends ⟨rfl, rfl, rfl⟩, fun hne => absurd rfl hne⟩
  change P (importBatch peer fromHeight records t)
  refine (readOnly_okOr _ _).bind_elim error fun decoded hdecode => ?_
  refine readOnly_actor.bind_elim error fun before _ => ?_
  refine (readOnly_lift _).bind_elim error fun _ hsequence => ?_
  obtain ⟨first, hfirst, hsequence⟩ := Except.bind_eq_ok.1 (lift_eq_ok.1 hsequence).1
  have hheight : fromHeight = t.actor.ledger.height + 1 := by
    have hbound := fromHeight.toNat_lt
    refine UInt64.toNat_inj.1 ?_
    rw [UInt64.toNat_add, hfrom]
    exact (Nat.mod_eq_of_lt (hfrom ▸ hbound)).symm
  have hbefore : fromHeight - min fromHeight 1 = t.actor.ledger.height := by
    rw [hheight]
    exact succ_sub_min_one (hheight ▸ hfrom)
  have hfirst := checkedAdd_eq_some.1 (Except.okOr_eq_ok.1 hfirst)
  rw [hbefore] at hfirst
  obtain ⟨imported, hprefix, himported⟩ := importRecords_extends hsequence hfirst
  refine ⟨imported, ?_, fun _ => ⟨decoded, (okOr_eq_ok.1 hdecode).1, hprefix⟩⟩
  cases himport : importRecords decoded t with
  | error e u =>
      rw [himport] at himported
      rw [bind_eq_error.2 (.inl himport)]
      exact himported
  | ok _ u =>
      rw [himport] at himported
      rw [bind_of_ok himport]
      refine himported.same (.of_quiet ?_)
      refine reaches_actor_bind <| .ensure_bind fun _ => ?_
      exact (reading_publishValidatorStatus.reaches u).bind fun _ v _ => quiet_continueSync peer

end NodeM

/-! ## Answers -/

omit [Primitives] [Formats] in
/-- The records are those the node waits for: they come from the selected peer, for the active
request, which starts after the ledger, and there are no more than it asks for. -/
structure NodeActor.Expects (a : NodeActor) (peer : PeerId) (intent : OutboundSyncIntent)
    (limit : UInt16) (records : List (List UInt8)) : Prop where
  sender : peer = intent.peer
  selected : a.syncPeer = some peer
  active : a.syncRequestId = some intent.requestId
  behind : a.syncTarget.isSome
  range : ∃ fromHeight, intent.request = .blocks fromHeight limit ∧
    fromHeight.toNat = a.ledger.height.toNat + 1
  fits : records.length ≤ limit.toNat

omit [Primitives] [Formats] in
/-- What passes the check of its intent with blocks is what the node waits for. -/
theorem expects_of_validate {a : NodeActor} {peer : PeerId} {intent : OutboundSyncIntent}
    {fromHeight : UInt64} {limit : UInt16} {records : List (List UInt8)}
    (hrequest : intent.request = .blocks fromHeight limit)
    (h : validateSyncResponseIntent peer intent (.blocks records) a.syncRequestId a.syncPeer
      a.syncTarget.isSome a.ledger.height = .ok ()) : a.Expects peer intent limit records := by
  unfold validateSyncResponseIntent at h
  rw [hrequest] at h
  obtain ⟨_, hpeer, h⟩ := Except.bind_eq_ok.1 h
  obtain ⟨_, hbehind, h⟩ := Except.bind_eq_ok.1 h
  obtain ⟨_, hactive, h⟩ := Except.bind_eq_ok.1 h
  obtain ⟨_, hselected, h⟩ := Except.bind_eq_ok.1 h
  obtain ⟨next, hnext, h⟩ := Except.bind_eq_ok.1 h
  obtain ⟨_, hfrom, h⟩ := Except.bind_eq_ok.1 h
  obtain ⟨_, -, hfits⟩ := Except.bind_eq_ok.1 h
  refine ⟨Except.ensure_eq_ok.1 hpeer, Except.ensure_eq_ok.1 hselected,
    Except.ensure_eq_ok.1 hactive, Except.ensure_eq_ok.1 hbehind, ⟨fromHeight, hrequest, ?_⟩,
    Except.ensure_eq_ok.1 hfits⟩
  rw [Except.ensure_eq_ok.1 hfrom]
  exact checkedAdd_eq_some.1 (Except.okOr_eq_ok.1 hnext)

namespace NodeM

/-- An answer changes nothing, or it is a batch that the node waits for. -/
theorem handleSyncResponse_cases (t : Turn) (peer : PeerId) (intent : OutboundSyncIntent)
    (response : SyncResponse) :
    t.SameFinality (handleSyncResponse peer intent response t).state ∨
      ∃ limit records decoded imported, response = .blocks records ∧
        t.actor.Expects peer intent limit records ∧
        records.mapM (tryFromSlice FinalizedWireRecord) = some decoded ∧ imported <+: decoded ∧
        t.Extends (handleSyncResponse peer intent response t).state imported := by
  let P : Result NodeError Turn Unit → Prop := fun r => t.SameFinality r.state ∨
    ∃ limit records decoded imported, response = .blocks records ∧
      t.actor.Expects peer intent limit records ∧
      records.mapM (tryFromSlice FinalizedWireRecord) = some decoded ∧ imported <+: decoded ∧
      t.Extends r.state imported
  have error : ∀ e, P (.error e t) := fun e => .inl ⟨rfl, rfl, rfl⟩
  change P (handleSyncResponse peer intent response t)
  refine readOnly_actor.bind_elim error fun a ha => ?_
  obtain rfl := (Result.ok.inj ha).1
  refine (readOnly_lift _).bind_elim error fun _ hvalid => ?_
  have hvalid := (lift_eq_ok.1 hvalid).1
  cases hrequest : intent.request with
  | status =>
      cases response with
      | status height blockHash stateRoot syncing tip =>
          -- a status starts a synchronization at most
          refine .inl (.of_quiet ?_)
          change Reaches Turn.Quiet (if _ then _ else _ : NodeM Unit) t
          split
          · exact quiet_handleHigherStatus ..
          · exact .pure _
      | blocks records => exact error _
      | error code message => exact error _
  | blocks fromHeight limit =>
      cases response with
      | status height blockHash stateRoot syncing tip => exact error _
      | blocks records =>
          have hexpects := expects_of_validate hrequest hvalid
          obtain ⟨fromHeight', hrequest', hfrom⟩ := hexpects.range
          obtain ⟨rfl, -⟩ := SyncRequest.blocks.inj (hrequest.symm.trans hrequest')
          change P ((if _ then _ else _ : NodeM Unit) t)
          split
          · exact .inl (.of_quiet (quiet_handleEmptyBatch peer))
          · obtain ⟨imported, hextends, hprefix⟩ := importBatch_extends peer records hfrom
            cases imported with
            | nil =>
                refine .inl ⟨?_, hextends.store rfl, hextends.validatorIds⟩
                exact (Result.ok.inj hextends.ledger).2.symm
            | cons record rest =>
                obtain ⟨decoded, hdecode, hprefix⟩ := hprefix (List.cons_ne_nil _ _)
                exact .inr ⟨limit, records, decoded, _, rfl, hexpects, hdecode, hprefix, hextends⟩
      | error code message => exact error _

/-- If an answer changes the ledger, then it is a batch that the node waits for, and the ledger is
extended by some of the first records of the batch, each with a verified certificate, no matter whether
the import of the others fails. Any other answer leaves the ledger and the store as they are. -/
theorem sync_reply_frame (t : Turn) (peer : PeerId) (intent : OutboundSyncIntent)
    (response : SyncResponse) :
    ((handleSyncResponse peer intent response t).state.actor.ledger ≠ t.actor.ledger →
      ∃ limit records decoded imported, response = .blocks records ∧
        t.actor.Expects peer intent limit records ∧
        records.mapM (tryFromSlice FinalizedWireRecord) = some decoded ∧ imported <+: decoded ∧
        imported.length ≤ limit.toNat ∧
        (∀ record ∈ imported,
          record.certificate.verifyForBlock record.block t.actor.validatorIds = .ok ()) ∧
        LedgerState.applyFinalizedBlocks t.actor.validatorIds
          (imported.map fun record => (record.block, record.certificate)) t.actor.ledger =
            .ok () (handleSyncResponse peer intent response t).state.actor.ledger) ∧
    ((¬∃ limit records, response = .blocks records ∧ t.actor.Expects peer intent limit records) →
      (handleSyncResponse peer intent response t).state.actor.ledger = t.actor.ledger ∧
      (handleSyncResponse peer intent response t).state.actor.store = t.actor.store) := by
  rcases handleSyncResponse_cases t peer intent response with hsame |
    ⟨limit, records, decoded, imported, hresponse, hexpects, hdecode, hprefix, hextends⟩
  · exact ⟨fun hne => absurd hsame.ledger hne, fun _ => ⟨hsame.ledger, hsame.store⟩⟩
  · refine ⟨fun _ => ⟨limit, records, decoded, imported, hresponse, hexpects, hdecode, hprefix, ?_,
      hextends.certificates, hextends.ledger⟩, fun hnone => ?_⟩
    · calc imported.length ≤ decoded.length := hprefix.length_le
        _ = records.length := Option.length_of_mapM hdecode
        _ ≤ limit.toNat := hexpects.fits
    · exact absurd ⟨limit, records, hresponse, hexpects⟩ hnone

end NodeM

end

end KCoin
