import KCoin.Protocol.Binding
import KCoin.Protocol.Codec

/-!
# What is validated or built can be applied

A transaction is applied exactly when it is validated, and a call that fails leaves the ledger as it
was (`validate_apply_agree`). A block that is built on a reachable ledger, at whatever requested
time, passes every check of `apply_block`: its timestamp is clamped to the bounds that are checked,
its transactions are far below the size limit, and both paths execute them alike
(`built_block_applies`).
-/

open Borsh

namespace KCoin.LedgerState

section
variable [Primitives] {s s' : LedgerState} {c : ChainId}

/-! ## Validation and application -/

/-- In a conserved state the application of a transaction returns what its validation returns. -/
theorem Conserved.agree (hs : s.Conserved) (t : SignedTransaction) (h : UInt64) :
    (∀ v, s.validateTransaction t h = .ok v ↔
      ∃ r s', applyTransaction t h s = .ok r s' ∧ v = ⟨r.transactionId, r.sender⟩) ∧
    ∀ e, s.validateTransaction t h = .error e ↔ applyTransaction t h s = .error e s := by
  have hreceipt : ∀ {r s'}, applyTransaction t h s = .ok r s' →
      s.validateTransaction t h = .ok ⟨r.transactionId, r.sender⟩ := by
    intro r s' hr
    obtain ⟨hv, ha⟩ := applyTransaction_eq_ok hr
    refine validateTransaction_eq_ok.2 ⟨hv, ?_⟩
    cases ha <;> rfl
  cases hv : s.validateTransaction t h with
  | ok v =>
      obtain ⟨r, s', hr⟩ := hs.applyTransaction_ok (validateTransaction_eq_ok.1 hv).1
      have hrv : v = ⟨r.transactionId, r.sender⟩ := Except.ok.inj (hv.symm.trans (hreceipt hr))
      refine ⟨fun w => ⟨?_, ?_⟩, fun e => ⟨nofun, fun he => nomatch hr.symm.trans he⟩⟩
      · rintro ⟨⟩
        exact ⟨r, s', hr, hrv⟩
      · rintro ⟨r', s'', hr', rfl⟩
        exact hv.symm.trans (hreceipt hr')
  | error e =>
      have herror : applyTransaction t h s = .error e s := by
        refine (EStateM.bind_of_ok rfl).trans (EStateM.bind_eq_error.2 (.inl ?_))
        exact EStateM.lift_eq_error.2 ⟨hv, rfl⟩
      refine ⟨fun w => ⟨nofun, ?_⟩, fun e' => ⟨?_, fun he => ?_⟩⟩
      · rintro ⟨r, s', hr, -⟩
        exact nomatch herror.symm.trans hr
      · rintro ⟨⟩
        exact herror
      · cases herror.symm.trans he
        rfl

/-- In every reachable state a transaction is applied exactly when it is validated, with the same
identity and sender, and otherwise both fail with the same error. In any state whatever, a
transaction or a block that fails leaves it as it was. -/
theorem validate_apply_agree :
    (∀ c s, Reachable c s → ∀ t h,
      (∀ v, s.validateTransaction t h = .ok v ↔
        ∃ r s', applyTransaction t h s = .ok r s' ∧ v = ⟨r.transactionId, r.sender⟩) ∧
      ∀ e, s.validateTransaction t h = .error e ↔ applyTransaction t h s = .error e s) ∧
    (∀ t h s e s', applyTransaction t h s = .error e s' → s' = s) ∧
    ∀ b s e s', applyBlock b s = .error e s' → s' = s :=
  ⟨fun _ _ hs t h => hs.conserved.agree t h,
    fun t h s e s' he => atomic_applyTransaction t h s e s' he,
    fun b s e s' he => atomic_applyBlock b s e s' he⟩

/-! ## Built blocks -/

omit [Primitives] in
/-- The clamped timestamp is within the bounds that `apply_block` checks, whatever was requested:
the parent's timestamp is at most the ceiling, so it is itself within them. -/
theorem validTimestamp_normalized (hs : s.lastBlockTimestampMs ≤ maxBlockTimestampMs)
    (requestedMs : UInt64) : s.validTimestamp (s.normalizedProposalTimestamp requestedMs) := by
  have hstep : s.lastBlockTimestampMs ≤
      saturatingAdd s.lastBlockTimestampMs maxBlockTimestampStepMs := le_saturatingAdd ..
  unfold normalizedProposalTimestamp
  split
  · next hzero =>
      refine ⟨Std.min_le_right, fun hpos => ?_⟩
      rw [hzero] at hpos
      exact absurd hpos (by decide)
  · refine ⟨Std.min_le_right, fun _ => ⟨?_, ?_⟩⟩
    · exact Std.le_min_iff.2 ⟨Std.le_min_iff.2 ⟨right_le_max .., hstep⟩, hs⟩
    · exact Std.le_trans Std.min_le_left Std.min_le_right

/-- What every reachable state has of its chain and of its last block. -/
theorem Reachable.chain (h : Reachable c s) :
    s.chainId = c ∧ s.lastBlockTimestampMs ≤ maxBlockTimestampMs := by
  induction h with
  | new => exact ⟨rfl, UInt64.zero_le⟩
  | @transaction s t height _ ih =>
      cases ht : applyTransaction t height s with
      | ok r s' =>
          obtain ⟨hv, ha⟩ := applyTransaction_eq_ok ht
          obtain ⟨hc, -, -, hl⟩ := (ha.changes hv).fixed
          exact ⟨hc.trans ih.1, hl ▸ ih.2⟩
      | error e s' =>
          obtain rfl := atomic_applyTransaction t height s e s' ht
          exact ih
  | @block s b _ ih =>
      cases hb : applyBlock b s with
      | ok rs s' =>
          have ha := applyBlock_eq_ok.1 hb
          obtain ⟨c', hrun, rfl⟩ := ha.executed
          exact ⟨(changes_of_run hrun).fixed.1.trans ih.1, ha.timestamp.1⟩
      | error e s' =>
          obtain rfl := atomic_applyBlock b s e s' hb
          exact ih

omit [Primitives] in
/-- A block of few transactions is below the size limit. -/
theorem length_canonicalBytes_le {b : Block} (hc : b.header.chainId.validate = .ok ())
    (ht : ∀ t ∈ b.transactions, t.unsigned.validateShape = .ok ())
    (hlen : b.transactions.length ≤ 1000) : b.canonicalBytes.length ≤ maxBlockBytes := by
  have hchain := (Except.ensure_eq_ok.1 hc).2.1
  have hmany := length_encodeMany_le fun t h => SignedTransaction.length_canonicalBytes_le (ht t h)
  rw [Block.canonicalBytes, encode_block, List.length_append, length_encode_header, encode_list,
    List.length_append, length_leBytes]
  unfold maxChainIdBytes at hchain
  unfold maxBlockBytes
  omega

/-- Every transaction of a run is well-formed. -/
theorem validateShape_of_run {ts : List SignedTransaction} {height : UInt64}
    {rs : List TransactionReceipt} (h : applyTransactions ts height s = .ok rs s') :
    ∀ t ∈ ts, t.unsigned.validateShape = .ok () := by
  induction ts generalizing s rs with
  | nil => exact fun t ht => nomatch ht
  | cons t ts ih =>
      obtain ⟨r, s₁, rs', ht, hrest, rfl⟩ := applyTransactions_cons_eq_ok.1 h
      rintro u (_ | ⟨_, hu⟩)
      · exact SignedTransaction.shape_of_verifySignature (applyTransaction_eq_ok ht).1.verified
      · exact ih hrest u hu

/-- What a block that is built has, and that its transactions run. -/
theorem buildBlock_eq_ok {proposer : ValidatorId} {round : UInt32} {requestedMs : UInt64}
    {ts : List SignedTransaction} {b : Block} :
    s.buildBlock proposer round requestedMs ts = .ok b ↔
      ∃ height rs s', height.toNat = s.height.toNat + 1 ∧
        applyTransactions ts height s = .ok rs s' ∧
        b = Block.new s.chainId height s.tipHash proposer round
          (s.normalizedProposalTimestamp requestedMs)
          { s' with
            height
            lastBlockTimestampMs := s.normalizedProposalTimestamp requestedMs }.stateRoot ts := by
  simp only [buildBlock, Except.bind_eq_ok, Except.okOr_eq_ok, checkedAdd_eq_some]
  constructor
  · rintro ⟨height, hheight, hb⟩
    cases hrun : applyTransactions ts height s with
    | error e s' => simp [hrun] at hb
    | ok rs s' =>
        rw [hrun] at hb
        exact ⟨height, rs, s', hheight, hrun, (Except.ok.inj hb).symm⟩
  · rintro ⟨height, rs, s', hheight, hrun, rfl⟩
    refine ⟨height, hheight, ?_⟩
    rw [hrun]
    rfl

/-- A block that is built on a reachable ledger is applied by it. -/
theorem Reachable.applyBlock_of_buildBlock (hs : Reachable c s) (hc : c.validate = .ok ())
    {proposer : ValidatorId} {round : UInt32} {requestedMs : UInt64}
    {ts : List SignedTransaction} {b : Block} (hlen : ts.length ≤ 1000)
    (hb : s.buildBlock proposer round requestedMs ts = .ok b) :
    ∃ rs s', s.BlockApplied b rs s' ∧ rs.length = ts.length := by
  obtain ⟨hchain, htime⟩ := hs.chain
  obtain ⟨height, rs, s₁, hheight, hrun, rfl⟩ := buildBlock_eq_ok.1 hb
  have hvalid : s.chainId.validate = .ok () := hchain ▸ hc
  refine ⟨rs, _, ⟨?_, rfl, hheight, rfl, s.validTimestamp_normalized htime requestedMs,
    ⟨s₁, hrun, rfl⟩, rfl⟩, length_receipts hrun⟩
  refine Block.validateCommitments_eq_ok.2 ⟨?_, rfl, hvalid, rfl⟩
  exact length_canonicalBytes_le hvalid (validateShape_of_run hrun) hlen

theorem timestamp_of_buildBlock {proposer : ValidatorId} {round : UInt32} {requestedMs : UInt64}
    {ts : List SignedTransaction} {b : Block}
    (hb : s.buildBlock proposer round requestedMs ts = .ok b) :
    b.header.timestampMs = s.normalizedProposalTimestamp requestedMs := by
  obtain ⟨height, rs, s', -, -, rfl⟩ := buildBlock_eq_ok.1 hb
  rfl

/-- The construction of a block fails only as its transactions do. -/
theorem buildBlock_eq_error (hheight : s.height.toNat + 1 < 2 ^ 64) {proposer : ValidatorId}
    {round : UInt32} {requestedMs : UInt64} {ts : List SignedTransaction} {e : ValidationError} :
    s.buildBlock proposer round requestedMs ts = .error e ↔
      ∃ s', applyTransactions ts (s.height + 1) s = .error e s' := by
  have hnext : checkedAdd s.height 1 = some (s.height + 1) := if_pos hheight
  simp only [buildBlock, Except.bind_eq_error, Except.okOr_eq_error, Except.okOr_eq_ok, hnext]
  cases hrun : applyTransactions ts (s.height + 1) s with
  | error e' s' => simp [hrun]
  | ok rs s' => simp [hrun]

/-- A block built on a reachable ledger below the maximal height, of at most the transactions the
driver takes and at any requested time, is applied by this ledger: one receipt per transaction, the
state root and the hash of the block, the next height, and a timestamp within the bounds. The
construction fails only where executing the transactions does, so no parent's timestamp makes it
fail. -/
theorem built_block_applies (hs : Reachable c s) (hc : c.validate = .ok ())
    (hheight : s.height.toNat + 1 < 2 ^ 64) (proposer : ValidatorId) (round : UInt32)
    (requestedMs : UInt64) (ts : List SignedTransaction) (hlen : ts.length ≤ 1000) :
    (∀ b, s.buildBlock proposer round requestedMs ts = .ok b →
      ∃ receipts s', applyBlock b s = .ok receipts s' ∧
        receipts.length = ts.length ∧
        s'.stateRoot = b.header.stateRoot ∧
        s'.tipHash = b.hash ∧
        s'.height.toNat = s.height.toNat + 1 ∧
        s'.lastBlockTimestampMs ≤ maxBlockTimestampMs ∧
        (0 < s.height → s.lastBlockTimestampMs ≤ s'.lastBlockTimestampMs ∧
          s'.lastBlockTimestampMs.toNat ≤
            s.lastBlockTimestampMs.toNat + maxBlockTimestampStepMs.toNat)) ∧
    (∀ e, s.buildBlock proposer round requestedMs ts = .error e ↔
      ∃ s', applyTransactions ts (s.height + 1) s = .error e s') := by
  refine ⟨fun b hb => ?_, fun e => buildBlock_eq_error hheight⟩
  obtain ⟨rs, s', happ, hrs⟩ := hs.applyBlock_of_buildBlock hc hlen hb
  obtain ⟨c', hrun, rfl⟩ := happ.executed
  refine ⟨rs, _, applyBlock_eq_ok.2 happ, hrs, happ.root, rfl, happ.height, happ.timestamp.1,
    fun hpos => ⟨(happ.timestamp.2 hpos).1, ?_⟩⟩
  exact Nat.le_trans (UInt64.le_iff_toNat_le.1 (happ.timestamp.2 hpos).2) (saturatingAdd_le ..)

end

open scoped Sample in
/-- A claim that is validated and applied at height 1, and has expired at height 11. -/
theorem validate_apply_agree_claim_expired :
    let s := LedgerState.new Sample.chainId
    let claim := Sample.transaction 1 0 (.claimReward 0 (Challenge.forId 0).answer)
    (∃ r s', applyTransaction claim 1 s = .ok r s' ∧ claim.id = r.transactionId) ∧
      applyTransaction claim 11 s = .error (.expired 10 11) s := by
  intro s claim
  have hok : s.validateTransaction claim 1 = .ok ⟨claim.id, claim.senderAddress⟩ := by
    decide +kernel
  have hexpired : s.validateTransaction claim 11 = .error (.expired 10 11) := by decide +kernel
  have hs : Reachable Sample.chainId s := .new
  obtain ⟨r, s', hr, hv⟩ := ((validate_apply_agree.1 _ s hs claim 1).1 _).1 hok
  exact ⟨⟨r, s', hr, congrArg ValidatedTransaction.id hv⟩,
    ((validate_apply_agree.1 _ s hs claim 11).2 _).1 hexpired⟩

open scoped Sample in
/-- A second block, requested for the end of time: it is built for one step after the first block
and is applied. -/
theorem built_block_applies_far_future :
    let s := (applyBlock (Sample.firstBlock 1000) (LedgerState.new Sample.chainId)).state
    let proposer := ValidatorId.fromSigningKey (Sample.key 1)
    ∃ b receipts s', s.buildBlock proposer 3 (UInt64.ofNat (2 ^ 64 - 1)) [] = .ok b ∧
      applyBlock b s = .ok receipts s' ∧ receipts.length = 0 ∧ s'.height.toNat = 2 ∧
      b.header.timestampMs = 61000 := by
  intro s proposer
  have hs : Reachable Sample.chainId s := .block _ .new
  obtain ⟨b, hb⟩ : ∃ b, s.buildBlock proposer 3 (UInt64.ofNat (2 ^ 64 - 1)) [] = .ok b :=
    ⟨_, buildBlock_eq_ok.2 ⟨2, [], s, by decide +kernel, rfl, rfl⟩⟩
  have hcall := built_block_applies hs (by decide +kernel) (by decide +kernel) proposer 3
    (UInt64.ofNat (2 ^ 64 - 1)) [] (by decide)
  obtain ⟨receipts, s', happ, hlen, -, -, hheight, -, -⟩ := hcall.1 b hb
  have hone : s.height.toNat = 1 := by decide +kernel
  have htime : s.normalizedProposalTimestamp (UInt64.ofNat (2 ^ 64 - 1)) = 61000 := by
    decide +kernel
  exact ⟨b, receipts, s', hb, happ, hlen, by omega, (timestamp_of_buildBlock hb).trans htime⟩

end KCoin.LedgerState
