import KCoin.Protocol.Binding

/-!
# Replay protection

Along any run of calls that succeed, of single transactions and of blocks, the transactions that an
address sent carry the nonces from zero on, in this order and without a gap; no transaction is
applied twice, and there are as many applied transactions as nonces that were used
(`replay_protected`). An account that was only ever a recipient has used none.
-/

namespace KCoin.LedgerState

section
variable [Primitives]

/-! ## Calls -/

/-- A call that executes transactions. -/
inductive Call
  | transaction (t : SignedTransaction) (executionHeight : UInt64)
  | block (b : Block)

def Call.run : Call → EStateM ValidationError LedgerState Unit
  | .transaction t executionHeight => do
    let _ ← applyTransaction t executionHeight
  | .block b => do
    let _ ← applyBlock b

omit [Primitives] in
/-- The transactions that a call executes, in their order. -/
def Call.transactions : Call → List SignedTransaction
  | .transaction t _ => [t]
  | .block b => b.transactions

/-- Calls in order, up to the first that fails. -/
def runCalls : List Call → EStateM ValidationError LedgerState Unit
  | [] => return ()
  | c :: cs => do
    c.run
    runCalls cs

/-! ## The invariant -/

omit [Primitives] in
/-- The number of nonces that were used. -/
def usedNonces (s : LedgerState) : Nat := BTreeMap.total (·.nextNonce.toNat) s.accounts

/-- The nonces that an address used, in the order of execution. -/
def noncesOf (a : Address) (executed : List SignedTransaction) : List Nat :=
  (executed.filter (·.senderAddress = a)).map (·.unsigned.nonce.toNat)

/-- What the executed transactions left in the ledger. -/
structure Protected (executed : List SignedTransaction) (s : LedgerState) : Prop where
  nonces : ∀ a, noncesOf a executed = List.range (s.accountOrDefault a).nextNonce.toNat
  nodup : (executed.map (·.id)).Nodup
  applied : ∀ id, id ∈ s.appliedTransactions ↔ id ∈ executed.map (·.id)
  size : s.appliedTransactions.size = s.usedNonces

theorem protected_new (c : ChainId) : Protected [] (LedgerState.new c) where
  nonces _ := rfl
  nodup := .nil
  applied := by simp [LedgerState.new]
  size := rfl

variable {s s' : LedgerState} {t : SignedTransaction} {r : TransactionReceipt}

omit [Primitives] in
/-- Storing the sender's account uses one more nonce. -/
theorem usedNonces_store (s : LedgerState) (id : Hash32) (sender : Address) (x : AccountState)
    (hx : x.nextNonce = (s.accountOrDefault sender).nextNonce)
    (hlt : (s.accountOrDefault sender).nextNonce.toNat + 1 < 2 ^ 64) :
    (s.store id sender x).usedNonces = s.usedNonces + 1 := by
  have h := total_setAccount (f := (·.nextNonce.toNat)) rfl s sender
    { x with nextNonce := x.nextNonce + 1 }
  have hone : (x.nextNonce + 1).toNat = (s.accountOrDefault sender).nextNonce.toNat + 1 := by
    rw [hx, UInt64.toNat_add]
    exact Nat.mod_eq_of_lt hlt
  simp only [hone] at h
  change BTreeMap.total _ (s.setAccount sender _).accounts = BTreeMap.total _ s.accounts + 1
  omega

omit [Primitives] in
/-- Changing a balance uses no nonce. -/
theorem usedNonces_setBalance (s : LedgerState) (a : Address) (b : UInt64) :
    (s.setAccount a ((s.accountOrDefault a).setBalance b)).usedNonces = s.usedNonces := by
  have h := total_setAccount (f := (·.nextNonce.toNat)) rfl s a
    ((s.accountOrDefault a).setBalance b)
  simp only [AccountState.setBalance_nonce] at h
  change BTreeMap.total _ (s.setAccount a _).accounts = BTreeMap.total _ s.accounts
  omega

/-- A transaction uses one nonce. -/
theorem Applied.usedNonces {h : UInt64} (hv : s.Validated t h) (ha : s.Applied t r s') :
    s'.usedNonces = s.usedNonces + 1 := by
  have hlt := hv.nonce_lt
  cases ha with
  | @transfer recipient amount sb rb action other =>
      have hsame : ((s.setAccount recipient ((s.accountOrDefault recipient).setBalance
          rb)).accountOrDefault t.senderAddress) = s.accountOrDefault t.senderAddress := by
        rw [accountOrDefault_setAccount, if_neg other]
      rw [usedNonces_store, usedNonces_setBalance]
      · rw [hsame, AccountState.setBalance_nonce]
      · rw [hsame]
        exact hlt
  | selfTransfer => exact usedNonces_store s _ _ _ rfl hlt
  | @claim answer reward balance supply challenge =>
      exact usedNonces_store
        { s with totalSupplyAtoms := supply, activeChallengeId := challenge } _ _ _ rfl hlt
  | rename => exact usedNonces_store s _ _ _ rfl hlt

/-- One more transaction adds its nonce and its identity. -/
theorem Protected.transaction {executed : List SignedTransaction} (hp : Protected executed s)
    {h : UInt64} (hv : s.Validated t h) (ha : s.Applied t r s') :
    Protected (executed ++ [t]) s' where
  nonces a := by
    have hn := (ha.changes hv).nonce a
    have hsender : r.sender = t.senderAddress := by cases ha <;> rfl
    rw [noncesOf, List.filter_append, List.map_append]
    change noncesOf a executed ++ _ = _
    rw [hp.nonces a, hn]
    by_cases hs : t.senderAddress = a
    · subst hs
      simp [hsender, hv.nonce, List.range_succ]
    · have hne : a ≠ r.sender := fun he => hs (he.trans hsender).symm
      simp [hs, hne]
  nodup := by
    rw [List.map_append, List.nodup_append]
    refine ⟨hp.nodup, List.nodup_singleton _, fun i hi j hj => ?_⟩
    rintro rfl
    rw [List.map_singleton, List.mem_singleton] at hj
    exact hv.fresh (hj ▸ (hp.applied i).2 hi)
  applied id := by
    have hid : r.transactionId = t.id := by cases ha <;> rfl
    rw [(ha.changes hv).applied, hp.applied]
    simp [hid, eq_comm]
  size := by
    rw [(ha.sizes hv).1, hp.size, ha.usedNonces hv]

theorem Protected.transactions {executed ts : List SignedTransaction} (hp : Protected executed s)
    {h : UInt64} {rs : List TransactionReceipt} (hrun : applyTransactions ts h s = .ok rs s') :
    Protected (executed ++ ts) s' := by
  induction ts generalizing s rs executed with
  | nil =>
      obtain ⟨-, rfl⟩ := applyTransactions_nil_eq_ok.1 hrun
      rwa [List.append_nil]
  | cons t ts ih =>
      obtain ⟨r, s₁, rs', ht, hts, -⟩ := applyTransactions_cons_eq_ok.1 hrun
      obtain ⟨hv, ha⟩ := applyTransaction_eq_ok ht
      have := ih (hp.transaction hv ha) hts
      rwa [List.append_assoc] at this

theorem Protected.block {executed : List SignedTransaction} (hp : Protected executed s) {b : Block}
    {rs : List TransactionReceipt} (hb : s.BlockApplied b rs s') :
    Protected (executed ++ b.transactions) s' := by
  obtain ⟨c, hc, rfl⟩ := hb.executed
  have := hp.transactions hc
  exact ⟨this.nonces, this.nodup, this.applied, this.size⟩

theorem Protected.call {executed : List SignedTransaction} (hp : Protected executed s) {c : Call}
    (hc : c.run s = .ok () s') : Protected (executed ++ c.transactions) s' := by
  cases c with
  | transaction t h =>
      obtain ⟨r, _, ht, hu⟩ := EStateM.bind_eq_ok.1 hc
      obtain ⟨-, rfl⟩ := EStateM.pure_eq_ok.1 hu
      obtain ⟨hv, ha⟩ := applyTransaction_eq_ok ht
      exact hp.transaction hv ha
  | block b =>
      obtain ⟨rs, _, hb, hu⟩ := EStateM.bind_eq_ok.1 hc
      obtain ⟨-, rfl⟩ := EStateM.pure_eq_ok.1 hu
      exact hp.block (applyBlock_eq_ok.1 hb)

theorem Protected.calls {executed : List SignedTransaction} (hp : Protected executed s)
    {cs : List Call} (hc : runCalls cs s = .ok () s') :
    Protected (executed ++ cs.flatMap (·.transactions)) s' := by
  induction cs generalizing s executed with
  | nil =>
      obtain ⟨-, rfl⟩ := EStateM.pure_eq_ok.1 hc
      rwa [List.flatMap_nil, List.append_nil]
  | cons c cs ih =>
      obtain ⟨_, s₁, h, hcs⟩ := EStateM.bind_eq_ok.1 hc
      have := ih (hp.call h) hcs
      rwa [List.append_assoc] at this

/-- After any run of successful calls from an empty ledger, the transactions of each address
carry the nonces from zero to its next nonce in the order of their execution, the identities of the
executed transactions are distinct and are the applied ones, and their number is the sum of the
next nonces. -/
theorem replay_protected {c : ChainId} {cs : List Call}
    (h : runCalls cs (LedgerState.new c) = .ok () s) :
    (∀ a, noncesOf a (cs.flatMap (·.transactions)) =
      List.range (s.accountOrDefault a).nextNonce.toNat) ∧
    ((cs.flatMap (·.transactions)).map (·.id)).Nodup ∧
    (∀ id, id ∈ s.appliedTransactions ↔ id ∈ (cs.flatMap (·.transactions)).map (·.id)) ∧
    s.appliedTransactions.size = s.usedNonces := by
  have hp := (protected_new c).calls h
  exact ⟨hp.nonces, hp.nodup, hp.applied, hp.size⟩

end

open scoped Sample in
/-- A claim and a transfer to a new account, one by one: one sender has used two nonces. -/
theorem replay_protected_claim_transfer :
    let claim := Sample.transaction 1 0 (.claimReward 0 (Challenge.forId 0).answer)
    let transfer := Sample.transaction 1 1 (.transfer ⟨Bytes.fill 20 7⟩ 5)
    let cs : List Call := [.transaction claim 1, .transaction transfer 1]
    let s := (runCalls cs (LedgerState.new Sample.chainId)).state
    noncesOf claim.senderAddress [claim, transfer] = [0, 1] ∧
      s.appliedTransactions.size = s.usedNonces := by
  intro claim transfer cs s
  have hrun : runCalls cs (LedgerState.new Sample.chainId) = .ok () s :=
    EStateM.Result.eq_of_isOk (by decide +kernel)
  exact ⟨by decide +kernel, (replay_protected hrun).2.2.2⟩

end KCoin.LedgerState
