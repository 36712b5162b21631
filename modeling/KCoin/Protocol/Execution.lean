import KCoin.Protocol.Ledger

/-!
# What an execution step does

The inversion of `apply_transaction` and `apply_block`. A transaction that is applied was
validated in the state before it (`Validated`) and has one of four effects, one for each action
and one for a transfer to oneself (`Applied`); one that fails leaves the state as it was. A block
that is applied executes its transactions in order and moves the tip.
-/

open Borsh

namespace KCoin

def AccountState.setBalance (a : AccountState) (balance : UInt64) : AccountState :=
  { a with balanceAtoms := balance }

def AccountState.setName (a : AccountState) (name : Option String) : AccountState :=
  { a with displayName := name }

@[simp] theorem AccountState.setBalance_balance (a : AccountState) (b : UInt64) :
    (a.setBalance b).balanceAtoms = b := rfl

@[simp] theorem AccountState.setBalance_nonce (a : AccountState) (b : UInt64) :
    (a.setBalance b).nextNonce = a.nextNonce := rfl

@[simp] theorem AccountState.setBalance_name (a : AccountState) (b : UInt64) :
    (a.setBalance b).displayName = a.displayName := rfl

@[simp] theorem AccountState.setName_balance (a : AccountState) (n : Option String) :
    (a.setName n).balanceAtoms = a.balanceAtoms := rfl

@[simp] theorem AccountState.setName_nonce (a : AccountState) (n : Option String) :
    (a.setName n).nextNonce = a.nextNonce := rfl

@[simp] theorem AccountState.setName_name (a : AccountState) (n : Option String) :
    (a.setName n).displayName = n := rfl

namespace LedgerState

variable [Primitives]

/-- What the sender's account and the state must satisfy for an action. -/
def ActionValid (s : LedgerState) (senderAccount : AccountState) : TransactionAction → Prop
  | .transfer _ amount => amount ≠ 0 ∧ amount ≤ senderAccount.balanceAtoms
  | .claimReward challengeId answer =>
      challengeId = s.activeChallengeId ∧ answer = s.currentChallenge.answer ∧
        ∃ reward, rewardForSupply s.totalSupplyAtoms = some reward ∧
          senderAccount.balanceAtoms.toNat + reward.toNat < 2 ^ 64 ∧
          s.activeChallengeId.toNat + 1 < 2 ^ 64
  | .setDisplayName name => validateDisplayName name = .ok ()

/-- What `validate_transaction` checks. -/
structure Validated (s : LedgerState) (t : SignedTransaction) (executionHeight : UInt64) :
    Prop where
  verified : t.verifySignature = .ok ()
  chain : t.unsigned.chainId = s.chainId
  fresh : t.id ∉ s.appliedTransactions
  unexpired : executionHeight ≤ t.unsigned.expiryHeight
  nonce : t.unsigned.nonce = (s.accountOrDefault t.senderAddress).nextNonce
  nonce_lt : (s.accountOrDefault t.senderAddress).nextNonce.toNat + 1 < 2 ^ 64
  action : s.ActionValid (s.accountOrDefault t.senderAddress) t.unsigned.action

omit [Primitives] in
theorem checkedAdd_isSome {a b : UInt64} :
    (∃ c, checkedAdd a b = some c) ↔ a.toNat + b.toNat < 2 ^ 64 := by
  unfold checkedAdd
  split
  · next h => exact ⟨fun _ => h, fun _ => ⟨_, rfl⟩⟩
  · next h => exact ⟨nofun, fun hlt => absurd hlt h⟩

omit [Primitives] in
theorem checkedAdd_one_isSome {a : UInt64} :
    (∃ c, checkedAdd a 1 = some c) ↔ a.toNat + 1 < 2 ^ 64 := checkedAdd_isSome

theorem validateAction_eq_ok {s : LedgerState} {a : AccountState} {act : TransactionAction} :
    s.validateAction a act = .ok () ↔ s.ActionValid a act := by
  cases act with
  | transfer recipient amount =>
      simp [validateAction, ActionValid, Except.bind_eq_ok, Unique.exists_iff]
  | claimReward id answer =>
      simp only [validateAction, ActionValid, Except.bind_eq_ok, Except.ensure_eq_ok,
        Except.okOr_eq_ok, Except.pure_eq_ok, Unique.exists_iff, ← checkedAdd_isSome,
        ← checkedAdd_one_isSome]
      simp
  | setDisplayName name => rfl

/-- Validation returns the transaction's identity and sender when its checks hold. -/
theorem validateTransaction_eq_ok {s : LedgerState} {t : SignedTransaction} {h : UInt64}
    {v : ValidatedTransaction} : s.validateTransaction t h = .ok v ↔
      s.Validated t h ∧ v = ⟨t.id, t.senderAddress⟩ := by
  simp only [validateTransaction, Except.bind_eq_ok, Except.ensure_eq_ok, Except.okOr_eq_ok,
    Except.pure_eq_ok]
  constructor
  · rintro ⟨_, hsig, _, hchain, _, hfresh, _, hexp, _, hnonce, n, hn, _, hact, rfl⟩
    exact ⟨⟨hsig, hchain, hfresh, hexp, hnonce, checkedAdd_one_isSome.1 ⟨n, hn⟩,
      validateAction_eq_ok.1 hact⟩, rfl⟩
  · rintro ⟨⟨hsig, hchain, hfresh, hexp, hnonce, hlt, hact⟩, rfl⟩
    obtain ⟨n, hn⟩ := checkedAdd_one_isSome.2 hlt
    exact ⟨(), hsig, (), hchain, (), hfresh, (), hexp, (), hnonce, n, hn, (),
      validateAction_eq_ok.2 hact, rfl⟩

omit [Primitives] in
/-- The state with an account replaced. -/
def setAccount (s : LedgerState) (address : Address) (a : AccountState) : LedgerState :=
  { s with accounts := s.accounts.insert address a }

omit [Primitives] in
/-- The state after the sender's account and the transaction's identity are stored. -/
def store (s : LedgerState) (id : Hash32) (sender : Address) (a : AccountState) : LedgerState :=
  { s.setAccount sender { a with nextNonce := a.nextNonce + 1 } with
    appliedTransactions := s.appliedTransactions.insert id }

section
omit [Primitives]
variable (s : LedgerState) (a b : Address) (x : AccountState) (id : Hash32)

theorem accountOrDefault_setAccount :
    (s.setAccount a x).accountOrDefault b = if a = b then x else s.accountOrDefault b := by
  unfold accountOrDefault setAccount
  rw [Std.ExtTreeMap.getElem?_insert]
  by_cases h : a = b <;> simp [h]

theorem accountOrDefault_store : (s.store id a x).accountOrDefault b =
    if a = b then { x with nextNonce := x.nextNonce + 1 } else s.accountOrDefault b :=
  accountOrDefault_setAccount s a b _

theorem mem_accounts_setAccount :
    b ∈ (s.setAccount a x).accounts ↔ b = a ∨ b ∈ s.accounts := by
  simp [setAccount, Std.ExtTreeMap.mem_insert, @eq_comm _ b a]

theorem mem_accounts_store :
    b ∈ (s.store id a x).accounts ↔ b = a ∨ b ∈ s.accounts :=
  mem_accounts_setAccount s a b _

theorem mem_applied_store (i : Hash32) :
    i ∈ (s.store id a x).appliedTransactions ↔ i = id ∨ i ∈ s.appliedTransactions := by
  simp [store, setAccount, Std.ExtTreeSet.mem_insert, @eq_comm _ i id]

end

/-- The receipt of a transaction with a given outcome. -/
def receipt (t : SignedTransaction) (outcome : TransactionOutcome) : TransactionReceipt :=
  ⟨t.id, t.senderAddress, t.unsigned.nonce, outcome⟩

/-- The effect of applying a transaction, by its action. -/
inductive Applied (s : LedgerState) (t : SignedTransaction) :
    TransactionReceipt → LedgerState → Prop
  | transfer {recipient : Address} {amount senderBalance recipientBalance : UInt64}
      (action : t.unsigned.action = .transfer recipient amount)
      (other : recipient ≠ t.senderAddress)
      (debit : senderBalance.toNat + amount.toNat =
        (s.accountOrDefault t.senderAddress).balanceAtoms.toNat)
      (credit : recipientBalance.toNat =
        (s.accountOrDefault recipient).balanceAtoms.toNat + amount.toNat) :
      Applied s t (receipt t (.transfer recipient amount))
        (store
          (s.setAccount recipient
            ((s.accountOrDefault recipient).setBalance recipientBalance))
          t.id t.senderAddress
          ((s.accountOrDefault t.senderAddress).setBalance senderBalance))
  | selfTransfer {amount : UInt64}
      (action : t.unsigned.action = .transfer t.senderAddress amount) :
      Applied s t (receipt t (.transfer t.senderAddress amount))
        (store s t.id t.senderAddress (s.accountOrDefault t.senderAddress))
  | claim {answer : UInt16} {reward balance supply challenge : UInt64}
      (action : t.unsigned.action = .claimReward s.activeChallengeId answer)
      (hreward : rewardForSupply s.totalSupplyAtoms = some reward)
      (hbalance : balance.toNat =
        (s.accountOrDefault t.senderAddress).balanceAtoms.toNat + reward.toNat)
      (hsupply : supply.toNat = s.totalSupplyAtoms.toNat + reward.toNat)
      (hchallenge : challenge.toNat = s.activeChallengeId.toNat + 1) :
      Applied s t (receipt t (.rewardClaimed s.activeChallengeId reward))
        (store { s with totalSupplyAtoms := supply, activeChallengeId := challenge }
          t.id t.senderAddress
          ((s.accountOrDefault t.senderAddress).setBalance balance))
  | rename {name : Option String} (action : t.unsigned.action = .setDisplayName name) :
      Applied s t (receipt t (.displayNameUpdated name))
        (store s t.id t.senderAddress
          ((s.accountOrDefault t.senderAddress).setName name))

/-- A transaction that is applied was validated and has one of the effects. -/
theorem applyTransaction_eq_ok {s s' : LedgerState} {t : SignedTransaction} {h : UInt64}
    {r : TransactionReceipt} (hr : applyTransaction t h s = .ok r s') :
    s.Validated t h ∧ Applied s t r s' := by
  simp only [applyTransaction, EStateM.bind_eq_ok, EStateM.get_eq_ok, EStateM.lift_eq_ok,
    EStateM.okOr_eq_ok, EStateM.modify_eq_ok, EStateM.pure_eq_ok] at hr
  obtain ⟨_, _, ⟨rfl, rfl⟩, _, _, ⟨hv, rfl⟩, n, _, ⟨hn, rfl⟩, ⟨a, o⟩, u, ha, _, _, rfl, rfl, rfl⟩ :=
    hr
  obtain ⟨hval, rfl⟩ := validateTransaction_eq_ok.1 hv
  refine ⟨hval, ?_⟩
  have hnonce : n = (s.accountOrDefault t.senderAddress).nextNonce + 1 := by
    unfold checkedAdd at hn
    split at hn <;> simp_all
  have hact := hval.action
  subst hnonce
  cases hta : t.unsigned.action with
  | transfer recipient amount =>
      rw [hta] at ha
      by_cases he : recipient = t.senderAddress
      · simp only [applyAction, ne_eq, he, not_true_eq_false, if_false, EStateM.pure_eq_ok,
          Prod.mk.injEq] at ha
        obtain ⟨⟨rfl, rfl⟩, rfl⟩ := ha
        subst he
        exact .selfTransfer hta
      · simp only [applyAction, ne_eq, he, not_false_eq_true, if_true, EStateM.bind_eq_ok,
          EStateM.get_eq_ok, EStateM.okOr_eq_ok, EStateM.set_eq_ok, EStateM.pure_eq_ok,
          Prod.mk.injEq] at ha
        obtain ⟨_, _, ⟨rfl, rfl⟩, rb, _, ⟨hrb, rfl⟩, sb, _, ⟨hsb, rfl⟩, _, _, rfl,
          ⟨rfl, rfl⟩, rfl⟩ := ha
        exact .transfer hta he (checkedSub_eq_some.1 hsb) (checkedAdd_eq_some.1 hrb)
  | claimReward id answer =>
      rw [hta] at ha hact
      obtain ⟨rfl, -⟩ := hact
      simp only [applyAction, EStateM.bind_eq_ok, EStateM.get_eq_ok, EStateM.okOr_eq_ok,
        EStateM.set_eq_ok, EStateM.pure_eq_ok, Prod.mk.injEq] at ha
      obtain ⟨_, _, ⟨rfl, rfl⟩, r, _, ⟨hr, rfl⟩, b, _, ⟨hb, rfl⟩, sup, _, ⟨hsup, rfl⟩, c, _,
        ⟨hc, rfl⟩, _, _, rfl, ⟨rfl, rfl⟩, rfl⟩ := ha
      exact .claim hta hr (checkedAdd_eq_some.1 hb) (checkedAdd_eq_some.1 hsup)
        (checkedAdd_eq_some.1 hc)
  | setDisplayName name =>
      rw [hta] at ha
      simp only [applyAction, EStateM.pure_eq_ok, Prod.mk.injEq] at ha
      obtain ⟨⟨rfl, rfl⟩, rfl⟩ := ha
      exact .rename hta

omit [Primitives] in
theorem atomic_applyAction (sender : Address) (a : AccountState) (act : TransactionAction) :
    EStateM.Atomic (applyAction sender a act) := by
  cases act with
  | transfer recipient amount =>
      simp only [applyAction]
      split
      · refine EStateM.readOnly_get.atomic_bind fun s => ?_
        refine (EStateM.readOnly_okOr _ _).atomic_bind fun rb => ?_
        refine (EStateM.readOnly_okOr _ _).atomic_bind fun sb => ?_
        exact ((EStateM.total_set _).bind fun _ => EStateM.total_pure _).atomic
      · exact (EStateM.total_pure _).atomic
  | claimReward id answer =>
      refine EStateM.readOnly_get.atomic_bind fun s => ?_
      refine (EStateM.readOnly_okOr _ _).atomic_bind fun reward => ?_
      refine (EStateM.readOnly_okOr _ _).atomic_bind fun balance => ?_
      refine (EStateM.readOnly_okOr _ _).atomic_bind fun supply => ?_
      refine (EStateM.readOnly_okOr _ _).atomic_bind fun challenge => ?_
      exact ((EStateM.total_set _).bind fun _ => EStateM.total_pure _).atomic
  | setDisplayName name => exact (EStateM.total_pure _).atomic

/-- A transaction that fails leaves the state as it was. -/
theorem atomic_applyTransaction (t : SignedTransaction) (h : UInt64) :
    EStateM.Atomic (applyTransaction t h) := by
  refine EStateM.readOnly_get.atomic_bind fun s => ?_
  refine (EStateM.readOnly_lift _).atomic_bind fun v => ?_
  refine (EStateM.readOnly_okOr _ _).atomic_bind fun n => ?_
  refine (atomic_applyAction _ _ _).bind_total fun _ => ?_
  exact (EStateM.total_modify _).bind fun _ => EStateM.total_pure _

/-- A block that fails leaves the state as it was. -/
theorem atomic_applyBlock (b : Block) : EStateM.Atomic (applyBlock b) := by
  refine EStateM.readOnly_get.atomic_bind fun s => ?_
  refine (EStateM.readOnly_lift _).atomic_bind fun _ => ?_
  refine (EStateM.readOnly_ensure _).atomic_bind fun _ => ?_
  refine (EStateM.readOnly_okOr _ _).atomic_bind fun _ => ?_
  refine (EStateM.readOnly_ensure _).atomic_bind fun _ => ?_
  refine (EStateM.readOnly_ensure _).atomic_bind fun _ => ?_
  refine (EStateM.readOnly_ensure _).atomic_bind fun _ => ?_
  split
  · exact fun _ _ _ he => by cases he; rfl
  · refine (EStateM.readOnly_ensure _).atomic_bind fun _ => ?_
    exact ((EStateM.total_set _).bind fun _ => EStateM.total_pure _).atomic

/-- The state after the transactions of a block, with the block's height and time. -/
def finish (s : LedgerState) (b : Block) : LedgerState :=
  { s with
    height := b.header.height
    lastBlockTimestampMs := b.header.timestampMs
    tipHash := b.hash }

omit [Primitives] in
/-- The state root does not cover the tip hash. -/
@[simp] theorem commitmentBytes_tipHash (s : LedgerState) (h : Hash32) :
    { s with tipHash := h }.commitmentBytes = s.commitmentBytes := rfl

/-- What `apply_block` checks and does. -/
structure BlockApplied (s : LedgerState) (b : Block) (receipts : List TransactionReceipt)
    (s' : LedgerState) : Prop where
  commitments : b.validateCommitments = .ok ()
  chain : b.header.chainId = s.chainId
  height : b.header.height.toNat = s.height.toNat + 1
  parent : b.header.parentHash = s.tipHash
  timestamp : s.validTimestamp b.header.timestampMs
  executed : ∃ c, applyTransactions b.transactions b.header.height s = .ok receipts c ∧
    s' = c.finish b
  root : s'.stateRoot = b.header.stateRoot

/-- A block is applied exactly when it passes the checks. -/
theorem applyBlock_eq_ok {s s' : LedgerState} {b : Block} {rs : List TransactionReceipt} :
    applyBlock b s = .ok rs s' ↔ s.BlockApplied b rs s' := by
  simp only [applyBlock, EStateM.bind_eq_ok, EStateM.get_eq_ok, EStateM.lift_eq_ok,
    EStateM.ensure_eq_ok, EStateM.okOr_eq_ok]
  constructor
  · rintro ⟨_, _, ⟨rfl, rfl⟩, _, _, ⟨hcom, rfl⟩, _, _, ⟨hchain, rfl⟩, n, _, ⟨hn, rfl⟩, _, _,
      ⟨hheight, rfl⟩, _, _, ⟨hparent, rfl⟩, _, _, ⟨htime, rfl⟩, hrun⟩
    have hheight : b.header.height.toNat = s.height.toNat + 1 := by
      rw [hheight]
      exact checkedAdd_eq_some.1 hn
    cases hc : applyTransactions b.transactions b.header.height s with
    | error e c =>
        simp only [hc] at hrun
        cases hrun
    | ok receipts c =>
        simp only [hc, EStateM.bind_eq_ok, EStateM.ensure_eq_ok, EStateM.set_eq_ok,
          EStateM.pure_eq_ok] at hrun
        obtain ⟨_, _, ⟨hroot, rfl⟩, _, _, rfl, rfl, rfl⟩ := hrun
        exact ⟨hcom, hchain, hheight, hparent, htime, ⟨c, hc, rfl⟩, hroot⟩
  · rintro ⟨hcom, hchain, hheight, hparent, htime, ⟨c, hc, rfl⟩, hroot⟩
    refine ⟨s, s, ⟨rfl, rfl⟩, (), s, ⟨hcom, rfl⟩, (), s, ⟨hchain, rfl⟩, b.header.height, s,
      ⟨checkedAdd_eq_some.2 hheight, rfl⟩, (), s, ⟨rfl, rfl⟩, (), s, ⟨hparent, rfl⟩, (), s,
      ⟨htime, rfl⟩, ?_⟩
    simp only [hc, EStateM.bind_eq_ok, EStateM.ensure_eq_ok, EStateM.set_eq_ok,
      EStateM.pure_eq_ok]
    exact ⟨(), s, ⟨hroot, rfl⟩, (), _, rfl, trivial, rfl⟩

/-- Transactions are applied one after the other. -/
theorem applyTransactions_cons_eq_ok {s s' : LedgerState} {t : SignedTransaction}
    {ts : List SignedTransaction} {h : UInt64} {rs : List TransactionReceipt} :
    applyTransactions (t :: ts) h s = .ok rs s' ↔
      ∃ r s₁ rs', applyTransaction t h s = .ok r s₁ ∧ applyTransactions ts h s₁ = .ok rs' s' ∧
        rs = r :: rs' := by
  simp only [applyTransactions, EStateM.bind_eq_ok, EStateM.pure_eq_ok]
  constructor
  · rintro ⟨r, s₁, hr, rs', _, hrs, rfl, rfl⟩
    exact ⟨r, s₁, rs', hr, hrs, rfl⟩
  · rintro ⟨r, s₁, rs', hr, hrs, rfl⟩
    exact ⟨r, s₁, hr, rs', s', hrs, rfl, rfl⟩

@[simp] theorem applyTransactions_nil_eq_ok {s s' : LedgerState} {h : UInt64}
    {rs : List TransactionReceipt} :
    applyTransactions [] h s = .ok rs s' ↔ rs = [] ∧ s' = s := by
  simp [applyTransactions, eq_comm]

/-- Every transaction of a run has its receipt. -/
theorem length_receipts {ts : List SignedTransaction} {height : UInt64}
    {rs : List TransactionReceipt} (h : applyTransactions ts height s = .ok rs s') :
    rs.length = ts.length := by
  induction ts generalizing s rs with
  | nil =>
      obtain ⟨rfl, -⟩ := applyTransactions_nil_eq_ok.1 h
      rfl
  | cons t ts ih =>
      obtain ⟨r, s₁, rs', -, hrest, rfl⟩ := applyTransactions_cons_eq_ok.1 h
      rw [List.length_cons, List.length_cons, ih hrest]

end LedgerState

end KCoin
