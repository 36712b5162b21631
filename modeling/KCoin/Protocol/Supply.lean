import KCoin.Lib.OrderedMap
import KCoin.Protocol.Execution

/-!
# Supply conservation

The balances of all accounts add up to the recorded supply, and the supply stays at or below its
maximum, in every state that any sequence of transactions and blocks reaches from an empty
ledger, whether they succeed or fail (`supply_conserved`). The checked arithmetic on balances and
on the supply therefore never fails: a balance is a part of the total, and the total is far
below the range of a 64-bit number.
-/

namespace KCoin.LedgerState

/-- The sum of all balances. -/
def balances (s : LedgerState) : Nat := BTreeMap.total (·.balanceAtoms.toNat) s.accounts

/-- The balances add up to the supply, which is at most the maximum. -/
structure Conserved (s : LedgerState) : Prop where
  total : s.balances = s.totalSupplyAtoms.toNat
  bounded : s.totalSupplyAtoms.toNat ≤ maxSupplyAtoms.toNat

theorem conserved_new (c : ChainId) : (LedgerState.new c).Conserved :=
  ⟨rfl, Nat.zero_le _⟩

theorem maxSupplyAtoms_toNat : maxSupplyAtoms.toNat = 100000000000 := rfl

/-- A reward is positive and fits under the maximum supply. -/
theorem rewardForSupply_le {supply reward : UInt64} (h : rewardForSupply supply = some reward) :
    supply.toNat + reward.toNat ≤ maxSupplyAtoms.toNat := by
  unfold rewardForSupply at h
  split at h
  · cases h
  · next hlt =>
      have hle : supply ≤ maxSupplyAtoms := by
        rw [UInt64.le_iff_toNat_le] at hlt ⊢
        omega
      have hsub := UInt64.toNat_sub_of_le _ _ hle
      have hle' := UInt64.le_iff_toNat_le.1 hle
      simp only [Option.some.injEq] at h
      generalize rewardsKcoin.getD _ 0 * atomsPerKcoin = full at h
      by_cases hr : full < maxSupplyAtoms - supply
      · rw [if_pos hr] at h
        rw [h, UInt64.lt_iff_toNat_lt] at hr
        omega
      · rw [if_neg hr] at h
        rw [← h]
        omega

section
variable {f : AccountState → Nat}

/-- A quantity that an empty account has none of, as a part of a total over the accounts. -/
theorem part_eq (hf : f {} = 0) (s : LedgerState) (a : Address) :
    f (s.accountOrDefault a) = ((s.accounts[a]?).map f).getD 0 := by
  unfold accountOrDefault
  cases s.accounts[a]? with
  | none => exact hf
  | some x => rfl

/-- Replacing an account changes a total by the change of that account. -/
theorem total_setAccount (hf : f {} = 0) (s : LedgerState) (a : Address) (x : AccountState) :
    BTreeMap.total f (s.setAccount a x).accounts + f (s.accountOrDefault a) =
      BTreeMap.total f s.accounts + f x := by
  rw [part_eq hf]
  exact BTreeMap.total_insert _ s.accounts a x

end

theorem balance_eq (s : LedgerState) (a : Address) :
    (s.accountOrDefault a).balanceAtoms.toNat =
      ((s.accounts[a]?).map (·.balanceAtoms.toNat)).getD 0 :=
  part_eq (f := (·.balanceAtoms.toNat)) rfl s a

/-- Replacing an account changes the sum of balances by the change of that account. -/
theorem balances_setAccount (s : LedgerState) (a : Address) (x : AccountState) :
    (s.setAccount a x).balances + (s.accountOrDefault a).balanceAtoms.toNat =
      s.balances + x.balanceAtoms.toNat :=
  total_setAccount (f := (·.balanceAtoms.toNat)) rfl s a x

/-- No balance exceeds the supply. -/
theorem Conserved.balance_le {s : LedgerState} (hs : s.Conserved) (a : Address) :
    (s.accountOrDefault a).balanceAtoms.toNat ≤ s.totalSupplyAtoms.toNat := by
  rw [balance_eq, ← hs.total]
  exact BTreeMap.le_total _ s.accounts a

/-- No two balances together exceed the supply. -/
theorem Conserved.add_balance_le {s : LedgerState} (hs : s.Conserved) {a b : Address}
    (h : a ≠ b) : (s.accountOrDefault a).balanceAtoms.toNat +
      (s.accountOrDefault b).balanceAtoms.toNat ≤ s.totalSupplyAtoms.toNat := by
  rw [balance_eq, balance_eq, ← hs.total]
  exact BTreeMap.add_le_total _ s.accounts h

/-- A stored account replaces the sender's balance in the sum. -/
theorem balances_store (s : LedgerState) (id : Hash32) (sender : Address) (x : AccountState) :
    (s.store id sender x).balances + (s.accountOrDefault sender).balanceAtoms.toNat =
      s.balances + x.balanceAtoms.toNat :=
  balances_setAccount s sender { x with nextNonce := x.nextNonce + 1 }

section
variable [Primitives] {s s' : LedgerState} {t : SignedTransaction} {r : TransactionReceipt}

/-- The effect of a transaction keeps the balances equal to the supply. -/
theorem Applied.conserved (h : s.Applied t r s') (hs : s.Conserved) : s'.Conserved := by
  cases h with
  | @transfer recipient amount sb rb _ other debit credit =>
      refine ⟨?_, hs.bounded⟩
      have hrecipient := balances_setAccount s recipient
        ((s.accountOrDefault recipient).setBalance rb)
      have hsender := balances_store
        (s.setAccount recipient ((s.accountOrDefault recipient).setBalance rb))
        t.id t.senderAddress ((s.accountOrDefault t.senderAddress).setBalance sb)
      rw [accountOrDefault_setAccount, if_neg other] at hsender
      have htotal := hs.total
      simp only [AccountState.setBalance_balance] at hsender hrecipient
      change _ = s.totalSupplyAtoms.toNat
      omega
  | selfTransfer =>
      refine ⟨?_, hs.bounded⟩
      have h := balances_store s t.id t.senderAddress (s.accountOrDefault t.senderAddress)
      have htotal := hs.total
      change _ = s.totalSupplyAtoms.toNat
      omega
  | @claim answer reward balance supply challenge _ hreward hbalance hsupply _ =>
      have hmax := rewardForSupply_le hreward
      have h := balances_store
        { s with totalSupplyAtoms := supply, activeChallengeId := challenge } t.id t.senderAddress
        ((s.accountOrDefault t.senderAddress).setBalance balance)
      have htotal := hs.total
      refine ⟨?_, ?_⟩
      · change _ = supply.toNat
        change _ + (s.accountOrDefault t.senderAddress).balanceAtoms.toNat = s.balances + _ at h
        simp only [AccountState.setBalance_balance] at h
        omega
      · change supply.toNat ≤ _
        omega
  | @rename name _ =>
      refine ⟨?_, hs.bounded⟩
      have h := balances_store s t.id t.senderAddress
        ((s.accountOrDefault t.senderAddress).setName name)
      have htotal := hs.total
      change _ = s.totalSupplyAtoms.toNat
      simp only [AccountState.setName_balance] at h
      omega

/-- In a conserved state a validated transaction is applied: none of the checked operations of
`apply_transaction` on balances or on the supply fails. -/
theorem Conserved.applyTransaction_ok (hs : s.Conserved) {h : UInt64} (hv : s.Validated t h) :
    ∃ r s', applyTransaction t h s = .ok r s' := by
  have hval : s.validateTransaction t h = .ok ⟨t.id, t.senderAddress⟩ :=
    validateTransaction_eq_ok.2 ⟨hv, rfl⟩
  obtain ⟨n, hn⟩ := checkedAdd_one_isSome.2 hv.nonce_lt
  have hmax := maxSupplyAtoms_toNat
  have hbound := hs.bounded
  have hact := hv.action
  suffices ∃ p u, applyAction t.senderAddress (s.accountOrDefault t.senderAddress)
      t.unsigned.action s = .ok p u by
    obtain ⟨⟨a, o⟩, u, hp⟩ := this
    exact ⟨_, _, (EStateM.bind_of_ok rfl).trans <|
      (EStateM.bind_of_ok (EStateM.lift_eq_ok.2 ⟨hval, rfl⟩)).trans <|
      (EStateM.bind_of_ok (EStateM.okOr_eq_ok.2 ⟨hn, rfl⟩)).trans <|
      (EStateM.bind_of_ok hp).trans rfl⟩
  cases hta : t.unsigned.action with
  | transfer recipient amount =>
      rw [hta] at hact
      by_cases he : recipient = t.senderAddress
      · exact ⟨_, _, by simp only [applyAction, he, ne_eq, not_true_eq_false, if_false]; rfl⟩
      · have hle := UInt64.le_iff_toNat_le.1 hact.2
        have hsum := hs.add_balance_le he
        obtain ⟨rb, hrb⟩ := checkedAdd_isSome (a := (s.accountOrDefault recipient).balanceAtoms)
          (b := amount) |>.2 (by omega)
        have hsb : checkedSub (s.accountOrDefault t.senderAddress).balanceAtoms amount =
            some ((s.accountOrDefault t.senderAddress).balanceAtoms - amount) := if_pos hact.2
        simp only [applyAction, ne_eq, he, not_false_eq_true, if_true]
        exact ⟨_, _, (EStateM.bind_of_ok rfl).trans <|
          (EStateM.bind_of_ok (EStateM.okOr_eq_ok.2 ⟨hrb, rfl⟩)).trans <|
          (EStateM.bind_of_ok (EStateM.okOr_eq_ok.2 ⟨hsb, rfl⟩)).trans rfl⟩
  | claimReward id answer =>
      rw [hta] at hact
      obtain ⟨-, -, reward, hr, hb, hc⟩ := hact
      have hle := rewardForSupply_le hr
      obtain ⟨b, hb⟩ := checkedAdd_isSome.2 hb
      obtain ⟨c, hc⟩ := checkedAdd_one_isSome.2 hc
      obtain ⟨sup, hsup⟩ := checkedAdd_isSome (a := s.totalSupplyAtoms) (b := reward)
        |>.2 (by omega)
      exact ⟨_, _, (EStateM.bind_of_ok rfl).trans <|
        (EStateM.bind_of_ok (EStateM.okOr_eq_ok.2 ⟨hr, rfl⟩)).trans <|
        (EStateM.bind_of_ok (EStateM.okOr_eq_ok.2 ⟨hb, rfl⟩)).trans <|
        (EStateM.bind_of_ok (EStateM.okOr_eq_ok.2 ⟨hsup, rfl⟩)).trans <|
        (EStateM.bind_of_ok (EStateM.okOr_eq_ok.2 ⟨hc, rfl⟩)).trans rfl⟩
  | setDisplayName name => exact ⟨_, _, rfl⟩

/-- Transactions applied in order keep the balances equal to the supply. -/
theorem Conserved.applyTransactions (hs : s.Conserved) {ts : List SignedTransaction}
    {h : UInt64} {rs : List TransactionReceipt}
    (hrun : applyTransactions ts h s = .ok rs s') : s'.Conserved := by
  induction ts generalizing s rs with
  | nil =>
      obtain ⟨-, rfl⟩ := applyTransactions_nil_eq_ok.1 hrun
      exact hs
  | cons t ts ih =>
      obtain ⟨r, s₁, rs', ht, hts, -⟩ := applyTransactions_cons_eq_ok.1 hrun
      exact ih ((applyTransaction_eq_ok ht).2.conserved hs) hts

/-- A block keeps the balances equal to the supply. -/
theorem BlockApplied.conserved {b : Block} {rs : List TransactionReceipt}
    (h : s.BlockApplied b rs s') (hs : s.Conserved) : s'.Conserved := by
  obtain ⟨c, hc, rfl⟩ := h.executed
  have := hs.applyTransactions hc
  exact ⟨this.total, this.bounded⟩

/-! ## Runs -/

/-- The states that any sequence of transactions and blocks, applied or refused, reaches from an
empty ledger. -/
inductive Reachable (c : ChainId) : LedgerState → Prop
  | new : Reachable c (LedgerState.new c)
  | transaction {s : LedgerState} (t : SignedTransaction) (executionHeight : UInt64) :
      Reachable c s → Reachable c (applyTransaction t executionHeight s).state
  | block {s : LedgerState} (b : Block) : Reachable c s → Reachable c (applyBlock b s).state

theorem Reachable.conserved {c : ChainId} (h : Reachable c s) : s.Conserved := by
  induction h with
  | new => exact conserved_new c
  | @transaction s t height _ ih =>
      cases ht : applyTransaction t height s with
      | ok r s' => exact (applyTransaction_eq_ok ht).2.conserved ih
      | error e s' =>
          obtain rfl := atomic_applyTransaction t height s e s' ht
          exact ih
  | @block s b _ ih =>
      cases hb : applyBlock b s with
      | ok rs s' => exact (applyBlock_eq_ok.1 hb).conserved ih
      | error e s' =>
          obtain rfl := atomic_applyBlock b s e s' hb
          exact ih

/-- The checked operations on balances and on the supply that a transaction reaches, in the order
of the code: for a transfer to another account the two balances, for a claim the balance and the
supply. -/
def CheckedOperationsSucceed (s : LedgerState) (t : SignedTransaction)
    (executionHeight : UInt64) : Prop :=
  match t.unsigned.action with
  | .transfer recipient amount => s.Validated t executionHeight → recipient ≠ t.senderAddress →
      checkedAdd (s.accountOrDefault recipient).balanceAtoms amount ≠ none ∧
        checkedSub (s.accountOrDefault t.senderAddress).balanceAtoms amount ≠ none
  | .claimReward .. => ∀ reward, rewardForSupply s.totalSupplyAtoms = some reward →
      checkedAdd (s.accountOrDefault t.senderAddress).balanceAtoms reward ≠ none ∧
        checkedAdd s.totalSupplyAtoms reward ≠ none
  | .setDisplayName _ => True

theorem Conserved.checkedOperationsSucceed (hs : s.Conserved) (t : SignedTransaction)
    (h : UInt64) : s.CheckedOperationsSucceed t h := by
  have hmax := maxSupplyAtoms_toNat
  have hbound := hs.bounded
  unfold CheckedOperationsSucceed
  cases hta : t.unsigned.action with
  | transfer recipient amount =>
      intro hv hne
      have hact := hv.action
      rw [hta] at hact
      have hle := UInt64.le_iff_toNat_le.1 hact.2
      have hsum := hs.add_balance_le hne
      refine ⟨fun hn => ?_, by simp [checkedSub, hact.2]⟩
      rw [checkedAdd_eq_none] at hn
      omega
  | claimReward id answer =>
      intro reward hr
      have hle := rewardForSupply_le hr
      have hbal := hs.balance_le t.senderAddress
      refine ⟨fun hn => ?_, fun hn => ?_⟩ <;> rw [checkedAdd_eq_none] at hn <;> omega
  | setDisplayName name => trivial

/-- In every reachable state the balances add up to the supply, the supply is at most its
maximum, and no transaction at any height makes a checked operation on a balance or on the
supply fail: one that is validated is applied. -/
theorem supply_conserved {c : ChainId} (h : Reachable c s) :
    s.balances = s.totalSupplyAtoms.toNat ∧ s.totalSupplyAtoms ≤ maxSupplyAtoms ∧
      ∀ t executionHeight, s.CheckedOperationsSucceed t executionHeight ∧
        (s.Validated t executionHeight →
          ∃ r s', applyTransaction t executionHeight s = .ok r s') :=
  have hs := h.conserved
  ⟨hs.total, UInt64.le_iff_toNat_le.2 hs.bounded, fun t height =>
    ⟨hs.checkedOperationsSucceed t height, hs.applyTransaction_ok⟩⟩

end

open scoped Sample in
/-- A claimed reward of 100 KCoin, part of which is sent to a new account. -/
theorem supply_conserved_claim_transfer :
    let claim := Sample.transaction 1 0 (.claimReward 0 (Challenge.forId 0).answer)
    let transfer := Sample.transaction 1 1 (.transfer ⟨Bytes.fill 20 7⟩ 5)
    let s := (applyTransaction transfer 1 (applyTransaction claim 1
      (LedgerState.new Sample.chainId)).state).state
    s.accounts.size = 2 ∧ s.totalSupplyAtoms = 100000000 ∧
      s.balances = s.totalSupplyAtoms.toNat ∧ s.totalSupplyAtoms ≤ maxSupplyAtoms ∧
      ∀ t executionHeight, s.CheckedOperationsSucceed t executionHeight ∧
        (s.Validated t executionHeight →
          ∃ r s', applyTransaction t executionHeight s = .ok r s') :=
  ⟨by decide +kernel, by decide +kernel,
    supply_conserved (.transaction _ 1 (.transaction _ 1 .new))⟩

end KCoin.LedgerState
