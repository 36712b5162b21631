import Mathlib.Algebra.BigOperators.Group.List.Basic
import Mathlib.Data.List.Perm.Basic
import KCoin.Protocol.Supply

/-!
# Order independence of execution

The receipts of a run determine what it does to the ledger: every account changes by the receipts
that name it (`Changes`), and a receipt does not depend on the position of its transaction
(`receiptIn`), since the reward of a claim is a function of its challenge identifier. Two
successful runs over the same transactions therefore have the same receipts in some order, and
where the order could matter it is the same in both: one sender's transactions are in the order of
their nonces and the claims in the order of their challenges (`List.eq_of_perm_of_counting`).
-/

/-- Two permutations of each other whose keys count up from one number are equal. -/
theorem List.eq_of_perm_of_counting {α : Type} {l m : List α} {key : α → Nat} {n : Nat}
    (h : l.Perm m) (hl : l.map key = List.range' n l.length)
    (hm : m.map key = List.range' n m.length) : l = m := by
  have hlt : ∀ {k : List α}, k.map key = List.range' n k.length →
      k.Pairwise fun a b => key a < key b := fun hk =>
    List.pairwise_map.1 (hk ▸ List.pairwise_lt_range')
  refine h.eq_of_pairwise (fun a b _ _ hab hba => ?_) (hlt hl) (hlt hm)
  omega

namespace KCoin

namespace TransactionReceipt

/-- The receipt is of a claim. -/
def isClaim (r : TransactionReceipt) : Bool :=
  match r.outcome with
  | .rewardClaimed .. => true
  | _ => false

/-- The challenge a claim answers. -/
def challenge (r : TransactionReceipt) : Nat :=
  match r.outcome with
  | .rewardClaimed id _ => id.toNat
  | _ => 0

/-- What the transaction takes from an account. -/
def debit (r : TransactionReceipt) (a : Address) : Nat :=
  match r.outcome with
  | .transfer recipient amount => if a = r.sender ∧ recipient ≠ r.sender then amount.toNat else 0
  | _ => 0

/-- What the transaction adds to an account. -/
def credit (r : TransactionReceipt) (a : Address) : Nat :=
  match r.outcome with
  | .transfer recipient amount => if a = recipient ∧ recipient ≠ r.sender then amount.toNat else 0
  | .rewardClaimed _ reward => if a = r.sender then reward.toNat else 0
  | .displayNameUpdated _ => 0

/-- The display name of an account after the transaction. -/
def rename (r : TransactionReceipt) (a : Address) (old : Option String) : Option String :=
  match r.outcome with
  | .displayNameUpdated name => if a = r.sender then name else old
  | _ => old

/-- A name after the transaction is the old one or the one it sets. -/
theorem rename_eq (r : TransactionReceipt) (a : Address) (old : Option String) :
    r.rename a old = old ∨ r.outcome = .displayNameUpdated (r.rename a old) := by
  unfold rename
  split
  · next name h =>
      split
      · exact .inr h
      · exact .inl rfl
  · exact .inl rfl

/-- The transaction stores an account. -/
def Stores (r : TransactionReceipt) (a : Address) : Prop :=
  a = r.sender ∨ ∃ amount, r.outcome = .transfer a amount

end TransactionReceipt

namespace LedgerState

/-! ## Rewards by position -/

/-- The supply after a number of claims. -/
def supplyAfter : Nat → UInt64 → UInt64
  | 0, supply => supply
  | k + 1, supply => supplyAfter k (supply + (rewardForSupply supply).getD 0)

/-- The outcome a transaction has in any successful run from a state: a claim's reward is the
reward at the supply after the claims of the challenges between. -/
def outcomeIn (s : LedgerState) : TransactionAction → TransactionOutcome
  | .transfer recipient amount => .transfer recipient amount
  | .claimReward id _ => .rewardClaimed id
      ((rewardForSupply (supplyAfter (id.toNat - s.activeChallengeId.toNat)
        s.totalSupplyAtoms)).getD 0)
  | .setDisplayName name => .displayNameUpdated name

section
variable [Primitives]

/-- The receipt a transaction has in any successful run from a state. -/
def receiptIn (s : LedgerState) (t : SignedTransaction) : TransactionReceipt :=
  receipt t (s.outcomeIn t.unsigned.action)

/-! ## What the receipts of a run determine -/

omit [Primitives] in
/-- The change of a ledger along a run, as a function of the receipts. -/
structure Changes (s : LedgerState) (rs : List TransactionReceipt) (s' : LedgerState) :
    Prop where
  fixed : s'.chainId = s.chainId ∧ s'.height = s.height ∧ s'.tipHash = s.tipHash ∧
    s'.lastBlockTimestampMs = s.lastBlockTimestampMs
  challenge : s'.activeChallengeId.toNat = s.activeChallengeId.toNat + rs.countP (·.isClaim)
  supply : s'.totalSupplyAtoms = supplyAfter (rs.countP (·.isClaim)) s.totalSupplyAtoms
  balance : ∀ a, (s'.accountOrDefault a).balanceAtoms.toNat + (rs.map (·.debit a)).sum =
    (s.accountOrDefault a).balanceAtoms.toNat + (rs.map (·.credit a)).sum
  nonce : ∀ a, (s'.accountOrDefault a).nextNonce.toNat =
    (s.accountOrDefault a).nextNonce.toNat + rs.countP (a = ·.sender)
  name : ∀ a, (s'.accountOrDefault a).displayName =
    rs.foldl (fun old r => r.rename a old) (s.accountOrDefault a).displayName
  stored : ∀ a, a ∈ s'.accounts ↔ a ∈ s.accounts ∨ ∃ r ∈ rs, r.Stores a
  applied : ∀ id, id ∈ s'.appliedTransactions ↔
    id ∈ s.appliedTransactions ∨ ∃ r ∈ rs, r.transactionId = id

omit [Primitives] in
theorem Changes.nil (s : LedgerState) : s.Changes [] s where
  fixed := ⟨rfl, rfl, rfl, rfl⟩
  challenge := rfl
  supply := rfl
  balance _ := rfl
  nonce _ := rfl
  name _ := rfl
  stored := by simp
  applied := by simp

omit [Primitives] in
theorem supplyAfter_add (m n : Nat) (supply : UInt64) :
    supplyAfter n (supplyAfter m supply) = supplyAfter (m + n) supply := by
  induction m generalizing supply with
  | zero => simp [supplyAfter]
  | succ m ih => rw [supplyAfter, ih, Nat.add_right_comm, supplyAfter]

omit [Primitives] in
/-- Changes of consecutive runs add up. -/
theorem Changes.append {s₁ s₂ s₃ : LedgerState} {rs₁ rs₂ : List TransactionReceipt}
    (h₁ : s₁.Changes rs₁ s₂) (h₂ : s₂.Changes rs₂ s₃) : s₁.Changes (rs₁ ++ rs₂) s₃ where
  fixed := by
    obtain ⟨a, b, c, d⟩ := h₁.fixed
    obtain ⟨a', b', c', d'⟩ := h₂.fixed
    exact ⟨a'.trans a, b'.trans b, c'.trans c, d'.trans d⟩
  challenge := by
    rw [h₂.challenge, h₁.challenge, List.countP_append]
    omega
  supply := by rw [h₂.supply, h₁.supply, supplyAfter_add, List.countP_append]
  balance a := by
    have h1 := h₁.balance a
    have h2 := h₂.balance a
    simp only [List.map_append, List.sum_append]
    omega
  nonce a := by
    rw [h₂.nonce, h₁.nonce, List.countP_append]
    omega
  name a := by rw [h₂.name, h₁.name, List.foldl_append]
  stored a := by simp [h₂.stored, h₁.stored, or_and_right, exists_or, or_assoc]
  applied id := by simp [h₂.applied, h₁.applied, or_and_right, exists_or, or_assoc]

variable {s s' : LedgerState} {t : SignedTransaction} {r : TransactionReceipt}

omit [Primitives] in
theorem supplyAfter_one {supply reward new : UInt64} (hr : rewardForSupply supply = some reward)
    (hn : new.toNat = supply.toNat + reward.toNat) : new = supplyAfter 1 supply := by
  have hlt := new.toNat_lt
  rw [supplyAfter, supplyAfter, hr, Option.getD_some, ← UInt64.toNat_inj, UInt64.toNat_add, hn]
  exact (Nat.mod_eq_of_lt (by omega)).symm

/-- One transaction changes the ledger as its receipt says. -/
theorem Applied.changes {h : UInt64} (hv : s.Validated t h) (ha : s.Applied t r s') :
    s.Changes [r] s' := by
  have hnonce : ((s.accountOrDefault t.senderAddress).nextNonce + 1).toNat =
      (s.accountOrDefault t.senderAddress).nextNonce.toNat + 1 := by
    rw [UInt64.toNat_add]
    exact Nat.mod_eq_of_lt hv.nonce_lt
  cases ha with
  | @transfer recipient amount sb rb action other debit credit =>
      refine ⟨⟨rfl, rfl, rfl, rfl⟩, rfl, rfl, fun a => ?_, fun a => ?_, fun a => ?_,
        fun a => ?_, fun id => ?_⟩
      · rw [accountOrDefault_store, accountOrDefault_setAccount]
        simp only [receipt, TransactionReceipt.debit, TransactionReceipt.credit, List.map_cons,
          List.map_nil, List.sum_cons, List.sum_nil]
        by_cases h1 : t.senderAddress = a
        · subst h1
          simp [other, Ne.symm other, debit]
        · by_cases h2 : recipient = a
          · subst h2
            simp [h1, Ne.symm h1, credit]
          · simp [h1, h2, Ne.symm h1, Ne.symm h2]
      · rw [accountOrDefault_store, accountOrDefault_setAccount]
        by_cases h1 : t.senderAddress = a
        · subst h1
          simp [receipt, hnonce]
        · by_cases h2 : recipient = a
          · subst h2
            simp [receipt, h1, Ne.symm h1]
          · simp [receipt, h1, h2, Ne.symm h1]
      · rw [accountOrDefault_store, accountOrDefault_setAccount]
        by_cases h1 : t.senderAddress = a
        · subst h1
          simp [receipt, TransactionReceipt.rename]
        · by_cases h2 : recipient = a
          · subst h2
            simp [receipt, h1, TransactionReceipt.rename]
          · simp [receipt, h1, h2, TransactionReceipt.rename]
      · rw [mem_accounts_store, mem_accounts_setAccount]
        simp [TransactionReceipt.Stores, receipt]
        grind
      · rw [mem_applied_store]
        simp [receipt, setAccount]
        grind
  | @selfTransfer amount action =>
      refine ⟨⟨rfl, rfl, rfl, rfl⟩, rfl, rfl, fun a => ?_, fun a => ?_, fun a => ?_,
        fun a => ?_, fun id => ?_⟩
      · rw [accountOrDefault_store]
        by_cases h1 : t.senderAddress = a <;>
          simp [h1, receipt, TransactionReceipt.debit, TransactionReceipt.credit]
      · rw [accountOrDefault_store]
        by_cases h1 : t.senderAddress = a
        · subst h1
          simp [receipt, hnonce]
        · simp [receipt, h1, Ne.symm h1]
      · rw [accountOrDefault_store]
        by_cases h1 : t.senderAddress = a <;> simp [receipt, h1, TransactionReceipt.rename]
      · rw [mem_accounts_store]
        simp [TransactionReceipt.Stores, receipt]
        grind
      · rw [mem_applied_store]
        simp [receipt]
        grind
  | @claim answer reward balance supply challenge action hreward hbalance hsupply hchallenge =>
      refine ⟨⟨rfl, rfl, rfl, rfl⟩, hchallenge, supplyAfter_one hreward hsupply, fun a => ?_,
        fun a => ?_, fun a => ?_, fun a => ?_, fun id => ?_⟩
      · rw [accountOrDefault_store]
        by_cases h1 : t.senderAddress = a
        · subst h1
          simp [receipt, TransactionReceipt.debit, TransactionReceipt.credit, hbalance]
        · simp [h1, Ne.symm h1, receipt, TransactionReceipt.debit, TransactionReceipt.credit]
          rfl
      · rw [accountOrDefault_store]
        by_cases h1 : t.senderAddress = a
        · subst h1
          simp [receipt, hnonce]
        · simp [receipt, h1, Ne.symm h1]
          rfl
      · rw [accountOrDefault_store]
        by_cases h1 : t.senderAddress = a
        · subst h1
          simp [receipt, TransactionReceipt.rename]
        · simp [receipt, h1, TransactionReceipt.rename]
          rfl
      · rw [mem_accounts_store]
        simp [TransactionReceipt.Stores, receipt]
        grind
      · rw [mem_applied_store]
        simp [receipt]
        grind
  | @rename name action =>
      refine ⟨⟨rfl, rfl, rfl, rfl⟩, rfl, rfl, fun a => ?_, fun a => ?_, fun a => ?_,
        fun a => ?_, fun id => ?_⟩
      · rw [accountOrDefault_store]
        by_cases h1 : t.senderAddress = a <;>
          simp [h1, receipt, TransactionReceipt.debit, TransactionReceipt.credit]
      · rw [accountOrDefault_store]
        by_cases h1 : t.senderAddress = a
        · subst h1
          simp [receipt, hnonce]
        · simp [receipt, h1, Ne.symm h1]
      · rw [accountOrDefault_store]
        by_cases h1 : t.senderAddress = a
        · subst h1
          simp [receipt, TransactionReceipt.rename]
        · simp [receipt, h1, Ne.symm h1, TransactionReceipt.rename]
      · rw [mem_accounts_store]
        simp [TransactionReceipt.Stores, receipt]
        grind
      · rw [mem_applied_store]
        simp [receipt]
        grind

/-- A run changes the ledger as its receipts say. -/
theorem changes_of_run {ts : List SignedTransaction} {h : UInt64} {rs : List TransactionReceipt}
    (hrun : applyTransactions ts h s = .ok rs s') : s.Changes rs s' := by
  induction ts generalizing s rs with
  | nil =>
      obtain ⟨rfl, rfl⟩ := applyTransactions_nil_eq_ok.1 hrun
      exact .nil _
  | cons t ts ih =>
      obtain ⟨r, s₁, rs', ht, hts, rfl⟩ := applyTransactions_cons_eq_ok.1 hrun
      obtain ⟨hv, ha⟩ := applyTransaction_eq_ok ht
      exact (ha.changes hv).append (ih hts)

/-! ## The orders that are forced -/

/-- The nonces of one sender's receipts count up from the sender's next nonce. -/
theorem nonces_of_run {ts : List SignedTransaction} {h : UInt64} {rs : List TransactionReceipt}
    (hrun : applyTransactions ts h s = .ok rs s') (a : Address) :
    (rs.filter (a = ·.sender)).map (·.nonce.toNat) =
      List.range' (s.accountOrDefault a).nextNonce.toNat (rs.filter (a = ·.sender)).length := by
  induction ts generalizing s rs with
  | nil =>
      obtain ⟨rfl, -⟩ := applyTransactions_nil_eq_ok.1 hrun
      rfl
  | cons t ts ih =>
      obtain ⟨r, s₁, rs', ht, hts, rfl⟩ := applyTransactions_cons_eq_ok.1 hrun
      obtain ⟨hv, ha⟩ := applyTransaction_eq_ok ht
      have hn := (ha.changes hv).nonce a
      have ih := ih hts
      have hr : r.sender = t.senderAddress ∧ r.nonce = t.unsigned.nonce := by
        cases ha <;> exact ⟨rfl, rfl⟩
      by_cases hs : a = r.sender
      · have hfirst : r.nonce = (s.accountOrDefault a).nextNonce := by
          rw [hr.2, hv.nonce, hs, hr.1]
        have hcount : [r].countP (a = ·.sender) = 1 := by simp [hs]
        rw [hcount] at hn
        rw [List.filter_cons_of_pos (by simpa using hs), List.map_cons, List.length_cons,
          List.range'_succ, ih, hn, hfirst]
      · have hcount : [r].countP (a = ·.sender) = 0 := by simp [hs]
        rw [hcount] at hn
        rw [List.filter_cons_of_neg (by simpa using hs), ih, hn, Nat.add_zero]

/-- The challenges of the claims count up from the active challenge. -/
theorem challenges_of_run {ts : List SignedTransaction} {h : UInt64}
    {rs : List TransactionReceipt} (hrun : applyTransactions ts h s = .ok rs s') :
    (rs.filter (·.isClaim)).map (·.challenge) =
      List.range' s.activeChallengeId.toNat (rs.filter (·.isClaim)).length := by
  induction ts generalizing s rs with
  | nil =>
      obtain ⟨rfl, -⟩ := applyTransactions_nil_eq_ok.1 hrun
      rfl
  | cons t ts ih =>
      obtain ⟨r, s₁, rs', ht, hts, rfl⟩ := applyTransactions_cons_eq_ok.1 hrun
      obtain ⟨hv, ha⟩ := applyTransaction_eq_ok ht
      have hn := (ha.changes hv).challenge
      have ih := ih hts
      by_cases hs : r.isClaim
      · have hfirst : r.challenge = s.activeChallengeId.toNat := by
          cases ha with
          | claim => rfl
          | transfer | selfTransfer | rename => cases hs
        have hcount : [r].countP (·.isClaim) = 1 := by simp [hs]
        rw [hcount] at hn
        rw [List.filter_cons_of_pos hs, List.map_cons, List.length_cons, List.range'_succ, ih, hn,
          hfirst]
      · have hcount : [r].countP (·.isClaim) = 0 := by simp [hs]
        rw [hcount] at hn
        rw [List.filter_cons_of_neg hs, ih, hn, Nat.add_zero]

omit [Primitives] in
/-- Later challenges have the same reward seen from an earlier state of the run. -/
theorem Changes.outcomeIn_eq {rs : List TransactionReceipt} (h : s.Changes rs s')
    {act : TransactionAction}
    (hid : ∀ id answer, act = .claimReward id answer → s'.activeChallengeId.toNat ≤ id.toNat) :
    s'.outcomeIn act = s.outcomeIn act := by
  cases act with
  | transfer recipient amount => rfl
  | setDisplayName name => rfl
  | claimReward id answer =>
      have hle := hid id answer rfl
      have hc := h.challenge
      have hsub : id.toNat - s.activeChallengeId.toNat =
          rs.countP (·.isClaim) + (id.toNat - s'.activeChallengeId.toNat) := by omega
      rw [outcomeIn, outcomeIn, h.supply, supplyAfter_add, hsub]

/-- Every receipt of a run is the one its transaction has in the run's first state. -/
theorem receipts_of_run {ts : List SignedTransaction} {h : UInt64} {rs : List TransactionReceipt}
    (hrun : applyTransactions ts h s = .ok rs s') : rs = ts.map s.receiptIn := by
  induction ts generalizing s rs with
  | nil =>
      obtain ⟨rfl, -⟩ := applyTransactions_nil_eq_ok.1 hrun
      rfl
  | cons t ts ih =>
      obtain ⟨r, s₁, rs', ht, hts, rfl⟩ := applyTransactions_cons_eq_ok.1 hrun
      obtain ⟨hv, ha⟩ := applyTransaction_eq_ok ht
      have hr : r = s.receiptIn t := by
        cases ha with
        | transfer action | selfTransfer action | rename action =>
            simp [receiptIn, action, outcomeIn]
        | claim action hreward => simp [receiptIn, action, outcomeIn, supplyAfter, hreward]
      have hrs := ih hts
      have hclaims := challenges_of_run hts
      rw [List.map_cons, ← hr, hrs, List.cons.injEq]
      refine ⟨rfl, List.map_congr_left fun u hu => ?_⟩
      rw [receiptIn, receiptIn, (ha.changes hv).outcomeIn_eq fun id answer hact => ?_]
      have hmem : id.toNat ∈ (rs'.filter (·.isClaim)).map (·.challenge) := by
        refine List.mem_map.2 ⟨s₁.receiptIn u, List.mem_filter.2 ⟨?_, ?_⟩, ?_⟩
        · rw [hrs]
          exact List.mem_map_of_mem hu
        · simp [receiptIn, hact, outcomeIn, receipt, TransactionReceipt.isClaim]
        · simp [receiptIn, hact, outcomeIn, receipt, TransactionReceipt.challenge]
      rw [hclaims, List.mem_range'_1] at hmem
      exact hmem.1

/-! ## Two runs -/

omit [Primitives] in
theorem getElem?_accounts (s : LedgerState) (a : Address) :
    s.accounts[a]? = if a ∈ s.accounts then some (s.accountOrDefault a) else none := by
  unfold accountOrDefault
  split
  · next h => rw [Std.ExtTreeMap.getElem?_eq_some_getElem h, Option.getD_some]
  · next h => exact Std.ExtTreeMap.getElem?_eq_none h

omit [Primitives] in
/-- Only an account's own receipts rename it. -/
theorem foldl_rename_filter (a : Address) (rs : List TransactionReceipt) (old : Option String) :
    rs.foldl (fun old r => r.rename a old) old =
      (rs.filter (a = ·.sender)).foldl (fun old r => r.rename a old) old := by
  induction rs generalizing old with
  | nil => rfl
  | cons r rs ih =>
      by_cases h : a = r.sender
      · rw [List.filter_cons_of_pos (by simpa using h), List.foldl_cons, List.foldl_cons, ih]
      · have hr : r.rename a old = old := by
          unfold TransactionReceipt.rename
          split <;> simp [h]
        rw [List.filter_cons_of_neg (by simpa using h), List.foldl_cons, hr, ih]

omit [Primitives] in
/-- The receipts, in any order that keeps each sender's, determine the state after them. -/
theorem Changes.unique {s₁ s₂ : LedgerState} {rs₁ rs₂ : List TransactionReceipt}
    (h₁ : s.Changes rs₁ s₁) (h₂ : s.Changes rs₂ s₂) (hp : rs₁.Perm rs₂)
    (hsender : ∀ a, rs₁.filter (a = ·.sender) = rs₂.filter (a = ·.sender)) : s₁ = s₂ := by
  have haccount : ∀ a, s₁.accountOrDefault a = s₂.accountOrDefault a := fun a => by
    have hb₁ := h₁.balance a
    have hb₂ := h₂.balance a
    rw [(hp.map _).sum_eq, (hp.map fun r => r.credit a).sum_eq] at hb₁
    have hn : (s₁.accountOrDefault a).nextNonce = (s₂.accountOrDefault a).nextNonce := by
      rw [← UInt64.toNat_inj, h₁.nonce, h₂.nonce, hp.countP_eq]
    have hb : (s₁.accountOrDefault a).balanceAtoms = (s₂.accountOrDefault a).balanceAtoms := by
      rw [← UInt64.toNat_inj]
      omega
    have hd : (s₁.accountOrDefault a).displayName = (s₂.accountOrDefault a).displayName := by
      rw [h₁.name, h₂.name, foldl_rename_filter, hsender, ← foldl_rename_filter]
    cases h : s₁.accountOrDefault a
    cases h' : s₂.accountOrDefault a
    simp_all
  have haccounts : s₁.accounts = s₂.accounts := by
    refine Std.ExtTreeMap.ext_getElem? fun {a} => ?_
    have hmem : a ∈ s₁.accounts ↔ a ∈ s₂.accounts := by
      rw [h₁.stored, h₂.stored]
      simp only [hp.mem_iff]
    rw [getElem?_accounts, getElem?_accounts, haccount]
    simp only [hmem]
  have happlied : s₁.appliedTransactions = s₂.appliedTransactions := by
    refine Std.ExtTreeSet.ext_mem fun {id} => ?_
    rw [h₁.applied, h₂.applied]
    simp only [hp.mem_iff]
  have hchallenge : s₁.activeChallengeId = s₂.activeChallengeId := by
    rw [← UInt64.toNat_inj, h₁.challenge, h₂.challenge, hp.countP_eq]
  have hsupply : s₁.totalSupplyAtoms = s₂.totalSupplyAtoms := by
    rw [h₁.supply, h₂.supply, hp.countP_eq]
  obtain ⟨hc₁, hh₁, ht₁, hl₁⟩ := h₁.fixed
  obtain ⟨hc₂, hh₂, ht₂, hl₂⟩ := h₂.fixed
  cases s₁
  cases s₂
  simp_all

/-- Two orderings of the same transactions that both succeed lead to the same state, with the
same receipt for each transaction. -/
theorem order_independent {s₁ s₂ : LedgerState} {ts₁ ts₂ : List SignedTransaction} {h : UInt64}
    {rs₁ rs₂ : List TransactionReceipt} (hp : ts₁.Perm ts₂)
    (h₁ : applyTransactions ts₁ h s = .ok rs₁ s₁) (h₂ : applyTransactions ts₂ h s = .ok rs₂ s₂) :
    s₁ = s₂ ∧ s₁.stateRoot = s₂.stateRoot ∧ (ts₁.zip rs₁).Perm (ts₂.zip rs₂) := by
  have hr₁ := receipts_of_run h₁
  have hr₂ := receipts_of_run h₂
  have hrs : rs₁.Perm rs₂ := by
    rw [hr₁, hr₂]
    exact hp.map _
  have hsender : ∀ a, rs₁.filter (a = ·.sender) = rs₂.filter (a = ·.sender) := fun a =>
    List.eq_of_perm_of_counting (hrs.filter _) (nonces_of_run h₁ a) (nonces_of_run h₂ a)
  have hs : s₁ = s₂ := (changes_of_run h₁).unique (changes_of_run h₂) hrs hsender
  refine ⟨hs, by rw [hs], ?_⟩
  rw [hr₁, hr₂, ← List.map_prod_left_eq_zip, ← List.map_prod_left_eq_zip]
  exact hp.map _

end

open scoped Sample in
/-- Two claims of different wallets and a name: the claims keep their order, the name does not. -/
theorem order_independent_claims_name :
    let s := LedgerState.new Sample.chainId
    let first := Sample.transaction 1 0 (.claimReward 0 (Challenge.forId 0).answer)
    let second := Sample.transaction 2 0 (.claimReward 1 (Challenge.forId 1).answer)
    let name := Sample.transaction 1 1 (.setDisplayName (some "ada"))
    ∃ rs₁ rs₂ s₁ s₂, applyTransactions [first, second, name] 1 s = .ok rs₁ s₁ ∧
      applyTransactions [first, name, second] 1 s = .ok rs₂ s₂ ∧ rs₁ ≠ rs₂ ∧
      s₁ = s₂ ∧ s₁.stateRoot = s₂.stateRoot ∧
      ([first, second, name].zip rs₁).Perm ([first, name, second].zip rs₂) := by
  intro s first second name
  obtain ⟨rs₁, s₁, h₁⟩ : ∃ rs s', applyTransactions [first, second, name] 1 s = .ok rs s' :=
    EStateM.Result.exists_of_isOk (by decide +kernel)
  obtain ⟨rs₂, s₂, h₂⟩ : ∃ rs s', applyTransactions [first, name, second] 1 s = .ok rs s' :=
    EStateM.Result.exists_of_isOk (by decide +kernel)
  have hne : rs₁ ≠ rs₂ := by
    rintro rfl
    have h := (receipts_of_run h₁).symm.trans (receipts_of_run h₂)
    have hne : [first, second, name].map s.receiptIn ≠ [first, name, second].map s.receiptIn := by
      decide +kernel
    exact hne h
  exact ⟨rs₁, rs₂, s₁, s₂, h₁, h₂, hne,
    order_independent (.cons _ (.swap _ _ _)) h₁ h₂⟩

end LedgerState

end KCoin
