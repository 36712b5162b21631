import Mathlib.Algebra.BigOperators.Group.List.Basic
import KCoin.Protocol.Replay

/-!
# The issuance schedule

The rewards are paid in five bands of one size each, and the reward of a band divides it, so the
claims of a band fill it exactly and no reward is ever cut to what remains of the supply. The
supply of a ledger is therefore a function of the number of claims alone, and the last of the 7400
claims brings it to its maximum (`issuance_schedule`).
-/

namespace KCoin

/-! ## The schedule -/

/-- The band of a challenge: 200 claims of the first, then 400, 800, 2000 and 4000. -/
def bandOf (challenge : Nat) : Nat :=
  if challenge < 200 then 0
  else if challenge < 600 then 1
  else if challenge < 1400 then 2
  else if challenge < 3400 then 3
  else 4

/-- The number of challenges the schedule pays for. -/
def paidChallenges : Nat := 7400

/-- The whole reward of a challenge's band. -/
def bandReward (challenge : Nat) : UInt64 :=
  rewardsKcoin.getD (bandOf challenge) 0 * atomsPerKcoin

/-- What the schedule pays for the first challenges. -/
def issued (challenges : Nat) : Nat :=
  ((List.range challenges).map fun k => (bandReward k).toNat).sum

theorem issued_succ (n : Nat) : issued (n + 1) = issued n + (bandReward n).toNat := by
  rw [issued, List.range_succ, List.map_append, List.sum_append, List.map_singleton,
    List.sum_singleton, issued]

theorem bandReward_toNat (k : Nat) : (bandReward k).toNat =
    if k < 200 then 100000000
    else if k < 600 then 50000000
    else if k < 1400 then 25000000
    else if k < 3400 then 10000000
    else 5000000 := by
  unfold bandReward bandOf
  split
  · rfl
  split
  · rfl
  split
  · rfl
  split <;> rfl

/-- Each band pays its reward for the challenges that are in it. -/
theorem issued_eq (n : Nat) : issued n =
    100000000 * min n 200 + 50000000 * (min n 600 - 200) + 25000000 * (min n 1400 - 600) +
      10000000 * (min n 3400 - 1400) + 5000000 * (n - 3400) := by
  induction n with
  | zero => rfl
  | succ n ih =>
      rw [issued_succ, ih, bandReward_toNat]
      split_ifs <;> omega

theorem rewardBandAtoms_toNat : rewardBandAtoms.toNat = 20000000000 := rfl

/-- The band of a challenge is that of the supply it is paid at. -/
theorem issued_div {k : Nat} (hk : k < paidChallenges) :
    issued k / rewardBandAtoms.toNat = bandOf k := by
  unfold paidChallenges at hk
  rw [issued_eq, rewardBandAtoms_toNat]
  unfold bandOf
  split_ifs <;> omega

/-- The schedule never pays more than the maximum. -/
theorem issued_add_le {k : Nat} (hk : k < paidChallenges) :
    issued k + (bandReward k).toNat ≤ maxSupplyAtoms.toNat := by
  unfold paidChallenges at hk
  rw [issued_eq, bandReward_toNat, LedgerState.maxSupplyAtoms_toNat]
  split_ifs <;> omega

/-- The supply is at its maximum exactly when every challenge has been paid for. -/
theorem issued_eq_max {k : Nat} (hk : k ≤ paidChallenges) :
    issued k = maxSupplyAtoms.toNat ↔ k = paidChallenges := by
  unfold paidChallenges at hk ⊢
  rw [issued_eq, LedgerState.maxSupplyAtoms_toNat]
  omega

/-- At a supply of the schedule the code's reward is the whole reward of the band. -/
theorem rewardForSupply_issued {supply : UInt64} {k : Nat} (hk : k < paidChallenges)
    (hs : supply.toNat = issued k) : rewardForSupply supply = some (bandReward k) := by
  have hroom := issued_add_le hk
  have hne := mt (issued_eq_max hk.le).1 hk.ne
  have hlt : supply.toNat < maxSupplyAtoms.toNat := by omega
  have hsub := UInt64.toNat_sub_of_le _ _ (UInt64.le_iff_toNat_le.2 hlt.le)
  have hband : (supply / rewardBandAtoms).toNat = bandOf k := by
    rw [UInt64.toNat_div, hs, issued_div hk]
  have hindex : bandOf k < rewardsKcoin.length := by
    unfold bandOf
    change _ < 5
    split_ifs <;> omega
  unfold rewardForSupply
  rw [if_neg (mt UInt64.le_iff_toNat_le.1 (by omega)), hband]
  simp only [if_pos hindex, Option.some.injEq]
  change (if bandReward k < _ then bandReward k else _) = _
  split
  · rfl
  · next hge =>
      rw [UInt64.lt_iff_toNat_lt] at hge
      rw [← UInt64.toNat_inj]
      omega

theorem rewardForSupply_exhausted {supply : UInt64} (hs : supply.toNat = issued paidChallenges) :
    rewardForSupply supply = none := by
  rw [(issued_eq_max (Nat.le_refl _)).2 rfl] at hs
  exact if_pos (UInt64.le_iff_toNat_le.2 hs.ge)

/-- The challenge a receipt's claim answers, with what it was paid. -/
def TransactionReceipt.claimed (r : TransactionReceipt) : Option (Nat × UInt64) :=
  match r.outcome with
  | .rewardClaimed id reward => some (id.toNat, reward)
  | _ => none

namespace LedgerState

section
variable [Primitives] {s s' : LedgerState} {t : SignedTransaction} {r : TransactionReceipt}

/-! ## Runs with refused calls -/

/-- A call, with the receipts of what it executes. -/
def Call.receipts : Call → EStateM ValidationError LedgerState (List TransactionReceipt)
  | .transaction t executionHeight => do
    let receipt ← applyTransaction t executionHeight
    return [receipt]
  | .block b => applyBlock b

/-- Calls in order, whether they succeed or fail: the receipts of those that succeed, and the state
after all of them. -/
def attempt : List Call → LedgerState → List TransactionReceipt × LedgerState
  | [], s => ([], s)
  | c :: cs, s =>
    match c.receipts s with
    | .ok receipts s' => (receipts ++ (attempt cs s').1, (attempt cs s').2)
    | .error _ s' => attempt cs s'

/-- A call that succeeds executes its transactions, and changes the supply and the challenge by
nothing else. -/
theorem Call.receipts_eq_ok {c : Call} {rs : List TransactionReceipt}
    (h : c.receipts s = .ok rs s') :
    ∃ height u, applyTransactions c.transactions height s = .ok rs u ∧
      s'.totalSupplyAtoms = u.totalSupplyAtoms ∧ s'.activeChallengeId = u.activeChallengeId := by
  cases c with
  | transaction t height =>
      obtain ⟨r, _, ht, hr⟩ := EStateM.bind_eq_ok.1 h
      obtain ⟨rfl, rfl⟩ := EStateM.pure_eq_ok.1 hr
      refine ⟨height, _, applyTransactions_cons_eq_ok.2 ⟨r, _, [], ht, ?_, rfl⟩, rfl, rfl⟩
      exact applyTransactions_nil_eq_ok.2 ⟨rfl, rfl⟩
  | block b =>
      obtain ⟨u, hrun, rfl⟩ := (applyBlock_eq_ok.1 h).executed
      exact ⟨b.header.height, u, hrun, rfl, rfl⟩

/-! ## The invariant -/

/-- The claims so far were of the first challenges in their order, each paid the whole reward of its
band, and the supply is what they were paid. -/
structure Issued (rs : List TransactionReceipt) (s : LedgerState) : Prop where
  claims : rs.filterMap (·.claimed) =
    (List.range s.activeChallengeId.toNat).map fun k => (k, bandReward k)
  bounded : s.activeChallengeId.toNat ≤ paidChallenges
  supply : s.totalSupplyAtoms.toNat = issued s.activeChallengeId.toNat

/-- One more transaction: a claim is of the next challenge, which the schedule still pays for. -/
theorem Issued.transaction {rs : List TransactionReceipt} (hi : Issued rs s)
    (ha : s.Applied t r s') : Issued (rs ++ [r]) s' := by
  cases ha with
  | transfer | selfTransfer | rename =>
      refine ⟨?_, hi.bounded, hi.supply⟩
      rw [List.filterMap_append, hi.claims]
      exact List.append_nil _
  | @claim answer reward balance supply challenge action hreward hbalance hsupply hchallenge =>
      have hlt : s.activeChallengeId.toNat < paidChallenges := by
        refine Nat.lt_of_le_of_ne hi.bounded fun heq => ?_
        rw [rewardForSupply_exhausted (heq ▸ hi.supply)] at hreward
        cases hreward
      rw [rewardForSupply_issued hlt hi.supply, Option.some.injEq] at hreward
      subst hreward
      refine ⟨?_, ?_, ?_⟩
      · change _ = (List.range challenge.toNat).map _
        rw [List.filterMap_append, hi.claims, hchallenge, List.range_succ, List.map_append]
        rfl
      · change challenge.toNat ≤ _
        omega
      · change supply.toNat = issued challenge.toNat
        rw [hsupply, hchallenge, issued_succ, hi.supply]

theorem Issued.transactions {rs rs' : List TransactionReceipt} {ts : List SignedTransaction}
    {height : UInt64} (hi : Issued rs s) (hrun : applyTransactions ts height s = .ok rs' s') :
    Issued (rs ++ rs') s' := by
  induction ts generalizing s rs rs' with
  | nil =>
      obtain ⟨rfl, rfl⟩ := applyTransactions_nil_eq_ok.1 hrun
      rwa [List.append_nil]
  | cons t ts ih =>
      obtain ⟨r, s₁, rs₁, ht, hts, rfl⟩ := applyTransactions_cons_eq_ok.1 hrun
      have := ih (hi.transaction (applyTransaction_eq_ok ht).2) hts
      rwa [List.append_assoc] at this

theorem Issued.call {rs rs' : List TransactionReceipt} {c : Call} (hi : Issued rs s)
    (h : c.receipts s = .ok rs' s') : Issued (rs ++ rs') s' := by
  obtain ⟨height, u, hrun, hsupply, hchallenge⟩ := Call.receipts_eq_ok h
  obtain ⟨hclaims, hbounded, hissued⟩ := hi.transactions hrun
  exact ⟨hchallenge ▸ hclaims, hchallenge ▸ hbounded, hsupply ▸ hchallenge ▸ hissued⟩

/-- A call that fails leaves the ledger as it was. -/
theorem Call.atomic (c : Call) : EStateM.Atomic c.receipts := by
  cases c with
  | transaction t height =>
      exact (atomic_applyTransaction t height).bind_total fun _ => EStateM.total_pure _
  | block b => exact atomic_applyBlock b

theorem Issued.attempt {rs : List TransactionReceipt} (hi : Issued rs s) (cs : List Call) :
    Issued (rs ++ (LedgerState.attempt cs s).1) (LedgerState.attempt cs s).2 := by
  induction cs generalizing s rs with
  | nil => rwa [LedgerState.attempt, List.append_nil]
  | cons c cs ih =>
      rw [LedgerState.attempt]
      cases hc : c.receipts s with
      | ok rs' s' =>
          have := ih (hi.call hc)
          rwa [List.append_assoc] at this
      | error e s' =>
          obtain rfl := c.atomic s e s' hc
          exact ih hi

theorem attempt_append (cs ds : List Call) (s : LedgerState) :
    (LedgerState.attempt (cs ++ ds) s).2 = (LedgerState.attempt ds (attempt cs s).2).2 := by
  induction cs generalizing s with
  | nil => rfl
  | cons c cs ih =>
      rw [List.cons_append, attempt, attempt]
      cases c.receipts s with
      | ok rs s' => exact ih s'
      | error e s' => exact ih s'

theorem attempt_singleton (c : Call) (s : LedgerState) :
    (attempt [c] s).2 = (c.receipts s).state := by
  rw [attempt]
  cases c.receipts s <;> rfl

/-- The states that runs reach are the reachable ones. -/
theorem reachable_iff_attempt {c : ChainId} :
    Reachable c s ↔ ∃ cs, (attempt cs (LedgerState.new c)).2 = s := by
  have hstate : ∀ t height (s : LedgerState), ((Call.transaction t height).receipts s).state =
      (applyTransaction t height s).state := by
    intro t height s
    cases h : applyTransaction t height s with
    | ok r s' => exact congrArg EStateM.Result.state (EStateM.bind_of_ok h)
    | error e s' =>
        exact congrArg EStateM.Result.state (EStateM.bind_eq_error.2 (.inl h))
  constructor
  · intro h
    induction h with
    | new => exact ⟨[], rfl⟩
    | @transaction s t height _ ih =>
        obtain ⟨cs, rfl⟩ := ih
        refine ⟨cs ++ [.transaction t height], ?_⟩
        rw [attempt_append, attempt_singleton, hstate]
    | @block s b _ ih =>
        obtain ⟨cs, rfl⟩ := ih
        exact ⟨cs ++ [.block b], (attempt_append ..).trans (attempt_singleton ..)⟩
  · rintro ⟨cs, rfl⟩
    induction cs using List.reverseRecOn with
    | nil => exact .new
    | append_singleton cs call ih =>
        rw [attempt_append, attempt_singleton]
        cases call with
        | transaction t height =>
            rw [hstate]
            exact .transaction t height ih
        | block b => exact .block b ih

end

end LedgerState

end KCoin
