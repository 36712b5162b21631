import KCoin.Protocol.Order
import KCoin.Node.Chain

/-!
# What the receipts of a block say

The explorer shows a block by the receipts of its transactions. A receipt says of its transaction who
sent it, what it did and to whom (`Describes`), so what is counted in the receipts of a block is
counted in its transactions: how many concern an address (`activity_of_receipts`), and whether the
open challenge was claimed (`challenge_of_receipts`). Texts of hashes tell the hashes apart.
-/

open Borsh

namespace KCoin

/-! ## Texts of hashes -/

theorem hexDigit_inj {m n : Nat} (hm : m < 16) (hn : n < 16) (h : hexDigit m = hexDigit n) :
    m = n := by
  have hall : ∀ i j : Fin 16, hexDigit i = hexDigit j → i = j := by decide
  exact congrArg Fin.val (hall ⟨m, hm⟩ ⟨n, hn⟩ h)

theorem hexEncode_injective : Function.Injective hexEncode := by
  intro bs bs' h
  have h : (bs.flatMap fun b => [hexDigit (b.toNat / 16), hexDigit (b.toNat % 16)]) =
      bs'.flatMap fun b => [hexDigit (b.toNat / 16), hexDigit (b.toNat % 16)] :=
    String.ofList_injective h
  induction bs generalizing bs' with
  | nil =>
      cases bs' with
      | nil => rfl
      | cons b' bs' => cases h
  | cons b bs ih =>
      cases bs' with
      | nil => cases h
      | cons b' bs' =>
          simp only [List.flatMap_cons, List.cons_append, List.nil_append, List.cons.injEq] at h
          have hlt := b.toNat_lt
          have hlt' := b'.toNat_lt
          have hhigh := hexDigit_inj (by omega) (by omega) h.1
          have hlow := hexDigit_inj (by omega) (by omega) h.2.1
          have hb : b = b' := UInt8.toNat_inj.1 (by omega)
          rw [hb, ih (congrArg String.ofList h.2.2) h.2.2]

theorem Hash32.toText_injective : Function.Injective Hash32.toText := fun _ _ h =>
  Hash32.ext (Bytes.toList_injective (hexEncode_injective h))

/-! ## A transaction and its receipt -/

variable [Primitives]

/-- The receipt of a transaction says who sent it and what it did. -/
inductive Describes (t : SignedTransaction) : TransactionReceipt → Prop
  | transfer (recipient : Address) (amount : UInt64)
      (h : t.unsigned.action = .transfer recipient amount) :
      Describes t ⟨t.id, t.senderAddress, t.unsigned.nonce, .transfer recipient amount⟩
  | claim (id : UInt64) (answer : UInt16) (reward : UInt64)
      (h : t.unsigned.action = .claimReward id answer) :
      Describes t ⟨t.id, t.senderAddress, t.unsigned.nonce, .rewardClaimed id reward⟩
  | rename (name : Option String) (h : t.unsigned.action = .setDisplayName name) :
      Describes t ⟨t.id, t.senderAddress, t.unsigned.nonce, .displayNameUpdated name⟩

namespace LedgerState

variable {s s' : LedgerState}

theorem Applied.describes {t : SignedTransaction} {r : TransactionReceipt}
    (h : s.Applied t r s') : Describes t r := by
  cases h with
  | transfer action => exact .transfer _ _ action
  | selfTransfer action => exact .transfer _ _ action
  | claim action => exact .claim _ _ _ action
  | rename action => exact .rename _ action

theorem applyTransactions_describes {ts : List SignedTransaction} {height : UInt64}
    {rs : List TransactionReceipt} (h : applyTransactions ts height s = .ok rs s') :
    List.Forall₂ Describes ts rs := by
  induction ts generalizing s rs with
  | nil =>
      obtain ⟨rfl, -⟩ := applyTransactions_nil_eq_ok.1 h
      exact .nil
  | cons t ts ih =>
      obtain ⟨r, s₁, rs', hr, hrest, rfl⟩ := applyTransactions_cons_eq_ok.1 h
      exact .cons (applyTransaction_eq_ok hr).2.describes (ih hrest)

end LedgerState

theorem Describes.id {t : SignedTransaction} {r : TransactionReceipt} (h : Describes t r) :
    r.transactionId = t.id := by
  cases h <;> rfl

theorem ids_of_receipts {ts : List SignedTransaction} {rs : List TransactionReceipt}
    (h : List.Forall₂ Describes ts rs) : rs.map (·.transactionId) = ts.map (·.id) := by
  induction h with
  | nil => rfl
  | cons hd _ ih => rw [List.map_cons, List.map_cons, hd.id, ih]

/-! ## Activity -/

/-- The address sends or receives. -/
def SignedTransaction.involves (t : SignedTransaction) (address : Address) : Bool :=
  t.senderAddress = address || match t.unsigned.action with
    | .transfer recipient _ => recipient = address
    | _ => false

/-- Whoever sends or receives has an account afterwards. -/
theorem Describes.stores {t : SignedTransaction} {r : TransactionReceipt} (h : Describes t r)
    {address : Address} (ha : t.involves address = true) : r.Stores address := by
  unfold SignedTransaction.involves at ha
  rcases Bool.or_eq_true_iff.1 ha with hsender | hrecipient
  · left
    obtain rfl := of_decide_eq_true hsender
    cases h <;> rfl
  · cases h with
    | transfer recipient amount h =>
        rw [h] at hrecipient
        obtain rfl := of_decide_eq_true hrecipient
        exact .inr ⟨amount, rfl⟩
    | claim id answer reward h =>
        rw [h] at hrecipient
        cases hrecipient
    | rename name h =>
        rw [h] at hrecipient
        cases hrecipient

/-- A row of the explorer is about an address. -/
def TransactionProjection.mentions (t : TransactionProjection) (text : String) : Bool :=
  t.sender = text || t.recipient = some text

section
omit [Primitives]

theorem getD_countActivity (activity : BTreeMap String UInt64) (address text : String) :
    ((countActivity activity address)[text]?).getD 0 =
      (activity[text]?).getD 0 + if address = text then 1 else 0 := by
  unfold countActivity
  rcases eq_or_ne address text with rfl | hne
  · rw [Std.ExtTreeMap.getElem?_insert_self]
    simp
  · rw [BTreeMap.getElem?_insert_ne hne]
    simp [hne]

/-- Count the sender and the recipient of a transaction, once if they are the same. -/
def countTransaction (activity : BTreeMap String UInt64) (t : TransactionProjection) :
    BTreeMap String UInt64 :=
  let activity := countActivity activity t.sender
  match t.recipient with
  | some recipient => if recipient ≠ t.sender then countActivity activity recipient else activity
  | none => activity

theorem getD_countTransaction (activity : BTreeMap String UInt64) (t : TransactionProjection)
    (text : String) : ((countTransaction activity t)[text]?).getD 0 =
      (activity[text]?).getD 0 + if t.mentions text then 1 else 0 := by
  unfold countTransaction TransactionProjection.mentions
  cases hr : t.recipient with
  | none =>
      dsimp only
      rw [getD_countActivity]
      simp
  | some recipient =>
      dsimp only
      split
      · next hne =>
          rw [getD_countActivity, getD_countActivity]
          rcases eq_or_ne t.sender text with rfl | hsender
          · simp [hne]
          · simp [hsender]
      · next heq =>
          rw [getD_countActivity, not_not.1 heq]
          simp

theorem getD_accountActivity (l : List TransactionProjection) (text : String) :
    ((accountActivity l)[text]?).getD 0 = UInt64.ofNat (l.countP (·.mentions text)) := by
  have hfold : ∀ activity : BTreeMap String UInt64,
      ((l.foldl countTransaction activity)[text]?).getD 0 =
        (activity[text]?).getD 0 + UInt64.ofNat (l.countP (·.mentions text)) := by
    induction l with
    | nil => simp
    | cons t l ih =>
        intro activity
        rw [List.foldl_cons, ih, List.countP_cons, getD_countTransaction]
        split
        · rw [UInt64.ofNat_add, UInt64.add_assoc, UInt64.add_comm 1]
          rfl
        · simp
  have hstart := hfold ∅
  rw [Std.ExtTreeMap.getElem?_empty, Option.getD_none, UInt64.zero_add] at hstart
  exact hstart

end

variable [Formats]

/-- The row of a transaction is about the addresses that the transaction involves. -/
theorem Describes.mentions {t : SignedTransaction} {r : TransactionReceipt} (h : Describes t r)
    (index : Nat) (address : Address) :
    (r.projection index).mentions (Formats.addressToText address) = t.involves address := by
  have htext : ∀ a, Formats.addressToText a = Formats.addressToText address ↔ a = address :=
    fun a => Formats.addressToText_injective.eq_iff
  cases h with
  | transfer recipient amount h =>
      simp [TransactionProjection.mentions, TransactionReceipt.projection,
        TransactionReceipt.shown, SignedTransaction.involves, h, htext]
  | claim id answer reward h =>
      simp [TransactionProjection.mentions, TransactionReceipt.projection,
        TransactionReceipt.shown, SignedTransaction.involves, h, htext]
  | rename name h =>
      simp [TransactionProjection.mentions, TransactionReceipt.projection,
        TransactionReceipt.shown, SignedTransaction.involves, h, htext]

/-- What is counted for an address in the receipts of a block. -/
theorem activity_of_receipts {ts : List SignedTransaction} {rs : List TransactionReceipt}
    (h : List.Forall₂ Describes ts rs) (address : Address) :
    ((accountActivity (rs.mapIdx TransactionReceipt.projection))[Formats.addressToText address]?).getD
      0 = UInt64.ofNat (ts.countP (·.involves address)) := by
  rw [getD_accountActivity]
  have hcount : ∀ n : Nat, (rs.mapIdx fun i => TransactionReceipt.projection (i + n)).countP
      (·.mentions (Formats.addressToText address)) = ts.countP (·.involves address) := by
    induction h with
    | nil => intro n; rfl
    | cons hd _ ih =>
        intro n
        rw [List.mapIdx_cons, List.countP_cons, List.countP_cons, hd.mentions]
        have hrest := ih (n + 1)
        simp only [Nat.add_assoc, Nat.add_comm 1 n] at hrest ⊢
        rw [hrest]
  exact congrArg UInt64.ofNat (hcount 0)

/-! ## The open challenge -/

omit [Formats] in
theorem Challenge.forId_id (id : UInt64) : (Challenge.forId id).id = id := by
  simp only [Challenge.forId, apply_ite Challenge.id, ite_self]

omit [Formats] in
/-- A transaction claims the open challenge, which opens the next one, or leaves it open. -/
theorem LedgerState.Applied.challenge {s s' : LedgerState} {t : SignedTransaction}
    {r : TransactionReceipt} (h : s.Applied t r s') :
    (NodeM.challengeAdvanced [r] = false ∧ s'.activeChallengeId = s.activeChallengeId) ∨
      (NodeM.challengeAdvanced [r] = true ∧ opensChallenge s'.activeChallengeId t = true) := by
  cases h with
  | transfer => exact .inl ⟨rfl, rfl⟩
  | selfTransfer => exact .inl ⟨rfl, rfl⟩
  | @claim answer reward balance supply challenge action hreward hbalance hsupply hchallenge =>
      refine .inr ⟨rfl, ?_⟩
      unfold opensChallenge
      rw [action]
      exact beq_iff_eq.2 (checkedAdd_eq_some.2 hchallenge)
  | rename => exact .inl ⟨rfl, rfl⟩

omit [Formats] in
/-- A block whose receipts have no claim leaves the open challenge, and another one has the claim of
the challenge before the open one. -/
theorem challenge_of_receipts {s s' : LedgerState} {ts : List SignedTransaction} {height : UInt64}
    {rs : List TransactionReceipt}
    (h : LedgerState.applyTransactions ts height s = .ok rs s') :
    (NodeM.challengeAdvanced rs = false ∧ s'.activeChallengeId = s.activeChallengeId) ∨
      (NodeM.challengeAdvanced rs = true ∧ ∃ t ∈ ts, opensChallenge s'.activeChallengeId t = true) := by
  induction ts generalizing s rs with
  | nil =>
      obtain ⟨rfl, rfl⟩ := LedgerState.applyTransactions_nil_eq_ok.1 h
      exact .inl ⟨rfl, rfl⟩
  | cons t ts ih =>
      obtain ⟨r, s₁, rs', hr, hrest, rfl⟩ := LedgerState.applyTransactions_cons_eq_ok.1 h
      have happlied := (LedgerState.applyTransaction_eq_ok hr).2
      have hcons : NodeM.challengeAdvanced (r :: rs') =
          (NodeM.challengeAdvanced [r] || NodeM.challengeAdvanced rs') := by
        simp [NodeM.challengeAdvanced]
      rw [hcons]
      rcases ih hrest with ⟨hnone, hsame⟩ | ⟨hsome, t', ht', hopens⟩
      · rw [hnone, hsame, Bool.or_false]
        rcases happlied.challenge with hkept | ⟨hadvanced, hopens⟩
        · exact .inl hkept
        · exact .inr ⟨hadvanced, t, List.mem_cons_self, hopens⟩
      · refine .inr ⟨by rw [hsome, Bool.or_true], t', List.mem_cons_of_mem _ ht', hopens⟩

omit [Formats] in
/-- A transaction opens no challenge but the next one. -/
theorem LedgerState.Applied.opens {s s' : LedgerState} {t : SignedTransaction}
    {r : TransactionReceipt} (h : s.Applied t r s') : s.activeChallengeId ≤ s'.activeChallengeId ∧
      ∀ id, opensChallenge id t = true → s.activeChallengeId < id ∧ id ≤ s'.activeChallengeId := by
  cases h with
  | @claim answer reward balance supply challenge action hreward hbalance hsupply hchallenge =>
      have hlt : s.activeChallengeId < challenge := by
        rw [UInt64.lt_iff_toNat_lt]
        omega
      refine ⟨UInt64.le_of_lt hlt, fun id hopens => ?_⟩
      unfold opensChallenge at hopens
      rw [action] at hopens
      have hid := checkedAdd_eq_some.1 (beq_iff_eq.1 hopens)
      obtain rfl : id = challenge := UInt64.toNat_inj.1 (hid.trans hchallenge.symm)
      exact ⟨hlt, UInt64.le_refl _⟩
  | transfer action | selfTransfer action | rename action =>
      refine ⟨UInt64.le_refl _, fun id hopens => ?_⟩
      unfold opensChallenge at hopens
      rw [action] at hopens
      cases hopens

omit [Formats] in
/-- The transactions of a block open the challenges from the open one to the next open one. -/
theorem challenges_of_block {s s' : LedgerState} {ts : List SignedTransaction} {height : UInt64}
    {rs : List TransactionReceipt}
    (h : LedgerState.applyTransactions ts height s = .ok rs s') :
    s.activeChallengeId ≤ s'.activeChallengeId ∧ ∀ t ∈ ts, ∀ id, opensChallenge id t = true →
      s.activeChallengeId < id ∧ id ≤ s'.activeChallengeId := by
  induction ts generalizing s rs with
  | nil =>
      obtain ⟨rfl, rfl⟩ := LedgerState.applyTransactions_nil_eq_ok.1 h
      exact ⟨UInt64.le_refl _, nofun⟩
  | cons t ts ih =>
      obtain ⟨r, s₁, rs', hr, hrest, rfl⟩ := LedgerState.applyTransactions_cons_eq_ok.1 h
      obtain ⟨hle, hopens⟩ := (LedgerState.applyTransaction_eq_ok hr).2.opens
      obtain ⟨hle', hopens'⟩ := ih hrest
      refine ⟨UInt64.le_trans hle hle', fun t' ht' id hid => ?_⟩
      rcases List.mem_cons.1 ht' with rfl | ht'
      · obtain ⟨hlt, hid⟩ := hopens id hid
        exact ⟨hlt, UInt64.le_trans hid hle'⟩
      · obtain ⟨hlt, hid⟩ := hopens' t' ht' id hid
        exact ⟨UInt64.lt_of_le_of_lt hle hlt, hid⟩

end KCoin
