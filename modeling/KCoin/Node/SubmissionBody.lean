import KCoin.Node.Sample
import KCoin.Protocol.Codec

/-!
# Submission bodies

The command line submits a transaction as a JSON object, and the node takes the object apart again.
The fields of every transaction whose signature verifies come through (`transaction_of_submitBody`),
and a transaction that was taken from a submission is decoded from its canonical bytes, so another
node can read it from a gossip message (`submission_lossless`).
-/

open Borsh

namespace KCoin

/-! ## JSON values -/

inductive Json
  | null
  | bool (b : Bool)
  | integer (n : Int)
  | float (bits : UInt64)
  | string (s : String)
  | array (elements : List Json)
  | object (fields : List (String × Json))

namespace Json

/-- The value of a field. A field that is missing or that is there twice is an error. -/
def field (fields : List (String × Json)) (name : String) : Option Json :=
  match fields.filter (·.1 = name) with
  | [(_, value)] => some value
  | _ => none

def toText : Json → Option String
  | string s => some s
  | _ => none

def toU16 : Json → Option UInt16
  | integer n => if 0 ≤ n ∧ n < 2 ^ 16 then some (UInt16.ofNat n.toNat) else none
  | _ => none

def textField (fields : List (String × Json)) (name : String) : Option String :=
  (field fields name).bind toText

/-- The text of a field that may be missing or null. -/
def optionalTextField (fields : List (String × Json)) (name : String) : Option (Option String) :=
  match fields.filter (·.1 = name) with
  | [] | [(_, null)] => some none
  | [(_, value)] => value.toText.map some
  | _ => none

end Json

/-! ## The node -/

open Json in
/-- The variant of an action is the value of its field `type`. -/
def ActionSubmission.deserialize : Json → Option ActionSubmission
  | object fields => do
    match ← textField fields "type" with
    | "transfer" =>
      return .transfer (← textField fields "recipient") (← textField fields "amount_atoms")
    | "claim_reward" =>
      return .claimReward (← textField fields "challenge_id") (← textField fields "answer")
    | "set_display_name" => return .setDisplayName (← optionalTextField fields "display_name")
    | _ => none
  | _ => none

open Json in
def TransactionSubmission.deserialize : Json → Option TransactionSubmission
  | object fields => do
    let protocolVersion ← (← field fields "protocol_version").toU16
    let chainId ← textField fields "chain_id"
    let senderPublicKey ← textField fields "sender_public_key"
    let nonce ← textField fields "nonce"
    let expiryHeight ← textField fields "expiry_height"
    let action ← ActionSubmission.deserialize (← field fields "action")
    let signature ← textField fields "signature"
    return { protocolVersion, chainId, senderPublicKey, nonce, expiryHeight, action, signature }
  | _ => none

/-! ## The command line -/

def base64Text (bytes : List UInt8) : String := String.ofList (Base64.encode bytes)

section
variable [Encodings]

def actionBody : TransactionAction → Json
  | .transfer recipient amountAtoms => .object [
    ("type", .string "transfer"),
    ("recipient", .string (Formats.addressToText recipient)),
    ("amount_atoms", .string (toString amountAtoms))]
  | .claimReward challengeId answer => .object [
    ("type", .string "claim_reward"),
    ("challenge_id", .string (toString challengeId)),
    ("answer", .string (toString answer))]
  | .setDisplayName displayName => .object [
    ("type", .string "set_display_name"),
    ("display_name", displayName.elim .null .string)]

/-- The body that `submit` posts for a transaction. -/
def submitBody (t : SignedTransaction) : Json := .object [
  ("protocol_version", .integer t.unsigned.protocolVersion.toNat),
  ("chain_id", .string t.unsigned.chainId.value),
  ("sender_public_key", .string (base64Text t.unsigned.senderPublicKey.toList)),
  ("nonce", .string (toString t.unsigned.nonce)),
  ("expiry_height", .string (toString t.unsigned.expiryHeight)),
  ("action", actionBody t.unsigned.action),
  ("signature", .string (base64Text t.signature.toList))]

/-! ## What the node reads -/

/-- The action as it is submitted. -/
def submittedAction : TransactionAction → ActionSubmission
  | .transfer recipient amountAtoms =>
    .transfer (Formats.addressToText recipient) (toString amountAtoms)
  | .claimReward challengeId answer => .claimReward (toString challengeId) (toString answer)
  | .setDisplayName displayName => .setDisplayName displayName

/-- The transaction as it is submitted. -/
def submittedTransaction (t : SignedTransaction) : TransactionSubmission where
  protocolVersion := t.unsigned.protocolVersion
  chainId := t.unsigned.chainId.value
  senderPublicKey := base64Text t.unsigned.senderPublicKey.toList
  nonce := toString t.unsigned.nonce
  expiryHeight := toString t.unsigned.expiryHeight
  action := submittedAction t.unsigned.action
  signature := base64Text t.signature.toList

theorem deserialize_actionBody (a : TransactionAction) :
    ActionSubmission.deserialize (actionBody a) = some (submittedAction a) := by
  cases a with
  | transfer recipient amountAtoms => rfl
  | claimReward challengeId answer => rfl
  | setDisplayName displayName => cases displayName <;> rfl

open Json in
theorem submitBody_fields (t : SignedTransaction) : ∃ fields, submitBody t = object fields ∧
    field fields "protocol_version" = some (integer t.unsigned.protocolVersion.toNat) ∧
    textField fields "chain_id" = some t.unsigned.chainId.value ∧
    textField fields "sender_public_key" = some (base64Text t.unsigned.senderPublicKey.toList) ∧
    textField fields "nonce" = some (toString t.unsigned.nonce) ∧
    textField fields "expiry_height" = some (toString t.unsigned.expiryHeight) ∧
    field fields "action" = some (actionBody t.unsigned.action) ∧
    textField fields "signature" = some (base64Text t.signature.toList) :=
  ⟨_, rfl, rfl, rfl, rfl, rfl, rfl, rfl, rfl⟩

/-- The fields of the body are read back as they were written. -/
theorem deserialize_submitBody (t : SignedTransaction) :
    TransactionSubmission.deserialize (submitBody t) = some (submittedTransaction t) := by
  have hversion : (Json.integer t.unsigned.protocolVersion.toNat).toU16 =
      some t.unsigned.protocolVersion := by
    have hlt := t.unsigned.protocolVersion.toNat_lt
    rw [Json.toU16, if_pos (by omega), Int.toNat_natCast, UInt16.ofNat_toNat]
  obtain ⟨fields, hbody, hprotocol, hchain, hkey, hnonce, hexpiry, haction, hsignature⟩ :=
    submitBody_fields t
  rw [hbody, TransactionSubmission.deserialize, hprotocol, hchain, hkey, hnonce, hexpiry, haction,
    hsignature, Option.bind_eq_bind, Option.bind_some, hversion, Option.bind_eq_bind,
    Option.bind_some]
  change ((ActionSubmission.deserialize (actionBody t.unsigned.action)).bind _) = _
  rw [deserialize_actionBody]
  rfl

/-! ## Every field comes through -/

omit [Encodings] in
theorem parseU64Field_toString (n : UInt64) (field : String) :
    parseU64Field (toString n) field = .ok n := by
  rw [parseU64Field, Store.toList_toString, Store.parseU64_toDigits]
  rfl

omit [Encodings] in
theorem parseU16_toString (n : UInt16) : parseU16 (toString n).toList = some n := by
  have htext : (toString n).toList = Nat.toDigits 10 n.toNat := by
    change (toString n.toNat).toList = _
    rw [Nat.toString_eq_repr, Nat.toList_repr]
  have hwide : n.toUInt64.toNat = n.toNat := UInt16.toNat_toUInt64 n
  have hlt : n.toUInt64.toNat < 2 ^ 16 := hwide ▸ n.toNat_lt
  rw [parseU16, htext, ← hwide, Store.parseU64_toDigits, Option.bind_some, if_pos hlt, hwide,
    UInt16.ofNat_toNat]

theorem decodeFixed_base64Text {n : Nat} (bytes : Bytes n) (field : String) :
    decodeFixed n (base64Text bytes.toList) field = .ok bytes := by
  have htext : Encodings.base64Decode (base64Text bytes.toList) = some bytes.toList :=
    Encodings.base64Decode_eq_some.2 (String.toList_ofList ..)
  rw [decodeFixed, htext]
  exact Except.okOr_eq_ok.2 (Bytes.ofList_eq_some.2 rfl)

theorem fromStr_addressToText {a : Address}
    (h : Encodings.bech32Decode (Formats.addressToText a) = some (addressHrp, a.bytes.toList)) :
    Address.fromStr (Formats.addressToText a) = .ok a := by
  refine Except.bind_eq_ok.2 ⟨_, Except.okOr_eq_ok.2 h, ?_⟩
  refine Except.bind_eq_ok.2 ⟨(), Except.ensure_eq_ok.2 rfl, ?_⟩
  refine Except.bind_eq_ok.2 ⟨_, Except.okOr_eq_ok.2 (Bytes.ofList_eq_some.2 rfl), ?_⟩
  exact Except.bind_eq_ok.2 ⟨(), Except.ensure_eq_ok.2 rfl, rfl⟩

theorem actionFromSubmission_submitted
    (hbech32 : ∀ a : Address, Encodings.bech32Decode (Formats.addressToText a) =
      some (addressHrp, a.bytes.toList)) (a : TransactionAction) :
    actionFromSubmission (submittedAction a) = .ok a := by
  cases a with
  | transfer recipient amountAtoms =>
      rw [submittedAction, actionFromSubmission, fromStr_addressToText (hbech32 recipient),
        parseU64Field_toString]
      rfl
  | claimReward challengeId answer =>
      rw [submittedAction, actionFromSubmission, parseU64Field_toString, parseU16_toString]
      rfl
  | setDisplayName displayName => rfl

variable [Primitives]

/-- The node takes the transaction out of the body that was posted for it. -/
theorem transaction_of_submitBody
    (hbech32 : ∀ a : Address, Encodings.bech32Decode (Formats.addressToText a) =
      some (addressHrp, a.bytes.toList)) {t : SignedTransaction}
    (ht : t.verifySignature = .ok ()) :
    transactionFromSubmission (submittedTransaction t) = .ok t := by
  have hchain : ChainId.new t.unsigned.chainId.value = .ok t.unsigned.chainId := by
    obtain ⟨-, hchain, -⟩ := UnsignedTransaction.validateShape_eq_ok.1
      (SignedTransaction.shape_of_verifySignature ht)
    exact Except.bind_eq_ok.2 ⟨(), hchain, rfl⟩
  have hunsigned : unsignedFromSubmission (submittedTransaction t).toUnsignedSubmission
      t.unsigned.senderPublicKey = .ok t.unsigned := by
    unfold unsignedFromSubmission submittedTransaction
    dsimp only
    rw [hchain, parseU64Field_toString, parseU64Field_toString,
      actionFromSubmission_submitted hbech32]
    rfl
  refine Except.bind_eq_ok.2 ⟨_, decodeFixed_base64Text _ _, ?_⟩
  refine Except.bind_eq_ok.2 ⟨_, decodeFixed_base64Text _ _, ?_⟩
  refine Except.bind_eq_ok.2 ⟨_, hunsigned, ?_⟩
  exact Except.mapError_eq_ok.2 (Except.bind_eq_ok.2 ⟨(), ht, rfl⟩)

/-- A transaction that was taken from a submission has a signature that verifies. -/
theorem verifySignature_of_submission {s : TransactionSubmission} {t : SignedTransaction}
    (h : transactionFromSubmission s = .ok t) : t.verifySignature = .ok () := by
  obtain ⟨_, -, h⟩ := Except.bind_eq_ok.1 h
  obtain ⟨_, -, h⟩ := Except.bind_eq_ok.1 h
  obtain ⟨_, -, h⟩ := Except.bind_eq_ok.1 h
  obtain ⟨_, hverified, h⟩ := Except.bind_eq_ok.1 (Except.mapError_eq_ok.1 h)
  obtain rfl := Except.pure_eq_ok.1 h
  exact hverified

/-- A submission loses nothing: the node takes every transaction whose signature verifies out of the
body that is posted for it, and every transaction that it takes out of a submission is what its
canonical bytes are decoded as. The library of Bech32 texts reads back what it writes. -/
theorem submission_lossless
    (hbech32 : ∀ a : Address, Encodings.bech32Decode (Formats.addressToText a) =
      some (addressHrp, a.bytes.toList)) :
    (∀ t : SignedTransaction, t.verifySignature = .ok () → ∃ s,
      TransactionSubmission.deserialize (submitBody t) = some s ∧
        transactionFromSubmission s = .ok t) ∧
    ∀ s t, transactionFromSubmission s = .ok t → SignedTransaction.decode t.canonicalBytes = .ok t := by
  refine ⟨fun t ht => ?_, fun s t h => ?_⟩
  · exact ⟨_, deserialize_submitBody t, transaction_of_submitBody hbech32 ht⟩
  · exact SignedTransaction.decode_iff.2 ⟨verifySignature_of_submission h, rfl⟩

end

open scoped Sample in
/-- A transfer of the largest amount. -/
def Sample.largestTransfer : SignedTransaction :=
  let unsigned : UnsignedTransaction :=
    ⟨1, Sample.chainId, Primitives.verifyingKey (Sample.key 9), 18446744073709551615, 42,
      .transfer (.fromPublicKey (Bytes.fill 32 7)) 18446744073709551615⟩
  ⟨unsigned, Primitives.sign (Sample.key 9) unsigned.signingBytes⟩

open scoped Sample in
theorem submission_lossless_transfer : (∃ s,
    TransactionSubmission.deserialize (submitBody Sample.largestTransfer) = some s ∧
      transactionFromSubmission s = .ok Sample.largestTransfer) ∧
    SignedTransaction.decode Sample.largestTransfer.canonicalBytes = .ok Sample.largestTransfer := by
  obtain ⟨hread, hdecode⟩ := submission_lossless fun a => by
    change ((Wallet.decodeBech32m (Sample.addressText a).toList addressHrp.toList).toOption.map _) = _
    rw [Sample.decodeBech32m_addressText]
    rfl
  obtain ⟨s, hs, ht⟩ := hread Sample.largestTransfer (by decide +kernel)
  exact ⟨⟨s, hs, ht⟩, hdecode s _ ht⟩

end KCoin
