import KCoin.Lib.Base64
import KCoin.Lib.Bech32
import KCoin.Node.Storage

/-!
# Submissions

A wallet submits a transaction as JSON, with its numbers as decimal text, its keys and signature in
Base64 and addresses in Bech32m. This is how the node reads it.
-/

open Borsh

namespace KCoin

/-! ## Text -/

def addressHrp : String := "kcoin"

/-- The Base64 and Bech32 texts of a node's libraries: a text is accepted as Base64 when it is the
padded encoding of its bytes, and addresses are written in the format of BIP-350. -/
class Encodings extends Formats where
  base64Decode : String → Option (List UInt8)
  base64Decode_eq_some : ∀ {text : String} {bytes : List UInt8},
    base64Decode text = some bytes ↔ text.toList = Base64.encode bytes
  /-- The readable part and the bytes of a text with a checksum of either kind. -/
  bech32Decode : String → Option (String × List UInt8)
  addressToText_eq : ∀ a : Address,
    (addressToText a).toList = Bech32.encodeBytes addressHrp.toList a.bytes.toList

/-- `Address::from_str`: writing the address again must give the text, which settles the checksum,
the case and the padding. -/
def Address.fromStr [Encodings] (value : String) : Except ValidationError Address := do
  let (hrp, decoded) ← okOr .malformedAddress (Encodings.bech32Decode value)
  ensure (hrp = addressHrp) .malformedAddress
  let bytes ← okOr .malformedAddress (Bytes.ofList 20 decoded)
  ensure (Formats.addressToText ⟨bytes⟩ = value) .malformedAddress
  return ⟨bytes⟩

/-! ## Errors -/

/-- The machine-readable code of a validation failure. -/
def ValidationError.code : ValidationError → String
  | .unsupportedProtocolVersion .. => "UNSUPPORTED_VERSION"
  | .invalidChainId | .wrongChain .. => "WRONG_CHAIN"
  | .invalidPublicKey | .malformed => "MALFORMED"
  | .invalidSignature => "INVALID_SIGNATURE"
  | .duplicateTransaction => "DUPLICATE_TRANSACTION"
  | .expired .. => "EXPIRED"
  | .nonceMismatch .. => "NONCE_MISMATCH"
  | .zeroAmount => "ZERO_AMOUNT"
  | .insufficientBalance .. => "INSUFFICIENT_BALANCE"
  | .staleChallenge .. => "STALE_CHALLENGE"
  | .wrongChallengeAnswer => "WRONG_CHALLENGE_ANSWER"
  | .supplyExhausted => "SUPPLY_EXHAUSTED"
  | .invalidDisplayName => "INVALID_DISPLAY_NAME"
  | .arithmeticOverflow => "ARITHMETIC_OVERFLOW"
  | .invalidBlockHeight .. => "INVALID_BLOCK_HEIGHT"
  | .invalidParentHash => "INVALID_PARENT_HASH"
  | .invalidTimestamp => "INVALID_TIMESTAMP"
  | .invalidTransactionsRoot => "INVALID_TRANSACTIONS_ROOT"
  | .invalidStateRoot => "INVALID_STATE_ROOT"
  | .invalidCommitCertificate | .duplicateValidator | .unauthorizedValidator
  | .insufficientQuorum .. => "INVALID_COMMIT_CERTIFICATE"
  | .malformedAddress => "MALFORMED_ADDRESS"
  | .payloadTooLarge => "PAYLOAD_TOO_LARGE"

/-- An HTTP status with a code and a message. -/
structure ApiError where
  status : Nat
  code : String
  message : String
  deriving DecidableEq

def ApiError.badRequest (code message : String) : ApiError := ⟨400, code, message⟩

def ApiError.validation (e : ValidationError) : ApiError where
  status := match e with
    | .duplicateTransaction => 409
    | .insufficientBalance .. | .nonceMismatch .. | .staleChallenge .. | .wrongChallengeAnswer
    | .expired .. => 422
    | _ => 400
  code := e.code
  message := e.toText

/-! ## Fields -/

inductive ActionSubmission
  | transfer (recipient amountAtoms : String)
  | claimReward (challengeId answer : String)
  | setDisplayName (displayName : Option String)
  deriving DecidableEq

/-- A submission without its signature. -/
structure UnsignedSubmission where
  protocolVersion : UInt16
  chainId : String
  senderPublicKey : String
  nonce : String
  expiryHeight : String
  action : ActionSubmission
  deriving DecidableEq

structure TransactionSubmission extends UnsignedSubmission where
  signature : String
  deriving DecidableEq

/-- `u16::from_str` -/
def parseU16 (text : List Char) : Option UInt16 :=
  (Store.parseU64 text).bind fun n =>
    if n.toNat < 2 ^ 16 then some (UInt16.ofNat n.toNat) else none

def decodeFixed [Encodings] (n : Nat) (value field : String) : Except ApiError (Bytes n) := do
  let bytes ← okOr (.badRequest "MALFORMED" s!"{field} must be canonical base64")
    (Encodings.base64Decode value)
  okOr (.badRequest "MALFORMED" s!"{field} must contain {n} bytes") (Bytes.ofList n bytes)

def parseU64Field (value field : String) : Except ApiError UInt64 :=
  okOr (.badRequest "MALFORMED" s!"{field} must be an unsigned 64-bit decimal string")
    (Store.parseU64 value.toList)

def actionFromSubmission [Encodings] : ActionSubmission → Except ApiError TransactionAction
  | .transfer recipient amountAtoms => do
    let recipient ← (Address.fromStr recipient).mapError .validation
    let amountAtoms ← parseU64Field amountAtoms "amount_atoms"
    return .transfer recipient amountAtoms
  | .claimReward challengeId answer => do
    let challengeId ← parseU64Field challengeId "challenge_id"
    let answer ← okOr (.badRequest "MALFORMED" "answer must be an unsigned 16-bit integer")
      (parseU16 answer.toList)
    return .claimReward challengeId answer
  | .setDisplayName displayName => return .setDisplayName displayName

/-- The fields after the key and the signature. -/
def unsignedFromSubmission [Encodings] (s : UnsignedSubmission) (senderPublicKey : Bytes 32) :
    Except ApiError UnsignedTransaction := do
  let chainId ← (ChainId.new s.chainId).mapError .validation
  let nonce ← parseU64Field s.nonce "nonce"
  let expiryHeight ← parseU64Field s.expiryHeight "expiry_height"
  let action ← actionFromSubmission s.action
  return { protocolVersion := s.protocolVersion, chainId, senderPublicKey, nonce, expiryHeight,
           action }

def SignedTransaction.fromParts [Primitives] (unsigned : UnsignedTransaction)
    (signature : Bytes 64) : Except ValidationError SignedTransaction := do
  let t : SignedTransaction := ⟨unsigned, signature⟩
  t.verifySignature
  return t

/-- The transaction of a submission, with its signature verified. -/
def transactionFromSubmission [Primitives] [Encodings] (s : TransactionSubmission) :
    Except ApiError SignedTransaction := do
  let publicKey ← decodeFixed 32 s.senderPublicKey "sender_public_key"
  let signature ← decodeFixed 64 s.signature "signature"
  let unsigned ← unsignedFromSubmission s.toUnsignedSubmission publicKey
  (SignedTransaction.fromParts unsigned signature).mapError .validation

end KCoin
