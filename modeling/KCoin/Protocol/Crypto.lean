import KCoin.Lib.Borsh
import KCoin.Lib.Fallible

/-!
# Identifiers and cryptography of the protocol

The typed identifiers of the protocol and the primitives it takes from its libraries: BLAKE3 in
its key-derivation mode and strict Ed25519. They are the parameters of the whole development, a
class `Primitives` without laws; where a result needs a property of them, it says so.
-/

open Borsh

namespace KCoin

/-- The Ed25519 secret key of a validator or a wallet. -/
@[ext] structure SigningKey where
  seed : Bytes 32

/-- The hash function and the signature scheme. -/
class Primitives where
  /-- BLAKE3-256 in key-derivation mode: the context string, then the input. -/
  blake3 : String → List UInt8 → Bytes 32
  /-- The public key of a secret key. -/
  verifyingKey : SigningKey → Bytes 32
  /-- The signature of a message. -/
  sign : SigningKey → List UInt8 → Bytes 64
  /-- The bytes decode to a curve point. -/
  validKey : Bytes 32 → Bool
  /-- `verify_strict` of a signature of the message under the key. -/
  verifyStrict : Bytes 32 → List UInt8 → Bytes 64 → Bool

/-! ## Constants -/

/-- The only wire-compatible protocol version. -/
def protocolVersion : UInt16 := 1

def atomsPerKcoin : UInt64 := 1000000

/-- The maximum supply, in atomic units (100,000 KCoin). -/
def maxSupplyAtoms : UInt64 := 100000 * atomsPerKcoin

def maxTransactionBytes : Nat := 4 * 1024
def maxBlockBytes : Nat := 2 * 1024 * 1024
def maxCommitCertificateBytes : Nat := 64 * 1024

/-- The maximum timestamp advance after genesis (one minute). -/
def maxBlockTimestampStepMs : UInt64 := 60000

/-- The absolute timestamp ceiling. -/
def maxBlockTimestampMs : UInt64 := 32503680000000

def maxDisplayNameBytes : Nat := 64
def maxDisplayNameChars : Nat := 32
def maxChainIdBytes : Nat := 64

def txSignaturePrefix : List UInt8 := utf8 "KCOIN_TX_V1\x00"
def commitSignaturePrefix : List UInt8 := utf8 "KCOIN_COMMIT_V1\x00"
def addressHashDomain : String := "kcoin.dev/v1/address"
def transactionHashDomain : String := "kcoin.dev/v1/transaction-id"
def blockHashDomain : String := "kcoin.dev/v1/block-id"
def stateHashDomain : String := "kcoin.dev/v1/state-root"
def merkleEmptyDomain : String := "kcoin.dev/v1/tx-merkle-empty"
def merkleLeafDomain : String := "kcoin.dev/v1/tx-merkle-leaf"
def merkleNodeDomain : String := "kcoin.dev/v1/tx-merkle-node"
def challengeHashDomain : String := "kcoin.dev/v1/challenge"

/-! ## Errors -/

/-- Deterministic protocol validation failures. -/
inductive ValidationError
  | unsupportedProtocolVersion (expected actual : UInt16)
  | invalidChainId
  | wrongChain (expected actual : String)
  | invalidPublicKey
  | invalidSignature
  | duplicateTransaction
  | expired (expiryHeight currentHeight : UInt64)
  | nonceMismatch (expected actual : UInt64)
  | zeroAmount
  | insufficientBalance (available required : UInt64)
  | staleChallenge (expected actual : UInt64)
  | wrongChallengeAnswer
  | supplyExhausted
  | invalidDisplayName
  | arithmeticOverflow
  | invalidBlockHeight (expected actual : UInt64)
  | invalidParentHash
  | invalidTimestamp
  | invalidTransactionsRoot
  | invalidStateRoot
  | invalidCommitCertificate
  | duplicateValidator
  | unauthorizedValidator
  | insufficientQuorum (required actual : Nat)
  | malformedAddress
  | malformed
  | payloadTooLarge
  deriving DecidableEq, Repr

/-! ## Checked arithmetic -/

/-- `checked_add` of 64-bit numbers. -/
def checkedAdd (a b : UInt64) : Option UInt64 :=
  if a.toNat + b.toNat < 2 ^ 64 then some (a + b) else none

/-- `checked_sub` of 64-bit numbers. -/
def checkedSub (a b : UInt64) : Option UInt64 :=
  if b ≤ a then some (a - b) else none

/-- `saturating_add` of 64-bit numbers. -/
def saturatingAdd (a b : UInt64) : UInt64 :=
  if a.toNat + b.toNat < 2 ^ 64 then a + b else UInt64.ofNat (2 ^ 64 - 1)

theorem checkedAdd_eq_some {a b c : UInt64} :
    checkedAdd a b = some c ↔ c.toNat = a.toNat + b.toNat := by
  unfold checkedAdd
  have hc := c.toNat_lt
  split
  · next h =>
      have hab : (a + b).toNat = a.toNat + b.toNat := by
        rw [UInt64.toNat_add, Nat.mod_eq_of_lt h]
      rw [Option.some.injEq, ← UInt64.toNat_inj, hab, eq_comm]
  · next h => exact ⟨nofun, fun he => by omega⟩

theorem checkedSub_eq_some {a b c : UInt64} :
    checkedSub a b = some c ↔ c.toNat + b.toNat = a.toNat := by
  unfold checkedSub
  split
  · next h =>
      have hle := UInt64.le_iff_toNat_le.1 h
      rw [Option.some.injEq, ← UInt64.toNat_inj, UInt64.toNat_sub_of_le _ _ h]
      omega
  · next h =>
      rw [UInt64.le_iff_toNat_le] at h
      exact ⟨nofun, fun he => by omega⟩

theorem checkedAdd_eq_none {a b : UInt64} :
    checkedAdd a b = none ↔ 2 ^ 64 ≤ a.toNat + b.toNat := by
  unfold checkedAdd
  split
  · next h => exact ⟨nofun, fun hle => by omega⟩
  · next h => exact ⟨fun _ => by omega, fun _ => rfl⟩

theorem le_saturatingAdd (a b : UInt64) : a ≤ saturatingAdd a b := by
  have ha := a.toNat_lt
  unfold saturatingAdd
  split
  · next h =>
      rw [UInt64.le_iff_toNat_le, UInt64.toNat_add, Nat.mod_eq_of_lt h]
      omega
  · rw [UInt64.le_iff_toNat_le]
    change a.toNat ≤ 2 ^ 64 - 1
    omega

theorem saturatingAdd_le (a b : UInt64) : (saturatingAdd a b).toNat ≤ a.toNat + b.toNat := by
  unfold saturatingAdd
  split
  · next h => rw [UInt64.toNat_add, Nat.mod_eq_of_lt h]
  · change 2 ^ 64 - 1 ≤ _
    omega

theorem right_le_max (a b : UInt64) : b ≤ max a b := by
  change b ≤ if a ≤ b then b else a
  split
  · exact UInt64.le_refl b
  · next h => exact (UInt64.le_total b a).resolve_right h

/-! ## Identifiers -/

/-- A chain identifier, included in every signable object. The type is inhabited by any string:
decoding does not validate. -/
@[ext] structure ChainId where
  value : String
  deriving DecidableEq

/-- `is_ascii_alphanumeric`, or one of `-` and `_`. -/
def ChainId.validByte (b : UInt8) : Bool :=
  (48 ≤ b && b ≤ 57) || (65 ≤ b && b ≤ 90) || (97 ≤ b && b ≤ 122) || b == 45 || b == 95

def ChainId.validate (c : ChainId) : Except ValidationError Unit :=
  let bytes := utf8 c.value
  ensure (bytes ≠ [] ∧ bytes.length ≤ maxChainIdBytes ∧ bytes.all ChainId.validByte)
    .invalidChainId

/-- A validated chain identifier. -/
def ChainId.new (value : String) : Except ValidationError ChainId := do
  ChainId.validate ⟨value⟩
  return ⟨value⟩

/-- A compact wallet identifier. -/
@[ext] structure Address where
  bytes : Bytes 20

/-- A BLAKE3-256 digest used for transaction IDs, block IDs, and roots. -/
@[ext] structure Hash32 where
  bytes : Bytes 32

def Hash32.zero : Hash32 := ⟨Bytes.fill 32 0⟩

/-- The Ed25519 public key that identifies a fixed validator. -/
@[ext] structure ValidatorId where
  bytes : Bytes 32

instance : SortKey Address where
  key a := SortKey.key a.bytes
  key_injective _ _ h := Address.ext (SortKey.key_injective h)

instance : SortKey Hash32 where
  key a := SortKey.key a.bytes
  key_injective _ _ h := Hash32.ext (SortKey.key_injective h)

instance : SortKey ValidatorId where
  key a := SortKey.key a.bytes
  key_injective _ _ h := ValidatorId.ext (SortKey.key_injective h)

instance : Inhabited Hash32 := ⟨Hash32.zero⟩

instance : Borsh ChainId := ofEquiv ChainId.value ChainId.mk (fun _ => rfl) (fun _ => rfl)
instance : Borsh Address := ofEquiv Address.bytes Address.mk (fun _ => rfl) (fun _ => rfl)
instance : Borsh Hash32 := ofEquiv Hash32.bytes Hash32.mk (fun _ => rfl) (fun _ => rfl)
instance : Borsh ValidatorId :=
  ofEquiv ValidatorId.bytes ValidatorId.mk (fun _ => rfl) (fun _ => rfl)

@[simp] theorem fits_chainId (c : ChainId) : Fits c ↔ (utf8 c.value).length < 2 ^ 32 := Iff.rfl
@[simp] theorem fits_address (a : Address) : Fits a := trivial
@[simp] theorem fits_hash32 (a : Hash32) : Fits a := trivial
@[simp] theorem fits_validatorId (a : ValidatorId) : Fits a := trivial

/-- A valid chain identifier fits its length prefix. -/
theorem ChainId.fits_of_validate {c : ChainId} (h : c.validate = .ok ()) : Fits c := by
  have h := (Except.ensure_eq_ok.1 h).2.1
  rw [fits_chainId]
  unfold maxChainIdBytes at h
  omega

section
variable [Primitives]

/-- The hash of some bytes under a domain. -/
def hashBytes (domain : String) (bytes : List UInt8) : Hash32 :=
  ⟨Primitives.blake3 domain bytes⟩

/-- The hash of two digests under a domain. -/
def hashPair (domain : String) (left right : Hash32) : Hash32 :=
  hashBytes domain (left.bytes.toList ++ right.bytes.toList)

def Address.fromPublicKey (publicKey : Bytes 32) : Address :=
  ⟨(hashBytes addressHashDomain publicKey.toList).bytes.take 20 (by omega)⟩

def ValidatorId.fromSigningKey (key : SigningKey) : ValidatorId :=
  ⟨Primitives.verifyingKey key⟩

/-- `VerifyingKey::from_bytes`, then `verify_strict`. -/
def verifySignature (publicKey : Bytes 32) (message : List UInt8) (signature : Bytes 64) :
    Except ValidationError Unit := do
  ensure (Primitives.validKey publicKey) .invalidPublicKey
  ensure (Primitives.verifyStrict publicKey message signature) .invalidSignature

end

/-! ## A concrete instance -/

/-- A polynomial checksum in place of the hash function. -/
def checksum (seed : Nat) (bytes : List UInt8) : Nat :=
  bytes.foldl (fun acc b => (acc * 1000003 + b.toNat + 1) % 2 ^ 256) seed

namespace Sample

/-- An instance the model can be evaluated with: the hash is a checksum, a public key is its
secret key, and a signature is a checksum of the key and the message. -/
scoped instance primitives : Primitives where
  blake3 domain bytes := ⟨leBytes 32 (checksum (checksum 0 (utf8 domain)) bytes), by simp⟩
  verifyingKey key := key.seed
  sign key message := ⟨leBytes 64 (checksum (checksum 1 key.seed.toList) message), by simp⟩
  validKey _ := true
  verifyStrict key message signature :=
    signature.toList == leBytes 64 (checksum (checksum 1 key.toList) message)

def chainId : ChainId := ⟨"kcoin-local"⟩

/-- The secret key with every byte equal to `b`. -/
def key (b : UInt8) : SigningKey := ⟨Bytes.fill 32 b⟩

end Sample

end KCoin
