import KCoin.Protocol.Crypto

/-!
# Transactions

What a wallet authors and signs: an action under a chain identifier, with the sender's public key,
nonce and expiry height. The canonical bytes are the Borsh encoding, and the transaction's
identity is their hash.
-/

open Borsh

namespace KCoin

/-- The state transition requested by a wallet. -/
inductive TransactionAction
  | transfer (recipient : Address) (amountAtoms : UInt64)
  | claimReward (challengeId : UInt64) (answer : UInt16)
  | setDisplayName (displayName : Option String)
  deriving DecidableEq

instance : Borsh TransactionAction :=
  @ofEquiv ((Address × UInt64) ⊕ ((UInt64 × UInt16) ⊕ (Option String ⊕ Empty))) _
    (@variant 0 _ _ _
      (@variant 1 _ _ _ (variant 2 _ Empty nofun)
        (by rintro (_ | ⟨⟨⟩⟩); exact (by decide : (2 : UInt8) ≠ 1)))
      (by
        rintro (_ | _ | ⟨⟨⟩⟩)
        · exact (by decide : (1 : UInt8) ≠ 0)
        · exact (by decide : (2 : UInt8) ≠ 0))).toBorsh
    (fun
      | .transfer recipient amount => .inl (recipient, amount)
      | .claimReward id answer => .inr (.inl (id, answer))
      | .setDisplayName name => .inr (.inr (.inl name)))
    (fun
      | .inl (recipient, amount) => .transfer recipient amount
      | .inr (.inl (id, answer)) => .claimReward id answer
      | .inr (.inr (.inl name)) => .setDisplayName name
      | .inr (.inr (.inr e)) => e.elim)
    (by rintro (_ | _ | _) <;> rfl)
    (by rintro (⟨_, _⟩ | ⟨_, _⟩ | _ | ⟨⟨⟩⟩) <;> rfl)

/-! ## Display names -/

/-- `char::is_whitespace`: the code points with the property `White_Space`. -/
def isWhitespace (c : Char) : Bool :=
  let n := c.toNat
  (9 ≤ n && n ≤ 13) || n == 0x20 || n == 0x85 || n == 0xA0 || n == 0x1680 ||
    (0x2000 ≤ n && n ≤ 0x200A) || n == 0x2028 || n == 0x2029 || n == 0x202F || n == 0x205F ||
    n == 0x3000

/-- `char::is_control`: the general category `Cc`. -/
def isControl (c : Char) : Bool :=
  let n := c.toNat
  n ≤ 0x1F || (0x7F ≤ n && n ≤ 0x9F)

/-- `str::trim`: the characters left after removing white space at both ends. -/
def trim (l : List Char) : List Char :=
  ((l.dropWhile isWhitespace).reverse.dropWhile isWhitespace).reverse

def validateDisplayName : Option String → Except ValidationError Unit
  | none => .ok ()
  | some name =>
      let chars := name.toList
      ensure (chars ≠ [] ∧ (utf8 name).length ≤ maxDisplayNameBytes ∧
          chars.length ≤ maxDisplayNameChars ∧ trim chars = chars ∧ ¬chars.any isControl)
        .invalidDisplayName

/-- A valid display name fits its length prefix. -/
theorem fits_of_validateDisplayName {name : Option String}
    (h : validateDisplayName name = .ok ()) : Fits name := by
  cases name with
  | none => exact fits_none
  | some name =>
      have h := (Except.ensure_eq_ok.1 h).2.1
      rw [fits_some, fits_string]
      unfold maxDisplayNameBytes at h
      omega

def TransactionAction.validateShape : TransactionAction → Except ValidationError Unit
  | .transfer _ amount => ensure (amount ≠ 0) .zeroAmount
  | .setDisplayName name => validateDisplayName name
  | .claimReward .. => .ok ()

/-! ## Signed transactions -/

/-- Canonical wallet-authored transaction data. -/
structure UnsignedTransaction where
  protocolVersion : UInt16
  chainId : ChainId
  senderPublicKey : Bytes 32
  nonce : UInt64
  expiryHeight : UInt64
  action : TransactionAction
  deriving DecidableEq

instance : Borsh UnsignedTransaction :=
  ofEquiv
    (fun t => (t.protocolVersion, t.chainId, t.senderPublicKey, t.nonce, t.expiryHeight, t.action))
    (fun (version, chain, key, nonce, expiry, action) =>
      ⟨version, chain, key, nonce, expiry, action⟩)
    (fun _ => rfl) (fun _ => rfl)

def UnsignedTransaction.new (chainId : ChainId) (senderPublicKey : Bytes 32)
    (nonce expiryHeight : UInt64) (action : TransactionAction) : UnsignedTransaction :=
  ⟨KCoin.protocolVersion, chainId, senderPublicKey, nonce, expiryHeight, action⟩

/-- The bytes that Ed25519 signs. The prefix prevents cross-protocol signing. -/
def UnsignedTransaction.signingBytes (t : UnsignedTransaction) : List UInt8 :=
  txSignaturePrefix ++ encode t

def UnsignedTransaction.validateShape (t : UnsignedTransaction) :
    Except ValidationError Unit := do
  ensure (t.protocolVersion = KCoin.protocolVersion)
    (.unsupportedProtocolVersion KCoin.protocolVersion t.protocolVersion)
  t.chainId.validate
  t.action.validateShape

/-- A canonical transaction and its wallet's signature. -/
structure SignedTransaction where
  unsigned : UnsignedTransaction
  signature : Bytes 64
  deriving DecidableEq

instance : Borsh SignedTransaction :=
  ofEquiv (fun t => (t.unsigned, t.signature)) (fun (u, s) => ⟨u, s⟩) (fun _ => rfl)
    (fun _ => rfl)

namespace SignedTransaction

def canonicalBytes (t : SignedTransaction) : List UInt8 := encode t

variable [Primitives]

def sign (unsigned : UnsignedTransaction) (key : SigningKey) :
    Except ValidationError SignedTransaction := do
  ensure (unsigned.senderPublicKey = Primitives.verifyingKey key) .invalidPublicKey
  unsigned.validateShape
  return ⟨unsigned, Primitives.sign key unsigned.signingBytes⟩

def verifySignature (t : SignedTransaction) : Except ValidationError Unit := do
  t.unsigned.validateShape
  KCoin.verifySignature t.unsigned.senderPublicKey t.unsigned.signingBytes t.signature

def senderAddress (t : SignedTransaction) : Address :=
  Address.fromPublicKey t.unsigned.senderPublicKey

def id (t : SignedTransaction) : Hash32 := hashBytes transactionHashDomain t.canonicalBytes

def decode (bytes : List UInt8) : Except ValidationError SignedTransaction := do
  ensure (bytes.length ≤ maxTransactionBytes) .payloadTooLarge
  let t ← okOr .malformed (tryFromSlice SignedTransaction bytes)
  t.verifySignature
  return t

/-- A transaction whose signature verifies is well-formed. -/
theorem shape_of_verifySignature {t : SignedTransaction} (h : t.verifySignature = .ok ()) :
    t.unsigned.validateShape = .ok () := by
  obtain ⟨_, hs, _⟩ := Except.bind_eq_ok.1 h
  exact hs

end SignedTransaction

/-- A well-formed transaction is for the implemented version of the protocol. -/
theorem UnsignedTransaction.validateShape_eq_ok {t : UnsignedTransaction} :
    t.validateShape = .ok () ↔ t.protocolVersion = KCoin.protocolVersion ∧
      t.chainId.validate = .ok () ∧ t.action.validateShape = .ok () := by
  simp [validateShape, Except.bind_eq_ok, Unique.exists_iff]

/-- The action of a well-formed transaction fits its length prefixes. -/
theorem TransactionAction.fits_of_validateShape {a : TransactionAction}
    (h : a.validateShape = .ok ()) : Fits a := by
  cases a with
  | transfer recipient amount => exact ⟨fits_address _, trivial⟩
  | claimReward id answer => exact ⟨trivial, trivial⟩
  | setDisplayName name =>
      have hn : Fits name := fits_of_validateDisplayName h
      exact hn

/-- A well-formed transaction fits its length prefixes, whatever its signature. -/
theorem SignedTransaction.fits_of_validateShape {t : SignedTransaction}
    (h : t.unsigned.validateShape = .ok ()) : Fits t := by
  obtain ⟨_, hc, ha⟩ := UnsignedTransaction.validateShape_eq_ok.1 h
  exact ⟨⟨trivial, ChainId.fits_of_validate hc, trivial, trivial, trivial,
    TransactionAction.fits_of_validateShape ha⟩, trivial⟩

/-- The canonical bytes of well-formed transactions are different for different transactions. -/
theorem SignedTransaction.canonicalBytes_inj {t u : SignedTransaction}
    (ht : t.unsigned.validateShape = .ok ()) (hu : u.unsigned.validateShape = .ok ())
    (h : t.canonicalBytes = u.canonicalBytes) : t = u :=
  encode_inj (fits_of_validateShape ht) (fits_of_validateShape hu) h

namespace Sample

/-- A transaction signed by the key of a byte, to be executed up to height 10. -/
def transaction (b : UInt8) (nonce : UInt64) (action : TransactionAction) : SignedTransaction :=
  let unsigned := UnsignedTransaction.new chainId (Primitives.verifyingKey (key b)) nonce 10 action
  ⟨unsigned, Primitives.sign (key b) unsigned.signingBytes⟩

end Sample

end KCoin
