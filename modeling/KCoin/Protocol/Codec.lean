import KCoin.Protocol.Commit

/-!
# Canonical codecs

The decoders of transactions, blocks and certificates accept exactly the canonical bytes of the
values that pass their checks (`decode_iff_canonical`). The size guards come before the checks:
that of a transaction rejects nothing, since a well-formed transaction is short, and those of a
block and of a certificate are checks of the value too.
-/

open Borsh

namespace KCoin

/-! ## Short values fit their prefixes -/

instance : Short ChainId := ⟨fun c h => fits_of_short c.value h⟩
instance : Short Address := ⟨fun _ _ => trivial⟩
instance : Short Hash32 := ⟨fun _ _ => trivial⟩
instance : Short ValidatorId := ⟨fun _ _ => trivial⟩

instance : Short TransactionAction where
  fits_of_short a h := by
    have hlt : ∀ {n : Nat} {l : List UInt8}, l.length + 1 = n → n < 2 ^ 32 → l.length < 2 ^ 32 :=
      fun hl hn => by omega
    cases a with
    | transfer recipient amount => exact ⟨fits_address _, trivial⟩
    | claimReward id answer => exact ⟨trivial, trivial⟩
    | setDisplayName name =>
        have hname : Fits name := fits_of_short name (hlt rfl h)
        exact hname

instance : Short UnsignedTransaction where
  fits_of_short t h := fits_of_short
    (t.protocolVersion, t.chainId, t.senderPublicKey, t.nonce, t.expiryHeight, t.action) h

instance : Short SignedTransaction := ⟨fun t h => fits_of_short (t.unsigned, t.signature) h⟩

instance : Short BlockHeader where
  fits_of_short b h := fits_of_short (b.protocolVersion, b.chainId, b.height, b.parentHash,
    b.proposer, b.round, b.timestampMs, b.transactionsRoot, b.stateRoot) h

theorem encode_signedTransaction (t : SignedTransaction) :
    encode t = encode t.unsigned ++ encode t.signature := rfl

theorem length_encode_signedTransaction (t : SignedTransaction) :
    (encode t).length = (encode t.unsigned).length + 64 := by
  rw [encode_signedTransaction, List.length_append, encode_bytes, Bytes.length_toList]

theorem encode_block (b : Block) : encode b = encode b.header ++ encode b.transactions := rfl

instance : Short Block where
  fits_of_short b h := by
    rw [encode_block, List.length_append] at h
    have hpos : ∀ t ∈ b.transactions, 1 ≤ (encode t).length := fun t _ => by
      rw [length_encode_signedTransaction]
      omega
    have htransactions : Fits b.transactions := fits_list_of_short hpos (by omega)
    exact ⟨fits_of_short b.header (by omega), htransactions⟩

instance : Short CommitSignature := ⟨fun _ _ => ⟨trivial, trivial⟩⟩

instance : Short CommitCertificate where
  fits_of_short c h := by
    have hlen : (encode c).length = (encode (c.protocolVersion, c.chainId, c.height, c.round,
        c.blockHash)).length + (encode c.signatures).length := by
      change (encode (c.protocolVersion, c.chainId, c.height, c.round, c.blockHash,
        c.signatures)).length = _
      simp only [encode_prod, List.length_append]
      omega
    have hpos : ∀ s ∈ c.signatures, 1 ≤ (encode s).length := fun s _ => by
      change 1 ≤ (s.validator.bytes.toList ++ s.signature.toList).length
      rw [List.length_append, Bytes.length_toList]
      omega
    obtain ⟨hv, hc, hh, hr, hb⟩ := fits_of_short
      (c.protocolVersion, c.chainId, c.height, c.round, c.blockHash) (by omega)
    have hsignatures : Fits c.signatures := fits_list_of_short hpos (by omega)
    exact ⟨hv, hc, hh, hr, hb, hsignatures⟩

/-! ## Sizes of transactions -/

theorem length_encode_action {a : TransactionAction} (h : a.validateShape = .ok ()) :
    (encode a).length ≤ 70 := by
  cases a with
  | transfer recipient amount =>
      change (0 :: (recipient.bytes.toList ++ encode amount)).length ≤ 70
      simp
  | claimReward id answer =>
      change (1 :: (encode id ++ encode answer)).length ≤ 70
      simp
  | setDisplayName name =>
      change (2 :: encode name).length ≤ 70
      cases name with
      | none => simp
      | some name =>
          have hname := (Except.ensure_eq_ok.1 h).2.1
          unfold maxDisplayNameBytes at hname
          simp only [encode_some, List.length_cons, length_encode_string]
          omega

theorem SignedTransaction.length_canonicalBytes_le {t : SignedTransaction}
    (h : t.unsigned.validateShape = .ok ()) : t.canonicalBytes.length ≤ 252 := by
  obtain ⟨_, hc, ha⟩ := UnsignedTransaction.validateShape_eq_ok.1 h
  have hchain := (Except.ensure_eq_ok.1 hc).2.1
  have haction := length_encode_action ha
  have hunsigned : (encode t.unsigned).length = 2 + (4 + (utf8 t.unsigned.chainId.value).length) +
      32 + 8 + 8 + (encode t.unsigned.action).length := by
    change (encode (t.unsigned.protocolVersion, t.unsigned.chainId.value,
      t.unsigned.senderPublicKey, t.unsigned.nonce, t.unsigned.expiryHeight,
      t.unsigned.action)).length = _
    simp only [encode_prod, List.length_append, length_encode_uint16, length_encode_uint64,
      length_encode_string, encode_bytes, Bytes.length_toList]
    omega
  rw [canonicalBytes, length_encode_signedTransaction, hunsigned]
  unfold maxChainIdBytes at hchain
  omega

/-- A well-formed transaction is far shorter than the limit. -/
theorem SignedTransaction.length_canonicalBytes {t : SignedTransaction}
    (h : t.unsigned.validateShape = .ok ()) : t.canonicalBytes.length ≤ maxTransactionBytes := by
  have hle := length_canonicalBytes_le h
  unfold maxTransactionBytes
  omega

/-- Only the chain identifier makes a difference to the length of a header. -/
theorem length_encode_header (h : BlockHeader) :
    (encode h).length = 154 + (utf8 h.chainId.value).length := by
  change (encode (h.protocolVersion, h.chainId.value, h.height, h.parentHash.bytes,
    h.proposer.bytes, h.round, h.timestampMs, h.transactionsRoot.bytes, h.stateRoot.bytes)).length = _
  simp only [encode_prod, List.length_append, length_encode_uint16, length_encode_uint32,
    length_encode_uint64, length_encode_string, encode_bytes, Bytes.length_toList]
  omega

/-! ## The decoders -/

theorem CommitCertificate.decode_iff {bs : List UInt8} {c : CommitCertificate} :
    CommitCertificate.decode bs = .ok c ↔
      bs = c.canonicalBytes ∧ bs.length ≤ maxCommitCertificateBytes := by
  simp only [CommitCertificate.decode, Except.bind_eq_ok, Except.ensure_eq_ok, Except.okOr_eq_ok,
    Unique.exists_iff]
  constructor
  · rintro ⟨hlen, hd⟩
    exact ⟨(tryFromSlice_sound hd).2, hlen⟩
  · rintro ⟨rfl, hlen⟩
    refine ⟨hlen, tryFromSlice_encode (fits_of_short c ?_)⟩
    unfold canonicalBytes maxCommitCertificateBytes at hlen
    omega

section
variable [Primitives]

theorem SignedTransaction.decode_iff {bs : List UInt8} {t : SignedTransaction} :
    SignedTransaction.decode bs = .ok t ↔
      t.verifySignature = .ok () ∧ bs = t.canonicalBytes := by
  simp only [SignedTransaction.decode, Except.bind_eq_ok, Except.ensure_eq_ok, Except.okOr_eq_ok,
    Except.pure_eq_ok, Unique.exists_iff]
  constructor
  · rintro ⟨_, u, hd, hv, rfl⟩
    exact ⟨hv, (tryFromSlice_sound hd).2⟩
  · rintro ⟨hv, rfl⟩
    have hshape := shape_of_verifySignature hv
    exact ⟨length_canonicalBytes hshape, t,
      tryFromSlice_encode (fits_of_validateShape hshape), hv, rfl⟩

theorem Block.decode_iff {bs : List UInt8} {b : Block} :
    Block.decode bs = .ok b ↔ b.validateCommitments = .ok () ∧ bs = b.canonicalBytes := by
  simp only [Block.decode, Except.bind_eq_ok, Except.ensure_eq_ok, Except.okOr_eq_ok,
    Except.pure_eq_ok, Unique.exists_iff]
  constructor
  · rintro ⟨_, c, hd, hv, rfl⟩
    exact ⟨hv, (tryFromSlice_sound hd).2⟩
  · rintro ⟨hv, rfl⟩
    have hlen := (validateCommitments_eq_ok.1 hv).1
    refine ⟨hlen, b, tryFromSlice_encode (fits_of_short b ?_), hv, rfl⟩
    unfold canonicalBytes maxBlockBytes at hlen
    omega

/-- A transaction, a block and a certificate decode exactly from their canonical bytes, and exactly
when they pass their checks. The size guard of the transaction decoder refuses no transaction whose
signature verifies, and no value is decoded from two byte strings. -/
theorem decode_iff_canonical :
    (∀ bs t, SignedTransaction.decode bs = .ok t ↔
      t.verifySignature = .ok () ∧ bs = t.canonicalBytes) ∧
    (∀ bs b, Block.decode bs = .ok b ↔ b.validateCommitments = .ok () ∧ bs = b.canonicalBytes) ∧
    (∀ bs c, CommitCertificate.decode bs = .ok c ↔
      bs = c.canonicalBytes ∧ bs.length ≤ maxCommitCertificateBytes) ∧
    (∀ t : SignedTransaction, t.verifySignature = .ok () →
      t.canonicalBytes.length ≤ maxTransactionBytes) ∧
    (∀ t bs bs', SignedTransaction.decode bs = .ok t → SignedTransaction.decode bs' = .ok t →
      bs = bs') ∧
    (∀ b bs bs', Block.decode bs = .ok b → Block.decode bs' = .ok b → bs = bs') ∧
    (∀ c bs bs', CommitCertificate.decode bs = .ok c → CommitCertificate.decode bs' = .ok c →
      bs = bs') := by
  refine ⟨fun _ _ => SignedTransaction.decode_iff, fun _ _ => Block.decode_iff,
    fun _ _ => CommitCertificate.decode_iff, fun t ht =>
      SignedTransaction.length_canonicalBytes (SignedTransaction.shape_of_verifySignature ht),
    ?_, ?_, ?_⟩
  · intro t bs bs' h h'
    rw [(SignedTransaction.decode_iff.1 h).2, (SignedTransaction.decode_iff.1 h').2]
  · intro b bs bs' h h'
    rw [(Block.decode_iff.1 h).2, (Block.decode_iff.1 h').2]
  · intro c bs bs' h h'
    rw [(CommitCertificate.decode_iff.1 h).1, (CommitCertificate.decode_iff.1 h').1]

end

end KCoin
