import KCoin.Consensus.Progress
import KCoin.Consensus.Evidence
import KCoin.Node.Actor
import KCoin.Protocol.Accountability

/-!
# The certificates of the engine and those of the ledger

A certificate of the engine carries whole precommits, one of the ledger only their signatures, in the
order of the validators. A precommit for the statement of a certificate is determined by its signature
(`CommitCertificate.precommit`), so the conversions are inverse to each other up to that order, and a
quorum of precommits that Ed25519 accepts is one that the ledger accepts. Only the bound of an engine
on the length of signatures has no counterpart in the ledger (`Session.engine_certificates`).
-/

open Std Relation Borsh

namespace KCoin

/-! ## One precommit -/

/-- The precommit that a signature of a statement stands for. -/
def CommitVote.precommit (v : CommitVote) (s : CommitSignature) : SignedVote where
  vote :=
    { chainId := v.chainId.value
      height := v.height
      round := v.round
      kind := .precommit
      validator := s.validator
      value := .block v.blockHash }
  signature := s.signature.toList

namespace ConsensusCommitCertificate

variable {c : ConsensusCommitCertificate} {p : CommitCertificate}

/-- What the certificate states. -/
def statement (c : ConsensusCommitCertificate) : CommitVote :=
  .new ⟨c.chainId⟩ c.height c.round c.blockId

/-- The certificate with its precommits in the order of their validators. -/
def sorted (c : ConsensusCommitCertificate) : ConsensusCommitCertificate :=
  { c with precommits := c.precommits.insertionSort (KeyLE (·.vote.validator)) }

theorem toProtocolSignature_eq_ok {v : SignedVote} {s : CommitSignature} :
    c.toProtocolSignature v = .ok s ↔ v = c.statement.precommit s := by
  obtain ⟨⟨chainId, height, round, kind, validator, value⟩, signature⟩ := v
  obtain ⟨signer, bytes⟩ := s
  simp only [toProtocolSignature, statement, CommitVote.precommit, CommitVote.new,
    Except.bind_eq_ok, Except.ensure_eq_ok, Except.okOr_eq_ok, Except.pure_eq_ok, exists_const,
    Bytes.ofList_eq_some, CommitSignature.mk.injEq, SignedVote.mk.injEq, Vote.mk.injEq]
  constructor
  · rintro ⟨⟨hkind, hvalue, hchain, hheight, hround⟩, _, hsignature, rfl, rfl⟩
    exact ⟨⟨hchain, hheight, hround, hkind, rfl, hvalue⟩, hsignature⟩
  · rintro ⟨⟨hchain, hheight, hround, hkind, rfl, hvalue⟩, hsignature⟩
    exact ⟨⟨hkind, hvalue, hchain, hheight, hround⟩, bytes, hsignature, rfl, rfl⟩

theorem mapM_toProtocolSignature {votes : List SignedVote} {sigs : List CommitSignature} :
    votes.mapM c.toProtocolSignature = .ok sigs ↔ votes = sigs.map c.statement.precommit := by
  induction votes generalizing sigs with
  | nil =>
      rw [List.mapM_nil, Except.pure_eq_ok]
      cases sigs <;> simp
  | cons v votes ih =>
      simp only [List.mapM_cons, Except.bind_eq_ok, Except.pure_eq_ok, toProtocolSignature_eq_ok, ih]
      constructor
      · rintro ⟨s, rfl, rest, rfl, rfl⟩
        rfl
      · intro h
        cases sigs with
        | nil => cases h
        | cons s rest =>
            obtain ⟨rfl, rfl⟩ := List.cons.inj h
            exact ⟨s, rfl, rest, rfl, rfl⟩

/-- A certificate converts when its chain is valid and its precommits are for its statement. -/
theorem toProtocol_eq_ok :
    c.toProtocol = .ok p ↔ ChainId.validate ⟨c.chainId⟩ = .ok () ∧
      ∃ sigs, c.precommits = sigs.map c.statement.precommit ∧ p = .new c.statement sigs := by
  simp only [toProtocol, ChainId.new, Except.bind_eq_ok, Except.mapError_eq_ok, Except.pure_eq_ok,
    mapM_toProtocolSignature]
  constructor
  · rintro ⟨chainId, ⟨_, hvalid, rfl⟩, sigs, hprecommits, rfl⟩
    exact ⟨hvalid, sigs, hprecommits, rfl⟩
  · rintro ⟨hvalid, sigs, hprecommits, rfl⟩
    exact ⟨⟨c.chainId⟩, ⟨(), hvalid, rfl⟩, sigs, hprecommits, rfl⟩

/-- Converting there and back sorts the precommits. -/
theorem fromProtocol_toProtocol (h : c.toProtocol = .ok p) : fromProtocol p = c.sorted := by
  obtain ⟨-, sigs, hprecommits, rfl⟩ := toProtocol_eq_ok.1 h
  have hsort : (sigs.insertionSort (KeyLE (·.validator))).map c.statement.precommit =
      (sigs.map c.statement.precommit).insertionSort (KeyLE (·.vote.validator)) :=
    List.map_insertionSort _ _ _ _ fun _ _ _ _ => Iff.rfl
  rw [sorted, hprecommits, ← hsort]
  rfl

end ConsensusCommitCertificate

/-! ## What the ledger verifies -/

section
variable [Primitives]

namespace CommitCertificate

/-- A certificate of the validators, with signatures of at least a quorum in their order. -/
structure Proves (p : CommitCertificate) (s : ValidatorSet) : Prop where
  fits : p.canonicalBytes.length ≤ maxCommitCertificateBytes
  version : p.protocolVersion = KCoin.protocolVersion
  chainId : p.chainId.validate = .ok ()
  members : ∀ signature ∈ p.signatures, signature.validator ∈ s.validators
  signed : ∀ signature ∈ p.signatures,
    verifySignature signature.validator.bytes p.vote.signingBytes signature.signature = .ok ()
  sorted : p.signatures.Pairwise fun a b => compare a.validator b.validator = .lt
  enough : s.quorum ≤ p.signatures.length

/-- The loop over the signatures accepts those of new members in increasing order. -/
theorem verifySignatures_returns {authorized seen : BTreeSet ValidatorId} {message : List UInt8}
    {previous : Option ValidatorId} {sigs : List CommitSignature} :
    (∃ seen', verifySignatures authorized message seen previous sigs = .ok seen') ↔
      (∀ s ∈ sigs, s.validator ∈ authorized ∧ s.validator ∉ seen ∧
        verifySignature s.validator.bytes message s.signature = .ok ()) ∧
      sigs.Pairwise (fun a b => compare a.validator b.validator = .lt) ∧
      ∀ v ∈ previous, ∀ s ∈ sigs, compare v s.validator = .lt := by
  induction sigs generalizing seen previous with
  | nil => simp [verifySignatures]
  | cons s rest ih =>
      constructor
      · rintro ⟨seen', h⟩
        simp only [verifySignatures, Except.bind_eq_ok, Except.ensure_eq_ok] at h
        obtain ⟨_, hauth, _, hnew, _, hprevious, _, hsig, hrest⟩ := h
        obtain ⟨hrest, hsorted, hnext⟩ := ih.1 ⟨seen', hrest⟩
        have hnext := hnext s.validator rfl
        refine ⟨List.forall_mem_cons.2 ⟨⟨hauth, hnew, hsig⟩, fun u hu => ?_⟩,
          List.pairwise_cons.2 ⟨hnext, hsorted⟩,
          fun v hv => List.forall_mem_cons.2 ⟨hprevious v hv, fun u hu => ?_⟩⟩
        · obtain ⟨ha, hn, hs⟩ := hrest u hu
          exact ⟨ha, fun hmem => hn (ExtTreeSet.mem_insert.2 (.inr hmem)), hs⟩
        · exact TransCmp.lt_trans (hprevious v hv) (hnext u hu)
      · rintro ⟨hall, hsorted, hprevious⟩
        obtain ⟨⟨hauth, hnew, hsig⟩, hrest⟩ := List.forall_mem_cons.1 hall
        obtain ⟨hnext, hsorted⟩ := List.pairwise_cons.1 hsorted
        have hrest : ∀ u ∈ rest, u.validator ∈ authorized ∧
            u.validator ∉ seen.insert s.validator ∧
            verifySignature u.validator.bytes message u.signature = .ok () := by
          intro u hu
          obtain ⟨ha, hn, hs⟩ := hrest u hu
          refine ⟨ha, fun hmem => ?_, hs⟩
          rcases ExtTreeSet.mem_insert.1 hmem with heq | hmem
          · cases heq.symm.trans (hnext u hu)
          · exact hn hmem
        have hlast : ∀ v ∈ some s.validator, ∀ u ∈ rest, compare v u.validator = .lt := by
          intro v hv
          obtain rfl := Option.mem_some_iff.1 hv
          exact hnext
        obtain ⟨seen', hseen'⟩ := ih.2 ⟨hrest, hsorted, hlast⟩
        refine ⟨seen', ?_⟩
        simp only [verifySignatures, Except.bind_eq_ok, Except.ensure_eq_ok]
        exact ⟨(), hauth, (), hnew, (), fun v hv => hprevious v hv s List.mem_cons_self, (), hsig,
          hseen'⟩

theorem verify_eq_ok {p : CommitCertificate} {s : ValidatorSet} :
    p.verify s.validators = .ok () ↔ p.Proves s := by
  have hsize : (ExtTreeSet.ofList s.validators compare).size = s.validators.length :=
    ExtTreeSet.size_ofList (s.nodup.imp fun hne heq => hne (Std.compare_eq_iff_eq.1 heq))
  have hne : s.validators.length ≠ 0 := Nat.ne_of_gt s.len_pos
  constructor
  · intro h
    simp only [verify, CommitVote.validateShape, Except.bind_eq_ok, Except.ensure_eq_ok] at h
    obtain ⟨_, hfits, _, ⟨_, hversion, hchain⟩, _, -, seen, hseen, hquorum⟩ := h
    obtain ⟨hall, hsorted, -⟩ := verifySignatures_returns.1 ⟨seen, hseen⟩
    have hcount := (verifySignatures_eq_ok hseen).1
    refine ⟨hfits, hversion, hchain, fun u hu => BTreeSet.mem_ofList.1 (hall u hu).1,
      fun u hu => (hall u hu).2.2, hsorted, ?_⟩
    rw [hcount, hsize, ExtTreeSet.size_empty, Nat.zero_add] at hquorum
    exact hquorum
  · intro h
    have hnone : ∀ v ∈ (none : Option ValidatorId), ∀ u ∈ p.signatures,
        compare v u.validator = .lt := fun v hv => absurd hv (Option.not_mem_none v)
    obtain ⟨seen, hseen⟩ := verifySignatures_returns.2 ⟨fun u hu => ⟨BTreeSet.mem_ofList.2
      (h.members u hu), ExtTreeSet.not_mem_empty, h.signed u hu⟩, h.sorted, hnone⟩
    have hcount := (verifySignatures_eq_ok hseen).1
    simp only [verify, CommitVote.validateShape, Except.bind_eq_ok, Except.ensure_eq_ok]
    refine ⟨(), h.fits, (), ⟨(), h.version, h.chainId⟩, (), ⟨hsize ▸ hne, hsize⟩, seen, hseen, ?_⟩
    rw [hcount, hsize, ExtTreeSet.size_empty, Nat.zero_add]
    exact h.enough

end CommitCertificate

/-! ## From the engine to the ledger -/

/-- The certificates of a chain with at most one signature of each validator have a size that the
ledger accepts. -/
def ValidatorSet.CertificatesFit (s : ValidatorSet) (chainId : ChainId) : Prop :=
  ∀ p : CommitCertificate, p.chainId = chainId → p.signatures.length ≤ s.len →
    p.canonicalBytes.length ≤ maxCommitCertificateBytes

omit [Primitives] in
/-- A set of at most 681 validators is small enough. -/
theorem ValidatorSet.certificatesFit_of_len_le {s : ValidatorSet} {chainId : ChainId}
    (hchain : chainId.validate = .ok ()) (hlen : s.len ≤ 681) : s.CertificatesFit chainId := by
  intro p hp hcount
  have hbound := (Except.ensure_eq_ok.1 hchain).2.1
  rw [← hp] at hbound
  have hone : ∀ u ∈ p.signatures, (encode u).length = 96 := by
    intro u _
    change (encode (u.validator.bytes, u.signature)).length = _
    simp only [encode_prod, List.length_append, encode_bytes, Bytes.length_toList]
  have hmany := length_encodeMany_eq hone
  have hsize : p.canonicalBytes.length =
      2 + (4 + (utf8 p.chainId.value).length) + 8 + 4 + 32 + (4 + (encodeMany p.signatures).length) := by
    change (encode (p.protocolVersion, p.chainId.value, p.height, p.round, p.blockHash.bytes,
      p.signatures)).length = _
    simp only [encode_prod, List.length_append, length_encode_uint16, length_encode_uint32,
      length_encode_uint64, length_encode_string, encode_bytes, Bytes.length_toList, encode_list,
      length_leBytes]
    omega
  rw [hsize, hmany]
  unfold maxChainIdBytes at hbound
  unfold maxCommitCertificateBytes
  omega

/-- Ed25519 accepts the vote. -/
def Ed25519 (v : SignedVote) : Prop := verifyEd25519Vote v = .ok ()

/-- A certificate of the height with a quorum of precommits that Ed25519 accepts. -/
structure ConsensusCommitCertificate.Certified (S : Setup) (c : ConsensusCommitCertificate) : Prop where
  chainId : c.chainId = S.config.chainId
  height : c.height = S.height
  quorum : S.Quorum Ed25519 c.round .precommit c.blockId c.precommits

/-- A node that validates votes by Ed25519. -/
def MessageValidator.UsesEd25519 (V : MessageValidator) : Prop := V.validateVote = verifyEd25519Vote

theorem MessageValidator.UsesEd25519.accepts {V : MessageValidator} (h : V.UsesEd25519)
    (v : SignedVote) : V.Accepts v ↔ Ed25519 v := by
  show V.validateVote v = .ok () ↔ verifyEd25519Vote v = .ok ()
  rw [h]

/-- The one of a node does. -/
theorem NodeMessageValidator.usesEd25519 (v : NodeMessageValidator) : v.validator.UsesEd25519 := rfl

/-- A precommit for a block is signed as the statement of the ledger. -/
theorem ed25519_precommit {v : CommitVote} {s : CommitSignature}
    (hversion : v.protocolVersion = KCoin.protocolVersion) (hchain : v.chainId.validate = .ok ()) :
    Ed25519 (v.precommit s) ↔
      verifySignature s.validator.bytes v.signingBytes s.signature = .ok () := by
  have hbytes : (SignableMessage.vote (v.precommit s).vote).signingBytes = some v.signingBytes := by
    have hnew : ChainId.new v.chainId.value = .ok v.chainId :=
      Except.bind_eq_ok.2 ⟨(), hchain, rfl⟩
    have hvote : CommitVote.new v.chainId v.height v.round v.blockHash = v := by
      rw [CommitVote.new, ← hversion]
    simp only [CommitVote.precommit, SignableMessage.signingBytes, hnew, hvote]
  have hsignature : Bytes.ofList 64 (v.precommit s).signature = some s.signature :=
    Bytes.ofList_toList s.signature
  have hrun : verifyEd25519Vote (v.precommit s) =
      (ensure (Primitives.validKey s.validator.bytes) .invalidSignature >>= fun _ =>
        ensure (Primitives.verifyStrict s.validator.bytes v.signingBytes s.signature)
          .invalidSignature) := by
    unfold verifyEd25519Vote verifyEd25519
    rw [hbytes, hsignature]
    rfl
  simp only [Ed25519, hrun, verifySignature, Except.bind_eq_ok, Except.ensure_eq_ok]

namespace ConsensusCommitCertificate

variable {S : Setup} {c : ConsensusCommitCertificate}

/-- What Ed25519 accepts has a signature of 64 bytes. -/
theorem Certified.precommits (h : c.Certified S) :
    ∃ sigs : List CommitSignature, c.precommits = sigs.map c.statement.precommit := by
  have hone : ∀ v ∈ c.precommits, ∃ s, c.statement.precommit s = v := by
    intro v hv
    obtain ⟨hround, hkind, hvalue⟩ := h.quorum.agree v hv
    have hadmissible := h.quorum.admissible v hv
    obtain ⟨signature, hbytes, -⟩ := Except.bind_eq_ok.1 hadmissible.authentic
    have hsignature := Bytes.ofList_eq_some.1 (Except.okOr_eq_ok.1 hbytes)
    clear hbytes
    refine ⟨⟨v.vote.validator, signature⟩, ?_⟩
    have hchain := hadmissible.chainId.trans h.chainId.symm
    have hheight := hadmissible.height.trans h.height.symm
    obtain ⟨⟨chainId, height, round, kind, validator, value⟩, bytes⟩ := v
    simp only at hround hkind hvalue hchain hheight hsignature
    subst hround hkind hvalue hchain hheight hsignature
    rfl
  clear h
  generalize c.precommits = votes at hone
  induction votes with
  | nil => exact ⟨[], rfl⟩
  | cons v votes ih =>
      obtain ⟨hv, hrest⟩ := List.forall_mem_cons.1 hone
      obtain ⟨s, rfl⟩ := hv
      obtain ⟨sigs, rfl⟩ := ih hrest
      exact ⟨s :: sigs, rfl⟩

/-- A certified certificate converts to one that the ledger accepts. -/
theorem Certified.toProtocol (h : c.Certified S)
    (hchain : ChainId.validate ⟨S.config.chainId⟩ = .ok ())
    (hfits : S.validators.CertificatesFit ⟨S.config.chainId⟩) :
    ∃ p, c.toProtocol = .ok p ∧ p.Proves S.validators := by
  have hchain : ChainId.validate ⟨c.chainId⟩ = .ok () := h.chainId ▸ hchain
  obtain ⟨sigs, hprecommits⟩ := h.precommits
  refine ⟨.new c.statement sigs, toProtocol_eq_ok.2 ⟨hchain, sigs, hprecommits, rfl⟩, ?_⟩
  have hlength : (CommitCertificate.new c.statement sigs).signatures.length = c.precommits.length := by
    rw [hprecommits, List.length_map]
    exact List.length_insertionSort _ _
  have hmem : ∀ s ∈ (CommitCertificate.new c.statement sigs).signatures,
      c.statement.precommit s ∈ c.precommits := by
    intro s hs
    rw [hprecommits]
    exact List.mem_map_of_mem ((List.mem_insertionSort _).1 hs)
  refine ⟨hfits _ (by rw [← h.chainId]; rfl) (hlength ▸ h.quorum.length_le), rfl, hchain,
    fun s hs => ?_, fun s hs => ?_, ?_, hlength ▸ h.quorum.enough⟩
  · exact (h.quorum.admissible _ (hmem s hs)).member
  · exact (ed25519_precommit rfl hchain).1 (h.quorum.admissible _ (hmem s hs)).authentic
  · have hdistinct := h.quorum.distinct
    rw [hprecommits, List.map_map] at hdistinct
    exact KeyLE.pairwise_lt_insertionSort hdistinct

end ConsensusCommitCertificate

/-! ## From the ledger to the engine -/

/-- Converting a certificate that the ledger accepts there and back leaves it as it is. -/
theorem CommitCertificate.Proves.toProtocol {p : CommitCertificate} {s : ValidatorSet}
    (h : p.Proves s) :
    (ConsensusCommitCertificate.fromProtocol p).toProtocol = .ok p := by
  refine ConsensusCommitCertificate.toProtocol_eq_ok.2 ⟨h.chainId, p.signatures, rfl, ?_⟩
  have hsorted : p.signatures.insertionSort (KeyLE (·.validator)) = p.signatures :=
    KeyLE.insertionSort_eq_self h.sorted
  obtain ⟨version, chainId, height, round, hash, signatures⟩ := p
  obtain rfl : version = KCoin.protocolVersion := h.version
  change _ = CommitCertificate.mk _ _ _ _ _ (signatures.insertionSort (KeyLE (·.validator)))
  rw [hsorted]
  rfl

namespace Consensus

variable {c : Consensus} {V : MessageValidator} {p : CommitCertificate}

/-- A certificate that the ledger accepts is a quorum for the engine, if signatures may be long
enough. -/
theorem quorum_of_proves (h : p.Proves c.validators) (hV : V.UsesEd25519)
    (hchain : p.chainId.value = c.config.chainId) (hheight : p.height = c.height)
    (hround : p.round < c.config.maxRoundsPerHeight) (hsize : 64 ≤ c.config.maxSignatureBytes) :
    c.setup.Quorum V.Accepts p.round .precommit p.blockHash
      (ConsensusCommitCertificate.fromProtocol p).precommits := by
  have hvote : ∀ v ∈ (ConsensusCommitCertificate.fromProtocol p).precommits,
      ∃ s ∈ p.signatures, p.vote.precommit s = v := fun v hv => List.mem_map.1 hv
  refine ⟨fun v hv => ?_, fun v hv => ?_, ?_, ?_⟩
  · obtain ⟨s, hs, rfl⟩ := hvote v hv
    refine ⟨?_, hchain, hheight, h.members s hs, hround, ?_⟩
    · exact s.signature.length_toList.trans_le hsize
    · exact (hV.accepts _).2 ((ed25519_precommit h.version h.chainId).2 (h.signed s hs))
  · obtain ⟨s, hs, rfl⟩ := hvote v hv
    exact ⟨rfl, rfl, rfl⟩
  · show ((p.signatures.map p.vote.precommit).map (·.vote.validator)).Nodup
    rw [List.map_map]
    refine List.pairwise_map.2 (h.sorted.imp fun {a b} hlt heq => ?_)
    have heq : a.validator = b.validator := heq
    rw [heq, Std.compare_self] at hlt
    cases hlt
  · show _ ≤ (p.signatures.map p.vote.precommit).length
    rw [List.length_map]
    exact h.enough

/-- Where the node has no objection, an engine accepts the certificates that the ledger accepts
exactly when signatures may be as long as those of Ed25519. -/
theorem validateCertificate_fromProtocol (h : p.Proves c.validators) (hV : V.UsesEd25519)
    (hchain : p.chainId.value = c.config.chainId) (hheight : p.height = c.height)
    (hround : p.round < c.config.maxRoundsPerHeight)
    (hnode : V.validateCertificate (.fromProtocol p) = .ok ()) :
    c.validateCertificate V (.fromProtocol p) = .ok () ↔ 64 ≤ c.config.maxSignatureBytes := by
  constructor
  · intro haccepted
    have hquorum := quorum_of_validateCertificate haccepted
    have hpos : 0 < (ConsensusCommitCertificate.fromProtocol p).precommits.length :=
      c.validators.quorum_pos.trans_le hquorum.enough
    obtain ⟨v, hv⟩ := List.exists_mem_of_length_pos hpos
    have hbound := (hquorum.admissible v hv).size
    obtain ⟨s, -, rfl⟩ := List.mem_map.1 hv
    exact s.signature.length_toList.symm.trans_le hbound
  · intro hsize
    have hquorum := quorum_of_proves h hV hchain hheight hround hsize
    have hcontext : c.validateContext p.chainId.value p.height = .ok () :=
      validateContext_eq_ok.2 ⟨hchain, hheight⟩
    refine (Except.bind_of_ok hcontext).trans ?_
    refine (Except.bind_of_ok (a := ()) (Except.ensure_eq_ok.2
      ⟨hround, hquorum.enough, hquorum.length_le⟩)).trans ?_
    refine (Except.bind_of_ok ((quorum_of_validateVotes (u := ())).2 hquorum).2.2).trans ?_
    exact validation_eq_ok.2 hnode

end Consensus

/-! ## Runs of an engine -/

namespace Consensus

variable {S : Setup} {c : Consensus}

/-- The cached votes of the engine are ones that Ed25519 accepts. -/
theorem Vetted.admissible (h : Vetted S MessageValidator.UsesEd25519 c) (round : Round)
    (kind : VoteKind) (x : ValidatorId) (v : SignedVote)
    (hv : (c.votesBy round kind)[x]? = some v) :
    S.Admissible Ed25519 v ∧ v.vote.round = round ∧ v.vote.kind = kind ∧ v.vote.validator = x := by
  obtain ⟨hslot, V, hV, c', rfl, hvalid⟩ := h.votes round kind x v hv
  exact ⟨(admissible_of_validateMessage hvalid).mono fun w hw => (hV.accepts w).1 hw, hslot⟩

end Consensus

namespace Running

open Consensus

variable {S : Setup} {V : MessageValidator} {r r' : Running}

/-- A move finalizes a certified certificate, if it finalizes one. -/
theorem Micro.certified (hm : Micro V r r') (hV : V.UsesEd25519)
    (hc : Vetted S MessageValidator.UsesEd25519 r.consensus)
    (h : ∀ f, r.consensus.finalized = some f → f.certificate.Certified S) :
    ∀ f, r'.consensus.finalized = some f → f.certificate.Certified S := by
  have hkept : r'.consensus.finalized = r.consensus.finalized →
      ∀ f, r'.consensus.finalized = some f → f.certificate.Certified S :=
    fun heq f hf => h f (heq ▸ hf)
  cases hm with
  | finalizeVotes live quorum accepted =>
      rintro _ ⟨⟩
      have hquorum := (quorum_of_quorumVotes hc.setup (hc.admissible _ _) quorum).1
      rw [← hc.setup] at hquorum ⊢
      exact ⟨rfl, rfl, hquorum⟩
  | finalizeCertificate unfinalized validated =>
      rintro _ ⟨⟩
      obtain ⟨_, hcontext, -⟩ := Except.bind_eq_ok.1 validated
      obtain ⟨hchain, hheight⟩ := validateContext_eq_ok.1 hcontext
      have hquorum := (quorum_of_validateCertificate validated).mono fun v hv =>
        (hV.accepts v).1 hv
      rw [← hc.setup]
      exact ⟨hchain, hheight, hquorum⟩
  | prevoteProposal live phase cached => exact hkept (castVote_finalized _ _)
  | prevoteNil live phase => exact hkept (castVote_finalized _ _)
  | precommitNil live phase => exact hkept (castVote_finalized _ _)
  | lockAndPrecommit live phase quorum valid => exact hkept (castVote_finalized _ _)
  | _ => exact hkept rfl

theorem certified_of_moves (hm : ReflTransGen (Micro V) r r') (hV : V.UsesEd25519)
    (hc : Vetted S MessageValidator.UsesEd25519 r.consensus)
    (h : ∀ f, r.consensus.finalized = some f → f.certificate.Certified S) :
    ∀ f, r'.consensus.finalized = some f → f.certificate.Certified S := by
  induction hm with
  | refl => exact h
  | tail before hm ih => exact hm.certified hV (vetted_of_moves before hV hc) ih

end Running

namespace Session

variable {s : Session}

omit [Primitives] in
/-- The chain of a session is one of the ledger. -/
theorem Reachable.chainId {P : MessageValidator → Consensus → Event → Prop} (hr : Reachable P s) :
    ChainId.validate ⟨s.consensus.config.chainId⟩ = .ok () := by
  obtain ⟨localId, fresh, hfresh⟩ := hr.created
  simp only [Consensus.new, Except.bind_eq_ok, Except.ensure_eq_ok, exists_const] at hfresh
  obtain ⟨-, -, hchain, -⟩ := hfresh
  cases hvalid : ChainId.validate ⟨s.consensus.config.chainId⟩ with
  | ok u => rfl
  | error e =>
      rw [show s.consensus.setup.config = s.consensus.config from rfl, hvalid] at hchain
      cases hchain

/-- Whatever a run with Ed25519 validation finalizes or has returned as final is certified. -/
theorem Reachable.certified (hr : s.Reachable fun V _ _ => V.UsesEd25519) :
    (∀ f, s.consensus.finalized = some f → f.certificate.Certified s.consensus.setup) ∧
      ∀ f, .finalize f ∈ s.returned → f.certificate.Certified s.consensus.setup := by
  induction hr with
  | new created =>
      rw [Consensus.new_eq_ok created]
      exact ⟨nofun, fun f hf => absurd hf List.not_mem_nil⟩
  | restored created =>
      obtain ⟨-, -, -, rfl⟩ := Consensus.newWithSafetyState_eq_ok.1 created
      exact ⟨nofun, fun f hf => absurd hf List.not_mem_nil⟩
  | restore before restored ih =>
      obtain ⟨-, ds, rfl⟩ := Consensus.restoreLocalDecision_eq_ok restored
      exact ih
  | @step s V e before allowed ih =>
      obtain ⟨S, boot, hi⟩ := before.inv
      obtain ⟨hfinal, hreturned⟩ := ih
      have hvetted := before.vetted fun V _ _ h => h
      have hmoves := Running.handle_reaches (V := V) (r := ⟨s.consensus, []⟩)
        (fun h => (hi.unstarted h).1) e
      have hstate : ∀ f, (s.step V e).consensus.finalized = some f →
          f.certificate.Certified s.consensus.setup := by
        show ∀ f, (s.consensus.step e V).2.finalized = some f → _
        rw [Consensus.step_state]
        exact Running.certified_of_moves hmoves allowed hvetted hfinal
      rw [before.step_setup V e]
      refine ⟨hstate, fun f hf => ?_⟩
      rcases List.mem_append.1 hf with hf | hf
      · exact hreturned f hf
      · cases hs : (s.consensus.step e V).1 with
        | error err =>
            rw [hs] at hf
            exact absurd hf List.not_mem_nil
        | ok effects =>
            rw [hs] at hf
            exact hstate f (Consensus.finalized_of_step (fun h => (hi.unstarted h).1) hs hf)

/-- Every certificate that a run with Ed25519 validation has returned as final converts to one that
the ledger accepts for the same validators, and converting it back sorts its precommits. Every
certificate that the ledger accepts is left as it is by the conversion there and back, and where
the node has no objection the engine accepts it at its height exactly when signatures may be as
long as those of Ed25519. -/
theorem engine_certificates (hr : s.Reachable fun V _ _ => V.UsesEd25519)
    (hfits : s.consensus.validators.CertificatesFit ⟨s.consensus.config.chainId⟩) :
    (∀ f, .finalize f ∈ s.returned → ∃ p, f.certificate.toProtocol = .ok p ∧
      p.verify s.consensus.validators.validators = .ok () ∧
      ConsensusCommitCertificate.fromProtocol p = f.certificate.sorted) ∧
    ∀ p : CommitCertificate, p.verify s.consensus.validators.validators = .ok () →
      (ConsensusCommitCertificate.fromProtocol p).toProtocol = .ok p ∧
      ∀ V : MessageValidator, V.UsesEd25519 → p.chainId.value = s.consensus.config.chainId →
        p.height = s.consensus.height → p.round < s.consensus.config.maxRoundsPerHeight →
        V.validateCertificate (.fromProtocol p) = .ok () →
        (s.consensus.validateCertificate V (.fromProtocol p) = .ok () ↔
          64 ≤ s.consensus.config.maxSignatureBytes) := by
  constructor
  · intro f hf
    obtain ⟨p, hconverts, hproves⟩ := (hr.certified.2 f hf).toProtocol hr.chainId hfits
    exact ⟨p, hconverts, CommitCertificate.verify_eq_ok.2 hproves,
      ConsensusCommitCertificate.fromProtocol_toProtocol hconverts⟩
  · intro p hp
    have hproves := CommitCertificate.verify_eq_ok.1 hp
    exact ⟨hproves.toProtocol, fun V hV hchain hheight hround hnode =>
      Consensus.validateCertificate_fromProtocol hproves hV hchain hheight hround hnode⟩

end Session

end

/-! ## Four validators -/

section
open scoped Sample

namespace Sample

/-- Four validators at the first height, each with a key of its own. -/
def keySetup : Setup where
  validators := ⟨[1, 2, 3, 4].map fun b => .fromSigningKey (key b), by decide, by decide⟩
  height := 1
  config := .forChain "kcoin-local"

/-- What the validators sign in the first round. -/
def keyVote : CommitVote := .new chainId 1 0 block

def keySignature (b : UInt8) : CommitSignature :=
  ⟨.fromSigningKey (key b), Primitives.sign (key b) keyVote.signingBytes⟩

/-- A certificate of three of them. -/
def keyCertificate : CommitCertificate := .new keyVote ([4, 2, 3].map keySignature)

/-- A node that validates votes by Ed25519 and has no objection to proposals and certificates. -/
def ed25519Validator : MessageValidator := { acceptAll with validateVote := verifyEd25519Vote }

/-- The first validator hears the precommits of the others. -/
def keySession : Session :=
  let precommit (b : UInt8) := Event.message (.vote (keyVote.precommit (keySignature b)))
  [.start, precommit 4, precommit 2, precommit 3].foldl (·.step ed25519Validator)
    ⟨.initial (.fromSigningKey (key 1)) keySetup.validators keySetup.height keySetup.config, []⟩

end Sample

open Sample

/-- Whether an effect is the finalized block. -/
def Effect.finalizes : Effect → Bool
  | .finalize _ => true
  | _ => false

namespace Session

theorem key_created :
    Consensus.new (.fromSigningKey (key 1)) keySetup.validators keySetup.height keySetup.config =
      .ok (.initial (.fromSigningKey (key 1)) keySetup.validators keySetup.height keySetup.config) := by
  rfl

/-- The engine finalizes the block with a certificate that the ledger accepts, and it accepts the
certificate of the ledger. -/
theorem engine_certificates_four :
    (∃ f p, .finalize f ∈ keySession.returned ∧ f.certificate.toProtocol = .ok p ∧
      p.verify keySetup.validators.validators = .ok () ∧
      ConsensusCommitCertificate.fromProtocol p = f.certificate.sorted) ∧
    keySession.consensus.validateCertificate ed25519Validator (.fromProtocol keyCertificate) =
      .ok () := by
  have hr : keySession.Reachable fun V _ _ => V.UsesEd25519 :=
    reachable_foldl (fun _ _ => rfl) _ (.new key_created)
  have hvalidators : keySession.consensus.validators.validators = keySetup.validators.validators :=
    by decide +kernel
  have hfits : keySession.consensus.validators.CertificatesFit
      ⟨keySession.consensus.config.chainId⟩ :=
    ValidatorSet.certificatesFit_of_len_le hr.chainId (by decide +kernel)
  obtain ⟨hfinal, hproofs⟩ := engine_certificates hr hfits
  have hverified : keyCertificate.verify keySession.consensus.validators.validators = .ok () := by
    rw [hvalidators]
    decide +kernel
  constructor
  · have hreturned : keySession.returned.any Effect.finalizes = true := by decide +kernel
    obtain ⟨e, he, hf⟩ := List.any_eq_true.1 hreturned
    cases e with
    | finalize f =>
        obtain ⟨p, hconverts, hverifies, hsorted⟩ := hfinal f he
        exact ⟨f, p, he, hconverts, hvalidators ▸ hverifies, hsorted⟩
    | _ => cases hf
  · exact ((hproofs keyCertificate hverified).2 ed25519Validator rfl (by decide +kernel)
      (by decide +kernel) (by decide +kernel) rfl).2 (by decide +kernel)

/-- An engine may be configured to accept only signatures of one byte. Then it refuses a certificate
of the ledger that carries those of Ed25519. -/
theorem short_signatures_refuse : ∃ s : Session, s.Reachable (fun V _ _ => V.UsesEd25519) ∧
    s.consensus.validators.CertificatesFit ⟨s.consensus.config.chainId⟩ ∧
    ∃ (p : CommitCertificate) (V : MessageValidator), V.UsesEd25519 ∧
      p.verify s.consensus.validators.validators = .ok () ∧
      p.chainId.value = s.consensus.config.chainId ∧ p.height = s.consensus.height ∧
      p.round < s.consensus.config.maxRoundsPerHeight ∧
      V.validateCertificate (.fromProtocol p) = .ok () ∧
      s.consensus.validateCertificate V (.fromProtocol p) = .error .signatureTooLarge := by
  let config : ConsensusConfig := { keySetup.config with maxSignatureBytes := 1 }
  let S : Setup := { keySetup with config := config }
  have created : Consensus.new (.fromSigningKey (key 1)) S.validators S.height S.config =
      .ok (.initial (.fromSigningKey (key 1)) S.validators S.height S.config) := rfl
  have hr := Reachable.new (P := fun V _ _ => V.UsesEd25519) created
  refine ⟨_, hr, ValidatorSet.certificatesFit_of_len_le hr.chainId (by decide), keyCertificate,
    ed25519Validator, rfl, ?_, rfl, rfl, ?_, rfl, ?_⟩ <;> decide +kernel

end Session

end

end KCoin
