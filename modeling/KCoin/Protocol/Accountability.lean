import KCoin.Lib.OrderedMap
import KCoin.Lib.Quorum
import KCoin.Protocol.Commit

/-!
# Accountability of certificates

A certificate that verifies has the valid signatures of a quorum of distinct validators
(`CommitCertificate.Verified`). Two quorums overlap, so two certificates that verify against one
list share more than a third of its validators, and where they are for different blocks of one
round each of these has signed both statements (`certificates_accountable`).
-/

open Borsh

namespace KCoin

/-- Two quorums share more than a third. -/
theorem third_lt_overlap {n : Nat} (h : 0 < n) : (n - 1) / 3 + 1 ≤ 2 * quorumSize n - n := by
  unfold quorumSize
  split <;> omega

/-- The statements for two blocks of one round are different messages. -/
theorem CommitVote.signingBytes_ne {v v' : CommitVote}
    (hversion : v.protocolVersion = v'.protocolVersion) (hchain : v.chainId = v'.chainId)
    (hheight : v.height = v'.height) (hround : v.round = v'.round)
    (hne : v.blockHash ≠ v'.blockHash) : v.signingBytes ≠ v'.signingBytes := by
  intro h
  have hencode : encode (v.protocolVersion, v.chainId, v.height, v.round, v.blockHash) =
      encode (v'.protocolVersion, v'.chainId, v'.height, v'.round, v'.blockHash) :=
    List.append_cancel_left h
  rw [hversion, hchain, hheight, hround] at hencode
  simp only [encode_prod, List.append_cancel_left_eq] at hencode
  exact hne (Hash32.ext (Bytes.ext hencode))

namespace CommitCertificate

/-- The validators whose signatures a certificate carries. -/
def signers (c : CommitCertificate) : Finset ValidatorId :=
  (c.signatures.map (·.validator)).toFinset

section
variable [Primitives] {c c' : CommitCertificate} {validators : List ValidatorId}

/-- The validator has a valid signature of the certificate's statement in it. -/
def SignedBy (c : CommitCertificate) (v : ValidatorId) : Prop :=
  ∃ s ∈ c.signatures, s.validator = v ∧
    verifySignature v.bytes c.vote.signingBytes s.signature = .ok ()

/-- The loop over the signatures finds new validators of the list, each with a valid signature. -/
theorem verifySignatures_eq_ok {authorized seen seen' : BTreeSet ValidatorId}
    {message : List UInt8} {previous : Option ValidatorId} {sigs : List CommitSignature}
    (h : verifySignatures authorized message seen previous sigs = .ok seen') :
    seen'.size = seen.size + sigs.length ∧ (sigs.map (·.validator)).Nodup ∧
      ∀ s ∈ sigs, s.validator ∈ authorized ∧ s.validator ∉ seen ∧
        verifySignature s.validator.bytes message s.signature = .ok () := by
  induction sigs generalizing seen previous with
  | nil =>
      cases h
      exact ⟨rfl, .nil, nofun⟩
  | cons s sigs ih =>
      simp only [verifySignatures, Except.bind_eq_ok, Except.ensure_eq_ok] at h
      obtain ⟨_, hauth, _, hnew, _, -, _, hsig, hrest⟩ := h
      obtain ⟨hsize, hnodup, hall⟩ := ih hrest
      rw [Std.ExtTreeSet.size_insert, if_neg (mt Std.ExtTreeSet.mem_iff_contains.2 hnew)] at hsize
      refine ⟨?_, List.nodup_cons.2 ⟨fun hmem => ?_, hnodup⟩, ?_⟩
      · rw [hsize, List.length_cons]
        omega
      · obtain ⟨u, hu, heq⟩ := List.mem_map.1 hmem
        exact (hall u hu).2.1 (heq ▸ Std.ExtTreeSet.mem_insert_self)
      · intro u hu
        rcases List.mem_cons.1 hu with rfl | hu
        · exact ⟨hauth, hnew, hsig⟩
        · obtain ⟨ha, hn, hs⟩ := hall u hu
          exact ⟨ha, fun hmem => hn (Std.ExtTreeSet.mem_insert.2 (.inr hmem)), hs⟩

/-- What a certificate that verifies has. -/
structure Verified (c : CommitCertificate) (validators : List ValidatorId) : Prop where
  version : c.protocolVersion = KCoin.protocolVersion
  nonempty : 0 < validators.length
  nodup : validators.Nodup
  subset : c.signers ⊆ validators.toFinset
  quorum : quorumSize validators.length ≤ c.signers.card
  signed : ∀ v ∈ c.signers, c.SignedBy v

theorem verified_of_verify (h : c.verify validators = .ok ()) : c.Verified validators := by
  simp only [verify, Except.bind_eq_ok, Except.ensure_eq_ok] at h
  obtain ⟨_, -, _, hshape, _, ⟨hne, hsize⟩, seen, hseen, hquorum⟩ := h
  obtain ⟨hcount, hnodup, hall⟩ := verifySignatures_eq_ok hseen
  rw [Std.ExtTreeSet.size_empty, Nat.zero_add] at hcount
  have hcard : c.signers.card = c.signatures.length := by
    rw [signers, List.toFinset_card_of_nodup hnodup, List.length_map]
  have hmem : ∀ v ∈ c.signers, ∃ s ∈ c.signatures, s.validator = v := fun v hv =>
    List.mem_map.1 (List.mem_toFinset.1 hv)
  refine ⟨(Except.ensure_eq_ok.1 (Except.bind_eq_ok.1 hshape).choose_spec.1), by omega,
    BTreeSet.nodup_of_size_ofList hsize, fun v hv => ?_, ?_, fun v hv => ?_⟩
  · obtain ⟨s, hs, rfl⟩ := hmem v hv
    exact List.mem_toFinset.2 (BTreeSet.mem_ofList.1 (hall s hs).1)
  · rw [hcard, ← hcount, ← hsize]
    exact hquorum
  · obtain ⟨s, hs, rfl⟩ := hmem v hv
    exact ⟨s, hs, rfl, (hall s hs).2.2⟩

/-- Two certificates that verify against one list share at least the overlap of two quorums, which
is more than a third of the validators. Where they are of one chain, height and round but of
different blocks, each validator they share has a valid signature in both, of two different
messages. -/
theorem certificates_accountable (h : c.verify validators = .ok ())
    (h' : c'.verify validators = .ok ()) :
    let n := validators.length
    let common := c.signers ∩ c'.signers
    common ⊆ validators.toFinset ∧
    2 * quorumSize n - n ≤ common.card ∧
    (n - 1) / 3 + 1 ≤ 2 * quorumSize n - n ∧
    (c.chainId = c'.chainId → c.height = c'.height → c.round = c'.round →
      c.blockHash ≠ c'.blockHash →
        (n - 1) / 3 < common.card ∧ c.vote.signingBytes ≠ c'.vote.signingBytes ∧
          ∀ v ∈ common, c.SignedBy v ∧ c'.SignedBy v) := by
  have hv := verified_of_verify h
  have hv' := verified_of_verify h'
  have hthird := third_lt_overlap hv.nonempty
  have hoverlap : 2 * quorumSize validators.length - validators.length ≤
      (c.signers ∩ c'.signers).card := by
    have hsum := Finset.card_add_card_le hv.subset hv'.subset
    have hquorum := hv.quorum
    have hquorum' := hv'.quorum
    rw [List.toFinset_card_of_nodup hv.nodup] at hsum
    omega
  refine ⟨Finset.inter_subset_left.trans hv.subset, hoverlap, hthird, ?_⟩
  intro hchain hheight hround hne
  have hversion := hv.version.trans hv'.version.symm
  refine ⟨Nat.lt_of_lt_of_le hthird hoverlap,
    CommitVote.signingBytes_ne hversion hchain hheight hround hne, ?_⟩
  intro v hmem
  obtain ⟨hl, hr⟩ := Finset.mem_inter.1 hmem
  exact ⟨hv.signed v hl, hv'.signed v hr⟩

end

open scoped Sample in
/-- Four validators, of which three sign one block and three another one of the same round: the two
in both have signed both. -/
theorem certificates_accountable_two_blocks :
    let validators := [1, 2, 3, 4].map fun b => ValidatorId.fromSigningKey (Sample.key b)
    let certificate := fun (hash : Hash32) (keys : List UInt8) =>
      let vote := CommitVote.new Sample.chainId 1 0 hash
      CommitCertificate.new vote <| keys.map fun b =>
        ⟨ValidatorId.fromSigningKey (Sample.key b), Primitives.sign (Sample.key b) vote.signingBytes⟩
    let c := certificate ⟨Bytes.fill 32 7⟩ [1, 2, 3]
    let c' := certificate ⟨Bytes.fill 32 8⟩ [4, 3, 2]
    (validators.length - 1) / 3 < (c.signers ∩ c'.signers).card ∧
      ∀ v ∈ c.signers ∩ c'.signers, c.SignedBy v ∧ c'.SignedBy v := by
  intro validators certificate c c'
  have h : c.verify validators = .ok () := by decide +kernel
  have h' : c'.verify validators = .ok () := by decide +kernel
  have hboth := (certificates_accountable h h').2.2.2 rfl rfl rfl (by decide +kernel)
  exact ⟨hboth.1, hboth.2.2⟩

end CommitCertificate

end KCoin
