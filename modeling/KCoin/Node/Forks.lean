import KCoin.Lib.Prefixes
import KCoin.Node.Listing
import KCoin.Protocol.Accountability

/-!
# Forks

Nothing is assumed here of the validators, of the network or of what the nodes are told. Where the
finalized blocks of two nodes of one chain differ, the histories part after a common block
(`LedgerState.Forks`), and the two certificates there convict more than a third of the validators: each
has signed both blocks of that height (`Machine.forks_accountable`).
-/

open Borsh

namespace KCoin

/-- Equal bytes of two votes of one height are votes for one block in one round. -/
theorem CommitVote.signingBytes_inj {v v' : CommitVote}
    (hversion : v.protocolVersion = v'.protocolVersion) (hchain : v.chainId = v'.chainId)
    (hheight : v.height = v'.height) (h : v.signingBytes = v'.signingBytes) :
    v.round = v'.round ∧ v.blockHash = v'.blockHash := by
  have hencode : encode (v.protocolVersion, v.chainId, v.height, v.round, v.blockHash) =
      encode (v'.protocolVersion, v'.chainId, v'.height, v'.round, v'.blockHash) :=
    List.append_cancel_left h
  rw [hversion, hchain, hheight] at hencode
  simp only [encode_prod, List.append_cancel_left_eq] at hencode
  obtain ⟨hround, hhash⟩ := encode_append_inj (fits_uint32 _) (fits_uint32 _) hencode
  exact ⟨hround, Hash32.ext (Bytes.ext hhash)⟩

section
variable [Primitives]

namespace CommitCertificate

/-- Two certificates for different blocks of a height, and who has signed both. -/
structure Conflicts (c c' : CommitCertificate) (validators : List ValidatorId) : Prop where
  height : c.height = c'.height
  differ : c.blockHash ≠ c'.blockHash
  verified : c.Verified validators ∧ c'.Verified validators
  /-- More than a third of the validators signed both, in different messages. -/
  convicts : (validators.length - 1) / 3 < (c.signers ∩ c'.signers).card
  signed : ∀ v ∈ c.signers ∩ c'.signers, c.SignedBy v ∧ c'.SignedBy v
  messages : c.vote.signingBytes ≠ c'.vote.signingBytes

theorem conflicts {c c' : CommitCertificate} {validators : List ValidatorId}
    (h : c.Verified validators) (h' : c'.Verified validators) (hchain : c.chainId = c'.chainId)
    (hheight : c.height = c'.height) (hne : c.blockHash ≠ c'.blockHash) :
    c.Conflicts c' validators where
  height := hheight
  differ := hne
  verified := ⟨h, h'⟩
  convicts := by
    have hthird := third_lt_overlap h.nonempty
    have hsum := Finset.card_add_card_le h.subset h'.subset
    have hquorum := h.quorum
    have hquorum' := h'.quorum
    rw [List.toFinset_card_of_nodup h.nodup] at hsum
    omega
  signed v hv := by
    obtain ⟨hl, hr⟩ := Finset.mem_inter.1 hv
    exact ⟨h.signed v hl, h'.signed v hr⟩
  messages hsame := hne (CommitVote.signingBytes_inj (h.version.trans h'.version.symm) hchain hheight
    hsame).2

end CommitCertificate

namespace LedgerState

variable {validators : List ValidatorId} {s s' u' : LedgerState} {h h' : BlockHistory}

/-- What a block of a history that executes follows. -/
theorem applyFinalizedBlocks_linked (hrun : applyFinalizedBlocks validators h s = .ok () s') {k : Nat}
    {p : Block × CommitCertificate} (hp : h[k]? = some p) :
    p.1.header.chainId = s.chainId ∧ p.1.header.height.toNat = s.height.toNat + 1 + k ∧
      p.1.header.parentHash = ((h.take k).getLast?.map (·.1.hash)).getD s.tipHash := by
  induction h generalizing s k with
  | nil => cases hp
  | cons q h ih =>
      obtain ⟨rs, s₁, hq, hrest⟩ := EStateM.bind_eq_ok.1 hrun
      have hb := (applyFinalizedBlock_eq_ok.1 hq).2
      cases k with
      | zero =>
          obtain rfl := Option.some.inj hp
          exact ⟨hb.chain, hb.height, hb.parent⟩
      | succ k =>
          obtain ⟨hchain, hheight, hparent⟩ := ih hrest hp
          obtain ⟨c, hexecuted, rfl⟩ := hb.executed
          have hsame : (c.finish q.1).chainId = s.chainId := (changes_of_run hexecuted).fixed.1
          have hone : (c.finish q.1).height.toNat = s.height.toNat + 1 := hb.height
          refine ⟨hchain.trans hsame, by omega, hparent.trans ?_⟩
          rw [List.take_succ_cons]
          cases hlast : (h.take k).getLast? with
          | none =>
              rw [List.getLast?_eq_none_iff.1 hlast]
              rfl
          | some r => rw [List.getLast?_cons, hlast]; rfl

/-- Two histories that part at two blocks: up to these they have the same blocks, and the certificates
of the two conflict. -/
structure Forks (validators : List ValidatorId) (h h' : BlockHistory) (k : Nat)
    (p q : Block × CommitCertificate) : Prop where
  parts : List.PartsAt (·.1.hash) h h' k p q
  height : p.1.header.height.toNat = k + 1 ∧ q.1.header.height = p.1.header.height
  parent : q.1.header.parentHash = p.1.header.parentHash
  certified : p.2.verifyForBlock p.1 validators = .ok () ∧ q.2.verifyForBlock q.1 validators = .ok ()
  conflicts : p.2.Conflicts q.2 validators

/-- What a certificate of a block says. -/
theorem of_verifyForBlock {b : Block} {c : CommitCertificate}
    (h : c.verifyForBlock b validators = .ok ()) : c.chainId = b.header.chainId ∧
      c.height = b.header.height ∧ c.blockHash = b.hash ∧ c.Verified validators := by
  obtain ⟨_, hblock, h⟩ := Except.bind_eq_ok.1 h
  obtain ⟨hchain, hheight, hid, -⟩ := Except.ensure_eq_ok.1 hblock
  obtain ⟨_, -, h⟩ := Except.bind_eq_ok.1 h
  obtain ⟨_, -, h⟩ := Except.bind_eq_ok.1 h
  exact ⟨hchain, hheight, hid, CommitCertificate.verified_of_verify h⟩

/-- Histories that execute from one state either continue each other or fork. -/
theorem prefix_or_forks (hrun : applyFinalizedBlocks validators h s = .ok () s')
    (hrun' : applyFinalizedBlocks validators h' s = .ok () u') (hzero : s.height = 0) :
    h.map (·.1.hash) <+: h'.map (·.1.hash) ∨ h'.map (·.1.hash) <+: h.map (·.1.hash) ∨
      ∃ k p q, Forks validators h h' k p q := by
  rcases List.prefix_or_parts (fun p : Block × CommitCertificate => p.1.hash) h h' with
    hprefix | hprefix | ⟨k, p, q, hparts⟩
  · exact .inl hprefix
  · exact .inr (.inl hprefix)
  obtain ⟨hchain, hheight, hparent⟩ := applyFinalizedBlocks_linked hrun hparts.left
  obtain ⟨hchain', hheight', hparent'⟩ := applyFinalizedBlocks_linked hrun' hparts.right
  have hcertified := applyFinalizedBlocks_verified hrun (List.mem_of_getElem? hparts.left)
  have hcertified' := applyFinalizedBlocks_verified hrun' (List.mem_of_getElem? hparts.right)
  obtain ⟨hcchain, hcheight, hid, hverified⟩ := of_verifyForBlock hcertified
  obtain ⟨hcchain', hcheight', hid', hverified'⟩ := of_verifyForBlock hcertified'
  have hsame : q.1.header.height = p.1.header.height :=
    UInt64.toNat_inj.1 (hheight'.trans hheight.symm)
  refine .inr (.inr ⟨k, p, q, hparts, ⟨?_, hsame⟩, ?_, ⟨hcertified, hcertified'⟩, ?_⟩)
  · rw [hheight, hzero]
    exact Nat.add_comm 1 k
  · rw [hparent', hparent, ← hparts.getLast?]
  · refine CommitCertificate.conflicts hverified hverified' ?_ ?_ ?_
    · rw [hcchain, hcchain', hchain, hchain']
    · rw [hcheight, hcheight', hsame]
    · rw [hid, hid']
      exact hparts.differ

end LedgerState

/-- Whatever two nodes of one chain are told, by whomever, through crashes and restarts: unless one of
their histories continues the other, the histories share all blocks below some height, and there each
has a certified block of its own on the same parent. The two certificates, which are in the stores,
convict more than a third of the validators of having signed both. -/
theorem Machine.forks_accountable [Formats] {config config' : NodeConfig} {m m' : Machine}
    {chainId : ChainId} {history history' : BlockHistory} (h : Reachable config m)
    (h' : Reachable config' m') (hchain : ChainId.new config.chainId = .ok chainId)
    (hchain' : ChainId.new config'.chainId = .ok chainId)
    (hhistory : decodeHistory m.store.canonicalBlockRows = .ok history)
    (hhistory' : decodeHistory m'.store.canonicalBlockRows = .ok history') :
    history.map (·.1.hash) <+: history'.map (·.1.hash) ∨
    history'.map (·.1.hash) <+: history.map (·.1.hash) ∨
      ∃ k p q, LedgerState.Forks devValidatorIds history history' k p q := by
  obtain ⟨_, hlisting⟩ := h.listing
  obtain ⟨_, hlisting'⟩ := h'.listing
  obtain rfl := Except.ok.inj (hlisting.decodeHistory.symm.trans hhistory)
  obtain rfl := Except.ok.inj (hlisting'.decodeHistory.symm.trans hhistory')
  obtain ⟨_, _, hsame, hrun⟩ := hlisting.run
  obtain ⟨_, _, hsame', hrun'⟩ := hlisting'.run
  obtain rfl := hsame _ hchain
  obtain rfl := hsame' _ hchain'
  exact LedgerState.prefix_or_forks hrun hrun' rfl

end

section
open scoped Sample
open Sample

/-- Two standalone nodes with the same keys, each of which has made a first block by a clock of its
own. -/
theorem Machine.forks_accountable_two_clocks : ∃ m m' history history',
    play standalone environment [.tick] = some m ∧
    play standalone { environment with clock := fun n => UInt64.ofNat (n + 7) } [.tick] = some m' ∧
    decodeHistory m.store.canonicalBlockRows = .ok history ∧
    decodeHistory m'.store.canonicalBlockRows = .ok history' ∧
    ∃ k p q, LedgerState.Forks devValidatorIds history history' k p q := by
  have hrun : (play standalone environment [.tick]).any fun m =>
      (play standalone { environment with clock := fun n => UInt64.ofNat (n + 7) } [.tick]).any fun m' =>
      (decodeHistory m.store.canonicalBlockRows).toOption.any fun history =>
      (decodeHistory m'.store.canonicalBlockRows).toOption.any fun history' =>
        ¬(history.map (·.1.hash)).isPrefixOf (history'.map (·.1.hash)) ∧
        ¬(history'.map (·.1.hash)).isPrefixOf (history.map (·.1.hash)) := by
    decide +kernel
  obtain ⟨m, hm, hrun⟩ := (Option.any_eq_true ..).1 hrun
  obtain ⟨m', hm', hrun⟩ := (Option.any_eq_true ..).1 hrun
  obtain ⟨history, hhistory, hrun⟩ := (Option.any_eq_true ..).1 hrun
  obtain ⟨history', hhistory', hrun⟩ := (Option.any_eq_true ..).1 hrun
  obtain ⟨hnot, hnot'⟩ := of_decide_eq_true hrun
  rw [List.isPrefixOf_iff_prefix] at hnot hnot'
  have hhistory := Except.toOption_eq_some.1 hhistory
  have hhistory' := Except.toOption_eq_some.1 hhistory'
  have hforks := forks_accountable (play_reachable hm)
    (play_reachable hm') rfl rfl hhistory hhistory'
  exact ⟨m, m', history, history', hm, hm', hhistory, hhistory',
    (hforks.resolve_left hnot).resolve_left hnot'⟩

end

end KCoin
