import KCoin.Consensus.Authentic
import KCoin.Node.NonEquivocation

/-!
# Lawful stores

The signer table of a validator is the log of its decisions. In a lawful store the decisions of each
height are in the order in which they were made, each of them was made by the rules of the protocol,
on votes that the node could trust, and the certificates of the history consist of such votes
(`Store.Lawful`). The votes that a node can trust are the authentic ones that it was given and its
own, which are in the table. A decision of the next height that is stored, and a block that is
committed, leave the store lawful.
-/

open Borsh

namespace KCoin

section
variable [Formats]

/-! ## The decisions in the signer table -/

/-- The decision in a row of the signer table, if the row can be read. -/
def PersistedConsensusDecision.decision? (row : PersistedConsensusDecision) : Option Decision := do
  let m ← tryFromSlice SignedMessage row.signedMessage
  let safetyState ← Formats.safetyFromSlice row.safetyState
  return (m.signable, safetyState)

/-- The row has a decision. -/
structure PersistedConsensusDecision.Decided (row : PersistedConsensusDecision) (d : Decision) :
    Prop where
  message : ∃ m, row.Of m ∧ m.signable = d.1
  safetyState : row.safetyState = Formats.safetyToVec d.2

theorem PersistedConsensusDecision.Decided.decision? {row : PersistedConsensusDecision} {d : Decision}
    (h : row.Decided d) : row.decision? = some d := by
  obtain ⟨⟨m, hof, hsignable⟩, hstate⟩ := h
  obtain ⟨hfits, hencode⟩ := toVec_eq_some.1 hof.signedMessage
  have hmessage : tryFromSlice SignedMessage row.signedMessage = some m := by
    rw [hencode]
    exact tryFromSlice_encode hfits
  have hsafety : Formats.safetyFromSlice row.safetyState = some d.2 := by
    rw [hstate]
    exact Formats.safetyFromSlice_toVec d.2
  unfold PersistedConsensusDecision.decision?
  rw [hmessage, hsafety]
  change some (m.signable, d.2) = some d
  rw [hsignable]

namespace Store

/-- The decisions of a height, in the order in which they were stored. -/
def decisionsAt (s : Store) (height : Height) : List Decision :=
  (s.consensusDecisions height).filterMap (·.decision?)

variable {s s' : Store} {height : Height} {row : PersistedConsensusDecision} {d : Decision}

theorem decisionsAt_congr (h : s'.signerState = s.signerState) :
    s'.decisionsAt height = s.decisionsAt height := by
  unfold decisionsAt consensusDecisions
  rw [h]

theorem decisionsAt_prefix (h : s.signerState <+: s'.signerState) (height : Height) :
    s.decisionsAt height <+: s'.decisionsAt height :=
  (h.filter _).filterMap _

/-- A new row adds its decision to those of its height. -/
theorem decisionsAt_append (h : s'.signerState = s.signerState ++ [row]) (hrow : row.Decided d)
    (height : Height) : s'.decisionsAt height =
      s.decisionsAt height ++ if d.1.height = height then [d] else [] := by
  obtain ⟨m, hof, hsignable⟩ := hrow.message
  obtain ⟨p, hp⟩ : ∃ p : PersistedConsensusDecision → Bool, ∀ s : Store,
      s.consensusDecisions height = s.signerState.filter p := ⟨_, fun _ => rfl⟩
  have hkept : p row = true ↔ d.1.height = height := by
    have hmem : row ∈ s'.consensusDecisions height ↔
        row ∈ s'.signerState ∧ m.signable.height = height :=
      mem_consensusDecisions hof.slot hof.signedMessage_ne
    rw [hp, hsignable, List.mem_filter, h] at hmem
    simpa using hmem
  unfold decisionsAt
  rw [hp, hp, h, List.filter_append, List.filterMap_append]
  by_cases hheight : d.1.height = height
  · simp [hkept.2 hheight, hheight, hrow.decision?]
  · simp [mt hkept.1 hheight, hheight]

/-- The rows of the signer table have decisions. -/
def Readable (s : Store) : Prop := ∀ row ∈ s.signerState, ∃ d, row.Decided d

theorem Readable.mem_decisionsAt (h : s.Readable) :
    d ∈ s.decisionsAt height ↔ d.1.height = height ∧ ∃ row ∈ s.signerState, row.Decided d := by
  unfold decisionsAt
  rw [List.mem_filterMap]
  constructor
  · rintro ⟨row, hrow, hd⟩
    have hmem : row ∈ s.signerState := (List.mem_filter.1 hrow).1
    obtain ⟨d', hdecided⟩ := h row hmem
    obtain rfl := Option.some.inj (hdecided.decision?.symm.trans hd)
    obtain ⟨m, hof, hsignable⟩ := hdecided.message
    obtain ⟨-, hheight⟩ := (mem_consensusDecisions hof.slot hof.signedMessage_ne).1 hrow
    exact ⟨hsignable ▸ hheight, row, hmem, hdecided⟩
  · rintro ⟨hheight, row, hrow, hdecided⟩
    obtain ⟨m, hof, hsignable⟩ := hdecided.message
    refine ⟨row, (mem_consensusDecisions hof.slot hof.signedMessage_ne).2 ⟨hrow, ?_⟩,
      hdecided.decision?⟩
    rw [hsignable]
    exact hheight

/-- A recorded message was decided. -/
theorem Readable.of_records (h : s.Readable) {m : SignedMessage} (hm : s.Records m) :
    ∃ safetyState, (m.signable, safetyState) ∈ s.decisionsAt m.signable.height := by
  obtain ⟨row, hrow, hof⟩ := hm
  obtain ⟨d, hdecided⟩ := h row hrow
  obtain ⟨m', hof', hsignable⟩ := hdecided.message
  obtain rfl := hof.unique hof'
  exact ⟨d.2, h.mem_decisionsAt.2 ⟨rfl, row, hrow, ⟨m, hof, rfl⟩, hdecided.safetyState⟩⟩

end Store

/-! ## Trusted votes -/

/-- The votes that a node can trust: the authentic ones that it was given, and its own. -/
def Store.Trusts (Auth : SignedVote → Prop) (s : Store) (v : SignedVote) : Prop :=
  Auth v ∨ ∃ safetyState, (.vote v.vote, safetyState) ∈ s.decisionsAt v.vote.height

theorem Store.Trusts.mono {Auth : SignedVote → Prop} {s s' : Store} {v : SignedVote}
    (h : s.Trusts Auth v) (hsigner : s.signerState <+: s'.signerState) : s'.Trusts Auth v :=
  h.imp id fun ⟨state, hmem⟩ => ⟨state, (Store.decisionsAt_prefix hsigner _).subset hmem⟩

theorem Store.trusts_congr {Auth : SignedVote → Prop} {s s' : Store}
    (h : s'.signerState = s.signerState) : s'.Trusts Auth = s.Trusts Auth := by
  funext v
  unfold Trusts
  rw [decisionsAt_congr h]

end

/-- A quorum of the validators precommitted the block. -/
def Precommitted (validators : ValidatorSet) (Auth : SignedVote → Prop) (height : Height)
    (block : BlockId) : Prop :=
  ∃ (round : Round) (votes : List SignedVote),
    (∀ v ∈ votes, Auth v ∧ v.vote.height = height ∧ v.vote.validator ∈ validators.validators ∧
      Setup.Agree round .precommit block v) ∧
    (votes.map (·.vote.validator)).Nodup ∧ validators.quorum ≤ votes.length

section
variable [Primitives]

/-- The precommits of the certificate are authentic, where Ed25519 accepts them. -/
def CommitCertificate.Authentic (Auth : SignedVote → Prop) (p : CommitCertificate) : Prop :=
  ∀ v ∈ (ConsensusCommitCertificate.fromProtocol p).precommits, Ed25519 v → Auth v

theorem CommitCertificate.Authentic.mono {Auth Auth' : SignedVote → Prop} {p : CommitCertificate}
    (h : p.Authentic Auth) (hA : ∀ v, Auth v → Auth' v) : p.Authentic Auth' :=
  fun v hv hsigned => hA v (h v hv hsigned)

/-- A certificate that the ledger accepts is a quorum of precommits, if its votes are authentic. -/
theorem CommitCertificate.Proves.precommitted {p : CommitCertificate} {validators : ValidatorSet}
    (h : p.Proves validators) {Auth : SignedVote → Prop} (hA : p.Authentic Auth) :
    Precommitted validators Auth p.height p.blockHash := by
  have hvote : ∀ s ∈ p.signatures,
      p.vote.precommit s ∈ (ConsensusCommitCertificate.fromProtocol p).precommits :=
    fun s hs => List.mem_map_of_mem hs
  refine ⟨p.round, p.signatures.map p.vote.precommit, fun v hv => ?_, ?_, ?_⟩
  · obtain ⟨s, hs, rfl⟩ := List.mem_map.1 hv
    have hauth : Auth (p.vote.precommit s) :=
      hA _ (hvote s hs) ((ed25519_precommit h.version h.chainId).2 (h.signed s hs))
    exact ⟨hauth, rfl, h.members s hs, rfl, rfl, rfl⟩
  · rw [List.map_map]
    refine List.pairwise_map.2 (h.sorted.imp fun {a b} hlt heq => ?_)
    have heq : a.validator = b.validator := heq
    rw [heq, Std.compare_self] at hlt
    cases hlt
  · rw [List.length_map]
    exact h.enough

/-! ## Lawful stores -/

variable [Formats]

/-- The setup of the engine of a height. -/
def NodeConfig.setup (config : NodeConfig) (validators : ValidatorSet) (height : Height) : Setup :=
  ⟨validators, height, .forChain config.chainId⟩

/-- The decisions in the signer table were made by the rules of the protocol, and the certificates of
the history are authentic. -/
structure Store.Lawful (config : NodeConfig) (validators : ValidatorSet) (Auth : SignedVote → Prop)
    (s : Store) : Prop where
  booked : s.Booked
  readable : s.Readable
  /-- The node decides under its own name. -/
  own : ∀ height, ∀ d ∈ s.decisionsAt height, ∃ key, localKey config = .ok (some key) ∧
    d.1.signer = ValidatorId.fromSigningKey key
  proven : ∀ height, ∀ d ∈ s.decisionsAt height, d.Proven
  ordered : ∀ height, (s.decisionsAt height).Pairwise Decision.Before
  justified : ∀ height, ∀ d ∈ s.decisionsAt height,
    d.Justified (config.setup validators height) (s.Trusts Auth) none
  /-- There is no decision beyond the next height, and none of it without an active safety row. -/
  beyond : ∀ height, s.nextHeight < height → s.decisionsAt height = []
  idle : s.consensusSafety = none → s.decisionsAt s.nextHeight = []
  final : ∀ history, decodeHistory s.canonicalBlockRows = .ok history → ∀ p ∈ history,
    p.2.Authentic (s.Trusts Auth)

namespace Store.Lawful

variable {config : NodeConfig} {validators : ValidatorSet} {Auth : SignedVote → Prop} {s s' : Store}

/-- More votes are authentic. -/
theorem mono {Auth' : SignedVote → Prop} (h : s.Lawful config validators Auth)
    (hA : ∀ v, Auth v → Auth' v) : s.Lawful config validators Auth' :=
  { h with
    justified := fun height d hd => (h.justified height d hd).mono fun v => Or.imp_left (hA v)
    final := fun history hhistory p hp => (h.final history hhistory p hp).mono fun v =>
      Or.imp_left (hA v) }

theorem empty : Store.empty.Lawful config validators Auth where
  booked := ⟨List.nodup_nil, fun _ hrow => absurd hrow List.not_mem_nil⟩
  readable _ hrow := absurd hrow List.not_mem_nil
  own _ _ hd := absurd hd List.not_mem_nil
  proven _ _ hd := absurd hd List.not_mem_nil
  ordered _ := .nil
  justified _ _ hd := absurd hd List.not_mem_nil
  beyond _ _ := rfl
  idle _ := rfl
  final history hhistory p hp := by
    obtain rfl := Except.ok.inj hhistory
    exact absurd hp List.not_mem_nil

/-- A change that concerns neither decisions nor blocks. -/
theorem of_same (h : s.Lawful config validators Auth) (hsigner : s'.signerState = s.signerState)
    (hsafety : s'.consensusSafety = s.consensusSafety) (hblocks : s'.blocks = s.blocks) :
    s'.Lawful config validators Auth := by
  have hnext : s'.nextHeight = s.nextHeight := by
    rw [nextHeight, tip, canonicalBlockRows, hblocks]
    rfl
  have hrows : s'.canonicalBlockRows = s.canonicalBlockRows := by
    rw [canonicalBlockRows, hblocks]
    rfl
  have hat : ∀ height, s'.decisionsAt height = s.decisionsAt height := fun _ =>
    decisionsAt_congr hsigner
  have htrusts : s'.Trusts Auth = s.Trusts Auth := trusts_congr hsigner
  refine ⟨h.booked.of_same hsigner, ?_, ?_, ?_, ?_, ?_, ?_, ?_, ?_⟩
  · unfold Readable
    rw [hsigner]
    exact h.readable
  · simpa only [hat] using h.own
  · simpa only [hat] using h.proven
  · simpa only [hat] using h.ordered
  · simpa only [hat, htrusts] using h.justified
  · simpa only [hat, hnext] using h.beyond
  · simpa only [hat, hnext, hsafety] using h.idle
  · simpa only [hrows, htrusts] using h.final

/-- A decision of the next height is stored: it was there already, or it comes after all that is
there. -/
theorem persist (h : s.Lawful config validators Auth) {row : PersistedConsensusDecision}
    {d : Decision} (hrow : row.Decided d) {signature : List UInt8}
    (hs : s.persistConsensusDecision row = .ok (signature, s'))
    (hheight : d.1.height = s.nextHeight)
    (hown : ∃ key, localKey config = .ok (some key) ∧ d.1.signer = ValidatorId.fromSigningKey key)
    (hproven : d.Proven)
    (hordered : (s.decisionsAt s.nextHeight ++ [d]).Pairwise Decision.Before)
    (hjustified : d.Justified (config.setup validators s.nextHeight) (s.Trusts Auth) none) :
    s' = s ∨ s'.signerState = s.signerState ++ [row] ∧ s'.Lawful config validators Auth := by
  obtain ⟨m, hof, hsignable⟩ := hrow.message
  obtain ⟨-, hbooked, -, hsigner⟩ := h.booked.persistConsensusDecision hof hs
  rcases hsigner with hsame | hsigner
  · exact .inl hsame
  refine .inr ⟨hsigner, ?_⟩
  have hprefix : s.signerState <+: s'.signerState := ⟨[row], hsigner.symm⟩
  have hblocks := (persistConsensusDecision_tables hs).blocks
  have hrows : s'.canonicalBlockRows = s.canonicalBlockRows := by
    rw [canonicalBlockRows, hblocks]
    rfl
  have hnext : s'.nextHeight = s.nextHeight := by
    rw [nextHeight, tip, hrows]
    rfl
  have hat := decisionsAt_append hsigner hrow
  rw [hheight] at hat
  have htrusts : ∀ v, s.Trusts Auth v → s'.Trusts Auth v := fun v hv => hv.mono hprefix
  have hmem : ∀ {height : Height} {e : Decision}, e ∈ s'.decisionsAt height →
      e ∈ s.decisionsAt height ∨ e = d ∧ height = s.nextHeight := by
    intro height e he
    rw [hat height] at he
    rcases List.mem_append.1 he with he | he
    · exact .inl he
    · split at he
      · next heq => exact .inr ⟨List.mem_singleton.1 he, heq.symm⟩
      · exact absurd he List.not_mem_nil
  refine ⟨hbooked, fun r hr => ?_, fun height e he => ?_, fun height e he => ?_, fun height => ?_,
    fun height e he => ?_, fun height hlt => ?_, fun hnone => ?_, fun history hhistory p hp => ?_⟩
  · rw [hsigner] at hr
    rcases List.mem_append.1 hr with hr | hr
    · exact h.readable r hr
    · obtain rfl := List.mem_singleton.1 hr
      exact ⟨d, hrow⟩
  · rcases hmem he with he | ⟨rfl, -⟩
    · exact h.own height e he
    · exact hown
  · rcases hmem he with he | ⟨rfl, -⟩
    · exact h.proven height e he
    · exact hproven
  · rw [hat height]
    split
    · next heq =>
        rw [← heq]
        exact hordered
    · rw [List.append_nil]
      exact h.ordered height
  · rcases hmem he with he | ⟨rfl, rfl⟩
    · exact (h.justified height e he).mono htrusts
    · exact hjustified.mono htrusts
  · rw [hnext] at hlt
    rw [hat height, h.beyond height hlt, if_neg (UInt64.ne_of_lt hlt), List.append_nil]
  · -- the stored decision has made its safety state the active one
    rcases persistConsensusDecision_safety hs with ⟨-, f, -, hmap⟩ | ⟨_, -, hsome, -⟩
    · have hlength := congrArg List.length (hsigner.symm.trans hmap)
      simp at hlength
    · exact absurd (hnone.symm.trans hsome) (by simp)
  · rw [hrows] at hhistory
    exact (h.final history hhistory p hp).mono htrusts

/-- A block with an authentic certificate is stored. Its height becomes the greatest one, and there are
no decisions of the height after it. -/
theorem commit {a : NodeActor} {history : BlockHistory} (hchained : a.Chained history)
    (h : a.store.Lawful config validators Auth) {block : Block} {certificate : CommitCertificate}
    {receipts : List TransactionReceipt} {candidate : LedgerState} {store : Store}
    (hc : a.Commits block certificate receipts candidate store)
    (hfinal : certificate.Authentic (a.store.Trusts Auth)) :
    store.Lawful config validators Auth ∧ store.decisionsAt (candidate.height + 1) = [] := by
  have hcommitted := hchained.commit hc
  have hsigner : store.signerState = a.store.signerState := by
    obtain ⟨_, _, projection, -, -, hstore⟩ := hc.store
    exact (persistFinalized_safety hstore).2
  have hat : ∀ height, store.decisionsAt height = a.store.decisionsAt height := fun _ =>
    decisionsAt_congr hsigner
  have htrusts : store.Trusts Auth = a.store.Trusts Auth := trusts_congr hsigner
  have hnext : store.nextHeight = candidate.height + 1 := hcommitted.nextHeight
  have hlater : a.store.nextHeight < store.nextHeight := by
    have hheight : candidate.height.toNat = a.ledger.height.toNat + 1 := by
      have hb := (LedgerState.applyFinalizedBlock_eq_ok.1 hc.ledger).2
      obtain ⟨c, -, rfl⟩ := hb.executed
      exact hb.height
    have hbound : candidate.height.toNat < 2 ^ 63 := hcommitted.height_bound
    rw [hchained.nextHeight, hnext, UInt64.lt_iff_toNat_lt, UInt64.toNat_add, UInt64.toNat_add]
    simp only [UInt64.toNat_one]
    omega
  have hfresh : store.decisionsAt store.nextHeight = [] := by
    rw [hat]
    exact h.beyond _ hlater
  have hdecodable : ∀ {a' : NodeActor} {history' : BlockHistory}, a'.Chained history' →
      decodeHistory a'.store.canonicalBlockRows = .ok history' := fun hc' =>
    hc'.holds.decodeHistory fun p hp => LedgerState.applyFinalizedBlocks_decodable hc'.replay hp
  refine ⟨⟨h.booked.of_same hsigner, ?_, ?_, ?_, ?_, ?_, fun height hlt => ?_, fun _ => hfresh,
    fun history' hhistory p hp => ?_⟩, hnext ▸ hfresh⟩
  · unfold Readable
    rw [hsigner]
    exact h.readable
  · simpa only [hat] using h.own
  · simpa only [hat] using h.proven
  · simpa only [hat] using h.ordered
  · simpa only [hat, htrusts] using h.justified
  · rw [hat]
    exact h.beyond height (UInt64.lt_trans hlater hlt)
  · rw [htrusts]
    obtain rfl := Except.ok.inj ((hdecodable hcommitted).symm.trans hhistory)
    rcases List.mem_append.1 hp with hp | hp
    · exact h.final history (hdecodable hchained) p hp
    · obtain rfl := List.mem_singleton.1 hp
      exact hfinal

end Store.Lawful

end

end KCoin
