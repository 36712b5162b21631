import Mathlib.Data.List.Induction
import KCoin.Protocol.Order

/-!
# History binding

The tip hash of a ledger determines its whole history, when the hash function has no collision
among the byte strings that the two histories hash (`history_binding`). The block hash covers the
header alone, so the header is determined first; its parent hash determines the history before
it, by induction, and its state root the state after it. The Merkle root alone does not determine
the transactions, since an odd level repeats its last node; but no transaction is applied twice,
so the state after the block tells how many there are, and among lists of one length the root
does determine them.
-/

open Borsh

namespace KCoin

section
variable [Primitives]

/-- The hash function has no collision among some inputs, each given with its domain. -/
def CollisionFree (inputs : List (String × List UInt8)) : Prop :=
  ∀ p ∈ inputs, ∀ q ∈ inputs, p.1 = q.1 → hashBytes p.1 p.2 = hashBytes q.1 q.2 → p.2 = q.2

instance (inputs : List (String × List UInt8)) : Decidable (CollisionFree inputs) :=
  inferInstanceAs (Decidable (∀ p ∈ inputs, ∀ q ∈ inputs, _ → _ → _))

theorem CollisionFree.mono {l m : List (String × List UInt8)} (h : CollisionFree m)
    (hsub : l ⊆ m) : CollisionFree l :=
  fun p hp q hq => h p (hsub hp) q (hsub hq)

theorem CollisionFree.eq {l : List (String × List UInt8)} (h : CollisionFree l) {d : String}
    {x y : List UInt8} (hx : (d, x) ∈ l) (hy : (d, y) ∈ l)
    (he : hashBytes d x = hashBytes d y) : x = y :=
  h (d, x) hx (d, y) hy rfl he

/-! ## What a block hashes -/

/-- The inputs of the hash function for the Merkle root of some transactions. -/
def merkleInputs (ts : List SignedTransaction) : List (String × List UInt8) :=
  ts.map (fun t => (transactionHashDomain, t.canonicalBytes)) ++
    ts.map (fun t => (merkleLeafDomain, t.id.bytes.toList)) ++
    (Merkle.hashed (hashPair merkleNodeDomain) (merkleLeaves ts).length (merkleLeaves ts)).map
      fun p => (merkleNodeDomain, p.1.bytes.toList ++ p.2.bytes.toList)

/-- Among transaction lists of one length, the Merkle root determines the transactions. -/
theorem merkleRoot_inj {ts us : List SignedTransaction} (hlen : ts.length = us.length)
    (ht : ∀ t ∈ ts, t.unsigned.validateShape = .ok ())
    (hu : ∀ u ∈ us, u.unsigned.validateShape = .ok ())
    (hcf : CollisionFree (merkleInputs ts ++ merkleInputs us))
    (h : merkleRoot ts = merkleRoot us) : ts = us := by
  by_cases hne : ts = []
  · subst hne
    exact (List.length_eq_zero_iff.1 hlen.symm).symm
  have hne' : us ≠ [] := List.ne_nil_of_length_pos (hlen ▸ List.length_pos_of_ne_nil hne)
  have hleaves : merkleLeaves ts = merkleLeaves us := by
    refine Merkle.root_inj (by simp [merkleLeaves, hlen]) (fun p hp q hq he => ?_)
      ((merkleRoot_eq hne).trans (h ▸ (merkleRoot_eq hne').symm))
    have hbytes := hcf.eq
      (List.mem_append_left _ (List.mem_append_right _ (List.mem_map_of_mem hp)))
      (List.mem_append_right _ (List.mem_append_right _ (List.mem_map_of_mem hq))) he
    have happ := List.append_inj hbytes (by simp)
    exact Prod.ext (Hash32.ext (Bytes.ext happ.1)) (Hash32.ext (Bytes.ext happ.2))
  have hleaf : ∀ {t ts}, t ∈ ts → (merkleLeafDomain, t.id.bytes.toList) ∈ merkleInputs ts :=
    fun {t ts} ht => List.mem_append_left _ (List.mem_append_right _
      (List.mem_map_of_mem (f := fun t => (merkleLeafDomain, t.id.bytes.toList)) ht))
  have hid : ∀ {t ts}, t ∈ ts → (transactionHashDomain, t.canonicalBytes) ∈ merkleInputs ts :=
    fun {t ts} ht => List.mem_append_left _ (List.mem_append_left _
      (List.mem_map_of_mem (f := fun t => (transactionHashDomain, t.canonicalBytes)) ht))
  refine Merkle.map_inj_on (fun t htm u hum he => ?_) hleaves
  have hids : t.id.bytes.toList = u.id.bytes.toList :=
    hcf.eq (List.mem_append_left _ (hleaf htm)) (List.mem_append_right _ (hleaf hum)) he
  have hbytes : t.canonicalBytes = u.canonicalBytes :=
    hcf.eq (List.mem_append_left _ (hid htm)) (List.mem_append_right _ (hid hum))
      (Hash32.ext (Bytes.ext hids))
  exact SignedTransaction.canonicalBytes_inj (ht t htm) (hu u hum) hbytes

/-- The inputs of the hash function when a block is applied and leaves a state. -/
def blockInputs (b : Block) (s' : LedgerState) : List (String × List UInt8) :=
  (blockHashDomain, encode b.header) :: (stateHashDomain, s'.commitmentBytes) ::
    merkleInputs b.transactions

namespace LedgerState

/-! ## What the state root determines -/

omit [Primitives] in
/-- Every display name fits its length prefix. -/
def NamesFit (s : LedgerState) : Prop := ∀ a, Fits (s.accountOrDefault a)

omit [Primitives] in
theorem namesFit_new (c : ChainId) : (LedgerState.new c).NamesFit := fun _ =>
  ⟨trivial, trivial, fits_none⟩

omit [Primitives] in
/-- States whose account maps have similar sizes and that commit to one byte string have applied
the same transactions. -/
theorem applied_eq_of_commitmentBytes {s s' : LedgerState} (hc : Fits s.chainId)
    (hc' : Fits s'.chainId) (hs : s.NamesFit) (hs' : s'.NamesFit)
    (hsize : s.accounts.size < s'.accounts.size + 2 ^ 32)
    (hsize' : s'.accounts.size < s.accounts.size + 2 ^ 32)
    (h : s.commitmentBytes = s'.commitmentBytes) :
    s.appliedTransactions.size = s'.appliedTransactions.size := by
  have hfits : ∀ {s : LedgerState}, s.NamesFit → ∀ p ∈ s.accounts.toList, Fits p :=
    fun {s} hs p hp => by
      obtain ⟨a, x⟩ := p
      rw [Std.ExtTreeMap.mem_toList_iff_getElem?_eq_some] at hp
      have ha := hs a
      rw [accountOrDefault, hp, Option.getD_some] at ha
      exact ⟨fits_address a, ha⟩
  unfold commitmentBytes at h
  simp only [encode_prod] at h
  obtain ⟨-, h⟩ := encode_append_inj trivial trivial h
  obtain ⟨-, h⟩ := encode_append_inj hc hc' h
  obtain ⟨-, h⟩ := encode_append_inj trivial trivial h
  obtain ⟨-, h⟩ := encode_append_inj trivial trivial h
  obtain ⟨-, h⟩ := encode_append_inj trivial trivial h
  obtain ⟨-, h⟩ := encode_append_inj trivial trivial h
  obtain ⟨-, h⟩ := encode_list_append_inj (by simpa using hsize) (by simpa using hsize')
    (hfits hs) (hfits hs') h
  have hlen : ∀ l : List Hash32, (encode l).length = 4 + l.length * 32 := fun l => by
    rw [encode_list, List.length_append, length_leBytes,
      length_encodeMany_eq fun a _ => a.bytes.length_toList]
  have := congrArg List.length h
  rw [hlen, hlen, Std.ExtTreeSet.length_toList, Std.ExtTreeSet.length_toList] at this
  omega

variable {s s' : LedgerState} {t : SignedTransaction} {r : TransactionReceipt}

/-- One transaction adds one identity, at most two accounts, and names that fit. -/
theorem Applied.sizes {h : UInt64} (hv : s.Validated t h) (ha : s.Applied t r s') :
    s'.appliedTransactions.size = s.appliedTransactions.size + 1 ∧
      s.accounts.size ≤ s'.accounts.size ∧ s'.accounts.size ≤ s.accounts.size + 2 := by
  have hset : (s.appliedTransactions.insert t.id).size = s.appliedTransactions.size + 1 := by
    rw [Std.ExtTreeSet.size_insert, if_neg]
    simpa using hv.fresh
  have hmap : ∀ (m : BTreeMap Address AccountState) a x,
      m.size ≤ (m.insert a x).size ∧ (m.insert a x).size ≤ m.size + 1 := fun m a x =>
    ⟨Std.ExtTreeMap.size_le_size_insert, Std.ExtTreeMap.size_insert_le⟩
  cases ha with
  | @transfer recipient amount sb rb =>
      have h1 := hmap s.accounts recipient ((s.accountOrDefault recipient).setBalance rb)
      have h2 := hmap (s.accounts.insert recipient
        ((s.accountOrDefault recipient).setBalance rb)) t.senderAddress
      exact ⟨hset, h1.1.trans (h2 _).1, (h2 _).2.trans (by omega)⟩
  | selfTransfer | claim | rename =>
      exact ⟨hset, (hmap s.accounts _ _).1, (hmap s.accounts _ _).2.trans (by omega)⟩

theorem Applied.namesFit {h : UInt64} (hv : s.Validated t h) (ha : s.Applied t r s')
    (hs : s.NamesFit) : s'.NamesFit := by
  intro a
  suffices hname : Fits (s'.accountOrDefault a).displayName from ⟨trivial, trivial, hname⟩
  rw [(ha.changes hv).name a, List.foldl_cons, List.foldl_nil]
  have hold : Fits (s.accountOrDefault a).displayName := (hs a).2.2
  rcases r.rename_eq a (s.accountOrDefault a).displayName with h | h
  · rw [h]
    exact hold
  · generalize r.rename a (s.accountOrDefault a).displayName = new at h ⊢
    cases ha with
    | transfer | selfTransfer | claim => cases h
    | rename action =>
        cases h
        have hact := hv.action
        rw [action] at hact
        exact fits_of_validateDisplayName hact

/-- A run over some transactions adds their number of identities, at most twice as many accounts,
and names that fit; its transactions are well-formed. -/
theorem sizes_of_run {ts : List SignedTransaction} {h : UInt64} {rs : List TransactionReceipt}
    (hrun : applyTransactions ts h s = .ok rs s') :
    s'.appliedTransactions.size = s.appliedTransactions.size + ts.length ∧
      s.accounts.size ≤ s'.accounts.size ∧ s'.accounts.size ≤ s.accounts.size + 2 * ts.length ∧
      (s.NamesFit → s'.NamesFit) ∧ ∀ t ∈ ts, t.unsigned.validateShape = .ok () := by
  induction ts generalizing s rs with
  | nil =>
      obtain ⟨-, rfl⟩ := applyTransactions_nil_eq_ok.1 hrun
      exact ⟨rfl, Nat.le_refl _, Nat.le_refl _, id, nofun⟩
  | cons t ts ih =>
      obtain ⟨r, s₁, rs', ht, hts, rfl⟩ := applyTransactions_cons_eq_ok.1 hrun
      obtain ⟨hv, ha⟩ := applyTransaction_eq_ok ht
      obtain ⟨h1, h2, h3⟩ := ha.sizes hv
      obtain ⟨i1, i2, i3, i4, i5⟩ := ih hts
      rw [List.length_cons]
      exact ⟨by omega, by omega, by omega, fun hs => i4 (ha.namesFit hv hs),
        List.forall_mem_cons.2 ⟨SignedTransaction.shape_of_verifySignature hv.verified, i5⟩⟩

/-! ## Runs of blocks -/

/-- The inputs of the hash function while blocks are applied one after the other. -/
def runInputs : LedgerState → List Block → List (String × List UInt8)
  | _, [] => []
  | s, b :: bs =>
    let s' := (applyBlock b s).state
    blockInputs b s' ++ runInputs s' bs

theorem applyBlocks_cons_eq_ok {b : Block} {bs : List Block} :
    applyBlocks (b :: bs) s = .ok () s' ↔
      ∃ rs s₁, applyBlock b s = .ok rs s₁ ∧ applyBlocks bs s₁ = .ok () s' := by
  simp only [applyBlocks, EStateM.bind_eq_ok]

theorem applyBlocks_append_eq_ok {bs cs : List Block} :
    applyBlocks (bs ++ cs) s = .ok () s' ↔
      ∃ s₁, applyBlocks bs s = .ok () s₁ ∧ applyBlocks cs s₁ = .ok () s' := by
  induction bs generalizing s with
  | nil => simp [applyBlocks]
  | cons b bs ih =>
      simp only [List.cons_append, applyBlocks_cons_eq_ok, ih]
      constructor
      · rintro ⟨rs, s₁, hb, s₂, hbs, hcs⟩
        exact ⟨s₂, ⟨rs, s₁, hb, hbs⟩, hcs⟩
      · rintro ⟨s₂, ⟨rs, s₁, hb, hbs⟩, hcs⟩
        exact ⟨rs, s₁, hb, s₂, hbs, hcs⟩

theorem applyBlocks_concat_eq_ok {bs : List Block} {b : Block} :
    applyBlocks (bs ++ [b]) s = .ok () s' ↔
      ∃ s₁ rs, applyBlocks bs s = .ok () s₁ ∧ s₁.BlockApplied b rs s' := by
  rw [applyBlocks_append_eq_ok]
  constructor
  · rintro ⟨s₁, hbs, hb⟩
    obtain ⟨rs, s₂, hb, hnil⟩ := applyBlocks_cons_eq_ok.1 hb
    cases hnil
    exact ⟨s₁, rs, hbs, applyBlock_eq_ok.1 hb⟩
  · rintro ⟨s₁, rs, hbs, hb⟩
    exact ⟨s₁, hbs, applyBlocks_cons_eq_ok.2 ⟨rs, s', applyBlock_eq_ok.2 hb, rfl⟩⟩

theorem runInputs_append {bs cs : List Block} {s₁ : LedgerState}
    (h : applyBlocks bs s = .ok () s₁) :
    runInputs s (bs ++ cs) = runInputs s bs ++ runInputs s₁ cs := by
  induction bs generalizing s with
  | nil => cases h; rfl
  | cons b bs ih =>
      obtain ⟨rs, s₂, hb, hbs⟩ := applyBlocks_cons_eq_ok.1 h
      simp only [List.cons_append, runInputs, hb, EStateM.Result.state_ok, ih hbs,
        List.append_assoc]

theorem blockInputs_subset {bs : List Block} {b : Block} {s₁ : LedgerState}
    {rs : List TransactionReceipt} (h : applyBlocks bs s = .ok () s₁)
    (hb : s₁.BlockApplied b rs s') :
    blockInputs b s' ⊆ runInputs s (bs ++ [b]) ∧ runInputs s bs ⊆ runInputs s (bs ++ [b]) := by
  rw [runInputs_append h]
  refine ⟨List.subset_append_of_subset_right _ ?_, List.subset_append_left _ _⟩
  simp only [runInputs, applyBlock_eq_ok.2 hb, EStateM.Result.state_ok, List.append_nil]
  exact List.Subset.refl _

/-- The height of a ledger is the number of its blocks, its chain identifier is the one it was
created with, and its display names fit. -/
theorem applyBlocks_new {c : ChainId} {bs : List Block}
    (h : applyBlocks bs (LedgerState.new c) = .ok () s) :
    s.chainId = c ∧ s.height.toNat = bs.length ∧ s.NamesFit := by
  induction bs using List.reverseRecOn generalizing s with
  | nil => cases h; exact ⟨rfl, rfl, namesFit_new c⟩
  | append_singleton bs b ih =>
      obtain ⟨s₁, rs, hbs, hb⟩ := applyBlocks_concat_eq_ok.1 h
      obtain ⟨hc, hh, hn⟩ := ih hbs
      obtain ⟨e, he, rfl⟩ := hb.executed
      have hfixed := (changes_of_run he).fixed
      refine ⟨hfixed.1.trans hc, ?_, (sizes_of_run he).2.2.2.1 hn⟩
      change b.header.height.toNat = _
      rw [hb.height, hh, List.length_append, List.length_singleton]

/-- The last block of a nonempty history is the one its tip hash is the hash of. -/
theorem BlockApplied.tipHash {b : Block} {rs : List TransactionReceipt}
    (h : s.BlockApplied b rs s') : s'.tipHash = b.hash := by
  obtain ⟨e, -, rfl⟩ := h.executed
  rfl

/-- The transactions of an applied block are no more than its bytes. -/
theorem BlockApplied.length_le {b : Block} {rs : List TransactionReceipt}
    (h : s.BlockApplied b rs s') : b.transactions.length ≤ maxBlockBytes := by
  have hsize := (Block.validateCommitments_eq_ok.1 h.commitments).1
  have hlen : b.transactions.length ≤ (encodeMany b.transactions).length :=
    length_le_length_encodeMany fun t _ => by
      change 1 ≤ (encode t.unsigned ++ t.signature.toList).length
      simp
  have happ : b.canonicalBytes = encode b.header ++ encode b.transactions := rfl
  rw [happ, List.length_append, encode_list, List.length_append] at hsize
  omega

/-- Two blocks applied to one state that have one header are one block. -/
theorem BlockApplied.eq_of_header {b b' : Block} {s₁ s₂ : LedgerState}
    {rs rs' : List TransactionReceipt} (h : s.BlockApplied b rs s₁) (h' : s.BlockApplied b' rs' s₂)
    (hn : s.NamesFit) (hcf : CollisionFree (blockInputs b s₁ ++ blockInputs b' s₂))
    (hheader : b.header = b'.header) : b = b' := by
  obtain ⟨-, -, hchain, hroot⟩ := Block.validateCommitments_eq_ok.1 h.commitments
  obtain ⟨-, -, -, hroot'⟩ := Block.validateCommitments_eq_ok.1 h'.commitments
  have hlen := h.length_le
  have hlen' := h'.length_le
  have hcommit : s₁.commitmentBytes = s₂.commitmentBytes := by
    refine hcf.eq (d := stateHashDomain) ?_ ?_ (h.root.trans (hheader ▸ h'.root.symm))
    · simp [blockInputs]
    · simp [blockInputs]
  obtain ⟨e, he, rfl⟩ := h.executed
  obtain ⟨e', he', rfl⟩ := h'.executed
  obtain ⟨a1, a2, a3, a4, a5⟩ := sizes_of_run he
  obtain ⟨b1, b2, b3, b4, b5⟩ := sizes_of_run he'
  have hfits : Fits s.chainId := ChainId.fits_of_validate (h.chain ▸ hchain)
  have hfits₁ : Fits (e.finish b).chainId := by
    change Fits e.chainId
    rw [(changes_of_run he).fixed.1]
    exact hfits
  have hfits₂ : Fits (e'.finish b').chainId := by
    change Fits e'.chainId
    rw [(changes_of_run he').fixed.1]
    exact hfits
  have happlied : e.appliedTransactions.size = e'.appliedTransactions.size := by
    unfold maxBlockBytes at hlen hlen'
    refine @applied_eq_of_commitmentBytes (e.finish b) (e'.finish b') hfits₁ hfits₂ (a4 hn)
      (b4 hn) ?_ ?_ hcommit <;> simp only [finish] <;> omega
  have htxs : b.transactions = b'.transactions := by
    refine merkleRoot_inj (by omega) a5 b5 (hcf.mono ?_) (hroot.trans (hheader ▸ hroot'.symm))
    intro p hp
    rcases List.mem_append.1 hp with hp | hp <;> simp [blockInputs, hp]
  cases b
  cases b'
  simp_all

/-- Ledgers with one tip hash have one history. -/
theorem history_eq {c c' : ChainId} {bs bs' : List Block}
    (h : applyBlocks bs (LedgerState.new c) = .ok () s)
    (h' : applyBlocks bs' (LedgerState.new c') = .ok () s')
    (hcf : CollisionFree (runInputs (LedgerState.new c) bs ++ runInputs (LedgerState.new c') bs'))
    (hpos : 0 < s.height) (hpos' : 0 < s'.height) (htip : s.tipHash = s'.tipHash) :
    bs = bs' ∧ s = s' := by
  induction bs using List.reverseRecOn generalizing bs' s s' with
  | nil => cases h; exact absurd hpos (by simp [LedgerState.new])
  | append_singleton bs b ih =>
      cases bs' using List.reverseRecOn with
      | nil => cases h'; exact absurd hpos' (by simp [LedgerState.new])
      | append_singleton bs' b' =>
          obtain ⟨p, rs, hbs, hb⟩ := applyBlocks_concat_eq_ok.1 h
          obtain ⟨p', rs', hbs', hb'⟩ := applyBlocks_concat_eq_ok.1 h'
          obtain ⟨hin, hsub⟩ := blockInputs_subset hbs hb
          obtain ⟨hin', hsub'⟩ := blockInputs_subset hbs' hb'
          have hchain := (Block.validateCommitments_eq_ok.1 hb.commitments).2.2.1
          have hchain' := (Block.validateCommitments_eq_ok.1 hb'.commitments).2.2.1
          have hheader : b.header = b'.header := by
            refine encode_inj (Block.fits_header hchain) (Block.fits_header hchain') ?_
            refine hcf.eq (d := blockHashDomain) (List.mem_append_left _ (hin ?_))
              (List.mem_append_right _ (hin' ?_)) (hb.tipHash.symm.trans (htip.trans hb'.tipHash))
            · simp [blockInputs]
            · simp [blockInputs]
          -- the blocks before have one tip and one height
          have hparent : p.tipHash = p'.tipHash := by rw [← hb.parent, ← hb'.parent, hheader]
          have hheight : p.height.toNat = p'.height.toNat := by
            have := hb.height
            have := hb'.height
            rw [hheader] at *
            omega
          obtain ⟨hc, hlen, hn⟩ := applyBlocks_new hbs
          obtain ⟨hc', hlen', hn'⟩ := applyBlocks_new hbs'
          have hprev : bs = bs' ∧ p = p' := by
            by_cases hz : p.height.toNat = 0
            · have hnil : bs = [] := List.length_eq_zero_iff.1 (hlen ▸ hz)
              have hnil' : bs' = [] := List.length_eq_zero_iff.1 (by omega)
              subst hnil hnil'
              cases hbs
              cases hbs'
              have hcc : c = c' := by
                rw [← hc, ← hc', ← hb.chain, ← hb'.chain, hheader]
              exact ⟨rfl, by rw [hcc]⟩
            · refine ih hbs hbs' (hcf.mono ?_) ?_ ?_ hparent
              · exact List.append_subset.2 ⟨List.subset_append_of_subset_left _ hsub,
                  List.subset_append_of_subset_right _ hsub'⟩
              · rw [UInt64.lt_iff_toNat_lt]
                exact Nat.pos_of_ne_zero hz
              · rw [UInt64.lt_iff_toNat_lt, ← hheight]
                exact Nat.pos_of_ne_zero hz
          obtain ⟨rfl, rfl⟩ := hprev
          have hbb : b = b' := by
            refine hb.eq_of_header hb' hn (hcf.mono ?_) hheader
            exact List.append_subset.2 ⟨List.subset_append_of_subset_left _ hin,
              List.subset_append_of_subset_right _ hin'⟩
          subst hbb
          have hr := (applyBlock_eq_ok.2 hb).symm.trans (applyBlock_eq_ok.2 hb')
          cases hr
          exact ⟨rfl, rfl⟩

/-- Two ledgers, each built by applying blocks to an empty ledger, whose histories hash no two
inputs to one digest: equal tips mean equal histories and equal ledgers, and blocks of the two
histories with one hash are one block. -/
theorem history_binding {c c' : ChainId} {bs bs' : List Block}
    (h : applyBlocks bs (LedgerState.new c) = .ok () s)
    (h' : applyBlocks bs' (LedgerState.new c') = .ok () s')
    (hcf : CollisionFree
      (runInputs (LedgerState.new c) bs ++ runInputs (LedgerState.new c') bs')) :
    (0 < s.height → 0 < s'.height → s.tipHash = s'.tipHash → bs = bs' ∧ s = s') ∧
      ∀ b ∈ bs, ∀ b' ∈ bs', b.hash = b'.hash → b = b' := by
  refine ⟨history_eq h h' hcf, fun b hb b' hb' hhash => ?_⟩
  obtain ⟨l, m, rfl⟩ := List.append_of_mem hb
  obtain ⟨l', m', rfl⟩ := List.append_of_mem hb'
  have hpre : ∀ {c : ChainId} {l m : List Block} {b : Block} {s : LedgerState},
      applyBlocks (l ++ b :: m) (LedgerState.new c) = .ok () s →
      ∃ s₁, applyBlocks (l ++ [b]) (LedgerState.new c) = .ok () s₁ ∧ s₁.tipHash = b.hash ∧
        0 < s₁.height ∧ runInputs (LedgerState.new c) (l ++ [b]) ⊆
          runInputs (LedgerState.new c) (l ++ b :: m) := fun {c l m b s} h => by
    rw [List.append_cons] at h
    rw [List.append_cons l b m]
    obtain ⟨s₁, h₁, -⟩ := applyBlocks_append_eq_ok.1 h
    obtain ⟨p, rs, -, hb⟩ := applyBlocks_concat_eq_ok.1 h₁
    refine ⟨s₁, h₁, hb.tipHash, ?_, ?_⟩
    · have := (applyBlocks_new h₁).2.1
      rw [List.length_append, List.length_singleton] at this
      rw [UInt64.lt_iff_toNat_lt, this]
      exact Nat.succ_pos _
    · rw [runInputs_append h₁]
      exact List.subset_append_left _ _
  obtain ⟨s₁, h₁, ht₁, hp₁, hsub⟩ := hpre h
  obtain ⟨s₂, h₂, ht₂, hp₂, hsub'⟩ := hpre h'
  obtain ⟨heq, -⟩ := history_eq h₁ h₂
    (hcf.mono (List.append_subset.2 ⟨List.subset_append_of_subset_left _ hsub,
      List.subset_append_of_subset_right _ hsub'⟩)) hp₁ hp₂ (by rw [ht₁, ht₂, hhash])
  exact (List.append_singleton_inj.1 heq).2

end LedgerState

end

open scoped Sample

/-- A first block with one claim, at a given time. -/
def Sample.firstBlock (timestampMs : UInt64) : Block :=
  let claim := Sample.transaction 1 0 (.claimReward 0 (Challenge.forId 0).answer)
  let proposer := ValidatorId.fromSigningKey (Sample.key 1)
  match (LedgerState.new Sample.chainId).buildBlock proposer 0 timestampMs [claim] with
  | .ok b => b
  | .error _ => Block.new Sample.chainId 1 Hash32.zero proposer 0 timestampMs Hash32.zero []

/-- Two histories of one block that differ in its time. -/
theorem LedgerState.history_binding_first_block :
    let s := LedgerState.new Sample.chainId
    let b := Sample.firstBlock 1000
    let b' := Sample.firstBlock 2000
    b.transactions.length = 1 ∧ ∃ s₁ s₂, applyBlocks [b] s = .ok () s₁ ∧
      applyBlocks [b'] s = .ok () s₂ ∧
      (0 < s₁.height → 0 < s₂.height → s₁.tipHash = s₂.tipHash → [b] = [b'] ∧ s₁ = s₂) ∧
      ∀ x ∈ [b], ∀ y ∈ [b'], x.hash = y.hash → x = y := by
  intro s b b'
  obtain ⟨_, s₁, h₁⟩ : ∃ u s', applyBlocks [b] s = .ok u s' :=
    EStateM.Result.exists_of_isOk (by decide +kernel)
  obtain ⟨_, s₂, h₂⟩ : ∃ u s', applyBlocks [b'] s = .ok u s' :=
    EStateM.Result.exists_of_isOk (by decide +kernel)
  exact ⟨by decide +kernel, s₁, s₂, h₁, h₂, history_binding h₁ h₂ (by decide +kernel)⟩

end KCoin
