import KCoin.Lib.MerkleTree
import KCoin.Protocol.Binding

/-!
# What the transactions root commits to

Odd levels of the transaction tree repeat their last node, so the root of three transactions is also
that of the same three with the last one repeated (`merkleRoot_repeats_last`). What the root
determines, when the domains are separated and the identities do not collide, is the list padded
with these copies; it therefore determines the list among the lists of one length, and among the
lists that repeat no transaction (`merkleRoot_commits`).
-/

namespace KCoin

section
variable [Primitives]

/-- The hash function tells some inputs apart, also those of different domains. -/
def Separated (inputs : List (String × List UInt8)) : Prop :=
  ∀ p ∈ inputs, ∀ q ∈ inputs, hashBytes p.1 p.2 = hashBytes q.1 q.2 → p = q

instance (inputs : List (String × List UInt8)) : Decidable (Separated inputs) :=
  inferInstanceAs (Decidable (∀ p ∈ inputs, ∀ q ∈ inputs, _ → _))

/-- The input of the hash function for a leaf of the transaction tree. -/
def leafInput (t : SignedTransaction) : String × List UInt8 :=
  (merkleLeafDomain, t.id.bytes.toList)

/-- The input of the hash function for an inner node. -/
def nodeInput (p : Hash32 × Hash32) : String × List UInt8 :=
  (merkleNodeDomain, p.1.bytes.toList ++ p.2.bytes.toList)

/-- What `merkle_root` hashes. -/
def rootInputs (ts : List SignedTransaction) : List (String × List UInt8) :=
  if ts.isEmpty then [(merkleEmptyDomain, [])]
  else ts.map leafInput ++
    (Merkle.hashed (hashPair merkleNodeDomain) ts.length (merkleLeaves ts)).map nodeInput

omit [Primitives] in
/-- The domains of the tree are distinct. -/
theorem merkle_domains : merkleLeafDomain ≠ merkleEmptyDomain ∧
    merkleNodeDomain ≠ merkleEmptyDomain ∧ merkleLeafDomain ≠ merkleNodeDomain := by decide

variable {ts us : List SignedTransaction}

theorem rootInputs_of_ne_nil (h : ts ≠ []) : rootInputs ts = ts.map leafInput ++
    (Merkle.hashed (hashPair merkleNodeDomain) ts.length (merkleLeaves ts)).map nodeInput :=
  if_neg (by simpa using h)

theorem leafInput_mem {t : SignedTransaction} (ht : t ∈ ts) : leafInput t ∈ rootInputs ts := by
  rw [rootInputs_of_ne_nil (List.ne_nil_of_mem ht)]
  exact List.mem_append_left _ (List.mem_map_of_mem ht)

theorem nodeInput_mem {p : Hash32 × Hash32} (h : ts ≠ [])
    (hp : p ∈ Merkle.hashed (hashPair merkleNodeDomain) ts.length (merkleLeaves ts)) :
    nodeInput p ∈ rootInputs ts := by
  rw [rootInputs_of_ne_nil h]
  exact List.mem_append_right _ (List.mem_map_of_mem hp)

omit [Primitives] in
theorem nodeInput_inj {p q : Hash32 × Hash32} (h : nodeInput p = nodeInput q) : p = q := by
  obtain ⟨hl, hr⟩ := List.append_inj (Prod.ext_iff.1 h).2 (by simp)
  exact Prod.ext (Hash32.ext (Bytes.ext hl)) (Hash32.ext (Bytes.ext hr))

/-- The root of a nonempty list is the hash of a leaf or of an inner node. -/
theorem merkleRoot_input (h : ts ≠ []) :
    ∃ p ∈ rootInputs ts, p.1 ≠ merkleEmptyDomain ∧ merkleRoot ts = hashBytes p.1 p.2 := by
  obtain ⟨t, ht⟩ := Merkle.exists_tree h
  have hover := Merkle.over_of_tree (fun t : SignedTransaction =>
    hashBytes merkleLeafDomain t.id.bytes.toList) (hashPair merkleNodeDomain) ht
  have hroot := merkleRoot_eq h
  rw [merkleLeaves, Merkle.eval_tree, ht, Option.map_some, Option.some.injEq] at hroot
  cases t with
  | leaf a => exact ⟨leafInput a, leafInput_mem hover, merkle_domains.1, hroot.symm⟩
  | fork l r => exact ⟨nodeInput _, nodeInput_mem h hover.1, merkle_domains.2.1, hroot.symm⟩

/-- Two lists have one root exactly when they have one padded list. -/
theorem merkleRoot_eq_iff (hsep : Separated (rootInputs ts ++ rootInputs us))
    (hids : ∀ t ∈ ts, ∀ u ∈ us, t.id = u.id → t = u) :
    merkleRoot ts = merkleRoot us ↔ Merkle.padded ts = Merkle.padded us := by
  -- only the empty list has the root of the domain of empty blocks, or an empty padded list
  have hempty : ∀ {us : List SignedTransaction}, us ≠ [] →
      (∀ p ∈ rootInputs us, hashBytes merkleEmptyDomain [] = hashBytes p.1 p.2 →
        p.1 = merkleEmptyDomain) →
      merkleRoot [] ≠ merkleRoot us ∧ Merkle.padded [] ≠ Merkle.padded us := by
    intro us hne hsep
    obtain ⟨p, hp, hdomain, hroot⟩ := merkleRoot_input hne
    refine ⟨fun h => hdomain (hsep p hp (h.trans hroot)), fun h => hne ?_⟩
    have hprefix := Merkle.prefix_padded us
    rw [← h] at hprefix
    exact List.prefix_nil.1 hprefix
  rcases eq_or_ne ts [] with rfl | hne
  · rcases eq_or_ne us [] with rfl | hne'
    · exact ⟨fun _ => rfl, fun _ => rfl⟩
    · obtain ⟨h, h'⟩ := hempty hne' fun p hp he => congrArg Prod.fst
        (hsep _ (List.mem_append_left _ List.mem_cons_self) p (List.mem_append_right _ hp) he).symm
      exact ⟨fun he => absurd he h, fun he => absurd he h'⟩
  rcases eq_or_ne us [] with rfl | hne'
  · obtain ⟨h, h'⟩ := hempty hne fun p hp he => congrArg Prod.fst
      (hsep _ (List.mem_append_right _ List.mem_cons_self) p (List.mem_append_left _ hp) he).symm
    exact ⟨fun he => absurd he.symm h, fun he => absurd he.symm h'⟩
  have hroot := Merkle.root_eq_iff
    (fun t : SignedTransaction => hashBytes merkleLeafDomain t.id.bytes.toList)
    (hashPair merkleNodeDomain) hne hne' ?_ ?_ ?_ ?_
  · change Merkle.root _ (merkleLeaves ts) = Merkle.root _ (merkleLeaves us) ↔ _ at hroot
    rwa [merkleRoot_eq hne, merkleRoot_eq hne', Option.some.injEq] at hroot
  · intro t ht u hu he
    have hinput := hsep _ (List.mem_append_left _ (leafInput_mem ht)) _
      (List.mem_append_right _ (leafInput_mem hu)) he
    exact hids t ht u hu (Hash32.ext (Bytes.ext (Prod.ext_iff.1 hinput).2))
  · intro p hp q hq he
    exact nodeInput_inj (hsep _ (List.mem_append_left _ (nodeInput_mem hne hp)) _
      (List.mem_append_right _ (nodeInput_mem hne' hq)) he)
  · intro t ht q hq he
    have hinput := hsep _ (List.mem_append_left _ (leafInput_mem ht)) _
      (List.mem_append_right _ (nodeInput_mem hne' hq)) he
    exact absurd (congrArg Prod.fst hinput) merkle_domains.2.2
  · intro p hp u hu he
    have hinput := hsep _ (List.mem_append_left _ (nodeInput_mem hne hp)) _
      (List.mem_append_right _ (leafInput_mem hu)) he
    exact absurd (congrArg Prod.fst hinput).symm merkle_domains.2.2

/-- The transactions root commits to the order and the content of the transactions, up to the
copies that odd levels add: when the hash function tells the inputs of two roots apart and the
identities of the transactions do not collide, the roots are equal exactly when the lists with
these copies are. A padded list starts with the list, so lists of one length, or without
repetitions, that have one root are equal. -/
theorem merkleRoot_commits (hsep : Separated (rootInputs ts ++ rootInputs us))
    (hids : ∀ t ∈ ts, ∀ u ∈ us, t.id = u.id → t = u) :
    (merkleRoot ts = merkleRoot us ↔ Merkle.padded ts = Merkle.padded us) ∧
    (ts <+: Merkle.padded ts ∧ us <+: Merkle.padded us) ∧
    (merkleRoot ts = merkleRoot us →
      ts.length = us.length ∨ ts.Nodup ∧ us.Nodup → ts = us) := by
  have hiff := merkleRoot_eq_iff hsep hids
  exact ⟨hiff, ⟨Merkle.prefix_padded ts, Merkle.prefix_padded us⟩,
    fun h hlm => Merkle.eq_of_padded (hiff.1 h) hlm⟩

end

open scoped Sample in
/-- Two transactions in the two orders. -/
theorem merkleRoot_commits_order :
    let t := Sample.transaction 1 0 (.claimReward 0 (Challenge.forId 0).answer)
    let u := Sample.transaction 1 1 (.transfer ⟨Bytes.fill 20 7⟩ 5)
    merkleRoot [t, u] ≠ merkleRoot [u, t] := by
  intro t u h
  have heq := (merkleRoot_commits (by decide +kernel) (by decide +kernel)).2.2 h (.inl rfl)
  exact absurd (congrArg (·.map (·.unsigned.nonce)) heq) (by decide)

open scoped Sample in
/-- Three transactions and the same three with the last one repeated have one root, though the hash
function tells the inputs apart. -/
theorem merkleRoot_repeats_last :
    let t := Sample.transaction 1 0 (.claimReward 0 (Challenge.forId 0).answer)
    let u := Sample.transaction 1 1 (.transfer ⟨Bytes.fill 20 7⟩ 5)
    let v := Sample.transaction 1 2 (.setDisplayName none)
    Separated (rootInputs [t, u, v] ++ rootInputs [t, u, v, v]) ∧
      (∀ x ∈ [t, u, v], ∀ y ∈ [t, u, v, v], x.id = y.id → x = y) ∧
      merkleRoot [t, u, v] = merkleRoot [t, u, v, v] ∧ [t, u, v] ≠ [t, u, v, v] := by
  intro t u v
  refine ⟨by decide +kernel, by decide +kernel, by decide +kernel, fun h => ?_⟩
  exact absurd (congrArg List.length h) (by decide)

end KCoin
