import Mathlib.Data.Finset.Card
import Mathlib.Data.List.Nodup
import Mathlib.Order.SetNotation
import Mathlib.Tactic.Common

/-!
# Quorums and locks

Two quorums share an honest member, by counting (`List.exists_common`). On this rests the safety
of voting protocols with locks: in each round members prevote and then precommit, a precommit
needs a quorum of prevotes (a *polka*), and a member that precommitted prevotes another value in a
later round only on a polka for that value from a round in between. Then two values that each got
a quorum of precommits, in whatever rounds, are the same (`Votes.agreement`).
-/

section

variable {α : Type} [DecidableEq α]

/-- Two subsets of a base share at least what their members together exceed it by. -/
theorem Finset.card_add_card_le {U S T : Finset α} (hS : S ⊆ U) (hT : T ⊆ U) :
    S.card + T.card ≤ U.card + (S ∩ T).card := by
  have hcard := Finset.card_union_add_card_inter S T
  have hunion := Finset.card_le_card (Finset.union_subset hS hT)
  omega

/-- Two sets with more members together than their base and its faulty members share a member that
is not faulty. -/
theorem Finset.exists_common {U S T F : Finset α} (hS : S ⊆ U) (hT : T ⊆ U)
    (h : U.card + (U ∩ F).card < S.card + T.card) : ∃ x, x ∈ S ∧ x ∈ T ∧ x ∉ F := by
  have hcard := Finset.card_add_card_le hS hT
  have hlt : (U ∩ F).card < (S ∩ T).card := by omega
  obtain ⟨x, hx, hxF⟩ := Finset.exists_mem_notMem_of_card_lt_card hlt
  obtain ⟨hxS, hxT⟩ := Finset.mem_inter.1 hx
  exact ⟨x, hxS, hxT, fun hF => hxF (Finset.mem_inter.2 ⟨hS hxS, hF⟩)⟩

/-- The same for lists without duplicates, with the faulty members given by a predicate. -/
theorem List.exists_common {U S T : List α} (faulty : α → Prop) [DecidablePred faulty]
    (hU : U.Nodup) (hS : S.Nodup) (hT : T.Nodup) (hSU : S ⊆ U) (hTU : T ⊆ U)
    (h : U.length + (U.filter (faulty ·)).length < S.length + T.length) :
    ∃ x, x ∈ S ∧ x ∈ T ∧ ¬faulty x := by
  have hfilter : U.toFinset ∩ (U.filter (faulty ·)).toFinset = (U.filter (faulty ·)).toFinset :=
    Finset.inter_eq_right.2 fun x hx =>
      List.mem_toFinset.2 (List.mem_of_mem_filter (List.mem_toFinset.1 hx))
  obtain ⟨x, hxS, hxT, hxF⟩ := @Finset.exists_common α _ U.toFinset S.toFinset T.toFinset
    (U.filter (faulty ·)).toFinset
    (fun x hx => List.mem_toFinset.2 (hSU (List.mem_toFinset.1 hx)))
    (fun x hx => List.mem_toFinset.2 (hTU (List.mem_toFinset.1 hx)))
    (by
      rw [hfilter, List.toFinset_card_of_nodup hU, List.toFinset_card_of_nodup hS,
        List.toFinset_card_of_nodup hT, List.toFinset_card_of_nodup (hU.filter _)]
      exact h)
  refine ⟨x, List.mem_toFinset.1 hxS, List.mem_toFinset.1 hxT, fun hf => hxF ?_⟩
  exact List.mem_toFinset.2 (List.mem_filter.2 ⟨hSU (List.mem_toFinset.1 hxS), by simpa using hf⟩)

end

/-- The votes of a protocol with two kinds of votes in each round, and who keeps to it. -/
structure Votes (α β : Type) where
  honest : α → Prop
  quorum : Set α → Prop
  prevote : α → Nat → β → Prop
  precommit : α → Nat → β → Prop

namespace Votes

variable {α β : Type} (P : Votes α β)

/-- A quorum whose honest members prevoted `b` in round `r`. -/
def Polka (r : Nat) (b : β) : Prop := ∃ S, P.quorum S ∧ ∀ v ∈ S, P.honest v → P.prevote v r b

/-- A quorum whose honest members precommitted `b` in round `r`. -/
def Committed (r : Nat) (b : β) : Prop :=
  ∃ S, P.quorum S ∧ ∀ v ∈ S, P.honest v → P.precommit v r b

/-- The rules that honest members keep to. -/
structure Locking : Prop where
  intersect : ∀ S T, P.quorum S → P.quorum T → ∃ v, v ∈ S ∧ v ∈ T ∧ P.honest v
  prevoteOnce : ∀ v r b b', P.honest v → P.prevote v r b → P.prevote v r b' → b = b'
  precommitPolka : ∀ v r b, P.honest v → P.precommit v r b → P.Polka r b
  /-- A member that precommitted changes its mind only on a polka from a round in between. -/
  locked : ∀ v r b r' b', P.honest v → P.precommit v r b → P.prevote v r' b' → r < r' →
    b' = b ∨ ∃ vr, r < vr ∧ vr < r' ∧ P.Polka vr b'

variable {P} {r r' : Nat} {b b' : β}

namespace Locking

/-- Two polkas of one round are for the same value. -/
theorem polka_unique (h : P.Locking) (hb : P.Polka r b) (hb' : P.Polka r b') : b' = b := by
  obtain ⟨S, hS, hvS⟩ := hb
  obtain ⟨T, hT, hvT⟩ := hb'
  obtain ⟨v, hv, hv', hh⟩ := h.intersect S T hS hT
  exact h.prevoteOnce v r b' b hh (hvT v hv' hh) (hvS v hv hh)

/-- A committed value has a polka in its round. -/
theorem polka_of_committed (h : P.Locking) (hb : P.Committed r b) : P.Polka r b := by
  obtain ⟨S, hS, hvS⟩ := hb
  obtain ⟨v, hv, -, hh⟩ := h.intersect S S hS hS
  exact h.precommitPolka v r b hh (hvS v hv hh)

/-- After a value is committed, every later polka is for it. The induction is on the round of the
polka: the member common to both quorums prevoted the committed value, or had seen a polka from a
round in between, which was for it already. -/
theorem polka_eq_of_committed (h : P.Locking) (hb : P.Committed r b) :
    ∀ r', r ≤ r' → ∀ b', P.Polka r' b' → b' = b := by
  intro r'
  induction r' using Nat.strongRecOn with
  | ind r' ih =>
      intro hle b' hb'
      rcases Nat.eq_or_lt_of_le hle with heq | hlt
      · exact h.polka_unique (h.polka_of_committed hb) (heq ▸ hb')
      · obtain ⟨S, hS, hvS⟩ := hb
        obtain ⟨T, hT, hvT⟩ := hb'
        obtain ⟨v, hv, hv', hh⟩ := h.intersect S T hS hT
        rcases h.locked v r b r' b' hh (hvS v hv hh) (hvT v hv' hh) hlt with heq | ⟨vr, h1, h2, hp⟩
        · exact heq
        · exact ih vr h2 (Nat.le_of_lt h1) b' hp

/-- Committed values agree. -/
theorem agreement (h : P.Locking) (hb : P.Committed r b) (hb' : P.Committed r' b') : b = b' := by
  rcases Nat.le_total r r' with hle | hle
  · exact (h.polka_eq_of_committed hb r' hle b' (h.polka_of_committed hb')).symm
  · exact h.polka_eq_of_committed hb' r hle b (h.polka_of_committed hb)

end Locking

end Votes
