import Mathlib.Data.List.Basic
import Mathlib.Tactic.Common

/-!
# Binary Merkle trees that duplicate the last node of an odd level

A level is hashed pair by pair into the next one until one node is left. Because the last node
of an odd level is paired with itself, the root alone does not determine the leaves: a level of
odd length and the same level with its last node repeated have one root. It does determine them
among the lists of one length, when the node hash has no collision among the pairs that the two
trees hash (`Merkle.root_inj`).
-/

namespace Merkle

variable {α : Type}

/-- The pairs of a level, the last one doubled when the level is odd. -/
def pairs : List α → List (α × α)
  | [] => []
  | [a] => [(a, a)]
  | a :: b :: l => (a, b) :: pairs l

/-- The next level. -/
def next (node : α → α → α) (l : List α) : List α := (pairs l).map fun p => node p.1 p.2

/-- Hash level after level while there is more than one node, at most `fuel` times. -/
def reduce (node : α → α → α) : Nat → List α → List α
  | 0, l => l
  | fuel + 1, l => if l.length ≤ 1 then l else reduce node fuel (next node l)

/-- The node that is left of a nonempty level. -/
def root (node : α → α → α) (l : List α) : Option α := (reduce node l.length l).head?

/-- The pairs hashed on the way to the root. -/
def hashed (node : α → α → α) : Nat → List α → List (α × α)
  | 0, _ => []
  | fuel + 1, l => if l.length ≤ 1 then [] else pairs l ++ hashed node fuel (next node l)

theorem length_pairs (l : List α) : (pairs l).length = (l.length + 1) / 2 := by
  fun_induction pairs l with
  | case1 => simp
  | case2 => simp
  | case3 a b l ih =>
      simp only [List.length_cons, ih]
      omega

/-- The nodes of a pair are of the level. -/
theorem mem_of_mem_pairs {l : List α} {p : α × α} (h : p ∈ pairs l) : p.1 ∈ l ∧ p.2 ∈ l := by
  fun_induction pairs l with
  | case1 => cases h
  | case2 a =>
      rw [List.mem_singleton.1 h]
      exact ⟨List.mem_singleton_self a, List.mem_singleton_self a⟩
  | case3 a b l ih =>
      rcases List.mem_cons.1 h with rfl | h
      · exact ⟨List.mem_cons_self, List.mem_cons_of_mem _ List.mem_cons_self⟩
      · obtain ⟨h1, h2⟩ := ih h
        exact ⟨List.mem_cons_of_mem _ (List.mem_cons_of_mem _ h1),
          List.mem_cons_of_mem _ (List.mem_cons_of_mem _ h2)⟩

@[simp] theorem length_next (node : α → α → α) (l : List α) :
    (next node l).length = (l.length + 1) / 2 := by
  rw [next, List.length_map, length_pairs]

/-- Lists of one length with the same pairs are equal. -/
theorem pairs_inj {l m : List α} (hlen : l.length = m.length) (h : pairs l = pairs m) : l = m := by
  induction l using pairs.induct generalizing m with
  | case1 => exact (List.length_eq_zero_iff.1 hlen.symm).symm
  | case2 a =>
      obtain ⟨b, rfl⟩ := List.length_eq_one_iff.1 hlen.symm
      simp only [pairs, List.cons.injEq, Prod.mk.injEq] at h
      rw [h.1.1]
  | case3 a b l ih =>
      match m, hlen with
      | c :: d :: m, hlen =>
          simp only [pairs, List.cons.injEq, Prod.mk.injEq] at h
          obtain ⟨⟨rfl, rfl⟩, h⟩ := h
          rw [ih (by simpa using hlen) h]

/-- A map that is injective on the elements of two lists is injective on the lists. -/
theorem map_inj_on {β : Type} {f : α → β} {l m : List α}
    (hinj : ∀ a ∈ l, ∀ b ∈ m, f a = f b → a = b) (h : l.map f = m.map f) : l = m := by
  induction l generalizing m with
  | nil => exact (List.map_eq_nil_iff.1 h.symm).symm
  | cons a l ih =>
      cases m with
      | nil => cases h
      | cons b m =>
          rw [List.map_cons, List.map_cons, List.cons.injEq] at h
          have hab := hinj a List.mem_cons_self b List.mem_cons_self h.1
          have hlm := ih (fun a ha b hb =>
            hinj a (List.mem_cons_of_mem _ ha) b (List.mem_cons_of_mem _ hb)) h.2
          rw [hab, hlm]

/-- One node is left of a nonempty level when the fuel covers its length. -/
theorem length_reduce (node : α → α → α) {fuel : Nat} {l : List α} (hne : l ≠ [])
    (h : l.length ≤ fuel) : (reduce node fuel l).length = 1 := by
  induction fuel generalizing l with
  | zero => exact absurd (List.length_eq_zero_iff.1 (Nat.le_zero.1 h)) hne
  | succ fuel ih =>
      have hpos := List.length_pos_of_ne_nil hne
      rw [reduce]
      split
      · omega
      · refine ih (List.ne_nil_of_length_pos ?_) ?_ <;> rw [length_next] <;> omega

/-- A nonempty level has a root. -/
theorem root_isSome (node : α → α → α) {l : List α} (hne : l ≠ []) : (root node l).isSome := by
  obtain ⟨a, ha⟩ := List.length_eq_one_iff.1 (length_reduce node hne (Nat.le_refl _))
  simp [root, ha]

/-- Two levels of one length that reduce to one level are equal, when the node hash tells the
pairs hashed on the way apart. -/
theorem reduce_inj {node : α → α → α} {fuel : Nat} {l m : List α} (hlen : l.length = m.length)
    (hinj : ∀ p ∈ hashed node fuel l, ∀ q ∈ hashed node fuel m,
      node p.1 p.2 = node q.1 q.2 → p = q)
    (h : reduce node fuel l = reduce node fuel m) : l = m := by
  induction fuel generalizing l m with
  | zero => exact h
  | succ fuel ih =>
      rw [reduce, reduce, ← hlen] at h
      rw [hashed, hashed, ← hlen] at hinj
      split at h
      · exact h
      · next hlt =>
          simp only [if_neg hlt, List.mem_append] at hinj
          have hnext : next node l = next node m :=
            ih (by simp [hlen]) (fun p hp q hq => hinj p (.inr hp) q (.inr hq)) h
          exact pairs_inj hlen
            (map_inj_on (fun p hp q hq => hinj p (.inl hp) q (.inl hq)) hnext)

/-- The root determines the level among the levels of its length. -/
theorem root_inj {node : α → α → α} {l m : List α} (hlen : l.length = m.length)
    (hinj : ∀ p ∈ hashed node l.length l, ∀ q ∈ hashed node m.length m,
      node p.1 p.2 = node q.1 q.2 → p = q)
    (h : root node l = root node m) : l = m := by
  by_cases hne : l = []
  · subst hne
    exact (List.length_eq_zero_iff.1 hlen.symm).symm
  · have hne' : m ≠ [] := List.ne_nil_of_length_pos (hlen ▸ List.length_pos_of_ne_nil hne)
    obtain ⟨a, ha⟩ := List.length_eq_one_iff.1 (length_reduce node hne (Nat.le_refl _))
    obtain ⟨b, hb⟩ := List.length_eq_one_iff.1 (length_reduce node hne' (Nat.le_refl _))
    rw [root, root, ha, hb, List.head?_cons, List.head?_cons, Option.some.injEq] at h
    rw [← hlen] at hinj
    refine reduce_inj hlen hinj ?_
    rw [ha, h, hlen, hb]

end Merkle
