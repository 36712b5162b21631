import Mathlib.Algebra.Group.Nat.Defs
import Mathlib.Data.List.Nodup
import KCoin.Lib.Merkle

/-!
# What a Merkle root determines

The tree over a list is built by the same levels as the root, with `fork` in place of the node hash,
so a root is the value of a tree (`eval_tree`). When the node hash tells the pairs of two trees
apart and no leaf is a node, equal roots have equal trees (`Tree.eq_of_eval`). The trees are
perfect, so they are equal exactly when their leaves are: these are the list, followed by the copies
that odd levels add (`padded`). A list without repetitions is determined by its padded list.
-/

namespace Merkle

variable {α β : Type}

/-! ## Levels under maps -/

theorem pairs_map (φ : α → β) (l : List α) :
    pairs (l.map φ) = (pairs l).map fun p => (φ p.1, φ p.2) := by
  fun_induction pairs l with
  | case1 => rfl
  | case2 => rfl
  | case3 a b l ih => rw [List.map_cons, List.map_cons, pairs, ih, List.map_cons]

section
variable {node : α → α → α} {node' : β → β → β} {φ : α → β}

theorem next_map (hφ : ∀ a b, φ (node a b) = node' (φ a) (φ b)) (l : List α) :
    next node' (l.map φ) = (next node l).map φ := by
  rw [next, next, pairs_map, List.map_map, List.map_map]
  exact List.map_congr_left fun p _ => (hφ p.1 p.2).symm

theorem reduce_map (hφ : ∀ a b, φ (node a b) = node' (φ a) (φ b)) (fuel : Nat) (l : List α) :
    reduce node' fuel (l.map φ) = (reduce node fuel l).map φ := by
  induction fuel generalizing l with
  | zero => rfl
  | succ fuel ih =>
      rw [reduce, reduce, List.length_map]
      split
      · rfl
      · rw [next_map hφ, ih]

/-- A map that takes one node function to another takes roots to roots. -/
theorem root_map (hφ : ∀ a b, φ (node a b) = node' (φ a) (φ b)) (l : List α) :
    root node' (l.map φ) = (root node l).map φ := by
  rw [root, root, reduce_map hφ, List.length_map, List.head?_map]

end

/-- What holds of every node of a level holds of every node it is reduced to. -/
theorem reduce_forall {node : α → α → α} {P : Nat → α → Prop}
    (hnode : ∀ d a b, P d a → P d b → P (d + 1) (node a b)) {fuel d : Nat} {l : List α}
    (hl : ∀ a ∈ l, P d a) : ∃ d', ∀ a ∈ reduce node fuel l, P d' a := by
  induction fuel generalizing d l with
  | zero => exact ⟨d, hl⟩
  | succ fuel ih =>
      rw [reduce]
      split
      · exact ⟨d, hl⟩
      · refine ih (d := d + 1) fun a ha => ?_
        obtain ⟨⟨x, y⟩, hxy, rfl⟩ := List.mem_map.1 ha
        obtain ⟨hx, hy⟩ := mem_of_mem_pairs hxy
        exact hnode d x y (hl x hx) (hl y hy)

/-! ## Trees -/

/-- A tree with values at its leaves. -/
inductive Tree (α : Type)
  | leaf (a : α)
  | fork (left right : Tree α)

namespace Tree

/-- The value of a tree. -/
def eval (leaf : α → β) (node : β → β → β) : Tree α → β
  | .leaf a => leaf a
  | .fork l r => node (l.eval leaf node) (r.eval leaf node)

/-- The values at the leaves, from left to right. -/
def fringe : Tree α → List α := eval ([·]) (· ++ ·)

/-- The leaves are among some values, and the pairs of the inner nodes among some pairs. -/
def Over (leaf : α → β) (node : β → β → β) (A : List α) (I : List (β × β)) : Tree α → Prop
  | .leaf a => a ∈ A
  | .fork l r =>
      (l.eval leaf node, r.eval leaf node) ∈ I ∧ l.Over leaf node A I ∧ r.Over leaf node A I

theorem Over.mem_of_mem_fringe {leaf : α → β} {node : β → β → β} {A : List α} {I : List (β × β)}
    {t : Tree α} (h : t.Over leaf node A I) : ∀ a ∈ t.fringe, a ∈ A := by
  induction t with
  | leaf a =>
      intro b hb
      rw [List.mem_singleton.1 hb]
      exact h
  | fork l r ihl ihr =>
      intro b hb
      rcases List.mem_append.1 hb with hb | hb
      · exact ihl h.2.1 b hb
      · exact ihr h.2.2 b hb

/-- Every leaf is at one depth. -/
def Perfect : Nat → Tree α → Prop
  | 0, .leaf _ => True
  | d + 1, .fork l r => Perfect d l ∧ Perfect d r
  | _, _ => False

/-- A perfect tree has as many leaves as its depth allows. -/
theorem Perfect.length {d : Nat} {t : Tree α} (h : t.Perfect d) : t.fringe.length = 2 ^ d := by
  induction t generalizing d with
  | leaf a =>
      cases d with
      | zero => rfl
      | succ d => cases h
  | fork l r ihl ihr =>
      cases d with
      | zero => cases h
      | succ d =>
          change (l.fringe ++ r.fringe).length = _
          rw [List.length_append, ihl h.1, ihr h.2, Nat.pow_succ]
          omega

/-- Perfect trees with the same leaves are equal. -/
theorem Perfect.eq_of_fringe {d d' : Nat} {t u : Tree α} (ht : t.Perfect d) (hu : u.Perfect d')
    (h : t.fringe = u.fringe) : t = u := by
  have hd : d = d' := by
    refine Nat.pow_right_inj (Nat.le_refl 2) |>.1 ?_
    rw [← ht.length, ← hu.length, h]
  subst hd
  induction t generalizing d u with
  | leaf a =>
      cases d with
      | zero =>
          cases u with
          | leaf b =>
              obtain ⟨rfl⟩ : a = b := List.singleton_inj.1 h
              rfl
          | fork l r => cases hu
      | succ d => cases ht
  | fork l r ihl ihr =>
      cases d with
      | zero => cases ht
      | succ d =>
          cases u with
          | leaf b => cases hu
          | fork l' r' =>
              have happ : l.fringe ++ r.fringe = l'.fringe ++ r'.fringe := h
              obtain ⟨hl, hr⟩ := List.append_inj happ (by rw [ht.1.length, hu.1.length])
              rw [ihl ht.1 hl hu.1, ihr ht.2 hr hu.2]

/-- Trees of one value are equal when the values tell the pairs of the inner nodes apart, the leaves
apart, and the leaves from the inner nodes. -/
theorem eq_of_eval {leaf : α → β} {node : β → β → β} {A B : List α} {I J : List (β × β)}
    (hleaf : ∀ a ∈ A, ∀ b ∈ B, leaf a = leaf b → a = b)
    (hnode : ∀ p ∈ I, ∀ q ∈ J, node p.1 p.2 = node q.1 q.2 → p = q)
    (hleft : ∀ a ∈ A, ∀ q ∈ J, leaf a ≠ node q.1 q.2)
    (hright : ∀ p ∈ I, ∀ b ∈ B, node p.1 p.2 ≠ leaf b) {t u : Tree α}
    (ht : t.Over leaf node A I) (hu : u.Over leaf node B J)
    (h : t.eval leaf node = u.eval leaf node) : t = u := by
  induction t generalizing u with
  | leaf a =>
      cases u with
      | leaf b => rw [hleaf a ht b hu h]
      | fork l' r' => exact absurd h (hleft a ht _ hu.1)
  | fork l r ihl ihr =>
      cases u with
      | leaf b => exact absurd h (hright _ ht.1 b hu)
      | fork l' r' =>
          obtain ⟨hl, hr⟩ := Prod.ext_iff.1 (hnode _ ht.1 _ hu.1 h)
          rw [ihl ht.2.1 hu.2.1 hl, ihr ht.2.2 hu.2.2 hr]

end Tree

/-! ## The tree over a list -/

/-- The tree over a nonempty list. -/
def tree (l : List α) : Option (Tree α) := root .fork (l.map .leaf)

/-- A list with the copies that its odd levels add. -/
def padded (l : List α) : List α := (root (· ++ ·) (l.map ([·]))).getD []

theorem eval_tree (leaf : α → β) (node : β → β → β) (l : List α) :
    root node (l.map leaf) = (tree l).map (Tree.eval leaf node) := by
  have hmap : l.map leaf = (l.map Tree.leaf).map (Tree.eval leaf node) := by
    rw [List.map_map]
    rfl
  rw [hmap, tree]
  exact root_map (fun _ _ => rfl) _

theorem padded_eq (l : List α) : padded l = ((tree l).map Tree.fringe).getD [] :=
  congrArg (Option.getD · []) (eval_tree ([·]) (· ++ ·) l)

theorem exists_tree {l : List α} (hne : l ≠ []) : ∃ t, tree l = some t :=
  Option.isSome_iff_exists.1 (root_isSome _ (by simpa using hne))

theorem reduce_over {leaf : α → β} {node : β → β → β} {A : List α} {I : List (β × β)}
    {fuel : Nat} {ts : List (Tree α)} (hts : ∀ t ∈ ts, t.Over leaf node A I)
    (hI : hashed node fuel (ts.map (Tree.eval leaf node)) ⊆ I) :
    ∀ t ∈ reduce .fork fuel ts, t.Over leaf node A I := by
  induction fuel generalizing ts with
  | zero => exact hts
  | succ fuel ih =>
      rw [hashed, List.length_map] at hI
      rw [reduce]
      split
      · exact hts
      · next hlt =>
          have heval : ∀ t u : Tree α, (Tree.fork t u).eval leaf node =
              node (t.eval leaf node) (u.eval leaf node) := fun _ _ => rfl
          rw [if_neg hlt, next_map heval] at hI
          obtain ⟨hpairs, hnext⟩ := List.append_subset.1 hI
          refine ih (fun t ht => ?_) hnext
          obtain ⟨⟨x, y⟩, hxy, rfl⟩ := List.mem_map.1 ht
          obtain ⟨hx, hy⟩ := mem_of_mem_pairs hxy
          refine ⟨hpairs ?_, hts x hx, hts y hy⟩
          rw [pairs_map]
          exact List.mem_map_of_mem hxy

/-- The tree over a list has its values at the leaves, and its inner nodes are the pairs that are
hashed on the way to the root. -/
theorem over_of_tree (leaf : α → β) (node : β → β → β) {l : List α} {t : Tree α}
    (h : tree l = some t) : t.Over leaf node l (hashed node l.length (l.map leaf)) := by
  have hleaves : ∀ u ∈ l.map Tree.leaf, u.Over leaf node l
      (hashed node l.length (l.map leaf)) := by
    intro u hu
    obtain ⟨a, ha, rfl⟩ := List.mem_map.1 hu
    exact ha
  have hhashed : hashed node (l.map Tree.leaf).length ((l.map Tree.leaf).map (Tree.eval leaf node)) ⊆
      hashed node l.length (l.map leaf) := by
    rw [List.length_map, List.map_map]
    exact List.Subset.refl _
  exact reduce_over hleaves hhashed t (List.mem_of_head? h)

theorem perfect_of_tree {l : List α} {t : Tree α} (h : tree l = some t) : ∃ d, t.Perfect d := by
  have hfork : ∀ d (a b : Tree α), a.Perfect d → b.Perfect d → (Tree.fork a b).Perfect (d + 1) :=
    fun _ _ _ ha hb => ⟨ha, hb⟩
  have hleaves : ∀ t ∈ l.map Tree.leaf, t.Perfect 0 := by
    intro t ht
    obtain ⟨a, -, rfl⟩ := List.mem_map.1 ht
    trivial
  obtain ⟨d, hd⟩ := reduce_forall hfork hleaves
  exact ⟨d, hd t (List.mem_of_head? h)⟩

theorem flatten_prefix_next (ls : List (List α)) :
    ls.flatten <+: (next (· ++ ·) ls).flatten := by
  rw [next]
  fun_induction pairs ls with
  | case1 => exact List.prefix_refl _
  | case2 a =>
      rw [List.map_singleton, List.flatten_singleton, List.flatten_singleton]
      exact List.prefix_append a a
  | case3 a b l ih =>
      rw [List.map_cons, List.flatten_cons, List.flatten_cons, List.flatten_cons,
        List.append_assoc]
      exact (List.prefix_append_right_inj _).2 ((List.prefix_append_right_inj _).2 ih)

/-- A padded list starts with the list. -/
theorem prefix_padded (l : List α) : l <+: padded l := by
  have hreduce : ∀ fuel (ls : List (List α)), ls.flatten <+:
      (reduce (· ++ ·) fuel ls).flatten := by
    intro fuel
    induction fuel with
    | zero => exact fun ls => List.prefix_refl _
    | succ fuel ih =>
        intro ls
        rw [reduce]
        split
        · exact List.prefix_refl _
        · exact (flatten_prefix_next ls).trans (ih _)
  rcases eq_or_ne l [] with rfl | hne
  · exact List.nil_prefix
  · have hone := length_reduce (· ++ ·) (l := l.map ([·])) (by simpa using hne) (Nat.le_refl _)
    obtain ⟨p, hp⟩ := List.length_eq_one_iff.1 hone
    have hflat := hreduce (l.map ([·])).length (l.map ([·]))
    rw [hp, List.flatten_singleton] at hflat
    rw [padded, root, hp, List.head?_cons, Option.getD_some]
    have hl : (l.map ([·])).flatten = l := by
      rw [← List.flatMap_def, List.flatMap_singleton']
    rwa [hl] at hflat

/-- The copies in a padded list are of its elements. -/
theorem mem_of_mem_padded {l : List α} {a : α} (h : a ∈ padded l) : a ∈ l := by
  rw [padded_eq] at h
  cases ht : tree l with
  | none =>
      rw [ht] at h
      cases h
  | some t =>
      rw [ht] at h
      exact (over_of_tree ([·]) (· ++ ·) ht).mem_of_mem_fringe a h

/-! ## The root and the list -/

/-- Two nonempty lists have one root exactly when they have one padded list. -/
theorem root_eq_iff (leaf : α → β) (node : β → β → β) {l m : List α} (hl : l ≠ []) (hm : m ≠ [])
    (hleaf : ∀ a ∈ l, ∀ b ∈ m, leaf a = leaf b → a = b)
    (hnode : ∀ p ∈ hashed node l.length (l.map leaf), ∀ q ∈ hashed node m.length (m.map leaf),
      node p.1 p.2 = node q.1 q.2 → p = q)
    (hleft : ∀ a ∈ l, ∀ q ∈ hashed node m.length (m.map leaf), leaf a ≠ node q.1 q.2)
    (hright : ∀ p ∈ hashed node l.length (l.map leaf), ∀ b ∈ m, node p.1 p.2 ≠ leaf b) :
    root node (l.map leaf) = root node (m.map leaf) ↔ padded l = padded m := by
  obtain ⟨t, ht⟩ := exists_tree hl
  obtain ⟨u, hu⟩ := exists_tree hm
  rw [eval_tree, eval_tree, padded_eq, padded_eq, ht, hu]
  simp only [Option.map_some, Option.some.injEq, Option.getD_some]
  constructor
  · intro h
    rw [Tree.eq_of_eval hleaf hnode hleft hright (over_of_tree leaf node ht)
      (over_of_tree leaf node hu) h]
  · intro h
    obtain ⟨d, hd⟩ := perfect_of_tree ht
    obtain ⟨e, he⟩ := perfect_of_tree hu
    rw [hd.eq_of_fringe he h]

/-- A list without repetitions that is no longer than another with its padded list is equal to it,
and so are lists of one length. -/
theorem eq_of_padded {l m : List α} (h : padded l = padded m)
    (hlm : l.length = m.length ∨ l.Nodup ∧ m.Nodup) : l = m := by
  have hpre : ∀ {l m : List α}, padded l = padded m → l.length ≤ m.length → l <+: m :=
    fun {l m} h hle => List.prefix_of_prefix_length_le (h ▸ prefix_padded l) (prefix_padded m) hle
  have hnodup : ∀ {l m : List α}, padded l = padded m → l.length ≤ m.length → m.Nodup →
      l = m := by
    intro l m h hle hm
    obtain ⟨k, rfl⟩ := hpre h hle
    cases k with
    | nil => exact (List.append_nil l).symm
    | cons a k =>
        have ha : a ∈ padded l :=
          h ▸ (prefix_padded _).subset (List.mem_append_right l List.mem_cons_self)
        exact absurd rfl ((List.nodup_append.1 hm).2.2 a (mem_of_mem_padded ha) a
          List.mem_cons_self)
  rcases hlm with heq | ⟨hl, hm⟩
  · exact (hpre h (Nat.le_of_eq heq)).eq_of_length heq
  · rcases Nat.le_total l.length m.length with hle | hle
    · exact hnodup h hle hm
    · exact (hnodup h.symm hle hl).symm

end Merkle
