import Mathlib.Data.List.Infix
import Mathlib.Tactic.Common

/-!
# Lists with a common beginning

Two lists are read under a map of their elements. Either one continues the other, or there is a first
place where both have an element and the images differ (`List.prefix_or_parts`).
-/

namespace List

variable {α β : Type} {l l' : List α} {k : Nat} {a b : α}

/-- The lists part at an index: they have the same images before it, and different ones there. -/
structure PartsAt (f : α → β) (l l' : List α) (k : Nat) (a b : α) : Prop where
  left : l[k]? = some a
  right : l'[k]? = some b
  before : (l.take k).map f = (l'.take k).map f
  differ : f a ≠ f b

theorem PartsAt.cons {f : α → β} {x y : α} (hxy : f x = f y) (h : PartsAt f l l' k a b) :
    PartsAt f (x :: l) (y :: l') (k + 1) a b where
  left := h.left
  right := h.right
  before := by rw [take_succ_cons, take_succ_cons, map_cons, map_cons, hxy, h.before]
  differ := h.differ

/-- One of two lists continues the other, or they part. -/
theorem prefix_or_parts (f : α → β) (l l' : List α) :
    l.map f <+: l'.map f ∨ l'.map f <+: l.map f ∨ ∃ k a b, PartsAt f l l' k a b := by
  induction l generalizing l' with
  | nil => exact .inl nil_prefix
  | cons x l ih =>
      cases l' with
      | nil => exact .inr (.inl nil_prefix)
      | cons y l' =>
          by_cases hxy : f x = f y
          · rw [map_cons, map_cons, hxy]
            rcases ih l' with h | h | ⟨k, a, b, h⟩
            · exact .inl ((prefix_cons_inj _).2 h)
            · exact .inr (.inl ((prefix_cons_inj _).2 h))
            · exact .inr (.inr ⟨k + 1, a, b, h.cons hxy⟩)
          · exact .inr (.inr ⟨0, x, y, rfl, rfl, rfl, hxy⟩)

/-- The last image before the place where two lists part is the same in both. -/
theorem PartsAt.getLast? {f : α → β} (h : PartsAt f l l' k a b) :
    (l.take k).getLast?.map f = (l'.take k).getLast?.map f := by
  rw [← List.getLast?_map, ← List.getLast?_map, h.before]

end List
