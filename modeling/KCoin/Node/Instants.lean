import KCoin.Node.Chain

/-!
# The points of a node's life

Whoever reads the database of a node while it runs sees the store between two commits, in the middle
of a turn as well as between turns. Every such point is a `Moment`, and the moments of a node follow
each other as its turns begin, let something out, finish and crash. What a moment has in its store is
what a crash would leave there (`Moment.Sound.crash`), and the history only grows from moment to
moment (`Moment.Sound.rows_of_steps`).
-/

open Relation EStateM

namespace KCoin

/-- A point between two turns of a node, or in a turn, of which a part has left the node. -/
inductive Moment
  | between (m : Machine)
  | within (m : Machine) (t : Turn) (trace : List Occurrence)

namespace Moment

/-- The store that is committed at a moment. -/
def store : Moment → Store
  | between m => m.store
  | within m _ trace => m.store.after trace

/-- Before a node is ever started. -/
def created : Moment := between .created

section
variable [Primitives] [Formats]

/-- A turn begins, lets one more thing out, finishes or crashes. -/
inductive Step (config : NodeConfig) : Moment → Moment → Prop
  | start (m : Machine) (t : Turn) (h : m.Turns config t) : Step config (between m) (within m t [])
  | occur (m : Machine) (t : Turn) (trace : List Occurrence) (o : Occurrence)
      (h : trace ++ [o] <+: t.trace) :
      Step config (within m t trace) (within m t (trace ++ [o]))
  | finish (m : Machine) (t : Turn) : Step config (within m t t.trace) (between (m.finished t))
  | crash (m : Machine) (t : Turn) (trace : List Occurrence) :
      Step config (within m t trace) (between (m.crashed trace))

/-- The moments of the lives of a node. -/
def Reachable (config : NodeConfig) (i : Moment) : Prop := ReflTransGen (Step config) created i

/-- The node is one that can come to be, and what it does is a part of one of its turns. -/
def Sound (config : NodeConfig) : Moment → Prop
  | between m => Machine.Reachable config m
  | within m t trace => Machine.Reachable config m ∧ m.Turns config t ∧ trace <+: t.trace

variable {config : NodeConfig} {i j : Moment}

theorem Sound.step (h : Sound config i) (hstep : Step config i j) : Sound config j := by
  cases hstep with
  | start m t ht => exact ⟨h, ht, List.nil_prefix⟩
  | occur m t trace o hto =>
      obtain ⟨hm, ht, -⟩ := h
      exact ⟨hm, ht, hto⟩
  | finish m t =>
      obtain ⟨hm, ht, -⟩ := h
      exact hm.tail (.finish t ht)
  | crash m t trace =>
      obtain ⟨hm, ht, hto⟩ := h
      exact hm.tail (.crash t trace ht hto)

theorem Sound.steps (h : Sound config i) (hsteps : ReflTransGen (Step config) i j) :
    Sound config j := by
  induction hsteps with
  | refl => exact h
  | tail _ hstep ih => exact ih.step hstep

theorem Reachable.sound (h : Reachable config i) : Sound config i :=
  Sound.steps (i := created) Relation.ReflTransGen.refl h

/-- A turn lets out its things one after the other. -/
theorem steps_within {m : Machine} {t : Turn} {trace : List Occurrence} (hto : trace <+: t.trace) :
    ReflTransGen (Step config) (within m t []) (within m t trace) := by
  induction trace using List.reverseRecOn with
  | nil => exact .refl
  | append_singleton trace o ih =>
      exact (ih ((List.prefix_append _ _).trans hto)).tail (.occur m t trace o hto)

/-- The moments between the turns of a run are moments of the node's life. -/
theorem steps_of_machine {m m' : Machine} (h : ReflTransGen (Machine.Step config) m m') :
    ReflTransGen (Step config) (between m) (between m') := by
  induction h with
  | refl => exact .refl
  | tail _ hstep ih =>
      cases hstep with
      | finish t ht =>
          exact ((ih.tail (.start _ t ht)).trans (steps_within (List.prefix_refl _))).tail
            (.finish _ t)
      | crash t trace ht hto =>
          exact ((ih.tail (.start _ t ht)).trans (steps_within hto)).tail (.crash _ t trace)

/-- A node that crashes at the moment is left with the store of the moment. -/
theorem Sound.crash (h : Sound config i) :
    ∃ m, Machine.Reachable config m ∧ m.store = i.store := by
  cases i with
  | between m => exact ⟨m, h, rfl⟩
  | within m t trace =>
      obtain ⟨hm, ht, hto⟩ := h
      exact ⟨m.crashed trace, hm.tail (.crash t trace ht hto), rfl⟩

/-- From one moment to the next the store is the same, or changes as in a step of a turn. -/
theorem Sound.store_step (h : Sound config i) (hstep : Step config i j) :
    j.store = i.store ∨ ∃ u v, Machine.Recorded config u ∧ u.Move v ∧ u.actor.store = i.store ∧
      v.actor.store = j.store := by
  cases hstep with
  | start m t ht => exact .inl rfl
  | occur m t trace o hto =>
      obtain ⟨hm, ht, -⟩ := h
      obtain ⟨u, v, hu, hmove, htu, htv⟩ := hm.point_step ht hto
      rcases hmove with rfl | hmove
      · exact .inl (htv.symm.trans htu)
      · exact .inr ⟨u, v, hu, hmove, htu, htv⟩
  | finish m t =>
      obtain ⟨hm, ht, -⟩ := h
      obtain ⟨env, a, ha, hpath⟩ := ht.moves
      exact .inl (store_of_moves (hm.begins ha env).1 hpath)
  | crash m t trace => exact .inl rfl

/-- No row of a block is ever changed or removed. -/
theorem Sound.rows_of_steps (h : Sound config i) (hsteps : ReflTransGen (Step config) i j) :
    i.store.canonicalBlockRows <+: j.store.canonicalBlockRows := by
  induction hsteps with
  | refl => exact List.prefix_refl _
  | tail hsteps hstep ih =>
      refine ih.trans ?_
      rcases (h.steps hsteps).store_step hstep with hsame | ⟨u, v, hu, hmove, htu, htv⟩
      · rw [hsame]
      · rw [← htu, ← htv]
        exact Machine.rows_of_moves hu (.single hmove)

end

end Moment

end KCoin
