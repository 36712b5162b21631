import Mathlib.Logic.Relation
import Mathlib.Tactic.Common

/-!
# Fallible computations

A function that may fail is an `Except`; one that also writes to a state it was given by
reference is an `EStateM`, whose failures keep the state they were thrown in. This file has
the two idioms of checking a condition (`ensure`) and of unwrapping an option (`okOr`), and
the inversion rules that take a computation apart into the ones it is made of: a result of a
sequence is a result of the first followed by a result of the second.
-/

variable {ε σ α β : Type}

/-! ## Failing with an error -/

section
variable {m : Type → Type} [Monad m] [MonadExcept ε m]

/-- Fail with `e` unless the condition holds. -/
def ensure (c : Prop) [Decidable c] (e : ε) : m Unit := if c then pure () else throw e

/-- The value of an option, or the error `e`. -/
def okOr (e : ε) : Option α → m α
  | some a => pure a
  | none => throw e

end

namespace Except

/-- A sequence returns when its first part returns and then its second. -/
theorem bind_eq_ok {x : Except ε α} {f : α → Except ε β} {b : β} :
    (x >>= f) = .ok b ↔ ∃ a, x = .ok a ∧ f a = .ok b := by
  cases x with
  | ok a => exact ⟨fun h => ⟨a, rfl, h⟩, fun ⟨_, ha, h⟩ => by cases ha; exact h⟩
  | error e => exact ⟨nofun, fun ⟨_, ha, _⟩ => nomatch ha⟩

/-- A sequence fails when its first part fails, or when it returns and then the second fails. -/
theorem bind_eq_error {x : Except ε α} {f : α → Except ε β} {e : ε} :
    (x >>= f) = .error e ↔ x = .error e ∨ ∃ a, x = .ok a ∧ f a = .error e := by
  cases x with
  | ok a => exact ⟨fun h => .inr ⟨a, rfl, h⟩, fun h => by
      obtain h | ⟨_, ha, h⟩ := h
      · cases h
      · cases ha; exact h⟩
  | error e' => exact ⟨fun h => .inl (by cases h; rfl), fun h => by
      obtain h | ⟨_, ha, _⟩ := h
      · cases h; rfl
      · cases ha⟩

@[simp] theorem pure_eq_ok {a b : α} : (pure a : Except ε α) = .ok b ↔ a = b := by
  exact ⟨fun h => by cases h; rfl, fun h => h ▸ rfl⟩

@[simp] theorem throw_eq_ok {e : ε} {a : α} : (throw e : Except ε α) = .ok a ↔ False :=
  ⟨nofun, False.elim⟩

@[simp] theorem pure_eq_error {a : α} {e : ε} : (pure a : Except ε α) = .error e ↔ False :=
  ⟨nofun, False.elim⟩

@[simp] theorem throw_eq_error {e e' : ε} : (throw e : Except ε α) = .error e' ↔ e = e' := by
  exact ⟨fun h => by cases h; rfl, fun h => h ▸ rfl⟩

@[simp] theorem ensure_eq_ok {c : Prop} [Decidable c] {e : ε} {u : Unit} :
    (ensure c e : Except ε Unit) = .ok u ↔ c := by
  unfold ensure
  split <;> simp [*]

@[simp] theorem ensure_eq_error {c : Prop} [Decidable c] {e e' : ε} :
    (ensure c e : Except ε Unit) = .error e' ↔ ¬c ∧ e = e' := by
  unfold ensure
  split <;> simp [*]

@[simp] theorem mapError_eq_ok {ε' : Type*} {f : ε → ε'} {x : Except ε α} {a : α} :
    x.mapError f = .ok a ↔ x = .ok a := by
  cases x <;> simp [Except.mapError]

theorem bind_of_ok {x : Except ε α} {f : α → Except ε β} {a : α} (h : x = .ok a) :
    (x >>= f) = f a := by
  rw [h]
  rfl

/-- What every step of a fold requires holds of the whole list. -/
theorem foldlM_forall {γ : Type} {f : β → γ → Except ε β} {P : γ → Prop}
    (hf : ∀ b c b', f b c = .ok b' → P c) {l : List γ} {b b' : β} (h : l.foldlM f b = .ok b') :
    ∀ c ∈ l, P c := by
  induction l generalizing b with
  | nil => exact nofun
  | cons c l ih =>
      rw [List.foldlM_cons] at h
      obtain ⟨b₁, hc, hl⟩ := bind_eq_ok.1 h
      intro d hd
      rcases List.mem_cons.1 hd with rfl | hd
      · exact hf _ _ _ hc
      · exact ih hl d hd

section
variable {γ κ : Type} {f : β → γ → Except ε β} {key : γ → κ}
  (again : ∀ b c b', f b c = .ok b' → f b' c = .ok b')
  (keeps : ∀ b c d b', f b c = .ok b → f b d = .ok b' → key c ≠ key d → f b' c = .ok b')

include keeps in
/-- A step that changes nothing still changes nothing after steps with other keys. -/
theorem foldlM_keeps {l : List γ} {b b' : β} {c : γ} (hc : f b c = .ok b)
    (h : l.foldlM f b = .ok b') (hkey : key c ∉ l.map key) : f b' c = .ok b' := by
  induction l generalizing b with
  | nil =>
      cases h
      exact hc
  | cons d l ih =>
      rw [List.foldlM_cons] at h
      obtain ⟨b₁, hd, hl⟩ := bind_eq_ok.1 h
      rw [List.map_cons, List.mem_cons, not_or] at hkey
      exact ih (keeps b c d b₁ hc hd hkey.1) hl hkey.2

include again keeps in
/-- A fold of steps that can be repeated can be repeated, when its keys are distinct. -/
theorem foldlM_again {l : List γ} {b b' : β} (h : l.foldlM f b = .ok b')
    (hnodup : (l.map key).Nodup) : l.foldlM f b' = .ok b' := by
  have hfixed : ∀ c ∈ l, f b' c = .ok b' := by
    induction l generalizing b with
    | nil => exact nofun
    | cons d l ih =>
        rw [List.foldlM_cons] at h
        obtain ⟨b₁, hd, hl⟩ := bind_eq_ok.1 h
        obtain ⟨hnew, hnodup⟩ := List.nodup_cons.1 hnodup
        intro c hc
        rcases List.mem_cons.1 hc with rfl | hc
        · exact foldlM_keeps keeps (again _ _ _ hd) hl hnew
        · exact ih hl hnodup c hc
  clear h hnodup
  induction l with
  | nil => rfl
  | cons d l ih =>
      rw [List.foldlM_cons, bind_of_ok (hfixed d List.mem_cons_self)]
      exact ih fun c hc => hfixed c (List.mem_cons_of_mem _ hc)

end

theorem map_pair_eq_ok {x : Except ε α} {u : β} {p : β × α} :
    x.map (fun a => (u, a)) = .ok p ↔ x = .ok p.2 ∧ u = p.1 := by
  cases x with
  | ok a => simp [Except.map, Prod.ext_iff, and_comm]
  | error e => simp [Except.map]

@[simp] theorem okOr_eq_ok {o : Option α} {e : ε} {a : α} :
    (okOr e o : Except ε α) = .ok a ↔ o = some a := by
  cases o <;> simp [okOr]

@[simp] theorem okOr_eq_error {o : Option α} {e e' : ε} :
    (okOr e o : Except ε α) = .error e' ↔ o = none ∧ e = e' := by
  cases o <;> simp [okOr]

theorem toOption_eq_some {x : Except ε α} : x.toOption = some a ↔ x = .ok a := by
  cases x <;> simp [Except.toOption]

/-- A check of every element passes if it passes for each. -/
theorem forM_eq_ok {f : α → Except ε Unit} {l : List α} :
    l.forM f = .ok () ↔ ∀ a ∈ l, f a = .ok () := by
  induction l with
  | nil => exact ⟨fun _ _ h => absurd h List.not_mem_nil, fun _ => rfl⟩
  | cons a l ih =>
      change (f a >>= fun _ => l.forM f) = .ok () ↔ _
      rw [bind_eq_ok, List.forall_mem_cons, ← ih]
      exact ⟨fun ⟨_, ha, hl⟩ => ⟨ha, hl⟩, fun ⟨ha, hl⟩ => ⟨(), ha, hl⟩⟩

/-- Each value of a list of results is the result of an element. -/
theorem exists_of_mem_mapM {f : α → Except ε β} {l : List α} {l' : List β}
    (h : l.mapM f = .ok l') : ∀ b ∈ l', ∃ a ∈ l, f a = .ok b := by
  induction l generalizing l' with
  | nil =>
      obtain rfl := pure_eq_ok.1 (List.mapM_nil.symm.trans h)
      exact fun b hb => absurd hb List.not_mem_nil
  | cons a l ih =>
      rw [List.mapM_cons] at h
      obtain ⟨b, hb, h⟩ := bind_eq_ok.1 h
      obtain ⟨bs, hbs, h⟩ := bind_eq_ok.1 h
      obtain rfl := pure_eq_ok.1 h
      intro b' hb'
      rcases List.mem_cons.1 hb' with rfl | hb'
      · exact ⟨a, List.mem_cons_self, hb⟩
      · obtain ⟨a', ha', hfa⟩ := ih hbs b' hb'
        exact ⟨a', List.mem_cons_of_mem _ ha', hfa⟩

end Except

/-- Each value of a list of optional results is the result of an element. -/
theorem Option.exists_of_mem_mapM {f : α → Option β} {l : List α} {l' : List β}
    (h : l.mapM f = some l') : ∀ b ∈ l', ∃ a ∈ l, f a = some b := by
  induction l generalizing l' with
  | nil =>
      cases h
      exact fun b hb => absurd hb List.not_mem_nil
  | cons a l ih =>
      rw [List.mapM_cons] at h
      obtain ⟨b, hb, h⟩ := Option.bind_eq_some_iff.1 h
      obtain ⟨bs, hbs, h⟩ := Option.bind_eq_some_iff.1 h
      cases h
      intro b' hb'
      rcases List.mem_cons.1 hb' with rfl | hb'
      · exact ⟨a, List.mem_cons_self, hb⟩
      · obtain ⟨a', ha', hfa⟩ := ih hbs b' hb'
        exact ⟨a', List.mem_cons_of_mem _ ha', hfa⟩

/-- A list of results has one for every element. -/
theorem Option.length_of_mapM {f : α → Option β} {l : List α} {l' : List β}
    (h : l.mapM f = some l') : l'.length = l.length := by
  induction l generalizing l' with
  | nil =>
      cases h
      rfl
  | cons a l ih =>
      rw [List.mapM_cons] at h
      obtain ⟨b, -, h⟩ := Option.bind_eq_some_iff.1 h
      obtain ⟨rest, hrest, h⟩ := Option.bind_eq_some_iff.1 h
      cases h
      rw [List.length_cons, List.length_cons, ih hrest]

theorem Option.filter_eq_self_iff {o : Option α} {p : α → Bool} :
    o.filter p = o ↔ ∀ a ∈ o, p a = true := by
  cases o <;> simp

/-! ## Failing with the state kept -/

namespace EStateM

/-- A computation that only fails runs in any state and leaves it as it is. -/
instance liftExcept : MonadLift (Except ε) (EStateM ε σ) where
  monadLift
    | .ok a => pure a
    | .error e => throw e

/-- The state a result leaves, returned or thrown. -/
def Result.state : Result ε σ α → σ
  | .ok _ s => s
  | .error _ s => s

@[simp] theorem Result.state_ok {a : α} {s : σ} : (Result.ok a s : Result ε σ α).state = s := rfl

@[simp] theorem Result.state_error {e : ε} {s : σ} :
    (Result.error e s : Result ε σ α).state = s := rfl

/-- The computation returned. -/
def Result.isOk : Result ε σ α → Bool
  | .ok _ _ => true
  | .error _ _ => false

theorem Result.exists_of_isOk {r : Result ε σ α} (h : r.isOk) : ∃ a s, r = .ok a s := by
  cases r with
  | ok a s => exact ⟨a, s, rfl⟩
  | error e s => cases h

theorem Result.eq_of_isOk {r : Result ε σ Unit} (h : r.isOk) : r = .ok () r.state := by
  obtain ⟨a, s, rfl⟩ := Result.exists_of_isOk h
  rfl

/-- A sequence returns when its first part returns and then its second. -/
theorem bind_eq_ok {x : EStateM ε σ α} {f : α → EStateM ε σ β} {s s' : σ} {b : β} :
    (x >>= f) s = .ok b s' ↔ ∃ a t, x s = .ok a t ∧ f a t = .ok b s' := by
  change EStateM.bind x f s = _ ↔ _
  unfold EStateM.bind
  cases x s with
  | ok a t => exact ⟨fun h => ⟨a, t, rfl, h⟩, fun ⟨_, _, ha, h⟩ => by cases ha; exact h⟩
  | error e t => exact ⟨nofun, fun ⟨_, _, ha, _⟩ => nomatch ha⟩

/-- A sequence fails when its first part fails, or when it returns and then the second fails. -/
theorem bind_eq_error {x : EStateM ε σ α} {f : α → EStateM ε σ β} {s s' : σ} {e : ε} :
    (x >>= f) s = .error e s' ↔
      x s = .error e s' ∨ ∃ a t, x s = .ok a t ∧ f a t = .error e s' := by
  change EStateM.bind x f s = _ ↔ _
  unfold EStateM.bind
  cases x s with
  | ok a t => exact ⟨fun h => .inr ⟨a, t, rfl, h⟩, fun h => by
      obtain h | ⟨_, _, ha, h⟩ := h
      · cases h
      · cases ha; exact h⟩
  | error e' t => exact ⟨fun h => .inl (by cases h; rfl), fun h => by
      obtain h | ⟨_, _, ha, _⟩ := h
      · cases h; rfl
      · cases ha⟩

/-- A sequence goes on with what its first part returns. -/
theorem bind_of_ok {x : EStateM ε σ α} {f : α → EStateM ε σ β} {s t : σ} {a : α}
    (h : x s = .ok a t) : (x >>= f) s = f a t := by
  change EStateM.bind x f s = _
  rw [EStateM.bind, h]

section
variable {s s' : σ} {a b : α} {e e' : ε} {u : PUnit}

@[simp] theorem pure_eq_ok : (pure a : EStateM ε σ α) s = .ok b s' ↔ a = b ∧ s = s' := by
  change Result.ok a s = .ok b s' ↔ _
  simp

@[simp] theorem pure_eq_error : (pure a : EStateM ε σ α) s = .error e s' ↔ False :=
  ⟨nofun, False.elim⟩

@[simp] theorem throw_eq_ok : (throw e : EStateM ε σ α) s = .ok b s' ↔ False :=
  ⟨nofun, False.elim⟩

@[simp] theorem throw_eq_error :
    (throw e : EStateM ε σ α) s = .error e' s' ↔ e = e' ∧ s = s' := by
  change Result.error e s = .error e' s' ↔ _
  simp

@[simp] theorem get_eq_ok {t : σ} : (get : EStateM ε σ σ) s = .ok t s' ↔ s = t ∧ s = s' := by
  change Result.ok s s = .ok t s' ↔ _
  simp

@[simp] theorem get_eq_error : (get : EStateM ε σ σ) s = .error e s' ↔ False :=
  ⟨nofun, False.elim⟩

@[simp] theorem set_eq_ok {t : σ} : (set t : EStateM ε σ PUnit) s = .ok u s' ↔ t = s' := by
  change Result.ok _ t = .ok u s' ↔ _
  simp

@[simp] theorem set_eq_error {t : σ} : (set t : EStateM ε σ PUnit) s = .error e s' ↔ False :=
  ⟨nofun, False.elim⟩

@[simp] theorem modify_eq_ok {f : σ → σ} :
    (modify f : EStateM ε σ PUnit) s = .ok u s' ↔ f s = s' := by
  change Result.ok _ (f s) = .ok u s' ↔ _
  simp

@[simp] theorem modify_eq_error {f : σ → σ} :
    (modify f : EStateM ε σ PUnit) s = .error e s' ↔ False :=
  ⟨nofun, False.elim⟩

@[simp] theorem ensure_eq_ok {c : Prop} [Decidable c] {u : Unit} :
    (ensure c e : EStateM ε σ Unit) s = .ok u s' ↔ c ∧ s = s' := by
  unfold ensure
  split <;> simp [*]

@[simp] theorem ensure_eq_error {c : Prop} [Decidable c] :
    (ensure c e : EStateM ε σ Unit) s = .error e' s' ↔ ¬c ∧ e = e' ∧ s = s' := by
  unfold ensure
  split <;> simp [*]

@[simp] theorem okOr_eq_ok {o : Option α} :
    (okOr e o : EStateM ε σ α) s = .ok a s' ↔ o = some a ∧ s = s' := by
  cases o <;> simp [okOr]

@[simp] theorem okOr_eq_error {o : Option α} :
    (okOr e o : EStateM ε σ α) s = .error e' s' ↔ o = none ∧ e = e' ∧ s = s' := by
  cases o <;> simp [okOr]

@[simp] theorem lift_eq_ok {x : Except ε α} :
    (liftM x : EStateM ε σ α) s = .ok a s' ↔ x = .ok a ∧ s = s' := by
  cases x with
  | ok b =>
      change Result.ok b s = .ok a s' ↔ _
      simp
  | error e => exact ⟨nofun, fun h => nomatch h.1⟩

@[simp] theorem lift_eq_error {x : Except ε α} :
    (liftM x : EStateM ε σ α) s = .error e s' ↔ x = .error e ∧ s = s' := by
  cases x with
  | ok b => exact ⟨nofun, fun h => nomatch h.1⟩
  | error e' =>
      change Result.error e' s = .error e s' ↔ _
      simp

end

/-! ### Running a sequence whose first part is known to return -/

section
variable {f : α → EStateM ε σ β} {s : σ} {a : α} {e : ε}

theorem get_bind {f : σ → EStateM ε σ β} : (get >>= f) s = f s s := rfl

theorem modify_bind {g : σ → σ} {f : PUnit → EStateM ε σ β} :
    (modify g >>= f) s = f ⟨⟩ (g s) := rfl

theorem ensure_bind {c : Prop} [Decidable c] {f : Unit → EStateM ε σ β} (h : c) :
    (ensure c e >>= f) s = f () s :=
  bind_of_ok (ensure_eq_ok.2 ⟨h, rfl⟩)

theorem okOr_bind {o : Option α} (h : o = some a) : (okOr e o >>= f) s = f a s :=
  bind_of_ok (okOr_eq_ok.2 ⟨h, rfl⟩)

theorem lift_bind {y : Except ε α} (h : y = .ok a) : (liftM y >>= f) s = f a s :=
  bind_of_ok (lift_eq_ok.2 ⟨h, rfl⟩)

end

/-! ### Failing before the first write -/

/-- The computation never writes. -/
def ReadOnly (x : EStateM ε σ α) : Prop := ∀ s, (x s).state = s

/-- The computation never fails. -/
def Total (x : EStateM ε σ α) : Prop := ∀ s e s', x s ≠ .error e s'

/-- A failure of the computation leaves the state it was started in. -/
def Atomic (x : EStateM ε σ α) : Prop := ∀ s e s', x s = .error e s' → s' = s

section
variable {x : EStateM ε σ α} {f : α → EStateM ε σ β}

theorem readOnly_get : ReadOnly (get : EStateM ε σ σ) := fun _ => rfl

theorem readOnly_lift (x : Except ε α) : ReadOnly (liftM x : EStateM ε σ α) := fun _ => by
  cases x <;> rfl

theorem readOnly_ensure {c : Prop} [Decidable c] (e : ε) :
    ReadOnly (ensure c e : EStateM ε σ Unit) := fun _ => by
  unfold ensure
  split <;> rfl

theorem readOnly_throw (e : ε) : ReadOnly (throw e : EStateM ε σ α) := fun _ => rfl

theorem readOnly_okOr (e : ε) (o : Option α) : ReadOnly (okOr e o : EStateM ε σ α) := fun _ => by
  cases o <;> rfl

theorem ReadOnly.state_ok (hx : ReadOnly x) {s s' : σ} {a : α} (h : x s = .ok a s') : s' = s := by
  have := hx s
  rwa [h] at this

/-- What holds of a failure in the state of a part that never writes, and of what follows the part,
holds of both in a row. -/
theorem ReadOnly.bind_elim {P : Result ε σ β → Prop} {s : σ} (hx : ReadOnly x)
    (error : ∀ e, P (.error e s)) (h : ∀ a, x s = .ok a s → P (f a s)) : P ((x >>= f) s) := by
  have hs := hx s
  cases hr : x s with
  | ok a t =>
      rw [hr] at hs
      obtain rfl : t = s := hs
      rw [bind_of_ok hr]
      exact h a hr
  | error e t =>
      rw [hr] at hs
      obtain rfl : t = s := hs
      rw [bind_eq_error.2 (.inl hr)]
      exact error e

theorem Total.atomic (hx : Total x) : Atomic x := fun s e s' h => absurd h (hx s e s')

theorem Total.bind (hx : Total x) (hf : ∀ a, Total (f a)) : Total (x >>= f) := fun s e s' h => by
  obtain h | ⟨a, t, -, h⟩ := bind_eq_error.1 h
  · exact hx s e s' h
  · exact hf a t e s' h

theorem total_pure (a : α) : Total (pure a : EStateM ε σ α) := fun _ _ _ => nofun

theorem total_set (t : σ) : Total (set t : EStateM ε σ PUnit) := fun _ _ _ => nofun

theorem total_modify (g : σ → σ) : Total (modify g : EStateM ε σ PUnit) := fun _ _ _ => nofun

/-- Reading first keeps a computation atomic. -/
theorem ReadOnly.atomic_bind (hx : ReadOnly x) (hf : ∀ a, Atomic (f a)) : Atomic (x >>= f) :=
  fun s e s' h => by
    obtain h | ⟨a, t, hxt, h⟩ := bind_eq_error.1 h
    · have := hx s
      rwa [h] at this
    · exact (hf a t e s' h).trans (hx.state_ok hxt)

/-- What never fails can follow an atomic computation. -/
theorem Atomic.bind_total (hx : Atomic x) (hf : ∀ a, Total (f a)) : Atomic (x >>= f) :=
  fun s e s' h => by
    obtain h | ⟨a, t, -, h⟩ := bind_eq_error.1 h
    · exact hx s e s' h
    · exact absurd h (hf a t e s')

end

/-! ### Small steps -/

open Relation

section
variable {R : σ → σ → Prop} {x : EStateM ε σ α} {f : α → EStateM ε σ β} {s : σ}

/-- Started in `s`, the computation moves the state by steps of `R`, whether it returns or
fails. -/
def Reaches (R : σ → σ → Prop) (x : EStateM ε σ α) (s : σ) : Prop :=
  ReflTransGen R s (x s).state

theorem Reaches.of_readOnly (h : ReadOnly x) : Reaches R x s := by
  rw [Reaches, h s]

theorem Reaches.bind (hx : Reaches R x s) (hf : ∀ a t, x s = .ok a t → Reaches R (f a) t) :
    Reaches R (x >>= f) s := by
  unfold Reaches at hx ⊢
  change ReflTransGen R s (EStateM.bind x f s).state
  unfold EStateM.bind
  cases h : x s with
  | ok a t =>
      rw [h] at hx
      exact hx.trans (hf a t h)
  | error e t =>
      rw [h] at hx
      exact hx

theorem Reaches.pure (a : α) : Reaches R (pure a : EStateM ε σ α) s := ReflTransGen.refl

theorem Reaches.get_bind {f : σ → EStateM ε σ β} (h : Reaches R (f s) s) :
    Reaches R (get >>= f) s := h

theorem Reaches.modify {g : σ → σ} (h : ReflTransGen R s (g s)) :
    Reaches R (modify g : EStateM ε σ PUnit) s := h

theorem Reaches.modify_bind {g : σ → σ} {f : PUnit → EStateM ε σ β}
    (h : ReflTransGen R s (g s)) (hf : Reaches R (f ⟨⟩) (g s)) :
    Reaches R (EStateM.modifyGet (fun t => (⟨⟩, g t)) >>= f) s :=
  ReflTransGen.trans h hf

theorem Reaches.ensure_bind {c : Prop} [Decidable c] {e : ε} {f : Unit → EStateM ε σ β}
    (h : c → Reaches R (f ()) s) : Reaches R (ensure c e >>= f) s :=
  .bind (.of_readOnly (readOnly_ensure e)) fun u t ht => by
    obtain ⟨hc, rfl⟩ := ensure_eq_ok.1 ht
    exact h hc

/-- A check made some steps after `s`. -/
theorem Reaches.ensure_bind_after {t : σ} {c : Prop} [Decidable c] {e : ε}
    {f : Unit → EStateM ε σ β} (hneg : ¬c → ReflTransGen R s t)
    (hpos : c → ReflTransGen R s (f () t).state) :
    ReflTransGen R s ((ensure c e >>= f) t).state := by
  by_cases hc : c
  · rw [bind_of_ok (ensure_eq_ok.2 ⟨hc, rfl⟩)]
    exact hpos hc
  · rw [bind_eq_error.2 (.inl (ensure_eq_error.2 ⟨hc, rfl, rfl⟩))]
    exact hneg hc

theorem Reaches.lift_bind {y : Except ε α} (h : ∀ a, y = .ok a → Reaches R (f a) s) :
    Reaches R (liftM y >>= f) s :=
  .bind (.of_readOnly (readOnly_lift y)) fun a t ht => by
    obtain ⟨ha, rfl⟩ := lift_eq_ok.1 ht
    exact h a ha

end

/-! ### What is kept -/

section
variable {Q : σ → Prop} {x : EStateM ε σ α} {f : α → EStateM ε σ β} {s : σ}

/-- What every step keeps is kept by all of them. -/
theorem Reaches.kept (h : Reaches (fun s t => Q s → Q t) x s) (hs : Q s) : Q (x s).state := by
  rw [Reaches] at h
  generalize (x s).state = t at h
  induction h with
  | refl => exact hs
  | tail _ hlast ih => exact hlast ih

theorem kept_bind (hx : Q (x s).state) (hf : ∀ a t, x s = .ok a t → Q t → Q (f a t).state) :
    Q ((x >>= f) s).state := by
  cases h : x s with
  | error e t =>
      rw [bind_eq_error.2 (.inl h)]
      rw [h] at hx
      exact hx
  | ok a t =>
      rw [bind_of_ok h]
      rw [h] at hx
      exact hf a t h hx

end

/-! ### What a failure leaves -/

section
variable {Q : ε → σ → Prop} {x : EStateM ε σ α} {f : α → EStateM ε σ β} {s : σ}

/-- Started in `s`, the computation fails only with an error and a state in `Q`. -/
def Fails (Q : ε → σ → Prop) (x : EStateM ε σ α) (s : σ) : Prop :=
  ∀ e t, x s = .error e t → Q e t

theorem Fails.of_total (h : Total x) : Fails Q x s := fun e t he => absurd he (h s e t)

theorem Fails.bind (hx : Fails Q x s) (hf : ∀ a t, x s = .ok a t → Fails Q (f a) t) :
    Fails Q (x >>= f) s := fun e t he => by
  obtain he | ⟨a, u, ha, he⟩ := bind_eq_error.1 he
  · exact hx e t he
  · exact hf a u ha e t he

theorem Fails.get_bind {f : σ → EStateM ε σ β} (h : Fails Q (f s) s) : Fails Q (get >>= f) s := h

theorem Fails.modify_bind {g : σ → σ} {f : PUnit → EStateM ε σ β} (h : Fails Q (f ⟨⟩) (g s)) :
    Fails Q (EStateM.modifyGet (fun t => (⟨⟩, g t)) >>= f) s := h

theorem Fails.of_ensure {c : Prop} [Decidable c] {e : ε} (h : ¬c → Q e s) :
    Fails Q (ensure c e : EStateM ε σ Unit) s := fun e' t he => by
  obtain ⟨hc, rfl, rfl⟩ := ensure_eq_error.1 he
  exact h hc

theorem Fails.ensure_bind {c : Prop} [Decidable c] {e : ε} {f : Unit → EStateM ε σ β}
    (hneg : ¬c → Q e s) (hpos : c → Fails Q (f ()) s) : Fails Q (ensure c e >>= f) s :=
  .bind (.of_ensure hneg) fun u t ht => by
    obtain ⟨hc, rfl⟩ := ensure_eq_ok.1 ht
    exact hpos hc

theorem Fails.okOr_bind {o : Option α} {e : ε} {f : α → EStateM ε σ β}
    (hnone : o = none → Q e s) (hsome : ∀ a, o = some a → Fails Q (f a) s) :
    Fails Q (okOr e o >>= f) s :=
  .bind (fun e' t he => by
    obtain ⟨ho, rfl, rfl⟩ := okOr_eq_error.1 he
    exact hnone ho) fun a t ht => by
    obtain ⟨ho, rfl⟩ := okOr_eq_ok.1 ht
    exact hsome a ho

theorem Fails.lift_bind {y : Except ε α} (herr : ∀ e, y = .error e → Q e s)
    (hok : ∀ a, y = .ok a → Fails Q (f a) s) : Fails Q (liftM y >>= f) s :=
  .bind (fun e t he => by
    obtain ⟨hy, rfl⟩ := lift_eq_error.1 he
    exact herr e hy) fun a t ht => by
    obtain ⟨ha, rfl⟩ := lift_eq_ok.1 ht
    exact hok a ha

end

end EStateM
