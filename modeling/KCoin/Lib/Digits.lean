import Mathlib.Data.List.Induction
import Mathlib.Tactic.Ring

/-!
# Digits of a number

A number as its digits in a base that is a power of two, the most significant first. Text formats
such as Base64 and Bech32 read the digits of one base as a number and write the number in another
base, filled up with zero bits at the end (`regroup`). What is regrouped and truncated back is the
same again (`truncate_regroup`), and so is what is truncated and regrouped back, if only padding is
cut off (`regroup_truncate`).
-/

namespace Digits

/-- The number with the given digits of `w` bits. -/
def value (w : Nat) (ds : List Nat) : Nat := ds.foldl (fun v d => v * 2 ^ w + d) 0

/-- The `n` lowest digits of `w` bits. -/
def digits (w : Nat) : Nat → Nat → List Nat
  | 0, _ => []
  | n + 1, v => digits w n (v / 2 ^ w) ++ [v % 2 ^ w]

/-- Every digit has at most `w` bits. -/
def Bounded (w : Nat) (ds : List Nat) : Prop := ∀ d ∈ ds, d < 2 ^ w

variable {w n v : Nat} {ds es : List Nat}

@[simp] theorem length_digits (w n v : Nat) : (digits w n v).length = n := by
  induction n generalizing v with
  | zero => rfl
  | succ n ih => simp [digits, ih]

theorem bounded_digits (w n v : Nat) : Bounded w (digits w n v) := by
  induction n generalizing v with
  | zero => exact nofun
  | succ n ih =>
      intro d hd
      rcases List.mem_append.1 hd with hd | hd
      · exact ih _ d hd
      · rw [List.mem_singleton.1 hd]
        exact Nat.mod_lt _ (Nat.two_pow_pos w)

@[simp] theorem value_nil (w : Nat) : value w [] = 0 := rfl

theorem value_concat (w : Nat) (ds : List Nat) (d : Nat) :
    value w (ds ++ [d]) = value w ds * 2 ^ w + d := by
  simp [value]

theorem value_lt (h : Bounded w ds) : value w ds < 2 ^ (w * ds.length) := by
  induction ds using List.reverseRecOn with
  | nil => simp
  | append_singleton ds d ih =>
      have hd := h d (by simp)
      have ih := ih fun e he => h e (List.mem_append_left _ he)
      have hmul : (value w ds + 1) * 2 ^ w ≤ 2 ^ (w * ds.length) * 2 ^ w :=
        Nat.mul_le_mul_right _ ih
      rw [value_concat, List.length_append, List.length_singleton, Nat.mul_succ, Nat.pow_add]
      rw [Nat.add_mul] at hmul
      omega

/-- The digits of the number with the given digits are these. -/
theorem digits_value (h : Bounded w ds) : digits w ds.length (value w ds) = ds := by
  induction ds using List.reverseRecOn with
  | nil => rfl
  | append_singleton ds d ih =>
      have hd := h d (by simp)
      have ih := ih fun e he => h e (List.mem_append_left _ he)
      have hdiv : (value w ds * 2 ^ w + d) / 2 ^ w = value w ds := by
        rw [Nat.mul_comm, Nat.mul_add_div (Nat.two_pow_pos w), Nat.div_eq_of_lt hd, Nat.add_zero]
      have hmod : (value w ds * 2 ^ w + d) % 2 ^ w = d := by
        rw [Nat.mul_comm, Nat.mul_add_mod, Nat.mod_eq_of_lt hd]
      rw [List.length_append, List.length_singleton, value_concat, digits, hdiv, hmod, ih]

/-- The number with the digits of a number that is not too large is this number. -/
theorem value_digits (h : v < 2 ^ (w * n)) : value w (digits w n v) = v := by
  induction n generalizing v with
  | zero =>
      rw [Nat.mul_zero, Nat.pow_zero] at h
      simp only [digits, value_nil]
      omega
  | succ n ih =>
      have hdiv : v / 2 ^ w < 2 ^ (w * n) := by
        rw [Nat.div_lt_iff_lt_mul (Nat.two_pow_pos w), ← Nat.pow_add, ← Nat.mul_succ]
        exact h
      rw [digits, value_concat, ih hdiv, Nat.mul_comm]
      exact Nat.div_add_mod v (2 ^ w)

/-! ## Regrouping -/

/-- The number of digits of `u` bits that hold `bits` bits. -/
def groups (u bits : Nat) : Nat := (bits + (u - 1)) / u

/-- The number of zero bits that fill up the last of them. -/
def padding (u bits : Nat) : Nat := u * groups u bits - bits

/-- The same bits in digits of `u` bits, filled up with zero bits. -/
def regroup (w u : Nat) (ds : List Nat) : List Nat :=
  let bits := w * ds.length
  digits u (groups u bits) (value w ds * 2 ^ padding u bits)

/-- The same bits in digits of `u` bits, without the bits that do not fill a digit. -/
def truncate (w u : Nat) (ds : List Nat) : List Nat :=
  let bits := w * ds.length
  digits u (bits / u) (value w ds / 2 ^ (bits % u))

variable {u : Nat}

theorem groups_spec {bits : Nat} (h : 0 < u) :
    u * groups u bits = bits + padding u bits ∧ padding u bits < u := by
  have hdiv := Nat.div_add_mod (bits + (u - 1)) u
  have hmod := Nat.mod_lt (bits + (u - 1)) h
  unfold padding groups
  generalize u * ((bits + (u - 1)) / u) = full at *
  omega

/-- The number of digits is the least one that holds the bits. -/
theorem groups_eq {bits n : Nat} (hle : bits ≤ u * n) (hlt : u * n < bits + u) :
    groups u bits = n ∧ padding u bits = u * n - bits := by
  have hn : groups u bits = n := by
    refine Nat.div_eq_of_lt_le ?_ ?_
    · rw [Nat.mul_comm]
      omega
    · rw [Nat.succ_mul, Nat.mul_comm]
      omega
  exact ⟨hn, by rw [padding, hn]⟩

theorem value_regroup (hu : 0 < u) (h : Bounded w ds) :
    value u (regroup w u ds) = value w ds * 2 ^ padding u (w * ds.length) := by
  refine value_digits ?_
  rw [(groups_spec hu).1, Nat.pow_add]
  exact Nat.mul_lt_mul_of_pos_right (value_lt h) (Nat.two_pow_pos _)

/-- The bits that do not fill a larger digit again are the padding. -/
theorem length_regroup (hu : 0 < u) (hw : u ≤ w) (ds : List Nat) :
    u * (regroup w u ds).length / w = ds.length ∧
      u * (regroup w u ds).length % w = padding u (w * ds.length) := by
  obtain ⟨hfull, hpad⟩ : u * groups u (w * ds.length) = w * ds.length + padding u (w * ds.length) ∧
      padding u (w * ds.length) < u := groups_spec hu
  rw [regroup, length_digits, hfull]
  constructor
  · rw [Nat.mul_add_div (by omega), Nat.div_eq_of_lt (by omega), Nat.add_zero]
  · rw [Nat.mul_add_mod, Nat.mod_eq_of_lt (by omega)]

/-- Regrouping into smaller digits and truncating back gives the digits again. -/
theorem truncate_regroup (hu : 0 < u) (hw : u ≤ w) (h : Bounded w ds) :
    truncate u w (regroup w u ds) = ds := by
  obtain ⟨hdiv, hmod⟩ := length_regroup hu hw ds
  rw [truncate, hdiv, hmod, value_regroup hu h, Nat.mul_div_cancel _ (Nat.two_pow_pos _)]
  exact digits_value h

/-- Truncating into larger digits and regrouping back gives the digits again, if what is cut off are
zero bits and no whole digit. -/
theorem regroup_truncate (h : Bounded w ds) (hleft : w * ds.length % u < w)
    (hzero : value w ds % 2 ^ (w * ds.length % u) = 0) : regroup u w (truncate w u ds) = ds := by
  let left := w * ds.length % u
  have hdivmod : u * (w * ds.length / u) + left = w * ds.length := Nat.div_add_mod _ _
  have hlen : (truncate w u ds).length = w * ds.length / u := length_digits ..
  obtain ⟨hgroups, hpadding⟩ : groups w (u * (w * ds.length / u)) = ds.length ∧
      padding w (u * (w * ds.length / u)) = w * ds.length - u * (w * ds.length / u) :=
    groups_eq (by omega) (by omega)
  have hcut : w * ds.length - u * (w * ds.length / u) = left := by omega
  have hlt : value w ds / 2 ^ left < 2 ^ (u * (w * ds.length / u)) := by
    rw [Nat.div_lt_iff_lt_mul (Nat.two_pow_pos _), ← Nat.pow_add, hdivmod]
    exact value_lt h
  have hvalue : value u (truncate w u ds) * 2 ^ left = value w ds := by
    rw [truncate, value_digits hlt]
    exact Nat.div_mul_cancel (Nat.dvd_of_mod_eq_zero hzero)
  rw [regroup, hlen, hgroups, hpadding, hcut, hvalue]
  exact digits_value h

/-- Regrouping takes the digits that the bits fill and fills up one more with the bits that are
left. -/
theorem regroup_eq (hu : 0 < u) (ds : List Nat) :
    regroup w u ds = truncate w u ds ++
      if 0 < w * ds.length % u then [value w ds * 2 ^ (u - w * ds.length % u) % 2 ^ u] else [] := by
  have hdivmod := Nat.div_add_mod (w * ds.length) u
  have hlt := Nat.mod_lt (w * ds.length) hu
  rw [regroup, truncate]
  generalize w * ds.length % u = left at *
  generalize w * ds.length / u = full at *
  by_cases hpos : 0 < left
  · obtain ⟨hn, hpadding⟩ : groups u (w * ds.length) = full + 1 ∧
        padding u (w * ds.length) = u * (full + 1) - w * ds.length :=
      groups_eq (by rw [Nat.mul_succ]; omega) (by rw [Nat.mul_succ]; omega)
    have hfill : u * (full + 1) - w * ds.length = u - left := by
      rw [Nat.mul_succ]
      omega
    have hdiv : value w ds * 2 ^ (u - left) / 2 ^ u = value w ds / 2 ^ left := by
      have hpow : (2 : Nat) ^ u = 2 ^ left * 2 ^ (u - left) := by
        rw [← Nat.pow_add, Nat.add_sub_cancel' (by omega)]
      rw [hpow, Nat.mul_div_mul_right _ _ (Nat.two_pow_pos _)]
    rw [if_pos hpos, hn, hpadding, hfill, digits, hdiv]
  · obtain rfl : left = 0 := by omega
    obtain ⟨hn, hpadding⟩ : groups u (w * ds.length) = full ∧
        padding u (w * ds.length) = u * full - w * ds.length := groups_eq (by omega) (by omega)
    have hfill : u * full - w * ds.length = 0 := by omega
    rw [if_neg hpos, List.append_nil, hn, hpadding, hfill, Nat.pow_zero, Nat.mul_one, Nat.div_one]

end Digits
