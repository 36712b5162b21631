import KCoin.Lib.Digits

/-!
# Bech32m

The text format BIP-350: a readable part, a separator, the data as digits of five bits, and a
checksum of six digits. The checksum is the remainder of a division of polynomials over the field
with 32 elements; one step of the division is linear in exclusive or (`step_xor`), so the six digits
of the checksum bring the remainder to the constant (`polymod_checksum`).
-/

namespace Bech32

/-- The characters of the digits. -/
def charset : List Char := "qpzry9x8gf2tvdw0s3jn54khce6mua7l".toList

def generators : List Nat := [0x3b6a57b2, 0x26508e6d, 0x1ea119fa, 0x3d4233dd, 0x2a1462b3]

/-- The checksum constant of Bech32m. -/
def const : Nat := 0x2bc830a3

/-- The multiples of the generator that the top digit takes away. -/
def feedback (chk : Nat) : List (Nat × Nat) → Nat
  | [] => 0
  | (g, i) :: rest => (if chk.testBit (25 + i) then g else 0) ^^^ feedback chk rest

/-- One step of the division. -/
def step (chk value : Nat) : Nat :=
  (chk &&& 0x1ffffff) <<< 5 ^^^ value ^^^ feedback chk generators.zipIdx

/-- The remainder after some digits. -/
def polymod (values : List Nat) : Nat := values.foldl step 1

/-- The readable part as digits. -/
def hrpExpand (hrp : List Char) : List Nat :=
  hrp.map (·.toNat >>> 5) ++ [0] ++ hrp.map (·.toNat &&& 31)

/-- The six digits of a number of 30 bits. -/
def checksumDigits (n : Nat) : List Nat := (List.range 6).map fun i => (n >>> (5 * (5 - i))) &&& 31

def checksum (hrp : List Char) (data : List Nat) : List Nat :=
  checksumDigits (polymod (hrpExpand hrp ++ data ++ List.replicate 6 0) ^^^ const)

/-- The character of a digit. -/
def char (d : Nat) : Char := charset.getD d 'q'

def encode (hrp : List Char) (data : List Nat) : List Char :=
  hrp ++ '1' :: (data ++ checksum hrp data).map char

/-- The text of some bytes. -/
def encodeBytes (hrp : List Char) (bytes : List UInt8) : List Char :=
  encode hrp (Digits.regroup 8 5 (bytes.map UInt8.toNat))

/-! ## Linearity -/

theorem xor_assoc4 (a b c d : Nat) : a ^^^ b ^^^ (c ^^^ d) = a ^^^ c ^^^ (b ^^^ d) := by
  rw [Nat.xor_assoc, Nat.xor_assoc, ← Nat.xor_assoc b, Nat.xor_comm b c, Nat.xor_assoc c]

theorem feedback_xor (a b : Nat) (gs : List (Nat × Nat)) :
    feedback (a ^^^ b) gs = feedback a gs ^^^ feedback b gs := by
  induction gs with
  | nil => simp [feedback]
  | cons g gs ih =>
      have hgate : (if (a ^^^ b).testBit (25 + g.2) then g.1 else 0) =
          (if a.testBit (25 + g.2) then g.1 else 0) ^^^
            (if b.testBit (25 + g.2) then g.1 else 0) := by
        rw [Nat.testBit_xor]
        cases a.testBit (25 + g.2) <;> cases b.testBit (25 + g.2) <;> simp
      simp only [feedback, ih, hgate]
      exact xor_assoc4 ..

/-- A step of the division is linear in exclusive or. -/
theorem step_xor (a b v w : Nat) : step (a ^^^ b) (v ^^^ w) = step a v ^^^ step b w := by
  unfold step
  rw [feedback_xor, Nat.and_xor_distrib_right, Nat.shiftLeft_xor_distrib]
  rw [xor_assoc4 _ _ v w, xor_assoc4]

/-- A remainder without top digit only moves up. -/
theorem step_of_lt {y : Nat} (h : y < 2 ^ 25) (v : Nat) : step y v = y <<< 5 ^^^ v := by
  have hmask : y &&& 0x1ffffff = y := by
    rw [show (0x1ffffff : Nat) = 2 ^ 25 - 1 from rfl, Nat.and_two_pow_sub_one_eq_mod,
      Nat.mod_eq_of_lt h]
  have hfeed : ∀ gs, feedback y gs = 0 := fun gs => by
    induction gs with
    | nil => rfl
    | cons g gs ih =>
        have hbit : y.testBit (25 + g.2) = false := by
          refine Nat.testBit_lt_two_pow (Nat.lt_of_lt_of_le h ?_)
          exact Nat.pow_le_pow_right (by omega) (by omega)
        simp [feedback, ih, hbit]
  rw [step, hmask, hfeed, Nat.xor_zero]

theorem feedback_lt (chk : Nat) : feedback chk generators.zipIdx < 2 ^ 30 := by
  have hall : ∀ gs : List (Nat × Nat), (∀ g ∈ gs, g.1 < 2 ^ 30) → feedback chk gs < 2 ^ 30 := by
    intro gs hgs
    induction gs with
    | nil => exact Nat.two_pow_pos 30
    | cons g gs ih =>
        refine Nat.xor_lt_two_pow ?_ (ih fun g' hg' => hgs g' (List.mem_cons_of_mem _ hg'))
        split
        · exact hgs g List.mem_cons_self
        · decide
  exact hall _ (by decide)

/-- A remainder has 30 bits. -/
theorem step_lt (chk : Nat) {v : Nat} (h : v < 2 ^ 30) : step chk v < 2 ^ 30 := by
  refine Nat.xor_lt_two_pow (Nat.xor_lt_two_pow ?_ h) (feedback_lt chk)
  rw [show (0x1ffffff : Nat) = 2 ^ 25 - 1 from rfl, Nat.and_two_pow_sub_one_eq_mod,
    Nat.shiftLeft_eq]
  have := Nat.mod_lt chk (Nat.two_pow_pos 25)
  omega

theorem polymod_lt {values : List Nat} (h : ∀ v ∈ values, v < 2 ^ 30) : polymod values < 2 ^ 30 := by
  induction values using List.reverseRecOn with
  | nil => decide
  | append_singleton values v ih =>
      rw [polymod, List.foldl_append]
      exact step_lt _ (h v (by simp))

/-! ## The checksum -/

/-- A number is its bits above the lowest five and these. -/
theorem shiftRight_xor_and (y : Nat) : y >>> 5 <<< 5 ^^^ (y &&& 31) = y := by
  refine Nat.eq_of_testBit_eq fun i => ?_
  rw [Nat.testBit_xor, Nat.testBit_shiftLeft, Nat.testBit_shiftRight, Nat.testBit_and,
    show (31 : Nat) = 2 ^ 5 - 1 from rfl, Nat.testBit_two_pow_sub_one]
  by_cases hi : 5 ≤ i
  · simp [hi, Nat.not_lt.2 hi, Nat.add_sub_cancel' hi]
  · simp [hi, Nat.lt_of_not_le hi]

/-- One digit more of a number, next to a zero digit. -/
theorem step_digit {n : Nat} (z k : Nat) (h : n >>> (k + 5) < 2 ^ 25) :
    step (z ^^^ n >>> (k + 5)) ((n >>> k) &&& 31) = step z 0 ^^^ n >>> k := by
  have hdigit : (n >>> (k + 5)) <<< 5 ^^^ ((n >>> k) &&& 31) = n >>> k := by
    rw [Nat.shiftRight_add]
    exact shiftRight_xor_and _
  have := step_xor z (n >>> (k + 5)) 0 ((n >>> k) &&& 31)
  rw [Nat.zero_xor] at this
  rw [this, step_of_lt h, hdigit]

/-- After its six digits a number of 30 bits has been added to the remainder that six zero digits
would have left. -/
theorem foldl_checksumDigits {n : Nat} (h : n < 2 ^ 30) (chk : Nat) :
    (checksumDigits n).foldl step chk = (List.replicate 6 0).foldl step chk ^^^ n := by
  have hlt : ∀ k, 5 ≤ k → n >>> k < 2 ^ 25 := fun k hk => by
    rw [Nat.shiftRight_eq_div_pow]
    refine Nat.div_lt_of_lt_mul (Nat.lt_of_lt_of_le h ?_)
    calc 2 ^ 30 = 2 ^ 5 * 2 ^ 25 := rfl
      _ ≤ 2 ^ k * 2 ^ 25 := Nat.mul_le_mul_right _ (Nat.pow_le_pow_right (by omega) hk)
  have hzero : n >>> 30 = 0 := by
    rw [Nat.shiftRight_eq_div_pow, Nat.div_eq_of_lt h]
  have hstart : chk = chk ^^^ n >>> 30 := by rw [hzero, Nat.xor_zero]
  change step (step (step (step (step (step chk ((n >>> 25) &&& 31)) ((n >>> 20) &&& 31))
      ((n >>> 15) &&& 31)) ((n >>> 10) &&& 31)) ((n >>> 5) &&& 31)) ((n >>> 0) &&& 31) =
    step (step (step (step (step (step chk 0) 0) 0) 0) 0) 0 ^^^ n
  conv => lhs; rw [hstart]
  rw [step_digit _ 25 (hlt 30 (by omega)), step_digit _ 20 (hlt 25 (by omega)),
    step_digit _ 15 (hlt 20 (by omega)), step_digit _ 10 (hlt 15 (by omega)),
    step_digit _ 5 (hlt 10 (by omega)), step_digit _ 0 (hlt 5 (by omega)), Nat.shiftRight_zero]

theorem hrpExpand_lt (hrp : List Char) : ∀ v ∈ hrpExpand hrp, v < 2 ^ 30 := by
  intro v hv
  rcases List.mem_append.1 hv with hv | hv
  · rcases List.mem_append.1 hv with hv | hv
    · obtain ⟨c, -, rfl⟩ := List.mem_map.1 hv
      have hc : c.toNat < 2 ^ 32 := c.val.toNat_lt
      rw [Nat.shiftRight_eq_div_pow]
      omega
    · rw [List.mem_singleton.1 hv]
      exact Nat.two_pow_pos 30
  · obtain ⟨c, -, rfl⟩ := List.mem_map.1 hv
    exact Nat.lt_of_lt_of_le (Nat.and_lt_two_pow (n := 5) _ (by decide)) (by decide)

/-- The digits of the checksum bring the remainder to the constant. -/
theorem polymod_checksum {hrp : List Char} {data : List Nat}
    (h : ∀ v ∈ hrpExpand hrp ++ data, v < 2 ^ 30) :
    polymod (hrpExpand hrp ++ data ++ checksum hrp data) = const := by
  have hlt : polymod (hrpExpand hrp ++ data ++ List.replicate 6 0) ^^^ const < 2 ^ 30 := by
    refine Nat.xor_lt_two_pow (polymod_lt fun v hv => ?_) (by decide)
    rcases List.mem_append.1 hv with hv | hv
    · exact h v hv
    · rw [List.eq_of_mem_replicate hv]
      decide
  have hsum := foldl_checksumDigits hlt (polymod (hrpExpand hrp ++ data))
  rw [checksum, polymod, List.foldl_append]
  refine hsum.trans ?_
  have hfull : (List.replicate 6 0).foldl step (polymod (hrpExpand hrp ++ data)) =
      polymod (hrpExpand hrp ++ data ++ List.replicate 6 0) := by
    rw [polymod, polymod, ← List.foldl_append]
  rw [hfull, ← Nat.xor_assoc, Nat.xor_self, Nat.zero_xor]

theorem checksumDigits_eq (n : Nat) : checksumDigits n = Digits.digits 5 6 n := by
  simp only [Digits.digits, Nat.div_div_eq_div_mul]
  have hdigit : ∀ k, (n >>> k) &&& 31 = n / 2 ^ k % 2 ^ 5 := fun k => by
    rw [show (31 : Nat) = 2 ^ 5 - 1 from rfl, Nat.and_two_pow_sub_one_eq_mod,
      Nat.shiftRight_eq_div_pow]
  simp only [checksumDigits, List.range, List.range.loop, List.map_cons, List.map_nil, hdigit]
  simp

/-- Only the digits of the checksum bring the remainder to the constant. -/
theorem eq_checksum {hrp : List Char} {data check : List Nat} (hlen : check.length = 6)
    (hbounded : Digits.Bounded 5 check)
    (h : polymod (hrpExpand hrp ++ data ++ check) = const) : check = checksum hrp data := by
  have hlt := Digits.value_lt hbounded
  have hdigits := Digits.digits_value hbounded
  rw [hlen] at hlt hdigits
  have hsum := foldl_checksumDigits hlt (polymod (hrpExpand hrp ++ data))
  rw [checksumDigits_eq, hdigits] at hsum
  have happend : ∀ tail, polymod (hrpExpand hrp ++ data ++ tail) =
      tail.foldl step (polymod (hrpExpand hrp ++ data)) := fun _ => List.foldl_append
  have hvalue : const =
      polymod (hrpExpand hrp ++ data ++ List.replicate 6 0) ^^^ Digits.value 5 check := by
    rw [← h, happend, happend]
    exact hsum
  rw [checksum, hvalue, ← Nat.xor_assoc, Nat.xor_self, Nat.zero_xor, checksumDigits_eq, hdigits]

/-! ## Characters -/

theorem length_checksum (hrp : List Char) (data : List Nat) : (checksum hrp data).length = 6 := rfl

theorem bounded_checksum (hrp : List Char) (data : List Nat) :
    Digits.Bounded 5 (checksum hrp data) := by
  intro d hd
  obtain ⟨i, -, rfl⟩ := List.mem_map.1 hd
  exact Nat.and_lt_two_pow _ (by decide)

theorem idxOf_char : ∀ d < 32, charset.idxOf (char d) = d := by decide

theorem char_mem : ∀ d < 32, char d ∈ charset := by decide

theorem exists_char {c : Char} (h : c ∈ charset) : ∃ d < 32, char d = c := by
  obtain ⟨d, hd, rfl⟩ := List.getElem_of_mem h
  exact ⟨d, hd, (List.getElem_eq_getD 'q').symm⟩

theorem char_val : ∀ d < 32, (char d).val < 0x10000 := by decide

theorem one_not_mem_charset : '1' ∉ charset := by decide

end Bech32
