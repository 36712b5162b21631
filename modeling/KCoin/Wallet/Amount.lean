import Mathlib.Data.List.DropRight
import Mathlib.Tactic.FieldSimp
import KCoin.Wallet.Transaction

/-!
# Amounts in the browser

A user writes an amount of coins as a decimal number with at most six digits after the point; the
wallet sends a number of atoms. The conversion is made on the text: the digits after the point are
filled up with zeros to six, so the number of atoms is a million times the number written
(`parseKcoin_eq_ok`), and what the explorer shows for a number of atoms is an amount of as many
(`parseKcoin_formatKcoin`).
-/

namespace KCoin.Wallet

def atomsPerKcoin : Int := 1000000

/-! ## Text -/

/-- `text.padEnd(6, '0')` -/
def padEnd (text : List Char) : List Char := text ++ List.replicate (6 - text.length) '0'

/-- `text.padStart(6, '0')` -/
def padStart (text : List Char) : List Char := List.replicate (6 - text.length) '0' ++ text

/-- `value.toString()` -/
def intText (value : Int) : List Char := (toString value).toList

/-- Digits from the last one on, with a comma after three of them if there are more. -/
def groupDigits : List Char → List Char
  | a :: b :: c :: d :: rest => a :: b :: c :: ',' :: groupDigits (d :: rest)
  | digits => digits

/-- `value.toLocaleString('en-US')` -/
def toLocaleString (value : Int) : List Char :=
  (if value < 0 then ['-'] else []) ++
    (groupDigits (Nat.toDigits 10 value.natAbs).reverse).reverse

/-! ## The conversions -/

/-- The value of a big integer, or of a text of one. -/
def atomsValue : List Char ⊕ Int → Except String Int
  | .inl text => okOr "SyntaxError" (bigInt (if text = [] then ['0'] else text))
  | .inr value => .ok value

def formatKcoin (atoms : List Char ⊕ Int) (maximumFractionDigits : Nat := 6) :
    Except String (List Char) := do
  let value ← atomsValue atoms
  let whole := value.tdiv atomsPerKcoin
  let fraction := (padStart (intText (value.tmod atomsPerKcoin))).rdropWhile (· = '0')
  let shown := fraction.take maximumFractionDigits
  return toLocaleString whole ++ if shown ≠ [] then '.' :: shown else []

/-- `/^\d+(?:\.\d{0,6})?$/` -/
def isAmount (text : List Char) : Bool :=
  let whole := text.takeWhile Char.isDigit
  whole ≠ [] && match text.dropWhile Char.isDigit with
    | [] => true
    | '.' :: fraction => fraction.all Char.isDigit && fraction.length ≤ 6
    | _ => false

def parseKcoin (input : List Char) : Except String (List Char) := do
  ensure (isAmount (strip input)) "Use up to 6 decimal places."
  let parts := (strip input).splitOn '.'
  let whole ← okOr "SyntaxError" (bigInt (parts.getD 0 []))
  let padded := padEnd (parts.getD 1 [])
  let fraction ← okOr "SyntaxError" (bigInt (if padded = [] then ['0'] else padded))
  return intText (whole * atomsPerKcoin + fraction)

/-- The atoms of the amount that a user entered for a transfer, if the balance has them. -/
def validateAmount (value balanceAtoms : List Char) : Except String (List Char) := do
  ensure (strip value ≠ []) "Enter an amount."
  let atoms ← parseKcoin value
  let n ← okOr "SyntaxError" (bigInt atoms)
  ensure (0 < n) "Amount must be greater than zero."
  let balance ← okOr "SyntaxError" (bigInt balanceAtoms)
  ensure (n ≤ balance) "Amount exceeds your available balance."
  return atoms

/-! ## The number written -/

/-- A text with the digits of an amount before and after the point. -/
structure Amount (text whole fraction : List Char) : Prop where
  ne_nil : whole ≠ []
  digits : ∀ c ∈ whole ++ fraction, c.isDigit
  length_le : fraction.length ≤ 6
  text_eq : text = whole ++ '.' :: fraction ∨ text = whole ∧ fraction = []

theorem isDigit_point : Char.isDigit '.' = false := rfl

theorem isAmount_iff {text : List Char} :
    isAmount text = true ↔ ∃ whole fraction, Amount text whole fraction := by
  constructor
  · intro h
    have hwhole : ∀ c ∈ text.takeWhile Char.isDigit, c.isDigit := fun c hc =>
      List.mem_takeWhile_imp hc
    have htext := List.takeWhile_append_dropWhile (p := Char.isDigit) (l := text)
    unfold isAmount at h
    dsimp only at h
    split at h
    · next hrest =>
        rw [hrest, List.append_nil] at htext
        refine ⟨text.takeWhile Char.isDigit, [], by simpa using h, ?_, Nat.zero_le _, ?_⟩
        · rwa [List.append_nil]
        · exact .inr ⟨htext.symm, rfl⟩
    · next fraction hrest =>
        rw [hrest] at htext
        simp only [Bool.and_eq_true, List.all_eq_true, decide_eq_true_eq] at h
        refine ⟨text.takeWhile Char.isDigit, fraction, h.1, fun c hc => ?_, h.2.2, ?_⟩
        · exact (List.mem_append.1 hc).elim (hwhole c) (h.2.1 c)
        · exact .inl htext.symm
    · simp at h
  · rintro ⟨whole, fraction, hne, hdigits, hlen, htext⟩
    have hwhole : ∀ c ∈ whole, c.isDigit := fun c hc => hdigits c (List.mem_append_left _ hc)
    have hfraction : ∀ c ∈ fraction, c.isDigit := fun c hc =>
      hdigits c (List.mem_append_right _ hc)
    rcases htext with rfl | ⟨rfl, rfl⟩
    · have htake : (whole ++ '.' :: fraction).takeWhile Char.isDigit = whole := by
        rw [List.takeWhile_append_of_pos hwhole]
        simp [isDigit_point]
      have hdrop : (whole ++ '.' :: fraction).dropWhile Char.isDigit = '.' :: fraction := by
        rw [List.dropWhile_append_of_pos hwhole]
        simp [isDigit_point]
      simpa [isAmount, htake, hdrop, hne, hlen] using hfraction
    · have htake : text.takeWhile Char.isDigit = text := List.takeWhile_eq_self_iff.2 hwhole
      have hdrop : text.dropWhile Char.isDigit = [] := List.dropWhile_eq_nil_iff.2 hwhole
      simp [isAmount, htake, hdrop, hne]

namespace Amount

variable {text whole fraction : List Char}

/-- The parts are what the text has on the two sides of its point. -/
theorem splitOn (h : Amount text whole fraction) : (text.splitOn '.').getD 0 [] = whole ∧
    (text.splitOn '.').getD 1 [] = fraction := by
  have hpoint : ∀ l : List Char, (∀ c ∈ l, c ∈ whole ++ fraction) → '.' ∉ l := fun l hl hc =>
    absurd (h.digits '.' (hl _ hc)) (by decide)
  have hwhole := hpoint whole fun c => List.mem_append_left _
  have hfraction := hpoint fraction fun c => List.mem_append_right _
  rcases h.text_eq with rfl | ⟨rfl, rfl⟩
  · rw [List.splitOn_append_cons_self_of_not_mem hwhole, List.splitOn_eq_singleton hfraction]
    exact ⟨rfl, rfl⟩
  · rw [List.splitOn_eq_singleton hwhole]
    exact ⟨rfl, rfl⟩

/-- The number of atoms. -/
def atoms (whole fraction : List Char) : Nat :=
  Nat.ofDigitChars 10 whole 0 * 10 ^ 6 + Nat.ofDigitChars 10 (padEnd fraction) 0

theorem decimalNumber (h : Amount text whole fraction) : decimalNumber text =
    some ((Nat.ofDigitChars 10 (whole ++ fraction) 0 : ℚ) / 10 ^ fraction.length) := by
  have hwhole : ∀ c ∈ whole, c.isDigit := fun c hc => h.digits c (List.mem_append_left _ hc)
  have hfraction : ∀ c ∈ fraction, c.isDigit := fun c hc =>
    h.digits c (List.mem_append_right _ hc)
  have hall : fraction.takeWhile Char.isDigit = fraction ∧ fraction.dropWhile Char.isDigit = [] :=
    ⟨List.takeWhile_eq_self_iff.2 hfraction, List.dropWhile_eq_nil_iff.2 hfraction⟩
  rcases h.text_eq with rfl | ⟨rfl, rfl⟩
  · have htake : (whole ++ '.' :: fraction).takeWhile Char.isDigit = whole := by
      rw [List.takeWhile_append_of_pos hwhole]
      simp [isDigit_point]
    have hdrop : (whole ++ '.' :: fraction).dropWhile Char.isDigit = '.' :: fraction := by
      rw [List.dropWhile_append_of_pos hwhole]
      simp [isDigit_point]
    simp [Wallet.decimalNumber, htake, hdrop, hall, h.ne_nil, decimalExponent, div_eq_mul_inv]
  · have htake : text.takeWhile Char.isDigit = text := List.takeWhile_eq_self_iff.2 hwhole
    have hdrop : text.dropWhile Char.isDigit = [] := List.dropWhile_eq_nil_iff.2 hwhole
    simp [Wallet.decimalNumber, htake, hdrop, h.ne_nil, decimalExponent]

/-- The number of atoms is a million times the number written. -/
theorem atoms_eq (h : Amount text whole fraction) : (atoms whole fraction : ℚ) =
    10 ^ 6 * ((Nat.ofDigitChars 10 (whole ++ fraction) 0 : ℚ) / 10 ^ fraction.length) := by
  have hfill : Nat.ofDigitChars 10 (padEnd fraction) 0 =
      10 ^ (6 - fraction.length) * Nat.ofDigitChars 10 fraction 0 := by
    rw [padEnd, Nat.ofDigitChars_append, Nat.ofDigitChars_replicate_zero]
  have hinit : Nat.ofDigitChars 10 fraction (Nat.ofDigitChars 10 whole 0) =
      10 ^ fraction.length * Nat.ofDigitChars 10 whole 0 + Nat.ofDigitChars 10 fraction 0 :=
    Nat.ofDigitChars_eq_ofDigitChars_zero
  have hpow : (10 : Nat) ^ 6 = 10 ^ (6 - fraction.length) * 10 ^ fraction.length := by
    rw [← Nat.pow_add, Nat.sub_add_cancel h.length_le]
  have hatoms : atoms whole fraction =
      10 ^ (6 - fraction.length) * Nat.ofDigitChars 10 (whole ++ fraction) 0 := by
    rw [atoms, hfill, Nat.ofDigitChars_append, hinit, hpow]
    ring
  have hpow : (10 : ℚ) ^ 6 = 10 ^ (6 - fraction.length) * 10 ^ fraction.length := by
    exact_mod_cast hpow
  rw [hatoms, hpow]
  push_cast
  field_simp

end Amount

/-! ## Parsing -/

theorem decimalDigits_eq {digits : List Char} (hne : digits ≠ []) (h : ∀ c ∈ digits, c.isDigit) :
    decimalDigits digits = some (Nat.ofDigitChars 10 digits 0) := by
  rw [decimalDigits, if_pos ⟨hne, List.all_eq_true.2 h⟩]

theorem bigInt_digits {digits : List Char} (hne : digits ≠ []) (h : ∀ c ∈ digits, c.isDigit) :
    bigInt digits = some (Nat.ofDigitChars 10 digits 0 : Int) :=
  bigInt_eq (.inl rfl) (decimalDigits_eq hne h)

@[simp] theorem intText_natCast (n : Nat) : intText n = Nat.toDigits 10 n := by
  change (toString n).toList = _
  rw [Nat.toString_eq_repr, Nat.toList_repr]

theorem padEnd_ne_nil (text : List Char) : padEnd text ≠ [] := by
  intro h
  have hlen := congrArg List.length h
  simp only [padEnd, List.length_append, List.length_replicate, List.length_nil] at hlen
  omega

/-- An amount is the number of its atoms. -/
theorem parseKcoin_of_amount {input whole fraction : List Char}
    (h : Amount (strip input) whole fraction) :
    parseKcoin input = .ok (Nat.toDigits 10 (Amount.atoms whole fraction)) := by
  obtain ⟨hwhole, hfraction⟩ := h.splitOn
  have hpadded : ∀ c ∈ padEnd fraction, c.isDigit := by
    intro c hc
    rcases List.mem_append.1 hc with hc | hc
    · exact h.digits c (List.mem_append_right _ hc)
    · rw [List.eq_of_mem_replicate hc]
      rfl
  have hatoms : (Nat.ofDigitChars 10 whole 0 : Int) * atomsPerKcoin +
      Nat.ofDigitChars 10 (padEnd fraction) 0 = (Amount.atoms whole fraction : Nat) := by
    rw [Amount.atoms, atomsPerKcoin]
    push_cast
    rfl
  unfold parseKcoin
  refine Except.bind_eq_ok.2 ⟨(), Except.ensure_eq_ok.2 (isAmount_iff.2 ⟨_, _, h⟩), ?_⟩
  dsimp only
  rw [hwhole, hfraction, if_neg (padEnd_ne_nil fraction)]
  rw [bigInt_digits h.ne_nil fun c hc => h.digits c (List.mem_append_left _ hc),
    bigInt_digits (padEnd_ne_nil fraction) hpadded]
  change Except.ok (intText _) = _
  rw [hatoms, intText_natCast]

/-- What is accepted is an amount, and the result is the number of its atoms. -/
theorem parseKcoin_eq_ok {input atoms : List Char} : parseKcoin input = .ok atoms ↔
    ∃ whole fraction, Amount (strip input) whole fraction ∧
      atoms = Nat.toDigits 10 (Amount.atoms whole fraction) := by
  constructor
  · intro h
    obtain ⟨_, hamount, -⟩ := Except.bind_eq_ok.1 h
    obtain ⟨whole, fraction, hamount⟩ := isAmount_iff.1 (Except.ensure_eq_ok.1 hamount)
    exact ⟨whole, fraction, hamount,
      Except.ok.inj (h.symm.trans (parseKcoin_of_amount hamount))⟩
  · rintro ⟨whole, fraction, hamount, rfl⟩
    exact parseKcoin_of_amount hamount

/-! ## Showing -/

theorem groupDigits_filter : ∀ digits : List Char, ',' ∉ digits →
    (groupDigits digits).filter (· ≠ ',') = digits
  | a :: b :: c :: d :: rest, h => by
    simp only [List.mem_cons, not_or] at h
    obtain ⟨ha, hb, hc, hrest⟩ := h
    have ih := groupDigits_filter (d :: rest) (by simpa using hrest)
    simp only [groupDigits, List.filter_cons, ih]
    simp [Ne.symm ha, Ne.symm hb, Ne.symm hc]
  | [], _ => rfl
  | [a], h | [a, b], h | [a, b, c], h => by
    refine List.filter_eq_self.2 fun x hx => decide_eq_true fun hcomma => ?_
    exact h (hcomma ▸ hx)

theorem comma_not_mem_toDigits (n : Nat) : ',' ∉ Nat.toDigits 10 n := fun h =>
  absurd (Nat.isDigit_of_mem_toDigits (by omega) (by omega) h) (by decide)

/-- Without its commas a number is its digits. -/
theorem toLocaleString_filter (n : Nat) :
    (toLocaleString n).filter (· ≠ ',') = Nat.toDigits 10 n := by
  have hsign : ¬(n : Int) < 0 := by omega
  have hcomma : ',' ∉ (Nat.toDigits 10 n).reverse := fun h =>
    comma_not_mem_toDigits n (List.mem_reverse.1 h)
  rw [toLocaleString, if_neg hsign, List.nil_append, Int.natAbs_natCast, List.filter_reverse,
    groupDigits_filter _ hcomma, List.reverse_reverse]

/-- The digits after the point, without the zeros at their end. -/
def fractionDigits (n : Nat) : List Char :=
  (padStart (Nat.toDigits 10 (n % 10 ^ 6))).rdropWhile (· = '0')

theorem length_padStart {text : List Char} (h : text.length ≤ 6) : (padStart text).length = 6 := by
  rw [padStart, List.length_append, List.length_replicate]
  omega

/-- The zeros that were left out are filled up again. -/
theorem padEnd_fractionDigits (n : Nat) :
    padEnd (fractionDigits n) = padStart (Nat.toDigits 10 (n % 10 ^ 6)) ∧
      (fractionDigits n).length ≤ 6 := by
  have hlt : n % 10 ^ 6 < 10 ^ 6 := Nat.mod_lt _ (by omega)
  have hlen := length_padStart ((Nat.length_toDigits_le_iff (by omega) (by omega)).2 hlt)
  have hsplit : fractionDigits n ++ (padStart (Nat.toDigits 10 (n % 10 ^ 6))).rtakeWhile (· = '0') =
      padStart (Nat.toDigits 10 (n % 10 ^ 6)) := List.rdropWhile_append_rtakeWhile
  have hzeros : ∀ c ∈ (padStart (Nat.toDigits 10 (n % 10 ^ 6))).rtakeWhile (· = '0'), c = '0' :=
    fun c hc => by simpa using List.mem_rtakeWhile_imp hc
  rw [List.eq_replicate_of_mem hzeros] at hsplit
  generalize ((padStart (Nat.toDigits 10 (n % 10 ^ 6))).rtakeWhile (· = '0')).length = k at hsplit
  have hk : (fractionDigits n).length + k = 6 := by
    rw [← hlen, ← hsplit, List.length_append, List.length_replicate]
  refine ⟨?_, by omega⟩
  rw [padEnd, ← hsplit]
  congr 2
  omega

theorem isDigit_fractionDigits (n : Nat) : ∀ c ∈ fractionDigits n, c.isDigit := by
  intro c hc
  rcases List.mem_append.1 ((List.rdropWhile_prefix _ _).subset hc) with hc | hc
  · rw [List.eq_of_mem_replicate hc]
    rfl
  · exact Nat.isDigit_of_mem_toDigits (by omega) (by omega) hc

theorem formatKcoin_eq {atoms : List Char ⊕ Int} {n : Nat} (h : atomsValue atoms = .ok (n : Int)) :
    formatKcoin atoms = .ok (toLocaleString (n / 10 ^ 6 : Nat) ++
      if fractionDigits n ≠ [] then '.' :: fractionDigits n else []) := by
  have hunit : atomsPerKcoin = (10 ^ 6 : Nat) := rfl
  have hwhole : (n : Int).tdiv atomsPerKcoin = (n / 10 ^ 6 : Nat) := by
    rw [hunit, Int.ofNat_tdiv]
  have hfraction : (n : Int).tmod atomsPerKcoin = (n % 10 ^ 6 : Nat) := by
    rw [hunit, Int.ofNat_tmod]
  unfold formatKcoin
  refine Except.bind_eq_ok.2 ⟨_, h, ?_⟩
  dsimp only
  rw [hwhole, hfraction, intText_natCast]
  change Except.ok (_ ++ if (fractionDigits n).take 6 ≠ [] then '.' :: (fractionDigits n).take 6
    else []) = _
  rw [List.take_of_length_le (padEnd_fractionDigits n).2]

/-- What is shown for a number of atoms is an amount of as many. -/
theorem parseKcoin_formatKcoin {atoms : List Char ⊕ Int} {n : Nat}
    (h : atomsValue atoms = .ok (n : Int)) : ∃ shown, formatKcoin atoms = .ok shown ∧
      parseKcoin (shown.filter (· ≠ ',')) = .ok (Nat.toDigits 10 n) := by
  let whole := Nat.toDigits 10 (n / 10 ^ 6)
  let text := whole ++ if fractionDigits n ≠ [] then '.' :: fractionDigits n else []
  refine ⟨_, formatKcoin_eq h, ?_⟩
  have hwhole : ∀ c ∈ whole, c.isDigit := fun c hc =>
    Nat.isDigit_of_mem_toDigits (by omega) (by omega) hc
  have hfraction := isDigit_fractionDigits n
  have hrest : ∀ c ∈ (if fractionDigits n ≠ [] then '.' :: fractionDigits n else []),
      c.isDigit ∨ c = '.' := by
    intro c hc
    split at hc
    · rcases List.mem_cons.1 hc with rfl | hc
      · exact .inr rfl
      · exact .inl (hfraction c hc)
    · cases hc
  have hfilter : (toLocaleString (n / 10 ^ 6 : Nat) ++
      if fractionDigits n ≠ [] then '.' :: fractionDigits n else []).filter (· ≠ ',') = text := by
    rw [List.filter_append, toLocaleString_filter]
    refine congrArg (whole ++ ·) (List.filter_eq_self.2 fun c hc => decide_eq_true ?_)
    rintro rfl
    exact (hrest _ hc).elim (absurd · (by decide)) (absurd · (by decide))
  have hstrip : strip text = text := by
    refine strip_eq fun c hc => ?_
    have hc : c.isDigit ∨ c = '.' := (List.mem_append.1 hc).elim (.inl <| hwhole c ·) (hrest c)
    rcases hc with hc | rfl
    · exact isSpace_of_isDigit (.inl hc)
    · rfl
  have hamount : Amount (strip text) whole (fractionDigits n) := by
    refine ⟨Nat.toDigits_ne_nil, fun c hc => ?_, (padEnd_fractionDigits n).2, ?_⟩
    · exact (List.mem_append.1 hc).elim (hwhole c) (hfraction c)
    · rw [hstrip]
      by_cases hnil : fractionDigits n = []
      · refine .inr ⟨?_, hnil⟩
        exact (congrArg (whole ++ ·) (if_neg (not_not.2 hnil))).trans (List.append_nil _)
      · exact .inl (congrArg (whole ++ ·) (if_pos hnil))
  have hatoms : Amount.atoms whole (fractionDigits n) = n := by
    rw [Amount.atoms, (padEnd_fractionDigits n).1, padStart, Nat.ofDigitChars_append,
      Nat.ofDigitChars_replicate_zero, Nat.mul_zero, Nat.ofDigitChars_ten_toDigits,
      Nat.ofDigitChars_ten_toDigits]
    omega
  rw [hfilter, parseKcoin_of_amount hamount, hatoms]

/-- The conversion of amounts is exact: what is accepted is a decimal number with at most six digits
after the point, with a point or without one, and the result is a million times that number; what is
shown for a number of atoms is an amount of as many; and amounts of as many atoms are of one
number. -/
theorem amount_exact :
    (∀ input, (∃ atoms, parseKcoin input = .ok atoms) ↔
      ∃ whole fraction, Amount (strip input) whole fraction) ∧
    (∀ input atoms, parseKcoin input = .ok atoms → ∃ (n : Nat) (q : ℚ),
      atoms = Nat.toDigits 10 n ∧ decimalNumber (strip input) = some q ∧ (n : ℚ) = 10 ^ 6 * q) ∧
    (∀ atoms (n : Nat), atomsValue atoms = .ok (n : Int) → ∃ shown, formatKcoin atoms = .ok shown ∧
      parseKcoin (shown.filter (· ≠ ',')) = .ok (Nat.toDigits 10 n)) ∧
    ∀ input input' atoms, parseKcoin input = .ok atoms → parseKcoin input' = .ok atoms →
      decimalNumber (strip input) = decimalNumber (strip input') := by
  have hexact : ∀ input atoms, parseKcoin input = .ok atoms → ∃ (n : Nat) (q : ℚ),
      atoms = Nat.toDigits 10 n ∧ decimalNumber (strip input) = some q ∧ (n : ℚ) = 10 ^ 6 * q := by
    intro input atoms h
    obtain ⟨whole, fraction, hamount, rfl⟩ := parseKcoin_eq_ok.1 h
    exact ⟨_, _, rfl, hamount.decimalNumber, hamount.atoms_eq⟩
  refine ⟨fun input => ?_, hexact, fun _ _ => parseKcoin_formatKcoin, fun input input' atoms h h' => ?_⟩
  · constructor
    · rintro ⟨atoms, h⟩
      obtain ⟨whole, fraction, hamount, -⟩ := parseKcoin_eq_ok.1 h
      exact ⟨whole, fraction, hamount⟩
    · rintro ⟨whole, fraction, hamount⟩
      exact ⟨_, parseKcoin_of_amount hamount⟩
  · obtain ⟨n, q, rfl, hq, hn⟩ := hexact input atoms h
    obtain ⟨n', q', heq, hq', hn'⟩ := hexact input' _ h'
    have hsame : n = n' := by
      have hvalue := congrArg (Nat.ofDigitChars 10 · 0) heq
      simpa using hvalue
    subst hsame
    rw [hq, hq']
    exact congrArg some (mul_left_cancel₀ (by norm_num) (hn.symm.trans hn'))

/-- Amounts with one, three and no digits after the point. -/
theorem amount_exact_written : ∃ shown,
    parseKcoin " 1234.5".toList = .ok "1234500000".toList ∧
    decimalNumber "1234.5".toList = decimalNumber "01234.500".toList ∧
    formatKcoin (.inl "1234500000".toList) = .ok shown ∧
    parseKcoin (shown.filter (· ≠ ',')) = .ok (Nat.toDigits 10 1234500000) := by
  obtain ⟨-, -, hshown, hsame⟩ := amount_exact
  have h : parseKcoin " 1234.5".toList = .ok "1234500000".toList := by decide +kernel
  have h' : parseKcoin "01234.500".toList = .ok "1234500000".toList := by decide +kernel
  obtain ⟨shown, hshown, hback⟩ := hshown (.inl "1234500000".toList) 1234500000 (by decide +kernel)
  exact ⟨shown, h, hsame _ _ _ h h', hshown, hback⟩

/-- An amount that is sent is positive and not above the balance. -/
theorem validateAmount_eq_ok {value balanceAtoms atoms : List Char}
    (h : validateAmount value balanceAtoms = .ok atoms) : ∃ (n : Nat) (balance : Int),
      parseKcoin value = .ok atoms ∧ atoms = Nat.toDigits 10 n ∧ 0 < n ∧
        bigInt balanceAtoms = some balance ∧ (n : Int) ≤ balance := by
  obtain ⟨_, -, h⟩ := Except.bind_eq_ok.1 h
  obtain ⟨atoms', hparse, h⟩ := Except.bind_eq_ok.1 h
  obtain ⟨m, hm, h⟩ := Except.bind_eq_ok.1 h
  obtain ⟨_, hpos, h⟩ := Except.bind_eq_ok.1 h
  obtain ⟨balance, hbalance, h⟩ := Except.bind_eq_ok.1 h
  obtain ⟨_, hle, h⟩ := Except.bind_eq_ok.1 h
  obtain rfl := Except.pure_eq_ok.1 h
  obtain ⟨whole, fraction, -, rfl⟩ := parseKcoin_eq_ok.1 hparse
  have hvalue : m = (Amount.atoms whole fraction : Nat) := by
    have hdigits := bigInt_digits Nat.toDigits_ne_nil
      fun c (hc : c ∈ Nat.toDigits 10 (Amount.atoms whole fraction)) =>
        Nat.isDigit_of_mem_toDigits (by omega) (by omega) hc
    rw [Nat.ofDigitChars_ten_toDigits] at hdigits
    exact Option.some.inj ((Except.okOr_eq_ok.1 hm).symm.trans hdigits)
  subst hvalue
  exact ⟨_, balance, hparse, rfl, Int.natCast_pos.1 (Except.ensure_eq_ok.1 hpos),
    Except.okOr_eq_ok.1 hbalance, Except.ensure_eq_ok.1 hle⟩

end KCoin.Wallet
