import KCoin.Lib.Bech32
import KCoin.Lib.Fallible

/-!
# Addresses in the browser

The Bech32m codec of the browser wallet. Its bit operators work on words of 32 bits, and the
accumulator of the regrouping loop is never cut back, so its upper bits are lost as it grows; the
digits that are taken off it only need the lower ones (`regrouped_append`). What the encoder writes
the decoder reads back (`decodeBech32m_encodeBytes`).
-/

open Digits

namespace KCoin.Wallet

/-! ## The checksum -/

def charset : List Char := "qpzry9x8gf2tvdw0s3jn54khce6mua7l".toList

def generators : List UInt32 := [0x3b6a57b2, 0x26508e6d, 0x1ea119fa, 0x3d4233dd, 0x2a1462b3]

def polymodStep (checksum value : UInt32) : UInt32 :=
  let top := checksum >>> 25
  generators.zipIdx.foldl
    (fun checksum g => if (top >>> UInt32.ofNat g.2) &&& 1 ≠ 0 then checksum ^^^ g.1 else checksum)
    ((checksum &&& 0x1ffffff) <<< 5 ^^^ value)

def polymod (values : List UInt32) : UInt32 := values.foldl polymodStep 1

/-- `char.charCodeAt(0)`: the first code unit of a character. -/
def charCodeAt0 (c : Char) : UInt32 :=
  if c.val < 0x10000 then c.val else (0xd800 : UInt32) + ((c.val - 0x10000) >>> 10)

def expandHrp (hrp : List Char) : List UInt32 :=
  hrp.map (fun c => charCodeAt0 c >>> 5) ++ [0] ++ hrp.map (fun c => charCodeAt0 c &&& 31)

/-! ## Regrouping -/

/-- `(1 << to) - 1` -/
def mask (width : Nat) : UInt32 := 1 <<< UInt32.ofNat width - 1

/-- The inner loop: a digit while there are enough bits. The first argument bounds the number of
digits. -/
def drain (accumulator : UInt32) (width : Nat) : Nat → Nat → List UInt32 × Nat
  | 0, bits => ([], bits)
  | fuel + 1, bits =>
    if width ≤ bits then
      let bits := bits - width
      let digit := accumulator >>> UInt32.ofNat bits &&& mask width
      let (digits, bits) := drain accumulator width fuel bits
      (digit :: digits, bits)
    else ([], bits)

/-- The local variables of the loop. -/
structure Regrouping where
  accumulator : UInt32
  bits : Nat
  result : List UInt32

/-- One turn of the loop over the digits. -/
def Regrouping.push (w width : Nat) (s : Regrouping) (value : UInt32) : Regrouping :=
  let accumulator := s.accumulator <<< UInt32.ofNat w ||| value
  let (digits, bits) := drain accumulator width (s.bits + w) (s.bits + w)
  ⟨accumulator, bits, s.result ++ digits⟩

/-- The bits that are left over, filled up with zero bits. -/
def Regrouping.last (width : Nat) (s : Regrouping) : UInt32 :=
  s.accumulator <<< UInt32.ofNat (width - s.bits) &&& mask width

def convertBits (data : List UInt8) (w width : Nat) : List UInt32 :=
  let s := (data.map UInt8.toUInt32).foldl (Regrouping.push w width) ⟨0, 0, []⟩
  if 0 < s.bits then s.result ++ [s.last width] else s.result

def convertWords (words : List UInt32) (w width : Nat) (pad : Bool) :
    Except String (List UInt8) := do
  let s ← words.foldlM (fun s word => do
    ensure (word >>> UInt32.ofNat w = 0) "Invalid Bech32m data."
    return Regrouping.push w width s word) (⟨0, 0, []⟩ : Regrouping)
  let result := if pad ∧ 0 < s.bits then s.result ++ [s.last width] else s.result
  ensure (pad ∨ (s.bits < w ∧ s.last width = 0)) "Invalid Bech32m padding."
  return result.map UInt32.toUInt8

/-! ## The codec -/

def encodeBech32m (hrp : List Char) (bytes : List UInt8) : List Char :=
  let words := convertBits bytes 8 5
  let values := expandHrp hrp ++ words ++ List.replicate 6 0
  let mod := polymod values ^^^ 0x2bc830a3
  let checksum := (List.range 6).map fun index => mod >>> UInt32.ofNat (5 * (5 - index)) &&& 31
  hrp ++ '1' :: (words ++ checksum).map fun value => charset.getD value.toNat 'q'

/-- `value.toLowerCase()`, of the characters that a decoded text can have. The other characters do
not decode. -/
def toLowerCase (value : List Char) : List Char := value.map Char.toLower

/-- The length of a string in code units. -/
def utf16Length (value : List Char) : Nat := 
  (value.map fun c => if c.val < 0x10000 then 1 else 2).sum

/-- The parts before and after the last `1`. -/
def splitLastOne : List Char → Option (List Char × List Char)
  | [] => none
  | c :: rest =>
    match splitLastOne rest with
    | some (hrp, data) => some (c :: hrp, data)
    | none => if c = '1' then some ([], rest) else none

/-- The number of a character of the charset. -/
def characterValue (c : Char) : Except String UInt32 :=
  if c ∈ charset then .ok (UInt32.ofNat (charset.idxOf c))
  else .error "Malformed Bech32m address."

def decodeBech32m (value : List Char) (expectedHrp : List Char) : Except String (List UInt8) := do
  ensure (value = toLowerCase value) "Address must use lowercase Bech32m."
  let (hrp, data) ← okOr "Malformed Bech32m address." (splitLastOne value)
  ensure (hrp ≠ [] ∧ 6 ≤ utf16Length data) "Malformed Bech32m address."
  ensure (hrp = expectedHrp) s!"Address must start with {String.ofList expectedHrp}1."
  let values ← data.mapM characterValue
  ensure (polymod (expandHrp hrp ++ values) = 0x2bc830a3) "Invalid Bech32m checksum."
  convertWords (values.take (values.length - 6)) 5 8 false

/-! ## The checksum as in the format -/

theorem toNat_feedback (chk checksum : UInt32) (gs : List (UInt32 × Nat))
    (hgs : ∀ g ∈ gs, g.2 < 5) :
    (gs.foldl (fun checksum g =>
        if (chk >>> 25 >>> UInt32.ofNat g.2) &&& 1 ≠ 0 then checksum ^^^ g.1 else checksum)
      checksum).toNat =
      checksum.toNat ^^^ Bech32.feedback chk.toNat (gs.map fun g => (g.1.toNat, g.2)) := by
  induction gs generalizing checksum with
  | nil => simp [Bech32.feedback]
  | cons g gs ih =>
      have hg := hgs g List.mem_cons_self
      have hbit : (chk >>> 25 >>> UInt32.ofNat g.2) &&& 1 ≠ 0 ↔
          chk.toNat.testBit (25 + g.2) = true := by
        have hi : g.2 % 2 ^ 32 % 32 = g.2 := by omega
        rw [Ne, ← UInt32.toNat_inj, UInt32.toNat_and, UInt32.toNat_shiftRight,
          UInt32.toNat_shiftRight, UInt32.toNat_ofNat', hi, Nat.testBit, Nat.shiftRight_add]
        simp [Nat.and_comm]
      rw [List.foldl_cons, ih _ fun g' hg' => hgs g' (List.mem_cons_of_mem _ hg'), List.map_cons,
        Bech32.feedback, ← Nat.xor_assoc]
      congr 1
      by_cases hb : chk.toNat.testBit (25 + g.2) = true
      · rw [if_pos (hbit.2 hb), if_pos hb, UInt32.toNat_xor]
      · rw [if_neg (hb ∘ hbit.1), if_neg hb, Nat.xor_zero]

theorem toNat_polymodStep (chk v : UInt32) :
    (polymodStep chk v).toNat = Bech32.step chk.toNat v.toNat := by
  have hmask : (chk.toNat &&& 0x1ffffff) <<< 5 < 2 ^ 32 := by
    rw [show (0x1ffffff : Nat) = 2 ^ 25 - 1 from rfl, Nat.and_two_pow_sub_one_eq_mod,
      Nat.shiftLeft_eq]
    omega
  rw [polymodStep, toNat_feedback _ _ _ (by decide), UInt32.toNat_xor, UInt32.toNat_shiftLeft,
    UInt32.toNat_and]
  change _ <<< 5 % 2 ^ 32 ^^^ _ ^^^ _ = _
  rw [show (0x1ffffff : UInt32).toNat = 0x1ffffff from rfl, Nat.mod_eq_of_lt hmask]
  rfl

theorem toNat_polymod (values : List UInt32) :
    (polymod values).toNat = Bech32.polymod (values.map UInt32.toNat) := by
  have hfold : ∀ (values : List UInt32) (chk : UInt32), (values.foldl polymodStep chk).toNat =
      (values.map UInt32.toNat).foldl Bech32.step chk.toNat := by
    intro values
    induction values with
    | nil => exact fun _ => rfl
    | cons v values ih =>
        intro chk
        rw [List.foldl_cons, ih, toNat_polymodStep]
        rfl
  exact hfold values 1

/-! ## The loop -/

/-- The mask keeps the lower bits. -/
def MaskOf (width : Nat) : Prop := (mask width).toNat = 2 ^ width - 1

/-- A digit only needs the lower bits of the accumulator. -/
theorem toNat_digit {accumulator : UInt32} {v b width : Nat} (hmask : MaskOf width)
    (hacc : accumulator.toNat = v % 2 ^ 32) (hb : b + width ≤ 32) (hw : 0 < width) :
    (accumulator >>> UInt32.ofNat b &&& mask width).toNat = v / 2 ^ b % 2 ^ width := by
  have hi : b % 2 ^ 32 % 32 = b := by omega
  rw [UInt32.toNat_and, hmask, Nat.and_two_pow_sub_one_eq_mod, UInt32.toNat_shiftRight,
    UInt32.toNat_ofNat', hi, hacc, Nat.shiftRight_eq_div_pow,
    show (2 : Nat) ^ 32 = 2 ^ b * 2 ^ (32 - b) by rw [← Nat.pow_add]; congr 1; omega,
    Nat.mod_mul_right_div_self]
  exact Nat.mod_mod_of_dvd _ (Nat.pow_dvd_pow 2 (by omega))

/-- The inner loop appends the digits that are complete. -/
theorem drain_spec {accumulator : UInt32} {v width : Nat} (hmask : MaskOf width)
    (hacc : accumulator.toNat = v % 2 ^ 32) (hw : 0 < width) {fuel bits : Nat}
    (hfuel : bits ≤ fuel) (hbits : bits ≤ 32) (n : Nat) :
    (drain accumulator width fuel bits).2 = bits % width ∧
      digits width n (v / 2 ^ bits) ++ (drain accumulator width fuel bits).1.map UInt32.toNat =
        digits width (n + bits / width) (v / 2 ^ (bits % width)) := by
  induction fuel generalizing bits n with
  | zero =>
      obtain rfl : bits = 0 := by omega
      simp [drain]
  | succ fuel ih =>
      by_cases hle : width ≤ bits
      · have hfuel : bits - width ≤ fuel := by omega
        obtain ⟨hleft, hdigits⟩ := ih hfuel (by omega) (n + 1)
        have hmod : (bits - width) % width = bits % width := (Nat.mod_eq_sub_mod hle).symm
        have hdiv : n + 1 + (bits - width) / width = n + bits / width := by
          rw [Nat.div_eq_sub_div hw hle]
          omega
        have hnext : v / 2 ^ (bits - width) / 2 ^ width = v / 2 ^ bits := by
          rw [Nat.div_div_eq_div_mul, ← Nat.pow_add]
          congr 2
          omega
        rw [hmod, hdiv, digits, hnext] at hdigits
        simp only [drain, if_pos hle, List.map_cons]
        rw [toNat_digit hmask hacc (by omega) hw, ← hdigits, List.append_assoc]
        exact ⟨hleft.trans hmod, rfl⟩
      · have hmod : bits % width = bits := Nat.mod_eq_of_lt (by omega)
        have hdiv : bits / width = 0 := Nat.div_eq_of_lt (by omega)
        simp [drain, hle, hmod, hdiv]

/-- The local variables after some digits of `w` bits. -/
structure Regrouping.After (w width : Nat) (ds : List Nat) (s : Regrouping) : Prop where
  accumulator : s.accumulator.toNat = value w ds % 2 ^ 32
  bits : s.bits = w * ds.length % width
  result : s.result.map UInt32.toNat =
    digits width (w * ds.length / width) (value w ds / 2 ^ (w * ds.length % width))

theorem Regrouping.after_nil (w width : Nat) : Regrouping.After w width [] ⟨0, 0, []⟩ := by
  constructor <;> simp [digits]

/-- The accumulator takes a digit in at its lower end. -/
theorem toNat_shiftLeft_or {accumulator d : UInt32} {v w : Nat}
    (hacc : accumulator.toNat = v % 2 ^ 32) (hw : w < 32) (hd : d.toNat < 2 ^ w) :
    (accumulator <<< UInt32.ofNat w ||| d).toNat = (v * 2 ^ w + d.toNat) % 2 ^ 32 := by
  have hi : w % 2 ^ 32 % 32 = w := by omega
  have hpow : (2 : Nat) ^ 32 = 2 ^ (32 - w) * 2 ^ w := by
    rw [← Nat.pow_add]
    congr 1
    omega
  have hlow : accumulator.toNat * 2 ^ w % 2 ^ 32 = v % 2 ^ (32 - w) * 2 ^ w := by
    rw [hacc, hpow, Nat.mul_mod_mul_right,
      Nat.mod_mod_of_dvd _ (Dvd.intro _ rfl : 2 ^ (32 - w) ∣ 2 ^ (32 - w) * 2 ^ w)]
  have hsum : (v * 2 ^ w + d.toNat) % 2 ^ 32 = v % 2 ^ (32 - w) * 2 ^ w + d.toNat := by
    have hlt : v % 2 ^ (32 - w) + 1 ≤ 2 ^ (32 - w) := Nat.mod_lt _ (Nat.two_pow_pos _)
    have hlt := Nat.mul_le_mul_right (2 ^ w) hlt
    rw [Nat.add_mul, ← hpow] at hlt
    rw [Nat.add_mod, hpow, Nat.mul_mod_mul_right, ← hpow, Nat.mod_eq_of_lt (a := d.toNat)
      (by omega), Nat.mod_eq_of_lt (by omega)]
  rw [UInt32.toNat_or, UInt32.toNat_shiftLeft, UInt32.toNat_ofNat', hi, Nat.shiftLeft_eq, hlow,
    hsum, ← Nat.shiftLeft_eq, Nat.shiftLeft_add_eq_or_of_lt hd]

theorem Regrouping.After.push {w width : Nat} {ds : List Nat} {s : Regrouping}
    (h : s.After w width ds) (hmask : MaskOf width) (hw : 0 < width) (hsum : w + width ≤ 32)
    {d : UInt32} (hd : d.toNat < 2 ^ w) : (s.push w width d).After w width (ds ++ [d.toNat]) := by
  have hacc := toNat_shiftLeft_or h.accumulator (by omega) hd
  rw [← value_concat] at hacc
  have hlt : s.bits < width := h.bits ▸ Nat.mod_lt _ hw
  have hdivmod := Nat.div_add_mod (w * ds.length) width
  rw [← h.bits] at hdivmod
  have hlen : w * (ds ++ [d.toNat]).length = s.bits + w + width * (w * ds.length / width) := by
    rw [List.length_append, List.length_singleton, Nat.mul_succ]
    omega
  have hmod : w * (ds ++ [d.toNat]).length % width = (s.bits + w) % width := by
    rw [hlen, Nat.add_mul_mod_self_left]
  have hdiv : w * (ds ++ [d.toNat]).length / width =
      w * ds.length / width + (s.bits + w) / width := by
    rw [hlen, Nat.add_mul_div_left _ _ hw, Nat.add_comm]
  have hbefore : value w ds / 2 ^ s.bits = value w (ds ++ [d.toNat]) / 2 ^ (s.bits + w) := by
    rw [value_concat, Nat.add_comm s.bits, Nat.pow_add, ← Nat.div_div_eq_div_mul,
      Nat.mul_comm (value w ds), Nat.mul_add_div (Nat.two_pow_pos w), Nat.div_eq_of_lt hd,
      Nat.add_zero]
  obtain ⟨hleft, hdigits⟩ := drain_spec hmask hacc hw (Nat.le_refl (s.bits + w)) (by omega)
    (w * ds.length / width)
  have hresult := h.result
  rw [← h.bits] at hresult
  refine ⟨hacc, hleft.trans hmod.symm, ?_⟩
  rw [hmod, hdiv, ← hdigits, ← hbefore, ← hresult]
  exact List.map_append

theorem Regrouping.after_foldl {w width : Nat} (hmask : MaskOf width) (hw : 0 < width)
    (hsum : w + width ≤ 32) {ds : List UInt32} (hds : Bounded w (ds.map UInt32.toNat)) :
    (ds.foldl (Regrouping.push w width) ⟨0, 0, []⟩).After w width (ds.map UInt32.toNat) := by
  induction ds using List.reverseRecOn with
  | nil => exact after_nil w width
  | append_singleton ds d ih =>
      rw [List.foldl_append, List.map_append]
      have ih := ih fun e he => hds e (by rw [List.map_append]; exact List.mem_append_left _ he)
      exact ih.push hmask hw hsum (hds _ (by simp))

/-- The left-over bits as the upper bits of a digit. -/
theorem Regrouping.After.toNat_last {w width : Nat} {ds : List Nat} {s : Regrouping}
    (h : s.After w width ds) (hmask : MaskOf width) (hw : 0 < width) (hlt : width < 32) :
    (s.last width).toNat = value w ds * 2 ^ (width - s.bits) % 2 ^ width := by
  have hi : (width - s.bits) % 2 ^ 32 % 32 = width - s.bits := by omega
  rw [last, UInt32.toNat_and, hmask, Nat.and_two_pow_sub_one_eq_mod, UInt32.toNat_shiftLeft,
    UInt32.toNat_ofNat', hi, Nat.shiftLeft_eq, h.accumulator,
    Nat.mod_mod_of_dvd _ (Nat.pow_dvd_pow 2 (by omega)), Nat.mul_mod,
    Nat.mod_mod_of_dvd _ (Nat.pow_dvd_pow 2 (by omega)), ← Nat.mul_mod]

/-! ## Decoding what was encoded -/

theorem convertWords_eq {words : List UInt32} (h : Bounded 5 (words.map UInt32.toNat)) :
    convertWords words 5 8 false =
      (let s := words.foldl (Regrouping.push 5 8) ⟨0, 0, []⟩
       do ensure (s.bits < 5 ∧ s.last 8 = 0) "Invalid Bech32m padding."
          return s.result.map UInt32.toUInt8) := by
  have hfold : ∀ (words : List UInt32) (s : Regrouping), Bounded 5 (words.map UInt32.toNat) →
      words.foldlM (fun s word => do
        ensure (word >>> UInt32.ofNat 5 = 0) "Invalid Bech32m data."
        return Regrouping.push 5 8 s word) s =
      (.ok (words.foldl (Regrouping.push 5 8) s) : Except String Regrouping) := by
    intro words
    induction words with
    | nil => exact fun _ _ => rfl
    | cons word words ih =>
        intro s hs
        have hword : word >>> UInt32.ofNat 5 = 0 := by
          have hlt := hs word.toNat (by simp)
          rw [← UInt32.toNat_inj, UInt32.toNat_shiftRight]
          change word.toNat >>> 5 = 0
          rw [Nat.shiftRight_eq_div_pow, Nat.div_eq_of_lt hlt]
        rw [List.foldlM_cons, ensure, if_pos hword]
        exact ih _ fun d hd => hs d (List.mem_cons_of_mem _ hd)
  rw [convertWords, hfold words _ h]
  simp [bind, Except.bind]

/-- The words of some bytes are regrouped into these bytes. -/
theorem convertWords_regroup {words : List UInt32} {bytes : List UInt8}
    (h : words.map UInt32.toNat = regroup 8 5 (bytes.map UInt8.toNat)) :
    convertWords words 5 8 false = .ok bytes := by
  have hbytes : Bounded 8 (bytes.map UInt8.toNat) := fun d hd => by
    obtain ⟨b, -, rfl⟩ := List.mem_map.1 hd
    exact b.toNat_lt
  have hwords : Bounded 5 (words.map UInt32.toNat) := h ▸ bounded_digits _ _ _
  have hafter : (words.foldl (Regrouping.push 5 8) ⟨0, 0, []⟩).After 5 8
      (words.map UInt32.toNat) := by
    have hmask : MaskOf 8 := rfl
    exact Regrouping.after_foldl hmask (by omega) (by omega) hwords
  rw [h] at hafter
  rw [convertWords_eq hwords]
  generalize words.foldl (Regrouping.push 5 8) ⟨0, 0, []⟩ = s at hafter ⊢
  obtain ⟨-, hmod⟩ := length_regroup (w := 8) (u := 5) (by omega) (by omega)
    (bytes.map UInt8.toNat)
  have hbits : s.bits = padding 5 (8 * (bytes.map UInt8.toNat).length) := hafter.bits.trans hmod
  have hlt : s.bits < 5 := hbits ▸ (groups_spec (u := 5) (by omega)).2
  have hlast : s.last 8 = 0 := by
    rw [← UInt32.toNat_inj, hafter.toNat_last rfl (by omega) (by omega),
      value_regroup (by omega) hbytes, ← hbits, Nat.mul_assoc, ← Nat.pow_add,
      Nat.add_sub_cancel' (by omega)]
    exact Nat.mul_mod_left _ _
  have hresult : s.result.map UInt32.toNat = bytes.map UInt8.toNat :=
    hafter.result.trans (truncate_regroup (by omega) (by omega) hbytes)
  have hmap : s.result.map UInt32.toUInt8 = bytes := by
    have := congrArg (List.map UInt8.ofNat) hresult
    rw [List.map_map, List.map_map] at this
    simpa [Function.comp_def] using this
  simp [ensure, hlt, hlast, hmap, bind, Except.bind, pure, Except.pure]

theorem splitLastOne_append {hrp data : List Char} (h : '1' ∉ data) :
    splitLastOne (hrp ++ '1' :: data) = some (hrp, data) := by
  have hnone : ∀ {data : List Char}, '1' ∉ data → splitLastOne data = none := by
    intro data
    induction data with
    | nil => exact fun _ => rfl
    | cons c data ih =>
        intro h
        rw [List.mem_cons, not_or] at h
        rw [splitLastOne, ih h.2]
        exact if_neg (Ne.symm h.1)
  induction hrp with
  | nil => rw [List.nil_append, splitLastOne, hnone h]; rfl
  | cons c hrp ih => rw [List.cons_append, splitLastOne, ih]

theorem mapM_characterValue {ds : List Nat} (h : Bounded 5 ds) :
    (ds.map Bech32.char).mapM characterValue = .ok (ds.map UInt32.ofNat) := by
  induction ds with
  | nil => rfl
  | cons d ds ih =>
      have hd : d < 32 := h d List.mem_cons_self
      have hchar : characterValue (Bech32.char d) = .ok (UInt32.ofNat d) := by
        have hmem : Bech32.char d ∈ charset := Bech32.char_mem d hd
        have hidx : charset.idxOf (Bech32.char d) = d := Bech32.idxOf_char d hd
        rw [characterValue, if_pos hmem, hidx]
      rw [List.map_cons, List.mapM_cons, hchar, ih fun e he => h e (List.mem_cons_of_mem _ he)]
      rfl

theorem length_le_utf16Length (l : List Char) : l.length ≤ utf16Length l := by
  induction l with
  | nil => rfl
  | cons c l ih =>
      have hc : 1 ≤ if c.val < 0x10000 then 1 else 2 := by split <;> omega
      rw [utf16Length, List.map_cons, List.sum_cons, List.length_cons]
      change _ ≤ _ + utf16Length l
      omega

theorem toLower_charset : ∀ c ∈ Bech32.charset, c.toLower = c := by
  have hall : Bech32.charset.all (fun c => c.toLower == c) = true := by decide
  intro c hc
  exact beq_iff_eq.1 (List.all_eq_true.1 hall c hc)

/-- The readable part is expanded as in the format. -/
theorem toNat_expandHrp {hrp : List Char} (h : ∀ c ∈ hrp, c.val < 0x10000) :
    (expandHrp hrp).map UInt32.toNat = Bech32.hrpExpand hrp := by
  have hcode : ∀ c ∈ hrp, (charCodeAt0 c).toNat = c.toNat := fun c hc => by
    rw [charCodeAt0, if_pos (h c hc)]
    rfl
  simp only [expandHrp, Bech32.hrpExpand, List.map_append, List.map_map]
  congr 1
  · congr 1
    refine List.map_congr_left fun c hc => ?_
    rw [Function.comp_apply, UInt32.toNat_shiftRight, hcode c hc]
    rfl
  · refine List.map_congr_left fun c hc => ?_
    rw [Function.comp_apply, UInt32.toNat_and, hcode c hc]
    rfl

/-- What the encoder of the format writes for some bytes the wallet reads back, under a readable
part in lower case. -/
theorem decodeBech32m_encodeBytes {hrp : List Char} (hne : hrp ≠ [])
    (hlower : ∀ c ∈ hrp, c.toLower = c) (hbmp : ∀ c ∈ hrp, c.val < 0x10000)
    (bytes : List UInt8) : decodeBech32m (Bech32.encodeBytes hrp bytes) hrp = .ok bytes := by
  let data := regroup 8 5 (bytes.map UInt8.toNat)
  let digits := data ++ Bech32.checksum hrp data
  have hbounded : Bounded 5 digits := fun d hd => by
    rcases List.mem_append.1 hd with hd | hd
    · exact bounded_digits _ _ _ d hd
    · exact Bech32.bounded_checksum hrp data d hd
  have hchars : ∀ c ∈ digits.map Bech32.char, c ∈ Bech32.charset := fun c hc => by
    obtain ⟨d, hd, rfl⟩ := List.mem_map.1 hc
    exact Bech32.char_mem d (hbounded d hd)
  have htext : Bech32.encodeBytes hrp bytes = hrp ++ '1' :: digits.map Bech32.char := rfl
  have hcase : hrp ++ '1' :: digits.map Bech32.char =
      toLowerCase (hrp ++ '1' :: digits.map Bech32.char) := by
    refine ((List.map_congr_left fun c hc => ?_).trans (List.map_id _)).symm
    rcases List.mem_append.1 hc with hc | hc
    · exact hlower c hc
    · rcases List.mem_cons.1 hc with rfl | hc
      · rfl
      · exact toLower_charset c (hchars c hc)
  have hsplit : splitLastOne (hrp ++ '1' :: digits.map Bech32.char) =
      some (hrp, digits.map Bech32.char) :=
    splitLastOne_append fun h => Bech32.one_not_mem_charset (hchars _ h)
  have hlen : 6 ≤ utf16Length (digits.map Bech32.char) := by
    refine Nat.le_trans ?_ (length_le_utf16Length _)
    rw [List.length_map, List.length_append, Bech32.length_checksum]
    omega
  have hvalues := mapM_characterValue hbounded
  have htoNat : (digits.map UInt32.ofNat).map UInt32.toNat = digits := by
    rw [List.map_map]
    refine (List.map_congr_left fun d hd => ?_).trans (List.map_id _)
    have hd : d < 32 := hbounded d hd
    rw [Function.comp_apply, UInt32.toNat_ofNat', Nat.mod_eq_of_lt (by omega)]
    rfl
  have hpolymod : polymod (expandHrp hrp ++ digits.map UInt32.ofNat) = 0x2bc830a3 := by
    rw [← UInt32.toNat_inj, toNat_polymod, List.map_append, htoNat, toNat_expandHrp hbmp,
      ← List.append_assoc]
    refine Bech32.polymod_checksum fun v hv => ?_
    rcases List.mem_append.1 hv with hv | hv
    · exact Bech32.hrpExpand_lt hrp v hv
    · have hv : v < 32 := bounded_digits _ _ _ v hv
      omega
  have hwords : ((digits.map UInt32.ofNat).take ((digits.map UInt32.ofNat).length - 6)).map
      UInt32.toNat = data := by
    rw [List.map_take, htoNat, List.length_map, List.length_append, Bech32.length_checksum,
      Nat.add_sub_cancel, List.take_left]
  rw [htext, decodeBech32m]
  simp only [ensure, if_pos hcase, hsplit, okOr, hne, ne_eq, not_false_eq_true, hlen, and_self,
    if_true, hvalues, hpolymod, bind, Except.bind, pure, Except.pure]
  exact convertWords_regroup hwords

/-- The decoder reads back the texts of addresses. -/
theorem decodeBech32m_kcoin (bytes : List UInt8) :
    decodeBech32m (Bech32.encodeBytes "kcoin".toList bytes) "kcoin".toList = .ok bytes := by
  have hall : ("kcoin".toList.all fun c => c.toLower == c && decide (c.val < 0x10000)) = true := by
    decide
  refine decodeBech32m_encodeBytes (by decide) (fun c hc => ?_) (fun c hc => ?_) bytes
  · exact beq_iff_eq.1 (Bool.and_eq_true_iff.1 (List.all_eq_true.1 hall c hc)).1
  · exact of_decide_eq_true (Bool.and_eq_true_iff.1 (List.all_eq_true.1 hall c hc)).2

end KCoin.Wallet
