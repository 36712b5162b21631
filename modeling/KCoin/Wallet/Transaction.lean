import Mathlib.Data.List.TakeWhile
import KCoin.Lib.Binary64
import KCoin.Node.Sample

/-!
# Transactions in the browser

The browser wallet writes the bytes it signs with an encoder of its own. For every submission that
the node can read it writes the signing bytes of the node's transaction, and with a signature the
transaction's identity (`wallet_agrees`): the two sides read decimal text, Base64 and addresses the
same way and lay the fields out the same way.
-/

open Borsh

namespace KCoin.Wallet

/-! ## The browser -/

/-- The white space that JavaScript strips from a number. -/
def isSpace (c : Char) : Bool :=
  let n := c.toNat
  (9 ≤ n && n ≤ 13) || n == 0x20 || n == 0xA0 || n == 0x1680 || (0x2000 ≤ n && n ≤ 0x200A) ||
    n == 0x2028 || n == 0x2029 || n == 0x202F || n == 0x205F || n == 0x3000 || n == 0xFEFF

def strip (l : List Char) : List Char :=
  ((l.dropWhile isSpace).reverse.dropWhile isSpace).reverse

/-- The value of a character as a digit. -/
def digitValue (c : Char) : Option Nat :=
  if c.isDigit then some (c.toNat - '0'.toNat)
  else if 'a' ≤ c.toLower ∧ c.toLower ≤ 'f' then some (c.toLower.toNat - 'a'.toNat + 10)
  else none

/-- A nonempty text of digits of some base. -/
def radixDigits (base : Nat) (text : List Char) : Option Nat :=
  if text = [] then none
  else text.foldlM (fun n c => (digitValue c).bind fun d =>
    if d < base then some (base * n + d) else none) 0

/-- A nonempty text of decimal digits. -/
def decimalDigits (text : List Char) : Option Nat :=
  if text ≠ [] ∧ text.all Char.isDigit then some (Nat.ofDigitChars 10 text 0) else none

/-- `BigInt(text)`, or nothing where it throws. -/
def bigInt (text : List Char) : Option Int :=
  match strip text with
  | [] => some 0
  | '0' :: 'x' :: rest | '0' :: 'X' :: rest => (radixDigits 16 rest).map Int.ofNat
  | '0' :: 'o' :: rest | '0' :: 'O' :: rest => (radixDigits 8 rest).map Int.ofNat
  | '0' :: 'b' :: rest | '0' :: 'B' :: rest => (radixDigits 2 rest).map Int.ofNat
  | '+' :: rest => (decimalDigits rest).map Int.ofNat
  | '-' :: rest => (decimalDigits rest).map fun n => -Int.ofNat n
  | rest => (decimalDigits rest).map Int.ofNat

/-- `atob(text)`: white space is skipped and padding may be left out. -/
def atob (text : List Char) : Option (List UInt8) :=
  let text := text.filter fun c => c ∉ ['\t', '\n', '\x0c', '\r', ' ']
  let text :=
    if text.length % 4 = 0 then
      if text.drop (text.length - 2) = ['=', '='] then text.take (text.length - 2)
      else if text.drop (text.length - 1) = ['='] then text.take (text.length - 1)
      else text
    else text
  if text.length % 4 = 1 then none else Base64.decodeBody text

/-- The exponent after the digits of a decimal number. -/
def decimalExponent : List Char → Option Int
  | [] => some 0
  | 'e' :: '+' :: rest | 'E' :: '+' :: rest => (decimalDigits rest).map Int.ofNat
  | 'e' :: '-' :: rest | 'E' :: '-' :: rest => (decimalDigits rest).map fun n => -Int.ofNat n
  | 'e' :: rest | 'E' :: rest => (decimalDigits rest).map Int.ofNat
  | _ => none

/-- A decimal number without a sign, as it is written. -/
def decimalNumber (text : List Char) : Option ℚ :=
  let whole := text.takeWhile Char.isDigit
  let rest := text.dropWhile Char.isDigit
  let (fraction, rest) := match rest with
    | '.' :: rest => (rest.takeWhile Char.isDigit, rest.dropWhile Char.isDigit)
    | _ => ([], rest)
  if whole = [] ∧ fraction = [] then none
  else (decimalExponent rest).map fun e =>
    (Nat.ofDigitChars 10 (whole ++ fraction) 0 : ℚ) * 10 ^ (e - (fraction.length : Int))

/-- `Number(text)`, where it is a finite number. -/
def number (text : List Char) : Option ℚ :=
  match strip text with
  | [] => some 0
  | '0' :: 'x' :: rest | '0' :: 'X' :: rest => (radixDigits 16 rest).bind fun n => Binary64.round n
  | '0' :: 'o' :: rest | '0' :: 'O' :: rest => (radixDigits 8 rest).bind fun n => Binary64.round n
  | '0' :: 'b' :: rest | '0' :: 'B' :: rest => (radixDigits 2 rest).bind fun n => Binary64.round n
  | '+' :: rest => (decimalNumber rest).bind Binary64.round
  | '-' :: rest => ((decimalNumber rest).bind Binary64.round).map fun q => -q
  | rest => (decimalNumber rest).bind Binary64.round

/-- What a view of 16-bit integers stores of a number: its fraction is cut off, and what is not
finite becomes zero. -/
def toUint16 : Option ℚ → Nat
  | some q => ((if q < 0 then -⌊-q⌋ else ⌊q⌋) % 2 ^ 16).toNat
  | none => 0

/-! ## The encoder -/

def transactionSignaturePrefix : List UInt8 := utf8 "KCOIN_TX_V1\x00"

def u8 (value : UInt8) : List UInt8 := [value]

def u16 (value : Option ℚ) : List UInt8 := leBytes 2 (toUint16 value)

def u32 (value : Nat) : List UInt8 := leBytes 4 (value % 2 ^ 32)

def u64 (value : String) : Except String (List UInt8) := do
  let n ← okOr "SyntaxError" (bigInt value.toList)
  return leBytes 8 (n % 2 ^ 64).toNat

def string (value : String) : List UInt8 :=
  let bytes := utf8 value
  u32 bytes.length ++ bytes

def decodeBase64 (value : String) : Except String (List UInt8) :=
  okOr "InvalidCharacterError" (atob value.toList)

def actionBytes : ActionSubmission → Except String (List UInt8)
  | .transfer recipient amountAtoms => do
    let recipient ← decodeBech32m recipient.toList "kcoin".toList
    ensure (recipient.length = 20) "Recipient must be a canonical KCoin address."
    let amount ← u64 amountAtoms
    return u8 0 ++ recipient ++ amount
  | .claimReward challengeId answer => do
    let challenge ← u64 challengeId
    return u8 1 ++ challenge ++ u16 (number answer.toList)
  | .setDisplayName none => return u8 2 ++ u8 0
  | .setDisplayName (some name) => return u8 2 ++ u8 1 ++ string name

def canonicalTransactionBytes (t : UnsignedSubmission) : Except String (List UInt8) := do
  let action ← actionBytes t.action
  let key ← decodeBase64 t.senderPublicKey
  let nonce ← u64 t.nonce
  let expiryHeight ← u64 t.expiryHeight
  return transactionSignaturePrefix ++ u16 (some t.protocolVersion.toNat) ++ string t.chainId ++ key ++
    nonce ++ expiryHeight ++ action

/-- `byte.toString(16).padStart(2, '0')` -/
def byteText (b : UInt8) : List Char :=
  let digits := Nat.toDigits 16 b.toNat
  List.replicate (2 - digits.length) '0' ++ digits

def signedTransactionId [Primitives] (t : TransactionSubmission) : Except String String := do
  let bytes ← canonicalTransactionBytes t.toUnsignedSubmission
  let unsigned := bytes.drop transactionSignaturePrefix.length
  let signature ← decodeBase64 t.signature
  let digest := Primitives.blake3 "kcoin.dev/v1/transaction-id" (unsigned ++ signature)
  return String.ofList (digest.toList.flatMap byteText)

/-! ## Reading text -/

/-- The node reads decimal digits with or without a plus sign. -/
theorem parseU64_eq_some {text : List Char} {n : UInt64} (h : Store.parseU64 text = some n) :
    ∃ sign digits, (sign = [] ∨ sign = ['+']) ∧ text = sign ++ digits ∧
      decimalDigits digits = some n.toNat := by
  have hdigits : ∀ digits : List Char,
      (if digits ≠ [] ∧ digits.all Char.isDigit ∧ Nat.ofDigitChars 10 digits 0 < 2 ^ 64 then
        some (UInt64.ofNat (Nat.ofDigitChars 10 digits 0)) else none) = some n →
      decimalDigits digits = some n.toNat := by
    intro digits h
    split at h
    · next hd =>
        cases h
        rw [decimalDigits, if_pos ⟨hd.1, hd.2.1⟩, UInt64.toNat_ofNat',
          Nat.mod_eq_of_lt hd.2.2]
    · cases h
  unfold Store.parseU64 at h
  dsimp only at h
  split at h
  · next rest => exact ⟨['+'], rest, .inr rfl, rfl, hdigits rest h⟩
  · exact ⟨[], text, .inl rfl, rfl, hdigits text h⟩

theorem decimalDigits_eq_some {digits : List Char} {n : Nat} (h : decimalDigits digits = some n) :
    digits ≠ [] ∧ ∀ c ∈ digits, c.isDigit := by
  unfold decimalDigits at h
  split at h
  · next hd => exact ⟨hd.1, List.all_eq_true.1 hd.2⟩
  · cases h

theorem isSpace_of_isDigit {c : Char} (h : c.isDigit = true ∨ c = '+') : isSpace c = false := by
  rcases h with h | rfl
  · have hle : 48 ≤ c.toNat ∧ c.toNat ≤ 57 := by
      simp only [Char.isDigit, Bool.and_eq_true, decide_eq_true_eq] at h
      exact h
    simp only [isSpace, Bool.or_eq_false_iff, Bool.and_eq_false_iff, decide_eq_false_iff_not,
      beq_eq_false_iff_ne]
    omega
  · rfl

/-- Text without white space is not changed. -/
theorem strip_eq {text : List Char} (h : ∀ c ∈ text, isSpace c = false) : strip text = text := by
  have hdrop : ∀ {l : List Char}, (∀ c ∈ l, isSpace c = false) → l.dropWhile isSpace = l := by
    intro l hl
    cases l with
    | nil => rfl
    | cons c l => simp [hl c List.mem_cons_self]
  rw [strip, hdrop h, hdrop fun c hc => h c (List.mem_reverse.1 hc), List.reverse_reverse]

/-- Decimal digits with or without a plus sign have no white space and are of no other base. -/
theorem strip_digits {sign digits : List Char} {n : Nat} (hsign : sign = [] ∨ sign = ['+'])
    (hn : decimalDigits digits = some n) : strip (sign ++ digits) = sign ++ digits := by
  refine strip_eq fun c hc => isSpace_of_isDigit ?_
  rcases List.mem_append.1 hc with hc | hc
  · rcases hsign with rfl | rfl
    · cases hc
    · exact .inr (List.mem_singleton.1 hc)
  · exact .inl ((decimalDigits_eq_some hn).2 c hc)

/-- The browser reads the same number. -/
theorem bigInt_eq {sign digits : List Char} {n : Nat} (hsign : sign = [] ∨ sign = ['+'])
    (hn : decimalDigits digits = some n) : bigInt (sign ++ digits) = some (n : Int) := by
  obtain ⟨hne, hdigits⟩ := decimalDigits_eq_some hn
  have hdecimal : (decimalDigits digits).map Int.ofNat = some (n : Int) := by
    rw [hn]
    rfl
  rw [bigInt, strip_digits hsign hn]
  rcases hsign with rfl | rfl
  · -- the second character is a digit too, so the text is of no other base
    rw [List.nil_append]
    split <;> simp_all
  · exact hdecimal

theorem decimalNumber_eq {digits : List Char} {n : Nat} (h : decimalDigits digits = some n) :
    decimalNumber digits = some (n : ℚ) := by
  obtain ⟨hne, hdigits⟩ := decimalDigits_eq_some h
  have hvalue : Nat.ofDigitChars 10 digits 0 = n := by
    rw [decimalDigits, if_pos ⟨hne, List.all_eq_true.2 hdigits⟩] at h
    exact Option.some_injective _ h
  have hwhole : digits.takeWhile Char.isDigit = digits :=
    List.takeWhile_eq_self_iff.2 hdigits
  have hrest : digits.dropWhile Char.isDigit = [] := List.dropWhile_eq_nil_iff.2 hdigits
  simp [decimalNumber, hwhole, hrest, hne, decimalExponent, hvalue]

/-- A number that a double holds is read without loss. -/
theorem number_eq {sign digits : List Char} {n : Nat} (hsign : sign = [] ∨ sign = ['+'])
    (hn : decimalDigits digits = some n) (hlt : n < 2 ^ 53) :
    number (sign ++ digits) = some (n : ℚ) := by
  obtain ⟨hne, hdigits⟩ := decimalDigits_eq_some hn
  have hdecimal : (decimalNumber digits).bind Binary64.round = some (n : ℚ) := by
    rw [decimalNumber_eq hn]
    exact Binary64.round_natCast hlt
  rw [number, strip_digits hsign hn]
  rcases hsign with rfl | rfl
  · rw [List.nil_append]
    split <;> simp_all
  · exact hdecimal

theorem u64_eq {text : String} {n : UInt64} (h : Store.parseU64 text.toList = some n) :
    u64 text = .ok (encode n) := by
  obtain ⟨sign, digits, hsign, htext, hn⟩ := parseU64_eq_some h
  have hmod : ((n.toNat : Int) % 2 ^ 64).toNat = n.toNat := by
    have := n.toNat_lt
    omega
  rw [u64, htext, bigInt_eq hsign hn]
  change Except.ok (leBytes 8 ((n.toNat : Int) % 2 ^ 64).toNat) = _
  rw [hmod]
  rfl

/-- Padding is removed from a text that has none before its end. -/
theorem atob_pads {body : List Char} {p : Nat} (hp : p < 3) (hlen : (body.length + p) % 4 = 0)
    (hbody : ∀ c ∈ body, c ∈ Base64.alphabet) :
    atob (body ++ List.replicate p '=') = Base64.decodeBody body := by
  have hspace : Base64.alphabet.all
      (fun c => !(['\t', '\n', '\x0c', '\r', ' '].contains c)) = true := by decide +kernel
  have hfilter : (body ++ List.replicate p '=').filter
      (fun c => c ∉ ['\t', '\n', '\x0c', '\r', ' ']) = body ++ List.replicate p '=' := by
    refine List.filter_eq_self.2 fun c hc => decide_eq_true ?_
    rcases List.mem_append.1 hc with hc | hc
    · have hc := List.all_eq_true.1 hspace c (hbody c hc)
      rwa [Bool.not_eq_true', List.contains_eq_mem, decide_eq_false_iff_not] at hc
    · rw [List.eq_of_mem_replicate hc]
      decide
  have hpad : '=' ∉ body := fun h => Base64.pad_not_mem (hbody _ h)
  have hcount : (body ++ List.replicate p '=').count '=' = p := by
    rw [List.count_append, List.count_eq_zero.2 hpad, List.count_replicate_self, Nat.zero_add]
  have hfull : (body ++ List.replicate p '=').length = body.length + p := by simp
  have htail : ∀ k, ((body ++ List.replicate p '=').drop k).count '=' ≤ p := fun k =>
    Nat.le_trans ((List.drop_sublist k _).count_le '=') hcount.le
  unfold atob
  simp only [hfilter, hfull, hlen, if_true]
  rcases (by omega : p = 0 ∨ p = 1 ∨ p = 2) with rfl | rfl | rfl
  · have h2 : (body ++ List.replicate 0 '=').drop (body.length + 0 - 2) ≠ ['=', '='] := fun h => by
      have := htail (body.length + 0 - 2)
      rw [h] at this
      exact absurd this (by decide)
    have h1 : (body ++ List.replicate 0 '=').drop (body.length + 0 - 1) ≠ ['='] := fun h => by
      have := htail (body.length + 0 - 1)
      rw [h] at this
      exact absurd this (by decide)
    rw [if_neg h2, if_neg h1, if_neg (by rw [hfull]; omega)]
    simp
  · have h2 : (body ++ List.replicate 1 '=').drop (body.length + 1 - 2) ≠ ['=', '='] := fun h => by
      have := htail (body.length + 1 - 2)
      rw [h] at this
      exact absurd this (by decide)
    have h1 : (body ++ List.replicate 1 '=').drop (body.length + 1 - 1) = ['='] :=
      List.drop_left
    have htake : (body ++ List.replicate 1 '=').take (body.length + 1 - 1) = body := List.take_left
    rw [if_neg h2, if_pos h1, htake, if_neg (by omega)]
  · have h2 : (body ++ List.replicate 2 '=').drop (body.length + 2 - 2) = ['=', '='] :=
      List.drop_left
    have htake : (body ++ List.replicate 2 '=').take (body.length + 2 - 2) = body := List.take_left
    rw [if_pos h2, htake, if_neg (by omega)]

/-- Canonical Base64 is read by the browser. -/
theorem atob_encode (bytes : List UInt8) : atob (Base64.encode bytes) = some bytes := by
  have hchars : ∀ c ∈ (Base64.body bytes).map Base64.char, c ∈ Base64.alphabet := fun c hc => by
    obtain ⟨d, hd, rfl⟩ := List.mem_map.1 hc
    rw [Base64.char_eq (Base64.bounded_body bytes d hd)]
    exact List.get_mem _ _
  have hlen : (((Base64.body bytes).map Base64.char).length + Base64.pads bytes.length) % 4 = 0 := by
    rw [List.length_map, Base64.body, Digits.regroup, Digits.length_digits, List.length_map,
      Digits.groups, Base64.pads]
    -- three bytes are four digits
    obtain ⟨k, r, hr, hk⟩ : ∃ k r, r < 3 ∧ bytes.length = 3 * k + r :=
      ⟨bytes.length / 3, bytes.length % 3, Nat.mod_lt _ (by omega), by omega⟩
    rw [hk]
    rcases (by omega : r = 0 ∨ r = 1 ∨ r = 2) with rfl | rfl | rfl <;> omega
  have hpads : Base64.pads bytes.length < 3 := Nat.mod_lt _ (by omega)
  rw [Base64.encode, atob_pads hpads hlen hchars, Base64.decodeBody_body]

theorem decodeBase64_eq [Encodings] {n : Nat} {text field : String} {bytes : Bytes n}
    (h : decodeFixed n text field = .ok bytes) : decodeBase64 text = .ok bytes.toList := by
  obtain ⟨bs, hd, hb⟩ := Except.bind_eq_ok.1 h
  have htext := Encodings.base64Decode_eq_some.1 (Except.okOr_eq_ok.1 hd)
  have hbytes := Bytes.ofList_eq_some.1 (Except.okOr_eq_ok.1 hb)
  rw [decodeBase64, htext, atob_encode, ← hbytes]
  rfl

/-! ## Writing fields -/

theorem u16_eq (n : UInt16) : u16 (some (n.toNat : ℚ)) = encode n := by
  have hmod : ((n.toNat : Int) % 2 ^ 16).toNat = n.toNat := by
    have := n.toNat_lt
    omega
  have hpos : ¬(n.toNat : ℚ) < 0 := not_lt.2 (Nat.cast_nonneg _)
  rw [u16, toUint16, if_neg hpos, Int.floor_natCast, hmod]
  rfl

theorem string_eq (value : String) : string value = encode value := by
  rw [string, u32, encode_string]
  exact congrArg (· ++ utf8 value) (leBytes_mod 4 _)

theorem byteText_eq : ∀ n < 256, byteText (UInt8.ofNat n) =
    [hexDigit ((UInt8.ofNat n).toNat / 16), hexDigit ((UInt8.ofNat n).toNat % 16)] := by
  decide +kernel

theorem flatMap_byteText (bytes : List UInt8) :
    String.ofList (bytes.flatMap byteText) = hexEncode bytes := by
  have hbyte : ∀ b : UInt8, byteText b = [hexDigit (b.toNat / 16), hexDigit (b.toNat % 16)] :=
    fun b => by simpa using byteText_eq b.toNat b.toNat_lt
  rw [hexEncode]
  exact congrArg String.ofList (List.flatMap_congr fun b _ => hbyte b)

/-! ## Agreement -/

theorem decodeBech32m_eq [Encodings] {text : String} {a : Address}
    (h : Address.fromStr text = .ok a) :
    decodeBech32m text.toList "kcoin".toList = .ok a.bytes.toList := by
  obtain ⟨⟨hrp, decoded⟩, -, h⟩ := Except.bind_eq_ok.1 h
  obtain ⟨_, -, h⟩ := Except.bind_eq_ok.1 h
  obtain ⟨bytes, -, h⟩ := Except.bind_eq_ok.1 h
  obtain ⟨_, htext, h⟩ := Except.bind_eq_ok.1 h
  obtain rfl := Except.pure_eq_ok.1 h
  rw [← Except.ensure_eq_ok.1 htext, Encodings.addressToText_eq]
  exact decodeBech32m_kcoin _

theorem u64_field {text field : String} {n : UInt64} (h : parseU64Field text field = .ok n) :
    u64 text = .ok (encode n) :=
  u64_eq (Except.okOr_eq_ok.1 h)

/-- A number of 16 bits is read without loss. -/
theorem number_of_parseU16 {text : List Char} {n : UInt16} (h : parseU16 text = some n) :
    number text = some (n.toNat : ℚ) := by
  obtain ⟨wide, hwide, h⟩ := Option.bind_eq_some_iff.1 h
  split at h
  · next hlt =>
      cases h
      obtain ⟨sign, digits, hsign, rfl, hn⟩ := parseU64_eq_some hwide
      have hnat : (UInt16.ofNat wide.toNat).toNat = wide.toNat := by
        rw [UInt16.toNat_ofNat', Nat.mod_eq_of_lt hlt]
      rw [hnat]
      exact number_eq hsign hn (by omega)
  · cases h

theorem actionBytes_eq [Encodings] {s : ActionSubmission} {a : TransactionAction}
    (h : actionFromSubmission s = .ok a) : actionBytes s = .ok (encode a) := by
  cases s with
  | transfer recipient amount =>
      obtain ⟨r, hr, h⟩ := Except.bind_eq_ok.1 h
      obtain ⟨n, hn, h⟩ := Except.bind_eq_ok.1 h
      obtain rfl := Except.pure_eq_ok.1 h
      have hr := decodeBech32m_eq (Except.mapError_eq_ok.1 hr)
      have hlen : r.bytes.toList.length = 20 := r.bytes.length_toList
      rw [actionBytes, hr, u64_field hn]
      refine Except.bind_eq_ok.2 ⟨r.bytes.toList, rfl, Except.bind_eq_ok.2 ⟨(), ?_, ?_⟩⟩
      · exact Except.ensure_eq_ok.2 hlen
      · rfl
  | claimReward challenge answer =>
      obtain ⟨n, hn, h⟩ := Except.bind_eq_ok.1 h
      obtain ⟨m, hm, h⟩ := Except.bind_eq_ok.1 h
      obtain rfl := Except.pure_eq_ok.1 h
      rw [actionBytes, u64_field hn, number_of_parseU16 (Except.okOr_eq_ok.1 hm), u16_eq]
      rfl
  | setDisplayName name =>
      obtain rfl := Except.pure_eq_ok.1 h
      cases name with
      | none => rfl
      | some name =>
          rw [actionBytes, string_eq]
          rfl

theorem canonicalTransactionBytes_eq [Encodings] {s : UnsignedSubmission} {key : Bytes 32}
    {field : String} {u : UnsignedTransaction}
    (hkey : decodeFixed 32 s.senderPublicKey field = .ok key)
    (hu : unsignedFromSubmission s key = .ok u) :
    canonicalTransactionBytes s = .ok u.signingBytes := by
  obtain ⟨chainId, hchain, hu⟩ := Except.bind_eq_ok.1 hu
  obtain ⟨nonce, hnonce, hu⟩ := Except.bind_eq_ok.1 hu
  obtain ⟨expiryHeight, hexpiry, hu⟩ := Except.bind_eq_ok.1 hu
  obtain ⟨action, haction, hu⟩ := Except.bind_eq_ok.1 hu
  obtain rfl := Except.pure_eq_ok.1 hu
  obtain ⟨_, -, hchain⟩ := Except.bind_eq_ok.1 (Except.mapError_eq_ok.1 hchain)
  obtain rfl := Except.pure_eq_ok.1 hchain
  have hprefix : transactionSignaturePrefix = txSignaturePrefix := rfl
  rw [canonicalTransactionBytes, actionBytes_eq haction, decodeBase64_eq hkey, u64_field hnonce,
    u64_field hexpiry, string_eq, hprefix]
  -- the fields stand in the same order, grouped to the other side
  change Except.ok _ = Except.ok (txSignaturePrefix ++ _)
  rw [u16_eq]
  simp only [List.append_assoc]
  rfl

section
variable [Primitives]

/-- For every submission that the node can read, the wallet signs the bytes of the node's
transaction, and with a signature it shows the transaction's identity. -/
theorem wallet_agrees [Encodings] (s : TransactionSubmission) (key : Bytes 32)
    (u : UnsignedTransaction)
    (hkey : decodeFixed 32 s.senderPublicKey "sender_public_key" = .ok key)
    (hu : unsignedFromSubmission s.toUnsignedSubmission key = .ok u) :
    canonicalTransactionBytes s.toUnsignedSubmission = .ok u.signingBytes ∧
      ∀ signature : Bytes 64, decodeFixed 64 s.signature "signature" = .ok signature →
        signedTransactionId s = .ok (SignedTransaction.mk u signature).id.toText := by
  have hbytes := canonicalTransactionBytes_eq hkey hu
  refine ⟨hbytes, fun signature hsignature => ?_⟩
  have hunsigned : u.signingBytes.drop transactionSignaturePrefix.length = encode u :=
    List.drop_left
  rw [signedTransactionId, hbytes, decodeBase64_eq hsignature]
  change Except.ok (String.ofList _) = _
  rw [hunsigned, flatMap_byteText]
  rfl

end

/-- A transfer with its numbers written in more than one way. -/
def sampleTransfer : TransactionSubmission where
  protocolVersion := 1
  chainId := "kcoin-local"
  senderPublicKey := "6kpsY+KcUgq+9VB7Ey7F+ZVHdq6+vnuSQh7qaRRG0iw="
  nonce := "7"
  expiryHeight := "0042"
  action := .transfer "kcoin1dzhfuwwte062wyyudfmjtw2kwcl58dhal34n8a" "+12345678"
  signature := "3Q2ZeUk4uYExDBhGoMchz2+J9lwi0Ao6K+lElwVAx3oCh1wRIKJLrZqK+500e0/D19iRMJA0DUBQ4O/R60" ++
    "mgCw=="

def sampleSender : Bytes 32 :=
  ⟨[234, 74, 108, 99, 226, 156, 82, 10, 190, 245, 80, 123, 19, 46, 197, 249, 149, 71, 118, 174,
    190, 190, 123, 146, 66, 30, 234, 105, 20, 70, 210, 44], rfl⟩

def sampleUnsigned : UnsignedTransaction where
  protocolVersion := 1
  chainId := Sample.chainId
  senderPublicKey := sampleSender
  nonce := 7
  expiryHeight := 42
  action := .transfer ⟨⟨[104, 174, 158, 57, 203, 203, 244, 167, 16, 156, 106, 119, 37, 185, 86, 118,
    63, 67, 182, 253], rfl⟩⟩ 12345678

def sampleSignature : Bytes 64 :=
  ⟨[221, 13, 153, 121, 73, 56, 185, 129, 49, 12, 24, 70, 160, 199, 33, 207, 111, 137, 246, 92, 34,
    208, 10, 58, 43, 233, 68, 151, 5, 64, 199, 122, 2, 135, 92, 17, 32, 162, 75, 173, 154, 138, 251,
    157, 52, 123, 79, 195, 215, 216, 145, 48, 144, 52, 13, 64, 80, 224, 239, 209, 235, 73, 160, 11],
    rfl⟩

open scoped Sample in
theorem wallet_agrees_transfer :
    canonicalTransactionBytes sampleTransfer.toUnsignedSubmission =
        .ok sampleUnsigned.signingBytes ∧
      signedTransactionId sampleTransfer =
        .ok (SignedTransaction.mk sampleUnsigned sampleSignature).id.toText := by
  obtain ⟨hbytes, hid⟩ := wallet_agrees sampleTransfer sampleSender sampleUnsigned
    (by decide +kernel) (by decide +kernel)
  exact ⟨hbytes, hid sampleSignature (by decide +kernel)⟩

end KCoin.Wallet
