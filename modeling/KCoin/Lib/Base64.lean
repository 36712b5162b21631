import KCoin.Lib.Digits

/-!
# Base64

The text format of RFC 4648 with padding: bytes regrouped into digits of six bits. A text is
canonical when it is the encoding of its bytes, that is when it has all its padding and no bit is
set beyond the last byte.
-/

namespace Base64

/-- The characters of the digits. -/
def alphabet : List Char :=
  "ABCDEFGHIJKLMNOPQRSTUVWXYZabcdefghijklmnopqrstuvwxyz0123456789+/".toList

def char (d : Nat) : Char := alphabet.getD d 'A'

/-- The digit of a character. -/
def digit (c : Char) : Option Nat := if c ∈ alphabet then some (alphabet.idxOf c) else none

/-- The number of padding characters after a number of bytes. -/
def pads (n : Nat) : Nat := (3 - n % 3) % 3

/-- The digits of some bytes. -/
def body (bytes : List UInt8) : List Nat := Digits.regroup 8 6 (bytes.map UInt8.toNat)

def encode (bytes : List UInt8) : List Char :=
  (body bytes).map char ++ List.replicate (pads bytes.length) '='

/-- The bytes of some characters of digits, without the bits that do not fill a byte. -/
def decodeBody (text : List Char) : Option (List UInt8) :=
  (text.mapM digit).map fun ds => (Digits.truncate 6 8 ds).map UInt8.ofNat

/-- The bytes of a canonical text. -/
def decode (text : List Char) : Option (List UInt8) :=
  (decodeBody (text.takeWhile (· ≠ '='))).filter fun bytes => encode bytes = text

theorem nodup_alphabet : alphabet.Nodup := by decide +kernel

theorem char_eq {d : Nat} (h : d < alphabet.length) : char d = alphabet.get ⟨d, h⟩ := by
  rw [char, List.getD_eq_getElem?_getD, List.getElem?_eq_getElem h]
  rfl

theorem digit_char {d : Nat} (h : d < 64) : digit (char d) = some d := by
  rw [digit, char_eq h, if_pos (List.get_mem _ _)]
  exact congrArg some (nodup_alphabet.idxOf_getElem d h)

theorem pad_not_mem : '=' ∉ alphabet := by decide +kernel

theorem char_ne_pad {d : Nat} (h : d < 64) : char d ≠ '=' := by
  rw [char_eq h]
  intro he
  exact pad_not_mem (he ▸ List.get_mem _ _)

theorem bounded_bytes (bytes : List UInt8) : Digits.Bounded 8 (bytes.map UInt8.toNat) := by
  intro d hd
  obtain ⟨b, -, rfl⟩ := List.mem_map.1 hd
  exact b.toNat_lt

theorem bounded_body (bytes : List UInt8) : Digits.Bounded 6 (body bytes) :=
  Digits.bounded_digits _ _ _

theorem mapM_digit {ds : List Nat} (h : Digits.Bounded 6 ds) :
    (ds.map char).mapM digit = some ds := by
  induction ds with
  | nil => rfl
  | cons d ds ih =>
      have hd := digit_char (h d List.mem_cons_self)
      have ih := ih fun e he => h e (List.mem_cons_of_mem _ he)
      rw [List.map_cons, List.mapM_cons, hd, ih]
      rfl

/-- The digits of some bytes are read back as these bytes. -/
theorem decodeBody_body (bytes : List UInt8) :
    decodeBody ((body bytes).map char) = some bytes := by
  rw [decodeBody, mapM_digit (bounded_body bytes), Option.map_some, body,
    Digits.truncate_regroup (by omega) (by omega) (bounded_bytes bytes), List.map_map]
  simp [Function.comp_def]

theorem takeWhile_encode (bytes : List UInt8) :
    (encode bytes).takeWhile (· ≠ '=') = (body bytes).map char := by
  have hbody : ∀ c ∈ (body bytes).map char, decide (c ≠ '=') = true := fun c hc => by
    obtain ⟨d, hd, rfl⟩ := List.mem_map.1 hc
    simpa using char_ne_pad (bounded_body bytes d hd)
  rw [encode, List.takeWhile_append_of_pos hbody]
  cases pads bytes.length <;> simp [List.replicate_succ]

/-- A text is canonical exactly when it is the encoding of its bytes. -/
theorem decode_eq_some {text : List Char} {bytes : List UInt8} :
    decode text = some bytes ↔ text = encode bytes := by
  constructor
  · intro h
    obtain ⟨-, h⟩ := Option.filter_eq_some_iff.1 h
    exact (of_decide_eq_true h).symm
  · rintro rfl
    rw [decode, takeWhile_encode, decodeBody_body]
    simp

end Base64
