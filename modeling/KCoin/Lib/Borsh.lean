import KCoin.Lib.Bytes

/-!
# The Borsh binary format

`Borsh α` is a binary codec of the format Borsh 1.x: an encoder, a decoder that reads a
value off the front of its input, and the two laws that make the format canonical. Lengths
are written as 32-bit prefixes, so the round trip holds of the values whose lengths fit
(`Borsh.Fits`); the decoder only ever returns such values, and it accepts exactly one
encoding of each.

The instances follow the format: little-endian integers, raw fixed-length arrays,
length-prefixed strings, lists, maps and sets, a one-byte tag before an option or a variant,
and the fields of a record one after the other.
-/

/-- A binary codec whose decoder inverts its encoder and accepts nothing else. -/
class Borsh (α : Type) where
  encode : α → List UInt8
  decode : List UInt8 → Option (α × List UInt8)
  /-- Every length in the value fits its 32-bit prefix. -/
  Fits : α → Prop
  decode_encode : ∀ {a : α} (rest : List UInt8), Fits a →
    decode (encode a ++ rest) = some (a, rest)
  decode_sound : ∀ {bs rest : List UInt8} {a : α}, decode bs = some (a, rest) →
    Fits a ∧ bs = encode a ++ rest

namespace Borsh

variable {α β : Type}

/-- Decode a whole input: what is left after the value must be empty. -/
def tryFromSlice (α : Type) [Borsh α] (bs : List UInt8) : Option α :=
  match decode bs with
  | some (a, []) => some a
  | _ => none

/-- The decoder inverts the encoder. -/
theorem tryFromSlice_encode [Borsh α] {a : α} (h : Fits a) :
    tryFromSlice α (encode a) = some a := by
  have := decode_encode [] h
  rw [List.append_nil] at this
  simp [tryFromSlice, this]

/-- What the decoder accepts is the encoding of what it returns. -/
theorem tryFromSlice_sound [Borsh α] {bs : List UInt8} {a : α}
    (h : tryFromSlice α bs = some a) : Fits a ∧ bs = encode a := by
  unfold tryFromSlice at h
  split at h
  · rename_i b hb
    cases h
    obtain ⟨hf, rfl⟩ := decode_sound hb
    exact ⟨hf, by simp⟩
  · cases h

/-- Encode a value, unless one of its lengths does not fit its prefix: then it does not decode
again. -/
def toVec [Borsh α] [DecidableEq α] (a : α) : Option (List UInt8) :=
  if tryFromSlice α (encode a) = some a then some (encode a) else none

theorem toVec_eq_some [Borsh α] [DecidableEq α] {a : α} {bs : List UInt8} :
    toVec a = some bs ↔ Fits a ∧ bs = encode a := by
  unfold toVec
  constructor
  · intro h
    split at h
    · next ha =>
        cases h
        exact ⟨(tryFromSlice_sound ha).1, rfl⟩
    · cases h
  · rintro ⟨hf, rfl⟩
    rw [if_pos (tryFromSlice_encode hf)]

/-- Two encodings that agree up to what follows them are encodings of one value. -/
theorem encode_append_inj [Borsh α] {a b : α} {r s : List UInt8} (ha : Fits a) (hb : Fits b)
    (h : encode a ++ r = encode b ++ s) : a = b ∧ r = s := by
  have := (decode_encode r ha).symm.trans (h ▸ decode_encode s hb)
  simpa using this

/-- The encoder is injective on the values that fit. -/
theorem encode_inj [Borsh α] {a b : α} (ha : Fits a) (hb : Fits b)
    (h : encode a = encode b) : a = b :=
  (encode_append_inj (r := []) (s := []) ha hb (by simp [h])).1

/-- Values with the same bytes are the same. -/
theorem toVec_inj [Borsh α] [DecidableEq α] {a b : α} {bs : List UInt8}
    (ha : toVec a = some bs) (hb : toVec b = some bs) : a = b := by
  obtain ⟨hfits, hencode⟩ := toVec_eq_some.1 ha
  obtain ⟨hfits', hencode'⟩ := toVec_eq_some.1 hb
  exact encode_inj hfits hfits' (hencode.symm.trans hencode')

/-! ## Little-endian numbers -/

/-- The `w` low bytes of a number, least significant first. -/
def leBytes : Nat → Nat → List UInt8
  | 0, _ => []
  | w + 1, n => UInt8.ofNat (n % 256) :: leBytes w (n / 256)

/-- The number a little-endian byte string denotes. -/
def leNat : List UInt8 → Nat
  | [] => 0
  | b :: bs => b.toNat + 256 * leNat bs

@[simp] theorem length_leBytes (w n : Nat) : (leBytes w n).length = w := by
  induction w generalizing n with
  | zero => rfl
  | succ w ih => simp [leBytes, ih]

theorem leNat_leBytes (w n : Nat) : leNat (leBytes w n) = n % 256 ^ w := by
  induction w generalizing n with
  | zero => simp [leBytes, leNat, Nat.mod_one]
  | succ w ih =>
      have hb : (UInt8.ofNat (n % 256)).toNat = n % 256 := by simp
      rw [leBytes, leNat, ih, hb, Nat.pow_succ, Nat.mul_comm (256 ^ w), Nat.mod_mul]

/-- Only the part of a number that its bytes can hold is written. -/
theorem leBytes_mod (w n : Nat) : leBytes w (n % 256 ^ w) = leBytes w n := by
  induction w generalizing n with
  | zero => rfl
  | succ w ih =>
      have hhead : n % 256 ^ (w + 1) % 256 = n % 256 :=
        Nat.mod_mod_of_dvd _ (Nat.pow_succ' ▸ Nat.dvd_mul_right 256 _)
      have htail : n % 256 ^ (w + 1) / 256 = n / 256 % 256 ^ w := by
        rw [Nat.pow_succ', Nat.mod_mul_right_div_self]
      rw [leBytes, leBytes, hhead, htail, ih]

theorem leBytes_leNat (bs : List UInt8) : leBytes bs.length (leNat bs) = bs := by
  induction bs with
  | nil => rfl
  | cons b bs ih =>
      have hb : b.toNat < 256 := b.toNat_lt
      have hd : (b.toNat + 256 * leNat bs) / 256 = leNat bs := by omega
      have hm : UInt8.ofNat ((b.toNat + 256 * leNat bs) % 256) = b := by
        have : (b.toNat + 256 * leNat bs) % 256 = b.toNat := by omega
        rw [this]
        simp
      rw [List.length_cons, leBytes, leNat, hd, hm, ih]

theorem leNat_lt (bs : List UInt8) : leNat bs < 256 ^ bs.length := by
  induction bs with
  | nil => simp [leNat]
  | cons b bs ih =>
      have hb : b.toNat < 256 := b.toNat_lt
      rw [leNat, List.length_cons, Nat.pow_succ]
      omega

/-- Split off the first `n` bytes. -/
def takeExact (n : Nat) (bs : List UInt8) : Option (List UInt8 × List UInt8) :=
  if n ≤ bs.length then some (bs.take n, bs.drop n) else none

theorem takeExact_append {n : Nat} {bs : List UInt8} (rest : List UInt8) (h : bs.length = n) :
    takeExact n (bs ++ rest) = some (bs, rest) := by
  subst h
  simp [takeExact]

theorem takeExact_sound {n : Nat} {bs hd tl : List UInt8} (h : takeExact n bs = some (hd, tl)) :
    hd.length = n ∧ bs = hd ++ tl := by
  unfold takeExact at h
  split at h
  · cases h
    exact ⟨by simp; omega, (List.take_append_drop n bs).symm⟩
  · cases h

/-- Read a little-endian number of `w` bytes. -/
def decodeLE (w : Nat) (bs : List UInt8) : Option (Nat × List UInt8) :=
  (takeExact w bs).map fun (hd, tl) => (leNat hd, tl)

theorem decodeLE_leBytes {w n : Nat} (rest : List UInt8) (h : n < 256 ^ w) :
    decodeLE w (leBytes w n ++ rest) = some (n, rest) := by
  rw [decodeLE, takeExact_append rest (length_leBytes w n)]
  simp [leNat_leBytes, Nat.mod_eq_of_lt h]

theorem decodeLE_sound {w n : Nat} {bs rest : List UInt8} (h : decodeLE w bs = some (n, rest)) :
    n < 256 ^ w ∧ bs = leBytes w n ++ rest := by
  unfold decodeLE at h
  cases ht : takeExact w bs with
  | none => rw [ht] at h; cases h
  | some p =>
      obtain ⟨hd, tl⟩ := p
      rw [ht] at h
      cases h
      obtain ⟨rfl, rfl⟩ := takeExact_sound ht
      exact ⟨leNat_lt hd, by rw [leBytes_leNat]⟩

/-- The codec of a type of numbers below `256 ^ w`. -/
@[reducible] def ofNat (w : Nat) (toNat : α → Nat) (ofNat : Nat → α)
    (hlt : ∀ a, toNat a < 256 ^ w) (hof : ∀ a, ofNat (toNat a) = a)
    (hto : ∀ n, n < 256 ^ w → toNat (ofNat n) = n) : Borsh α where
  encode a := leBytes w (toNat a)
  decode bs := (decodeLE w bs).map fun (n, tl) => (ofNat n, tl)
  Fits _ := True
  decode_encode rest _ := by simp [decodeLE_leBytes rest (hlt _), hof]
  decode_sound h := by
    obtain ⟨⟨n, tl⟩, hd, he⟩ := Option.map_eq_some_iff.1 h
    cases he
    obtain ⟨hn, rfl⟩ := decodeLE_sound hd
    exact ⟨trivial, by rw [hto n hn]⟩

instance : Borsh UInt8 := ofNat 1 UInt8.toNat UInt8.ofNat (fun a => a.toNat_lt) (by simp)
  (fun n h => by simpa using Nat.mod_eq_of_lt h)

instance : Borsh UInt16 := ofNat 2 UInt16.toNat UInt16.ofNat (fun a => a.toNat_lt) (by simp)
  (fun n h => by simpa using Nat.mod_eq_of_lt h)

instance : Borsh UInt32 := ofNat 4 UInt32.toNat UInt32.ofNat (fun a => a.toNat_lt) (by simp)
  (fun n h => by simpa using Nat.mod_eq_of_lt h)

instance : Borsh UInt64 := ofNat 8 UInt64.toNat UInt64.ofNat (fun a => a.toNat_lt) (by simp)
  (fun n h => by simpa using Nat.mod_eq_of_lt h)

/-! ## Records and variants -/

/-- A type with the same values has the same codec. -/
@[reducible] def ofEquiv [Borsh α] (fwd : β → α) (bwd : α → β) (hbwd : ∀ b, bwd (fwd b) = b)
    (hfwd : ∀ a, fwd (bwd a) = a) : Borsh β where
  encode b := encode (fwd b)
  decode bs := (decode bs).map fun (a, tl) => (bwd a, tl)
  Fits b := Fits (fwd b)
  decode_encode rest h := by simp [decode_encode rest h, hbwd]
  decode_sound h := by
    obtain ⟨⟨a, tl⟩, hd, he⟩ := Option.map_eq_some_iff.1 h
    cases he
    rw [hfwd]
    exact decode_sound hd

instance : Borsh Unit where
  encode _ := []
  decode bs := some ((), bs)
  Fits _ := True
  decode_encode _ _ := rfl
  decode_sound h := by cases h; exact ⟨trivial, rfl⟩

/-- The fields of a record follow each other. -/
instance [Borsh α] [Borsh β] : Borsh (α × β) where
  encode p := encode p.1 ++ encode p.2
  decode bs := do
    let (a, bs) ← decode bs
    let (b, bs) ← decode bs
    return ((a, b), bs)
  Fits p := Fits p.1 ∧ Fits p.2
  decode_encode rest h := by
    rw [List.append_assoc, decode_encode _ h.1]
    simp [decode_encode rest h.2]
  decode_sound h := by
    simp only [Option.bind_eq_bind, Option.bind_eq_some_iff, Option.pure_def,
      Option.some.injEq] at h
    obtain ⟨⟨a, tl⟩, ha, ⟨b, tl'⟩, hb, he⟩ := h
    cases he
    obtain ⟨hfa, rfl⟩ := decode_sound ha
    obtain ⟨hfb, rfl⟩ := decode_sound hb
    exact ⟨⟨hfa, hfb⟩, by simp⟩

@[simp] theorem encode_prod [Borsh α] [Borsh β] (p : α × β) :
    encode p = encode p.1 ++ encode p.2 := rfl

@[simp] theorem fits_prod [Borsh α] [Borsh β] (p : α × β) :
    Fits p ↔ Fits p.1 ∧ Fits p.2 := Iff.rfl

/-- A codec whose encodings start with a tag byte. -/
class Tagged (α : Type) extends Borsh α where
  tag : α → UInt8
  body : α → List UInt8
  encode_eq : ∀ a, encode a = tag a :: body a

/-- No variant is left. -/
instance : Tagged Empty where
  encode a := a.elim
  decode _ := none
  Fits a := a.elim
  decode_encode {a} := a.elim
  decode_sound h := by cases h
  tag a := a.elim
  body a := a.elim
  encode_eq a := a.elim

/-- One more variant, with a tag the other variants do not use. -/
@[reducible] def variant (t : UInt8) (α β : Type) [Borsh α] [Tagged β]
    (h : ∀ b : β, Tagged.tag b ≠ t) : Tagged (α ⊕ β) where
  encode
    | .inl a => t :: encode a
    | .inr b => encode b
  decode
    | [] => none
    | u :: bs =>
      if u = t then (decode bs).map fun (a, tl) => (.inl a, tl)
      else (decode (u :: bs)).map fun (b, tl) => (.inr b, tl)
  Fits
    | .inl a => Fits a
    | .inr b => Fits b
  decode_encode {a} rest hf := by
    cases a with
    | inl a => simp [decode_encode rest hf]
    | inr b =>
        have hd := decode_encode rest hf
        rw [Tagged.encode_eq, List.cons_append] at hd
        simp only [Tagged.encode_eq, List.cons_append, if_neg (h b), hd, Option.map_some]
  decode_sound {bs rest a} hd := by
    cases bs with
    | nil => cases hd
    | cons u bs =>
        simp only at hd
        split at hd <;> obtain ⟨⟨c, tl⟩, hc, he⟩ := Option.map_eq_some_iff.1 hd <;> cases he
        · next hu =>
            obtain ⟨hf, rfl⟩ := decode_sound hc
            exact ⟨hf, by simp [hu]⟩
        · exact decode_sound hc
  tag
    | .inl _ => t
    | .inr b => Tagged.tag b
  body
    | .inl a => encode a
    | .inr b => Tagged.body b
  encode_eq
    | .inl _ => rfl
    | .inr b => Tagged.encode_eq b

/-- Two variants, with the tags 0 and 1. -/
@[reducible] def either (α β : Type) [Borsh α] [Borsh β] : Borsh (α ⊕ β) :=
  @ofEquiv (α ⊕ (β ⊕ Empty)) (α ⊕ β)
    (@variant 0 α (β ⊕ Empty) _ (variant 1 β Empty nofun)
      (by rintro (_ | ⟨⟨⟩⟩); exact (by decide : (1 : UInt8) ≠ 0))).toBorsh
    (fun | .inl a => .inl a | .inr b => .inr (.inl b))
    (fun | .inl a => .inl a | .inr (.inl b) => .inr b | .inr (.inr e) => e.elim)
    (by rintro (_ | _) <;> rfl) (by rintro (_ | _ | ⟨⟨⟩⟩) <;> rfl)

instance [Borsh α] : Borsh (Option α) :=
  @ofEquiv (Unit ⊕ α) (Option α) (either Unit α)
    (fun | none => .inl () | some a => .inr a) (fun | .inl _ => none | .inr a => some a)
    (by rintro (_ | _) <;> rfl) (by rintro (_ | _) <;> rfl)

@[simp] theorem encode_none [Borsh α] : encode (none : Option α) = [0] := rfl

@[simp] theorem encode_some [Borsh α] (a : α) : encode (some a) = 1 :: encode a := rfl

@[simp] theorem fits_none [Borsh α] : Fits (none : Option α) := trivial

@[simp] theorem fits_some [Borsh α] (a : α) : Fits (some a) ↔ Fits a := Iff.rfl

instance : Borsh Bool :=
  @ofEquiv (Unit ⊕ Unit) Bool (either Unit Unit)
    (fun | false => .inl () | true => .inr ()) (fun | .inl _ => false | .inr _ => true)
    (by rintro (_ | _) <;> rfl) (by rintro (_ | _) <;> rfl)

/-! ## Arrays, strings and lists -/

/-- A fixed-length array is written as it is. -/
instance (n : Nat) : Borsh (Bytes n) where
  encode a := a.toList
  decode bs :=
    if h : n ≤ bs.length then some (⟨bs.take n, by simp [h]⟩, bs.drop n) else none
  Fits _ := True
  decode_encode {a} rest _ := by
    have h : n ≤ (a.toList ++ rest).length := by simp
    have ha := a.length_toList
    simp only [dif_pos h, Option.some.injEq, Prod.mk.injEq]
    exact ⟨Bytes.ext (List.take_left' ha), List.drop_left' ha⟩
  decode_sound h := by
    split at h
    · cases h
      exact ⟨trivial, (List.take_append_drop n _).symm⟩
    · cases h

@[simp] theorem encode_bytes {n : Nat} (a : Bytes n) : encode a = a.toList := rfl

@[simp] theorem fits_bytes {n : Nat} (a : Bytes n) : Fits a := trivial

/-- Read `n` values in a row. -/
def decodeMany [Borsh α] : Nat → List UInt8 → Option (List α × List UInt8)
  | 0, bs => some ([], bs)
  | n + 1, bs => do
    let (a, bs) ← decode bs
    let (as, bs) ← decodeMany n bs
    return (a :: as, bs)

/-- The encodings of the elements, one after the other. -/
def encodeMany [Borsh α] (l : List α) : List UInt8 := l.flatMap encode

@[simp] theorem encodeMany_nil [Borsh α] : encodeMany ([] : List α) = [] := rfl

@[simp] theorem encodeMany_cons [Borsh α] (a : α) (l : List α) :
    encodeMany (a :: l) = encode a ++ encodeMany l := rfl

theorem decodeMany_encodeMany [Borsh α] {l : List α} (rest : List UInt8)
    (h : ∀ a ∈ l, Fits a) : decodeMany l.length (encodeMany l ++ rest) = some (l, rest) := by
  induction l with
  | nil => rfl
  | cons a l ih =>
      rw [List.length_cons, encodeMany_cons, List.append_assoc, decodeMany,
        decode_encode _ (h a List.mem_cons_self)]
      simp [ih fun b hb => h b (List.mem_cons_of_mem a hb)]

theorem decodeMany_sound [Borsh α] {n : Nat} {bs rest : List UInt8} {l : List α}
    (h : decodeMany n bs = some (l, rest)) :
    l.length = n ∧ (∀ a ∈ l, Fits a) ∧ bs = encodeMany l ++ rest := by
  induction n generalizing bs l with
  | zero => cases h; exact ⟨rfl, nofun, rfl⟩
  | succ n ih =>
      simp only [decodeMany, Option.bind_eq_bind, Option.bind_eq_some_iff, Option.pure_def,
        Option.some.injEq] at h
      obtain ⟨⟨a, tl⟩, ha, ⟨as, tl'⟩, has, he⟩ := h
      cases he
      obtain ⟨hfa, rfl⟩ := decode_sound ha
      obtain ⟨rfl, hfs, rfl⟩ := ih has
      exact ⟨rfl, List.forall_mem_cons.2 ⟨hfa, hfs⟩, by simp⟩

/-- A list is its length as a 32-bit prefix and its elements. -/
instance [Borsh α] : Borsh (List α) where
  encode l := leBytes 4 l.length ++ encodeMany l
  decode bs := do
    let (n, bs) ← decodeLE 4 bs
    decodeMany n bs
  Fits l := l.length < 2 ^ 32 ∧ ∀ a ∈ l, Fits a
  decode_encode rest h := by
    rw [List.append_assoc, decodeLE_leBytes _ (by simpa using h.1)]
    simp [decodeMany_encodeMany rest h.2]
  decode_sound h := by
    simp only [Option.bind_eq_bind, Option.bind_eq_some_iff] at h
    obtain ⟨⟨n, tl⟩, hn, hl⟩ := h
    obtain ⟨hlt, rfl⟩ := decodeLE_sound hn
    obtain ⟨rfl, hfs, rfl⟩ := decodeMany_sound hl
    exact ⟨⟨by simpa using hlt, hfs⟩, by simp⟩

theorem encode_list [Borsh α] (l : List α) :
    encode l = leBytes 4 l.length ++ encodeMany l := rfl

theorem fits_list [Borsh α] (l : List α) :
    Fits l ↔ l.length < 2 ^ 32 ∧ ∀ a ∈ l, Fits a := Iff.rfl

/-- Two runs of encodings of the same number of elements, with equal bytes up to what
follows, are encodings of the same elements. -/
theorem encodeMany_append_inj [Borsh α] {l m : List α} {r s : List UInt8}
    (hlen : l.length = m.length) (hl : ∀ a ∈ l, Fits a) (hm : ∀ a ∈ m, Fits a)
    (h : encodeMany l ++ r = encodeMany m ++ s) : l = m ∧ r = s := by
  have h1 := decodeMany_encodeMany r hl
  rw [h, hlen, decodeMany_encodeMany s hm] at h1
  simpa using h1.symm

/-- The UTF-8 bytes of a string. -/
def utf8 (s : String) : List UInt8 := s.toByteArray.data.toList

theorem utf8_injective : Function.Injective utf8 := fun s t h => by
  apply String.toByteArray_inj.1
  exact ByteArray.ext (Array.toList_inj.1 h)

/-- The string with the given UTF-8 bytes, if they are well-formed. -/
def fromUtf8 (bs : List UInt8) : Option String :=
  if h : (ByteArray.mk bs.toArray).IsValidUTF8 then some (String.ofByteArray ⟨bs.toArray⟩ h)
  else none

theorem fromUtf8_utf8 (s : String) : fromUtf8 (utf8 s) = some s := by
  have h : ByteArray.mk (utf8 s).toArray = s.toByteArray := by simp [utf8]
  have hv : (ByteArray.mk (utf8 s).toArray).IsValidUTF8 := h ▸ s.isValidUTF8
  rw [fromUtf8, dif_pos hv, Option.some.injEq]
  exact String.toByteArray_inj.1 h

theorem fromUtf8_sound {bs : List UInt8} {s : String} (h : fromUtf8 bs = some s) :
    bs = utf8 s := by
  unfold fromUtf8 at h
  split at h
  · cases h
    simp [utf8]
  · cases h

/-- A string is its length in bytes as a 32-bit prefix and its UTF-8 bytes. -/
instance : Borsh String where
  encode s := leBytes 4 (utf8 s).length ++ utf8 s
  decode bs := do
    let (n, bs) ← decodeLE 4 bs
    let (hd, tl) ← takeExact n bs
    let s ← fromUtf8 hd
    return (s, tl)
  Fits s := (utf8 s).length < 2 ^ 32
  decode_encode rest h := by
    rw [List.append_assoc, decodeLE_leBytes _ (by simpa using h)]
    simp [takeExact_append rest rfl, fromUtf8_utf8]
  decode_sound h := by
    simp only [Option.bind_eq_bind, Option.bind_eq_some_iff, Option.pure_def,
      Option.some.injEq] at h
    obtain ⟨⟨n, tl⟩, hn, ⟨hd, tl'⟩, ht, s, hs, he⟩ := h
    have hhd : hd = utf8 s := fromUtf8_sound hs
    cases he
    obtain ⟨hlt, rfl⟩ := decodeLE_sound hn
    obtain ⟨rfl, rfl⟩ := takeExact_sound ht
    subst hhd
    exact ⟨by simpa using hlt, by simp⟩

theorem encode_string (s : String) : encode s = leBytes 4 (utf8 s).length ++ utf8 s := rfl

theorem fits_string (s : String) : Fits s ↔ (utf8 s).length < 2 ^ 32 := Iff.rfl

/-! ## Sizes -/

@[simp] theorem length_encode_uint8 (a : UInt8) : (encode a).length = 1 := length_leBytes ..
@[simp] theorem length_encode_uint16 (a : UInt16) : (encode a).length = 2 := length_leBytes ..
@[simp] theorem length_encode_uint32 (a : UInt32) : (encode a).length = 4 := length_leBytes ..
@[simp] theorem length_encode_uint64 (a : UInt64) : (encode a).length = 8 := length_leBytes ..
@[simp] theorem length_encode_string (s : String) :
    (encode s).length = 4 + (utf8 s).length := by simp [encode_string]
@[simp] theorem fits_uint8 (a : UInt8) : Fits a := trivial
@[simp] theorem fits_uint16 (a : UInt16) : Fits a := trivial
@[simp] theorem fits_uint32 (a : UInt32) : Fits a := trivial
@[simp] theorem fits_uint64 (a : UInt64) : Fits a := trivial

/-- A list of encodings is at most its length times a bound of the elements' sizes. -/
theorem length_encodeMany_le [Borsh α] {l : List α} {k : Nat}
    (h : ∀ a ∈ l, (encode a).length ≤ k) : (encodeMany l).length ≤ l.length * k := by
  induction l with
  | nil => simp
  | cons a l ih =>
      have ha := h a List.mem_cons_self
      have hl := ih fun b hb => h b (List.mem_cons_of_mem a hb)
      rw [encodeMany_cons, List.length_append, List.length_cons, Nat.succ_mul]
      omega

/-- Elements of one size make a list of that size times its length. -/
theorem length_encodeMany_eq [Borsh α] {l : List α} {k : Nat}
    (h : ∀ a ∈ l, (encode a).length = k) : (encodeMany l).length = l.length * k := by
  induction l with
  | nil => simp
  | cons a l ih =>
      have ha := h a List.mem_cons_self
      have hl := ih fun b hb => h b (List.mem_cons_of_mem a hb)
      rw [encodeMany_cons, List.length_append, List.length_cons, Nat.succ_mul]
      omega

/-- A list of nonempty encodings is at least as long as the list. -/
theorem length_le_length_encodeMany [Borsh α] {l : List α}
    (h : ∀ a ∈ l, 1 ≤ (encode a).length) : l.length ≤ (encodeMany l).length := by
  induction l with
  | nil => simp
  | cons a l ih =>
      have ha := h a List.mem_cons_self
      have hl := ih fun b hb => h b (List.mem_cons_of_mem a hb)
      rw [encodeMany_cons, List.length_append, List.length_cons]
      omega

/-- Encodings of lists whose lengths differ by less than the prefix can count, followed by
anything, determine the lists, also where the lengths do not fit the prefix. -/
theorem encode_list_append_inj [Borsh α] {l m : List α} {r s : List UInt8}
    (hlen : l.length < m.length + 2 ^ 32) (hlen' : m.length < l.length + 2 ^ 32)
    (hl : ∀ a ∈ l, Fits a) (hm : ∀ a ∈ m, Fits a) (h : encode l ++ r = encode m ++ s) :
    l = m ∧ r = s := by
  rw [encode_list, encode_list, List.append_assoc, List.append_assoc] at h
  obtain ⟨hp, hrest⟩ := List.append_inj h (by simp)
  have hmod := congrArg leNat hp
  rw [leNat_leBytes, leNat_leBytes] at hmod
  have heq : l.length = m.length := by omega
  exact encodeMany_append_inj heq hl hm hrest

/-! ## Short encodings -/

/-- A type whose lengths are at most that of the encoding: a value with a short encoding fits. -/
class Short (α : Type) [Borsh α] : Prop where
  fits_of_short : ∀ a : α, (encode a).length < 2 ^ 32 → Fits a

export Short (fits_of_short)

instance : Short UInt8 := ⟨fun _ _ => trivial⟩
instance : Short UInt16 := ⟨fun _ _ => trivial⟩
instance : Short UInt32 := ⟨fun _ _ => trivial⟩
instance : Short UInt64 := ⟨fun _ _ => trivial⟩
instance (n : Nat) : Short (Bytes n) := ⟨fun _ _ => trivial⟩

instance : Short String where
  fits_of_short s h := by
    rw [length_encode_string] at h
    rw [fits_string]
    omega

instance [Borsh α] [Borsh β] [Short α] [Short β] : Short (α × β) where
  fits_of_short p h := by
    rw [encode_prod, List.length_append] at h
    exact ⟨fits_of_short p.1 (by omega), fits_of_short p.2 (by omega)⟩

instance [Borsh α] [Short α] : Short (Option α) where
  fits_of_short o h := by
    cases o with
    | none => exact fits_none
    | some a =>
        rw [encode_some, List.length_cons] at h
        exact (fits_some a).2 (fits_of_short a (by omega))

theorem length_encode_le_of_mem [Borsh α] {l : List α} {a : α} (h : a ∈ l) :
    (encode a).length ≤ (encodeMany l).length := by
  induction l with
  | nil => cases h
  | cons b l ih =>
      rw [encodeMany_cons, List.length_append]
      rcases List.mem_cons.1 h with rfl | h
      · omega
      · have := ih h
        omega

/-- A list of values with nonempty encodings is at most as long as its encoding. -/
theorem fits_list_of_short [Borsh α] [Short α] {l : List α}
    (hpos : ∀ a ∈ l, 1 ≤ (encode a).length) (h : (encode l).length < 2 ^ 32) : Fits l := by
  rw [encode_list, List.length_append, length_leBytes] at h
  have hlen := length_le_length_encodeMany hpos
  refine ⟨by omega, fun a ha => fits_of_short a ?_⟩
  have := length_encode_le_of_mem ha
  omega

end Borsh
