import KCoin.Lib.Borsh

/-!
# The CBOR binary format

The writer for numbers, text, arrays and maps. A value begins with a head, which has its major type
and a number: the value itself, or the number of its bytes or items. A small number is part of the
first byte, and a greater one follows it in 1, 2, 4 or 8 bytes, the most significant first. A writer
that has no type for byte strings writes them as arrays of numbers (`Cbor.bytesArray`), which takes
two bytes for most of theirs.
-/

open Borsh

namespace Cbor

/-- The head of a value. -/
def head (major : UInt8) (n : Nat) : List UInt8 :=
  if n < 24 then [major * 32 + UInt8.ofNat n]
  else if n < 2 ^ 8 then (major * 32 + 24) :: (leBytes 1 n).reverse
  else if n < 2 ^ 16 then (major * 32 + 25) :: (leBytes 2 n).reverse
  else if n < 2 ^ 32 then (major * 32 + 26) :: (leBytes 4 n).reverse
  else (major * 32 + 27) :: (leBytes 8 n).reverse

/-- The number of bytes of a head. -/
def headLength (n : Nat) : Nat :=
  if n < 24 then 1 else if n < 2 ^ 8 then 2 else if n < 2 ^ 16 then 3 else if n < 2 ^ 32 then 5 else 9

def uint (n : Nat) : List UInt8 := head 0 n

def text (s : String) : List UInt8 := head 3 (utf8 s).length ++ utf8 s

def bool (b : Bool) : List UInt8 := if b then [0xf5] else [0xf4]

def null : List UInt8 := [0xf6]

/-- An array of values that are written already. -/
def array (items : List (List UInt8)) : List UInt8 := head 4 items.length ++ items.flatten

/-- A map with text keys. -/
def map (entries : List (String × List UInt8)) : List UInt8 :=
  head 5 entries.length ++ entries.flatMap fun entry => text entry.1 ++ entry.2

/-- A byte string as an array of numbers. -/
def bytesArray (bs : List UInt8) : List UInt8 := array (bs.map fun b => uint b.toNat)

@[simp] theorem length_head (major : UInt8) (n : Nat) : (head major n).length = headLength n := by
  unfold head headLength
  split_ifs <;> simp

/-- A greater number has no shorter head. -/
theorem headLength_mono {m n : Nat} (h : m ≤ n) : headLength m ≤ headLength n := by
  unfold headLength
  split_ifs <;> omega

theorem length_array (items : List (List UInt8)) :
    (array items).length = headLength items.length + (items.map List.length).sum := by
  rw [array, List.length_append, length_head, List.length_flatten]

/-- The numbers below 24 take one byte, and the other bytes two. -/
theorem length_uint (b : UInt8) : (uint b.toNat).length = 1 + if 24 ≤ b.toNat then 1 else 0 := by
  have hb : b.toNat < 2 ^ 8 := b.toNat_lt
  rw [uint, length_head, headLength]
  split_ifs <;> omega

theorem length_bytesArray (bs : List UInt8) : (bytesArray bs).length =
    headLength bs.length + bs.length + bs.countP (24 ≤ ·.toNat) := by
  have hsum : ((bs.map fun b => uint b.toNat).map List.length).sum =
      bs.length + bs.countP (24 ≤ ·.toNat) := by
    induction bs with
    | nil => rfl
    | cons b bs ih =>
        rw [List.map_cons, List.map_cons, List.sum_cons, ih, length_uint, List.length_cons,
          List.countP_cons]
        simp only [decide_eq_true_eq]
        omega
  rw [bytesArray, length_array, hsum, List.length_map]
  omega

end Cbor
