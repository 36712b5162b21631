import Mathlib.Data.List.Basic
import Mathlib.Tactic.Ring

/-!
# Fixed-length byte strings and ordered keys

`Bytes n` is the array type `[u8; n]`: a list of bytes that carries the proof of its
length. `SortKey` orders a type by an injective key, so that every key type of an ordered
map gets `Ord`, `TransOrd` and `LawfulEqOrd` from one injectivity proof. The order of a
byte string is the lexicographic order of its bytes.
-/

open Std

/-! ## Ordered keys -/

/-- A type ordered by an injective key. The key is a list of numbers and lists are ordered
lexicographically, which is the order a derived comparison of a tagged union has: the tag
first, then the fields. -/
class SortKey (α : Type) where
  key : α → List Nat
  key_injective : Function.Injective key

namespace SortKey

variable {α : Type} [SortKey α]

instance (priority := low) : Ord α := ⟨compareOn key⟩

instance (priority := low) : TransOrd α := inferInstanceAs (TransCmp (compareOn key))

instance (priority := low) : LawfulEqOrd α where
  eq_of_compare h := key_injective (Std.compare_eq_iff_eq.1 h)

instance (priority := low) : DecidableEq α := fun a b =>
  decidable_of_iff (key a = key b) ⟨fun h => key_injective h, fun h => h ▸ rfl⟩

end SortKey

/-- An ordered map from keys to values. -/
abbrev BTreeMap (α β : Type) [Ord α] := ExtTreeMap α β compare

/-- An ordered set of keys. -/
abbrev BTreeSet (α : Type) [Ord α] := ExtTreeSet α compare

/-! ## Byte strings -/

/-- The array type `[u8; n]`. -/
@[ext] structure Bytes (n : Nat) where
  toList : List UInt8
  length_toList : toList.length = n

namespace Bytes

variable {n : Nat}

attribute [simp] Bytes.length_toList

/-- The byte string with every byte equal to `b`. -/
def fill (n : Nat) (b : UInt8) : Bytes n := ⟨List.replicate n b, by simp⟩

instance : Inhabited (Bytes n) := ⟨fill n 0⟩

instance : SortKey (Bytes n) where
  key a := a.toList.map UInt8.toNat
  key_injective _ _ h :=
    Bytes.ext (List.map_injective_iff.2 (fun _ _ => UInt8.toNat_inj.1) h)

/-- The first `m` bytes. -/
def take (a : Bytes n) (m : Nat) (h : m ≤ n) : Bytes m := ⟨a.toList.take m, by simp [h]⟩

/-- The array with the given bytes, if there are `n` of them. -/
def ofList (n : Nat) (l : List UInt8) : Option (Bytes n) :=
  if h : l.length = n then some ⟨l, h⟩ else none

@[simp] theorem ofList_toList (a : Bytes n) : ofList n a.toList = some a := by
  simp [ofList]

theorem ofList_eq_some {l : List UInt8} {a : Bytes n} : ofList n l = some a ↔ l = a.toList := by
  refine ⟨fun h => ?_, fun h => h ▸ ofList_toList a⟩
  unfold ofList at h
  split at h
  · cases h
    rfl
  · cases h

theorem toList_injective : Function.Injective (Bytes.toList (n := n)) := fun _ _ => Bytes.ext

end Bytes
