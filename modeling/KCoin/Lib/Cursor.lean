import Mathlib.Data.List.Nodup
import Mathlib.Data.List.Range
import Mathlib.Data.Nat.ModEq

/-!
# A rotating cursor

The places of a list, taken in turns: a cursor stands before one of `n` places, a scan visits the
places after it in cyclic order, and the cursor moves behind the last one. A scan of at most `n`
places visits none twice (`nodup_scanned`), and a place that is not visited comes closer by as many
places as the scan visits (`ahead_add`).
-/

namespace Cursor

/-- The place that many places after the cursor. -/
def place (n cursor offset : Nat) : Nat := (cursor + offset) % n

/-- The places that a scan visits. -/
def scanned (n cursor count : Nat) : List Nat := (List.range count).map (place n cursor)

/-- How many places are between the cursor and a place. -/
def ahead (n cursor i : Nat) : Nat := (i + (n - cursor % n)) % n

variable {n cursor count i : Nat}

theorem place_lt (h : 0 < n) (offset : Nat) : place n cursor offset < n := Nat.mod_lt _ h

theorem place_mod (n cursor offset : Nat) : place n (cursor % n) offset = place n cursor offset :=
  Nat.mod_add_mod ..

theorem ahead_lt (h : 0 < n) : ahead n cursor i < n := Nat.mod_lt _ h

theorem place_ahead (h : i < n) : place n cursor (ahead n cursor i) = i := by
  have hlt : cursor % n < n := Nat.mod_lt _ (by omega)
  rw [place, ahead, Nat.add_mod_mod, ← Nat.mod_add_mod]
  have hsum : cursor % n + (i + (n - cursor % n)) = i + n := by omega
  rw [hsum, Nat.add_mod_right, Nat.mod_eq_of_lt h]

/-- No place is at two distances. -/
theorem place_injOn {a b : Nat} (ha : a < n) (hb : b < n)
    (h : place n cursor a = place n cursor b) : a = b := by
  have hsame : Nat.ModEq n a b := Nat.ModEq.add_left_cancel' cursor h
  rwa [Nat.ModEq, Nat.mod_eq_of_lt ha, Nat.mod_eq_of_lt hb] at hsame

theorem nodup_scanned (h : count ≤ n) : (scanned n cursor count).Nodup := by
  refine List.Nodup.map_on (fun a ha b hb hab => ?_) List.nodup_range
  rw [List.mem_range] at ha hb
  exact place_injOn (by omega) (by omega) hab

/-- A place within the reach of a scan is visited. -/
theorem mem_scanned (hi : i < n) (h : ahead n cursor i < count) : i ∈ scanned n cursor count :=
  List.mem_map.2 ⟨_, List.mem_range.2 h, place_ahead hi⟩

/-- A place that a scan does not reach comes closer. -/
theorem ahead_add (hi : i < n) (h : count ≤ ahead n cursor i) :
    ahead n ((cursor + count) % n) i = ahead n cursor i - count := by
  have hlt : ahead n cursor i < n := ahead_lt (by omega)
  have hplace := @place_ahead n cursor i hi
  refine @place_injOn n ((cursor + count) % n) _ _ (ahead_lt (by omega)) (by omega) ?_
  rw [place_ahead hi, place_mod, place, Nat.add_assoc, Nat.add_sub_cancel' h]
  exact hplace.symm

end Cursor
