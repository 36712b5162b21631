import Mathlib.Algebra.BigOperators.Group.List.Basic
import Mathlib.Data.List.Sort
import Mathlib.Order.Interval.Finset.Nat
import KCoin.Lib.Bytes

/-!
# Ordered maps as lists

The entries of an ordered map as a list without duplicates: the sum of a quantity over the values
and how an insertion changes it, and the values that group a list. Lists that are sorted by a key.
-/

open Std

namespace BTreeMap

variable {α β : Type} [Ord α] [TransOrd α] [LawfulEqOrd α]

/-- The sum of `f` over the values of a map. -/
def total (f : β → Nat) (m : BTreeMap α β) : Nat := (m.toList.map fun p => f p.2).sum

omit [LawfulEqOrd α] in
@[simp] theorem total_empty (f : β → Nat) : total f (∅ : BTreeMap α β) = 0 := rfl

/-- An insertion leaves the entries of the other keys alone. -/
theorem getElem?_insert_ne {m : BTreeMap α β} {k l : α} {v : β} (h : k ≠ l) :
    (m.insert k v)[l]? = m[l]? := by
  have hc : compare k l ≠ .eq := fun he => h (Std.compare_eq_iff_eq.1 he)
  rw [ExtTreeMap.getElem?_insert, if_neg hc]

theorem nodup_map_fst (m : BTreeMap α β) : (m.toList.map Prod.fst).Nodup := by
  rw [ExtTreeMap.map_fst_toList_eq_keys]
  exact ExtTreeMap.distinct_keys.imp fun hne he => hne (Std.compare_eq_iff_eq.2 he)

theorem nodup_toList (m : BTreeMap α β) : m.toList.Nodup :=
  (List.pairwise_map.1 (nodup_map_fst m)).imp fun hne he => hne (congrArg Prod.fst he)

/-- The values of a map that are kept under a key of their own are distinct in that key. -/
theorem nodup_map_values (m : BTreeMap α β) (f : β → α) (h : ∀ k v, m[k]? = some v → f v = k) :
    ((m.toList.map Prod.snd).map f).Nodup := by
  have hkeys : (m.toList.map Prod.snd).map f = m.toList.map Prod.fst := by
    rw [List.map_map]
    refine List.map_congr_left fun p hp => ?_
    exact h p.1 p.2 (ExtTreeMap.mem_toList_iff_getElem?_eq_some.1 hp)
  rw [hkeys]
  exact nodup_map_fst m

theorem mem_values {m : BTreeMap α β} {v : β} (h : v ∈ m.toList.map Prod.snd) :
    ∃ k : α, m[k]? = some v := by
  obtain ⟨p, hp, rfl⟩ := List.mem_map.1 h
  exact ⟨p.1, ExtTreeMap.mem_toList_iff_getElem?_eq_some.1 hp⟩

omit [LawfulEqOrd α] in
theorem values_eq (m : BTreeMap α β) : m.values = m.toList.map Prod.snd := by
  have h : m.values = m.foldr (fun _ v l => v :: l) [] := rfl
  rw [h, ExtTreeMap.foldr_eq_foldr_toList, List.map_eq_foldr]

theorem mem_values_iff {m : BTreeMap α β} {v : β} : v ∈ m.values ↔ ∃ k : α, m[k]? = some v := by
  rw [values_eq]
  refine ⟨mem_values, fun ⟨k, hk⟩ => ?_⟩
  exact List.mem_map.2 ⟨(k, v), ExtTreeMap.mem_toList_iff_getElem?_eq_some.2 hk, rfl⟩

/-- The values of a map that are kept under a key of their own are in the order of that key. -/
theorem pairwise_values {m : BTreeMap α β} {f : β → α} (h : ∀ k v, m[k]? = some v → f v = k) :
    m.values.Pairwise fun v w => compare (f v) (f w) = .lt := by
  have hkey : ∀ p ∈ m.toList, f p.2 = p.1 := fun p hp =>
    h p.1 p.2 (ExtTreeMap.mem_toList_iff_getElem?_eq_some.1 hp)
  rw [values_eq]
  refine List.pairwise_map.2 (ExtTreeMap.ordered_keys_toList.imp_of_mem fun hp hq hlt => ?_)
  rw [hkey _ hp, hkey _ hq]
  exact hlt

/-- The values of two maps are the same as far as a function can tell, if their entries are. -/
theorem map_values_congr {γ : Type} {m m' : BTreeMap α β} {f : β → γ}
    (h : ∀ k : α, m'[k]?.map f = m[k]?.map f) : m'.values.map f = m.values.map f := by
  have hmap : (m'.map fun _ v => f v) = m.map fun _ v => f v := by
    refine ExtTreeMap.ext_getElem? fun k => ?_
    rw [ExtTreeMap.getElem?_map, ExtTreeMap.getElem?_map]
    exact h k
  have hvalues := congrArg (fun n => n.toList.map Prod.snd) hmap
  simp only [ExtTreeMap.toList_map, List.map_map] at hvalues
  rw [values_eq, values_eq, List.map_map, List.map_map]
  exact hvalues

/-! ## Grouping -/

/-- The values of a list by a key, in the order they come. -/
def group (f : β → α) (l : List β) : BTreeMap α (List β) :=
  l.foldl (fun m b => m.insert (f b) ((m[f b]?).getD [] ++ [b])) ∅

/-- A group has the values of its key. -/
theorem getD_foldl_group [DecidableEq α] (f : β → α) (l : List β) (m : BTreeMap α (List β))
    (k : α) :
    ((l.foldl (fun m b => m.insert (f b) ((m[f b]?).getD [] ++ [b])) m)[k]?).getD [] =
      (m[k]?).getD [] ++ l.filter (f · = k) := by
  induction l generalizing m with
  | nil => simp
  | cons b l ih =>
      rw [List.foldl_cons, ih]
      by_cases hk : f b = k
      · subst hk
        simp
      · rw [getElem?_insert_ne hk]
        simp [hk]

theorem getElem?_group [DecidableEq α] {f : β → α} {l : List β} {k : α} {g : List β}
    (h : (group f l)[k]? = some g) : g = l.filter (f · = k) := by
  have hg := getD_foldl_group f l ∅ k
  rw [show l.foldl _ _ = group f l from rfl, h] at hg
  simpa using hg

/-! ## Totals -/

/-- The entries of a map are the entry of a key, if it has one, and those of the other keys. -/
theorem toList_perm (m : BTreeMap α β) (k : α) :
    m.toList.Perm ((m[k]?.map (k, ·)).toList ++ (m.erase k).toList) := by
  refine (List.perm_ext_iff_of_nodup (nodup_toList m) ?_).2 fun p => ?_
  · refine List.nodup_append.2 ⟨by cases m[k]? <;> simp, nodup_toList _, fun p hp q hq => ?_⟩
    rintro rfl
    obtain ⟨l, v⟩ := p
    obtain ⟨w, -, hw⟩ : ∃ w, m[k]? = some w ∧ (k, w) = (l, v) := by simpa using hp
    cases hw
    rw [ExtTreeMap.mem_toList_iff_getElem?_eq_some, ExtTreeMap.getElem?_erase] at hq
    simp at hq
  · obtain ⟨l, v⟩ := p
    rw [List.mem_append, ExtTreeMap.mem_toList_iff_getElem?_eq_some,
      ExtTreeMap.mem_toList_iff_getElem?_eq_some, ExtTreeMap.getElem?_erase]
    by_cases hkl : k = l
    · subst hkl
      simp
    · have hc : compare k l ≠ .eq := fun h => hkl (Std.compare_eq_iff_eq.1 h)
      simp [hc, hkl]

/-- A total splits into the part of one key and the rest. -/
theorem total_eq (f : β → Nat) (m : BTreeMap α β) (k : α) :
    total f m = (m[k]?.map f).getD 0 + total f (m.erase k) := by
  rw [total, (toList_perm m k).map _ |>.sum_eq, List.map_append, List.sum_append, total]
  cases m[k]? <;> simp

/-- An insertion adds the new value and takes the old one away. -/
theorem total_insert (f : β → Nat) (m : BTreeMap α β) (k : α) (v : β) :
    total f (m.insert k v) + (m[k]?.map f).getD 0 = total f m + f v := by
  have he : (m.insert k v).erase k = m.erase k := by
    ext l w
    simp only [ExtTreeMap.getElem?_erase, ExtTreeMap.getElem?_insert]
    split <;> simp_all
  rw [total_eq f (m.insert k v) k, total_eq f m k, he, ExtTreeMap.getElem?_insert_self]
  simp only [Option.map_some, Option.getD_some]
  omega

/-- The part of one key is at most the total. -/
theorem le_total (f : β → Nat) (m : BTreeMap α β) (k : α) : (m[k]?.map f).getD 0 ≤ total f m := by
  rw [total_eq f m k]
  omega

/-- The parts of two keys together are at most the total. -/
theorem add_le_total (f : β → Nat) (m : BTreeMap α β) {k l : α} (h : k ≠ l) :
    (m[k]?.map f).getD 0 + (m[l]?.map f).getD 0 ≤ total f m := by
  have hl := le_total f (m.erase k) l
  have hc : compare k l ≠ .eq := fun he => h (Std.compare_eq_iff_eq.1 he)
  rw [ExtTreeMap.getElem?_erase, if_neg hc] at hl
  rw [total_eq f m k]
  omega

/-! ## The last entry -/

/-- What is inserted after all keys is the last entry. -/
theorem toList_insert_last {m : BTreeMap α β} {k : α} (v : β)
    (h : ∀ l w, m[l]? = some w → compare l k = .lt) :
    (m.insert k v).toList = m.toList ++ [(k, v)] := by
  have hnew : m[k]? = none := by
    cases hk : m[k]? with
    | none => rfl
    | some w =>
        have hlt := h k w hk
        rw [compare_self] at hlt
        cases hlt
  have herase : (m.insert k v).erase k = m := by
    ext l w
    rw [ExtTreeMap.getElem?_erase, ExtTreeMap.getElem?_insert]
    split
    · next hc =>
        obtain rfl := Std.compare_eq_iff_eq.1 hc
        rw [hnew]
    · rfl
  have hperm := toList_perm (m.insert k v) k
  rw [herase, ExtTreeMap.getElem?_insert_self] at hperm
  refine List.Perm.eq_of_pairwise ?_ ExtTreeMap.ordered_keys_toList ?_
    (hperm.trans List.perm_append_comm)
  · intro p q _ _ hpq hqp
    have hgt : compare p.1 q.1 = .gt := OrientedCmp.gt_of_lt hqp
    exact nomatch hpq.symm.trans hgt
  · refine List.pairwise_append.2 ⟨ExtTreeMap.ordered_keys_toList, List.pairwise_singleton _ _, ?_⟩
    intro p hp q hq
    obtain rfl := List.mem_singleton.1 hq
    exact h p.1 p.2 (ExtTreeMap.mem_toList_iff_getElem?_eq_some.1 hp)

theorem values_insert_last {m : BTreeMap α β} {k : α} (v : β)
    (h : ∀ l w, m[l]? = some w → compare l k = .lt) : (m.insert k v).values = m.values ++ [v] := by
  rw [values_eq, values_eq, toList_insert_last v h, List.map_append]
  rfl

/-! ## Insertions in a row -/

/-- An insertion that returns the map it was given found its entry there. -/
theorem insert_eq_self {m : BTreeMap α β} {k : α} {v : β} : m.insert k v = m ↔ m[k]? = some v := by
  constructor
  · intro h
    rw [← h, ExtTreeMap.getElem?_insert_self]
  · intro h
    ext l w
    rw [ExtTreeMap.getElem?_insert]
    split
    · next hc => rw [← Std.compare_eq_iff_eq.1 hc, h]
    · rfl

/-- After insertions under distinct keys every inserted entry is there, and the other keys have what
they had. -/
theorem getElem?_foldlM_insert {γ ε : Type} {f : BTreeMap α β → γ → Except ε (BTreeMap α β)}
    {key : γ → α} {row : γ → β} (hf : ∀ m c m', f m c = .ok m' → m' = m.insert (key c) (row c))
    {l : List γ} {m m' : BTreeMap α β} (h : l.foldlM f m = .ok m') (hnodup : (l.map key).Nodup) :
    (∀ c ∈ l, m'[key c]? = some (row c)) ∧ ∀ k, k ∉ l.map key → m'[k]? = m[k]? := by
  induction l generalizing m with
  | nil =>
      cases h
      exact ⟨nofun, fun _ _ => rfl⟩
  | cons c l ih =>
      rw [List.foldlM_cons] at h
      cases hc : f m c with
      | error e =>
          rw [hc] at h
          cases h
      | ok m₁ =>
          rw [hc] at h
          obtain ⟨hnew, hnodup⟩ := List.nodup_cons.1 hnodup
          obtain ⟨hin, hout⟩ := ih h hnodup
          obtain rfl := hf m c m₁ hc
          refine ⟨fun d hd => ?_, fun k hk => ?_⟩
          · rcases List.mem_cons.1 hd with rfl | hd
            · rw [hout _ hnew, ExtTreeMap.getElem?_insert_self]
            · exact hin d hd
          · rw [List.map_cons, List.mem_cons, not_or] at hk
            rw [hout k hk.2, getElem?_insert_ne (Ne.symm hk.1)]

end BTreeMap

namespace BTreeSet

variable {α : Type} [Ord α] [TransOrd α] [LawfulEqOrd α] [DecidableEq α]

theorem mem_ofList {l : List α} {a : α} : a ∈ ExtTreeSet.ofList l compare ↔ a ∈ l := by
  simp

/-- A list whose set has as many elements as the list has no repetitions. -/
theorem nodup_of_size_ofList {l : List α}
    (h : (ExtTreeSet.ofList l compare).size = l.length) : l.Nodup := by
  have hdistinct : (ExtTreeSet.ofList l compare).toList.Nodup :=
    ExtTreeSet.distinct_toList.imp fun hne he => hne (Std.compare_eq_iff_eq.2 he)
  have hsame : (ExtTreeSet.ofList l compare).toList.toFinset = l.toFinset := by
    ext a
    rw [List.mem_toFinset, List.mem_toFinset, ExtTreeSet.mem_toList, mem_ofList]
  have hcard : l.toFinset.card = l.length := by
    rw [← hsame, List.toFinset_card_of_nodup hdistinct, ExtTreeSet.length_toList, h]
  exact Multiset.coe_nodup.1 (Multiset.toFinset_card_eq_card_iff_nodup.1 hcard)

omit [DecidableEq α] in
/-- A set whose elements have distinct numbers in a window is no larger than the window. -/
theorem size_le_of_window {s : BTreeSet α} {f : α → Nat} (hf : Function.Injective f) {lo hi : Nat}
    (h : ∀ a ∈ s, lo ≤ f a ∧ f a ≤ hi) : s.size ≤ hi + 1 - lo := by
  have hdistinct : (s.toList.map f).Nodup := by
    refine List.Nodup.map hf ?_
    exact ExtTreeSet.distinct_toList.imp fun hne he => hne (Std.compare_eq_iff_eq.2 he)
  have hsub : (s.toList.map f).toFinset ⊆ Finset.Icc lo hi := by
    intro n hn
    obtain ⟨a, ha, rfl⟩ := List.mem_map.1 (List.mem_toFinset.1 hn)
    exact Finset.mem_Icc.2 (h a (ExtTreeSet.mem_toList.1 ha))
  have hcard := Finset.card_le_card hsub
  rw [List.toFinset_card_of_nodup hdistinct, List.length_map, ExtTreeSet.length_toList,
    Nat.card_Icc] at hcard
  exact hcard

end BTreeSet

/-! ## Sorting by a key -/

section
variable {α β : Type} [Ord α] [TransOrd α] {key : β → α}

/-- The key of one value is not after that of another. -/
abbrev KeyLE (key : β → α) (a b : β) : Prop := compare (key a) (key b) ≠ .gt

instance : IsTrans β (KeyLE key) where
  trans a b c hab hbc := by
    have hab := Ordering.isLE_iff_ne_gt.2 hab
    have hbc := Ordering.isLE_iff_ne_gt.2 hbc
    exact Ordering.isLE_iff_ne_gt.1 (TransCmp.isLE_trans hab hbc)

instance : Std.Total (KeyLE key) where
  total a b := by
    cases h : compare (key a) (key b) with
    | lt => exact .inl (by rw [KeyLE, h]; exact nofun)
    | eq => exact .inl (by rw [KeyLE, h]; exact nofun)
    | gt => exact .inr (by rw [KeyLE, OrientedCmp.lt_of_gt h]; exact nofun)

/-- A sorted list with distinct keys is strictly increasing. -/
theorem KeyLE.pairwise_lt_insertionSort [LawfulEqOrd α] {l : List β} (h : (l.map key).Nodup) :
    (l.insertionSort (KeyLE key)).Pairwise fun a b => compare (key a) (key b) = .lt := by
  have hnodup : ((l.insertionSort (KeyLE key)).map key).Nodup :=
    ((List.perm_insertionSort (KeyLE key) l).map key).nodup_iff.2 h
  refine (List.pairwise_insertionSort (KeyLE key) l).imp₂ ?_ (List.pairwise_map.1 hnodup)
  intro a b hle hne
  cases hc : compare (key a) (key b) with
  | lt => rfl
  | eq => exact absurd (Std.compare_eq_iff_eq.1 hc) hne
  | gt => exact absurd hc hle

omit [TransOrd α] in
/-- Sorting leaves a strictly increasing list as it is. -/
theorem KeyLE.insertionSort_eq_self {l : List β}
    (h : l.Pairwise fun a b => compare (key a) (key b) = .lt) :
    l.insertionSort (KeyLE key) = l := by
  refine (h.imp fun hlt => ?_).insertionSort_eq
  rw [KeyLE, hlt]
  exact nofun

end
