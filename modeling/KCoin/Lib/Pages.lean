import Mathlib.Data.List.Sort
import Mathlib.Data.List.TakeWhile

/-!
# Pages of a list that grows in front

A list is served newest first, in pages: the items behind a cursor, which is the key of an item, at
most as many as a limit, and the cursor of the last of them if there are more items behind it. The
list may grow in front between two requests. Whoever starts without a cursor and follows the cursors
gets the list of the first request, item by item (`follow_delivers`).
-/

namespace Pages

variable {α κ : Type*} [LinearOrder κ] {key : α → κ}

/-- The newest item first, and no key twice. -/
def Descending (key : α → κ) (l : List α) : Prop := l.Pairwise fun a b => key b < key a

/-- The items behind a cursor, all without one. -/
def older (key : α → κ) (cursor : Option κ) (l : List α) : List α :=
  l.filter fun a => cursor.all (key a < ·)

theorem Descending.nodup_keys {l : List α} (h : Descending key l) : (l.map key).Nodup :=
  List.pairwise_map.2 (List.Pairwise.imp ne_of_gt h)

theorem Descending.nodup {l : List α} (h : Descending key l) : l.Nodup := h.nodup_keys.of_map

/-- No two items have one key. -/
theorem Descending.inj {l : List α} (h : Descending key l) {a b : α} (ha : a ∈ l) (hb : b ∈ l)
    (hkey : key a = key b) : a = b := List.inj_on_of_nodup_map h.nodup_keys ha hb hkey

theorem mem_older {cursor : Option κ} {l : List α} {a : α} :
    a ∈ older key cursor l ↔ a ∈ l ∧ ∀ k ∈ cursor, key a < k := by
  cases cursor <;> simp [older]

theorem descending_older {l : List α} (h : Descending key l) (cursor : Option κ) :
    Descending key (older key cursor l) := List.Pairwise.sublist List.filter_sublist h

/-- Some items, and the cursor of the next page. -/
structure Page (α κ : Type*) where
  items : List α
  next : Option κ

/-- The page behind a cursor. One item more than it has tells whether there is a next page. -/
def page (key : α → κ) (cursor : Option κ) (limit : Nat) (l : List α) : Page α κ :=
  let rows := (older key cursor l).take (limit + 1)
  { items := rows.take limit
    next := if limit < rows.length then (rows.take limit).getLast?.map key else none }

/-- Lists in this order with the same items are the same. -/
theorem Descending.ext {l l' : List α} (h : Descending key l) (h' : Descending key l')
    (hmem : ∀ a, a ∈ l ↔ a ∈ l') : l = l' := by
  have : Std.Irrefl fun a b : α => key b < key a := ⟨fun a => lt_irrefl (key a)⟩
  have : Std.Antisymm fun a b : α => key b < key a :=
    ⟨fun _ _ hab hba => absurd hba (not_lt_of_gt hab)⟩
  exact List.Pairwise.eq_of_mem_iff h h' hmem

/-! ## One page -/

@[simp] theorem older_none (l : List α) : older key none l = l := List.filter_eq_self.2 fun _ _ => rfl

/-- Behind the cursor of an item are the items after it. -/
theorem older_behind {newer rest : List α} {a : α} (h : Descending key (newer ++ a :: rest)) :
    older key (some (key a)) (newer ++ a :: rest) = rest := by
  obtain ⟨-, hrest, hnewer⟩ := List.pairwise_append.1 h
  have hskip : newer.filter (fun b => (some (key a)).all (key b < ·)) = [] := by
    refine List.filter_eq_nil_iff.2 fun b hb => ?_
    have hlt : key a < key b := hnewer b hb a List.mem_cons_self
    simp [hlt.le]
  have hkeep : rest.filter (fun b => (some (key a)).all (key b < ·)) = rest := by
    refine List.filter_eq_self.2 fun b hb => ?_
    have hlt : key b < key a := List.rel_of_pairwise_cons hrest hb
    simp [hlt]
  rw [older, List.filter_append, hskip, List.nil_append, List.filter_cons_of_neg (by simp), hkeep]

/-- A page in terms of the items that are left. -/
theorem page_eq {cursor : Option κ} {l rest : List α} (limit : Nat)
    (h : older key cursor l = rest) : page key cursor limit l =
      ⟨rest.take limit,
        if limit < rest.length then (rest.take limit).getLast?.map key else none⟩ := by
  have hitems : (rest.take (limit + 1)).take limit = rest.take limit := by
    rw [List.take_take, Nat.min_eq_left (Nat.le_succ limit)]
  have hmore : limit < (rest.take (limit + 1)).length ↔ limit < rest.length := by
    rw [List.length_take]
    omega
  simp only [page, h, hitems, hmore]

/-- A page either ends the list or stops at an item with others behind it. -/
theorem page_cases {cursor : Option κ} {l rest : List α} {limit : Nat} (hlimit : 0 < limit)
    (h : older key cursor l = rest) :
    (rest.length ≤ limit ∧ page key cursor limit l = ⟨rest, none⟩) ∨
    ∃ newer a, limit < rest.length ∧ rest = newer ++ a :: rest.drop limit ∧
      page key cursor limit l = ⟨newer ++ [a], some (key a)⟩ ∧ (newer ++ [a]).length = limit := by
  rw [page_eq limit h]
  by_cases hmore : limit < rest.length
  · right
    have hlength : (rest.take limit).length = limit := List.length_take_of_le (by omega)
    have hne : rest.take limit ≠ [] := fun hnil => by
      rw [hnil, List.length_nil] at hlength
      omega
    have hlast := List.dropLast_append_getLast hne
    refine ⟨(rest.take limit).dropLast, (rest.take limit).getLast hne, hmore, ?_, ?_, ?_⟩
    · rw [List.append_cons, hlast, List.take_append_drop]
    · rw [if_pos hmore, hlast, List.getLast?_eq_getLast_of_ne_nil hne, Option.map_some]
    · rw [hlast, hlength]
  · left
    rw [if_neg hmore, List.take_of_length_le (by omega)]
    exact ⟨by omega, rfl⟩

/-- The cursor of the next page is the key of an item of the page. -/
theorem mem_of_next {cursor : Option κ} {limit : Nat} {l : List α} {k : κ}
    (h : (page key cursor limit l).next = some k) :
    ∃ a ∈ (page key cursor limit l).items, key a = k := by
  rw [page_eq limit rfl] at h ⊢
  split at h
  · obtain ⟨a, ha, rfl⟩ := Option.map_eq_some_iff.1 h
    exact ⟨a, List.mem_of_getLast? ha, rfl⟩
  · cases h

/-- The items of a page are items of the list. -/
theorem mem_of_mem_items {cursor : Option κ} {limit : Nat} {l : List α} {a : α}
    (h : a ∈ (page key cursor limit l).items) : a ∈ l := by
  rw [page_eq limit rfl] at h
  exact (mem_older.1 (List.mem_of_mem_take h)).1

/-! ## Following the cursors -/

/-- Ask for pages, each of a list with a limit, as long as the last page names a next one. -/
def follow (key : α → κ) : Option κ → List (List α × Nat) → List (Page α κ)
  | _, [] => []
  | cursor, (l, limit) :: requests =>
    let p := page key cursor limit l
    p :: match p.next with
      | none => []
      | some next => follow key (some next) requests

/-- Pages, each with whether it names a next one, deliver some entries: the entries come in their
order, a next page is named as long as entries are left, and so many requests as there are entries
are enough for all of them. -/
structure Delivers (entries : List α) (pages : List (List α × Bool)) (requests : Nat) : Prop where
  items : pages.flatMap Prod.fst <+: entries
  more : ∀ i items more, pages[i]? = some (items, more) →
    (more = true ↔ ((pages.take (i + 1)).flatMap Prod.fst).length < entries.length)
  complete : 0 < requests → entries.length ≤ requests →
    pages.flatMap Prod.fst = entries ∧ pages.getLast?.map Prod.snd = some false

/-- The same in other words for the entries. -/
theorem Delivers.map {β : Type*} {entries : List α} {pages : List (List α × Bool)} {requests : Nat}
    (h : Delivers entries pages requests) (f : α → β) :
    Delivers (entries.map f) (pages.map fun p => (p.1.map f, p.2)) requests := by
  have hitems : ∀ l : List (List α × Bool),
      (l.map fun p => (p.1.map f, p.2)).flatMap Prod.fst = (l.flatMap Prod.fst).map f := by
    intro l
    rw [List.flatMap_map, List.map_flatMap]
  refine ⟨?_, fun i items more hpage => ?_, fun hpos hle => ?_⟩
  · rw [hitems]
    exact h.items.map f
  · rw [List.getElem?_map] at hpage
    obtain ⟨p, hp, heq⟩ := Option.map_eq_some_iff.1 hpage
    obtain ⟨-, rfl⟩ := Prod.mk.inj heq
    rw [← List.map_take, hitems, List.length_map, List.length_map]
    exact h.more i p.1 p.2 hp
  · rw [List.length_map] at hle
    obtain ⟨hall, hlast⟩ := h.complete hpos hle
    refine ⟨by rw [hitems, hall], ?_⟩
    rw [List.getLast?_map, Option.map_map]
    exact hlast

theorem Delivers.nil (entries : List α) : Delivers entries [] 0 where
  items := List.nil_prefix
  more _ _ _ h := nomatch h
  complete h := absurd h (Nat.lt_irrefl 0)

/-- One page with all entries. -/
theorem Delivers.last (entries : List α) {requests : Nat} :
    Delivers entries [(entries, false)] requests where
  items := by simp
  more i items more h := by
    cases i with
    | zero =>
        cases h
        simp
    | succ i => cases h
  complete _ _ := by simp

/-- One page before pages that deliver what is left. -/
theorem Delivers.cons {items rest : List α} {pages : List (List α × Bool)} {requests : Nat}
    (hitems : items ≠ []) (hrest : rest ≠ []) (h : Delivers rest pages requests) :
    Delivers (items ++ rest) ((items, true) :: pages) (requests + 1) where
  items := by
    rw [List.flatMap_cons, List.prefix_append_right_inj]
    exact h.items
  more i page more hpage := by
    have hpos := List.length_pos_iff.2 hrest
    cases i with
    | zero =>
        cases hpage
        simp [hpos]
    | succ i =>
        rw [h.more i page more hpage, List.take_succ_cons, List.flatMap_cons]
        simp only [List.length_append]
        omega
  complete _ hle := by
    have hpos := List.length_pos_iff.2 hrest
    have hone := List.length_pos_iff.2 hitems
    rw [List.length_append] at hle
    obtain ⟨hall, hlast⟩ := h.complete (by omega) (by omega)
    refine ⟨by rw [List.flatMap_cons, hall], ?_⟩
    cases pages with
    | nil => cases hlast
    | cons p pages => exact hlast

/-- From a cursor on, pages with limits above 0 of lists that end in what is left at first deliver
it. -/
theorem follow_delivers_rest {cursor : Option κ} {requests : List (List α × Nat)} {rest : List α}
    (hfirst : ∀ r ∈ requests.head?, older key cursor r.1 = rest)
    (hlists : ∀ r ∈ requests, rest <:+ r.1 ∧ Descending key r.1 ∧ 0 < r.2) :
    Delivers rest ((follow key cursor requests).map fun p => (p.items, p.next.isSome))
      requests.length := by
  induction requests generalizing cursor rest with
  | nil => exact .nil rest
  | cons r requests ih =>
      obtain ⟨l, limit⟩ := r
      obtain ⟨-, -, hlimit⟩ := hlists (l, limit) List.mem_cons_self
      rcases page_cases hlimit (hfirst (l, limit) rfl) with ⟨-, hpage⟩ |
        ⟨newer, a, hmore, hsplit, hpage, hlength⟩
      · rw [follow, hpage]
        exact .last rest
      · have hne : rest.drop limit ≠ [] := fun hnil => by
          have hzero := congrArg List.length hnil
          rw [List.length_drop, List.length_nil] at hzero
          omega
        have hnext : ∀ r ∈ requests, rest.drop limit <:+ r.1 ∧
            older key (some (key a)) r.1 = rest.drop limit := by
          intro r hr
          obtain ⟨⟨front, hfront⟩, hdescending, -⟩ := hlists r (List.mem_cons_of_mem _ hr)
          refine ⟨(List.drop_suffix limit rest).trans ⟨front, hfront⟩, ?_⟩
          rw [hsplit, ← List.append_assoc] at hfront
          rw [← hfront] at hdescending ⊢
          exact older_behind hdescending
        have hdelivers : Delivers (rest.drop limit)
            ((follow key (some (key a)) requests).map fun p => (p.items, p.next.isSome))
            requests.length :=
          ih (fun r hr => (hnext r (List.mem_of_mem_head? hr)).2)
            fun r hr => ⟨(hnext r hr).1, (hlists r (List.mem_cons_of_mem _ hr)).2⟩
        rw [follow, hpage, hsplit, List.append_cons]
        exact hdelivers.cons (by simp) hne

/-- Whoever follows the cursors from the beginning gets the list of the first request, whatever is
put in front of it in the meantime. -/
theorem follow_delivers {l : List α} {requests : List (List α × Nat)}
    (hfirst : ∀ r ∈ requests.head?, r.1 = l)
    (hlists : ∀ r ∈ requests, l <:+ r.1 ∧ Descending key r.1 ∧ 0 < r.2) :
    Delivers l ((follow key none requests).map fun p => (p.items, p.next.isSome))
      requests.length :=
  follow_delivers_rest (fun r hr => by rw [older_none, hfirst r hr]) hlists

/-! ## Segments -/

/-- How many items of a list are newer than all those of a segment. -/
def newer (key : α → κ) (s l : List α) : Nat := (l.takeWhile fun a => s.all (key · < key a)).length

/-- An item between two items of a segment is in the segment. -/
theorem Descending.between {l s : List α} (h : Descending key l) (hs : s <:+: l) {a b x : α}
    (ha : a ∈ s) (hb : b ∈ s) (hx : x ∈ l) (hxa : key x < key a) (hbx : key b < key x) : x ∈ s := by
  obtain ⟨front, back, rfl⟩ := hs
  obtain ⟨hfront, -, hback⟩ := List.pairwise_append.1 h
  obtain ⟨-, -, hnewer⟩ := List.pairwise_append.1 hfront
  rcases List.mem_append.1 hx with hx | hx
  · rcases List.mem_append.1 hx with hx | hx
    · exact absurd (hnewer x hx a ha) (not_lt_of_gt hxa)
    · exact hx
  · exact absurd (hback b (List.mem_append_right _ hb) x hx) (not_lt_of_gt hbx)

/-- What is behind an item does not depend on what is put in front. -/
theorem older_suffix {l l' : List α} (h : Descending key l') (hl : l <:+ l') {a : α} (ha : a ∈ l) :
    older key (some (key a)) l = older key (some (key a)) l' := by
  obtain ⟨front, rfl⟩ := hl
  obtain ⟨newer, rest, rfl⟩ := List.append_of_mem ha
  rw [older_behind (List.pairwise_append.1 h).2.1]
  rw [← List.append_assoc] at h ⊢
  exact (older_behind h).symm

section
variable {l s : List α} {p : α → Bool}

/-- A page behind an item of a segment makes the segment longer, without the items that it has. -/
theorem Descending.extend (h : Descending key l) (hs : s <:+: l) {a : α} (ha : a ∈ s) (limit : Nat)
    (hp : ∀ b, p b = true ↔ b ∉ s) :
    s ++ ((older key (some (key a)) l).take limit).filter p <:+: l := by
  obtain ⟨front, back, rfl⟩ := hs
  obtain ⟨upper, lower, rfl⟩ := List.append_of_mem ha
  have hsplit : front ++ (upper ++ a :: lower) ++ back =
      (front ++ upper) ++ a :: (lower ++ back) := by simp
  have hrest : older key (some (key a)) (front ++ (upper ++ a :: lower) ++ back) = lower ++ back := by
    rw [hsplit] at h ⊢
    exact older_behind h
  have hlower : (lower.take limit).filter p = [] :=
    List.filter_eq_nil_iff.2 fun b hb hb' => (hp b).1 hb' (by simp [List.mem_of_mem_take hb])
  have hback : (back.take (limit - lower.length)).filter p = back.take (limit - lower.length) := by
    refine List.filter_eq_self.2 fun b hb => (hp b).2 fun hmem => ?_
    have hlt : key b < key b := (List.pairwise_append.1 h).2.2 b (List.mem_append_right _ hmem) b
      (List.mem_of_mem_take hb)
    exact lt_irrefl _ hlt
  rw [hrest, List.take_append, List.filter_append, hlower, hback, List.nil_append]
  refine ⟨front, back.drop (limit - lower.length), ?_⟩
  simp only [List.append_assoc, List.take_append_drop]

/-- The items in front of a segment are those that are newer than all of it. -/
theorem Descending.newer_eq {front back : List α} (h : Descending key (front ++ s ++ back))
    (hs : s ≠ []) : newer key s (front ++ s ++ back) = front.length := by
  obtain ⟨a, tail, rfl⟩ := List.exists_cons_of_ne_nil hs
  have hnewer := (List.pairwise_append.1 (List.pairwise_append.1 h).1).2.2
  have hfront : ∀ b ∈ front, ((a :: tail).all (key · < key b)) = true := fun b hb =>
    List.all_eq_true.2 fun x hx => decide_eq_true (hnewer b hb x hx)
  rw [newer, List.append_assoc, List.takeWhile_append_of_pos hfront, List.cons_append,
    List.takeWhile_cons_of_neg (by simp), List.append_nil]

/-- The first page and a segment without the items of the page are a segment, if the page reaches
it. -/
theorem Descending.join (h : Descending key l) (hs : s <:+: l) {limit : Nat}
    (hp : ∀ b, p b = true ↔ b ∉ l.take limit) (hjoin : s = [] ∨ newer key s l ≤ limit) :
    l.take limit ++ s.filter p <:+: l := by
  rcases eq_or_ne s [] with rfl | hne
  · rw [List.filter_nil, List.append_nil]
    exact (List.take_prefix limit l).isInfix
  obtain ⟨front, back, rfl⟩ := hs
  have hle := hjoin.resolve_left hne
  rw [h.newer_eq hne] at hle
  obtain ⟨n, rfl⟩ := Nat.exists_eq_add_of_le hle
  have htake : (front ++ s ++ back).take (front.length + n) = front ++ (s ++ back).take n := by
    rw [List.append_assoc, List.take_length_add_append]
  rcases Nat.lt_or_ge s.length n with hlt | hge
  · -- the page has the whole segment
    have hnone : s.filter p = [] := by
      refine List.filter_eq_nil_iff.2 fun b hb hb' => (hp b).1 hb' ?_
      rw [htake, List.take_append, List.take_of_length_le hlt.le]
      simp [hb]
    rw [hnone, List.append_nil]
    exact (List.take_prefix _ _).isInfix
  · -- the page has the beginning of the segment
    rw [List.take_append_of_le_length hge] at htake
    have hnodup : (front ++ s.take n ++ s.drop n).Nodup := by
      rw [List.append_assoc, List.take_append_drop]
      exact (List.nodup_append.1 h.nodup).1
    have hfirst : (s.take n).filter p = [] := by
      refine List.filter_eq_nil_iff.2 fun b hb hb' => (hp b).1 hb' ?_
      rw [htake]
      exact List.mem_append_right _ hb
    have hlast : (s.drop n).filter p = s.drop n := by
      refine List.filter_eq_self.2 fun b hb => (hp b).2 fun hmem => ?_
      rw [htake] at hmem
      exact hnodup.disjoint hmem hb
    have hrest : s.filter p = s.drop n := by
      conv_lhs => rw [← List.take_append_drop n s]
      rw [List.filter_append, hfirst, hlast, List.nil_append]
    rw [htake, hrest, List.append_assoc, List.take_append_drop]
    exact (List.prefix_append _ _).isInfix

/-- A page that is too short to reach a segment leaves a hole. -/
theorem Descending.newer_le_of_join {l' : List α} (h : Descending key l') (hl : l <:+ l')
    (hs : s <:+: l) {limit : Nat} (hlimit : 0 < limit) (hp : ∀ b, p b = true ↔ b ∉ l.take limit)
    (hjoin : l.take limit ++ s.filter p <:+: l') : s = [] ∨ newer key s l ≤ limit := by
  rw [or_iff_not_imp_left]
  intro hne
  have hdescending : Descending key l := h.sublist hl.sublist
  obtain ⟨front, back, rfl⟩ := hs
  rw [hdescending.newer_eq hne]
  by_contra hlt
  rw [Nat.not_le] at hlt
  obtain ⟨b, tail, rfl⟩ := List.exists_cons_of_ne_nil hne
  have htake : (front ++ b :: tail ++ back).take limit = front.take limit := by
    rw [List.append_assoc, List.take_append_of_le_length hlt.le]
  have hfront := (List.pairwise_append.1 hdescending).1
  obtain ⟨hdescending', -, hnewer⟩ := List.pairwise_append.1 hfront
  have hfirst : front[0] ∈ front.take limit :=
    List.mem_take_iff_getElem.2 ⟨0, by omega, rfl⟩
  have hb : b ∉ front.take limit := fun hmem =>
    lt_irrefl _ (hnewer b (List.mem_of_mem_take hmem) b List.mem_cons_self)
  have hmem := h.between hjoin (a := front[0]) (b := b) (x := front[limit]) ?_ ?_ ?_ ?_ ?_
  · rcases List.mem_append.1 hmem with hmem | hmem
    · rw [htake, List.mem_take_iff_getElem] at hmem
      obtain ⟨i, hi, heq⟩ := hmem
      have hsame := (List.Nodup.getElem_inj_iff hdescending'.nodup).1 heq
      omega
    · exact lt_irrefl _ (hnewer _ (List.getElem_mem hlt) _ (List.mem_of_mem_filter hmem))
  · rw [htake]
    exact List.mem_append_left _ hfirst
  · refine List.mem_append_right _ (List.mem_filter.2 ⟨List.mem_cons_self, (hp b).2 ?_⟩)
    rw [htake]
    exact hb
  · exact hl.subset (by simp [List.getElem_mem])
  · exact List.pairwise_iff_getElem.1 hdescending' 0 limit (by omega) hlt hlimit
  · exact hnewer _ (List.getElem_mem hlt) b List.mem_cons_self

end

end Pages
