import KCoin.Lib.Pages

/-!
# A paginated history in the browser

`usePaginatedResource` shows a history page by page. It loads the first page, puts the first page in
front again whenever the history has grown, and appends older pages on demand. Requests are under way
at the same time and end in any order. What it shows is a segment of the history as long as every
first page that it puts in front reaches what is shown already, and a page that does not reach it
leaves a hole (`contiguous_iff`).
-/

namespace KCoin

namespace PaginatedResource

/-- Why a page was asked for: the initial load, a refresh, or `loadMore`. -/
inductive LoadKind
  | initial
  | refresh
  | older
  deriving DecidableEq

/-- A call of the loader with the generation and the abort controller it was made with. The server
reads the history at some time after the call. -/
structure Load (α κ : Type) where
  kind : LoadKind
  cursor : Option κ
  generation : Nat
  controller : Nat
  served : Option (List α)

/-- The history on the server, the state and the references of the hook, and the calls of the loader
that are under way. -/
structure State (α κ : Type) where
  history : List α
  items : List α
  nextCursor : Option κ
  error : Option String
  initialized : Bool
  loading : Bool
  loadingMore : Bool
  /-- The cursor and the flag that `loadMore` was rendered with. -/
  rendered : Option κ × Bool
  generation : Nat
  initializedRef : Bool
  loadedBeyondFirst : Bool
  loadController : Option Nat
  pageController : Option Nat
  refreshController : Option Nat
  /-- The number of abort controllers so far. -/
  controllers : Nat
  aborted : List Nat
  pending : List (Load α κ)

/-- What happens on the server, in the component and in the network. -/
inductive Event (α : Type)
  /-- The history grows. -/
  | finalize (items : List α)
  | render
  /-- `reload`, or other reset dependencies. -/
  | reset
  /-- Another `refreshKey`. -/
  | refresh
  | loadMore
  | serve (controller : Nat)
  | resolve (controller : Nat)
  | reject (controller : Nat) (reason : Option String)

/-- The message of a failure that has none. -/
def LoadKind.failure : LoadKind → String
  | .initial => "Unable to load history."
  | .refresh => "Unable to refresh history."
  | .older => "Unable to load older history."

namespace State

section
variable {α ι κ : Type} [DecidableEq ι] [LinearOrder κ] (key : α → κ) (keyOf : α → ι) (limit : Nat)

def abort (s : State α κ) (controller : Option Nat) : State α κ :=
  { s with aborted := s.aborted ++ controller.toList }

/-- Call the loader, with a new abort controller. -/
def load (s : State α κ) (kind : LoadKind) (cursor : Option κ) : State α κ :=
  { s with
    controllers := s.controllers + 1
    pending := s.pending ++ [⟨kind, cursor, s.generation, s.controllers, none⟩] }

/-- The effect of the reset dependencies, after the clean-up of the one before it. The component is
rendered with what it sets. -/
def reset (s : State α κ) : State α κ :=
  let s := ((s.abort s.loadController).abort s.pageController).abort s.refreshController
  let s := { s with
    generation := s.generation + 1
    initializedRef := false
    loadedBeyondFirst := false
    items := []
    nextCursor := none
    error := none
    initialized := false
    loading := true
    loadingMore := false
    rendered := (none, false)
    loadController := some s.controllers }
  s.load .initial none

/-- The effect of another `refreshKey`. -/
def refresh (s : State α κ) : State α κ :=
  if s.initializedRef then
    let s := s.abort s.refreshController
    { s with refreshController := some s.controllers }.load .refresh none
  else s

/-- `loadMore` as it was rendered last. -/
def loadMore (s : State α κ) : State α κ :=
  match s.rendered with
  | (some cursor, false) =>
    let s := s.abort s.pageController
    { s with
      pageController := some s.controllers
      loadingMore := true
      error := none }.load .older (some cursor)
  | _ => s

/-- The call was neither aborted nor made before a reset. -/
def live (s : State α κ) (load : Load α κ) : Bool :=
  load.controller ∉ s.aborted && load.generation = s.generation

/-- The `finally` handler. -/
def settled (s : State α κ) (load : Load α κ) : State α κ :=
  if s.live load then
    match load.kind with
    | .initial => { s with loading := false }
    | .refresh => s
    | .older => { s with loadingMore := false }
  else s

/-- The items that are not among some others. -/
def without (items others : List α) : List α :=
  items.filter fun a => keyOf a ∉ others.map keyOf

/-- The `then` handler. -/
def resolved (s : State α κ) (load : Load α κ) (page : Pages.Page α κ) : State α κ :=
  match load.kind with
  | .initial =>
    if load.generation = s.generation then
      { s with
        items := page.items
        nextCursor := page.next
        initialized := true
        initializedRef := true }
    else s
  | .refresh =>
    if s.live load then
      { s with
        items := page.items ++ without keyOf s.items page.items
        nextCursor := if s.loadedBeyondFirst then s.nextCursor else page.next }
    else s
  | .older =>
    if load.generation = s.generation then
      { s with
        loadedBeyondFirst := true
        items := s.items ++ without keyOf page.items s.items
        nextCursor := page.next }
    else s

/-- The `catch` handler. -/
def rejected (s : State α κ) (load : Load α κ) (reason : Option String) : State α κ :=
  if s.live load then { s with error := some (reason.getD load.kind.failure) } else s

/-- The call that has a controller. -/
def find (s : State α κ) (controller : Nat) : Option (Load α κ) :=
  s.pending.find? (·.controller = controller)

/-- The call is over. -/
def finish (s : State α κ) (controller : Nat) : State α κ :=
  { s with pending := s.pending.filter (·.controller ≠ controller) }

/-- The server answers a call with the history that it has. -/
def serve (s : State α κ) (controller : Nat) : State α κ :=
  { s with
    pending := s.pending.map fun load =>
      if load.controller = controller ∧ load.served.isNone then
        { load with served := some s.history }
      else load }

def resolve (s : State α κ) (controller : Nat) : State α κ :=
  match s.find controller with
  | some load =>
    match load.served with
    | some l =>
      ((s.finish controller).resolved keyOf load (Pages.page key load.cursor limit l)).settled load
    | none => s
  | none => s

def reject (s : State α κ) (controller : Nat) (reason : Option String) : State α κ :=
  match s.find controller with
  | some load => ((s.finish controller).rejected load reason).settled load
  | none => s

def step (s : State α κ) : Event α → State α κ
  | .finalize items => { s with history := items ++ s.history }
  | .render => { s with rendered := (s.nextCursor, s.loadingMore) }
  | .reset => s.reset
  | .refresh => s.refresh
  | .loadMore => s.loadMore
  | .serve controller => s.serve controller
  | .resolve controller => s.resolve key keyOf limit controller
  | .reject controller reason => s.reject controller reason

/-- The component is mounted on a history. -/
def mount (history : List α) : State α κ :=
  reset {
    history
    items := []
    nextCursor := none
    error := none
    initialized := false
    loading := true
    loadingMore := false
    rendered := (none, false)
    generation := 0
    initializedRef := false
    loadedBeyondFirst := false
    loadController := none
    pageController := none
    refreshController := none
    controllers := 0
    aborted := []
    pending := [] }

/-- The component after some events. -/
def run (history : List α) (events : List (Event α)) : State α κ :=
  events.foldl (step key keyOf limit) (mount history)

/-! ## What is shown -/

/-- The items shown are a segment of the history, newest first. -/
def Contiguous (s : State α κ) : Prop :=
  Pages.Descending key s.items ∧ s.items <:+: s.history

/-- A first page that a refresh puts in front reaches the items shown: when it was served, no more
items were newer than these than the page has. -/
def Joins (s : State α κ) : Event α → Prop
  | .resolve controller => ∀ load ∈ s.find controller, ∀ l ∈ load.served,
    load.kind = .refresh → s.live load = true → s.items = [] ∨ Pages.newer key s.items l ≤ limit
  | _ => True

end

/-! ## The invariant -/

section
variable {α κ : Type} [LinearOrder κ] (key : α → κ)

/-- What a call of the loader that is under way may count on. -/
structure Fits (s : State α κ) (load : Load α κ) : Prop where
  controller : load.controller < s.controllers
  generation : load.generation ≤ s.generation
  served : ∀ l ∈ load.served, l <:+ s.history
  /-- There is one initial load, and nothing is shown before it ends. -/
  initial : load.kind = .initial → load.generation = s.generation →
    s.initializedRef = false ∧ s.loadController = some load.controller ∧ load.cursor = none
  /-- There is one refresh that is not aborted, and it knows what is shown. -/
  refresh : load.kind = .refresh → s.live load = true →
    s.initializedRef = true ∧ s.refreshController = some load.controller ∧ load.cursor = none ∧
      ∀ l ∈ load.served, s.items <:+: l
  /-- An older page is the one behind an item that is shown. -/
  older : load.kind = .older → load.generation = s.generation →
    ∃ a ∈ s.items, load.cursor = some (key a) ∧ ∀ l ∈ load.served, a ∈ l

/-- The invariant of the hook. -/
structure Inv (s : State α κ) : Prop where
  descending : Pages.Descending key s.history
  segment : s.items <:+: s.history
  empty : s.initializedRef = false → s.items = []
  cursors : ∀ c, s.nextCursor = some c ∨ s.rendered.1 = some c → ∃ a ∈ s.items, key a = c
  pending : ∀ load ∈ s.pending, s.Fits key load

variable {key} {s s' : State α κ} {l : Load α κ}

omit [LinearOrder κ] in
theorem live_iff : s.live l = true ↔ l.controller ∉ s.aborted ∧ l.generation = s.generation := by
  simp [live]

theorem Inv.contiguous (h : s.Inv key) : s.Contiguous key :=
  ⟨List.Pairwise.sublist h.segment.sublist h.descending, h.segment⟩

omit [LinearOrder κ] in
/-- A call still fits when the history has grown, other calls were aborted, and the rest is as it
was. -/
theorem Fits.of_same (h : s.Fits key l) (hcontrollers : s.controllers ≤ s'.controllers)
    (hgeneration : s'.generation = s.generation) (hhistory : s.history <:+ s'.history)
    (hitems : s'.items = s.items) (hinitialized : s'.initializedRef = s.initializedRef)
    (hload : s'.loadController = s.loadController) (haborted : s.aborted ⊆ s'.aborted)
    (hrefresh : l.kind = .refresh → s'.live l = true →
      s'.refreshController = s.refreshController) : s'.Fits key l where
  controller := Nat.lt_of_lt_of_le h.controller hcontrollers
  generation := hgeneration ▸ h.generation
  served l' hl' := (h.served l' hl').trans hhistory
  initial hkind hgen := by
    rw [hinitialized, hload]
    exact h.initial hkind (hgen.trans hgeneration)
  refresh hkind hlive := by
    obtain ⟨hnot, hgen⟩ := live_iff.1 hlive
    rw [hinitialized, hrefresh hkind hlive, hitems]
    exact h.refresh hkind (live_iff.2 ⟨fun hmem => hnot (haborted hmem), hgen.trans hgeneration⟩)
  older hkind hgen := by
    rw [hitems]
    exact h.older hkind (hgen.trans hgeneration)

/-- The parts that the invariant is about are the same. -/
structure SameCore (s s' : State α κ) : Prop where
  history : s'.history = s.history
  items : s'.items = s.items
  cursors : s'.nextCursor = s.nextCursor ∧ s'.rendered = s.rendered
  generation : s'.generation = s.generation
  initializedRef : s'.initializedRef = s.initializedRef
  controllers : s'.controllers = s.controllers ∧ s'.loadController = s.loadController ∧
    s'.refreshController = s.refreshController
  aborted : s'.aborted = s.aborted
  pending : s'.pending = s.pending

omit [LinearOrder κ] in
theorem sameCore_settled (s : State α κ) (l : Load α κ) : s.SameCore (s.settled l) := by
  unfold settled
  split
  · split <;> exact ⟨rfl, rfl, ⟨rfl, rfl⟩, rfl, rfl, ⟨rfl, rfl, rfl⟩, rfl, rfl⟩
  · exact ⟨rfl, rfl, ⟨rfl, rfl⟩, rfl, rfl, ⟨rfl, rfl, rfl⟩, rfl, rfl⟩

omit [LinearOrder κ] in
theorem sameCore_rejected (s : State α κ) (l : Load α κ) (reason : Option String) :
    s.SameCore (s.rejected l reason) := by
  unfold rejected
  split <;> exact ⟨rfl, rfl, ⟨rfl, rfl⟩, rfl, rfl, ⟨rfl, rfl, rfl⟩, rfl, rfl⟩

theorem Inv.of_same (h : s.Inv key) (hs : s.SameCore s') : s'.Inv key := by
  refine ⟨hs.history ▸ h.descending, by rw [hs.items, hs.history]; exact h.segment, ?_, ?_, ?_⟩
  · rw [hs.initializedRef, hs.items]
    exact h.empty
  · rw [hs.cursors.1, hs.cursors.2, hs.items]
    exact h.cursors
  · intro l hl
    rw [hs.pending] at hl
    exact (h.pending l hl).of_same hs.controllers.1.ge hs.generation
      (hs.history ▸ List.suffix_refl _) hs.items hs.initializedRef hs.controllers.2.1 (by rw [hs.aborted]; exact List.Subset.refl _)
      fun _ _ => hs.controllers.2.2

theorem Inv.finish (h : s.Inv key) (controller : Nat) : (s.finish controller).Inv key :=
  ⟨h.descending, h.segment, h.empty, h.cursors, fun l hl =>
    (h.pending l (List.mem_of_mem_filter hl)).of_same (le_refl _) rfl (List.suffix_refl _) rfl rfl rfl
      (List.Subset.refl _) fun _ _ => rfl⟩

theorem Inv.finalize (h : s.Inv key) {items : List α}
    (hd : Pages.Descending key (items ++ s.history)) :
    ({ s with history := items ++ s.history } : State α κ).Inv key :=
  ⟨hd, h.segment.trans (List.suffix_append _ _).isInfix, h.empty, h.cursors, fun l hl =>
    (h.pending l hl).of_same (le_refl _) rfl (List.suffix_append _ _) rfl rfl rfl
      (List.Subset.refl _) fun _ _ => rfl⟩

theorem Inv.render (h : s.Inv key) :
    ({ s with rendered := (s.nextCursor, s.loadingMore) } : State α κ).Inv key :=
  ⟨h.descending, h.segment, h.empty, fun c hc => h.cursors c (hc.elim .inl .inl), fun l hl =>
    (h.pending l hl).of_same (le_refl _) rfl (List.suffix_refl _) rfl rfl rfl
      (List.Subset.refl _) fun _ _ => rfl⟩

/-- A reset makes the calls so far ones of an old generation. -/
theorem Inv.reset (h : s.Inv key) : s.reset.Inv key := by
  refine ⟨h.descending, List.nil_infix, fun _ => rfl, ?_, fun l hl => ?_⟩
  · rintro c (hc | hc) <;> cases hc
  · rcases List.mem_append.1 hl with hl | hl
    · have hfits := h.pending l hl
      have hold : l.generation ≠ s.generation + 1 := Nat.ne_of_lt (Nat.lt_succ_of_le hfits.generation)
      exact ⟨Nat.lt_succ_of_lt hfits.controller, Nat.le_succ_of_le hfits.generation, hfits.served,
        fun _ hgen => absurd hgen hold, fun _ hlive => absurd (live_iff.1 hlive).2 hold,
        fun _ hgen => absurd hgen hold⟩
    · obtain rfl := List.mem_singleton.1 hl
      exact ⟨Nat.lt_succ_self _, le_refl _, nofun, fun _ _ => ⟨rfl, rfl, rfl⟩, nofun, nofun⟩

/-- A refresh aborts the one before it. -/
theorem Inv.refresh (h : s.Inv key) : s.refresh.Inv key := by
  unfold State.refresh
  split
  · next hinitialized =>
      refine ⟨h.descending, h.segment, h.empty, h.cursors, fun l hl => ?_⟩
      rcases List.mem_append.1 hl with hl | hl
      · refine (h.pending l hl).of_same (Nat.le_succ _) rfl (List.suffix_refl _) rfl rfl rfl
          (List.subset_append_left _ _) fun hkind hlive => ?_
        obtain ⟨hnot, hgen⟩ := live_iff.1 hlive
        have hnot : l.controller ∉ s.aborted ++ s.refreshController.toList := hnot
        rw [List.mem_append, not_or] at hnot
        have hcontroller := ((h.pending l hl).refresh hkind (live_iff.2 ⟨hnot.1, hgen⟩)).2.1
        rw [hcontroller] at hnot
        exact absurd List.mem_cons_self hnot.2
      · obtain rfl := List.mem_singleton.1 hl
        exact ⟨Nat.lt_succ_self _, le_refl _, nofun, nofun,
          fun _ _ => ⟨hinitialized, rfl, rfl, nofun⟩, nofun⟩
  · exact h

/-- An older page is asked for behind an item that is shown. -/
theorem Inv.loadMore (h : s.Inv key) : s.loadMore.Inv key := by
  unfold State.loadMore
  split
  · next cursor hrendered =>
      refine ⟨h.descending, h.segment, h.empty, h.cursors, fun l hl => ?_⟩
      rcases List.mem_append.1 hl with hl | hl
      · exact (h.pending l hl).of_same (Nat.le_succ _) rfl (List.suffix_refl _) rfl rfl rfl
          (List.subset_append_left _ _) fun _ _ => rfl
      · obtain rfl := List.mem_singleton.1 hl
        obtain ⟨a, ha, rfl⟩ := h.cursors cursor (.inr (by rw [hrendered]))
        exact ⟨Nat.lt_succ_self _, le_refl _, nofun, nofun, nofun, fun _ _ => ⟨a, ha, rfl, nofun⟩⟩
  · exact h

/-- An answer has what is shown when it is given. -/
theorem Inv.serve (h : s.Inv key) (controller : Nat) : (s.serve controller).Inv key := by
  refine ⟨h.descending, h.segment, h.empty, h.cursors, fun l hl => ?_⟩
  obtain ⟨l, hmem, rfl⟩ := List.mem_map.1 hl
  have hfits : (s.serve controller).Fits key l := (h.pending l hmem).of_same (le_refl _) rfl
    (List.suffix_refl _) rfl rfl rfl (List.Subset.refl _) fun _ _ => rfl
  split
  · refine ⟨hfits.controller, hfits.generation, ?_, hfits.initial, fun hkind hlive => ?_,
      fun hkind hgen => ?_⟩
    · rintro l' ⟨⟩
      exact List.suffix_refl _
    · obtain ⟨hinitialized, hcontroller, hcursor, -⟩ := hfits.refresh hkind hlive
      refine ⟨hinitialized, hcontroller, hcursor, ?_⟩
      rintro l' ⟨⟩
      exact h.segment
    · obtain ⟨a, ha, hcursor, -⟩ := hfits.older hkind hgen
      refine ⟨a, ha, hcursor, ?_⟩
      rintro l' ⟨⟩
      exact h.segment.subset ha
  · exact hfits

end

/-! ## A call that ends -/

section
variable {α ι κ : Type} [DecidableEq ι] [LinearOrder κ] {key : α → κ} {keyOf : α → ι} {limit : Nat}
  {s : State α κ} {l : Load α κ} {r : List α}

omit [LinearOrder κ] in
theorem mem_without (hkeyOf : Function.Injective keyOf) (others : List α) (a : α) :
    decide (keyOf a ∉ others.map keyOf) = true ↔ a ∉ others := by
  rw [decide_eq_true_iff, List.mem_map_of_injective hkeyOf]

/-- The initial load ends: the first page is all that is shown. -/
theorem Inv.resolved_initial (h : s.Inv key) (hl : s.Fits key l)
    (hothers : ∀ l' ∈ s.pending, l'.controller ≠ l.controller) (hr : r ∈ l.served)
    (hkind : l.kind = .initial) :
    (s.resolved keyOf l (Pages.page key l.cursor limit r)).Inv key := by
  unfold resolved
  rw [hkind]
  dsimp only
  split
  · next hgen =>
      obtain ⟨hfresh, hload, hcursor⟩ := hl.initial hkind hgen
      have hempty := h.empty hfresh
      have hnone : ¬∃ a ∈ s.items, True := by simp [hempty]
      rw [hcursor]
      refine ⟨h.descending, ?_, nofun, ?_, fun l' hl' => ?_⟩
      · rw [Pages.page_eq limit (Pages.older_none r)]
        exact (List.take_prefix limit r).isInfix.trans (hl.served r hr).isInfix
      · rintro c (hc | hc)
        · exact Pages.mem_of_next (show (Pages.page key none limit r).next = some c from hc)
        · obtain ⟨a, ha, -⟩ := h.cursors c (.inr hc)
          exact absurd ⟨a, ha, trivial⟩ hnone
      · have hfits := h.pending l' hl'
        refine ⟨hfits.controller, hfits.generation, hfits.served, fun hkind' hgen' => ?_,
          fun hkind' hlive' => ?_, fun hkind' hgen' => ?_⟩
        · -- there is one initial load
          have hsame := (hfits.initial hkind' hgen').2.1
          exact absurd (Option.some.inj (hsame.symm.trans hload)) (hothers l' hl')
        · exact absurd ((hfits.refresh hkind' hlive').1.symm.trans hfresh) (by decide)
        · obtain ⟨a, ha, -⟩ := hfits.older hkind' hgen'
          exact absurd ⟨a, ha, trivial⟩ hnone
  · exact h

/-- A refresh ends: the first page is put in front, if it reaches what is shown. -/
theorem Inv.resolved_refresh (h : s.Inv key) (hl : s.Fits key l)
    (hothers : ∀ l' ∈ s.pending, l'.controller ≠ l.controller) (hr : r ∈ l.served)
    (hkind : l.kind = .refresh) (hkeyOf : Function.Injective keyOf)
    (hjoin : s.live l = true → s.items = [] ∨ Pages.newer key s.items r ≤ limit) :
    (s.resolved keyOf l (Pages.page key l.cursor limit r)).Inv key := by
  unfold resolved
  rw [hkind]
  dsimp only
  split
  · next hlive =>
      obtain ⟨hinitialized, hcontroller, hcursor, hsegment⟩ := hl.refresh hkind hlive
      have hitems : (Pages.page key none limit r).items = r.take limit := by
        rw [Pages.page_eq limit (Pages.older_none r)]
      have hdescending : Pages.Descending key r :=
        List.Pairwise.sublist (hl.served r hr).sublist h.descending
      have hkeep : ∀ a ∈ s.items, a ∈ (Pages.page key none limit r).items ++
          without keyOf s.items (Pages.page key none limit r).items := by
        intro a ha
        by_cases hmem : a ∈ (Pages.page key none limit r).items
        · exact List.mem_append_left _ hmem
        · exact List.mem_append_right _ (List.mem_filter.2 ⟨ha, (mem_without hkeyOf _ a).2 hmem⟩)
      rw [hcursor]
      refine ⟨h.descending, ?_, fun hfresh => ?_, ?_, fun l' hl' => ?_⟩
      · refine List.IsInfix.trans ?_ (hl.served r hr).isInfix
        rw [hitems]
        exact hdescending.join (hsegment r hr) (mem_without hkeyOf _) (hjoin hlive)
      · exact absurd (hinitialized.symm.trans hfresh) (by decide)
      · have hold : ∀ c, s.nextCursor = some c ∨ s.rendered.1 = some c →
            ∃ a ∈ (Pages.page key none limit r).items ++
              without keyOf s.items (Pages.page key none limit r).items, key a = c := by
          intro c hc
          obtain ⟨a, ha, hkey⟩ := h.cursors c hc
          exact ⟨a, hkeep a ha, hkey⟩
        rintro c (hc | hc)
        · dsimp only at hc
          split at hc
          · exact hold c (.inl hc)
          · obtain ⟨a, ha, hkey⟩ := Pages.mem_of_next hc
            exact ⟨a, List.mem_append_left _ ha, hkey⟩
        · exact hold c (.inr hc)
      · have hfits := h.pending l' hl'
        refine ⟨hfits.controller, hfits.generation, hfits.served, hfits.initial,
          fun hkind' hlive' => ?_, fun hkind' hgen' => ?_⟩
        · -- the other refreshes are aborted
          have hsame := (hfits.refresh hkind' hlive').2.1
          exact absurd (Option.some.inj (hsame.symm.trans hcontroller)) (hothers l' hl')
        · obtain ⟨a, ha, hrest⟩ := hfits.older hkind' hgen'
          exact ⟨a, hkeep a ha, hrest⟩
  · exact h

/-- An older page ends: it makes what is shown longer. -/
theorem Inv.resolved_older (h : s.Inv key) (hl : s.Fits key l) (hr : r ∈ l.served)
    (hkind : l.kind = .older) (hkeyOf : Function.Injective keyOf) :
    (s.resolved keyOf l (Pages.page key l.cursor limit r)).Inv key := by
  unfold resolved
  rw [hkind]
  dsimp only
  split
  · next hgen =>
      obtain ⟨a, ha, hcursor, hserved⟩ := hl.older hkind hgen
      have hmem : a ∈ s.history := h.segment.subset ha
      have hitems : (Pages.page key (some (key a)) limit r).items =
          (Pages.older key (some (key a)) s.history).take limit := by
        rw [Pages.page_eq limit rfl,
          Pages.older_suffix h.descending (hl.served r hr) (hserved r hr)]
      have hinitialized : s.initializedRef ≠ false := fun hfresh => by
        rw [h.empty hfresh] at ha
        exact List.not_mem_nil ha
      -- the page is the one of every list that has the item and ends as the history does
      have hextend : ∀ l', l' <:+ s.history → s.items <:+: l' →
          s.items ++ without keyOf (Pages.page key (some (key a)) limit r).items s.items <:+: l' := by
        intro l' hl' hsegment
        rw [hitems, ← Pages.older_suffix h.descending hl' (hsegment.subset ha)]
        exact Pages.Descending.extend (List.Pairwise.sublist hl'.sublist h.descending) hsegment ha
          limit (mem_without hkeyOf _)
      rw [hcursor]
      refine ⟨h.descending, hextend _ (List.suffix_refl _) h.segment, fun hfresh => ?_, ?_,
        fun l' hl' => ?_⟩
      · exact absurd hfresh hinitialized
      · rintro c (hc | hc)
        · have hc : (Pages.page key (some (key a)) limit r).next = some c := hc
          obtain ⟨b, hb, hkey⟩ := Pages.mem_of_next hc
          by_cases hshown : b ∈ s.items
          · exact ⟨b, List.mem_append_left _ hshown, hkey⟩
          · refine ⟨b, List.mem_append_right _ (List.mem_filter.2 ⟨hb, ?_⟩), hkey⟩
            exact (mem_without hkeyOf _ b).2 hshown
        · obtain ⟨b, hb, hkey⟩ := h.cursors c (.inr hc)
          exact ⟨b, List.mem_append_left _ hb, hkey⟩
      · have hfits := h.pending l' hl'
        refine ⟨hfits.controller, hfits.generation, hfits.served, fun hkind' hgen' => ?_,
          fun hkind' hlive' => ?_, fun hkind' hgen' => ?_⟩
        · exact absurd (hfits.initial hkind' hgen').1 hinitialized
        · obtain ⟨h₁, h₂, h₃, hsegment⟩ := hfits.refresh hkind' hlive'
          exact ⟨h₁, h₂, h₃, fun r' hr' => hextend r' (hfits.served r' hr') (hsegment r' hr')⟩
        · obtain ⟨b, hb, hrest⟩ := hfits.older hkind' hgen'
          exact ⟨b, List.mem_append_left _ hb, hrest⟩
  · exact h

theorem Inv.resolved (h : s.Inv key) (hl : s.Fits key l)
    (hothers : ∀ l' ∈ s.pending, l'.controller ≠ l.controller) (hr : r ∈ l.served)
    (hkeyOf : Function.Injective keyOf) (hjoin : l.kind = .refresh → s.live l = true →
      s.items = [] ∨ Pages.newer key s.items r ≤ limit) :
    (s.resolved keyOf l (Pages.page key l.cursor limit r)).Inv key := by
  cases hkind : l.kind with
  | initial => exact h.resolved_initial hl hothers hr hkind
  | refresh => exact h.resolved_refresh hl hothers hr hkind hkeyOf (hjoin hkind)
  | older => exact h.resolved_older hl hr hkind hkeyOf

/-! ## Every event -/

omit [DecidableEq ι] [LinearOrder κ] in
theorem mem_of_find {controller : Nat} (hl : s.find controller = some l) :
    l ∈ s.pending ∧ l.controller = controller :=
  ⟨List.mem_of_find?_eq_some hl, by simpa using List.find?_some hl⟩

/-- Every event keeps the invariant, if the pages that refreshes put in front reach what is shown. -/
theorem Inv.step (h : s.Inv key) (hkeyOf : Function.Injective keyOf) {e : Event α}
    (hd : Pages.Descending key (s.step key keyOf limit e).history) (hj : s.Joins key limit e) :
    (s.step key keyOf limit e).Inv key := by
  cases e with
  | finalize items => exact h.finalize hd
  | render => exact h.render
  | reset => exact h.reset
  | refresh => exact h.refresh
  | loadMore => exact h.loadMore
  | serve controller => exact h.serve controller
  | resolve controller =>
      change (s.resolve key keyOf limit controller).Inv key
      unfold State.resolve
      cases hfind : s.find controller with
      | none => exact h
      | some l =>
          dsimp only
          cases hserved : l.served with
          | none => exact h
          | some r =>
              obtain ⟨hmem, hcontroller⟩ := mem_of_find hfind
              have hfinish := h.finish controller
              have hfits : (s.finish controller).Fits key l := (h.pending l hmem).of_same (le_refl _)
                rfl (List.suffix_refl _) rfl rfl rfl (List.Subset.refl _) fun _ _ => rfl
              refine Inv.of_same (hfinish.resolved hfits (fun l' hl' => ?_) hserved hkeyOf ?_)
                (sameCore_settled _ _)
              · rw [hcontroller]
                simpa using (List.mem_filter.1 hl').2
              · exact hj l hfind r hserved
  | reject controller reason =>
      change (s.reject controller reason).Inv key
      unfold State.reject
      cases s.find controller with
      | none => exact h
      | some l =>
          exact ((h.finish controller).of_same (sameCore_rejected _ _ _)).of_same
            (sameCore_settled _ _)

/-- A page that a refresh puts in front has to reach what is shown. -/
theorem Inv.joins_of_contiguous (h : s.Inv key) (hkeyOf : Function.Injective keyOf)
    (hlimit : 0 < limit) {e : Event α} (hc : (s.step key keyOf limit e).Contiguous key) :
    s.Joins key limit e := by
  cases e with
  | resolve controller =>
      intro l hfind r hserved hkind hlive
      have hfits := h.pending l (mem_of_find hfind).1
      obtain ⟨-, -, hcursor, hsegment⟩ := hfits.refresh hkind hlive
      have hinfix : (s.resolve key keyOf limit controller).items <:+:
          (s.resolve key keyOf limit controller).history := hc.2
      have hstep : s.resolve key keyOf limit controller =
          ((s.finish controller).resolved keyOf l (Pages.page key l.cursor limit r)).settled l := by
        unfold State.resolve
        rw [hfind]
        dsimp only
        rw [show l.served = some r from hserved]
      have hsame := sameCore_settled
        ((s.finish controller).resolved keyOf l (Pages.page key l.cursor limit r)) l
      have hlive' : (s.finish controller).live l = true := hlive
      rw [hstep, hsame.items, hsame.history, State.resolved, hkind] at hinfix
      dsimp only at hinfix
      rw [if_pos hlive', hcursor, Pages.page_eq limit (Pages.older_none r)] at hinfix
      exact Pages.Descending.newer_le_of_join h.descending (hfits.served r hserved)
        (hsegment r hserved) hlimit (mem_without hkeyOf _) hinfix
  | _ => exact trivial

/-! ## Every run -/

omit [LinearOrder κ] in
theorem history_settled (s : State α κ) (l : Load α κ) : (s.settled l).history = s.history :=
  (sameCore_settled s l).history

omit [LinearOrder κ] in
theorem history_resolved (s : State α κ) (l : Load α κ) (page : Pages.Page α κ) :
    (s.resolved keyOf l page).history = s.history := by
  unfold State.resolved
  split <;> split <;> rfl

/-- The history only grows. -/
theorem history_step (s : State α κ) (e : Event α) :
    s.history <:+ (s.step key keyOf limit e).history := by
  cases e with
  | finalize items => exact List.suffix_append _ _
  | refresh =>
      change _ <:+ s.refresh.history
      unfold State.refresh
      split <;> exact List.suffix_refl _
  | loadMore =>
      change _ <:+ s.loadMore.history
      unfold State.loadMore
      split <;> exact List.suffix_refl _
  | resolve controller =>
      change _ <:+ (s.resolve key keyOf limit controller).history
      unfold State.resolve
      split
      · split
        · rw [history_settled, history_resolved]
          exact List.suffix_refl _
        · exact List.suffix_refl _
      · exact List.suffix_refl _
  | reject controller reason =>
      change _ <:+ (s.reject controller reason).history
      unfold State.reject
      split
      · rw [history_settled, (sameCore_rejected _ _ _).history]
        exact List.suffix_refl _
      · exact List.suffix_refl _
  | _ => exact List.suffix_refl _

theorem inv_mount {history : List α} (h : Pages.Descending key history) :
    (mount history : State α κ).Inv key := by
  refine Inv.reset ⟨h, List.nil_infix, fun _ => rfl, ?_, fun l hl => absurd hl List.not_mem_nil⟩
  rintro c (hc | hc) <;> cases hc

variable {history : List α} {events : List (Event α)}

theorem run_take_succ {n : Nat} {e : Event α} (he : events[n]? = some e) :
    (run key keyOf limit history (events.take (n + 1)) : State α κ) =
      (run key keyOf limit history (events.take n)).step key keyOf limit e := by
  obtain ⟨hlt, rfl⟩ := List.getElem?_eq_some_iff.1 he
  rw [run, run, List.take_succ_eq_append_getElem hlt, List.foldl_append]
  rfl

/-- The history is in order all the time if it is at the end. -/
theorem descending_run (h : Pages.Descending key (run key keyOf limit history events).history)
    (n : Nat) : Pages.Descending key (run key keyOf limit history (events.take n)).history := by
  have hsuffix : ∀ (es : List (Event α)) (s : State α κ),
      s.history <:+ (es.foldl (State.step key keyOf limit) s).history := by
    intro es
    induction es with
    | nil => exact fun s => List.suffix_refl _
    | cons e es ih => exact fun s => (history_step s e).trans (ih _)
  refine List.Pairwise.sublist (List.IsSuffix.sublist ?_) h
  conv_rhs => rw [← List.take_append_drop n events]
  rw [run, run, List.foldl_append]
  exact hsuffix _ _

/-- A run keeps the invariant as long as the pages that refreshes put in front reach what is
shown. -/
theorem run_inv (hkeyOf : Function.Injective keyOf)
    (hd : Pages.Descending key (run key keyOf limit history events).history) {n : Nat}
    (hj : ∀ k < n, ∀ e, events[k]? = some e →
      (run key keyOf limit history (events.take k)).Joins key limit e) :
    (run key keyOf limit history (events.take n)).Inv key := by
  induction n with
  | zero => exact inv_mount (descending_run hd 0)
  | succ n ih =>
      have hinv := ih fun k hk => hj k (Nat.lt_succ_of_lt hk)
      cases he : events[n]? with
      | none =>
          have hlength := List.getElem?_eq_none_iff.1 he
          rw [List.take_of_length_le (by omega), ← List.take_of_length_le hlength]
          exact hinv
      | some e =>
          have hnext := descending_run hd (n + 1)
          rw [run_take_succ he] at hnext ⊢
          exact hinv.step hkeyOf hnext (hj n (Nat.lt_succ_self n) e he)

/-- Whatever happens in whatever order, the items shown are a segment of the history, newest first, in
every state of a run if and only if every first page that a refresh puts in front reaches the items
that are shown. -/
theorem contiguous_iff (hkeyOf : Function.Injective keyOf) (hlimit : 0 < limit)
    (hd : Pages.Descending key (run key keyOf limit history events).history) :
    (∀ n, (run key keyOf limit history (events.take n)).Contiguous key) ↔
      ∀ n e, events[n]? = some e →
        (run key keyOf limit history (events.take n)).Joins key limit e := by
  constructor
  · intro hc n
    induction n using Nat.strong_induction_on with
    | _ n ih =>
        intro e he
        refine (run_inv hkeyOf hd ih).joins_of_contiguous hkeyOf hlimit ?_
        rw [← run_take_succ he]
        exact hc (n + 1)
  · exact fun hj n => (run_inv hkeyOf hd fun k _ => hj k).contiguous

end

/-! ## Two runs -/

section
variable {α κ : Type} [LinearOrder κ] {key : α → κ} {limit : Nat}

instance (s : State α κ) : DecidablePred (s.Joins key limit)
  | .resolve controller => inferInstanceAs (Decidable (∀ load ∈ s.find controller,
      ∀ l ∈ load.served, load.kind = .refresh → s.live load = true →
        s.items = [] ∨ Pages.newer key s.items l ≤ limit))
  | .finalize _ | .render | .reset | .refresh | .loadMore | .serve _ | .reject _ _ => .isTrue trivial

end

/-- While an older page is under way a new item appears and is put in front. -/
def refreshed : List (Event Nat) :=
  [.serve 0, .resolve 0, .render, .loadMore, .finalize [3], .refresh, .serve 2, .resolve 2, .serve 1,
    .resolve 1]

/-- Three new items with pages of two. -/
def overtaken : List (Event Nat) :=
  [.serve 0, .resolve 0, .finalize [4, 3, 2], .refresh, .serve 1, .resolve 1]

theorem contiguous_refreshed :
    (run id id 2 [2, 1, 0] refreshed : State Nat Nat).items = [3, 2, 1, 0] ∧
      ∀ n, (run id id 2 [2, 1, 0] (refreshed.take n) : State Nat Nat).Contiguous id := by
  have hd : Pages.Descending id (run id id 2 [2, 1, 0] refreshed : State Nat Nat).history := by
    change List.Pairwise _ [3, 2, 1, 0]
    decide
  refine ⟨by decide, (contiguous_iff Function.injective_id (by decide) hd).2 fun n e he => ?_⟩
  have hall : ∀ n < 10, ∀ e ∈ refreshed[n]?,
      (run id id 2 [2, 1, 0] (refreshed.take n) : State Nat Nat).Joins id 2 e := by decide
  exact hall n (List.getElem?_eq_some_iff.1 he).1 e he

/-- A refresh that does not reach the items shown leaves a hole. -/
theorem hole_overtaken : ¬∀ (limit : Nat) (history : List Nat) (events : List (Event Nat)), 0 < limit →
    Pages.Descending id (run id id limit history events : State Nat Nat).history →
    ∀ n, (run id id limit history (events.take n) : State Nat Nat).Contiguous id := by
  intro h
  have hd : Pages.Descending id (run id id 2 [1, 0] overtaken : State Nat Nat).history := by
    change List.Pairwise _ [4, 3, 2, 1, 0]
    decide
  have hshown : [4, 3, 1, 0] <:+: [4, 3, 2, 1, 0] := (h 2 [1, 0] overtaken (by decide) hd 6).2
  exact absurd hshown (by decide)

end State

end PaginatedResource

end KCoin
