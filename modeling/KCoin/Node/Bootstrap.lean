import Mathlib.Data.Finset.Insert
import Mathlib.Data.List.Chain
import KCoin.Lib.Cursor

/-!
# Dialing the bootstrap peers

A node keeps a list of addresses of peers that it dials again when their connections are lost. On
every tick it goes over the list from a cursor, until it has been over all of it or has started four
dials, and leaves the cursor where it stopped. A pass that does not go over the whole list has
therefore gone over at least four addresses, whatever their dials came to, so no address waits for
more passes than a quarter of the list takes (`bootstrap_redials_fair`).
-/

namespace KCoin

def maxBootstrapDialsPerTick : Nat := 4

/-- An address with the peer that was last reached there and the dial that is under way. -/
structure StaticBootstrap (Multiaddr PeerId ConnectionId : Type) where
  address : Multiaddr
  peerId : Option PeerId
  pendingConnection : Option ConnectionId
  deriving DecidableEq

/-- What a pass asks of the network: the peers that are connected when it begins, and the outcomes of
the dials in their order, each a connection that was started or nothing. -/
structure Swarm (PeerId ConnectionId : Type) where
  connectedPeers : Finset PeerId
  dial : Nat → Option ConnectionId

variable {Multiaddr PeerId ConnectionId : Type} [DecidableEq PeerId]

namespace StaticBootstrap

def new (address : Multiaddr) : StaticBootstrap Multiaddr PeerId ConnectionId :=
  ⟨address, none, none⟩

def shouldDial (t : StaticBootstrap Multiaddr PeerId ConnectionId)
    (connectedPeers : Finset PeerId) : Bool :=
  t.pendingConnection.isNone && t.peerId.all (· ∉ connectedPeers)

end StaticBootstrap

structure StaticBootstrapSet (Multiaddr PeerId ConnectionId : Type) where
  targets : List (StaticBootstrap Multiaddr PeerId ConnectionId)
  cursor : Nat
  deriving DecidableEq

/-- The local variables of a pass. The dials are recorded with their outcomes. -/
structure Scan (Multiaddr PeerId ConnectionId : Type) where
  targets : List (StaticBootstrap Multiaddr PeerId ConnectionId)
  scanned : Nat
  attempts : Nat
  dialed : List (Multiaddr × Option ConnectionId)

namespace Scan

/-- One turn of the loop. -/
def next (swarm : Swarm PeerId ConnectionId) (len cursor : Nat)
    (s : Scan Multiaddr PeerId ConnectionId) : Scan Multiaddr PeerId ConnectionId :=
  let index := (cursor + s.scanned) % len
  let s := { s with scanned := s.scanned + 1 }
  match s.targets[index]? with
  | none => s
  | some target =>
    if target.shouldDial swarm.connectedPeers then
      match swarm.dial s.dialed.length with
      | some connectionId =>
        { s with
          targets := s.targets.set index { target with pendingConnection := some connectionId }
          attempts := s.attempts + 1
          dialed := s.dialed ++ [(target.address, some connectionId)] }
      | none => { s with dialed := s.dialed ++ [(target.address, none)] }
    else s

/-- The loop. The first argument bounds the number of turns. -/
def run (swarm : Swarm PeerId ConnectionId) (len cursor : Nat) :
    Nat → Scan Multiaddr PeerId ConnectionId → Scan Multiaddr PeerId ConnectionId
  | 0, s => s
  | fuel + 1, s =>
    if s.scanned < len ∧ s.attempts < maxBootstrapDialsPerTick then
      run swarm len cursor fuel (s.next swarm len cursor)
    else s

end Scan

/-- Change the first value of a list that satisfies a condition. -/
def modifyFirst {α : Type} (p : α → Bool) (f : α → α) : List α → List α
  | [] => []
  | a :: l => if p a then f a :: l else a :: modifyFirst p f l

namespace StaticBootstrapSet

/-- Each address once, where it comes first. -/
def new [DecidableEq Multiaddr] (addresses : List Multiaddr) :
    StaticBootstrapSet Multiaddr PeerId ConnectionId where
  targets := (addresses.foldl
    (fun unique address => if address ∈ unique then unique else unique ++ [address]) []).map .new
  cursor := 0

/-- The pass of a tick. -/
def scan (s : StaticBootstrapSet Multiaddr PeerId ConnectionId)
    (swarm : Swarm PeerId ConnectionId) : Scan Multiaddr PeerId ConnectionId :=
  Scan.run swarm s.targets.length s.cursor s.targets.length ⟨s.targets, 0, 0, []⟩

def redialDue (s : StaticBootstrapSet Multiaddr PeerId ConnectionId)
    (swarm : Swarm PeerId ConnectionId) : StaticBootstrapSet Multiaddr PeerId ConnectionId :=
  if s.targets.length = 0 then s
  else
    { targets := (s.scan swarm).targets
      cursor := (s.cursor + (s.scan swarm).scanned) % s.targets.length }

def connectionEstablished [DecidableEq ConnectionId]
    (s : StaticBootstrapSet Multiaddr PeerId ConnectionId) (connectionId : ConnectionId) (peerId : PeerId) :
    StaticBootstrapSet Multiaddr PeerId ConnectionId :=
  let replace (target : StaticBootstrap Multiaddr PeerId ConnectionId) :=
    { target with peerId := some peerId, pendingConnection := none }
  { s with targets := modifyFirst (·.pendingConnection = some connectionId) replace s.targets }

def connectionFailed [DecidableEq ConnectionId]
    (s : StaticBootstrapSet Multiaddr PeerId ConnectionId) (connectionId : ConnectionId) : StaticBootstrapSet Multiaddr PeerId ConnectionId :=
  let clear (target : StaticBootstrap Multiaddr PeerId ConnectionId) :=
    { target with pendingConnection := none }
  { s with targets := modifyFirst (·.pendingConnection = some connectionId) clear s.targets }

def addresses (s : StaticBootstrapSet Multiaddr PeerId ConnectionId) : List Multiaddr :=
  s.targets.map (·.address)

end StaticBootstrapSet

/-! ## A pass -/

/-- The address of a target that is due. -/
def dueAddress (connectedPeers : Finset PeerId)
    (targets : List (StaticBootstrap Multiaddr PeerId ConnectionId)) (index : Nat) :
    Option Multiaddr :=
  (targets[index]?).bind fun target =>
    if target.shouldDial connectedPeers then some target.address else none

/-- The local variables of a pass over some targets, after some turns. -/
structure Scan.After (swarm : Swarm PeerId ConnectionId)
    (targets : List (StaticBootstrap Multiaddr PeerId ConnectionId)) (cursor : Nat)
    (s : Scan Multiaddr PeerId ConnectionId) : Prop where
  scanned_le : s.scanned ≤ targets.length
  addresses : s.targets.map (·.address) = targets.map (·.address)
  /-- The targets that the pass has not reached are as they were. -/
  rest : ∀ offset, s.scanned ≤ offset → offset < targets.length →
    s.targets[Cursor.place targets.length cursor offset]? =
      targets[Cursor.place targets.length cursor offset]?
  dialed : s.dialed.map Prod.fst = (Cursor.scanned targets.length cursor s.scanned).filterMap
    (dueAddress swarm.connectedPeers targets)
  attempts : s.attempts = (s.dialed.filter (·.2.isSome)).length
  attempts_le : s.attempts ≤ maxBootstrapDialsPerTick

namespace Scan

variable {swarm : Swarm PeerId ConnectionId}
  {targets : List (StaticBootstrap Multiaddr PeerId ConnectionId)} {cursor : Nat}
  {s : Scan Multiaddr PeerId ConnectionId}

theorem after_start : Scan.After swarm targets cursor ⟨targets, 0, 0, []⟩ :=
  ⟨Nat.zero_le _, rfl, fun _ _ _ => rfl, rfl, rfl, Nat.zero_le _⟩

theorem After.next (h : s.After swarm targets cursor) (hscanned : s.scanned < targets.length)
    (hattempts : s.attempts < maxBootstrapDialsPerTick) :
    (s.next swarm targets.length cursor).After swarm targets cursor := by
  have hpos : 0 < targets.length := by omega
  let index := Cursor.place targets.length cursor s.scanned
  have hindex : index < targets.length := Cursor.place_lt hpos _
  obtain ⟨target, htarget⟩ : ∃ target, targets[index]? = some target :=
    ⟨_, List.getElem?_eq_getElem hindex⟩
  have hcurrent : s.targets[index]? = some target := (h.rest _ (Nat.le_refl _) hscanned).trans htarget
  have hdialed : (Cursor.scanned targets.length cursor (s.scanned + 1)).filterMap
      (dueAddress swarm.connectedPeers targets) = s.dialed.map Prod.fst ++
        (if target.shouldDial swarm.connectedPeers then [target.address] else []) := by
    rw [h.dialed, Cursor.scanned, List.range_succ, List.map_append, List.filterMap_append]
    refine congrArg (_ ++ ·) ?_
    have hdue : dueAddress swarm.connectedPeers targets index =
        if target.shouldDial swarm.connectedPeers then some target.address else none := by
      rw [dueAddress, htarget, Option.bind_some]
    rw [List.map_singleton, List.filterMap_cons, hdue]
    split <;> simp_all
  have hnext : s.next swarm targets.length cursor =
      if target.shouldDial swarm.connectedPeers then
        match swarm.dial s.dialed.length with
        | some connectionId => ⟨s.targets.set index { target with pendingConnection := some connectionId },
            s.scanned + 1, s.attempts + 1, s.dialed ++ [(target.address, some connectionId)]⟩
        | none => ⟨s.targets, s.scanned + 1, s.attempts, s.dialed ++ [(target.address, none)]⟩
      else ⟨s.targets, s.scanned + 1, s.attempts, s.dialed⟩ := by
    unfold Scan.next
    dsimp only
    rw [show s.targets[(cursor + s.scanned) % targets.length]? = some target from hcurrent]
    rfl
  rw [hnext]
  split
  · next hdue =>
      rw [if_pos hdue] at hdialed
      split
      · next connectionId _ =>
          refine ⟨hscanned, ?_, fun offset hle hlt => ?_, ?_, ?_, hattempts⟩
          · have haddress : (s.targets.map (·.address))[index]? = some target.address := by
              rw [List.getElem?_map, hcurrent]
              rfl
            obtain ⟨_, haddress⟩ := List.getElem?_eq_some_iff.1 haddress
            rw [List.map_set, ← h.addresses]
            dsimp only
            rw [← haddress, List.set_getElem_self]
          · have hle : s.scanned + 1 ≤ offset := hle
            have hne : index ≠ Cursor.place targets.length cursor offset := fun heq => by
              have hsame := Cursor.place_injOn hscanned hlt heq
              omega
            rw [List.getElem?_set_ne hne]
            exact h.rest offset (by omega) hlt
          · rw [hdialed, List.map_append]
            rfl
          · simp [h.attempts]
      · refine ⟨hscanned, h.addresses, fun offset hle => h.rest offset (Nat.le_of_succ_le hle), ?_, ?_,
          h.attempts_le⟩
        · rw [hdialed, List.map_append]
          rfl
        · simp [h.attempts]
  · next hdue =>
      rw [if_neg hdue, List.append_nil] at hdialed
      exact ⟨hscanned, h.addresses, fun offset hle => h.rest offset (Nat.le_of_succ_le hle), hdialed.symm,
        h.attempts, h.attempts_le⟩

/-- The loop ends when it has been over all targets or has started as many dials as it may. -/
theorem After.run (h : s.After swarm targets cursor) {fuel : Nat}
    (hfuel : targets.length ≤ s.scanned + fuel) :
    (s.run swarm targets.length cursor fuel).After swarm targets cursor ∧
      ((s.run swarm targets.length cursor fuel).scanned = targets.length ∨
        (s.run swarm targets.length cursor fuel).attempts = maxBootstrapDialsPerTick) := by
  induction fuel generalizing s with
  | zero => exact ⟨h, .inl (Nat.le_antisymm h.scanned_le hfuel)⟩
  | succ fuel ih =>
      rw [Scan.run]
      split
      · next hmore =>
          have hnext := h.next hmore.1 hmore.2
          refine ih hnext ?_
          have hscanned : (s.next swarm targets.length cursor).scanned = s.scanned + 1 := by
            unfold Scan.next
            dsimp only
            split
            · rfl
            · split
              · split <;> rfl
              · rfl
          omega
      · next hmore =>
          refine ⟨h, ?_⟩
          have hscanned := h.scanned_le
          have hattempts := h.attempts_le
          by_cases heq : s.scanned = targets.length
          · exact .inl heq
          · exact .inr (by omega)

/-- A pass that is not over all targets has been over as many as it may start dials. -/
theorem After.scanned_of_attempts (h : s.After swarm targets cursor)
    (hend : s.scanned = targets.length ∨ s.attempts = maxBootstrapDialsPerTick) :
    s.scanned = targets.length ∨ maxBootstrapDialsPerTick ≤ s.scanned := by
  refine hend.imp_right fun hattempts => ?_
  have hdialed := congrArg List.length h.dialed
  have hfiltered := List.length_filterMap_le (dueAddress swarm.connectedPeers targets)
    (Cursor.scanned targets.length cursor s.scanned)
  have hstarted := List.length_filter_le (fun d => d.2.isSome) s.dialed
  rw [Cursor.scanned, List.length_map, List.length_range] at hfiltered
  rw [List.length_map, Cursor.scanned] at hdialed
  rw [← hattempts, h.attempts]
  omega

end Scan

namespace StaticBootstrapSet

variable {s : StaticBootstrapSet Multiaddr PeerId ConnectionId} {swarm : Swarm PeerId ConnectionId}

theorem after_scan (s : StaticBootstrapSet Multiaddr PeerId ConnectionId)
    (swarm : Swarm PeerId ConnectionId) : (s.scan swarm).After swarm s.targets s.cursor ∧
      ((s.scan swarm).scanned = s.targets.length ∨
        maxBootstrapDialsPerTick ≤ (s.scan swarm).scanned) := by
  have hstart : Scan.After swarm s.targets s.cursor ⟨s.targets, 0, 0, []⟩ := Scan.after_start
  obtain ⟨hafter, hend⟩ := hstart.run (Nat.le_add_left s.targets.length 0)
  exact ⟨hafter, hafter.scanned_of_attempts hend⟩

theorem addresses_redialDue : (s.redialDue swarm).addresses = s.addresses := by
  unfold redialDue
  split
  · rfl
  · exact (s.after_scan swarm).1.addresses

/-- The cursor moves behind the targets that the pass has been over. -/
theorem cursor_redialDue (h : s.targets ≠ []) : (s.redialDue swarm).cursor =
    (s.cursor + (s.scan swarm).scanned) % s.targets.length := by
  rw [redialDue, if_neg (by simpa using h)]

omit [DecidableEq PeerId] in
theorem map_modifyFirst {α β : Type} {p : α → Bool} {f : α → α} {g : α → β}
    (h : ∀ a, g (f a) = g a) (l : List α) : (modifyFirst p f l).map g = l.map g := by
  induction l with
  | nil => rfl
  | cons a l ih =>
      rw [modifyFirst]
      split
      · rw [List.map_cons, h, List.map_cons]
      · rw [List.map_cons, ih, List.map_cons]

omit [DecidableEq PeerId] in
theorem addresses_connectionEstablished [DecidableEq ConnectionId] (connectionId : ConnectionId)
    (peerId : PeerId) : (s.connectionEstablished connectionId peerId).addresses = s.addresses := by
  refine map_modifyFirst ?_ s.targets
  exact fun _ => rfl

omit [DecidableEq PeerId] in
theorem addresses_connectionFailed [DecidableEq ConnectionId] (connectionId : ConnectionId) :
    (s.connectionFailed connectionId).addresses = s.addresses := by
  refine map_modifyFirst ?_ s.targets
  exact fun _ => rfl

omit [DecidableEq PeerId] in
/-- The addresses of a list, each once. -/
theorem addresses_new [DecidableEq Multiaddr] (l : List Multiaddr) :
    ((new l : StaticBootstrapSet Multiaddr PeerId ConnectionId).addresses).Nodup ∧
      ∀ a, a ∈ (new l : StaticBootstrapSet Multiaddr PeerId ConnectionId).addresses ↔ a ∈ l := by
  have hfold : ∀ (l unique : List Multiaddr), unique.Nodup →
      (l.foldl (fun unique a => if a ∈ unique then unique else unique ++ [a]) unique).Nodup ∧
        ∀ a, a ∈ l.foldl (fun unique a => if a ∈ unique then unique else unique ++ [a]) unique ↔
          a ∈ unique ∨ a ∈ l := by
    intro l
    induction l with
    | nil => exact fun unique h => ⟨h, fun a => by simp⟩
    | cons b l ih =>
        intro unique h
        rw [List.foldl_cons]
        by_cases hb : b ∈ unique
        · obtain ⟨hnodup, hmem⟩ := ih unique h
          rw [if_pos hb]
          refine ⟨hnodup, fun a => (hmem a).trans ?_⟩
          rw [List.mem_cons]
          constructor
          · exact Or.imp_right .inr
          · rintro (ha | rfl | ha)
            · exact .inl ha
            · exact .inl hb
            · exact .inr ha
        · obtain ⟨hnodup, hmem⟩ := ih (unique ++ [b]) (List.nodup_append.2
            ⟨h, List.nodup_singleton b, fun a ha c hc heq => hb (by simp_all)⟩)
          rw [if_neg hb]
          refine ⟨hnodup, fun a => (hmem a).trans ?_⟩
          rw [List.mem_append, List.mem_singleton, List.mem_cons, or_assoc]
  have haddresses : (new l : StaticBootstrapSet Multiaddr PeerId ConnectionId).addresses =
      l.foldl (fun unique a => if a ∈ unique then unique else unique ++ [a]) [] := by
    rw [addresses, new, List.map_map]
    exact List.map_id _
  rw [haddresses]
  obtain ⟨hnodup, hmem⟩ := hfold l [] List.nodup_nil
  exact ⟨hnodup, fun a => (hmem a).trans (by simp)⟩

end StaticBootstrapSet

/-! ## Passes in a row -/

/-- A pass: the targets it begins with and what it asks of the network. -/
structure Pass (Multiaddr PeerId ConnectionId : Type) where
  before : StaticBootstrapSet Multiaddr PeerId ConnectionId
  swarm : Swarm PeerId ConnectionId

namespace Pass

variable (p : Pass Multiaddr PeerId ConnectionId)

/-- The addresses that are dialed, in their order. -/
def dialed : List Multiaddr := (p.before.scan p.swarm).dialed.map Prod.fst

/-- The number of dials that are started. -/
def started : Nat := ((p.before.scan p.swarm).dialed.filter (·.2.isSome)).length

/-- The target of an address has no connection under way, and its peer is not connected. -/
def Due (address : Multiaddr) : Prop :=
  ∃ target ∈ p.before.targets, target.address = address ∧
    target.shouldDial p.swarm.connectedPeers = true

variable {p}

theorem started_le : p.started ≤ maxBootstrapDialsPerTick := by
  obtain ⟨hafter, -⟩ := p.before.after_scan p.swarm
  rw [started, ← hafter.attempts]
  exact hafter.attempts_le

/-- A target that the pass is over is dialed if it is due. -/
theorem mem_dialed (hnodup : p.before.addresses.Nodup) {address : Multiaddr} (hdue : p.Due address)
    {i : Nat} (hi : p.before.addresses[i]? = some address)
    (hscanned : i ∈ Cursor.scanned p.before.targets.length p.before.cursor
      (p.before.scan p.swarm).scanned) : address ∈ p.dialed := by
  obtain ⟨hafter, -⟩ := p.before.after_scan p.swarm
  obtain ⟨target, htarget, haddress, hdial⟩ := hdue
  obtain ⟨j, hj⟩ := List.mem_iff_getElem?.1 htarget
  have hj' : p.before.addresses[j]? = some address := by
    rw [StaticBootstrapSet.addresses, List.getElem?_map, hj, ← haddress]
    rfl
  have hij : i = j := by
    obtain ⟨hlt, hi⟩ := List.getElem?_eq_some_iff.1 hi
    obtain ⟨hlt', hj'⟩ := List.getElem?_eq_some_iff.1 hj'
    exact (List.Nodup.getElem_inj_iff hnodup).1 (hi.trans hj'.symm)
  subst hij
  rw [dialed, hafter.dialed]
  refine List.mem_filterMap.2 ⟨i, hscanned, ?_⟩
  rw [dueAddress, hj, Option.bind_some, if_pos hdial, haddress]

theorem nodup_dialed (hnodup : p.before.addresses.Nodup) : p.dialed.Nodup := by
  obtain ⟨hafter, -⟩ := p.before.after_scan p.swarm
  rw [dialed, hafter.dialed]
  refine List.Nodup.filterMap (fun i j address hi hj => ?_)
    (Cursor.nodup_scanned hafter.scanned_le)
  have haddress : ∀ {i}, address ∈ dueAddress p.swarm.connectedPeers p.before.targets i →
      p.before.addresses[i]? = some address := by
    intro i hi
    obtain ⟨target, htarget, hdue⟩ := Option.bind_eq_some_iff.1 hi
    split at hdue
    · rw [StaticBootstrapSet.addresses, List.getElem?_map, htarget, ← Option.some.inj hdue]
      rfl
    · cases hdue
  obtain ⟨hlt, hi⟩ := List.getElem?_eq_some_iff.1 (haddress hi)
  obtain ⟨hlt', hj⟩ := List.getElem?_eq_some_iff.1 (haddress hj)
  exact (List.Nodup.getElem_inj_iff hnodup).1 (hi.trans hj.symm)

end Pass

/-- Passes over a set of targets, with connections that are established and connections that fail in
between. -/
inductive Redials [DecidableEq ConnectionId]
    (start : StaticBootstrapSet Multiaddr PeerId ConnectionId) :
    List (Pass Multiaddr PeerId ConnectionId) → StaticBootstrapSet Multiaddr PeerId ConnectionId → Prop
  | start : Redials start [] start
  | pass {passes s} (swarm : Swarm PeerId ConnectionId) (run : Redials start passes s) :
      Redials start (passes ++ [⟨s, swarm⟩]) (s.redialDue swarm)
  | established {passes s} (connectionId : ConnectionId) (peerId : PeerId)
      (run : Redials start passes s) : Redials start passes (s.connectionEstablished connectionId peerId)
  | failed {passes s} (connectionId : ConnectionId) (run : Redials start passes s) :
      Redials start passes (s.connectionFailed connectionId)

/-- A pass begins where another one stopped. -/
def Pass.Follows (p q : Pass Multiaddr PeerId ConnectionId) : Prop :=
  q.before.cursor = (p.before.redialDue p.swarm).cursor

namespace Redials

variable [DecidableEq ConnectionId] {start s : StaticBootstrapSet Multiaddr PeerId ConnectionId}
  {passes : List (Pass Multiaddr PeerId ConnectionId)}

/-- Every pass has the same addresses and begins where the one before it stopped. -/
theorem chain (h : Redials start passes s) : s.addresses = start.addresses ∧
    (∀ p ∈ passes, p.before.addresses = start.addresses) ∧ passes.IsChain Pass.Follows ∧
    ∀ p ∈ passes.getLast?, s.cursor = (p.before.redialDue p.swarm).cursor := by
  induction h with
  | start => exact ⟨rfl, nofun, .nil, nofun⟩
  | @pass passes s swarm _ ih =>
      obtain ⟨hs, hpasses, hchain, hlast⟩ := ih
      refine ⟨StaticBootstrapSet.addresses_redialDue.trans hs, fun p hp => ?_, ?_, fun p hp => ?_⟩
      · rcases List.mem_append.1 hp with hp | hp
        · exact hpasses p hp
        · obtain rfl := List.mem_singleton.1 hp
          exact hs
      · refine List.isChain_append.2 ⟨hchain, List.isChain_singleton _, fun p hp q hq => ?_⟩
        obtain rfl := Option.some.inj hq
        exact hlast p hp
      · rw [List.getLast?_concat] at hp
        obtain rfl := Option.some.inj hp
        rfl
  | established connectionId peerId _ ih =>
      obtain ⟨hs, hrest⟩ := ih
      exact ⟨(StaticBootstrapSet.addresses_connectionEstablished ..).trans hs, hrest⟩
  | failed connectionId _ ih =>
      obtain ⟨hs, hrest⟩ := ih
      exact ⟨(StaticBootstrapSet.addresses_connectionFailed ..).trans hs, hrest⟩

end Redials

/-- Passes in a row are together over a place that is not further ahead than they must go. -/
theorem exists_scanned {addresses : List Multiaddr} {window : List (Pass Multiaddr PeerId ConnectionId)}
    (haddresses : ∀ p ∈ window, p.before.addresses = addresses)
    (hchain : window.IsChain Pass.Follows) {i : Nat} (hi : i < addresses.length)
    (hahead : ∀ p ∈ window.head?, Cursor.ahead addresses.length p.before.cursor i <
      maxBootstrapDialsPerTick * window.length) (hne : window ≠ []) :
    ∃ p ∈ window, i ∈ Cursor.scanned p.before.targets.length p.before.cursor
      (p.before.scan p.swarm).scanned := by
  induction window with
  | nil => exact absurd rfl hne
  | cons p window ih =>
      have hlen : p.before.targets.length = addresses.length := by
        rw [← haddresses p List.mem_cons_self, StaticBootstrapSet.addresses, List.length_map]
      have hahead := hahead p rfl
      obtain ⟨-, hend⟩ := p.before.after_scan p.swarm
      by_cases hreach : Cursor.ahead addresses.length p.before.cursor i <
          (p.before.scan p.swarm).scanned
      · refine ⟨p, List.mem_cons_self, ?_⟩
        rw [hlen]
        exact Cursor.mem_scanned hi hreach
      · -- the pass has been over at least four places, and the place is closer after it
        have hlt : Cursor.ahead addresses.length p.before.cursor i < addresses.length :=
          Cursor.ahead_lt (by omega)
        have hfour : maxBootstrapDialsPerTick ≤ (p.before.scan p.swarm).scanned :=
          hend.resolve_left (by omega)
        rw [List.length_cons, Nat.mul_succ] at hahead
        have hwindow : window ≠ [] := by
          rintro rfl
          rw [List.length_nil] at hahead
          omega
        have hcloser : ∀ q ∈ window.head?, Cursor.ahead addresses.length q.before.cursor i <
            maxBootstrapDialsPerTick * window.length := by
          intro q hq
          have hfollows : p.Follows q := (List.isChain_cons.1 hchain).1 q hq
          have htargets : p.before.targets ≠ [] := List.ne_nil_of_length_pos (by omega)
          rw [hfollows, StaticBootstrapSet.cursor_redialDue htargets, hlen,
            Cursor.ahead_add hi (by omega)]
          omega
        obtain ⟨q, hq, hscanned⟩ := ih (fun q hq => haddresses q (List.mem_cons_of_mem _ hq))
          hchain.tail hcloser hwindow
        exact ⟨q, List.mem_cons_of_mem _ hq, hscanned⟩

/-- Redialing is bounded and fair: a pass starts at most four dials and dials no address twice, and
an address that is due in each of as many passes in a row as a quarter of the addresses makes, until
it is dialed, is dialed in one of them. -/
theorem bootstrap_redials_fair [DecidableEq Multiaddr] [DecidableEq ConnectionId]
    (addresses : List Multiaddr) (cursor : Nat) {passes : List (Pass Multiaddr PeerId ConnectionId)}
    {s : StaticBootstrapSet Multiaddr PeerId ConnectionId}
    (h : Redials { StaticBootstrapSet.new addresses with cursor } passes s) :
    (∀ p ∈ passes, p.started ≤ maxBootstrapDialsPerTick ∧ p.dialed.Nodup) ∧
    ∀ before window after, passes = before ++ window ++ after →
      window.length = (s.targets.length + 3) / 4 → ∀ address ∈ addresses,
      (∀ early p late, window = early ++ p :: late → (∀ q ∈ early, address ∉ q.dialed) →
        p.Due address) →
      ∃ p ∈ window, address ∈ p.dialed := by
  obtain ⟨hs, hpasses, hchain, -⟩ := h.chain
  let start : StaticBootstrapSet Multiaddr PeerId ConnectionId := .new addresses
  obtain ⟨hnodup, hmem⟩ : start.addresses.Nodup ∧ ∀ a, a ∈ start.addresses ↔ a ∈ addresses :=
    StaticBootstrapSet.addresses_new addresses
  have hpasses : ∀ p ∈ passes, p.before.addresses = start.addresses := hpasses
  refine ⟨fun p hp => ⟨Pass.started_le, Pass.nodup_dialed (hpasses p hp ▸ hnodup)⟩, ?_⟩
  rintro before window after rfl hlength address haddress hdue
  by_contra hnone
  push Not at hnone
  have hmemWindow : ∀ p ∈ window, p ∈ before ++ window ++ after := fun p hp =>
    List.mem_append_left _ (List.mem_append_right _ hp)
  obtain ⟨i, hi⟩ := List.mem_iff_getElem?.1 ((hmem address).2 haddress)
  have hlt : i < start.addresses.length := (List.getElem?_eq_some_iff.1 hi).1
  have hcount : s.targets.length = start.addresses.length := by
    rw [← show s.addresses = start.addresses from hs, StaticBootstrapSet.addresses, List.length_map]
  rw [hcount] at hlength
  have hfour : maxBootstrapDialsPerTick = 4 := rfl
  have hahead : ∀ p ∈ window.head?, Cursor.ahead start.addresses.length p.before.cursor i <
      maxBootstrapDialsPerTick * window.length := by
    intro p _
    have hlt : Cursor.ahead start.addresses.length p.before.cursor i < start.addresses.length :=
      Cursor.ahead_lt (by omega)
    rw [hfour, hlength]
    omega
  obtain ⟨p, hp, hscanned⟩ := exists_scanned (fun p hp => hpasses p (hmemWindow p hp))
    hchain.left_of_append.right_of_append hlt hahead (List.ne_nil_of_length_pos (by omega))
  have hsame := hpasses p (hmemWindow p hp)
  obtain ⟨early, late, rfl⟩ := List.append_of_mem hp
  have hdue := hdue early p late rfl fun q hq => hnone q (List.mem_append_left _ hq)
  exact hnone p hp (p.mem_dialed (hsame ▸ hnodup) hdue (hsame ▸ hi) hscanned)

namespace Sample

/-- A network in which every second dial is refused. -/
def flakySwarm : Swarm Nat Nat := ⟨∅, fun n => if n % 2 = 0 then none else some n⟩

def sixAddresses : List String := ["a", "b", "c", "d", "e", "f"]

def firstPass : Pass String Nat Nat := ⟨{ StaticBootstrapSet.new sixAddresses with cursor := 1 }, ⟨∅, some⟩⟩

def secondPass : Pass String Nat Nat := ⟨firstPass.before.redialDue firstPass.swarm, flakySwarm⟩

end Sample

open Sample in
/-- Two passes over six addresses: the sixth is dialed in the second one. -/
theorem bootstrap_redials_fair_six :
    firstPass.started ≤ 4 ∧ secondPass.dialed.Nodup ∧
      ∃ p ∈ [firstPass, secondPass], "f" ∈ p.dialed := by
  have hrun : Redials firstPass.before [firstPass, secondPass]
      (secondPass.before.redialDue secondPass.swarm) :=
    .pass secondPass.swarm (.pass firstPass.swarm .start)
  obtain ⟨hpasses, hfair⟩ := bootstrap_redials_fair sixAddresses 1 hrun
  refine ⟨(hpasses firstPass (by simp)).1, (hpasses secondPass (by simp)).2, ?_⟩
  refine hfair [] [firstPass, secondPass] [] (by simp) (by decide +kernel) "f" (by decide) ?_
  intro early p late heq _
  have hdue : firstPass.Due "f" ∧ secondPass.Due "f" := by
    unfold Pass.Due
    decide +kernel
  rcases early with _ | ⟨a, _ | ⟨b, early⟩⟩
  · obtain ⟨rfl, -⟩ := List.cons.inj heq
    exact hdue.1
  · obtain ⟨-, heq⟩ := List.cons.inj heq
    obtain ⟨rfl, -⟩ := List.cons.inj heq
    exact hdue.2
  · have hlen := congrArg List.length heq
    simp at hlen

end KCoin
