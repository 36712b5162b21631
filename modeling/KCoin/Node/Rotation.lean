import Mathlib.Logic.Function.Iterate
import KCoin.Node.Quiet
import KCoin.Node.Sample

/-!
# Whose turn it is

The two rotations of a node. The proposer of a round is computed in several places; the validator set
adds the height and the round before it reduces them, and the sum can leave the machine word
(`proposer_rotation`). The peer that is asked for blocks after a failure is the first of the others,
so only the first two peers take turns (`NodeM.sync_peer_rotation`).
-/

open Std Relation EStateM

namespace KCoin

/-! ## Proposers -/

namespace ValidatorSet

variable (s : ValidatorSet)

/-- The proposer of a round as it is computed on a 64-bit target, unless the sum overflows. -/
def checkedProposer (height : Height) (round : Round) : Option ValidatorId := do
  -- `saturating_sub(1)`
  let heightOffset := UInt64.ofNat (height.toNat - 1)
  let sum ← checkedAdd heightOffset round.toUInt64
  s.validators[sum.toNat % s.validators.length]?

variable {s} {height : Height} {round : Round}

theorem checkedProposer_eq_none (h : 2 ^ 64 ≤ height.toNat - 1 + round.toNat) :
    s.checkedProposer height round = none := by
  have hsum : checkedAdd (UInt64.ofNat (height.toNat - 1)) round.toUInt64 = none := by
    rw [checkedAdd_eq_none, UInt64.toNat_ofNat', UInt32.toNat_toUInt64]
    have hlt := height.toNat_lt
    omega
  simp [checkedProposer, hsum]

/-- Without an overflow the sum is the one of the natural numbers. -/
theorem checkedProposer_eq (h : height.toNat - 1 + round.toNat < 2 ^ 64) :
    s.checkedProposer height round = some (s.proposer height round) := by
  have hlt := height.toNat_lt
  have hsum : checkedAdd (UInt64.ofNat (height.toNat - 1)) round.toUInt64 =
      some (UInt64.ofNat (height.toNat - 1 + round.toNat)) := by
    rw [checkedAdd_eq_some, UInt64.toNat_ofNat', UInt64.toNat_ofNat', UInt32.toNat_toUInt64]
    omega
  have hindex : (height.toNat - 1 + round.toNat) % s.validators.length < s.validators.length :=
    Nat.mod_lt _ s.len_pos
  simp only [checkedProposer, hsum, Option.bind_eq_bind, Option.bind_some, UInt64.toNat_ofNat',
    Nat.mod_eq_of_lt h, proposer, len, List.getElem?_eq_getElem hindex, List.get_eq_getElem]

/-- Reducing both parts of a sum before it is taken makes no difference. -/
theorem getElem?_rotation (h : height.toNat - 1 + round.toNat < 2 ^ 64) :
    s.validators[((height.toNat - 1) % s.validators.length +
      round.toNat % s.validators.length) % s.validators.length]? =
        some (s.proposer height round) := by
  have hindex : (height.toNat - 1 + round.toNat) % s.validators.length < s.validators.length :=
    Nat.mod_lt _ s.len_pos
  simp only [← Nat.add_mod, proposer, len, Nat.mod_eq_of_lt h, List.getElem?_eq_getElem hindex,
    List.get_eq_getElem]

end ValidatorSet

section
variable [Primitives]

/-- From height one on, the three computations agree and nothing overflows if and only if the sum of
the previous height and the round fits a machine word: the proposer of the validator set, the one the
node expects of a stored block, and the one whose block a certificate is accepted for. -/
theorem proposer_rotation (s : ValidatorSet) (height : Height) (round : Round) (hh : 1 ≤ height) :
    (∃ v, s.checkedProposer height round = some v ∧ s.proposer height round = v ∧
      expectedProtocolProposer s.validators height round = some v ∧
      ∀ (c : CommitCertificate) (block : Block), block.header.height = height →
        block.header.round = round →
        (c.verifyForBlock block s.validators = .ok () ↔
          (c.chainId = block.header.chainId ∧ c.height = block.header.height ∧
            c.blockHash = block.consensusHash ∧ block.header.round ≤ c.round) ∧
          block.header.proposer = v ∧ c.verify s.validators = .ok ())) ↔
    height.toNat - 1 + round.toNat < 2 ^ 64 := by
  constructor
  · rintro ⟨v, hchecked, -⟩
    by_contra hover
    rw [ValidatorSet.checkedProposer_eq_none (by omega)] at hchecked
    cases hchecked
  · intro hsum
    refine ⟨_, ValidatorSet.checkedProposer_eq hsum, rfl, ?_, ?_⟩
    · have hzero : ¬(s.validators = [] ∨ height = 0) := by
        rintro (hnil | rfl)
        · exact s.nonempty hnil
        · exact absurd hh (by decide)
      rw [expectedProtocolProposer, if_neg hzero]
      exact ValidatorSet.getElem?_rotation hsum
    · rintro c block rfl rfl
      have hslot := ValidatorSet.getElem?_rotation (s := s) hsum
      have hlen : s.validators.length ≠ 0 := Nat.pos_iff_ne_zero.1 s.len_pos
      simp only [CommitCertificate.verifyForBlock, Except.bind_eq_ok, Except.ensure_eq_ok,
        exists_const, hslot, Option.some.injEq, ne_eq, hlen, not_false_eq_true, true_and]
      exact ⟨fun ⟨h1, h2, h3⟩ => ⟨h1, h2.symm, h3⟩, fun ⟨h1, h2, h3⟩ => ⟨h1, h2.symm, h3⟩⟩

end

/-- Three validators at the last height: the third round has a sum of `2 ^ 64`. Wrapped around, it
names another proposer than the rotation of the protocol. -/
theorem proposer_overflow :
    ∃ (s : ValidatorSet) (height : Height) (round : Round), 1 ≤ height ∧
      s.checkedProposer height round = none ∧
      expectedProtocolProposer s.validators height round ≠ some (s.proposer height round) := by
  let validator (i : UInt8) : ValidatorId := ⟨Bytes.fill 32 i⟩
  refine ⟨⟨[validator 0, validator 1, validator 2], by decide, by decide⟩, 18446744073709551615, 2,
    by decide, by decide +kernel, by decide +kernel⟩

open scoped Sample in
/-- Four validators at height 7. -/
theorem proposer_rotation_seven : ∃ s : ValidatorSet,
    ∃ v, s.checkedProposer 7 5 = some v ∧ s.proposer 7 5 = v := by
  let validator (i : UInt8) : ValidatorId := ⟨Bytes.fill 32 i⟩
  let s : ValidatorSet := ⟨[validator 0, validator 1, validator 2, validator 3], by decide, by decide⟩
  obtain ⟨v, hchecked, hproposer, -⟩ := (proposer_rotation s 7 5 (by decide)).2 (by decide)
  exact ⟨s, v, hchecked, hproposer⟩

/-! ## Peers to catch up with -/

/-- The peers before a given one. -/
def peersBefore (peers : BTreeSet PeerId) (peer : PeerId) : Nat :=
  (peers.toList.filter fun p => compare p peer = .lt).length

section
variable {peers : BTreeSet PeerId} {a b p failed : PeerId} {rest : List PeerId}

theorem chooseSyncRetryPeer_single (h : peers.toList = [a]) (failed : PeerId) :
    chooseSyncRetryPeer peers failed = some a := by
  have hmem : failed ∈ peers ↔ failed = a := by
    rw [← ExtTreeSet.mem_toList, h, List.mem_singleton]
  unfold chooseSyncRetryPeer
  rw [h]
  by_cases hfailed : failed = a
  · subst hfailed
    simp [hmem]
  · simp [Ne.symm hfailed]

theorem second_ne_first (h : peers.toList = a :: b :: rest) : b ≠ a := by
  have hordered : (a :: b :: rest).Pairwise fun x y => compare x y = .lt :=
    h ▸ ExtTreeSet.ordered_toList
  have hlt := (List.pairwise_cons.1 hordered).1 b List.mem_cons_self
  rintro rfl
  rw [compare_self] at hlt
  cases hlt

/-- Of several peers the first is asked next, or the second when the first has failed. -/
theorem chooseSyncRetryPeer_several (h : peers.toList = a :: b :: rest) (failed : PeerId) :
    chooseSyncRetryPeer peers failed = some (if failed = a then b else a) := by
  have hne := second_ne_first h
  unfold chooseSyncRetryPeer
  rw [h]
  by_cases hfailed : failed = a
  · subst hfailed
    simp [hne]
  · simp [hfailed, Ne.symm hfailed]

/-- The peers in their order. -/
theorem peersBefore_lt_two (hp : p ∈ peers) :
    peersBefore peers p < 2 ↔ ∃ i < 2, peers.toList[i]? = some p := by
  have hordered : peers.toList.Pairwise fun x y => compare x y = .lt := ExtTreeSet.ordered_toList
  obtain ⟨i, hi, hget⟩ := List.mem_iff_getElem.1 (ExtTreeSet.mem_toList.2 hp)
  -- what comes before the peer in the list is what is less than it
  have hsplit := List.take_append_drop i peers.toList
  rw [List.drop_eq_getElem_cons hi, hget] at hsplit
  rw [← hsplit] at hordered
  obtain ⟨-, hdrop, hcross⟩ := List.pairwise_append.1 hordered
  have hcount : peersBefore peers p = i := by
    unfold peersBefore
    rw [← hsplit, List.filter_append, List.filter_cons_of_neg (by simp), List.length_append,
      List.filter_eq_self.2, List.filter_eq_nil_iff.2]
    · rw [List.length_take, List.length_nil, Nat.min_eq_left (Nat.le_of_lt hi), Nat.add_zero]
    · intro x hx
      have hgt : compare x p = .gt := OrientedCmp.gt_of_lt ((List.pairwise_cons.1 hdrop).1 x hx)
      simp [hgt]
    · intro x hx
      simpa using hcross x hx p List.mem_cons_self
  rw [hcount]
  constructor
  · intro hlt
    exact ⟨i, hlt, List.getElem?_eq_some_iff.2 ⟨hi, hget⟩⟩
  · rintro ⟨j, hj, hgetj⟩
    have hnodup : peers.toList.Nodup := ExtTreeSet.distinct_toList.imp
      fun hne he => hne (Std.compare_eq_iff_eq.2 he)
    obtain ⟨hj', hgetj⟩ := List.getElem?_eq_some_iff.1 hgetj
    have hij : i = j := hnodup.getElem_inj_iff.1 (hget.trans hgetj.symm)
    omega

/-- The peers that are asked after the first failure and after those that follow. -/
def retryPeers (peers : BTreeSet PeerId) (failed : PeerId) (k : Nat) : Option PeerId :=
  (·.bind (chooseSyncRetryPeer peers))^[k] (some failed)

theorem retryPeers_succ (peers : BTreeSet PeerId) (failed : PeerId) (k : Nat) :
    retryPeers peers failed (k + 1) =
      (retryPeers peers failed k).bind (chooseSyncRetryPeer peers) := by
  unfold retryPeers
  rw [Function.iterate_succ_apply']

/-- Whoever is asked after a failure is one of the first two peers. -/
theorem retryPeers_first_two {k : Nat} (hk : 0 < k) (h : retryPeers peers failed k = some p) :
    ∃ i < 2, peers.toList[i]? = some p := by
  obtain ⟨k, rfl⟩ := Nat.exists_eq_succ_of_ne_zero (Nat.pos_iff_ne_zero.1 hk)
  rw [retryPeers_succ] at h
  obtain ⟨last, -, hchoose⟩ := Option.bind_eq_some_iff.1 h
  match hlist : peers.toList with
  | [] =>
      have hnone : last ∉ peers := by
        rw [← ExtTreeSet.mem_toList, hlist]
        exact List.not_mem_nil
      simp [chooseSyncRetryPeer, hlist, hnone] at hchoose
  | [a] =>
      rw [chooseSyncRetryPeer_single hlist] at hchoose
      exact ⟨0, by omega, hchoose⟩
  | a :: b :: rest =>
      rw [chooseSyncRetryPeer_several hlist] at hchoose
      split at hchoose
      · exact ⟨1, by omega, hchoose⟩
      · exact ⟨0, by omega, hchoose⟩

/-- The first two peers are asked after two failures, or after one if there is no other peer. -/
theorem retryPeers_of_first_two {i : Nat} (hi : i < 2) (hp : peers.toList[i]? = some p)
    (failed : PeerId) :
    ∃ k, 0 < k ∧ k ≤ peers.size ∧ retryPeers peers failed k = some p := by
  have hone : retryPeers peers failed 1 = chooseSyncRetryPeer peers failed := by
    simp [retryPeers]
  have htwo : retryPeers peers failed 2 =
      (chooseSyncRetryPeer peers failed).bind (chooseSyncRetryPeer peers) := by
    rw [retryPeers_succ, hone]
  have hsize := ExtTreeSet.length_toList (t := peers)
  match hlist : peers.toList with
  | [] => simp [hlist] at hp
  | [a] =>
      obtain rfl : a = p := by
        match i with
        | 0 => simpa [hlist] using hp
        | _ + 1 => simp [hlist] at hp
      rw [hlist] at hsize
      refine ⟨1, by omega, by simp [← hsize], ?_⟩
      rw [hone, chooseSyncRetryPeer_single hlist]
  | a :: b :: rest =>
      have hle : 2 ≤ peers.size := by
        rw [← hsize, hlist]
        simp
      have hturns : (chooseSyncRetryPeer peers failed = some p) ∨
          retryPeers peers failed 2 = some p := by
        rw [htwo, chooseSyncRetryPeer_several hlist, Option.bind_some,
          chooseSyncRetryPeer_several hlist]
        have hpeer : a = p ∨ b = p := by
          match i with
          | 0 => exact .inl (by simpa [hlist] using hp)
          | 1 => exact .inr (by simpa [hlist] using hp)
        have hne := second_ne_first hlist
        by_cases hfailed : failed = a
        · rw [if_pos hfailed, if_neg hne]
          exact hpeer.symm.imp (congrArg some) (congrArg some)
        · rw [if_neg hfailed, if_pos rfl]
          exact hpeer.imp (congrArg some) (congrArg some)
      rcases hturns with hfirst | hsecond
      · exact ⟨1, by omega, by omega, hone.trans hfirst⟩
      · exact ⟨2, by omega, hle, hsecond⟩

end

/-! ### Failures in a turn -/

/-- The peer that the node waits for fails: what `retry_sync_after_failure` does about it, whether it
returns or fails itself. -/
def Turn.syncPeerFails (t : Turn) : Turn :=
  match t.actor.syncPeer with
  | some peer => (NodeM.retrySyncAfterFailure peer t.actor.syncRequestId t).state
  | none => t

/-- The node is behind and asks a peer. -/
structure Turn.Asking (peers : BTreeSet PeerId) (peer : Option PeerId) (t : Turn) : Prop where
  peers : t.actor.peers = peers
  behind : t.actor.syncTarget ≠ none
  selected : t.actor.syncPeer = peer

namespace NodeM

variable {α : Type} {x : NodeM α} {t : Turn} {peers : BTreeSet PeerId} {peer : Option PeerId}

theorem asking_of_reaches
    (h : Reaches (fun t u => t.Asking peers peer → u.Asking peers peer) x t)
    (ht : t.Asking peers peer) : (x t).state.Asking peers peer := by
  have hpath : ∀ {u}, ReflTransGen (fun t u => t.Asking peers peer → u.Asking peers peer) t u →
      u.Asking peers peer := by
    intro u hu
    induction hu with
    | refl => exact ht
    | tail _ hlast ih => exact hlast ih
  exact hpath h

theorem Reading.asking (h : Reading x) (t : Turn) :
    Reaches (fun t u => t.Asking peers peer → u.Asking peers peer) x t := by
  obtain ⟨asked, os, -, ht⟩ := h t
  rw [Reaches, ht]
  exact .single fun h => ⟨h.peers, h.behind, h.selected⟩

theorem asking_requestSyncBlocks (p : PeerId) :
    Reaches (fun t u => t.Asking peers (some p) → u.Asking peers (some p)) (requestSyncBlocks p)
      t := by
  refine reaches_actor_bind <| .ensure_bind fun _ => reaches_okOr_bind fun height _ => ?_
  refine ((reading_ask _).asking t).bind fun answer u _ => reaches_okOr_bind fun id _ => ?_
  let o := Occurrence.request p (.blocks height 128)
  refine Reaches.bind ((reading_record (o := o) trivial).asking u) fun _ v _ => ?_
  refine ((reading_ask _).asking v).bind fun time w _ => reaches_update fun h => ?_
  exact ⟨h.peers, h.behind, rfl⟩

end NodeM

namespace Turn

variable {t : Turn} {peers : BTreeSet PeerId} {failed : PeerId}

/-- After the failure the node asks the peer of the choice, if there is one. -/
theorem Asking.fails (h : t.Asking peers (some failed)) :
    t.syncPeerFails.Asking peers (chooseSyncRetryPeer peers failed) := by
  let asked : Turn := t.withActor { t.actor with
    syncPeer := chooseSyncRetryPeer peers failed
    syncRequestId := none
    syncRequestDeadline := none }
  have hasked : asked.Asking peers (chooseSyncRetryPeer peers failed) := ⟨h.peers, h.behind, rfl⟩
  have hrun : t.syncPeerFails = ((chooseSyncRetryPeer peers failed).elim (return ())
      NodeM.requestSyncBlocks asked).state := by
    have hgo : ¬(t.actor.syncTarget = none ∨ t.actor.syncPeer ≠ some failed) := by
      rintro (hnone | hother)
      · exact h.behind hnone
      · exact hother h.selected
    unfold syncPeerFails
    rw [h.selected]
    show ((if t.actor.syncTarget = none ∨ t.actor.syncPeer ≠ some failed then return ()
      else if t.actor.syncRequestId.isSome ∧ t.actor.syncRequestId ≠ t.actor.syncRequestId then
        return () else _ : NodeM Unit) t).state = _
    rw [if_neg hgo, if_neg (fun hother => hother.2 rfl)]
    subst asked
    rw [← h.peers]
    cases chooseSyncRetryPeer t.actor.peers failed <;> rfl
  rw [hrun]
  refine NodeM.asking_of_reaches ?_ hasked
  cases chooseSyncRetryPeer peers failed with
  | none => exact .pure _
  | some peer => exact NodeM.asking_requestSyncBlocks peer

/-- Failure after failure the node asks the peers of the iterated choice. -/
theorem Asking.fails_iterate (h : t.Asking peers (some failed)) (k : Nat) :
    (syncPeerFails^[k] t).Asking peers (retryPeers peers failed k) := by
  induction k with
  | zero => exact h
  | succ k ih =>
      rw [Function.iterate_succ_apply', retryPeers_succ]
      cases hlast : retryPeers peers failed k with
      | some last =>
          rw [hlast] at ih
          exact ih.fails
      | none =>
          rw [hlast] at ih
          have hstill : (syncPeerFails^[k] t).syncPeerFails = syncPeerFails^[k] t := by
            rw [syncPeerFails, ih.selected]
          rw [hstill]
          exact ih

end Turn

/-- Let the peer that a node waits for fail, and whoever it asks next, one after the other, while it
is connected to the same peers. A given peer is asked at all, and then after no more failures than
there are peers, if and only if at most one peer comes before it. -/
theorem sync_peer_rotation (t : Turn) (failed p : PeerId) (behind : t.actor.syncTarget ≠ none)
    (selected : t.actor.syncPeer = some failed) (connected : p ∈ t.actor.peers) :
    ((∃ k, 0 < k ∧ k ≤ t.actor.peers.size ∧
        (Turn.syncPeerFails^[k] t).actor.syncPeer = some p) ↔ peersBefore t.actor.peers p < 2) ∧
    ((∃ k, 0 < k ∧ (Turn.syncPeerFails^[k] t).actor.syncPeer = some p) ↔
      peersBefore t.actor.peers p < 2) := by
  have hasking : ∀ k, (Turn.syncPeerFails^[k] t).actor.syncPeer =
      retryPeers t.actor.peers failed k :=
    fun k => (Turn.Asking.fails_iterate ⟨rfl, behind, selected⟩ k).selected
  have hnever : (∃ k, 0 < k ∧ (Turn.syncPeerFails^[k] t).actor.syncPeer = some p) →
      peersBefore t.actor.peers p < 2 := by
    rintro ⟨k, hk, hp⟩
    exact (peersBefore_lt_two connected).2 (retryPeers_first_two hk ((hasking k).symm.trans hp))
  have hsoon : peersBefore t.actor.peers p < 2 → ∃ k, 0 < k ∧ k ≤ t.actor.peers.size ∧
      (Turn.syncPeerFails^[k] t).actor.syncPeer = some p := by
    intro hfew
    obtain ⟨i, hi, hp⟩ := (peersBefore_lt_two connected).1 hfew
    obtain ⟨k, hk, hle, hretry⟩ := retryPeers_of_first_two hi hp failed
    exact ⟨k, hk, hle, (hasking k).trans hretry⟩
  refine ⟨⟨?_, hsoon⟩, hnever, ?_⟩
  · rintro ⟨k, hk, -, hp⟩
    exact hnever ⟨k, hk, hp⟩
  · intro hfew
    obtain ⟨k, hk, -, hp⟩ := hsoon hfew
    exact ⟨k, hk, hp⟩

/-! ### Three peers -/

section
open scoped Sample

namespace Sample

def peerOf (i : UInt8) : PeerId := ⟨[i]⟩

/-- The sample node with three peers, when it is at a height of 2 and waits for the first of them. -/
def behindThree (a : NodeActor) : Turn :=
  .begin environment { a with
    network := true
    peers := ExtTreeSet.ofList [peerOf 1, peerOf 2, peerOf 3] compare
    syncTarget := some 2
    syncPeer := some (peerOf 1) }

theorem standalone_starts : ∃ a, startNode standalone .empty false ∅ 0 = .ok a := by
  have hok : (startNode standalone .empty false ∅ 0).isOk := by decide +kernel
  cases ha : startNode standalone .empty false ∅ 0 with
  | ok a => exact ⟨a, rfl⟩
  | error e =>
      rw [ha] at hok
      cases hok

end Sample

open Sample

/-- The first two of three peers fail again and again: the third is never asked. -/
theorem third_peer_starves : ∃ (t : Turn) (failed p : PeerId), t.actor.syncTarget ≠ none ∧
    t.actor.syncPeer = some failed ∧ p ∈ t.actor.peers ∧
    ∀ k, 0 < k → (Turn.syncPeerFails^[k] t).actor.syncPeer ≠ some p := by
  obtain ⟨a, -⟩ := standalone_starts
  refine ⟨behindThree a, peerOf 1, peerOf 3, nofun, rfl, ?_, ?_⟩
  · show peerOf 3 ∈ ExtTreeSet.ofList [peerOf 1, peerOf 2, peerOf 3] compare
    decide +kernel
  · intro k hk h
    have hasking := (Turn.Asking.fails_iterate (t := behindThree a) ⟨rfl, nofun, rfl⟩ k).selected
    obtain ⟨i, hi, hp⟩ := retryPeers_first_two hk (hasking.symm.trans h)
    have hlist : (ExtTreeSet.ofList [peerOf 1, peerOf 2, peerOf 3] compare).toList =
        [peerOf 1, peerOf 2, peerOf 3] := by decide +kernel
    have hp : (ExtTreeSet.ofList [peerOf 1, peerOf 2, peerOf 3] compare).toList[i]? =
        some (peerOf 3) := hp
    rw [hlist] at hp
    match i with
    | 0 => exact absurd hp (by decide)
    | 1 => exact absurd hp (by decide)

/-- The second of the three is asked as soon as the first has failed. -/
theorem sync_peer_rotation_second : ∃ t : Turn, ∃ k, 0 < k ∧ k ≤ t.actor.peers.size ∧
    (Turn.syncPeerFails^[k] t).actor.syncPeer = some (peerOf 2) := by
  obtain ⟨a, -⟩ := standalone_starts
  have hconnected : peerOf 2 ∈ (behindThree a).actor.peers := by
    show peerOf 2 ∈ ExtTreeSet.ofList [peerOf 1, peerOf 2, peerOf 3] compare
    decide +kernel
  have hfew : peersBefore (behindThree a).actor.peers (peerOf 2) < 2 := by
    show peersBefore (ExtTreeSet.ofList [peerOf 1, peerOf 2, peerOf 3] compare) (peerOf 2) < 2
    decide +kernel
  exact ⟨behindThree a, (sync_peer_rotation (behindThree a) (peerOf 1) (peerOf 2) nofun rfl
    hconnected).1.2 hfew⟩

end

end KCoin
