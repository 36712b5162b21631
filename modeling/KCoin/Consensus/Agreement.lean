import KCoin.Consensus.Durable

/-!
# Agreement

The validators of one height, each with an engine and a store. Whatever happens to them, in whatever
order events come, and whatever the Byzantine validators sign, two honest validators never finalize
different blocks, as long as fewer than a third of the validators are Byzantine. That signatures
cannot be forged is a condition on what the nodes accept: a vote of an honest validator passes only
if that validator has stored it.
-/

open Relation

namespace KCoin

/-- The honest validators of a height. The others may sign whatever they like. -/
abbrev World := ValidatorId → Host

namespace World

/-- A vote of an honest validator is one that it has stored. -/
def Unforged (honest : ValidatorId → Prop) (w : World) (v : SignedVote) : Prop :=
  honest v.vote.validator → ∃ s, (.vote v.vote, s) ∈ (w v.vote.validator).log

/-- The node accepts only votes that are not forged. -/
def Authentic (honest : ValidatorId → Prop) (w : World) (V : MessageValidator) : Prop :=
  ∀ v, V.Accepts v → Unforged honest w v

/-- An honest validator takes a step. -/
inductive Step (S : Setup) (honest : ValidatorId → Prop) (w : World) : World → Prop
  | step {x : ValidatorId} {h : Host} (hx : honest x)
      (hs : Host.Step x S none (Authentic honest w) (w x) h) :
      Step S honest w (Function.update w x h)

/-- The states of the validators in their runs. -/
def Reachable (S : Setup) (honest : ValidatorId → Prop) (w : World) : Prop :=
  ReflTransGen (Step S honest) (fun _ => Host.fresh) w

/-- Fewer than a third of the validators are Byzantine. -/
def Tolerable (S : Setup) (honest : ValidatorId → Prop) [DecidablePred honest] : Prop :=
  (S.validators.validators.filter (¬honest ·)).length ≤ (S.validators.len - 1) / 3

instance (S : Setup) (honest : ValidatorId → Prop) [DecidablePred honest] :
    Decidable (Tolerable S honest) := inferInstanceAs (Decidable (_ ≤ _))

variable {S : Setup} {honest : ValidatorId → Prop} {w w' : World}

/-! ## What a step keeps -/

theorem Unforged.of_step (hs : Step S honest w w') {v : SignedVote} (h : Unforged honest w v) :
    Unforged honest w' v := by
  intro hv
  obtain ⟨s, hmem⟩ := h hv
  refine ⟨s, ?_⟩
  obtain ⟨-, hstep⟩ := hs
  unfold Function.update
  split
  · next heq =>
      obtain rfl := heq
      exact hstep.mem_log hmem
  · exact hmem

theorem Step.inv (hs : Step S honest w w')
    (hi : ∀ x, honest x → (w x).Inv x S (Unforged honest w) none) :
    ∀ x, honest x → (w' x).Inv x S (Unforged honest w') none := by
  intro y hy
  refine Host.Inv.mono ?_ fun v => Unforged.of_step hs
  obtain ⟨hx, hstep⟩ := hs
  unfold Function.update
  split
  · next heq =>
      obtain rfl := heq
      exact hstep.inv (fun _ hV => hV) (hi _ hx)
  · exact hi y hy

theorem Reachable.inv (hr : Reachable S honest w) :
    ∀ x, honest x → (w x).Inv x S (Unforged honest w) none := by
  induction hr with
  | refl => exact fun _ _ => Host.inv_fresh
  | tail _ hs ih => exact hs.inv ih

/-! ## The votes of a world -/

/-- A validator has stored a vote of a kind for a block in a round. -/
def Stored (w : World) (x : ValidatorId) (kind : VoteKind) (round : Nat) (block : BlockId) : Prop :=
  ∃ v s, (.vote v, s) ∈ (w x).log ∧ v.round.toNat = round ∧ v.kind = kind ∧ v.value = .block block

/-- The stored votes as votes of a protocol with locks. -/
def votes (S : Setup) (honest : ValidatorId → Prop) (w : World) : Votes ValidatorId BlockId where
  honest := honest
  quorum T := ∃ l : List ValidatorId, l.Nodup ∧ l ⊆ S.validators.validators ∧
    S.validators.quorum ≤ l.length ∧ T = {x | x ∈ l}
  prevote x := Stored w x .prevote
  precommit x := Stored w x .precommit

/-- A quorum of votes that are not forged is a quorum of stored votes. -/
theorem stored_of_quorum {round : Round} {kind : VoteKind} {block : BlockId}
    {l : List SignedVote} (hq : S.Quorum (Unforged honest w) round kind block l) :
    ∃ T, (votes S honest w).quorum T ∧
      ∀ x ∈ T, honest x → Stored w x kind round.toNat block := by
  obtain ⟨hd, hsub, hlen⟩ := hq.signers
  refine ⟨_, ⟨_, hd, hsub, hlen, rfl⟩, fun x hx hh => ?_⟩
  obtain ⟨v, hv, rfl⟩ := List.mem_map.1 hx
  obtain ⟨hr, hk, hb⟩ := hq.agree v hv
  obtain ⟨s, hs⟩ := (hq.admissible v hv).authentic hh
  exact ⟨v.vote, s, hs, by rw [hr], hk, hb⟩

theorem polka_of_setup {round : Round} {block : BlockId}
    (hp : S.Polka (Unforged honest w) round block) :
    (votes S honest w).Polka round.toNat block :=
  let ⟨_, hq⟩ := hp
  stored_of_quorum hq

theorem committed_of_setup {round : Round} {block : BlockId}
    (hp : S.Committed (Unforged honest w) round block) :
    (votes S honest w).Committed round.toNat block :=
  let ⟨_, hq⟩ := hp
  stored_of_quorum hq

/-- Two quorums share an honest validator. -/
theorem quorum_intersect [DecidablePred honest] (hbyz : Tolerable S honest)
    {T T' : Set ValidatorId} (hT : (votes S honest w).quorum T)
    (hT' : (votes S honest w).quorum T') : ∃ x, x ∈ T ∧ x ∈ T' ∧ honest x := by
  obtain ⟨l, hd, hsub, hlen, rfl⟩ := hT
  obtain ⟨l', hd', hsub', hlen', rfl⟩ := hT'
  have hcount : S.validators.validators.length +
      (S.validators.validators.filter (¬honest ·)).length < l.length + l'.length := by
    have hpos := S.validators.len_pos
    rw [S.validators.quorum_eq] at hlen hlen'
    unfold Tolerable at hbyz
    unfold ValidatorSet.len at hbyz hpos hlen hlen'
    omega
  obtain ⟨x, hx, hx', hh⟩ := List.exists_common (¬honest ·) S.validators.nodup hd hd' hsub hsub'
    hcount
  exact ⟨x, hx, hx', not_not.1 hh⟩

/-- An honest validator stores one vote for each slot. -/
theorem stored_unique {x : ValidatorId} (hi : (w x).Inv x S (Unforged honest w) none)
    {kind : VoteKind} {r : Nat} {b b' : BlockId} (h : Stored w x kind r b)
    (h' : Stored w x kind r b') : b = b' := by
  obtain ⟨v, s, hv, hr, hk, hb⟩ := h
  obtain ⟨v', s', hv', hr', hk', hb'⟩ := h'
  have hround : v.round = v'.round := UInt32.toNat_inj.1 (hr.trans hr'.symm)
  have hkind : v.kind = v'.kind := hk.trans hk'.symm
  rcases Decision.eq_or_before hi.ordered (List.mem_append_left _ hv)
    (List.mem_append_left _ hv') with heq | hbefore | hbefore
  · cases heq
    exact VoteValue.block.inj (hb.symm.trans hb')
  · exact absurd (hbefore.vote v v' rfl rfl) (Vote.not_before hround hkind)
  · exact absurd (hbefore.vote v' v rfl rfl) (Vote.not_before hround.symm hkind.symm)

/-- A block is precommitted on a quorum of prevotes. -/
theorem polka_of_precommit {x : ValidatorId} (hi : (w x).Inv x S (Unforged honest w) none) {r : Nat}
    {b : BlockId} (h : Stored w x .precommit r b) : (votes S honest w).Polka r b := by
  obtain ⟨v, s, hv, rfl, hk, hb⟩ := h
  have hj := hi.justified _ (List.mem_append_left _ hv)
  obtain ⟨hlr, hlb⟩ := hj.precommit v b rfl hk hb
  rcases hj.backed _ hlr _ hlb with hp | ⟨_, hn, _⟩
  · exact polka_of_setup hp
  · cases hn

/-- After its precommit a validator prevotes the same block, or one with a newer quorum. -/
theorem polka_of_prevote {x : ValidatorId} (hi : (w x).Inv x S (Unforged honest w) none)
    {r r' : Nat} {b b' : BlockId} (h : Stored w x .precommit r b) (h' : Stored w x .prevote r' b')
    (hlt : r < r') : b' = b ∨ ∃ vr, r < vr ∧ vr < r' ∧ (votes S honest w).Polka vr b' := by
  obtain ⟨v, s, hv, rfl, hk, hb⟩ := h
  obtain ⟨v', s', hv', rfl, hk', hb'⟩ := h'
  have hj := hi.justified _ (List.mem_append_left _ hv)
  have hj' := hi.justified _ (List.mem_append_left _ hv')
  obtain ⟨hlr, hlb⟩ := hj.precommit v b rfl hk hb
  -- the prevote came after the precommit, so it was made under its lock or a later one
  have hle : s.Le s' := by
    rcases Decision.eq_or_before hi.ordered (List.mem_append_left _ hv)
      (List.mem_append_left _ hv') with heq | hbefore | hbefore
    · cases heq
      exact .refl _
    · exact hbefore.le
    · have hge := (hbefore.le.round : s'.round ≤ s.round)
      rw [← hj.round v rfl, ← hj'.round v' rfl] at hge
      exact absurd (UInt32.le_iff_toNat_le.1 hge) (Nat.not_le.2 hlt)
  obtain ⟨lr, hlr', hge, hsame⟩ := hle.lockedSince hlr hlb
  obtain ⟨hbefore, hlock | ⟨vr, hvr, hvr', hp⟩⟩ := hj'.prevote v' b' rfl hk' hb' lr hlr'
  · by_cases heq : lr = v.round
    · exact .inl (Option.some.inj (hlock.symm.trans (hsame heq)))
    · have hgt := UInt32.lt_of_le_of_ne hge (Ne.symm heq)
      rcases hj'.backed lr hlr' b' hlock with hp | ⟨_, hn, _⟩
      · exact .inr ⟨lr.toNat, UInt32.lt_iff_toNat_lt.1 hgt, UInt32.lt_iff_toNat_lt.1 hbefore,
          polka_of_setup hp⟩
      · cases hn
  · exact .inr ⟨vr.toNat, UInt32.lt_iff_toNat_lt.1 (UInt32.lt_of_le_of_lt hge hvr),
      UInt32.lt_iff_toNat_lt.1 hvr', polka_of_setup hp⟩

/-- Honest validators keep to the rules of locking. -/
theorem locking_of_inv [DecidablePred honest]
    (hi : ∀ x, honest x → (w x).Inv x S (Unforged honest w) none) (hbyz : Tolerable S honest) :
    (votes S honest w).Locking where
  intersect _ _ := quorum_intersect hbyz
  prevoteOnce x _ _ _ hx := stored_unique (hi x hx)
  precommitPolka x _ _ hx := polka_of_precommit (hi x hx)
  locked x _ _ _ _ hx := polka_of_prevote (hi x hx)

theorem Reachable.locking [DecidablePred honest] (hr : Reachable S honest w)
    (hbyz : Tolerable S honest) : (votes S honest w).Locking := locking_of_inv hr.inv hbyz

/-- With fewer than a third of the validators Byzantine, no two honest validators ever finalize
different blocks, and none ever finds that another block was committed. -/
theorem honest_validators_agree [DecidablePred honest] (hr : Reachable S honest w) (hbyz : Tolerable S honest) :
    (∀ x y, honest x → honest y →
      ∀ ex ey, .ok ex ∈ (w x).returned → .ok ey ∈ (w y).returned →
      ∀ f g, .finalize f ∈ ex → .finalize g ∈ ey → f.blockId = g.blockId) ∧
    ∀ x, honest x → ∀ a b, .error (.conflictingCommit a b) ∉ (w x).returned := by
  have hlocking := hr.locking hbyz
  refine ⟨fun x y hx hy ex ey hex hey f g hf hg => ?_, fun x hx a b hconf => ?_⟩
  · exact hlocking.agreement (committed_of_setup ((hr.inv x hx).committed ex hex f hf))
      (committed_of_setup ((hr.inv y hy).committed ey hey g hg))
  · obtain ⟨hne, ⟨r, ha⟩, r', hb⟩ := (hr.inv x hx).conflict a b hconf
    exact hne (hlocking.agreement (committed_of_setup ha) (committed_of_setup hb))

/-! ## A run with an equivocator -/

/-- Validation that accepts the votes that are not forged. -/
def authenticator (honest : ValidatorId → Prop) [DecidablePred honest] (w : World) :
    MessageValidator where
  validateProposal _ := .ok ()
  validateVote v :=
    if honest v.vote.validator → (w v.vote.validator).log.any (·.1 = .vote v.vote) then .ok ()
    else .error .invalidSignature
  validateCertificate _ := .ok ()

theorem authentic_authenticator [DecidablePred honest] :
    Authentic honest w (authenticator honest w) := by
  intro v hv hh
  unfold MessageValidator.Accepts authenticator at hv
  simp only at hv
  split at hv
  · next hlog =>
      obtain ⟨⟨m, s⟩, hmem, hm⟩ := List.any_eq_true.1 (hlog hh)
      obtain rfl := of_decide_eq_true hm
      exact ⟨s, hmem⟩
  · cases hv

/-- The world after a list of steps of honest validators, if they are possible. -/
def run (S : Setup) (honest : ValidatorId → Prop) [DecidablePred honest] (w : World) :
    List (ValidatorId × Host.Action) → Option World
  | [] => some w
  | (x, a) :: rest =>
    if honest x then
      ((w x).act x S (authenticator honest w) a).bind fun h =>
        run S honest (Function.update w x h) rest
    else none

theorem steps_of_run [DecidablePred honest] {actions : List (ValidatorId × Host.Action)}
    (hr : run S honest w actions = some w') : ReflTransGen (Step S honest) w w' := by
  induction actions generalizing w with
  | nil =>
      cases hr
      exact .refl
  | cons p rest ih =>
      obtain ⟨x, a⟩ := p
      rw [run] at hr
      split at hr
      · next hx =>
          obtain ⟨h, ha, hrest⟩ := Option.bind_eq_some_iff.1 hr
          exact (ih hrest).head ⟨hx, Host.step_of_act authentic_authenticator ha⟩
      · cases hr

end World

namespace Sample

def validatorOf (i : UInt8) : ValidatorId := ⟨Bytes.fill 32 i⟩

/-- Four validators at the first height. The fourth is Byzantine. -/
def fourSetup : Setup where
  validators := ⟨[validatorOf 0, validatorOf 1, validatorOf 2, validatorOf 3], by decide, by decide⟩
  height := 1
  config := .forChain "kcoin-local"

def isHonest (x : ValidatorId) : Prop := x ≠ validatorOf 3

instance : DecidablePred isHonest := fun _ => inferInstanceAs (Decidable (_ ≠ _))

def voteBy (i : UInt8) (kind : VoteKind) (value : VoteValue) : SignedVote :=
  ⟨⟨"kcoin-local", 1, 0, kind, validatorOf i, value⟩, []⟩

/-- The fourth validator precommits the block to the first validator, which finalizes it, and nil to
the second, which then learns the certificate. -/
def equivocatorRun : List (ValidatorId × Host.Action) :=
  let proposal : SignedProposal := ⟨⟨"kcoin-local", 1, 0, validatorOf 0, block, none, []⟩, []⟩
  let a := validatorOf 0
  let b := validatorOf 1
  let vote (i : UInt8) (kind : VoteKind) := voteBy i kind (.block block)
  let hear (x : ValidatorId) (v : SignedVote) := (x, Host.Action.handle (.message (.vote v)))
  let own (x : ValidatorId) (m : SignedMessage) := (x, Host.Action.handle (.persisted m))
  let certificate : ConsensusCommitCertificate :=
    ⟨"kcoin-local", 1, 0, block, [vote 0 .precommit, vote 1 .precommit, vote 3 .precommit]⟩
  [(a, .resume), (b, .resume), (a, .handle .start), (b, .handle .start),
    (a, .handle (.proposalReady 1 0 block)), (a, .persist), own a (.proposal proposal),
    (b, .handle (.message (.proposal proposal))), (a, .persist), (b, .persist),
    own a (.vote (vote 0 .prevote)), own b (.vote (vote 1 .prevote)),
    hear a (vote 1 .prevote), hear b (vote 0 .prevote), hear a (vote 3 .prevote),
    hear b (vote 3 .prevote), (a, .persist), (b, .persist),
    own a (.vote (vote 0 .precommit)), own b (.vote (vote 1 .precommit)),
    hear a (vote 1 .precommit), hear b (vote 0 .precommit), hear a (vote 3 .precommit),
    hear b (voteBy 3 .precommit .nil), (b, .handle (.certificate certificate))]

end Sample

/-- What a validator returned to finalize. -/
def Host.finalizations (h : Host) : List Finalization :=
  h.returned.flatMap fun
    | .ok effects => effects.filterMap fun
      | .finalize f => some f
      | _ => none
    | .error _ => []

theorem Host.mem_finalizations {h : Host} {f : Finalization} (hf : f ∈ h.finalizations) :
    ∃ effects, .ok effects ∈ h.returned ∧ .finalize f ∈ effects := by
  obtain ⟨r, hr, hf⟩ := List.mem_flatMap.1 hf
  cases r with
  | ok effects =>
      obtain ⟨e, he, hf⟩ := List.mem_filterMap.1 hf
      cases e <;> cases hf
      exact ⟨effects, hr, he⟩
  | error _ => exact absurd hf List.not_mem_nil

open Sample World in
theorem World.honest_validators_agree_equivocator :
    ∃ w, Reachable fourSetup isHonest w ∧
      (w (validatorOf 0)).finalizations ≠ [] ∧ (w (validatorOf 1)).finalizations ≠ [] ∧
      ∀ f ∈ (w (validatorOf 0)).finalizations, ∀ g ∈ (w (validatorOf 1)).finalizations,
        f.blockId = g.blockId := by
  have hrun : ((run fourSetup isHonest (fun _ => Host.fresh) equivocatorRun).any fun w =>
      !(w (validatorOf 0)).finalizations.isEmpty && !(w (validatorOf 1)).finalizations.isEmpty) =
      true := by
    decide +kernel
  obtain ⟨w, hw, hfinal⟩ := (Option.any_eq_true _ _).1 hrun
  obtain ⟨ha, hb⟩ := Bool.and_eq_true_iff.1 hfinal
  have hr : Reachable fourSetup isHonest w := steps_of_run hw
  refine ⟨w, hr, by simpa using ha, by simpa using hb, fun f hf g hg => ?_⟩
  obtain ⟨ex, hex, hf⟩ := Host.mem_finalizations hf
  obtain ⟨ey, hey, hg⟩ := Host.mem_finalizations hg
  exact (honest_validators_agree hr (by decide)).1 (validatorOf 0) (validatorOf 1) (by decide) (by decide) ex ey
    hex hey f g hf hg

end KCoin
