import KCoin.Consensus.Authentic
import KCoin.Consensus.Evidence

/-!
# The size of what is decided

A proposal carries the proof of its valid round, which is the quorum that the engine learned: votes of
distinct validators, none of them with a longer signature than the engine accepts. So what an engine
decides is bounded by the number of validators (`Consensus.concise_of_step`).
-/

open Relation

namespace KCoin

namespace Setup

/-- A message of the chain, with a proof of no more votes than there are validators. -/
structure Concise (S : Setup) (m : SignableMessage) : Prop where
  chainId : m.chainId = S.config.chainId
  length : ∀ p, m = .proposal p → p.validRoundProof.length ≤ S.validators.len
  votes : ∀ p, m = .proposal p → ∀ v ∈ p.validRoundProof,
    v.vote.chainId = S.config.chainId ∧ v.signature.length ≤ S.config.maxSignatureBytes

end Setup

namespace Running

open Consensus

variable {S : Setup} {Auth : SignedVote → Prop} {boot : Option SafetyState}
  {entries : List Decision} {V : MessageValidator} {r r' : Running}

/-- The decisions so far are concise. -/
def Concise (S : Setup) (r : Running) : Prop :=
  ∀ m s, .persistBeforeBroadcast m s ∈ r.effects → S.Concise m

theorem Concise.emit (h : r.Concise S) (f : Consensus → Consensus) {e : Effect}
    (he : ∀ m s, e = .persistBeforeBroadcast m s → S.Concise m) :
    ((r.update f).emit e).Concise S := by
  intro m s hmem
  rcases List.mem_append.1 hmem with hold | hnew
  · exact h m s hold
  · exact he m s (List.mem_singleton.1 hnew).symm

theorem Concise.castVote (h : r.Concise S) (hsetup : r.consensus.setup = S) (kind : VoteKind)
    (value : VoteValue) : (r.castVote kind value).Concise S := by
  rcases r.castVote_cases kind value with ⟨-, he⟩ | ⟨-, he⟩ <;> rw [he]
  · exact h
  · have hdecide : (r.decide (.vote (r.consensus.voteOf kind value))).Concise S := by
      refine h.emit _ ?_
      rintro m s ⟨⟩
      exact ⟨congrArg (·.config.chainId) hsetup, by simp, by simp⟩
    exact hdecide.emit (·.setPhase (phaseAfter kind)) (by simp)

/-- The proof of a proposal is the whole proof of the valid value, or there is none. -/
theorem proofFor_eq (c : Consensus) (round : Round) (block : BlockId) :
    c.proofFor round block = c.validProof ∨ c.proofFor round block = [] := by
  unfold proofFor
  split
  · split
    · exact .inl rfl
    · exact .inr rfl
  · exact .inr rfl

/-- The proof of the valid value is a quorum, or there is none. -/
theorem proof_of_inv {c : Consensus} (hi : c.Inv S Auth boot) :
    c.validProof.length ≤ S.validators.len ∧ ∀ v ∈ c.validProof,
      v.vote.chainId = S.config.chainId ∧ v.signature.length ≤ S.config.maxSignatureBytes := by
  cases hvalid : c.validRound with
  | none =>
      have hproof : c.validProof = [] := hi.sound.noProof hvalid
      rw [hproof]
      exact ⟨Nat.zero_le _, by simp⟩
  | some round =>
      obtain ⟨block, hblock⟩ := Option.isSome_iff_exists.1
        (hi.sound.validPaired.trans (Option.isSome_iff_exists.2 ⟨round, hvalid⟩))
      obtain ⟨-, hquorum⟩ := hi.sound.valid round hvalid block hblock
      exact ⟨hquorum.length_le, fun v hv =>
        ⟨(hquorum.admissible v hv).chainId, (hquorum.admissible v hv).size⟩⟩

theorem Micro.concise (hm : Micro V r r') (hh : r.History S Auth boot entries) (h : r.Concise S) :
    r'.Concise S := by
  have hsetup := hh.inv.setup
  cases hm with
  | start =>
      have hstarted : (r.update (·.setStarted)).Concise S := h
      exact hstarted.emit (·.setRound r.consensus.round) (by simp)
  | nextRound => exact h.emit _ (by simp)
  | requestProposal => exact h.emit _ (by simp)
  | @decideProposal live round block requested free =>
      refine h.emit (fun c => (c.eraseRequest round).addDecision _) ?_
      rintro m s ⟨⟩
      obtain ⟨hlength, hvotes⟩ := proof_of_inv hh.inv
      refine ⟨congrArg (·.config.chainId) hsetup, ?_, ?_⟩
      · rintro p ⟨⟩
        change (r.consensus.proofFor round block).length ≤ _
        rcases proofFor_eq r.consensus round block with heq | heq <;> rw [heq]
        · exact hlength
        · exact Nat.zero_le _
      · rintro p ⟨⟩ v hv
        exact hvotes v (proofFor_subset r.consensus round block hv)
  | prevoteProposal => exact h.castVote hsetup _ _
  | prevoteNil => exact h.castVote hsetup _ _
  | precommitNil => exact h.castVote hsetup _ _
  | @lockAndPrecommit live block =>
      exact Concise.castVote (r := r.update (·.setLock block)) h hsetup _ _
  | publish => exact h.emit _ (by simp)
  | doubleProposal => exact h.emit id (by simp)
  | doubleVote => exact h.emit id (by simp)
  | finalizeVotes => exact h.emit _ (by simp)
  | finalizeCertificate => exact h.emit _ (by simp)
  | _ => exact h

theorem concise_of_moves (hm : ReflTransGen (Micro V) r r') (hV : ∀ v, V.Accepts v → Auth v)
    (hh : r.History S Auth boot entries) (h : r.Concise S) : r'.Concise S := by
  induction hm with
  | refl => exact h
  | tail hpath hm ih => exact hm.concise (hh.of_moves hpath hV) ih

end Running

/-- A step keeps the invariant of the engine, and the decisions that it returns are concise. -/
theorem Consensus.concise_of_step {S : Setup} {boot : Option SafetyState} {c : Consensus}
    {V : MessageValidator} {e : Event} (hi : c.Inv S (fun _ => True) boot) :
    (c.step e V).2.Inv S (fun _ => True) boot ∧ ∀ effects, (c.step e V).1 = .ok effects →
      ∀ m s, .persistBeforeBroadcast m s ∈ effects → S.Concise m := by
  have hbegin := History.begin hi
  refine ⟨(hbegin.step (V := V) (fun _ _ => trivial) e).inv, fun effects heffects => ?_⟩
  have hmoves := Running.handle_reaches (V := V) (r := ⟨c, []⟩) (fun hs => (hi.unstarted hs).1) e
  have hempty : Running.Concise S ⟨c, []⟩ := fun m s hmem => absurd hmem List.not_mem_nil
  have hhistory : Running.History S (fun _ => True) boot [] ⟨c, []⟩ := hbegin
  have hconcise := Running.concise_of_moves hmoves (fun _ _ => trivial) hhistory hempty
  unfold step at heffects
  cases hr : EngineM.handle V e ⟨c, []⟩ with
  | error err r =>
      rw [hr] at heffects
      cases heffects
  | ok _ r =>
      rw [hr] at heffects hconcise
      obtain rfl := Except.ok.inj heffects
      exact hconcise

end KCoin
