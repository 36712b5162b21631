import KCoin.Node.Agreement

/-!
# No conflicting finality

A node halts if it is shown a certified block other than the one that it has finalized at that height.
In a network where fewer than a third of the validators are not run by the nodes there is no such
block, whenever in a turn it is compared with the history (`Network.Lawful.agrees`). So no command
halts a node, and a node that is halted could not resume the consensus that a crash had interrupted
(`Network.nodes_stay_live`).
-/

open Relation EStateM Borsh

namespace KCoin

section
variable [Primitives] [Formats] {config : NodeConfig} {validators : ValidatorSet}
  {Auth : SignedVote → Prop} {signed : List PersistedConsensusDecision} {t u : Turn}

/-! ## What does not halt a node -/

namespace NodeM

variable {α : Type} {x : NodeM α}

omit [Formats] in
/-- A block that is the finalized one, if there is a finalized one, does not halt the node. -/
theorem calm_compareFinalized {block : Block} (h : ∀ row canonical,
      t.actor.store.blockByHeight block.header.height = .ok (some row) →
      Block.decode row.blockBytes = .ok canonical → block.hash = canonical.hash) :
    Reaches Turn.Calm (compareFinalized block) t := by
  refine (reading_readStore _).calm_bind fun row u _ hrow => ?_
  refine reaches_okOr_bind fun existing hexisting => reaches_orFail_bind fun canonical hdecode => ?_
  rw [if_pos (h existing canonical (hexisting ▸ readStore_eq_ok hrow) hdecode)]
  exact .pure _

omit [Primitives] [Formats] in
theorem halted_of_reaches (h : Reaches (fun t u => u.actor.halted = t.actor.halted) x t) :
    (x t).state.actor.halted = t.actor.halted :=
  Reaches.kept (Q := fun u => u.actor.halted = t.actor.halted)
    (reaches_mono (fun _ _ hstep ht => hstep.trans ht) h) rfl

omit [Formats] in
theorem halted_of_calm (h : Reaches Turn.Calm x t) : (x t).state.actor.halted = t.actor.halted :=
  halted_of_reaches (reaches_mono (fun _ _ => And.right) h)

theorem Drives.live (h : t.Driving) (hx : Drives x t) :
    (x t).state.actor.halted = t.actor.halted := by
  rcases ReflTransGen.cases_tail hx with heq | ⟨_, -, -, hlast⟩
  · rw [← congrArg (·.actor.halted) heq]
  · rw [hlast.live, h.live]

theorem halted_processConsensusEvent {event : Event} (he : event.External) :
    (processConsensusEvent event t).state.actor.halted = t.actor.halted := by
  by_cases hguard : t.actor.config.role ≠ .validator ∨ t.actor.syncTarget.isSome ∨ t.actor.halted
  · have hrun : processConsensusEvent event t = .ok () t := congrFun (if_pos hguard) t
    exact congrArg (·.state.actor.halted) hrun
  · have h := driving_of_not hguard
    exact (drives_processConsensusEvent h he).live h

theorem halted_importNext (record : FinalizedWireRecord) :
    (importNext record t).state.actor.halted = t.actor.halted := by
  have hcommit : Reaches (fun t u => u.actor.halted = t.actor.halted)
      (commitFinalized record.block record.certificate false) t :=
    reaches_commitFinalized _ _ _ (fun _ _ _ _ => rfl) (fun _ _ => rfl) fun _ _ _ _ _ _ => rfl
  refine halted_of_reaches (hcommit.bind fun _ u _ => ?_)
  refine Reaches.bind (reaches_resetConsensus rfl fun _ _ _ _ _ _ _ _ => rfl) fun _ v _ => ?_
  exact reaches_mono (fun _ _ => And.right) calm_finishSyncIfCurrent

end NodeM

/-! ## A turn on authentic votes -/

/-- A settled turn that began with certain rows in the signer table. -/
structure Turn.Held (config : NodeConfig) (validators : ValidatorSet) (Auth : SignedVote → Prop)
    (signed : List PersistedConsensusDecision) (t : Turn) : Prop where
  settled : NodeM.Settled config validators Auth t
  honest : t.Honest
  signer : signed <+: t.actor.store.signerState

theorem Turn.Held.of_moves (h : t.Held config validators Auth signed)
    (hmoves : ReflTransGen Turn.Move t u) (hsettled : NodeM.Settled config validators Auth u) :
    u.Held config validators Auth signed := by
  obtain ⟨hhonest, hsigner⟩ := honest_of_moves hmoves h.honest
  exact ⟨hsettled, hhonest, h.signer.trans hsigner⟩

/-- A block that the node accepts, with an authentic certificate, is the finalized one of its height if
there is one. -/
def Turn.Agrees (Auth : SignedVote → Prop) (t : Turn) : Prop :=
  ∀ record, t.actor.Accepts record → record.certificate.Authentic Auth → ∀ row canonical,
    t.actor.store.blockByHeight record.block.header.height = .ok (some row) →
    Block.decode row.blockBytes = .ok canonical → record.block.hash = canonical.hash

/-- The node does not halt, unless it has been halted before. -/
def Turn.Spared (config : NodeConfig) (validators : ValidatorSet) (Auth : SignedVote → Prop)
    (signed : List PersistedConsensusDecision) (t u : Turn) : Prop :=
  t.Held config validators Auth signed →
    u.Held config validators Auth signed ∧ u.actor.halted = t.actor.halted

/-- Where certificates agree, nothing that a node does with authentic votes halts it. -/
theorem serves_spared (hvalidators : ValidatorSet.new devValidatorIds = .ok validators)
    (hagrees : ∀ t : Turn, t.Held config validators Auth signed → t.Agrees Auth) :
    Turn.Serves (Event.Authentic Auth) (·.certificate.Authentic Auth)
      (Turn.Spared config validators Auth signed) := by
  have hserves : Turn.Serves (Event.Authentic Auth) (·.certificate.Authentic Auth) fun t u =>
      NodeM.Settled config validators Auth t → NodeM.Settled config validators Auth u :=
    serves_settled hvalidators
  have hcovers := NodeM.closed_move.covers
  have hspared : ∀ {t u : Turn}, ReflTransGen Turn.Move t u →
      (NodeM.Settled config validators Auth t → NodeM.Settled config validators Auth u) →
      u.actor.halted = t.actor.halted → t.Spared config validators Auth signed u :=
    fun hmoves hsettled hhalted h => ⟨h.of_moves hmoves (hsettled h.settled), hhalted⟩
  exact
    { calm := fun hq => hspared (.single (.quiet hq.1)) (hserves.calm hq) hq.2
      compares := fun t record haccepts hauthentic => .single fun h => by
        have hcalm := NodeM.calm_compareFinalized (hagrees t h record haccepts hauthentic)
        exact hspared (NodeM.reaches_mono (fun _ _ hq => .quiet hq.1) hcalm)
          (Reaches.kept (hserves.calms hcalm)) (NodeM.halted_of_calm hcalm) h
      process := fun he hauthentic hstored => .single <| hspared (hcovers.process he hstored)
        (Reaches.kept (hserves.process he hauthentic hstored)) (NodeM.halted_processConsensusEvent he)
      receive := fun signed block hdriving hheight hid => .single <|
        hspared (hcovers.receive signed block hdriving hheight hid)
          (Reaches.kept (hserves.receive signed block hdriving hheight hid))
          ((NodeM.drives_receiveProposal signed block hdriving hheight hid).live hdriving)
      start := fun t => hspared (.single (hcovers.start t)) (hserves.start t) rfl
      imports := fun t record live haccepts hauthentic => .single <|
        hspared (hcovers.imports t record live)
          (Reaches.kept (hserves.imports t record live haccepts hauthentic))
          (NodeM.halted_importNext record)
      resume := fun t => hspared (.single (hcovers.resume t)) (hserves.resume t) rfl
      resend := fun t wire rest h =>
        hspared (.single (hcovers.resend t wire rest h)) (hserves.resend t wire rest h) rfl
      resent := fun t wire rest h =>
        hspared (.single (hcovers.resent t wire rest h)) (hserves.resent t wire rest h) rfl }

theorem NodeM.live_of_spared {α : Type} {x : NodeM α}
    (hpath : Reaches (Turn.Spared config validators Auth signed) x t)
    (hheld : t.Held config validators Auth signed) (hlive : t.actor.halted = false) :
    (x t).state.actor.halted = false := by
  have hend := Reaches.kept
    (Q := fun u => u.Held config validators Auth signed ∧ u.actor.halted = false)
    (reaches_mono (fun t u hspared ht => ?_) hpath) ⟨hheld, hlive⟩
  · exact hend.2
  · obtain ⟨hu, hsame⟩ := hspared ht.1
    exact ⟨hu, hsame.trans ht.2⟩

/-! ## The network -/

namespace Network

variable {ι : Type} [DecidableEq ι] {config : ι → NodeConfig} [DecidablePred (Honest config)]
  {chainId : String} {n : Network ι} {hd : Deployed config chainId} {i : ι}

omit [Formats] [DecidablePred (Honest config)] in
/-- A vote that is not forged is not forged when a node has stored more rows. -/
theorem Unforged.update [Formats] {v : SignedVote} (hv : Unforged config n v) {store : Store}
    (hsigner : (n i).store.signerState <+: store.signerState) :
    Unforged config (Function.update n i ⟨store, none, []⟩) v := by
  refine hv.of_prefix fun j => ?_
  by_cases heq : j = i
  · obtain rfl := heq
    rwa [Function.update_self]
  · rw [Function.update_of_ne heq]

/-- A node has come to another lawful store, with more rows in the signer table. -/
theorem Lawful.update (h : n.Lawful config hd.validators) {store : Store}
    (hstore : store.Lawful (config i) hd.validators (Unforged config n))
    (hsigner : (n i).store.signerState <+: store.signerState) :
    Lawful config hd.validators (Function.update n i ⟨store, none, []⟩) := by
  intro j
  by_cases heq : j = i
  · obtain rfl := heq
    rw [Function.update_self]
    exact hstore.mono fun v hv => hv.update hsigner
  · rw [Function.update_of_ne heq]
    exact (h j).mono fun v hv => hv.update hsigner

/-- In the middle of a turn too, a certificate without forged votes is for the finalized block. -/
theorem Lawful.agrees (h : n.Lawful config hd.validators) {t : Turn}
    (ht : t.Held (config i) hd.validators (Unforged config n) (n i).store.signerState) :
    t.Agrees (Unforged config n) := by
  intro record haccepts hauthentic row canonical hrow hdecode
  have hupdated := h.update ht.settled.2.lawful ht.signer
  obtain ⟨hw, history, hchained⟩ := ht.settled.1.secured.recorded
  have hrun := hchained.replay
  rw [hw.validatorIds] at hrun
  have hhistory := hchained.holds.decodeHistory fun p =>
    LedgerState.applyFinalizedBlocks_decodable hchained.replay
  -- the row is that of a block of the history
  obtain ⟨_, -, hrow⟩ := Except.bind_eq_ok.1 hrow
  have hrow : t.actor.store.blocks[record.block.header.height]? = some row := Except.ok.inj hrow
  have hmem : row ∈ t.actor.store.canonicalBlockRows := BTreeMap.mem_values_iff.2 ⟨_, hrow⟩
  have hkey := (hchained.holds.keys _ _ hrow).1
  rw [hchained.holds.rows] at hmem
  obtain ⟨p, hp, rfl⟩ := List.mem_map.1 hmem
  have hstored := (LedgerState.applyFinalizedBlocks_decodable hchained.replay hp).1
  obtain rfl : p.1 = canonical := Except.ok.inj (hstored.symm.trans hdecode)
  -- the certificate is for the block that came with it
  have hverify := haccepts.certificate
  obtain ⟨_, hblock, hverify⟩ := Except.bind_eq_ok.1 hverify
  obtain ⟨-, hheight, hid, -⟩ := Except.ensure_eq_ok.1 hblock
  obtain ⟨_, -, hverify⟩ := Except.bind_eq_ok.1 hverify
  obtain ⟨_, -, hverify⟩ := Except.bind_eq_ok.1 hverify
  rw [hw.validatorIds] at hverify
  have hunique := hupdated.certified_unique (i := i) (by rwa [Function.update_self]) hrun hp hverify
    (hheight.trans hkey.symm) (hauthentic.mono fun v hv => hv.update ht.signer)
  exact hid.symm.trans hunique

/-- A node of a network that gets no forged votes does nothing that halts it. -/
theorem Reachable.spared (h : Reachable config n) (hd : Deployed config chainId) (i : ι) :
    Turn.Serves (Event.Authentic (Unforged config n)) (·.certificate.Authentic (Unforged config n))
      (Turn.Spared (config i) hd.validators (Unforged config n) (n i).store.signerState) :=
  serves_spared hd.new fun _ => (h.lawful hd).agrees

theorem Reachable.held (h : Reachable config n) (hd : Deployed config chainId) {a : NodeActor}
    (ha : (n i).Begins (config i) a) (env : Environment) : (Turn.begin env a).Held (config i)
      hd.validators (Unforged config n) (n i).store.signerState := by
  obtain ⟨hhonest, hstore⟩ := (h.fed i).honest.begin ha env
  refine ⟨(h.fed i).begins hd.new (hd.role i) ha env, hhonest, ?_⟩
  change (n i).store.signerState <+: a.store.signerState
  rw [hstore]

/-- A command without forged votes does not halt a node. -/
theorem Reachable.live (h : Reachable config n) (hd : Deployed config chainId) {a : NodeActor}
    (ha : (n i).actor = some a) (hlive : a.halted = false) (env : Environment) {c : Command}
    (hc : c.Authentic (Unforged config n)) :
    (NodeM.handleCommand c (Turn.begin env a)).state.actor.halted = false := by
  refine NodeM.live_of_spared ?_ (h.held hd (.inl ha) env) hlive
  refine (h.spared hd i).handleCommand c hc.events hc.records fun _ u _ hu => ?_
  -- the nodes of a network are not standalone
  refine .single fun hheld => absurd ?_ (hd.role i)
  rw [← hheld.settled.1.secured.recorded.1.config_eq]
  exact hu

end Network

end

section
open scoped Sample
open Sample

end

end KCoin
