import Mathlib.Data.List.Induction
import KCoin.Node.Commands

/-!
# A node over its whole life

A node runs until it crashes, and starts again on the store that is left. A turn, the start of the
node or one command, can be cut off anywhere: what it committed before that point stays in the store,
and what it sent is out (`Machine.Step`). Every point at which a turn can be cut off is one that its
steps pass through (`crash_step`), so an invariant of the steps holds in whatever a crash leaves
(`Machine.Reachable.invariant`).
-/

open Relation EStateM

namespace KCoin

namespace Occurrence

def store? : Occurrence → Option Store
  | .committed store => some store
  | _ => none

def wire? : Occurrence → Option ConsensusWireMessage
  | .consensus wire => some wire
  | _ => none

theorem Other.store? {o : Occurrence} (h : o.Other) : o.store? = none := by
  cases o with
  | committed store => exact h.elim
  | _ => rfl

theorem Other.wire? {o : Occurrence} (h : o.Other) : o.wire? = none := by
  cases o with
  | consensus wire => exact h.elim
  | _ => rfl

end Occurrence

/-- The store after the commits of a trace. -/
def Store.after (s : Store) (trace : List Occurrence) : Store :=
  (trace.filterMap Occurrence.store?).getLastD s

theorem Store.after_append (s : Store) (trace os : List Occurrence) :
    s.after (trace ++ os) = (s.after trace).after os := by
  unfold Store.after
  rw [List.filterMap_append, List.getLastD_eq_getLast?, List.getLast?_append]
  cases h : (os.filterMap Occurrence.store?).getLast? <;> simp [h]

theorem Store.after_other (s : Store) {os : List Occurrence} (h : ∀ o ∈ os, o.Other) :
    s.after os = s := by
  have hnone : os.filterMap Occurrence.store? = [] :=
    List.filterMap_eq_nil_iff.2 fun o ho => (h o ho).store?
  rw [Store.after, hnone, List.getLastD_nil]

/-- What is left after a trace is the store before it, or one that it committed. -/
theorem Store.after_cases (s : Store) (trace : List Occurrence) :
    s.after trace = s ∨ .committed (s.after trace) ∈ trace := by
  unfold Store.after
  rw [List.getLastD_eq_getLast?]
  cases h : (trace.filterMap Occurrence.store?).getLast? with
  | none => exact .inl rfl
  | some store =>
      obtain ⟨o, ho, hstore⟩ := List.mem_filterMap.1 (List.mem_of_getLast? h)
      cases o with
      | committed s' =>
          obtain rfl := Option.some.inj hstore
          exact .inr ho
      | _ => cases hstore

/-! ## What leaves a node in one step -/

section
variable [Primitives] [Formats] {t t' : Turn}

/-- What a step lets out: the store it commits, a consensus message, or something else. -/
inductive Turn.Leaves (t t' : Turn) : Prop
  | other (os : List Occurrence) (h : ∀ o ∈ os, o.Other) (trace : t'.trace = t.trace ++ os)
      (store : t'.actor.store = t.actor.store)
  | committed (trace : t'.trace = t.trace ++ [.committed t'.actor.store])
  | consensus (wire : ConsensusWireMessage) (trace : t'.trace = t.trace ++ [.consensus wire])
      (store : t'.actor.store = t.actor.store)

omit [Primitives] [Formats] in
theorem Turn.Leaves.nothing (trace : t'.trace = t.trace)
    (store : t'.actor.store = t.actor.store) : t.Leaves t' :=
  .other [] (by simp) (by rw [trace, List.append_nil]) store

theorem Turn.Work.leaves (h : t.Work t') : t.Leaves t' := by
  cases h with
  | storeProposal => exact .committed rfl
  | storeDecision => exact .committed rfl
  | storeEvent => exact .committed rfl
  | receive => exact .committed rfl
  | broadcast message wire hcurrent h => exact .consensus wire rfl rfl
  | _ => exact .nothing rfl rfl

theorem Turn.Move.leaves (h : t.Move t') : t.Leaves t' := by
  cases h with
  | quiet h =>
      obtain ⟨os, hos, htrace⟩ := h.trace
      exact .other os hos htrace h.sameCore.store
  | commit => exact .committed rfl
  | resend wire h => exact .consensus wire rfl rfl
  | work hd h => exact h.leaves
  | _ => exact .nothing rfl rfl

omit [Primitives] [Formats] in
/-- The store of the actor is the one committed last. -/
theorem Turn.Leaves.store_eq (h : t.Leaves t') {s : Store}
    (hs : t.actor.store = s.after t.trace) : t'.actor.store = s.after t'.trace := by
  cases h with
  | other os hos htrace hstore =>
      rw [hstore, hs, htrace, Store.after_append, Store.after_other _ hos]
  | committed htrace =>
      rw [htrace, Store.after_append]
      rfl
  | consensus wire htrace hstore =>
      rw [hstore, hs, htrace, Store.after_append]
      rfl

theorem store_of_moves {s : Store} (hs : t.actor.store = s.after t.trace)
    (h : ReflTransGen Turn.Move t t') : t'.actor.store = s.after t'.trace := by
  induction h with
  | refl => exact hs
  | tail _ hmove ih => exact hmove.leaves.store_eq ih

theorem trace_of_moves (h : ReflTransGen Turn.Move t t') : t.trace <+: t'.trace := by
  induction h with
  | refl => exact List.prefix_refl _
  | tail _ hmove ih =>
      refine ih.trans ?_
      cases hmove.leaves with
      | other os _ htrace _ => exact ⟨os, htrace.symm⟩
      | committed htrace => exact ⟨_, htrace.symm⟩
      | consensus wire htrace _ => exact ⟨_, htrace.symm⟩

/-! ## Points of a turn -/

/-- One more thing that leaves the node is a message that concerns neither its store nor the engine,
or it leaves in a single step. -/
theorem crash_step (h : ReflTransGen Turn.Move t t') {trace : List Occurrence} {o : Occurrence}
    (hfrom : t.trace <+: trace) (hto : trace ++ [o] <+: t'.trace) :
    o.Other ∨ ∃ u v, ReflTransGen Turn.Move t u ∧ u.Move v ∧ ReflTransGen Turn.Move v t' ∧
      u.trace = trace ∧ v.trace = trace ++ [o] := by
  induction h with
  | refl =>
      have hlen := hfrom.length_le.trans (List.prefix_append trace [o]).length_le
      have hlt := hto.length_le
      simp only [List.length_append, List.length_singleton] at hlt
      have hle := hfrom.length_le
      omega
  | @tail u v hpath hmove ih =>
      have hone : ∀ o', v.trace = u.trace ++ [o'] → ¬trace ++ [o] <+: u.trace →
          u.trace = trace ∧ v.trace = trace ++ [o] := by
        intro o' htrace hnot
        rw [htrace] at hto
        have heq := (List.prefix_concat_iff.1 hto).resolve_right hnot
        obtain ⟨htr, ho⟩ := List.append_inj' heq rfl
        obtain rfl : o = o' := by simpa using ho
        exact ⟨htr.symm, by rw [htrace, htr]⟩
      by_cases hbefore : trace ++ [o] <+: u.trace
      · rcases ih hbefore with hother | ⟨u', v', hu', hmove', hv', htraces⟩
        · exact .inl hother
        · exact .inr ⟨u', v', hu', hmove', hv'.tail hmove, htraces⟩
      · cases hmove.leaves with
        | other os hos htrace _ =>
            have hafter := (List.prefix_or_prefix_of_prefix hto ⟨os, htrace.symm⟩).resolve_left
              hbefore
            obtain ⟨tail, rfl⟩ := (List.prefix_concat_iff.1 hafter).resolve_left
              fun heq => hbefore (heq ▸ List.prefix_refl _)
            rw [htrace, List.append_assoc, List.prefix_append_right_inj] at hto
            exact .inl (hos o (hto.subset (by simp)))
        | committed htrace => exact .inr ⟨u, v, hpath, hmove, .refl, hone _ htrace hbefore⟩
        | consensus wire htrace _ => exact .inr ⟨u, v, hpath, hmove, .refl, hone _ htrace hbefore⟩

/-- A part of the trace of a turn is that of a turn on the way, but for messages of no concern. -/
theorem crash_point (h : ReflTransGen Turn.Move t t') {trace : List Occurrence}
    (hto : t.trace ++ trace <+: t'.trace) : ∃ u os, ReflTransGen Turn.Move t u ∧
      (∀ o ∈ os, o.Other) ∧ t.trace ++ trace = u.trace ++ os := by
  induction trace using List.reverseRecOn with
  | nil => exact ⟨t, [], .refl, by simp, rfl⟩
  | append_singleton trace o ih =>
      rw [← List.append_assoc] at hto ⊢
      rcases crash_step h (List.prefix_append _ _) hto with ho | ⟨u, v, hu, hmove, -, -, hv⟩
      · obtain ⟨u, os, hu, hos, heq⟩ := ih ((List.prefix_append _ _).trans hto)
        refine ⟨u, os ++ [o], hu, ?_, by rw [heq, List.append_assoc]⟩
        intro o' ho'
        rcases List.mem_append.1 ho' with h' | h'
        · exact hos o' h'
        · obtain rfl := List.mem_singleton.1 h'
          exact ho
      · exact ⟨v, [], hu.tail hmove, by simp, by rw [hv, List.append_nil]⟩

end

/-! ## What a node is started with -/

section
variable [Primitives] [Formats] {config : NodeConfig}

omit [Formats] in
/-- The chain, the validators and the key of a node are those of its configuration. -/
structure NodeActor.Wired (config : NodeConfig) (a : NodeActor) : Prop where
  config_eq : a.config = config
  chainId : ChainId.new config.chainId = .ok a.chainId
  validatorIds : a.validatorIds = devValidatorIds
  localValidatorKey : localKey config = .ok a.localValidatorKey
  validators : a.localValidatorKey.isSome →
    ∃ validators, ValidatorSet.new devValidatorIds = .ok validators

omit [Formats] in
theorem NodeActor.Wired.of_same {a a' : NodeActor} (h : a.Wired config)
    (hconfig : a'.config = a.config) (hchain : a'.chainId = a.chainId)
    (hids : a'.validatorIds = a.validatorIds)
    (hkey : a'.localValidatorKey = a.localValidatorKey) : a'.Wired config :=
  ⟨hconfig.trans h.config_eq, hchain ▸ h.chainId, hids.trans h.validatorIds,
    hkey ▸ h.localValidatorKey, hkey ▸ h.validators⟩

theorem NodeActor.Wired.move {t t' : Turn} (h : t.actor.Wired config) (hmove : t.Move t') :
    t'.actor.Wired config := by
  cases hmove with
  | quiet hq =>
      have hs := hq.sameCore
      exact h.of_same hs.config hs.chainId hs.validatorIds hs.localValidatorKey
  | work hd hw => cases hw <;> exact h.of_same rfl rfl rfl rfl
  | _ => exact h.of_same rfl rfl rfl rfl

omit [Formats] in
/-- A node that has just started on a store. -/
structure NodeActor.Started (config : NodeConfig) (store : Store) (a : NodeActor) : Prop where
  wired : a.Wired config
  store_eq : a.store = store
  restored : ∃ history, decodeHistory store.canonicalBlockRows = .ok history ∧
    LedgerState.replayFinalizedBlocks a.chainId history devValidatorIds = .ok a.ledger
  mempool : a.mempool = [] ∧ a.mempoolIds = ∅
  sync : a.syncTarget = none ∧ a.syncPeer = none ∧ a.syncRequestId = none ∧
    a.syncRequestDeadline = none
  live : a.halted = false

theorem startNode_started {store : Store} {network : Bool} {peers : BTreeSet PeerId}
    {time : Instant} {a : NodeActor} (h : startNode config store network peers time = .ok a) :
    a.Started config store := by
  simp only [startNode, Except.bind_eq_ok, Except.pure_eq_ok, Except.mapError_eq_ok] at h
  obtain ⟨chainId, hchain, _, -, history, hhistory, ledger, hledger, key, hkey, recovery, hrecovery,
    rfl⟩ := h
  refine ⟨⟨rfl, hchain, rfl, hkey, ?_⟩, rfl, ⟨history, hhistory, hledger⟩, ⟨rfl, rfl⟩,
    ⟨rfl, rfl, rfl, rfl⟩, rfl⟩
  intro hsome
  obtain ⟨k, rfl⟩ := Option.isSome_iff_exists.1 hsome
  obtain ⟨validators, hvalidators, -⟩ := Except.bind_eq_ok.1 hrecovery
  exact ⟨validators, Except.mapError_eq_ok.1 hvalidators⟩

end

/-! ## Runs -/

/-- A node: its store, the actor on it while the node runs, and the consensus messages that it ever
sent. -/
structure Machine where
  store : Store
  actor : Option NodeActor
  published : List ConsensusWireMessage

namespace Machine

/-- A node that was never started. -/
def created : Machine := ⟨Store.empty, none, []⟩

/-- The node after a turn. -/
def finished (m : Machine) (t : Turn) : Machine :=
  ⟨t.actor.store, some t.actor, m.published ++ t.trace.filterMap Occurrence.wire?⟩

/-- The node that crashes after a part of a turn. -/
def crashed (m : Machine) (trace : List Occurrence) : Machine :=
  ⟨m.store.after trace, none, m.published ++ trace.filterMap Occurrence.wire?⟩

variable [Primitives] [Formats] {config : NodeConfig} {m m' : Machine} {t : Turn}

/-- The turns of a node: its start, with some peers at some time, and a command. -/
inductive Turns (config : NodeConfig) (m : Machine) : Turn → Prop
  | boot (env : Environment) (network : Bool) (peers : BTreeSet PeerId) (time : Instant)
      (a : NodeActor) (stopped : m.actor = none)
      (h : startNode config m.store network peers time = .ok a) :
      Turns config m (NodeM.boot (Turn.begin env a)).state
  | command (env : Environment) (c : Command) (a : NodeActor) (running : m.actor = some a) :
      Turns config m (NodeM.handleCommand c (Turn.begin env a)).state

/-- A node finishes a turn, or crashes before, in or after it. -/
inductive Step (config : NodeConfig) (m : Machine) : Machine → Prop
  | finish (t : Turn) (h : Turns config m t) : Step config m (m.finished t)
  | crash (t : Turn) (trace : List Occurrence) (h : Turns config m t) (hto : trace <+: t.trace) :
      Step config m (m.crashed trace)

/-- What a node can come to. -/
def Reachable (config : NodeConfig) (m : Machine) : Prop :=
  ReflTransGen (Step config) created m

/-- The actor that begins a turn: the one that runs, or one that has just started. -/
def Begins (config : NodeConfig) (m : Machine) (a : NodeActor) : Prop :=
  m.actor = some a ∨ ∃ network peers time, startNode config m.store network peers time = .ok a

theorem Turns.moves (h : Turns config m t) : ∃ env a, m.Begins config a ∧
    ReflTransGen Turn.Move (Turn.begin env a) t := by
  cases h with
  | boot env network peers time a stopped h =>
      exact ⟨env, a, .inr ⟨network, peers, time, h⟩, NodeM.moves_boot⟩
  | command env c a running => exact ⟨env, a, .inl running, NodeM.moves_handleCommand c⟩

/-- An invariant of the steps of a turn that holds of every node that starts on a store of a certain
kind and keeps its store of that kind, holds of every node whenever a turn begins, and in the course
of it. -/
theorem Reachable.invariant {S : Store → Prop} {J : Turn → Prop} (empty : S .empty)
    (start : ∀ store a env, S store → a.Started config store → J (Turn.begin env a))
    (again : ∀ t env, J t → J (Turn.begin env t.actor))
    (move : ∀ t t', J t → Turn.Move t t' → J t') (durable : ∀ t, J t → S t.actor.store)
    (h : Reachable config m) : S m.store ∧
      ∀ a, m.actor = some a → a.store = m.store ∧ ∀ env, J (Turn.begin env a) := by
  induction h with
  | refl => exact ⟨empty, fun a ha => nomatch ha⟩
  | @tail m m' _ hstep ih =>
      have hbegin : ∀ a env, m.Begins config a → J (Turn.begin env a) ∧ a.store = m.store := by
        rintro a env (ha | ⟨network, peers, time, ha⟩)
        · exact ⟨(ih.2 a ha).2 env, (ih.2 a ha).1⟩
        · have hs := startNode_started ha
          exact ⟨start _ a env ih.1 hs, hs.store_eq⟩
      have hmoves : ∀ {t t'}, J t → ReflTransGen Turn.Move t t' → J t' := by
        intro t t' ht hpath
        induction hpath with
        | refl => exact ht
        | tail _ hmove ih => exact move _ _ ih hmove
      cases hstep with
      | finish t h =>
          obtain ⟨env, a, ha, hpath⟩ := h.moves
          have ht := hmoves (hbegin a env ha).1 hpath
          refine ⟨durable t ht, ?_⟩
          rintro a' ha'
          cases ha'
          exact ⟨rfl, fun env => again t env ht⟩
      | crash t trace h hto =>
          obtain ⟨env, a, ha, hpath⟩ := h.moves
          obtain ⟨u, os, hu, hos, heq⟩ := crash_point hpath (show [] ++ trace <+: _ from hto)
          refine ⟨?_, fun a ha => nomatch ha⟩
          have hstore : u.actor.store = m.store.after u.trace :=
            store_of_moves (hbegin a env ha).2 hu
          have hcrashed : (m.crashed trace).store = u.actor.store := by
            change m.store.after ([] ++ trace) = _
            rw [hstore, show [] ++ trace = u.trace ++ os from heq, Store.after_append,
              Store.after_other _ hos]
          rw [hcrashed]
          exact durable u (hmoves (hbegin a env ha).1 hu)

/-- The same for an invariant of what a node does as a whole. Then the stores that a turn has committed
are of the kind, and one of these is what a crash leaves. -/
theorem Reachable.covered {S : Store → Prop} {J : Turn → Prop} (empty : S .empty)
    (covers : Turn.Covers fun t u => J t → J u)
    (standalone : ∀ t, J t → t.actor.config.role = .standalone →
      J (NodeM.produceStandalone t).state)
    (start : ∀ m network peers time a env, Reachable config m → S m.store →
      startNode config m.store network peers time = .ok a → J (Turn.begin env a))
    (again : ∀ t env, J t → J (Turn.begin env t.actor))
    (durable : ∀ t, J t → S t.actor.store ∧ ∀ s, .committed s ∈ t.trace → S s)
    (h : Reachable config m) :
    S m.store ∧ ∀ a, m.actor = some a → ∀ env, J (Turn.begin env a) := by
  induction h with
  | refl => exact ⟨empty, fun a ha => nomatch ha⟩
  | @tail m m' hm hstep ih =>
      have hturn : ∀ t, Turns config m t → J t := by
        intro t ht
        cases ht with
        | boot env network peers time a stopped ha =>
            exact Reaches.kept covers.boot (start m network peers time a env hm ih.1 ha)
        | command env c a running =>
            refine Reaches.kept (covers.handleCommand c fun _ u _ hrole => ?_) (ih.2 a running env)
            exact .single fun hu => standalone u hu hrole
      cases hstep with
      | finish t h =>
          refine ⟨(durable t (hturn t h)).1, ?_⟩
          rintro _ ⟨⟩ env
          exact again t env (hturn t h)
      | crash t trace h hto =>
          refine ⟨?_, fun a ha => nomatch ha⟩
          rcases m.store.after_cases trace with hsame | hcommitted
          · show S (m.store.after trace)
            rw [hsame]
            exact ih.1
          · exact (durable t (hturn t h)).2 _ (hto.subset hcommitted)

/-- A node that starts on an empty store and then gets some commands, always in the same
environment. -/
def play (config : NodeConfig) (env : Environment) (commands : List Command) : Option Machine :=
  match startNode config Store.empty false ∅ 0 with
  | .error _ => none
  | .ok a => commands.foldl
      (fun m c => m.bind fun m => m.actor.map fun a =>
        m.finished (NodeM.handleCommand c (Turn.begin env a)).state)
      (some (created.finished (NodeM.boot (Turn.begin env a)).state))

/-- What holds of the node that has started, and is kept by the commands, holds at the end. -/
theorem play_induction {P : Machine → Prop} {env : Environment} {commands : List Command}
    (h : play config env commands = some m)
    (hboot : ∀ a, startNode config Store.empty false ∅ 0 = .ok a →
      P (created.finished (NodeM.boot (Turn.begin env a)).state))
    (hcommand : ∀ m a c, c ∈ commands → m.actor = some a → P m →
      P (m.finished (NodeM.handleCommand c (Turn.begin env a)).state)) : P m := by
  have hfold : ∀ (l : List Command) (start : Option Machine), l ⊆ commands →
      (∀ m, start = some m → P m) →
      ∀ m, l.foldl (fun m c => m.bind fun m => m.actor.map fun a =>
        m.finished (NodeM.handleCommand c (Turn.begin env a)).state) start = some m → P m := by
    intro l
    induction l with
    | nil => exact fun _ _ hstart m hm => hstart m hm
    | cons c l ih =>
        intro start hl hstart m hm
        refine ih _ (List.subset_of_cons_subset hl) (fun m' hm' => ?_) m hm
        obtain ⟨m₀, hm₀, hm'⟩ := Option.bind_eq_some_iff.1 hm'
        obtain ⟨a, ha, rfl⟩ := Option.map_eq_some_iff.1 hm'
        exact hcommand m₀ a c (hl List.mem_cons_self) ha (hstart m₀ hm₀)
  unfold play at h
  split at h
  · cases h
  · next a ha =>
      refine hfold commands _ (List.Subset.refl _) (fun m' hm' => ?_) m h
      obtain rfl := Option.some.inj hm'
      exact hboot a ha

theorem play_reachable {env : Environment} {commands : List Command}
    (h : play config env commands = some m) : Reachable config m :=
  play_induction h (fun a ha => .single (.finish _ (.boot env false ∅ 0 a rfl ha)))
    fun _ a c _ ha hm => hm.tail (.finish _ (.command env c a ha))

end Machine

end KCoin
