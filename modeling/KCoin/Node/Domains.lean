import KCoin.Node.Wire

/-!
# Signing domains

The byte strings that an Ed25519 key may sign belong to four encoders: transactions, commit votes,
consensus messages and status messages. The bytes determine the encoder and the statement
(`statement_determined`). Three of the encoders begin with a text; the fourth begins with the tag
of a variant, which is no letter. A block precommit is signed as its commit vote, so its bytes
determine that vote and do not cover the validator.
-/

open Borsh

namespace KCoin

/-- What a key of the program may sign. -/
inductive Statement
  | transaction (t : UnsignedTransaction)
  | commit (v : CommitVote)
  | message (m : SignableMessage)
  | status (s : ValidatorStatusMessage)
  deriving DecidableEq

namespace Statement

/-- The bytes that are signed for a statement. There are none where a length does not fit its
prefix, and none for a block precommit of an invalid chain. -/
def signingBytes : Statement → Option (List UInt8)
  | .transaction t => (toVec t).map fun _ => t.signingBytes
  | .commit v => (toVec v).map fun _ => v.signingBytes
  | .message m => (toVec m).bind fun _ => m.signingBytes
  | .status s => (toVec s).map fun _ => validatorStatusSigningBytes s

/-- The statement that the bytes determine: a block precommit counts as its commit vote. -/
def core : Statement → Statement
  | .message (.vote ⟨chainId, height, round, .precommit, _, .block blockId⟩) =>
    .commit (.new ⟨chainId⟩ height round blockId)
  | s => s

/-! ## The text of a domain -/

/-- The text before the encoding. -/
def domain : Statement → List UInt8
  | .transaction _ => txSignaturePrefix
  | .commit _ => commitSignaturePrefix
  | .message _ => []
  | .status _ => statusSignaturePrefix

/-- The encoding after the text. -/
def body : Statement → List UInt8
  | .transaction t => encode t
  | .commit v => encode v
  | .message m => encode m
  | .status s => encode s

/-- Every length of the statement fits its prefix. -/
def FitsPrefix : Statement → Prop
  | .transaction t => Fits t
  | .commit v => Fits v
  | .message m => Fits m
  | .status s => Fits s

/-- The bytes of a statement are the text of its domain and the encoding, after a block precommit
is replaced by its commit vote. -/
theorem signingBytes_eq {s : Statement} {bs : List UInt8} (h : s.signingBytes = some bs) :
    s.core.FitsPrefix ∧ bs = s.core.domain ++ s.core.body := by
  cases s with
  | transaction t =>
      obtain ⟨_, ht, rfl⟩ := Option.map_eq_some_iff.1 h
      exact ⟨(toVec_eq_some.1 ht).1, rfl⟩
  | commit v =>
      obtain ⟨_, hv, rfl⟩ := Option.map_eq_some_iff.1 h
      exact ⟨(toVec_eq_some.1 hv).1, rfl⟩
  | status s =>
      obtain ⟨_, hs, rfl⟩ := Option.map_eq_some_iff.1 h
      exact ⟨(toVec_eq_some.1 hs).1, rfl⟩
  | message m =>
      obtain ⟨_, hm, hb⟩ := Option.bind_eq_some_iff.1 h
      have hfits := (toVec_eq_some.1 hm).1
      unfold SignableMessage.signingBytes at hb
      split at hb
      · next chainId height round validator blockId =>
          have hchain : Fits chainId := hfits.1
          cases hc : ChainId.new chainId with
          | error e => simp [hc] at hb
          | ok c =>
              obtain ⟨_, _, hc'⟩ := Except.bind_eq_ok.1 hc
              cases Except.pure_eq_ok.1 hc'
              simp only [hc, Option.some.injEq] at hb
              subst hb
              exact ⟨⟨trivial, hchain, trivial, trivial, trivial⟩, rfl⟩
      · next hne =>
          have hcore : (Statement.message m).core = .message m := by
            unfold core
            split
            · next he =>
                cases he
                exact (hne _ _ _ _ _ rfl).elim
            · rfl
          cases hb
          rw [hcore]
          exact ⟨hfits, rfl⟩

/-! ## Different domains -/

def texts : List (List UInt8) := [txSignaturePrefix, commitSignaturePrefix, statusSignaturePrefix]

/-- The texts begin with one letter and differ in the first seven. -/
theorem texts_apart : ∀ p ∈ texts, p.head? = some 75 ∧ 7 ≤ p.length ∧
    ∀ q ∈ texts, p ≠ q → p.take 7 ≠ q.take 7 := by decide

/-- Different texts differ whatever follows them. -/
theorem append_ne_append {p q : List UInt8} (x y : List UInt8) (hp : p ∈ texts) (hq : q ∈ texts)
    (hne : p ≠ q) : p ++ x ≠ q ++ y := by
  intro he
  obtain ⟨-, hlp, hapart⟩ := texts_apart p hp
  obtain ⟨-, hlq, -⟩ := texts_apart q hq
  have := congrArg (List.take 7) he
  rw [List.take_append_of_le_length hlp, List.take_append_of_le_length hlq] at this
  exact hapart q hq hne this

/-- A consensus message begins with the tag of its variant, a text does not. -/
theorem encode_message_ne {p : List UInt8} (m : SignableMessage) (x : List UInt8)
    (hp : p ∈ texts) : encode m ≠ p ++ x := by
  intro he
  have hhead : (p ++ x).head? = some 75 := by
    rw [List.head?_append, (texts_apart p hp).1]
    rfl
  rw [← he] at hhead
  have htag : (encode m).head? = some 0 ∨ (encode m).head? = some 1 := by
    cases m with
    | proposal p => exact .inl rfl
    | vote v => exact .inr rfl
  rcases htag with h | h <;> rw [h] at hhead <;> revert hhead <;> decide

/-- The text and the encoding determine the statement. -/
theorem eq_of_domain_append {a b : Statement} (ha : a.FitsPrefix) (hb : b.FitsPrefix)
    (h : a.domain ++ a.body = b.domain ++ b.body) : a = b := by
  have htx : txSignaturePrefix ∈ texts := by decide
  have hcommit : commitSignaturePrefix ∈ texts := by decide
  have hstatus : statusSignaturePrefix ∈ texts := by decide
  have htc : txSignaturePrefix ≠ commitSignaturePrefix := by decide
  have hts : txSignaturePrefix ≠ statusSignaturePrefix := by decide
  have hcs : commitSignaturePrefix ≠ statusSignaturePrefix := by decide
  cases a with
  | transaction t =>
      cases b with
      | transaction u => rw [encode_inj ha hb (List.append_cancel_left h)]
      | commit v => exact absurd h (append_ne_append _ _ htx hcommit htc)
      | message m => exact absurd h.symm (encode_message_ne m _ htx)
      | status s => exact absurd h (append_ne_append _ _ htx hstatus hts)
  | commit v =>
      cases b with
      | transaction t => exact absurd h (append_ne_append _ _ hcommit htx htc.symm)
      | commit w => rw [encode_inj ha hb (List.append_cancel_left h)]
      | message m => exact absurd h.symm (encode_message_ne m _ hcommit)
      | status s => exact absurd h (append_ne_append _ _ hcommit hstatus hcs)
  | message m =>
      cases b with
      | transaction t => exact absurd h (encode_message_ne m _ htx)
      | commit v => exact absurd h (encode_message_ne m _ hcommit)
      | message n => rw [encode_inj ha hb h]
      | status s => exact absurd h (encode_message_ne m _ hstatus)
  | status s =>
      cases b with
      | transaction t => exact absurd h (append_ne_append _ _ hstatus htx hts.symm)
      | commit v => exact absurd h (append_ne_append _ _ hstatus hcommit hcs.symm)
      | message m => exact absurd h.symm (encode_message_ne m _ hstatus)
      | status s' => rw [encode_inj ha hb (List.append_cancel_left h)]

end Statement

variable [Primitives]

/-- One signature does not verify under one key for two byte strings. -/
def SignatureBinds (key : Bytes 32) (signature : Bytes 64) (x y : List UInt8) : Prop :=
  Primitives.verifyStrict key x signature → Primitives.verifyStrict key y signature → x = y

/-- Equal signed bytes are of one statement, and so a signature that verifies for two statements
under one key is of one statement, where a signature binds the bytes. -/
theorem statement_determined :
    (∀ (a b : Statement) (bs : List UInt8), a.signingBytes = some bs → b.signingBytes = some bs →
      a.core = b.core) ∧
    ∀ (a b : Statement) (x y : List UInt8) (key : Bytes 32) (signature : Bytes 64),
      a.signingBytes = some x → b.signingBytes = some y → SignatureBinds key signature x y →
      Primitives.verifyStrict key x signature → Primitives.verifyStrict key y signature →
      a.core = b.core := by
  have hbytes : ∀ (a b : Statement) (bs : List UInt8), a.signingBytes = some bs →
      b.signingBytes = some bs → a.core = b.core := by
    intro a b bs ha hb
    obtain ⟨hfa, rfl⟩ := Statement.signingBytes_eq ha
    obtain ⟨hfb, he⟩ := Statement.signingBytes_eq hb
    exact Statement.eq_of_domain_append hfa hfb he
  refine ⟨hbytes, fun a b x y key signature ha hb hbinds hx hy => ?_⟩
  have hxy : x = y := hbinds hx hy
  subst hxy
  exact hbytes a b x ha hb

omit [Primitives] in
/-- A block precommit and its commit vote have the same bytes, so a signature of one verifies for
the other; both have the same core. -/
theorem statement_determined_precommit :
    (Statement.message (.vote ⟨"kcoin-local", 1, 0, .precommit, ⟨Bytes.fill 32 7⟩,
        .block Hash32.zero⟩)).core =
      (Statement.commit (.new ⟨"kcoin-local"⟩ 1 0 Hash32.zero)).core :=
  (@statement_determined Sample.primitives).1 _ _
    ((CommitVote.new ⟨"kcoin-local"⟩ 1 0 Hash32.zero).signingBytes) (by decide +kernel)
    (by decide +kernel)

end KCoin
