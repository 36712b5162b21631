import KCoin.Node.Actor
import KCoin.Node.Submission
import KCoin.Wallet.Bech32

/-!
# A concrete node

An instance of the text formats that the model of the node can be evaluated with: Base64 and
Bech32m as they are, and a code of its own (`Code`) in place of JSON, in which every value of a type
can be read back.
-/

open Borsh

namespace KCoin

/-- A way to write the values of a type one after the other. -/
structure Code (α : Type) where
  write : α → List UInt8
  read : List UInt8 → Option (α × List UInt8)
  read_write : ∀ (a : α) (rest : List UInt8), read (write a ++ rest) = some (a, rest)

namespace Code

variable {α β : Type}

/-- A number as the number of its bytes and its bytes. -/
def nat : Code Nat where
  write n := List.replicate (n.log2 / 8 + 1) 1 ++ 0 :: leBytes (n.log2 / 8 + 1) n
  read bs :=
    let size := (bs.takeWhile (· = 1)).length
    decodeLE size (bs.drop (size + 1))
  read_write n rest := by
    have hlt : n < 256 ^ (n.log2 / 8 + 1) := by
      refine Nat.lt_of_lt_of_le Nat.lt_log2_self ?_
      rw [show (256 : Nat) = 2 ^ 8 from rfl, ← Nat.pow_mul]
      exact Nat.pow_le_pow_right (by omega) (by omega)
    have hsize : ((List.replicate (n.log2 / 8 + 1) (1 : UInt8) ++
        0 :: leBytes (n.log2 / 8 + 1) n ++ rest).takeWhile (· = 1)).length = n.log2 / 8 + 1 := by
      rw [List.append_assoc, List.takeWhile_append_of_pos (by simp)]
      simp
    have hdrop : (List.replicate (n.log2 / 8 + 1) (1 : UInt8) ++
        0 :: leBytes (n.log2 / 8 + 1) n ++ rest).drop (n.log2 / 8 + 1 + 1) =
        leBytes (n.log2 / 8 + 1) n ++ rest := by
      rw [List.append_assoc, List.drop_append, List.drop_eq_nil_of_le (by simp)]
      simp
    dsimp only
    rw [hsize, hdrop, decodeLE_leBytes rest hlt]

/-- Values that are written as others. -/
def via (c : Code β) (f : α → β) (g : β → Option α) (h : ∀ a, g (f a) = some a) : Code α where
  write a := c.write (f a)
  read bs := do
    let (b, rest) ← c.read bs
    return (← g b, rest)
  read_write a rest := by simp [c.read_write, h]

/-- Two values, one after the other. -/
def prod (c : Code α) (d : Code β) : Code (α × β) where
  write p := c.write p.1 ++ d.write p.2
  read bs := do
    let (a, rest) ← c.read bs
    let (b, rest) ← d.read rest
    return ((a, b), rest)
  read_write p rest := by simp [c.read_write, d.read_write]

/-- Read a number of values. -/
def readMany (c : Code α) : Nat → List UInt8 → Option (List α × List UInt8)
  | 0, bs => some ([], bs)
  | n + 1, bs => do
    let (a, rest) ← c.read bs
    let (l, rest) ← c.readMany n rest
    return (a :: l, rest)

theorem readMany_flatMap (c : Code α) (l : List α) (rest : List UInt8) :
    c.readMany l.length (l.flatMap c.write ++ rest) = some (l, rest) := by
  induction l with
  | nil => rfl
  | cons a l ih =>
      rw [List.flatMap_cons, List.append_assoc, List.length_cons, readMany, c.read_write]
      simp [ih]

/-- The number of some values, then the values. -/
def list (c : Code α) : Code (List α) where
  write l := nat.write l.length ++ l.flatMap c.write
  read bs := do
    let (n, rest) ← nat.read bs
    c.readMany n rest
  read_write l rest := by simp [nat.read_write, c.readMany_flatMap]

def option (c : Code α) : Code (Option α) :=
  c.list.via Option.toList (fun l => some l.head?) (by rintro (_ | _) <;> rfl)

def uint8 : Code UInt8 := nat.via UInt8.toNat (fun n => some (UInt8.ofNat n)) (by simp)

def uint32 : Code UInt32 := nat.via UInt32.toNat (fun n => some (UInt32.ofNat n)) (by simp)

def uint64 : Code UInt64 := nat.via UInt64.toNat (fun n => some (UInt64.ofNat n)) (by simp)

def bytes (n : Nat) : Code (Bytes n) := uint8.list.via Bytes.toList (Bytes.ofList n) (by simp)

def string : Code String :=
  (nat.via Char.toNat (fun n => some (Char.ofNat n)) (by simp)).list.via String.toList
    (fun l => some (String.ofList l)) (by simp)

def hash : Code Hash32 := (bytes 32).via Hash32.bytes (fun b => some ⟨b⟩) (fun _ => rfl)

def validator : Code ValidatorId :=
  (bytes 32).via ValidatorId.bytes (fun b => some ⟨b⟩) (fun _ => rfl)

def voteKind : Code VoteKind :=
  nat.via (fun | .prevote => 0 | .precommit => 1)
    (fun | 0 => some .prevote | _ => some .precommit) (by rintro (_ | _) <;> rfl)

def voteValue : Code VoteValue :=
  hash.option.via (fun | .nil => none | .block id => some id)
    (fun | none => some .nil | some id => some (.block id)) (by rintro (_ | _) <;> rfl)

def signedVote : Code SignedVote :=
  ((string.prod (uint64.prod (uint32.prod (voteKind.prod (validator.prod voteValue))))).prod
      uint8.list).via
    (fun s => ((s.vote.chainId, s.vote.height, s.vote.round, s.vote.kind, s.vote.validator,
      s.vote.value), s.signature))
    (fun ((chain, height, round, kind, validator, value), signature) =>
      some ⟨⟨chain, height, round, kind, validator, value⟩, signature⟩)
    (fun _ => rfl)

def safetyState : Code SafetyState :=
  (uint64.prod (uint32.prod (uint32.option.prod (hash.option.prod (uint32.option.prod
      (hash.option.prod signedVote.list)))))).via
    (fun s => (s.height, s.round, s.lockedRound, s.lockedBlock, s.validRound, s.validBlock,
      s.validRoundProof))
    (fun (height, round, lockedRound, lockedBlock, validRound, validBlock, proof) =>
      some ⟨height, round, lockedRound, lockedBlock, validRound, validBlock, proof⟩)
    (fun _ => rfl)

def challengeView : Code ChallengeView :=
  (string.prod (string.prod (string.prod string))).via
    (fun c => (c.challengeId, c.expression, c.issuedAtHeight, c.rewardAtoms))
    (fun (id, expression, height, reward) => some ⟨id, expression, height, reward⟩)
    (fun _ => rfl)

/-- A value as a text with a character for each byte. -/
def text (c : Code α) (a : α) : String :=
  String.ofList ((c.write a).map fun b => Char.ofNat b.toNat)

/-- The value that a text begins with. -/
def ofText (c : Code α) (text : String) : Option α :=
  (c.read (text.toList.map fun c => UInt8.ofNat c.toNat)).map Prod.fst

theorem ofText_text (c : Code α) (a : α) : c.ofText (c.text a) = some a := by
  have hbytes : (c.text a).toList.map (fun c => UInt8.ofNat c.toNat) = c.write a ++ [] := by
    rw [text, String.toList_ofList, List.map_map, List.append_nil]
    refine (List.map_congr_left fun b _ => ?_).trans (List.map_id _)
    have hvalid : b.toNat.isValidChar := .inl (by have := b.toNat_lt; omega)
    rw [Function.comp_apply, Char.ofNat, dif_pos hvalid]
    change UInt8.ofNat (UInt32.ofNatLT b.toNat _).toNat = b
    simp
  rw [ofText, hbytes, c.read_write]
  rfl

end Code

namespace Sample

def addressText (a : Address) : String :=
  String.ofList (Bech32.encodeBytes addressHrp.toList a.bytes.toList)

theorem decodeBech32m_addressText (a : Address) :
    Wallet.decodeBech32m (addressText a).toList addressHrp.toList = .ok a.bytes.toList := by
  rw [addressText, String.toList_ofList]
  exact Wallet.decodeBech32m_kcoin _

theorem addressText_injective : Function.Injective addressText := by
  intro a b h
  have hbytes := (decodeBech32m_addressText a).symm.trans (h ▸ decodeBech32m_addressText b)
  exact Address.ext (Bytes.toList_injective (Except.ok.inj hbytes))

scoped instance formats : Formats where
  safetyToVec := Code.safetyState.write
  safetyFromSlice bs := (Code.safetyState.read bs).map Prod.fst
  safetyFromSlice_toVec s := by
    have h := Code.safetyState.read_write s []
    rw [List.append_nil] at h
    rw [h]
    rfl
  challengeToText := Code.challengeView.text
  challengeFromText text := (Code.challengeView.ofText text).map fun c =>
    (some c.challengeId, some c.issuedAtHeight)
  challengeFromText_toText c := by
    rw [Code.ofText_text]
    rfl
  addressToText := addressText
  addressToText_injective := addressText_injective
  evidenceToText
    | .doubleVote .. => "DoubleVote"
    | .doubleProposal .. => "DoubleProposal"

/-- The Bech32m decoder of the wallet reads what the node writes. -/
scoped instance encodings : Encodings where
  base64Decode text := Base64.decode text.toList
  base64Decode_eq_some := Base64.decode_eq_some
  bech32Decode text := (Wallet.decodeBech32m text.toList addressHrp.toList).toOption.map fun bytes =>
    (addressHrp, bytes)
  addressToText_eq a := by
    change (addressText a).toList = _
    rw [addressText, String.toList_ofList]

def standalone : NodeConfig := ⟨"kcoin-local", .standalone, none, 0, true⟩

/-- Clocks that advance with every question, a working database, and a network that gives every
request an identifier. -/
def environment : Environment where
  clock n := UInt64.ofNat n
  instant n := n
  storage _ := true
  request n := some (UInt64.ofNat n)
  fuel := 50

end Sample

end KCoin
