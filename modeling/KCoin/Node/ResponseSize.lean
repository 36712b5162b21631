import KCoin.Lib.Cbor
import KCoin.Node.CatchUp
import KCoin.Node.Sample

/-!
# The size of an answer

An answer to a request for blocks is cut so that its records, as Borsh bytes, stay within a budget
below the limit of the transport. But the transport writes the answer through serde, as arrays of
numbers, and most bytes of a record take two bytes there. So the range of a request is only answered
within the limit if the records that stay within the budget do so in that form too
(`NodeM.sync_response_fits`).
-/

open Borsh EStateM

namespace KCoin

/-! ## The transport -/

/-- A response as the codec of the transport writes it: a variant is a map with its name under
`kind`. -/
def SyncResponse.toCbor : SyncResponse → List UInt8
  | .status height blockHash stateRoot syncing finalizedTip => Cbor.map [
      ("kind", Cbor.text "status"),
      ("height", Cbor.uint height.toNat),
      ("block_hash", Cbor.text blockHash),
      ("state_root", Cbor.text stateRoot),
      ("syncing", Cbor.bool syncing),
      ("finalized_tip", finalizedTip.elim Cbor.null Cbor.bytesArray)]
  | .blocks records => Cbor.map [
      ("kind", Cbor.text "blocks"),
      ("records", Cbor.array (records.map Cbor.bytesArray))]
  | .error code message => Cbor.map [
      ("kind", Cbor.text "error"),
      ("code", Cbor.text code),
      ("message", Cbor.text message)]

/-- The bytes of an answer with blocks are those of its records as arrays of numbers, the head of the
array, and 21 bytes around it. -/
theorem SyncResponse.length_toCbor_blocks (records : List (List UInt8)) :
    (toCbor (.blocks records)).length = 21 + Cbor.headLength records.length +
      (records.map fun r => (Cbor.bytesArray r).length).sum := by
  have hkind : (Cbor.text "kind").length = 5 := by decide
  have hblocks : (Cbor.text "blocks").length = 7 := by decide
  have hkey : (Cbor.text "records").length = 8 := by decide
  have hhead : (Cbor.head 5 2).length = 1 := by decide
  change (Cbor.head 5 2 ++ (Cbor.text "kind" ++ Cbor.text "blocks" ++
    (Cbor.text "records" ++ Cbor.array (records.map Cbor.bytesArray) ++ []))).length = _
  simp only [List.append_nil, List.length_append, hhead, hkind, hblocks, hkey, Cbor.length_array,
    List.length_map, List.map_map]
  change _ + (_ + (_ + (_ + (records.map fun r => (Cbor.bytesArray r).length).sum))) = _
  omega

/-! ## The rows of an answer -/

/-- The record of a stored block as it is sent. -/
def BlockRow.record (row : BlockRow) : List UInt8 := row.blockBytes ++ row.certificateBytes

/-- The number of bytes that the record takes as an array of numbers. -/
def BlockRow.cborBytes (row : BlockRow) : Nat :=
  Cbor.headLength row.record.length + row.record.length + row.record.countP (24 ≤ ·.toNat)

/-- As many of the first rows as stay within the budget with their Borsh bytes stay within the limit
of the transport as arrays of numbers. -/
def RowsFit (rows : List BlockRow) : Prop :=
  ∀ k ≤ rows.length, ((rows.take k).map (·.record.length)).sum ≤ syncResponseBudget →
    21 + Cbor.headLength k + ((rows.take k).map BlockRow.cborBytes).sum ≤ maxSyncResponseBytes

theorem sum_take_le {α : Type} (f : α → Nat) (l : List α) {k n : Nat} (h : k ≤ n) :
    ((l.take k).map f).sum ≤ ((l.take n).map f).sum := by
  have hsplit := List.take_append_drop k (l.take n)
  rw [List.take_take, min_eq_left h] at hsplit
  rw [← hsplit, List.map_append, List.sum_append]
  exact Nat.le_add_right _ _

namespace NodeM

variable [Primitives]

/-- The bytes of a record are those that are stored. -/
theorem record_of_decodeRow {row : BlockRow} {record : FinalizedWireRecord} {bytes : List UInt8}
    (h : decodeRow row = .ok record) (hbytes : toVec record = some bytes) : bytes = row.record := by
  unfold decodeRow at h
  split at h
  · next block certificate hblock hcertificate =>
      obtain rfl := Except.ok.inj h
      obtain ⟨-, rfl⟩ := toVec_eq_some.1 hbytes
      rw [BlockRow.record, (Block.decode_iff.1 hblock).2,
        (CommitCertificate.decode_iff.1 hcertificate).1]
      rfl
  · cases h
  · cases h

/-- The records that are sent are those of the first rows, as many as stay within the budget. -/
theorem records_of_encodeRows {payloadBytes : Nat} {rows : List BlockRow}
    {records : List (List UInt8)} (h : encodeRows payloadBytes rows = .ok records) :
    ∃ n ≤ rows.length, records = (rows.take n).map BlockRow.record ∧
      (payloadBytes ≤ syncResponseBudget →
        payloadBytes + ((rows.take n).map (·.record.length)).sum ≤ syncResponseBudget) ∧
      ∀ k ≤ rows.length, payloadBytes + ((rows.take k).map (·.record.length)).sum ≤
        syncResponseBudget → k ≤ n := by
  induction rows generalizing payloadBytes records with
  | nil =>
      cases h
      exact ⟨0, Nat.le_refl 0, rfl, id, fun k hk _ => hk⟩
  | cons row rows ih =>
      rw [encodeRows] at h
      obtain ⟨record, hrecord, h⟩ := Except.bind_eq_ok.1 h
      obtain ⟨bytes, hbytes, h⟩ := Except.bind_eq_ok.1 h
      obtain rfl := record_of_decodeRow hrecord (Except.okOr_eq_ok.1 hbytes)
      split at h
      · next hfull =>
          obtain rfl := Except.pure_eq_ok.1 h
          refine ⟨0, Nat.zero_le _, rfl, fun hroom => by simpa using hroom, fun k _ hk => ?_⟩
          cases k with
          | zero => exact Nat.le_refl 0
          | succ k =>
              rw [List.take_succ_cons, List.map_cons, List.sum_cons] at hk
              unfold syncResponseBudget at hk
              omega
      · next hroom =>
          obtain ⟨rest, hrest, h⟩ := Except.bind_eq_ok.1 h
          obtain rfl := Except.pure_eq_ok.1 h
          obtain ⟨n, hn, rfl, hwithin, hmost⟩ := ih hrest
          refine ⟨n + 1, Nat.succ_le_succ hn, rfl, fun _ => ?_, fun k hk hsum => ?_⟩
          · rw [List.take_succ_cons, List.map_cons, List.sum_cons, ← Nat.add_assoc]
            exact hwithin (Nat.le_of_not_lt hroom)
          · cases k with
            | zero => exact Nat.zero_le _
            | succ k =>
                rw [List.take_succ_cons, List.map_cons, List.sum_cons, ← Nat.add_assoc] at hsum
                exact Nat.succ_le_succ (hmost k (Nat.le_of_succ_le_succ hk) hsum)

omit [Primitives] in
theorem length_toCbor_records (rows : List BlockRow) :
    (SyncResponse.toCbor (.blocks (rows.map BlockRow.record))).length =
      21 + Cbor.headLength rows.length + (rows.map BlockRow.cborBytes).sum := by
  have hrecords : ((rows.map BlockRow.record).map fun r => (Cbor.bytesArray r).length) =
      rows.map BlockRow.cborBytes := by
    rw [List.map_map]
    exact List.map_congr_left fun row _ => Cbor.length_bytesArray row.record
  rw [SyncResponse.length_toCbor_blocks, hrecords, List.length_map]

/-- The answer to a request for blocks is within the limit of the transport if and only if those of
the first rows in the range that stay within the budget are so as arrays of numbers. -/
theorem sync_response_fits {token fromHeight : UInt64} {limit : UInt16} {t u : Turn}
    (h : respondToSync token (.blocks fromHeight limit) t = .ok () u) :
    ∃ rows response, t.actor.store.finalizedRange fromHeight limit = .ok rows ∧
      u.trace = t.trace ++ [.respond token response] ∧
      (response.toCbor.length ≤ maxSyncResponseBytes ↔ RowsFit rows) := by
  obtain ⟨a, _, ha, h⟩ := bind_eq_ok.1 h
  cases ha
  obtain ⟨_, _, hnetwork, h⟩ := bind_eq_ok.1 h
  obtain ⟨-, rfl⟩ := ensure_eq_ok.1 hnetwork
  obtain ⟨rows, v, hrows, h⟩ := bind_eq_ok.1 h
  have hrange : t.actor.store.finalizedRange fromHeight limit = .ok rows := readStore_eq_ok hrows
  have htrace : v.trace = t.trace := by
    rcases readStore_cases (·.finalizedRange fromHeight limit) t with ⟨e, asked, he⟩ |
      ⟨asked, _, -, hread⟩
    · exact nomatch he.symm.trans hrows
    · cases hread.symm.trans hrows
      exact List.append_nil _
  obtain ⟨records, w, hencoded, h⟩ := bind_eq_ok.1 h
  obtain ⟨hrecords, rfl⟩ := lift_eq_ok.1 hencoded
  obtain rfl := modify_eq_ok.1 h
  obtain ⟨n, hn, rfl, hwithin, hmost⟩ := records_of_encodeRows hrecords
  have hlength : (rows.take n).length = n := List.length_take_of_le hn
  refine ⟨rows, _, hrange, by rw [htrace], ?_⟩
  rw [length_toCbor_records, hlength]
  constructor
  · intro hfits k hk hsum
    have hle : k ≤ n := hmost k hk (by rwa [Nat.zero_add])
    have hheads := Cbor.headLength_mono hle
    have hsums := sum_take_le BlockRow.cborBytes rows hle
    omega
  · intro hfits
    have hsum := hwithin (Nat.zero_le _)
    exact hfits n hn (by rwa [Nat.zero_add] at hsum)

end NodeM

/-! ## A range of full blocks -/

section
open scoped Sample

namespace Sample

/-- A transfer with a key, a recipient and a signature of large bytes. -/
def transfer : SignedTransaction :=
  ⟨⟨protocolVersion, ⟨"kcoin-local"⟩, .fill 32 0xff, 0, 0, .transfer ⟨.fill 20 0xff⟩ 1⟩, .fill 64 0xff⟩

/-- A block with some transfers. -/
def transfers (count : Nat) (height : UInt64) : Block :=
  .new ⟨"kcoin-local"⟩ height .zero ⟨.fill 32 0xff⟩ 0 0 .zero (List.replicate count transfer)

def emptyCertificate (height : UInt64) : CommitCertificate :=
  ⟨protocolVersion, ⟨"kcoin-local"⟩, height, 0, .zero, []⟩

/-- Three blocks with the same number of transfers. -/
def fullHistory (count : Nat) : BlockHistory :=
  [1, 2, 3].map fun height => (transfers count height, emptyCertificate height)

/-- A store with these blocks. -/
def fullStore (count : Nat) : Store :=
  { Store.empty with
    blocks := (fullHistory count).foldl
      (fun blocks p => blocks.insert p.1.header.height (finalizedRow p.1 p.2)) ∅ }

theorem encode_transfers (count : Nat) (height : UInt64) : encode (transfers count height) =
    encode (transfers count height).header ++
      (leBytes 4 count ++ (List.replicate count (encode transfer)).flatten) := by
  rw [encode_block, encode_list]
  change _ ++ (leBytes 4 (List.replicate count transfer).length ++
    (List.replicate count transfer).flatMap encode) = _
  rw [List.length_replicate, List.flatMap_replicate]

theorem length_transfers (count : Nat) (height : UInt64) :
    (transfers count height).canonicalBytes.length = 169 + 158 * count := by
  have hchain : (utf8 "kcoin-local").length = 11 := by decide
  have hheader : (transfers count height).header.chainId.value = "kcoin-local" := rfl
  have htransfer : (encode transfer).length = 158 := by decide +kernel
  rw [Block.canonicalBytes, encode_transfers, List.length_append, List.length_append,
    length_leBytes, length_encode_header, hheader, hchain, List.length_flatten, List.map_replicate,
    List.sum_replicate_nat, htransfer]
  omega

theorem length_emptyCertificate (height : UInt64) :
    (emptyCertificate height).canonicalBytes.length = 65 := by
  have hchain : (utf8 "kcoin-local").length = 11 := by decide
  change (encode (protocolVersion, "kcoin-local", height, (0 : UInt32), Hash32.zero.bytes,
    ([] : List CommitSignature))).length = _
  simp only [encode_prod, List.length_append, length_encode_uint16, length_encode_uint32,
    length_encode_uint64, length_encode_string, encode_bytes, Bytes.length_toList, encode_list,
    length_leBytes, hchain]
  rfl

theorem readable_transfers {count : Nat} (h : count ≤ 10000) (height : UInt64) :
    Readable (transfers count height, emptyCertificate height) where
  block := by
    have hchain : ChainId.validate ⟨"kcoin-local"⟩ = .ok () := by decide
    refine Block.decode_iff.2 ⟨Block.validateCommitments_eq_ok.2 ⟨?_, rfl, hchain, rfl⟩, rfl⟩
    rw [length_transfers]
    unfold maxBlockBytes
    omega
  certificate := by
    refine CommitCertificate.decode_iff.2 ⟨rfl, ?_⟩
    rw [length_emptyCertificate]
    decide

/-- The row of such a block. -/
def fullRow (count : Nat) (height : UInt64) : BlockRow :=
  finalizedRow (transfers count height) (emptyCertificate height)

/-- Of the 158 bytes of a transfer 127 take two bytes as numbers. -/
theorem fullRow_bytes (count : Nat) (height : UInt64) :
    (fullRow count height).record.length = 234 + 158 * count ∧
      285 * count ≤ (fullRow count height).cborBytes := by
  have hblock : (fullRow count height).record =
      (transfers count height).canonicalBytes ++ (emptyCertificate height).canonicalBytes := rfl
  have hlength : (fullRow count height).record.length = 234 + 158 * count := by
    rw [hblock, List.length_append, length_transfers, length_emptyCertificate]
    omega
  have htransfer : (encode transfer).countP (24 ≤ ·.toNat) = 127 := by decide +kernel
  have hcount : 127 * count ≤ (fullRow count height).record.countP (24 ≤ ·.toNat) := by
    have hflatten : (List.replicate count (encode transfer)).flatten.countP (24 ≤ ·.toNat) =
        127 * count := by
      rw [List.countP_flatten, List.map_replicate, List.sum_replicate_nat, htransfer, Nat.mul_comm]
    rw [hblock, Block.canonicalBytes, encode_transfers, ← hflatten]
    simp only [List.countP_append]
    omega
  refine ⟨hlength, ?_⟩
  rw [BlockRow.cborBytes, hlength]
  omega

theorem fullRows_bytes (count : Nat) (heights : List UInt64) :
    ((heights.map (fullRow count)).map (·.record.length)).sum =
      heights.length * (234 + 158 * count) ∧
    heights.length * (285 * count) ≤ ((heights.map (fullRow count)).map BlockRow.cborBytes).sum := by
  induction heights with
  | nil => exact ⟨(Nat.zero_mul _).symm, Nat.le_of_eq (Nat.zero_mul _)⟩
  | cons height heights ih =>
      obtain ⟨hlength, hcbor⟩ := fullRow_bytes count height
      rw [List.map_cons, List.map_cons, List.sum_cons, hlength, ih.1, List.map_cons, List.sum_cons,
        List.length_cons, Nat.add_comm (234 + 158 * count), Nat.add_comm _ (List.sum _)]
      refine ⟨(Nat.succ_mul _ _).symm, ?_⟩
      rw [Nat.succ_mul]
      exact Nat.add_le_add ih.2 hcbor

/-- The heights of three such blocks. -/
def heights : List UInt64 := [1, 2, 3]

theorem finalizedRange_fullStore (count : Nat) : (fullStore count).finalizedRange 1 128 =
    .ok (heights.map (fullRow count)) := rfl

/-- The records of three such blocks are within the budget, unless there are too many transfers. -/
theorem encodeRows_full {count : Nat} (h : count ≤ 10000) :
    NodeM.encodeRows 0 (heights.map (fullRow count)) =
      .ok ((heights.map (fullRow count)).map BlockRow.record) := by
  have hreadable : ∀ p ∈ fullHistory count, Readable p := by
    intro p hp
    obtain ⟨height, -, rfl⟩ := List.mem_map.1 hp
    exact readable_transfers h height
  obtain ⟨n, -, hencoded, -, -⟩ := encodeRows_eq_ok hreadable 0
  have hrows : ((fullHistory count).map fun p => finalizedRow p.1 p.2) =
      heights.map (fullRow count) := rfl
  rw [hrows] at hencoded
  obtain ⟨m, hm, hrecords, -, hmost⟩ := NodeM.records_of_encodeRows hencoded
  have hlength : (heights.map (fullRow count)).length = 3 := rfl
  have hthree : m = 3 := by
    refine Nat.le_antisymm hm (hmost 3 (Nat.le_refl 3) ?_)
    have hbudget : syncResponseBudget = 8323072 := by decide
    have hheights : heights.length = 3 := rfl
    rw [List.take_of_length_le (Nat.le_of_eq hlength), (fullRows_bytes count heights).1, hbudget,
      hheights]
    omega
  rw [hencoded, hrecords, hthree, List.take_of_length_le (Nat.le_of_eq hlength)]

end Sample

open Sample

namespace NodeM

/-- The range of three blocks with ten thousand transfers each is within the budget, and the answer
with it exceeds the limit of the transport. -/
theorem full_range_exceeds : ∃ a u response,
    startNode standalone .empty true ∅ 0 = .ok a ∧
    respondToSync 0 (.blocks 1 128)
      (Turn.begin environment { a with store := fullStore 10000 }) = .ok () u ∧
    u.trace = [.respond 0 response] ∧ maxSyncResponseBytes < response.toCbor.length := by
  have hstart : (startNode standalone .empty true ∅ 0).toOption.any (·.network) := by
    decide +kernel
  obtain ⟨a, ha, hnetwork⟩ := (Option.any_eq_true ..).1 hstart
  generalize hcount : 10000 = count
  let t := Turn.begin environment { a with store := fullStore count }
  have hread : readStore (·.finalizedRange 1 128) t =
      .ok (heights.map (fullRow count)) { t with asked := 1 } :=
    readStore_of_ok rfl (finalizedRange_fullStore count)
  have hencoded := encodeRows_full (Nat.le_of_eq hcount.symm)
  generalize hrecords : (heights.map (fullRow count)).map BlockRow.record = records at hencoded
  have hrun : respondToSync 0 (.blocks 1 128) t =
      record (.respond 0 (.blocks records)) { t with asked := 1 } :=
    (ensure_bind hnetwork).trans <| (bind_of_ok hread).trans (lift_bind hencoded)
  refine ⟨a, { t with asked := 1, trace := [.respond 0 (.blocks records)] }, .blocks records,
    Except.toOption_eq_some.1 ha, hrun, rfl, ?_⟩
  have hlimit : maxSyncResponseBytes = 8388608 := by decide
  have hheights : heights.length = 3 := rfl
  have hcbor := (fullRows_bytes count heights).2
  rw [hheights] at hcbor
  rw [← hrecords, length_toCbor_records, hlimit]
  omega

/-- The answer with the two blocks of a node that ran for two ticks. -/
theorem sync_response_fits_two_blocks : ∃ m a u,
    Machine.play standalone environment [.tick, .tick] = some m ∧ m.actor = some a ∧
    respondToSync 0 (.blocks 1 128) (Turn.begin environment { a with network := true }) =
      .ok () u ∧
    ∃ rows response, a.store.finalizedRange 1 128 = .ok rows ∧
      u.trace = [.respond 0 response] ∧
      (response.toCbor.length ≤ maxSyncResponseBytes ↔ RowsFit rows) := by
  have hrun : (Machine.play standalone environment [.tick, .tick]).any fun m => m.actor.any fun a =>
      (respondToSync 0 (.blocks 1 128)
        (Turn.begin environment { a with network := true })).isOk := by
    decide +kernel
  obtain ⟨m, hm, hrun⟩ := (Option.any_eq_true ..).1 hrun
  obtain ⟨a, ha, hrun⟩ := (Option.any_eq_true ..).1 hrun
  obtain ⟨_, u, hu⟩ := Result.exists_of_isOk hrun
  exact ⟨m, a, u, hm, ha, hu, sync_response_fits hu⟩

end NodeM

end

end KCoin
