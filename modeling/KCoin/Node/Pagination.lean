import KCoin.Node.Listing
import KCoin.Node.Submission

/-!
# The pages of the explorer

The blocks and the transactions of a node are served newest first, in pages. A page asks the store
for one row more than it shows and names a cursor if it gets it: the height of its last block, or the
height and the index of its last transaction. Both endpoints are one handler (`paginated`) that serves
the pages of `Pages.page`. So a client that follows the cursors gets everything that was finalized at
its first request, newest first and nothing twice, while the node goes on finalizing blocks
(`explorer_pagination`).
-/

open Relation

namespace KCoin

/-! ## Errors -/

namespace ApiError

def internal (message : String) : ApiError := ⟨500, "INTERNAL", message⟩

/-- `From<StorageError>` -/
def storage (_ : StorageError) : ApiError :=
  internal "persistent explorer data is temporarily unavailable"

end ApiError

/-! ## The rows of the store -/

def clamp (n lo hi : UInt32) : UInt32 := if n < lo then lo else if hi < n then hi else n

namespace Store

/-- The rows of at most `limit` blocks below a height, the highest first, never more than 101. -/
def listBlocks (s : Store) (before : Option UInt64) (limit : UInt32) :
    Except StorageError (List BlockRow) := do
  before.forM bindInteger
  let rows := s.canonicalBlockRows.filter fun row => before.all (row.height < ·)
  return rows.reverse.take (clamp limit 1 101).toNat

/-- The row is before a height and an index. -/
def isBefore (before : Option (UInt64 × UInt32)) (row : TransactionRow) : Bool :=
  before.all fun (height, index) =>
    row.blockHeight < height || (row.blockHeight = height && row.index < index)

/-- The rows of at most `limit` transactions before a height and an index, the highest height and
index first, never more than 101. -/
def listTransactions (s : Store) (before : Option (UInt64 × UInt32)) (limit : UInt32) :
    Except StorageError (List TransactionRow) := do
  (before.map Prod.fst).forM bindInteger
  let rows := (s.transactions.values.filter (isBefore before)).insertionSort
    (Order.Preimage (fun row => row.place.key) (· ≥ ·))
  return rows.take (clamp limit 1 101).toNat

def transaction (s : Store) (id : String) : Option TransactionRow := s.transactions[id]?

end Store

/-! ## What is shown of a row -/

structure ExplorerCommitSignature where
  validator : String
  signature : String

structure ExplorerCertificate where
  chainId : String
  height : String
  round : UInt32
  consensusValueHash : String
  signatures : List ExplorerCommitSignature

structure ExplorerTransaction where
  id : String
  kind : String
  status : String
  sender : String
  recipient : Option String
  amountAtoms : String
  nonce : String
  displayName : Option String
  blockHeight : String
  blockHash : String
  timestamp : String

structure ExplorerBlock where
  height : String
  hash : String
  parentHash : String
  proposer : String
  round : UInt32
  headerProposer : String
  headerRound : UInt32
  timestamp : String
  transactionCount : String
  transactionRoot : String
  stateRoot : String
  signers : List String
  certificate : ExplorerCertificate
  transactions : Option (List ExplorerTransaction)

/-- What the explorer needs of a validator in the snapshot of the node. -/
structure ValidatorView where
  id : String
  index : UInt16

/-- The validators of the snapshot, in the order of the set. -/
def validatorViews (validators : List ValidatorId) : List ValidatorView :=
  validators.mapIdx fun index v => ⟨hexEncode v.bytes.toList, UInt16.ofNat index⟩

/-- The stores that the accesses for a transaction find, each at its time: for its row, for its block
and for the account of its sender. -/
structure Reads where
  row : Store
  block : Store
  account : Store

section
variable [Primitives] (timestampIso : UInt64 → String) (validators : List ValidatorView)

def explorerTransaction (reads : Reads) (row : TransactionRow) :
    Except ApiError ExplorerTransaction := do
  let stored ← (reads.block.blockByHeight row.blockHeight).mapError .storage
  let block ← okOr (.internal "transaction references a missing block") stored
  let canonicalBlock ← (Block.decode block.blockBytes).mapError .validation
  let canonicalTransaction ←
    okOr (.internal "transaction projection disagrees with canonical block history")
      ((canonicalBlock.transactions[row.index.toNat]?).filter (·.id.toText = row.id))
  let displayName := match canonicalTransaction.unsigned.action with
    | .setDisplayName displayName => displayName
    | _ => (reads.account.account row.sender).bind (·.displayName)
  return {
    id := row.id
    kind := row.kind
    status := "finalized"
    sender := row.sender
    recipient := row.recipient
    amountAtoms := s!"{row.amountAtoms}"
    nonce := s!"{row.nonce}"
    displayName
    blockHeight := s!"{row.blockHeight}"
    blockHash := block.blockHash
    timestamp := timestampIso block.timestampMs }

/-- A validator by its number, if it is one of the snapshot. -/
def validatorLabel (id : String) : String :=
  match validators.find? (·.id = id) with
  | some validator => s!"validator-{validator.index + 1}"
  | none => id

/-- The proposer of the round that finalized a block. -/
def finalityProposer (row : BlockRow) (certificate : CommitCertificate) : String :=
  let heightOffset := (certificate.height.toNat - 1) % validators.length
  let roundOffset := certificate.round.toNat % validators.length
  match validators[(heightOffset + roundOffset) % validators.length]? with
  | some validator => s!"validator-{validator.index + 1}"
  | none => row.proposer

/-- A block, with its transactions if there are reads for them. -/
def explorerBlock (reads : Option (Nat → Reads)) (row : BlockRow) :
    Except ApiError ExplorerBlock := do
  let block ← (Block.decode row.blockBytes).mapError .validation
  let certificate ← (CommitCertificate.decode row.certificateBytes).mapError .validation
  let transactions ← reads.mapM fun reads =>
    block.transactions.zipIdx.mapM fun (t, i) => do
      let row ← okOr (.internal "transaction projection is missing from finalized block")
        ((reads i).row.transaction t.id.toText)
      explorerTransaction timestampIso (reads i) row
  return {
    height := s!"{row.height}"
    hash := row.blockHash
    parentHash := row.parentHash
    proposer := finalityProposer validators row certificate
    round := certificate.round
    headerProposer := validatorLabel validators row.proposer
    headerRound := row.round
    timestamp := timestampIso row.timestampMs
    transactionCount := s!"{block.transactions.length}"
    transactionRoot := block.header.transactionsRoot.toText
    stateRoot := row.stateRoot
    signers := certificate.signatures.map fun s =>
      validatorLabel validators (hexEncode s.validator.bytes.toList)
    certificate := {
      chainId := certificate.chainId.value
      height := s!"{certificate.height}"
      round := certificate.round
      consensusValueHash := certificate.blockHash.toText
      signatures := certificate.signatures.map fun s =>
        ⟨hexEncode s.validator.bytes.toList, hexEncode s.signature.toList⟩ }
    transactions }

end

/-! ## Cursors -/

/-- `str::split_once` -/
def splitOnce (separator : Char) (text : List Char) : Option (List Char × List Char) :=
  match text.dropWhile (· ≠ separator) with
  | [] => none
  | _ :: rest => some (text.takeWhile (· ≠ separator), rest)

/-- `u32::from_str` -/
def parseU32 (text : List Char) : Option UInt32 :=
  (Store.parseU64 text).bind fun n =>
    if n.toNat < 2 ^ 32 then some (UInt32.ofNat n.toNat) else none

def parseBlockCursor (value : String) : Except ApiError UInt64 :=
  okOr (.badRequest "MALFORMED_CURSOR" "cursor must be a block height")
    (Store.parseU64 value.toList)

def parseTransactionCursor (value : String) : Except ApiError (UInt64 × UInt32) := do
  let (height, index) ←
    okOr (.badRequest "MALFORMED_CURSOR" "transaction cursor must have height:index form")
      (splitOnce ':' value.toList)
  let height ← okOr (.badRequest "MALFORMED_CURSOR"
    "transaction cursor height must be an unsigned decimal integer") (Store.parseU64 height)
  let index ← okOr (.badRequest "MALFORMED_CURSOR"
    "transaction cursor index must be an unsigned decimal integer") (parseU32 index)
  return (height, index)

/-! ## The endpoints -/

structure CursorQuery where
  cursor : Option String
  limit : Option UInt32

structure Paginated (α : Type) where
  items : List α
  nextCursor : Option String

/-- The number of items of a page. -/
def pageLimit (limit : Option UInt32) : UInt32 := clamp (limit.getD 25) 1 100

/-- A page: the rows behind a cursor, one more than the page has, and what is shown of them. -/
def paginated {β ρ α : Type} (parseCursor : String → Except ApiError β)
    (list : Option β → UInt32 → Except StorageError (List ρ)) (renderCursor : ρ → String)
    (view : Nat → ρ → Except ApiError α) (query : CursorQuery) : Except ApiError (Paginated α) := do
  let before ← query.cursor.mapM parseCursor
  let limit := pageLimit query.limit
  let rows ← (list before (limit + 1)).mapError .storage
  let hasMore := limit.toNat < rows.length
  let rows := rows.take limit.toNat
  let nextCursor := if hasMore then rows.getLast?.map renderCursor else none
  let items ← rows.zipIdx.mapM fun (row, i) => view i row
  return { items, nextCursor }

section
variable [Primitives] (timestampIso : UInt64 → String) (validators : List ValidatorView)

/-- `GET /api/v1/blocks` on the store that the request finds. -/
def blocks (s : Store) : CursorQuery → Except ApiError (Paginated ExplorerBlock) :=
  paginated parseBlockCursor s.listBlocks (fun row => s!"{row.height}")
    fun _ row => explorerBlock timestampIso validators none row

/-- `GET /api/v1/transactions` on the store that the request finds, with what its accesses for each
item find. -/
def transactions (s : Store) (reads : Nat → Reads) :
    CursorQuery → Except ApiError (Paginated ExplorerTransaction) :=
  paginated parseTransactionCursor s.listTransactions
    (fun row => s!"{row.blockHeight}:{row.index}")
    fun i row => explorerTransaction timestampIso (reads i) row

end

/-- A client that asks for a page, and for the next one as long as a page names one. -/
def walk {ρ α : Type} (request : ρ → Option String → Except ApiError (Paginated α)) :
    Option String → List ρ → Except ApiError (List (Paginated α))
  | _, [] => .ok []
  | cursor, r :: rest => do
    let page ← request r cursor
    match page.nextCursor with
    | none => return [page]
    | some next =>
      let pages ← walk request (some next) rest
      return page :: pages

/-! ## Cursors that are read back -/

theorem splitOnce_append {separator : Char} {text rest : List Char} (h : separator ∉ text) :
    splitOnce separator (text ++ separator :: rest) = some (text, rest) := by
  have hskip : ∀ c ∈ text, decide (c ≠ separator) = true := fun c hc =>
    decide_eq_true fun he => h (he ▸ hc)
  unfold splitOnce
  rw [List.dropWhile_append_of_pos hskip, List.dropWhile_cons_of_neg (by simp),
    List.takeWhile_append_of_pos hskip, List.takeWhile_cons_of_neg (by simp), List.append_nil]

theorem parseU32_toDigits (n : UInt32) : parseU32 (Nat.toDigits 10 n.toNat) = some n := by
  have hlt := n.toNat_lt
  have hvalue : (UInt64.ofNat n.toNat).toNat = n.toNat := by
    rw [UInt64.toNat_ofNat', Nat.mod_eq_of_lt (by omega)]
  have hparse := Store.parseU64_toDigits (UInt64.ofNat n.toNat)
  rw [hvalue] at hparse
  rw [parseU32, hparse, Option.bind_some, hvalue, if_pos hlt]
  exact congrArg some (UInt32.ofNat_toNat)

/-- The height of a block is read back from its cursor. -/
theorem parseBlockCursor_toString (height : UInt64) :
    parseBlockCursor s!"{height}" = .ok height := by
  rw [parseBlockCursor, Store.toList_toString, Store.parseU64_toDigits]
  rfl

/-- The height and the index of a transaction are read back from its cursor. -/
theorem parseTransactionCursor_toString (height : UInt64) (index : UInt32) :
    parseTransactionCursor s!"{height}:{index}" = .ok (height, index) := by
  have htext : (s!"{height}:{index}").toList =
      Nat.toDigits 10 height.toNat ++ ':' :: Nat.toDigits 10 index.toNat := by
    have hindex : (toString index).toList = Nat.toDigits 10 index.toNat := by
      change (toString index.toNat).toList = _
      rw [Nat.toString_eq_repr, Nat.toList_repr]
    simp only [String.toList_append, Store.toList_toString, hindex, List.append_assoc]
    rfl
  have hcolon : ':' ∉ Nat.toDigits 10 height.toNat := fun hmem =>
    absurd (Nat.isDigit_of_mem_toDigits (by omega) (by omega) hmem) (by decide)
  rw [parseTransactionCursor, htext, splitOnce_append hcolon]
  simp only [okOr, pure_bind, Store.parseU64_toDigits, parseU32_toDigits]
  rfl

/-! ## One page -/

theorem toNat_clamp {n lo hi : UInt32} (h : lo ≤ hi) :
    (clamp n lo hi).toNat = max lo.toNat (min n.toNat hi.toNat) := by
  have hle := UInt32.le_iff_toNat_le.1 h
  unfold clamp
  split
  · next hlt =>
      have hlt := UInt32.lt_iff_toNat_lt.1 hlt
      omega
  · next hge =>
      have hge := mt UInt32.lt_iff_toNat_lt.2 hge
      split
      · next hlt =>
          have hlt := UInt32.lt_iff_toNat_lt.1 hlt
          omega
      · next hge' =>
          have hge' := mt UInt32.lt_iff_toNat_lt.2 hge'
          omega

/-- A page has from 1 to 100 items, and the store gives one more if it has it. -/
theorem pageLimit_bounds (limit : Option UInt32) : 0 < (pageLimit limit).toNat ∧
    (clamp (pageLimit limit + 1) 1 101).toNat = (pageLimit limit).toNat + 1 := by
  have hpage : (pageLimit limit).toNat = max 1 (min (limit.getD 25).toNat 100) :=
    toNat_clamp (by decide)
  have hnext : (pageLimit limit + 1).toNat = (pageLimit limit).toNat + 1 := by
    rw [UInt32.toNat_add]
    exact Nat.mod_eq_of_lt (by change _ + 1 < _; omega)
  refine ⟨by omega, ?_⟩
  rw [toNat_clamp (by decide), hnext]
  change max 1 (min _ 101) = _
  omega

/-- Every row is shown, each on its own. -/
theorem mapM_zipIdx {ρ α β : Type} {view : Nat → ρ → Except ApiError α} {shows : α → β} {f : ρ → β}
    {rows : List ρ} (h : ∀ i, ∀ row ∈ rows, ∃ a, view i row = .ok a ∧ shows a = f row) (n : Nat) :
    ∃ items, (rows.zipIdx n).mapM (fun (row, i) => view i row) = .ok items ∧
      items.map shows = rows.map f := by
  induction rows generalizing n with
  | nil => exact ⟨[], rfl, rfl⟩
  | cons row rows ih =>
      obtain ⟨a, ha, hshows⟩ := h n row List.mem_cons_self
      obtain ⟨items, hitems, hrest⟩ := ih (fun i r hr => h i r (List.mem_cons_of_mem _ hr)) (n + 1)
      refine ⟨a :: items, ?_, by rw [List.map_cons, List.map_cons, hshows, hrest]⟩
      rw [List.zipIdx_cons, List.mapM_cons]
      exact Except.bind_eq_ok.2 ⟨a, ha, Except.bind_eq_ok.2 ⟨items, hitems, rfl⟩⟩

section
variable {β ρ α γ ε κ : Type} [LinearOrder κ] {key : ε → κ} {render : κ → String}
  {Valid : κ → Prop} {parseCursor : String → Except ApiError β}
  {list : Option β → UInt32 → Except StorageError (List ρ)} {renderCursor : ρ → String}
  {view : Nat → ρ → Except ApiError α} {shows : α → γ} {entries : List ε} {f : ε → γ}

/-- An endpoint serves the pages of a list: cursors of a kind are read back, the rows behind one are
those of the list, and every row is shown. -/
structure Serves (key : ε → κ) (render : κ → String) (Valid : κ → Prop) (shows : α → γ) (f : ε → γ)
    (entries : List ε) (limit : Option UInt32)
    (request : Option String → Except ApiError (Paginated α)) : Prop where
  valid : ∀ e ∈ entries, Valid (key e)
  page : ∀ c : Option κ, (∀ k ∈ c, Valid k) → ∃ page, request (c.map render) = .ok page ∧
    page.items.map shows =
      (Pages.page key c (pageLimit limit).toNat entries).items.map f ∧
    page.nextCursor = (Pages.page key c (pageLimit limit).toNat entries).next.map render

/-- The handler serves the pages of the list that its rows are. -/
theorem serves_paginated (parse : κ → β) (entry : ρ → ε) (hvalid : ∀ e ∈ entries, Valid (key e))
    (hparse : ∀ k, Valid k → parseCursor (render k) = .ok (parse k))
    (hlist : ∀ (c : Option κ) (limit : UInt32), (∀ k ∈ c, Valid k) →
      ∃ rows, list (c.map parse) limit = .ok rows ∧
        rows.map entry = (Pages.older key c entries).take (clamp limit 1 101).toNat)
    (hrender : ∀ row, renderCursor row = render (key (entry row)))
    (hview : ∀ i row, entry row ∈ entries → ∃ a, view i row = .ok a ∧ shows a = f (entry row))
    (limit : Option UInt32) :
    Serves key render Valid shows f entries limit fun cursor =>
      paginated parseCursor list renderCursor view ⟨cursor, limit⟩ := by
  refine ⟨hvalid, fun c hc => ?_⟩
  obtain ⟨hpos, hmore⟩ := pageLimit_bounds limit
  obtain ⟨rows, hrows, hentries⟩ := hlist c (pageLimit limit + 1) hc
  rw [hmore] at hentries
  have hcursor : (c.map render).mapM parseCursor = .ok (c.map parse) := by
    cases c with
    | none => rfl
    | some k => exact Except.bind_eq_ok.2 ⟨parse k, hparse k (hc k rfl), rfl⟩
  have hmem : ∀ row ∈ rows.take (pageLimit limit).toNat, entry row ∈ entries := by
    intro row hrow
    have hentry : entry row ∈ rows.map entry := List.mem_map_of_mem (List.mem_of_mem_take hrow)
    rw [hentries] at hentry
    exact (Pages.mem_older.1 (List.mem_of_mem_take hentry)).1
  obtain ⟨items, hitems, hshows⟩ : ∃ items,
      ((rows.take (pageLimit limit).toNat).zipIdx 0).mapM (fun (row, i) => view i row) = .ok items ∧
        items.map shows = (rows.take (pageLimit limit).toNat).map fun row => f (entry row) :=
    mapM_zipIdx (fun i row hrow => hview i row (hmem row hrow)) 0
  refine ⟨⟨items, if (pageLimit limit).toNat < rows.length then
    (rows.take (pageLimit limit).toNat).getLast?.map renderCursor else none⟩, ?_, ?_, ?_⟩
  · refine Except.bind_eq_ok.2 ⟨_, hcursor, Except.bind_eq_ok.2 ⟨rows, ?_, ?_⟩⟩
    · exact Except.mapError_eq_ok.2 hrows
    · exact Except.bind_eq_ok.2 ⟨items, hitems, rfl⟩
  · change items.map shows = (((Pages.older key c entries).take _).take _).map f
    rw [hshows, ← hentries, ← List.map_take, List.map_map]
    rfl
  · change _ = Option.map render (if _ then (((Pages.older key c entries).take _).take _).getLast?.map
      key else none)
    rw [← hentries, List.length_map, ← List.map_take, List.getLast?_map]
    split
    · rw [Option.map_map, Option.map_map]
      exact congrFun (congrArg Option.map (funext hrender)) _
    · rfl

/-! ## The pages of a walk -/

variable {σ : Type} {request : σ → Option String → Except ApiError (Paginated α)}
  {limit : σ → Option UInt32} {lists : σ → List ε} {requests : List σ} {l : List ε}

/-- A client gets the pages that one who follows the cursors of the lists gets. -/
theorem walk_eq
    (h : ∀ r ∈ requests, Serves key render Valid shows f (lists r) (limit r) (request r))
    {c : Option κ} (hc : ∀ k ∈ c, Valid k) :
    ∃ pages, walk request (c.map render) requests = .ok pages ∧
      (pages.map fun p => (p.items.map shows, p.nextCursor.isSome)) =
        (Pages.follow key c
          (requests.map fun r => (lists r, (pageLimit (limit r)).toNat))).map fun p =>
            (p.items.map f, p.next.isSome) := by
  induction requests generalizing c with
  | nil => exact ⟨[], rfl, rfl⟩
  | cons r requests ih =>
      have hr := h r List.mem_cons_self
      obtain ⟨page, hpage, hitems, hnext⟩ := hr.page c hc
      rw [List.map_cons, Pages.follow]
      cases hmore : (Pages.page key c (pageLimit (limit r)).toNat (lists r)).next with
      | none =>
          rw [hmore] at hnext
          refine ⟨[page], Except.bind_eq_ok.2 ⟨page, hpage, by rw [hnext]; rfl⟩, ?_⟩
          simp [hitems, hnext, hmore]
      | some k =>
          rw [hmore] at hnext
          have hk : ∀ k' ∈ some k, Valid k' := by
            rintro k' ⟨⟩
            obtain ⟨e, he, rfl⟩ := Pages.mem_of_next hmore
            exact hr.valid e (Pages.mem_of_mem_items he)
          obtain ⟨pages, hpages, heq⟩ := ih (fun r hr => h r (List.mem_cons_of_mem _ hr)) hk
          refine ⟨page :: pages, Except.bind_eq_ok.2 ⟨page, hpage, ?_⟩, ?_⟩
          · rw [hnext]
            exact Except.bind_eq_ok.2 ⟨pages, hpages, rfl⟩
          · rw [List.map_cons, heq]
            simp [hitems, hnext, hmore]

/-- A client that starts without a cursor gets the list of its first request, whatever is put in
front of it in the meantime. -/
theorem walk_delivers
    (h : ∀ r ∈ requests, Serves key render Valid shows f (lists r) (limit r) (request r))
    (hfirst : ∀ r ∈ requests.head?, lists r = l)
    (hlists : ∀ r ∈ requests, l <:+ lists r ∧ Pages.Descending key (lists r)) :
    ∃ pages, walk request none requests = .ok pages ∧
      Pages.Delivers (l.map f) (pages.map fun p => (p.items.map shows, p.nextCursor.isSome))
        requests.length := by
  obtain ⟨pages, hpages, heq⟩ := walk_eq h (c := none) nofun
  refine ⟨pages, hpages, ?_⟩
  have hdelivers : Pages.Delivers l ((Pages.follow key none
      (requests.map fun r => (lists r, (pageLimit (limit r)).toNat))).map fun p =>
        (p.items, p.next.isSome)) requests.length := by
    rw [← List.length_map (fun r => (lists r, (pageLimit (limit r)).toNat))]
    refine Pages.follow_delivers (fun r hr => ?_) fun r hr => ?_
    · rw [List.head?_map] at hr
      obtain ⟨r', hr', rfl⟩ := Option.map_eq_some_iff.1 hr
      exact hfirst r' hr'
    · obtain ⟨r', hr', rfl⟩ := List.mem_map.1 hr
      obtain ⟨hsuffix, hdescending⟩ := hlists r' hr'
      exact ⟨hsuffix, hdescending, (pageLimit_bounds _).1⟩
  have hmapped := hdelivers.map f
  rw [List.map_map] at hmapped
  rw [heq]
  exact hmapped

end

/-! ## The rows of a history -/

section
variable [Primitives] {config : NodeConfig} {history more : BlockHistory} {s : Store}

omit [Primitives] in
/-- What follows a cursor is what the store finds. -/
theorem all_ofNat_lt {c : Option Nat} (hc : ∀ k ∈ c, k < 2 ^ 63) (height : UInt64) :
    (c.map UInt64.ofNat).all (height < ·) = c.all (height.toNat < ·) := by
  cases c with
  | none => rfl
  | some k =>
      have hk := hc k rfl
      have hvalue : (UInt64.ofNat k).toNat = k := by
        rw [UInt64.toNat_ofNat', Nat.mod_eq_of_lt (by omega)]
      rw [Option.map_some, Option.all_some, Option.all_some, decide_eq_decide,
        UInt64.lt_iff_toNat_lt, hvalue]

omit [Primitives] in
/-- The rows of the blocks below a height are the newest of the history below it. -/
theorem Store.listBlocks_eq {c : Option Nat} (hc : ∀ k ∈ c, k < 2 ^ 63) (limit : UInt32) :
    s.listBlocks (c.map UInt64.ofNat) limit = .ok
      ((Pages.older (fun row : BlockRow => row.height.toNat) c s.canonicalBlockRows.reverse).take
        (clamp limit 1 101).toNat) := by
  have hbind : (c.map UInt64.ofNat).forM bindInteger = Except.ok () := by
    cases c with
    | none => rfl
    | some k =>
        refine Except.ensure_eq_ok.2 ?_
        have hk := hc k rfl
        rw [UInt64.toNat_ofNat', Nat.mod_eq_of_lt (by omega)]
        exact hk
  refine Except.bind_eq_ok.2 ⟨(), hbind, congrArg (fun l => Except.ok (List.take _ l)) ?_⟩
  rw [Pages.older, ← List.filter_reverse]
  exact List.filter_congr fun row _ => all_ofNat_lt hc row.height

/-- What is shown of a block of the history. -/
theorem explorerBlock_row (timestampIso : UInt64 → String) (validators : List ValidatorView)
    (h : s.Listing config history) {p : Block × CommitCertificate} (hp : p ∈ history) :
    ∃ b, explorerBlock timestampIso validators none (finalizedRow p.1 p.2) = .ok b ∧
      b.height = s!"{p.1.header.height}" ∧ b.hash = p.1.hash.toText := by
  obtain ⟨hblock, hcertificate⟩ := h.decodable p hp
  refine ⟨_, Except.bind_eq_ok.2 ⟨p.1, Except.mapError_eq_ok.2 hblock, Except.bind_eq_ok.2
    ⟨p.2, Except.mapError_eq_ok.2 hcertificate, rfl⟩⟩, rfl, rfl⟩

/-- The endpoint of the blocks serves the history, newest first. -/
theorem serves_blocks (timestampIso : UInt64 → String) (validators : List ValidatorView)
    (h : s.Listing config history) (limit : Option UInt32) :
    Serves (fun row : BlockRow => row.height.toNat) (fun k : Nat => s!"{k}") (· < 2 ^ 63)
      (fun b : ExplorerBlock => (b.height, b.hash))
      (fun row : BlockRow => (s!"{row.height}", row.blockHash)) s.canonicalBlockRows.reverse limit
      fun cursor => blocks timestampIso validators s ⟨cursor, limit⟩ := by
  have hrow : ∀ row ∈ s.canonicalBlockRows.reverse,
      ∃ p ∈ history, row = finalizedRow p.1 p.2 := by
    intro row hrow
    rw [List.mem_reverse, h.holds.rows] at hrow
    obtain ⟨p, hp, rfl⟩ := List.mem_map.1 hrow
    exact ⟨p, hp, rfl⟩
  refine serves_paginated UInt64.ofNat id (fun row hmem => ?_) (fun k hk => ?_) (fun c limit hc => ?_) (fun _ => rfl) (fun i row hmem => ?_) limit
  · obtain ⟨p, hp, rfl⟩ := hrow row hmem
    exact (h.blockByHeight hp).1
  · have hvalue : (UInt64.ofNat k).toNat = k := by
      rw [UInt64.toNat_ofNat', Nat.mod_eq_of_lt (by omega)]
    have hparse := parseBlockCursor_toString (UInt64.ofNat k)
    have htext : s!"{UInt64.ofNat k}" = s!"{k}" := by
      change toString (UInt64.ofNat k).toNat = toString k
      rw [hvalue]
    rwa [htext] at hparse
  · exact ⟨_, Store.listBlocks_eq hc limit, List.map_id _⟩
  · obtain ⟨p, hp, rfl⟩ := hrow row hmem
    obtain ⟨b, hb, hheight, hhash⟩ := explorerBlock_row timestampIso validators h hp
    exact ⟨b, hb, Prod.ext hheight hhash⟩

/-! ## The rows of its transactions -/

/-- The cursor of a place. -/
def renderPlace (k : Nat ×ₗ Nat) : String := s!"{(ofLex k).1}:{(ofLex k).2}"

/-- The numbers of a place. -/
def cursorPlace (k : Nat ×ₗ Nat) : UInt64 × UInt32 :=
  (UInt64.ofNat (ofLex k).1, UInt32.ofNat (ofLex k).2)

/-- The numbers of a place fit their columns. -/
def FitsPlace (k : Nat ×ₗ Nat) : Prop := (ofLex k).1 < 2 ^ 63 ∧ (ofLex k).2 < 2 ^ 32

omit [Primitives] in
theorem FitsPlace.toNat {k : Nat ×ₗ Nat} (h : FitsPlace k) :
    (cursorPlace k).1.toNat = (ofLex k).1 ∧ (cursorPlace k).2.toNat = (ofLex k).2 := by
  obtain ⟨hheight, hindex⟩ := h
  refine ⟨UInt64.toNat_ofNat_of_lt' ?_, UInt32.toNat_ofNat_of_lt' hindex⟩
  change _ < 2 ^ 64
  omega

omit [Primitives] in
theorem isBefore_iff {c : Option (Nat ×ₗ Nat)} (hc : ∀ k ∈ c, FitsPlace k) (row : TransactionRow) :
    Store.isBefore (c.map cursorPlace) row = true ↔ ∀ k ∈ c, row.place.key < k := by
  cases c with
  | none => simp [Store.isBefore]
  | some k =>
      obtain ⟨hheight, hindex⟩ := (hc k rfl).toNat
      simp only [Store.isBefore, Option.map_some, Option.all_some, Option.mem_some_iff, forall_eq',
        Bool.or_eq_true, Bool.and_eq_true, decide_eq_true_eq, UInt64.lt_iff_toNat_lt,
        UInt32.lt_iff_toNat_lt, ← UInt64.toNat_inj, hheight, hindex]
      exact (Prod.Lex.toLex_lt_toLex (x := (row.blockHeight.toNat, row.index.toNat))
        (y := ofLex k)).symm

/-- The rows of the transactions are different and have different places. -/
theorem Store.Lists.place_inj (hl : s.Lists history)
    (hasc : history.Pairwise fun p q => p.1.header.height.toNat < q.1.header.height.toNat)
    {row row' : TransactionRow} (hrow : row ∈ s.transactions.values)
    (hrow' : row' ∈ s.transactions.values) (hkey : row.place.key = row'.place.key) : row = row' := by
  have hdescending : Pages.Descending Place.key (places history).reverse :=
    List.pairwise_reverse.2 (pairwise_places hasc)
  have hmem : ∀ {row}, row ∈ s.transactions.values →
      row.place ∈ (places history).reverse := fun hrow =>
    List.mem_reverse.2 (hl.mem_place.1 ⟨_, hrow, rfl⟩)
  have hplace := hdescending.inj (hmem hrow) (hmem hrow') hkey
  obtain ⟨id, hid⟩ := BTreeMap.mem_values_iff.1 hrow
  obtain ⟨id', hid'⟩ := BTreeMap.mem_values_iff.1 hrow'
  have hids : row.id = row'.id := congrArg Prod.fst hplace
  rw [hl.keys id row hid, hl.keys id' row' hid'] at hids
  subst hids
  exact Option.some.inj (hid.symm.trans hid')

/-- The rows before a place are the newest transactions of the history before it. -/
theorem Store.Lists.listTransactions_eq (hl : s.Lists history)
    (hasc : history.Pairwise fun p q => p.1.header.height.toNat < q.1.header.height.toNat)
    {c : Option (Nat ×ₗ Nat)} (hc : ∀ k ∈ c, FitsPlace k) (limit : UInt32) :
    ∃ rows, s.listTransactions (c.map cursorPlace) limit = .ok rows ∧
      rows.map TransactionRow.place =
        (Pages.older Place.key c (places history).reverse).take (clamp limit 1 101).toNat := by
  have hbind : ((c.map cursorPlace).map Prod.fst).forM bindInteger = Except.ok () := by
    cases c with
    | none => rfl
    | some k =>
        obtain ⟨hheight, -⟩ := (hc k rfl).toNat
        refine Except.ensure_eq_ok.2 ?_
        rw [hheight]
        exact (hc k rfl).1
  refine ⟨_, Except.bind_eq_ok.2 ⟨(), hbind, rfl⟩, ?_⟩
  rw [List.map_take]
  have hdescending : Pages.Descending Place.key (places history).reverse :=
    List.pairwise_reverse.2 (pairwise_places hasc)
  refine congrArg (List.take _) (Pages.Descending.ext ?_ (Pages.descending_older hdescending c) fun p => ?_)
  · -- the sorted rows have different places
    refine List.pairwise_map.2 ?_
    have hperm := List.perm_insertionSort (Order.Preimage (fun row => row.place.key) (· ≥ ·))
      (s.transactions.values.filter (isBefore (c.map cursorPlace)))
    have hnodup : s.transactions.values.Nodup := by
      have hids := BTreeMap.nodup_map_values s.transactions TransactionRow.id hl.keys
      rw [← BTreeMap.values_eq] at hids
      exact hids.of_map
    have hmem : ∀ {row}, row ∈ (s.transactions.values.filter
        (isBefore (c.map cursorPlace))).insertionSort
          (Order.Preimage (fun row => row.place.key) (· ≥ ·)) → row ∈ s.transactions.values :=
      fun hrow => List.mem_of_mem_filter (hperm.mem_iff.1 hrow)
    refine ((List.pairwise_insertionSort _ _).and
      (hperm.nodup_iff.2 (hnodup.filter _))).imp_of_mem fun hrow hrow' h => ?_
    refine lt_of_le_of_ne h.1 fun hkey => h.2 ?_
    exact (hl.place_inj hasc (hmem hrow') (hmem hrow) hkey).symm
  · rw [Pages.mem_older, List.mem_reverse, ← hl.mem_place, List.mem_map]
    constructor
    · rintro ⟨row, hrow, rfl⟩
      obtain ⟨hrow, hbefore⟩ := List.mem_filter.1 ((List.mem_insertionSort _).1 hrow)
      exact ⟨⟨row, hrow, rfl⟩, (isBefore_iff hc row).1 hbefore⟩
    · rintro ⟨⟨row, hrow, rfl⟩, hbefore⟩
      refine ⟨row, (List.mem_insertionSort _).2 (List.mem_filter.2 ⟨hrow, ?_⟩), rfl⟩
      exact (isBefore_iff hc row).2 hbefore

/-- What is shown of a transaction of the history, when its block is looked up later. -/
theorem explorerTransaction_row (timestampIso : UInt64 → String) {reads : Reads}
    (h : reads.block.Listing config (history ++ more)) {row : TransactionRow}
    (hrow : row.place ∈ places history) :
    ∃ a, explorerTransaction timestampIso reads row = .ok a ∧ a.id = row.id ∧
      a.blockHeight = s!"{row.blockHeight}" := by
  obtain ⟨p, hp, t, hheight, ht, hid⟩ := mem_places.1 hrow
  have hp' : p ∈ history ++ more := List.mem_append_left _ hp
  obtain ⟨-, hblock⟩ := h.blockByHeight hp'
  rw [hheight] at hblock
  have hcanonical : (p.1.transactions[row.index.toNat]?).filter (·.id.toText = row.id) =
      some t := by
    rw [ht, Option.filter_some, if_pos (decide_eq_true hid)]
  refine ⟨_, Except.bind_eq_ok.2 ⟨_, Except.mapError_eq_ok.2 hblock, Except.bind_eq_ok.2 ⟨_, rfl,
    Except.bind_eq_ok.2 ⟨_, Except.mapError_eq_ok.2 (h.decodable p hp').1,
      Except.bind_eq_ok.2 ⟨t, Except.okOr_eq_ok.2 hcanonical, rfl⟩⟩⟩⟩, rfl, rfl⟩

/-- The endpoint of the transactions serves the places of the history, newest first. -/
theorem serves_transactions (timestampIso : UInt64 → String) {reads : Nat → Reads}
    (h : s.Listing config history)
    (hreads : ∀ i, ∃ more, (reads i).block.Listing config (history ++ more))
    (limit : Option UInt32) :
    Serves Place.key renderPlace FitsPlace
      (fun a : ExplorerTransaction => (a.id, a.blockHeight))
      (fun p : Place => (p.1, s!"{p.2.1}")) (places history).reverse limit
      fun cursor => transactions timestampIso s reads ⟨cursor, limit⟩ := by
  refine serves_paginated cursorPlace TransactionRow.place (fun p hp => ?_) (fun k hk => ?_)
    (fun c limit hc => h.lists.listTransactions_eq h.ascending hc limit) (fun _ => rfl)
    (fun i row hrow => ?_) limit
  · obtain ⟨row, hrow, rfl⟩ := h.lists.mem_place.2 (List.mem_reverse.1 hp)
    obtain ⟨q, hq, -, hheight, -⟩ := mem_places.1 (List.mem_reverse.1 hp)
    refine ⟨?_, row.index.toNat_lt⟩
    have hbound := (h.blockByHeight hq).1
    rw [hheight] at hbound
    exact hbound
  · obtain ⟨hheight, hindex⟩ := hk.toNat
    have hparse := parseTransactionCursor_toString (cursorPlace k).1 (cursorPlace k).2
    have htext : s!"{(cursorPlace k).1}:{(cursorPlace k).2}" = renderPlace k := by
      change toString (cursorPlace k).1.toNat ++ ":" ++ toString (cursorPlace k).2.toNat = _
      rw [hheight, hindex]
      rfl
    rwa [htext] at hparse
  · obtain ⟨more, hmore⟩ := hreads i
    obtain ⟨a, ha, hid, hheight⟩ := explorerTransaction_row timestampIso hmore
      (List.mem_reverse.1 hrow)
    exact ⟨a, ha, Prod.ext hid hheight⟩

end

/-! ## Following the cursors of a running node -/

/-- A request for a page: its limit, the moment at which it lists the rows, and the moments at which it
looks up the block and the account of each of its items. -/
structure PageRequest where
  limit : Option UInt32
  listed : Moment
  viewed : Nat → Moment × Moment

/-- What the accesses of a request find. -/
def PageRequest.reads (r : PageRequest) (i : Nat) : Reads where
  row := r.listed.store
  block := (r.viewed i).1.store
  account := (r.viewed i).2.store

section
variable [Primitives]

/-- The history that a request finds. -/
def PageRequest.history (r : PageRequest) : BlockHistory :=
  (decodeHistory r.listed.store.canonicalBlockRows).toOption.getD []

theorem PageRequest.history_eq (r : PageRequest) {config : NodeConfig} {history : BlockHistory}
    (h : r.listed.store.Listing config history) :
    r.history = history := by
  rw [PageRequest.history, h.decodeHistory]
  rfl

end

section
variable [Primitives] [Formats] {config : NodeConfig} {i : Moment} {r : PageRequest}
  {requests : List PageRequest} {history : BlockHistory}

/-- Requests that come one after the other in the life of a node, from some moment on. -/
inductive Requests (config : NodeConfig) : Moment → List PageRequest → Prop
  | nil (i : Moment) : Requests config i []
  | cons (i : Moment) (r : PageRequest) (rest : List PageRequest)
      (listed : ReflTransGen (Moment.Step config) i r.listed)
      (viewed : ∀ n, ReflTransGen (Moment.Step config) r.listed (r.viewed n).1 ∧
        ReflTransGen (Moment.Step config) r.listed (r.viewed n).2)
      (later : Requests config r.listed rest) : Requests config i (r :: rest)

/-- Every request finds a history that continues the one at the beginning, and so do its accesses for
the items. -/
theorem Requests.listing (h : Requests config i requests) (hi : i.Sound config)
    (hlisting : i.store.Listing config history) : ∀ r ∈ requests,
      ∃ more, r.listed.store.Listing config (history ++ more) ∧
        ∀ n, ∃ more', (r.reads n).block.Listing config (history ++ more ++ more') := by
  induction h generalizing history with
  | nil i => exact fun r hr => absurd hr List.not_mem_nil
  | cons i r rest listed viewed _ ih =>
      have hr := hi.steps listed
      obtain ⟨more, hmore⟩ := hi.listing_of_steps listed hlisting
      intro r' hr'
      rcases List.mem_cons.1 hr' with rfl | hr'
      · exact ⟨more, hmore, fun n => hr.listing_of_steps (viewed n).1 hmore⟩
      · obtain ⟨more', hmore', hreads⟩ := ih hr hmore r' hr'
        rw [List.append_assoc] at hmore'
        refine ⟨more ++ more', hmore', fun n => ?_⟩
        rw [← List.append_assoc]
        exact hreads n

/-- Whoever asks for the blocks or the transactions without a cursor, and follows the cursors while the
node goes on, gets what was finalized at the first request, newest first, each entry once: a cursor is
named exactly when older entries are left, and as many requests as there are entries are enough. -/
theorem explorer_pagination (timestampIso : UInt64 → String)
    (h : Requests config .created (r :: requests)) :
    ∃ history, decodeHistory r.listed.store.canonicalBlockRows = .ok history ∧
      history.map (·.1.header.height.toNat) = List.range' 1 history.length ∧
      ((places history).map Prod.fst).Nodup ∧
      Pages.Descending Place.key (places history).reverse ∧
      (∃ pages,
        walk (fun r cursor => blocks timestampIso (validatorViews devValidatorIds) r.listed.store
          ⟨cursor, r.limit⟩) none (r :: requests) = .ok pages ∧
        Pages.Delivers
          (history.reverse.map fun p => (s!"{p.1.header.height}", p.1.hash.toText))
          (pages.map fun p => (p.items.map fun b => (b.height, b.hash), p.nextCursor.isSome))
          (requests.length + 1)) ∧
      ∃ pages,
        walk (fun r cursor => transactions timestampIso r.listed.store r.reads ⟨cursor, r.limit⟩)
          none (r :: requests) = .ok pages ∧
        Pages.Delivers ((places history).reverse.map fun p => (p.1, s!"{p.2.1}"))
          (pages.map fun p => (p.items.map fun a => (a.id, a.blockHeight), p.nextCursor.isSome))
          (requests.length + 1) := by
  cases h with
  | cons _ _ _ listed viewed later =>
  have hr : r.listed.Sound config := (Moment.Reachable.sound .refl).steps listed
  obtain ⟨history, hlisting⟩ := hr.listing
  have hall : ∀ r' ∈ r :: requests, ∃ more, r'.listed.store.Listing config (history ++ more) ∧
      ∀ n, ∃ more', (r'.reads n).block.Listing config (history ++ more ++ more') :=
    (Requests.cons r.listed r requests .refl viewed later).listing hr hlisting
  refine ⟨history, hlisting.decodeHistory, hlisting.heights, ?_, ?_, ?_, ?_⟩
  · rw [ids_of_places]
    exact hlisting.nodup_ids.map Hash32.toText_injective
  · exact List.pairwise_reverse.2 (pairwise_places hlisting.ascending)
  · have hentries : (history.reverse.map fun p => (s!"{p.1.header.height}", p.1.hash.toText)) =
        r.listed.store.canonicalBlockRows.reverse.map fun row =>
          (s!"{row.height}", row.blockHash) := by
      rw [hlisting.holds.rows, ← List.map_reverse, List.map_map]
      rfl
    have hserves : ∀ r' ∈ r :: requests, Serves (fun row : BlockRow => row.height.toNat)
        (fun k : Nat => s!"{k}") (· < 2 ^ 63) (fun b : ExplorerBlock => (b.height, b.hash))
        (fun row : BlockRow => (s!"{row.height}", row.blockHash))
        r'.listed.store.canonicalBlockRows.reverse r'.limit fun cursor =>
          blocks timestampIso (validatorViews devValidatorIds) r'.listed.store
            ⟨cursor, r'.limit⟩ := by
      intro r' hr'
      obtain ⟨more, hmore, -⟩ := hall r' hr'
      exact serves_blocks timestampIso _ hmore r'.limit
    rw [hentries]
    refine walk_delivers hserves (fun r' hr' => ?_) fun r' hr' => ?_
    · obtain rfl := Option.some.inj hr'
      rfl
    · obtain ⟨more, hmore, -⟩ := hall r' hr'
      rw [hlisting.holds.rows, hmore.holds.rows, List.map_append, List.reverse_append]
      refine ⟨List.suffix_append _ _, ?_⟩
      rw [← List.reverse_append, ← List.map_append]
      exact List.pairwise_reverse.2 (List.pairwise_map.2 hmore.ascending)
  · have hserves : ∀ r' ∈ r :: requests, Serves Place.key renderPlace FitsPlace
        (fun a : ExplorerTransaction => (a.id, a.blockHeight))
        (fun p : Place => (p.1, s!"{p.2.1}")) (places r'.history).reverse r'.limit fun cursor =>
          transactions timestampIso r'.listed.store r'.reads ⟨cursor, r'.limit⟩ := by
      intro r' hr'
      obtain ⟨more, hmore, hreads⟩ := hall r' hr'
      rw [r'.history_eq hmore]
      exact serves_transactions timestampIso hmore hreads r'.limit
    rw [← r.history_eq hlisting]
    refine walk_delivers hserves (fun r' hr' => ?_) fun r' hr' => ?_
    · obtain rfl := Option.some.inj hr'
      rfl
    · obtain ⟨more, hmore, -⟩ := hall r' hr'
      rw [r'.history_eq hmore, r.history_eq hlisting]
      refine ⟨?_, List.pairwise_reverse.2 (pairwise_places hmore.ascending)⟩
      rw [places, places, List.flatMap_append, List.reverse_append]
      exact List.suffix_append _ _

end

/-! ## A client of a node with three blocks -/

namespace Sample

def padded (width n : Nat) : String := String.ofList ((Nat.toDigits 10 n).leftpad width '0')

/-- The text of a time on the first day. -/
def timestampIso (ms : UInt64) : String :=
  let seconds := ms.toNat / 1000
  let fraction := if ms.toNat % 1000 = 0 then "" else s!".{padded 3 (ms.toNat % 1000)}"
  s!"1970-01-01T{padded 2 (seconds / 3600)}:{padded 2 (seconds / 60 % 60)}:{padded 2 (seconds % 60)}    {fraction}+00:00"

/-- A request for one entry of a node between two turns. -/
def request (m : Machine) : PageRequest := ⟨some 1, .between m, fun _ => (.between m, .between m)⟩

end Sample

open scoped Sample in
/-- A client asks for one block at a time, first when two blocks are finalized and again after one
more. -/
theorem explorer_pagination_three_blocks : ∃ (m m' : Machine) (history : BlockHistory),
    decodeHistory m.store.canonicalBlockRows = .ok history ∧ history.length = 2 ∧
    (decodeHistory m'.store.canonicalBlockRows).toOption.map (·.length) = some 3 ∧
    ∃ pages,
      walk (fun r cursor => blocks Sample.timestampIso (validatorViews devValidatorIds)
        r.listed.store ⟨cursor, r.limit⟩) none [Sample.request m, Sample.request m'] = .ok pages ∧
      pages.flatMap (fun p => p.items.map fun b => (b.height, b.hash)) =
        history.reverse.map fun p => (s!"{p.1.header.height}", p.1.hash.toText) := by
  let next : Machine → Option Machine := fun m => m.actor.map fun a =>
    m.finished (NodeM.handleCommand .tick (Turn.begin Sample.environment a)).state
  have hrun : (Machine.play Sample.standalone Sample.environment [.tick, .tick]).bind (fun m =>
      (next m).map fun m' => ((decodeHistory m.store.canonicalBlockRows).toOption.map (·.length),
        (decodeHistory m'.store.canonicalBlockRows).toOption.map (·.length))) =
      some (some 2, some 3) := by
    decide +kernel
  obtain ⟨m, hm, hrun⟩ := Option.bind_eq_some_iff.1 hrun
  obtain ⟨m', hm', hrun⟩ := Option.map_eq_some_iff.1 hrun
  obtain ⟨a, ha, rfl⟩ := Option.map_eq_some_iff.1 hm'
  obtain ⟨htwo, hthree⟩ := Prod.mk.inj hrun
  have hfirst : ReflTransGen (Moment.Step Sample.standalone) .created (.between m) :=
    Moment.steps_of_machine (Machine.play_reachable hm)
  have hthen : ReflTransGen (Moment.Step Sample.standalone) (.between m) (.between _) :=
    Moment.steps_of_machine (.single (.finish _ (.command Sample.environment .tick a ha)))
  obtain ⟨history, hdecode, -, -, -, ⟨pages, hwalk, hdelivers⟩, -⟩ :=
    explorer_pagination Sample.timestampIso (.cons .created (Sample.request m) _ hfirst
      (fun _ => ⟨.refl, .refl⟩) (.cons _ (Sample.request _) [] hthen (fun _ => ⟨.refl, .refl⟩)
        (.nil _)))
  have hlength : history.length = 2 := by
    -- the first request finds the store of `m`
    change decodeHistory m.store.canonicalBlockRows = .ok history at hdecode
    rw [hdecode] at htwo
    exact Option.some.inj htwo
  refine ⟨m, _, history, hdecode, hlength, hthree, pages, hwalk, ?_⟩
  have hall := (hdelivers.complete (by simp) (by simp [hlength])).1
  rw [List.flatMap_map] at hall
  exact hall

end KCoin
