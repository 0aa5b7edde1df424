import Haystack.InvertedIndex.Rows

/-!
# The keywords merger

`mergeKeywordsIndex` scans the rows in key order, collects runs of small rows of one keyword into
groups and rewrites each group into fewer rows. It works in rounds: a round ends when it has
collected 500 groups or when the time is up, and the next round goes on behind the last row it saw.
When the time is up the call ends and reports where a later call should start.
-/

namespace Haystack.InvertedIndex

open WriteBatch

/-- How many more calls of `isTimeout` return false; `none` when the time is never up. -/
abbrev Clock := Option ℕ

/-- The ticks of the rewrites of a call, by the sequence counter at the start of a rewrite. -/
abbrev Ticks := ℕ → Int64

def Clock.isTimeout : Clock → Bool × Clock
  | none => (false, none)
  | some 0 => (true, some 0)
  | some (n + 1) => (false, some n)

structure RecordRow where
  key : Bytes
  value : Bytes
  docCount : Int64
  deriving DecidableEq

/-- `invertedIndexEntry`: rows of one keyword that lie next to each other. -/
structure Group where
  tableId : TableId
  keyword : Keyword
  rows : List RecordRow
  docCount : Int64
  deriving DecidableEq

def Group.addRow (g : Group) (r : RecordRow) : Group :=
  { g with rows := g.rows ++ [r], docCount := g.docCount + r.docCount }

/-! ### Rewriting a group -/

/-- The documents of some rows, each once. -/
def docsOf (rows : List RecordRow) : List DocId :=
  (rows.flatMap fun r => decodeInvertedValue r.value).dedup

/-- Take rows from the front while fewer than `size` documents are batched, or when few are left:
the rows taken, the remaining ones, and the number of documents left. -/
def takeChunk (size : ℕ) (taken : List RecordRow) :
    List RecordRow → Int64 → List RecordRow × List RecordRow × Int64
  | [], left => (taken, [], left)
  | r :: rows, left =>
    if (docsOf taken).length < size ∨ left.toInt < max (size / 5) 4 then
      takeChunk size (taken ++ [r]) rows (left - r.docCount)
    else (taken, r :: rows, left)

namespace Writer

/-- Delete the rows of a chunk and put one row with their documents. -/
def rewriteChunk (x : Writer) (t : TableId) (w : Keyword) (chunk : List RecordRow)
    (tick : Int64) : Writer :=
  ({ x with rewritten := x.rewritten ++ [(x.db.count, chunk.length)] }.delete
    (chunk.map RecordRow.key)).writeInvertedIndex t w (docsOf chunk) tick

/-- The loop of `rewriteIndex`; every round takes at least one row. -/
def rewriteRows (size : ℕ) (t : TableId) (w : Keyword) (tick : Int64) :
    ℕ → Writer → List RecordRow → Int64 → Writer
  | 0, x, _, _ => x
  | fuel + 1, x, rows, left =>
    if rows.length ≤ 1 then x
    else
      match takeChunk size [] rows left with
      | (chunk, rest, left) =>
        rewriteRows size t w tick fuel (x.rewriteChunk t w chunk tick) rest left

/-- `rewriteIndex`: a single row and rows that are large on average are left alone. -/
def rewriteIndex (size : ℕ) (ticks : Ticks) (x : Writer) (g : Group) : Writer :=
  if g.rows.length < 2 ∨ g.docCount.toInt.tdiv g.rows.length > size then x
  else x.rewriteRows size g.tableId g.keyword (ticks x.keySeq) g.rows.length g.rows g.docCount

end Writer

/-! ### Collecting groups -/

/-- The state of a scan: `lastTableId` is `invalidId` before the first row. -/
structure Scan where
  lastTableId : TableId
  current : Group
  pending : List Group
  clock : Clock

/-- How a round ends: at the end of the key space, or with a row that starts the next group. -/
inductive Round
  | done (pending : List Group) (current : Group)
  | cut (pending : List Group) (next : Group) (nextIter : Bytes) (clock : Clock)

/-- The first row gives the initial group its table and keyword. -/
def Scan.enter (s : Scan) (k : RowKey) : Scan :=
  if s.lastTableId = invalidId then
    { s with
      lastTableId := k.tableId
      current := { s.current with tableId := k.tableId, keyword := k.keyword } }
  else s

/-- A row as the merger keeps it. -/
def recordOf (e : Bytes × Bytes) : RecordRow :=
  ⟨e.1, e.2, (decodeInvertedKey e.1).doccount⟩

/-- The callback of the scan: the scan goes on, or the round ends with this row. -/
def Scan.row (size : ℕ) (s : Scan) (e : Bytes × Bytes) : Except Round Scan :=
  let k := decodeInvertedKey e.1
  -- keys that do not decode are skipped
  if k.tableId = invalidId then .ok s
  else
    let s := s.enter k
    -- in the current table rows that are large already are skipped too
    if s.lastTableId = k.tableId ∧ k.doccount.toInt > (size / 2 : ℕ) then .ok s
    else if s.lastTableId = k.tableId ∧ s.current.keyword = k.keyword then
      .ok { s with current := s.current.addRow (recordOf e) }
    else
      let next : Group := ⟨k.tableId, k.keyword, [recordOf e], k.doccount⟩
      let pending := s.pending ++ [s.current]
      match s.clock.isTimeout with
      | (timeout, clock) =>
        if timeout = false ∧ pending.length < 500 then .ok ⟨k.tableId, next, pending, clock⟩
        else .error (.cut pending next (e.1 ++ [0x01]) clock)

def collect (size : ℕ) : Scan → List (Bytes × Bytes) → Round
  | s, [] => .done s.pending s.current
  | s, e :: rows =>
    match s.row size e with
    | .ok s => collect size s rows
    | .error r => r

/-- The end of the key space of rows. -/
def rowsEnd : Bytes :=
  [keyTypeRow, 0xff]

/-- The rounds of `mergeKeywordsIndex`: the state of the batch at the end, and `NextIter`. The group
in progress carries the table of the last row. -/
def mergeRounds (size : ℕ) (ticks : Ticks) :
    ℕ → Writer → TableId → Group → Bytes → Clock → Option (Writer × Bytes)
  | 0, _, _, _, _, _ => none
  | fuel + 1, x, lastTableId, current, nextIter, clock =>
    match collect size ⟨lastTableId, current, [], clock⟩ (scanRange x.db.store nextIter rowsEnd) with
    | .done pending current =>
      let pending := pending ++ if current.rows.length > 0 then [current] else []
      some (pending.foldl (Writer.rewriteIndex size ticks) x, [])
    | .cut pending next nextIter clock =>
      let x := pending.foldl (Writer.rewriteIndex size ticks) x
      match clock.isTimeout with
      | (true, _) => some (x, encodeInvertedKeyPrefix next.tableId next.keyword)
      | (false, clock) => mergeRounds size ticks fuel x next.tableId next nextIter clock

/-- `mergeKeywordsIndex` before its last commit. There cannot be more rounds than rows. -/
def mergeBatch (size : ℕ) (ticks : Ticks) (st : Store) (keySeq : ℕ) (nextIter : Bytes)
    (clock : Clock) : Option (Writer × Bytes) :=
  mergeRounds size ticks (st.entries.length + 1) (newWriter st keySeq) invalidId
    ⟨0, [], [], 0⟩ nextIter clock

/-- The index between two calls of the merger. -/
structure MergeState where
  store : Store
  keySeq : ℕ
  nextIter : Bytes

/-- `mergeKeywordsIndex` with its last commit. -/
def mergeKeywordsIndex (size : ℕ) (ticks : Ticks) (clock : Clock) (m : MergeState) :
    Option MergeState :=
  (mergeBatch size ticks m.store m.keySeq m.nextIter clock).map fun r =>
    ⟨(r.1.db.commit false).store, r.1.keySeq, r.2⟩

end Haystack.InvertedIndex
