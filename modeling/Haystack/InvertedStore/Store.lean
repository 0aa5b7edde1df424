import Haystack.InvertedStore.Merge

/-!
# The store and its readers

The state of a store: the MANIFEST, one head per table, the detached heads waiting to be installed,
and the live segments, oldest first. A reader consults the head of the table, then the detached
heads of the table, then the segments, newest first, and lets the first source that mentions a
document decide.
-/

namespace Haystack.InvertedStore

/-- The part of the MANIFEST that the modelled code reads. -/
structure Manifest where
  segments : List SegMeta
  tables : List TableId
  nextTableId : TableId
  nextSegId : ℕ
  deriving DecidableEq

/-- A detached head. `tempN` numbers its temporary file and identifies the entry. -/
structure SpillEntry where
  tableId : TableId
  head : HeadTable
  tempN : ℕ

/-- A selected merge: the inputs, their open handles and the reserved output id. -/
structure MergePlan where
  inputIds : List ℕ
  segs : List Segment
  outId : ℕ
  level : ℕ
  covering : Bool
  liveTables : Option (List TableId)

/-- The state of a store between two tasks of its worker, with the work of its background goroutines:
`dispatches` are the spills being encoded or installed, each with the number of failed attempts, and
`plan` is the merge in progress. -/
structure Store where
  man : Manifest
  head : GoMap TableId HeadTable
  segs : List Segment
  spilling : List SpillEntry
  spillInFlight : Bool
  blockProducer : Bool
  spillTempCtr : ℕ
  liveByTable : GoMap TableId ℤ
  dispatches : List (SpillEntry × ℕ)
  plan : Option MergePlan

namespace Store

variable (s : Store)

/-- A store as `Open` leaves it: no heads, nothing in flight. -/
def opened (man : Manifest) (segs : List Segment) (liveByTable : GoMap TableId ℤ) : Store where
  man := man
  head := ∅
  segs := segs
  spilling := []
  spillInFlight := false
  blockProducer := false
  spillTempCtr := 0
  liveByTable := liveByTable
  dispatches := []
  plan := none

/-- A store without data, with the tables of a catalog. -/
def empty (tables : List TableId) (nextTableId : TableId) : Store :=
  opened ⟨[], tables, nextTableId, 1⟩ [] ∅

/-- The head of a table and its detached heads, newest first: the sources that are read before the
segments. -/
def heads (t : TableId) : List HeadTable :=
  (s.head.lookup t).toList ++
    (s.spilling.reverse.filter fun e => e.tableId = t).map SpillEntry.head

/-! ### Forward reads -/

/-- The segments' part of `forwardKeywords`, newest segment first; `none` is the panic on an ordinal
that does not resolve. -/
def segForward (t : UInt32) (d : DocId) : List Segment → Option (List Keyword × Bool)
  | [] => some ([], false)
  | seg :: segs =>
    if ¬ seg.coversDocid d then segForward t d segs
    else
      match seg.lookupForward t d with
      | none => segForward t d segs
      | some ords =>
        if ords = [] then some ([], true)
        else (ords.mapM seg.resolveOrd).map fun words => (words, false)

/-- `forwardKeywords`: the current keywords of a document and whether it is deleted. -/
def forwardKeywords (t : TableId) (d : DocId) : Option (List Keyword × Bool) :=
  match (s.heads t).findSome? fun h => h.forwardLookup d with
  | some r => some r
  | none => segForward (tid t) d s.segs.reverse

/-! ### Posting reads -/

/-- Documents decided so far and those among them that are live. -/
structure Decided where
  seen : Finset DocId
  live : Finset DocId

/-- One source's adds and dels for a keyword: a document already decided is skipped, a removal
decides before an addition. -/
def Decided.merge (x : Decided) (adds dels : List DocId) : Decided :=
  let seen := dels.foldl (fun seen d => insert d seen) x.seen
  adds.foldl (fun x d => if d ∈ x.seen then x else ⟨insert d x.seen, insert d x.live⟩)
    ⟨seen, x.live⟩

/-- The adds and dels that `GetDocs` merges for a keyword, newest source first. -/
def postings (t : TableId) (w : Keyword) : List (List DocId × List DocId) :=
  let want := invertedKey (tid t) w
  ((s.heads t).flatMap fun h => (h.inv.lookup w).toList.map resolveOps)
    ++ s.segs.reverse.flatMap fun seg =>
      ((seg.scanPrefix want (Bytes.prefixUpper want)).filter fun r => r.key = want).map
        fun r => (r.adds, r.dels)

/-- `GetDocs`: the live documents of a keyword. -/
def getDocs (t : TableId) (w : Keyword) : Finset DocId :=
  if t ∈ s.man.tables then
    ((s.postings t w).foldl (fun (x : Decided) p => x.merge p.1 p.2) ⟨∅, ∅⟩).live
  else ∅

/-- The keyword, adds and dels of every posting list under a prefix, newest source first. -/
def searchHits (t : TableId) (q : Keyword) : List (Keyword × List DocId × List DocId) :=
  let lo := invertedKey (tid t) q
  ((s.heads t).flatMap fun h => (h.inv.entries.filter fun e => q <+: e.1).map
      fun e => (e.1, resolveOps e.2))
    ++ s.segs.reverse.flatMap fun seg =>
      (seg.scanPrefix lo (Bytes.prefixUpper lo)).map fun r => (r.key.drop 5, r.adds, r.dels)

/-- `Search(t, query, 0, nil)`: the live documents of all keywords with the lower-cased query as a
prefix. -/
def search (toLower : Keyword → Keyword) (t : TableId) (query : Keyword) : Finset DocId :=
  if t ∈ s.man.tables then
    let byKeyword : GoMap Keyword Decided := (s.searchHits t (toLower query)).foldl (fun m hit =>
      m.insert hit.1 (((m.lookup hit.1).getD ⟨∅, ∅⟩).merge hit.2.1 hit.2.2)) ∅
    (GoMap.values byKeyword).foldl (fun docs x => docs ∪ x.live) ∅
  else ∅

/-! ### Enumerating live documents -/

/-- `forEachLiveSegmentForward`: of every document not yet decided, the newest forward record of the
segments, newest segment first. -/
def liveSegmentForward (t : UInt32) (decided : Finset DocId) (segs : List Segment) :
    List (DocId × List ℕ) :=
  let lo := forwardKeyPrefix t
  let recs := segs.reverse.flatMap fun seg =>
    (seg.scanPrefix lo (Bytes.prefixUpper lo)).filterMap Rec.fwd?
  (recs.foldl (fun acc x =>
    if x.1 ∈ acc.1 then acc else (insert x.1 acc.1, acc.2 ++ [x])) (decided, [])).2

/-- `ForwardDocids`: the documents that are live in the forward map of a table. The heads decide like
postings do: their deleted documents first, then the live ones. -/
def forwardDocids (t : TableId) : Finset DocId :=
  if t ∈ s.man.tables then
    let x := (s.heads t).foldl (fun (x : Decided) h => x.merge h.fwd.keys h.delForward.keys) ⟨∅, ∅⟩
    (liveSegmentForward (tid t) x.seen s.segs).foldl (fun live y =>
      if y.2 = [] then live else insert y.1 live) x.live
  else ∅

/-- `distinctOrds`: a sorted list of ordinals without repetitions. -/
def distinctOrds (ords : List ℕ) : List ℕ :=
  ords.destutter (· ≠ ·)

/-- `recomputeLive`: the live pairs of each catalog table, from the segments. -/
def recomputeLive : GoMap TableId ℤ :=
  s.man.tables.foldl (fun m t =>
    m.insert t (((liveSegmentForward (tid t) ∅ s.segs).map fun x =>
      ((distinctOrds x.2).length : ℤ)).sum)) ∅

end Store

end Haystack.InvertedStore
