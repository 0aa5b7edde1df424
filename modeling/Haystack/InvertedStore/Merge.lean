import Haystack.InvertedStore.Head

/-!
# Merging segments

`mergeSegments` streams a k-way merge of segments, oldest first, into one segment. The round for a
key receives a *row* with the record each input holds for the key. Inverted records are reconciled
so that the newest action on a document wins; of the forward records the newest is kept and its
ordinals are translated through one array per input (`remap`), filled as the output dictionary
grows. A covering merge drops what a bottom compaction can drop: removed documents, keywords without
documents, tombstones, and tables that are not in the catalog.
-/

namespace Haystack.InvertedStore

/-- `segMeta`: what the MANIFEST records about a segment. -/
structure SegMeta where
  id : ℕ
  level : ℕ
  postings : ℕ
  minTable : UInt32
  maxTable : UInt32
  minDocid : DocId
  maxDocid : DocId
  deriving DecidableEq

/-- The variables of the merge loop. An entry `none` of a remap array is `ordSentinel`. -/
structure MergeAcc where
  w : SegWriter
  remap : List (List (Option ℕ))
  outOrd : ℕ
  postings : ℕ
  span : DocId × DocId
  tables : Option (UInt32 × UInt32)

namespace MergeAcc

def noteDocid (acc : MergeAcc) (d : DocId) : MergeAcc :=
  { acc with
    span := (if d < acc.span.1 then d else acc.span.1, if acc.span.2 < d then d else acc.span.2) }

def noteTable (acc : MergeAcc) (t : UInt32) : MergeAcc :=
  { acc with
    tables := match acc.tables with
      | none => some (t, t)
      | some (lo, hi) => some (if t < lo then t else lo, if hi < t then t else hi) }

end MergeAcc

/-- `adds` and `dels` of a key: the inputs in turn, oldest first, each with its adds before its dels,
so that the last action on a document is the one that stays. -/
def reconcile (row : List (Option Rec)) : GoMap DocId Unit × GoMap DocId Unit :=
  row.reduceOption.foldl (fun s r =>
    let s := r.adds.foldl (fun s d => (s.1.insert d (), s.2.erase d)) s
    r.dels.foldl (fun s d => (s.1.erase d, s.2.insert d ())) s) (∅, ∅)

variable (opts : Options) (covering : Bool) (tableLive : UInt32 → Bool)

/-- The output record of an inverted key, `none` if a covering merge drops the key. -/
def emitInv (t : UInt32) (kw : Keyword) (row : List (Option Rec)) : Option Rec :=
  let (adds, dels) := reconcile row
  if covering then
    if tableLive t ∧ adds.keys ≠ [] then some (.inv t kw (encodeDocs adds.keys) (encodeDocs []))
    else none
  else some (.inv t kw (encodeDocs adds.keys) (encodeDocs dels.keys))

/-- Append `o` to the remap array of every input that has the key. -/
def appendRemap (row : List (Option Rec)) (remap : List (List (Option ℕ))) (o : Option ℕ) :
    List (List (Option ℕ)) :=
  List.zipWith (fun r m => if r.isSome then m ++ [o] else m) row remap

/-- The round of an inverted key. -/
def mergeInv (acc : MergeAcc) (t : UInt32) (kw : Keyword) (row : List (Option Rec)) : MergeAcc :=
  match emitInv covering tableLive t kw row with
  | some r =>
    { acc with
      w := acc.w.addEntry opts r
      postings := acc.postings + (r.adds.length + r.dels.length)
      remap := appendRemap row acc.remap (some acc.outOrd)
      outOrd := acc.outOrd + 1 }.noteTable t
  | none => { acc with remap := appendRemap row acc.remap none }

/-- The newest record of a row with the remap array of its input. -/
def newestHit (row : List (Option Rec)) (remap : List (List (Option ℕ))) :
    Option (Rec × List (Option ℕ)) :=
  (row.zip remap).reverse.findSome? fun x => x.1.map fun r => (r, x.2)

/-- The ordinals of a forward record in the output, without those that were dropped. An ordinal past
the end of the array is an index out of range. -/
def remapOrds (m : List (Option ℕ)) (ords : List ℕ) : Option (List (Option ℕ)) :=
  ords.mapM fun o => m[o]?

/-- The ordinals written for a forward key: those of the newest record, translated. `some none` drops
the record, `none` is a panic. -/
def emitFwd (remap : List (List (Option ℕ))) (t : UInt32) (row : List (Option Rec)) :
    Option (Option (List ℕ)) :=
  if covering ∧ ¬ tableLive t then some none
  else
    match newestHit row remap with
    | none => some none
    | some (r, m) =>
      if r.ords = [] then
        -- the tombstone of the document: nothing older is left for it to hide in a covering merge
        some (if covering then none else some [])
      else
        (remapOrds m r.ords).map fun mapped =>
          let out := mapped.reduceOption
          if none ∈ mapped ∧ out = [] then none else some out

/-- Write the forward record of a document. -/
def MergeAcc.addForward (acc : MergeAcc) (t : UInt32) (d : DocId) (ords : List ℕ) : MergeAcc :=
  ({ acc with w := acc.w.addEntry opts (.fwd t d (encodeForward ords)) }.noteTable t).noteDocid d

/-- The round of a forward key; `none` is a panic. -/
def mergeFwd (acc : MergeAcc) (t : UInt32) (d : DocId) (row : List (Option Rec)) :
    Option MergeAcc :=
  (emitFwd covering tableLive acc.remap t row).map fun
    | none => acc
    | some ords => acc.addForward opts t d ords

/-- One round of the merge loop. The key is read off the first record of the row. -/
def mergeRow (acc : MergeAcc) (row : List (Option Rec)) : Option MergeAcc :=
  match row.findSome? id with
  | none => some acc
  | some (.inv t kw _ _) => some (mergeInv opts covering tableLive acc t kw row)
  | some (.fwd t d _) => mergeFwd opts covering tableLive acc t d row

/-- The rows of the merge loop over the inputs. -/
def mergeRows (segs : List Segment) : List (List (Option Rec)) :=
  KWay.rows Rec.key (KWay.size (segs.map Segment.recs)) (segs.map Segment.recs)

def MergeAcc.init (segs : List Segment) : MergeAcc :=
  ⟨newSegWriter, segs.map fun _ => [], 0, 0, emptyDocidRange, none⟩

/-- `liveTables == nil || liveTables[int(tid)]`. -/
def isTableLive (liveTables : Option (List TableId)) (t : UInt32) : Bool :=
  liveTables.all fun live => ofTid t ∈ live

/-- The opened output segment and its `segMeta`. -/
structure MergeResult where
  seg : Segment
  sm : SegMeta

/-- `mergeSegments`; `none` is a panic. -/
def mergeSegments (segs : List Segment) (outId level : ℕ) (covering : Bool)
    (liveTables : Option (List TableId)) : Option MergeResult :=
  ((mergeRows segs).foldlM (mergeRow opts covering (isTableLive liveTables))
    (MergeAcc.init segs)).map fun acc =>
    let (minTable, maxTable) := acc.tables.getD (0, 0)
    { seg := acc.w.finish outId acc.span
      sm := ⟨outId, level, acc.postings, minTable, maxTable, acc.span.1, acc.span.2⟩ }

end Haystack.InvertedStore
