import Haystack.InvertedStore.Steps

/-!
# Opening a store

`Open` reads the MANIFEST, loads the live segments in the order in which the MANIFEST lists them,
recounts the live pairs and, if a segment may hold data of a table that is not in the catalog,
compacts everything once.
-/

namespace Haystack.InvertedStore

/-- What the file of a segment holds. Its id and its span of documents are in the MANIFEST. -/
structure SegFile where
  blocks : List (List Rec)
  terms : List Keyword
  deriving DecidableEq

def Segment.file (seg : Segment) : SegFile :=
  ⟨seg.blocks, seg.terms⟩

/-- A segment as `Open` makes it from its file and its MANIFEST entry. -/
def SegFile.load (x : SegFile) (sm : SegMeta) : Segment :=
  ⟨sm.id, x.blocks, x.terms, sm.minDocid, sm.maxDocid⟩

namespace Store

variable (opts : Options)

/-- `openSegment` for an entry of the MANIFEST; `none` if there is no complete file. -/
def openSegment (files : ℕ → Option SegFile) (sm : SegMeta) : Option Segment :=
  (files sm.id).map fun x => x.load sm

/-- `coveringMerge`, the synchronous covering merge. -/
def coveringMerge (s : Store) : Option Store :=
  match s.selectCoveringMergePlan true false with
  | some s' => s'.installMerge opts
  | none => some s

/-- A segment with postings covers a table id that is not in the catalog. -/
def hasOrphan (man : Manifest) : Bool :=
  man.segments.any fun sm => sm.postings ≠ 0 ∧
    (List.range (sm.maxTable.toNat + 1 - sm.minTable.toNat)).any fun i =>
      ofTid (sm.minTable + UInt32.ofNat i) ∉ man.tables

/-- `reclaimOrphanTables`. -/
def reclaimOrphanTables (s : Store) : Option Store :=
  if hasOrphan s.man then s.coveringMerge opts else some s

/-- `Open` on a directory with a MANIFEST and the files of segments. -/
def openStore (man : Manifest) (files : ℕ → Option SegFile) : Option Store :=
  (man.segments.mapM (openSegment files)).bind fun segs =>
    reclaimOrphanTables opts (opened man segs (opened man segs ∅).recomputeLive)

/-- The files of the live segments. -/
def files (s : Store) (id : ℕ) : Option SegFile :=
  (KWay.lookup Segment.id id s.segs).map Segment.file

end Store

end Haystack.InvertedStore
