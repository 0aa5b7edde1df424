import Haystack.Lib.StepSystem
import Haystack.InvertedStore.Store

/-!
# The atomic steps of a store

Everything that changes a store runs as one task on its worker: applying a batch, installing a
detached head or giving it up, the synchronous spill, selecting a merge and installing it, and the
table operations. A step is one such task, or the release of the producer gate by `CloseAndWait`.
What a task does not determine by itself (the table found by `findOverCapHeadLocked`, whether the
dead fraction has crossed its threshold, which write fails) is part of the label.
-/

namespace Haystack.InvertedStore

/-- `updateOp`. No keywords is a delete. -/
structure UpdateOp where
  tableId : TableId
  docid : DocId
  keywords : List Keyword
  deriving DecidableEq

/-- `distinctStrings`. -/
def distinctStrings (ss : List Keyword) : ℕ :=
  ss.dedup.length

/-- The head after an operation on a document that carried the keywords `old`. -/
def HeadTable.post (h : HeadTable) (d : DocId) (keywords old : List Keyword) : HeadTable :=
  if keywords = [] then
    (old.foldl (fun h w => h.tombstonePosting w d) h).deleteForward d
  else
    let newSet := keywords.dedup
    let h := newSet.foldl (fun h w => h.addPosting w d) h
    let h := (old.filter fun w => w ∉ newSet).foldl (fun h w => h.tombstonePosting w d) h
    h.setForward d keywords

namespace Store

variable (opts : Options) (s : Store)

/-! ### Detaching and applying -/

def overCap (h : HeadTable) : Bool :=
  opts.capBytes ≤ h.bytes

/-- `detachHeadLocked` followed by `dispatchSpill`. -/
def detachHead (t : TableId) : Store :=
  let e : SpillEntry := ⟨t, (s.head.lookup t).getD newHeadTable, s.spillTempCtr + 1⟩
  { s with
    head := s.head.insert t newHeadTable
    spillTempCtr := s.spillTempCtr + 1
    spilling := s.spilling ++ [e]
    spillInFlight := true
    dispatches := s.dispatches ++ [(e, 0)] }

/-- The head of the operation's table rewritten and its live pairs adjusted. -/
def post (op : UpdateOp) (old : List Keyword) : Store :=
  let h := (s.head.lookup op.tableId).getD newHeadTable
  let delta : ℤ := distinctStrings op.keywords - distinctStrings old
  { s with
    head := s.head.insert op.tableId (h.post op.docid op.keywords old)
    liveByTable := s.liveByTable.insert op.tableId ((s.liveByTable.lookup op.tableId).getD 0 + delta) }

/-- The over-cap handling at the end of `applyOneOp`. -/
def relieve (t : TableId) : Store :=
  if overCap opts ((s.head.lookup t).getD newHeadTable) then
    if s.spillInFlight then { s with blockProducer := true } else s.detachHead t
  else s

def applyOneOp (op : UpdateOp) (old : List Keyword) : Store :=
  (s.post op old).relieve opts op.tableId

/-- The keywords a document carries before an operation: those its last operation in the batch left
(`inBatch`), or those of the forward map; `none` is the panic of `forwardKeywords`. -/
def oldKeywords (inBatch : GoMap (TableId × DocId) (List Keyword)) (op : UpdateOp) :
    Option (List Keyword) :=
  match inBatch.lookup (op.tableId, op.docid) with
  | some words => some words
  | none => (s.forwardKeywords op.tableId op.docid).map Prod.fst

/-- The loop of `applyBatch`. -/
def applyOps : Store → GoMap (TableId × DocId) (List Keyword) → List UpdateOp → Option Store
  | s, _, [] => some s
  | s, inBatch, op :: ops =>
    (s.oldKeywords inBatch op).bind fun old =>
      applyOps (s.applyOneOp opts op old) (inBatch.insert (op.tableId, op.docid) op.keywords) ops

/-- `applyBatch`, with its path for a single operation. -/
def applyBatch : List UpdateOp → Option Store
  | [op] => (s.forwardKeywords op.tableId op.docid).map fun x => s.applyOneOp opts op x.1
  | ops => applyOps opts s ∅ ops

/-! ### Spills -/

/-- `spillSegMeta`. -/
def spillSegMeta (h : HeadTable) (id : ℕ) (t : TableId) : SegMeta :=
  ⟨id, 0, h.postings, tid t, tid t, h.span.1, h.span.2⟩

/-- The MANIFEST after a spilled head is recorded. -/
def recordSpill (h : HeadTable) (t : TableId) : Manifest :=
  { s.man with
    segments := s.man.segments ++ [spillSegMeta h s.man.nextSegId t]
    nextSegId := s.man.nextSegId + 1 }

/-- `spill`, the synchronous spill of a table. -/
def spill (t : TableId) : Store :=
  let h := (s.head.lookup t).getD newHeadTable
  if h.isEmpty then s
  else
    { s with
      man := s.recordSpill h t
      segs := s.segs ++ [encodeHeadToFile opts h t s.man.nextSegId]
      head := s.head.insert t newHeadTable }

/-- `removeSpillingLocked`. -/
def removeSpilling (e : SpillEntry) : Store :=
  { s with spilling := s.spilling.eraseP fun x => x.tempN = e.tempN }

def sortSegmentsById (segs : List Segment) : List Segment :=
  StableSort.sortBy Segment.id segs

/-- `installSpill` up to the removal of the entry. -/
def publishSpill (e : SpillEntry) : Store :=
  { s with
    man := s.recordSpill e.head e.tableId
    segs := sortSegmentsById (s.segs ++ [encodeHeadToFile opts e.head e.tableId s.man.nextSegId]) }

/-- `findOverCapHeadLocked`: `next` is the over-cap table the map iteration meets first. -/
def findOverCapHead (next : Option TableId) : Option Store :=
  if s.spillInFlight then if next = none then some s else none
  else
    match next with
    | some t => if (s.head.lookup t).any (overCap opts) then some (s.detachHead t) else none
    | none => if (GoMap.values s.head).any (overCap opts) then none else some s

/-- The common end of `installSpill` and `giveUpSpill`. -/
def endSpill (i : ℕ) (e : SpillEntry) (next : Option TableId) : Option Store :=
  { s.removeSpilling e with
    spillInFlight := false
    blockProducer := false
    dispatches := s.dispatches.eraseIdx i }.findOverCapHead opts next

/-- A successful `installSpill` of the `i`-th spill in progress. -/
def installSpill (i : ℕ) (next : Option TableId) : Option Store :=
  match s.dispatches[i]? with
  | some (e, n) =>
    if n < opts.maxInstallRetries then (s.publishSpill opts e).endSpill opts i e next else none
  | none => none

/-- An attempt to install that failed and was rolled back. -/
def failInstall (i : ℕ) : Option Store :=
  match s.dispatches[i]? with
  | some (e, n) =>
    if n < opts.maxInstallRetries then some { s with dispatches := s.dispatches.set i (e, n + 1) }
    else none
  | none => none

/-- `giveUpSpill`, after the last attempt has failed. -/
def giveUpSpill (i : ℕ) (next : Option TableId) : Option Store :=
  match s.dispatches[i]? with
  | some (e, n) => if opts.maxInstallRetries ≤ n then s.endSpill opts i e next else none
  | none => none

/-! ### Merges -/

/-- `pickLowestQualifyingLevelLocked`: the level and the ids of its segments. -/
def pickLowestQualifyingLevel : Option (ℕ × List ℕ) :=
  let atLevel (l : ℕ) := s.man.segments.filter fun sm => sm.level = l
  let maxL := s.man.segments.foldl (fun m sm => max m sm.level) 0
  ((List.range (maxL + 1)).find? fun l => opts.fanout ≤ (atLevel l).length).map fun l =>
    (l, (atLevel l).map SegMeta.id)

/-- `segsByIdsLocked`. -/
def segsByIds (ids : List ℕ) : List Segment :=
  sortSegmentsById (s.segs.filter fun seg => seg.id ∈ ids)

variable {s} in
lemma mem_of_mem_segsByIds {ids : List ℕ} {seg : Segment} (h : seg ∈ s.segsByIds ids) :
    seg ∈ s.segs :=
  List.mem_of_mem_filter ((StableSort.mem_sortBy _).1 h)

/-- Record a plan and reserve its output id. -/
def reserve (ids : List ℕ) (level : ℕ) (covering : Bool) (liveTables : Option (List TableId)) :
    Store :=
  { s with
    man := { s.man with nextSegId := s.man.nextSegId + 1 }
    plan := some ⟨ids, s.segsByIds ids, s.man.nextSegId, level, covering, liveTables⟩ }

/-- `selectTieredMergePlan`. The merge loop has one plan at a time. -/
def selectTieredMergePlan : Option Store :=
  if s.plan.isSome then none
  else (s.pickLowestQualifyingLevel opts).map fun (l, ids) => s.reserve ids (l + 1) false none

/-- `selectCoveringMergePlan`, where `dead` says that the dead fraction has reached the
threshold. -/
def selectCoveringMergePlan (force dead : Bool) : Option Store :=
  if s.plan.isSome ∨ s.man.segments = [] then none
  else if force = false ∧ (s.man.segments.length < 2 ∨ dead = false) then none
  else
    let level := s.man.segments.foldl (fun m sm => max m sm.level) 0
    some (s.reserve (s.man.segments.map SegMeta.id) level true (some s.man.tables))

/-- The swap of the inputs for the output. -/
def swapMerged (inputIds : List ℕ) (res : MergeResult) : Store :=
  { s with
    man := { s.man with
      segments := (s.man.segments.filter fun sm => sm.id ∉ inputIds) ++ [res.sm] }
    segs := sortSegmentsById ((s.segs.filter fun seg => seg.id ∉ inputIds) ++ [res.seg])
    plan := none }

variable {s} in
lemma mem_swapMerged {ids : List ℕ} {res : MergeResult} {seg : Segment} :
    seg ∈ (s.swapMerged ids res).segs ↔ (seg ∈ s.segs ∧ seg.id ∉ ids) ∨ seg = res.seg := by
  simp [swapMerged, sortSegmentsById, StableSort.mem_sortBy]

/-- `mergeSegments` over the inputs of the plan, then `installMerge`. -/
def installMerge : Option Store :=
  s.plan.bind fun p =>
    (mergeSegments opts p.segs p.outId p.level p.covering p.liveTables).map fun res =>
      s.swapMerged p.inputIds res

/-! ### Tables -/

def createTable : Store :=
  { s with
    man := { s.man with
      tables := s.man.tables ++ [s.man.nextTableId]
      nextTableId := s.man.nextTableId + 1 } }

def deleteTable (t : TableId) : Store :=
  { s with
    man := { s.man with tables := s.man.tables.filter fun t' => t' ≠ t }
    head := s.head.erase t
    liveByTable := s.liveByTable.erase t }

/-- The first thing `CloseAndWait` does. -/
def releaseGate : Store :=
  { s with blockProducer := false }

end Store

/-! ### Labels -/

inductive Label
  | apply (ops : List UpdateOp)
  | installSpill (i : ℕ) (next : Option TableId)
  | failInstall (i : ℕ)
  | giveUpSpill (i : ℕ) (next : Option TableId)
  | spill (t : TableId)
  | selectTiered
  | selectCovering (force dead : Bool)
  | installMerge
  | createTable
  | deleteTable (t : TableId)
  | releaseGate
  deriving DecidableEq

/-- One step; `none` if the step is not possible in the state or ends in a panic. -/
def step (opts : Options) (s : Store) : Label → Option Store
  | .apply ops => s.applyBatch opts ops
  | .installSpill i next => s.installSpill opts i next
  | .failInstall i => s.failInstall opts i
  | .giveUpSpill i next => s.giveUpSpill opts i next
  | .spill t => some (s.spill opts t)
  | .selectTiered => s.selectTieredMergePlan opts
  | .selectCovering force dead => s.selectCoveringMergePlan force dead
  | .installMerge => s.installMerge opts
  | .createTable => some s.createTable
  | .deleteTable t => some (s.deleteTable t)
  | .releaseGate => some s.releaseGate

/-- The operations applied along a run, in order. -/
def opsOf (ls : List Label) : List UpdateOp :=
  ls.flatMap fun
    | .apply ops => ops
    | _ => []

/-- The keywords of the last operation on a document; none if there was no operation or the last one
deleted the document. -/
def lastKeywords (ops : List UpdateOp) (t : TableId) (d : DocId) : List Keyword :=
  ((ops.filter fun op => op.tableId = t ∧ op.docid = d).getLast?.map UpdateOp.keywords).getD []

end Haystack.InvertedStore
