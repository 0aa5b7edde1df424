import Haystack.Lib.Faulty
import Haystack.InvertedStore.Open

/-!
# The directory of a store and its writers

The directory holds the MANIFEST, its temporary file, the files of segments and the temporary files
of spills. The three writers of the segment set (`spill`, `installSpill` and `installMerge`) are
sequences of file steps, each with its own way back after an error. How every step ends is an input.
The file of a spill or a merge is written by another goroutine; here it is written in the task that
installs it, which is the only other user of its name.
-/

namespace Haystack.InvertedStore

open Faulty

/-- The files of a store; a content `none` is a file that was cut short. -/
structure Disk where
  manifest : Option (Option Manifest)
  manifestTmp : Option (Option Manifest)
  segFiles : GoMap ℕ (Option SegFile)
  tempFiles : GoMap ℕ (Option SegFile)

/-- The file steps of a task. -/
inductive FileStep
  | segCreate
  | segWrite
  | segRename
  | tmpCreate
  | tmpWrite
  | tmpSync
  | tmpClose
  | manRename
  | dirSync
  | renameBack
  | remove
  | removeInput (id : ℕ)
  deriving DecidableEq

/-- How every file step ends if it is reached. -/
abbrev Faults := FileStep → Outcome

/-- No step fails. -/
def Faults.allOk : Faults :=
  fun _ => .ok

/-- One step fails. -/
def Faults.at (x : FileStep) (o : Outcome) : Faults :=
  fun y => if y = x then o else .ok

namespace Disk

/-- A directory before the first `Open`. -/
def empty : Disk :=
  ⟨none, none, ∅, ∅⟩

variable (d : Disk)

/-- The complete file of a segment. -/
def file (id : ℕ) : Option SegFile :=
  (d.segFiles.lookup id).join

def putSeg (id : ℕ) (x : Option SegFile) : Disk :=
  { d with segFiles := d.segFiles.insert id x }

def putTemp (n : ℕ) (x : Option SegFile) : Disk :=
  { d with tempFiles := d.tempFiles.insert n x }

def removeSeg (id : ℕ) : Disk :=
  { d with segFiles := d.segFiles.erase id }

def removeTemp (n : ℕ) : Disk :=
  { d with tempFiles := d.tempFiles.erase n }

/-- The temporary file of a spill takes the final name. -/
def moveToFinal (n id : ℕ) : Disk :=
  match d.tempFiles.lookup n with
  | some x => { d with segFiles := d.segFiles.insert id x, tempFiles := d.tempFiles.erase n }
  | none => d

/-- The final name is given up again. -/
def moveToTemp (id n : ℕ) : Disk :=
  match d.segFiles.lookup id with
  | some x => { d with segFiles := d.segFiles.erase id, tempFiles := d.tempFiles.insert n x }
  | none => d

/-- `readManifest`: a missing MANIFEST is that of a fresh store, `none` is an unreadable one. -/
def readManifest : Option Manifest :=
  match d.manifest with
  | none => some ⟨[], [], 1, 1⟩
  | some m => m

/-- `sweepOrphanSegments`. -/
def sweepOrphanSegments (man : Manifest) : Disk :=
  { d with
    segFiles := (d.segFiles.keys.filter fun id => id ∉ man.segments.map SegMeta.id).foldl
      (fun m id => m.erase id) d.segFiles
    tempFiles := ∅ }

/-- `Open`. -/
def openDir (opts : Options) : Option Store :=
  d.readManifest.bind fun man => Store.openStore opts man (d.sweepOrphanSegments man).file

end Disk

/-! ### File steps -/

section Steps

variable (f : Faults)

/-- A segment writer run to its end. It panics if the file cannot be created; the errors of `Write`,
`Flush` and `Sync` are dropped. An error leaves the file cut short; `openSegment` then panics, or
accepts what is there and the caller goes on. -/
def writeSegment (put : Option SegFile → Disk → Disk) (x : SegFile) : Prog Disk Unit := do
  if ← attempt (f .segCreate) (put none) id then
    let _ ← attempt (f .segWrite) (put (some x)) id
  else die

/-- `writeManifestBytes`. -/
def writeManifestBytes (man : Manifest) : Prog Disk Bool :=
  untilError
    [attempt (f .tmpCreate) (fun d => { d with manifestTmp := some none }) id,
      attempt (f .tmpWrite) (fun d => { d with manifestTmp := some (some man) }) id,
      attempt (f .tmpSync) id id,
      attempt (f .tmpClose) id id,
      attempt (f .manRename) (fun d => { d with manifest := d.manifestTmp, manifestTmp := none }) id,
      attempt (f .dirSync) id id]

/-- The rename of a temporary file, which must be there. -/
def renameSegmentFile (n id : ℕ) : Prog Disk Bool :=
  fun d =>
    attempt (if d.tempFiles.lookup n = none ∧ f .segRename = .ok then .err else f .segRename)
      (fun d => d.moveToFinal n id) (fun d => d) d

/-- The inputs of a merge are unlinked, except those that a reader holds; errors are dropped. -/
def unlinkInputs : List ℕ → Prog Disk Unit
  | [] => pure ()
  | i :: ids => do
    let _ ← attempt (f (.removeInput i)) (fun d => d.removeSeg i) (fun d => d)
    unlinkInputs ids

end Steps

/-! ### The writers of the segment set -/

/-- The way back of `spill` and `installSpill`: the last entry and its id are given up. -/
def Manifest.unrecord (man : Manifest) : Manifest :=
  { man with segments := man.segments.dropLast, nextSegId := man.nextSegId - 1 }

/-- Where the file of a detached head lies. -/
inductive SegPath
  | temp
  | final (id : ℕ)
  deriving DecidableEq

/-- What a writer leaves in memory. -/
structure Written where
  store : Store
  ok : Bool
  path : SegPath

/-- The tasks that change the segment set. -/
inductive Writer
  | spill (t : TableId)
  | installSpill (e : SpillEntry) (attempts : ℕ)
  | installMerge (p : MergePlan)

namespace Store

variable (opts : Options) (f : Faults) (s : Store)

/-- `spill` with its file steps. -/
def spillFiles (t : TableId) : Prog Disk Written :=
  let h := (s.head.lookup t).getD newHeadTable
  if h.isEmpty then pure ⟨s, true, .temp⟩
  else do
    let id := s.man.nextSegId
    writeSegment f (fun x d => d.putSeg id x) (encodeHeadToFile opts h t id).file
    let man := s.recordSpill h t
    if ← writeManifestBytes f man then return ⟨s.spill opts t, true, .temp⟩
    else return ⟨{ s with man := man.unrecord }, false, .temp⟩

/-- `encodeSpill`, which comes before the first attempt to install. -/
def encodeSpillFiles (e : SpillEntry) (attempts : ℕ) : Prog Disk Unit :=
  if attempts = 0 then
    writeSegment f (fun x d => d.putTemp e.tempN x) (encodeHeadToFile opts e.head e.tableId 0).file
  else pure ()

/-- One attempt of `installSpill`, up to the removal of the entry. -/
def installSpillFiles (e : SpillEntry) (attempts : ℕ) : Prog Disk Written := do
  encodeSpillFiles opts f e attempts
  let id := s.man.nextSegId
  if ← renameSegmentFile f e.tempN id then
    let man := s.recordSpill e.head e.tableId
    if ← writeManifestBytes f man then return ⟨s.publishSpill opts e, true, .final id⟩
    else
      let back ← attempt (f .renameBack) (fun d => d.moveToTemp id e.tempN) (fun d => d)
      return ⟨{ s with man := man.unrecord }, false, if back then .temp else .final id⟩
  else return ⟨s, false, .temp⟩

/-- `mergeSegments` over the inputs of a plan, then `installMerge`. -/
def installMergeFiles (p : MergePlan) : Prog Disk Written :=
  match mergeSegments opts p.segs p.outId p.level p.covering p.liveTables with
  | none => die
  | some res => do
    writeSegment f (fun x d => d.putSeg p.outId x) res.seg.file
    let s' := s.swapMerged p.inputIds res
    if ← writeManifestBytes f s'.man then
      unlinkInputs f p.inputIds
      return ⟨s', true, .temp⟩
    else
      let _ ← attempt (f .remove) (fun d => d.removeSeg p.outId) (fun d => d)
      return ⟨{ s with plan := none }, false, .temp⟩

end Store

/-- The writer that a task runs, if the task is pending. -/
def Store.writer (opts : Options) (s : Store) : Label → Option Writer
  | .spill t => some (.spill t)
  | .installSpill i _ =>
    match s.dispatches[i]? with
    | some (e, n) => if n < opts.maxInstallRetries then some (.installSpill e n) else none
    | none => none
  | .installMerge => s.plan.map .installMerge
  | _ => none

lemma Store.writer_installSpill (opts : Options) (s : Store) (i : ℕ) (next : Option TableId) :
    s.writer opts (.installSpill i next) = s.dispatches[i]?.bind fun e =>
      if e.2 < opts.maxInstallRetries then some (.installSpill e.1 e.2) else none := by
  delta Store.writer
  dsimp only
  cases s.dispatches[i]? <;> rfl

namespace Writer

variable (opts : Options) (s : Store)

def run (f : Faults) : Writer → Prog Disk Written
  | spill t => s.spillFiles opts f t
  | installSpill e n => s.installSpillFiles opts f e n
  | installMerge p => s.installMergeFiles opts f p

/-- The store after the file steps if none fails. -/
def after : Writer → Option Store
  | spill t => some (s.spill opts t)
  | installSpill e _ => some (s.publishSpill opts e)
  | installMerge p =>
    (mergeSegments opts p.segs p.outId p.level p.covering p.liveTables).map fun res =>
      s.swapMerged p.inputIds res

end Writer

/-! ### A store and its directory -/

/-- A process, or none, and the directory; `path` is where the file of the detached head lies. -/
structure System where
  mem : Option Store
  disk : Disk
  path : SegPath

/-- A task of the worker with the outcomes of its file steps, or the first part of `Open`, before
which the process may have died at any time. -/
inductive FileLabel
  | task (l : Label) (f : Faults)
  | load

/-- What a task does after the file steps of its writer. -/
def Written.finish (opts : Options) (w : Written) : Label → Option Store
  | .installSpill i next =>
    match w.store.dispatches[i]? with
    | some (e, _) =>
      if w.ok then w.store.endSpill opts i e next else w.store.failInstall opts i
    | none => none
  | _ => some w.store

/-- Where the file of the detached head then lies. -/
def Written.pathAfter (w : Written) (path : SegPath) : Label → SegPath
  | .installSpill _ _ => if w.ok then .temp else w.path
  | _ => path

namespace Store

variable (opts : Options) (f : Faults) (s : Store)

/-- `giveUpSpill` removes the file of the detached head. -/
def removeSpillFile (path : SegPath) (i : ℕ) : Prog Disk Bool :=
  attempt (f .remove) (fun d =>
    match path, s.dispatches[i]? with
    | .final id, _ => d.removeSeg id
    | .temp, some (e, _) => d.removeTemp e.tempN
    | .temp, none => d) fun d => d

/-- The tasks that do not change the segment set. A failed write of a new catalog is not undone. -/
def otherTask (path : SegPath) : Label → Prog Disk (Option Store)
  | .giveUpSpill i next => do
    let _ ← s.removeSpillFile f path i
    return s.giveUpSpill opts i next
  | .createTable => do
    let _ ← writeManifestBytes f s.createTable.man
    return some s.createTable
  | .deleteTable t => do
    let _ ← writeManifestBytes f (s.deleteTable t).man
    return some (s.deleteTable t)
  | .apply ops => pure (s.applyBatch opts ops)
  | .selectTiered => pure (s.selectTieredMergePlan opts)
  | .selectCovering force dead => pure (s.selectCoveringMergePlan force dead)
  | .releaseGate => pure (some s.releaseGate)
  | _ => pure none

end Store

namespace System

/-- A directory before the first `Open`. -/
def init : System :=
  ⟨none, .empty, .temp⟩

/-- `Open` up to `reclaimOrphanTables`, which is the selection and the install of a merge. -/
def load (d : Disk) : Option System :=
  d.readManifest.bind fun man =>
    let d := d.sweepOrphanSegments man
    (man.segments.mapM (Store.openSegment d.file)).map fun segs =>
      ⟨some (.opened man segs (Store.opened man segs ∅).recomputeLive), d, .temp⟩

/-- One task of a process. -/
def task (opts : Options) (s : Store) (d : Disk) (path : SegPath) (f : Faults) (l : Label) :
    Option System :=
  match s.writer opts l with
  | some w =>
    match w.run opts s f d with
    | .died d => some ⟨none, d, .temp⟩
    | .returned r d => (r.finish opts l).map fun s' => ⟨some s', d, r.pathAfter path l⟩
  | none =>
    match s.otherTask opts f path l d with
    | .died d => some ⟨none, d, .temp⟩
    | .returned s' d =>
      s'.map fun s' => ⟨some s', d, if let .giveUpSpill _ _ := l then .temp else path⟩

end System

/-- One step of a process and its directory. -/
def fileStep (opts : Options) (σ : System) : FileLabel → Option System
  | .load => System.load σ.disk
  | .task l f => σ.mem.bind fun s => System.task opts s σ.disk σ.path f l

end Haystack.InvertedStore
