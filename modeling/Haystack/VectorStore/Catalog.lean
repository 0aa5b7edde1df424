import Haystack.Lib.GoMap
import Haystack.Lib.StepSystem
import Haystack.VectorStore.Paths

/-!
# Vector indexes, background builds and merges

The catalog of a vector store: its named indexes with a graph for each sealed segment that has one,
the builds and merges in flight, the control store's copy of all this, and the files. A build runs
in the background: it takes the configuration of its index under the lock, reads its segment and
writes the graph file without it, and installs the graph under the lock if the name is still
registered. A merge is planned under the lock, writes its outputs without it, and swaps them for
its inputs, which it unmaps, if every index has a graph for each of them. What a step does not
determine by itself, such as the outcome of a call, is part of its label.
-/

namespace Haystack.VectorStore

open SlashPath

/-! ### Configurations -/

inductive Metric
  | cosine
  | dotProduct
  | euclidean
  deriving DecidableEq

structure GraphConfig where
  m : ℤ
  efConstruction : ℤ
  efSearch : ℤ
  seed : ℤ
  deriving DecidableEq

def GraphConfig.withDefaults (c : GraphConfig) : GraphConfig where
  m := if c.m = 0 then 16 else c.m
  efConstruction := if c.efConstruction = 0 then 200 else c.efConstruction
  efSearch := if c.efSearch = 0 then 64 else c.efSearch
  seed := c.seed

structure VectorIndexConfig where
  type : Bytes
  metric : Metric
  m : ℤ
  efConstruction : ℤ
  efSearch : ℤ

def hnsw : Bytes := Bytes.ofAscii "hnsw"

def graphConfigFromCfg (cfg : VectorIndexConfig) : GraphConfig :=
  GraphConfig.withDefaults ⟨cfg.m, cfg.efConstruction, cfg.efSearch, 0⟩

/-! ### Graphs and files -/

/-- The topology of a graph, by how it was built: metric, parameters and segment. -/
structure Graph where
  metric : Metric
  cfg : GraphConfig
  seg : SegId
  deriving DecidableEq

/-- A graph that is ready for searches, with the metric and the parameters it is searched with. -/
structure BuiltIndex where
  store : Graph
  metric : Metric
  cfg : GraphConfig
  deriving DecidableEq

/-- A named vector index. A segment without a graph is pending. -/
structure VIndex where
  cfg : GraphConfig
  metric : Metric
  graphs : GoMap SegId BuiltIndex

def newVIndex (cfg : VectorIndexConfig) : VIndex :=
  ⟨graphConfigFromCfg cfg, cfg.metric, ∅⟩

/-- What a file holds: records, a graph, or what is left of a graph that was not written to its
end. -/
inductive File
  | records
  | graph (g : Graph)
  | torn
  deriving DecidableEq

abbrev Files := GoMap Bytes File

/-! ### Work in flight -/

/-- Where a build stands. From the end of `reading` on it does not touch its segment. -/
inductive BuildPhase
  | queued
  | reading (cfg : GraphConfig) (metric : Metric)
  | writing (cfg : GraphConfig) (metric : Metric)
  | written (cfg : GraphConfig) (metric : Metric)
  | opened (bi : BuiltIndex)
  | ended
  deriving DecidableEq

structure Build where
  name : IndexName
  seg : SegId
  phase : BuildPhase
  deriving DecidableEq

inductive MergePhase
  | planned
  | written
  | swapped
  | ended
  deriving DecidableEq

structure Merge where
  inputs : List SegId
  outs : List SegId
  phase : MergePhase
  deriving DecidableEq

/-! ### The state -/

/-- The control store's record of an index. -/
structure IndexEntry where
  metric : Metric
  cfg : GraphConfig
  indexed : List SegId

structure Manifest where
  segs : List SegId
  indexes : GoMap IndexName IndexEntry

structure Catalog where
  indexes : GoMap IndexName VIndex
  sealed : List SegId
  unmapped : List SegId
  nextSeg : SegId
  builds : List Build
  merges : List Merge
  closing : Bool
  closed : Bool
  manifest : Option Manifest
  files : Files

def defaultIndexName : IndexName := Bytes.ofAscii "default"

/-- The indexes of a store that has no others. -/
def defaultIndexes (metric : Metric) : GoMap IndexName VIndex :=
  AList.insert defaultIndexName ⟨GraphConfig.withDefaults ⟨0, 0, 0, 0⟩, metric, ∅⟩ ∅

/-- A store that has just been opened, over the files that are there. -/
def Catalog.init (metric : Metric) (files : Files) : Catalog :=
  ⟨defaultIndexes metric, [], [], 1, [], [], false, false, none, files⟩

namespace Catalog

variable (dir : Bytes) (metric : Metric) (s : Catalog)

/-- `writeManifestLocked`: the control state as it is in memory. -/
def snapshot : Manifest where
  segs := s.sealed
  indexes := GoMap.mapValues (fun _ vx =>
    ⟨vx.metric, vx.cfg, s.sealed.filter fun id => (vx.graphs.lookup id).isSome⟩) s.indexes

/-- A transaction that writes the control state, if it succeeds. -/
def commit (ok : Bool) : Catalog :=
  if ok then { s with manifest := some s.snapshot } else s

/-- `fullyIndexedLocked` -/
def fullyIndexed (id : SegId) : Bool :=
  s.indexes.keys.all fun n => (s.indexes.lookup n).all fun vx => (vx.graphs.lookup id).isSome

/-- Start builds of the given names for the given segments. -/
def spawn (names : List IndexName) (segs : List SegId) : Catalog where
  __ := s
  builds := s.builds ++ segs.flatMap fun id => names.map fun n => ⟨n, id, .queued⟩

def setIndex (name : IndexName) (vx : VIndex) : Catalog :=
  { s with indexes := s.indexes.insert name vx }

def setFile (p : Bytes) (f : File) : Catalog := { s with files := s.files.insert p f }

def removeFile (p : Bytes) : Catalog := { s with files := s.files.erase p }

/-- `os.RemoveAll` of the directories of segments. -/
def removeDirs (ids : List SegId) : Catalog where
  __ := s
  files := GoMap.filterKeys (fun p => ids.all fun id => !decide (Inside (segDir dir id) p)) s.files

/-- The records files of a new segment; there is an attribute file if properties are declared. -/
def writeRecords (attr : Bool) (id : SegId) : Catalog where
  __ := s
  files := (recordFiles.take (if attr then 4 else 3)).foldl
    (fun m f => m.insert (segFilePath dir id f) .records) s.files

/-! ### Sealing -/

/-- `sealLocked`: `written` says whether the segment's files were written and opened, `ok` whether
the transactions after that succeeded. -/
def sealLocked (attr written ok : Bool) : Catalog :=
  if !written then s
  else
    let id := s.nextSeg
    let s := s.writeRecords dir attr id
    let s := { s with sealed := s.sealed ++ [id], nextSeg := s.nextSeg + 1 }
    if !ok then s
    else if s.closing then s.commit true
    else (s.commit true).spawn s.indexes.keys [id]

/-! ### Index definitions -/

def createVectorIndex (name : IndexName) (cfg : VectorIndexConfig) (ok : Bool) : Catalog :=
  if cfg.type ≠ hnsw ∨ name = [] ∨ name = defaultIndexName then s
  else if name ∈ s.indexes ∨ s.closing then s
  else if !ok then s
  else
    let s := s.setIndex name (newVIndex cfg)
    (s.commit true).spawn [name] s.sealed

/-- `dropGraphFilesLocked`, up to the first segment for which it fails. -/
def dropGraphFiles (name : IndexName) (upTo : Option ℕ) : Catalog :=
  (match upTo with
    | none => s.sealed
    | some k => s.sealed.take k).foldl (fun s id => s.removeFile (graphPath dir id name)) s

def dropVectorIndex (name : IndexName) (upTo : Option ℕ) (ok : Bool) : Catalog :=
  if name = defaultIndexName ∨ name ∉ s.indexes then s
  else
    let s := { s with indexes := s.indexes.erase name }
    (s.dropGraphFiles dir name upTo).commit (upTo.isNone && ok)

def rebuildVectorIndex (name : IndexName) (upTo : Option ℕ) (ok : Bool) : Catalog :=
  match s.indexes.lookup name with
  | none => s
  | some vx =>
    if s.closing then s
    else
      let s := s.setIndex name { vx with graphs := ∅ }
      let s := s.dropGraphFiles dir name upTo
      if upTo.isNone && ok then (s.commit true).spawn [name] s.sealed else s

/-! ### Builds -/

def setBuild (i : ℕ) (b : Build) : Catalog := { s with builds := s.builds.set i b }

/-- The next phase of a build; `ok` says whether the call at this point succeeds. -/
def stepBuild (i : ℕ) (ok : Bool) : Option Catalog := do
  let b ← s.builds[i]?
  let p := graphPath dir b.seg b.name
  match b.phase with
  | .queued =>
    -- the configuration is read under the lock
    match s.indexes.lookup b.name with
    | none => s.setBuild i { b with phase := .ended }
    | some vx => s.setBuild i { b with phase := .reading vx.cfg vx.metric }
  | .reading cfg metric =>
    -- the segment has been read, and the file is created
    if ok then (s.setBuild i { b with phase := .writing cfg metric }).setFile p .torn
    else s.setBuild i { b with phase := .ended }
  | .writing cfg metric =>
    if ok then
      (s.setBuild i { b with phase := .written cfg metric }).setFile p
        (.graph ⟨metric, cfg.withDefaults, b.seg⟩)
    else s.setBuild i { b with phase := .ended }
  | .written cfg metric =>
    -- the file is read back, whatever is in it by now
    match s.files.lookup p, ok with
    | some (.graph g), true =>
      s.setBuild i { b with phase := .opened ⟨g, metric, cfg.withDefaults⟩ }
    | _, _ => s.setBuild i { b with phase := .ended }
  | .opened bi =>
    -- under the lock: install the graph if the name is registered, otherwise remove the file
    let s := s.setBuild i { b with phase := .ended }
    match s.indexes.lookup b.name with
    | none => if ok then s.removeFile p else s
    | some vx =>
      (s.setIndex b.name { vx with graphs := vx.graphs.insert b.seg bi }).commit ok
  | .ended => some { s with builds := s.builds.eraseIdx i }

/-! ### Merges -/

def setMerge (j : ℕ) (m : Merge) : Catalog := { s with merges := s.merges.set j m }

/-- `planMergeWithCapLocked` with `n` output segments. -/
def planMerge (inputs : List SegId) (n : ℕ) : Option Catalog :=
  if !s.closing ∧ ∀ id ∈ inputs, id ∈ s.sealed ∧ s.fullyIndexed id then
    some { s with
      nextSeg := s.nextSeg + n
      merges := s.merges ++ [⟨inputs, (List.range n).map (s.nextSeg + ·), .planned⟩] }
  else none

/-- The swap: unmap the inputs and put the outputs in their place. -/
def swapSegments (m : Merge) : Catalog :=
  { s with
    unmapped := s.unmapped ++ s.sealed.filter (· ∈ m.inputs)
    sealed := s.sealed.filter (· ∉ m.inputs) ++ m.outs
    indexes := GoMap.mapValues (fun _ vx =>
      { vx with graphs := GoMap.filterKeys (fun id => !m.inputs.contains id) vx.graphs }) s.indexes }

/-- The next phase of a merge. -/
def stepMerge (j : ℕ) (attr ok : Bool) : Option Catalog := do
  let m ← s.merges[j]?
  match m.phase with
  | .planned =>
    -- what a failed write leaves in a directory that nothing refers to is not kept here
    if ok then
      (m.outs.foldl (fun s id => s.writeRecords dir attr id) s).setMerge j
        { m with phase := .written }
    else s.setMerge j { m with phase := .ended }
  | .written =>
    if m.inputs.all s.fullyIndexed then
      let s := s.swapSegments m
      if ok then
        ((s.commit true).spawn s.indexes.keys m.outs).setMerge j { m with phase := .swapped }
      else s.setMerge j { m with phase := .ended }
    else (s.removeDirs dir m.outs).setMerge j { m with phase := .ended }
  | .swapped => (s.removeDirs dir m.inputs).setMerge j { m with phase := .ended }
  | .ended => some { s with merges := s.merges.eraseIdx j }

/-! ### Closing and opening -/

/-- `Close` waits until nothing is in flight, and unmaps the segments. -/
def finishClose : Option Catalog :=
  if s.closing ∧ s.builds = [] ∧ s.merges = [] then
    some { s with unmapped := s.unmapped ++ s.sealed, closed := true }
  else none

/-- The name of a graph file. -/
def isGraphFileName (f : Bytes) : Bool :=
  10 ≤ f.length && (Bytes.ofAscii "graph-").isPrefixOf f && (Bytes.ofAscii ".dat").isSuffixOf f

/-- `sweepOrphansLocked`: whether a file with these components below the store's directory is left
where it is. -/
def survivesSweep (m : Manifest) : List Bytes → Bool
  | [] => true
  | [file] => file ∉ [Bytes.ofAscii "manifest", Bytes.ofAscii "manifest.tmp",
      Bytes.ofAscii "records.wal"]
  | sub :: file :: rest =>
    if !(Bytes.ofAscii "seg-").isPrefixOf sub then true
    else if sub ∉ m.segs.map (segDirName · 0) then false
    else rest ≠ [] || !isGraphFileName file || file ∈ m.indexes.keys.map graphFileName

def sweepOrphans (m : Manifest) (files : Files) : Files :=
  GoMap.filterKeys (fun p => !decide (Inside dir p) ||
    survivesSweep m ((comps p).drop (comps dir).length)) files

/-- The graph that recovery opens for a segment that the control store records as indexed; `ok` says
whether the file can be read. -/
def reopenGraph (files : Files) (ok : Bool) (n : IndexName) (e : IndexEntry) (id : SegId) :
    Option BuiltIndex :=
  let cfg := GraphConfig.withDefaults ⟨e.cfg.m, e.cfg.efConstruction, e.cfg.efSearch, 0⟩
  match files.lookup (graphPath dir id n) with
  | some (.graph g) => if id ∈ e.indexed ∧ ok then some ⟨g, e.metric, cfg.withDefaults⟩ else none
  | _ => none

/-- The index that recovery makes of its entry, with the graphs that can be opened. -/
def reopenIndex (files : Files) (segs : List SegId) (readable : IndexName → SegId → Bool)
    (n : IndexName) (e : IndexEntry) : VIndex where
  cfg := GraphConfig.withDefaults ⟨e.cfg.m, e.cfg.efConstruction, e.cfg.efSearch, 0⟩
  metric := e.metric
  graphs := segs.foldl (fun m id =>
    match reopenGraph dir files (readable n id) n e id with
    | some bi => m.insert id bi
    | none => m) ∅

/-- The indexes that recovery makes of the control state. -/
def reopenIndexes (m : Manifest) (files : Files) (readable : IndexName → SegId → Bool) :
    GoMap IndexName VIndex :=
  if m.indexes.keys = [] then defaultIndexes metric
  else GoMap.mapValues (reopenIndex dir files m.segs readable) m.indexes

/-- The segments without a graph, for each index. -/
def pendingBuilds (indexes : GoMap IndexName VIndex) (segs : List SegId) :
    List (IndexName × SegId) :=
  indexes.keys.flatMap fun n => (segs.filter fun id =>
    (indexes.lookup n).all fun vx => (vx.graphs.lookup id).isNone).map fun id => (n, id)

/-- `recover`, in a new process, over the control state and the files that are left. -/
def recover (readable : IndexName → SegId → Bool) : Catalog :=
  match s.manifest with
  | none => Catalog.init metric (sweepOrphans dir ⟨[], ∅⟩ s.files)
  | some m =>
    let files := sweepOrphans dir m s.files
    let indexes := reopenIndexes dir metric m files readable
    { indexes := indexes
      sealed := m.segs
      unmapped := []
      nextSeg := m.segs.foldl (fun next id => if next ≤ id then id + 1 else next) 1
      builds := (pendingBuilds indexes m.segs).map fun p => ⟨p.1, p.2, .queued⟩
      merges := []
      closing := false
      closed := false
      manifest := some m
      files := files }

/-! ### Steps -/

inductive Label
  | sealHead (attr written ok : Bool)
  | create (name : IndexName) (cfg : VectorIndexConfig) (ok : Bool)
  | drop (name : IndexName) (upTo : Option ℕ) (ok : Bool)
  | rebuild (name : IndexName) (upTo : Option ℕ) (ok : Bool)
  | build (i : ℕ) (ok : Bool)
  | plan (inputs : List SegId) (n : ℕ)
  | merge (j : ℕ) (attr ok : Bool)
  | beginClose
  | finishClose
  | restart (readable : IndexName → SegId → Bool)

/-- One step of an open store. -/
def stepOpen : Label → Option Catalog
  | .sealHead attr written ok => some (s.sealLocked dir attr written ok)
  | .create name cfg ok => some (s.createVectorIndex name cfg ok)
  | .drop name upTo ok => some (s.dropVectorIndex dir name upTo ok)
  | .rebuild name upTo ok => some (s.rebuildVectorIndex dir name upTo ok)
  | .build i ok => s.stepBuild dir i ok
  | .plan inputs n => s.planMerge inputs n
  | .merge j attr ok => s.stepMerge dir j attr ok
  | .beginClose => some { s with closing := true }
  | .finishClose => s.finishClose
  | .restart _ => none

/-- One step. After `Close` there is only a new process; it can also start after a crash at any
time. -/
def step : Label → Option Catalog
  | .restart readable => some (s.recover dir metric readable)
  | l => if s.closed then none else s.stepOpen dir l

lemma step_cases {dir : Bytes} {metric : Metric} {s s' : Catalog} {l : Label}
    (h : s.step dir metric l = some s') :
    (∃ readable, l = .restart readable ∧ s' = s.recover dir metric readable) ∨
      s.closed = false ∧ s.stepOpen dir l = some s' := by
  unfold step at h
  split at h
  case h_1 readable => exact .inl ⟨readable, rfl, (Option.some.inj h).symm⟩
  case h_2 =>
    split at h
    · cases h
    case isFalse hclosed => exact .inr ⟨by simpa using hclosed, h⟩

end Catalog

end Haystack.VectorStore
