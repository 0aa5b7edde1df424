import Haystack.InvertedIndex.PostingContract
import Haystack.Lib.SlashPath

/-!
# The indexing pipeline

Update requests, delete requests and scans queue files for the parser. Each parser worker takes a
file, reads its state, reads the stored document, reads the content, and hands a document to the
writer; whether the document is new was decided when the stored one was read. The writer takes up to
eight documents at a time and applies the new ones and the existing ones of each workspace as
separate tasks of the database queue.
-/

namespace Haystack.Indexer

open InvertedIndex (DocId TableId Keyword Index Op)
open SlashPath

abbrev WorkspaceId := Int64
abbrev RelPath := Bytes

/-- The fields of a stored document, with the words it was indexed under. -/
structure Document where
  relPath : RelPath
  size : Int64
  hash : Bytes
  modifiedTime : Int64
  words : List Keyword
  plain : Index.Plain words
  deriving DecidableEq

/-- What `os.Stat` tells about a file that is not a directory. -/
structure FileInfo where
  size : Int64
  modTime : Int64
  deriving DecidableEq

/-- What matters about the content of a file: whether it looks like text, its hash, and the words of
the tokenizer, which are not empty and do not contain the delimiter of the index. -/
structure Content where
  isText : Bool
  hash : Bytes
  words : List Keyword
  plain : Index.Plain words

/-- What the pipeline is given: the directory and the index table of each workspace, the document id
of a relative path (the allocated id of its md5 sum), whether a file passes the filters of its
workspace, the size limit, and the options of the index. -/
structure Config where
  path : WorkspaceId → Bytes
  table : WorkspaceId → TableId
  docid : RelPath → DocId
  shouldIndex : WorkspaceId → RelPath → Bool
  maxFileSize : Int64
  index : InvertedIndex.Options

/-- `ParseFile` -/
structure ParseFile where
  workspace : WorkspaceId
  relPath : RelPath
  deriving DecidableEq

/-- `WriteDoc` -/
structure WriteDoc where
  workspace : WorkspaceId
  document : Document
  createNew : Bool
  deriving DecidableEq

/-- Where a parser worker stands. -/
inductive Worker
  | idle
  | took (file : ParseFile)
  | statted (file : ParseFile) (info : FileInfo)
  | looked (file : ParseFile) (info : FileInfo) (existing : Option Document)
  | built (doc : WriteDoc)
  deriving DecidableEq

/-- A task of the writer: `SaveNewDocuments` or `UpdateDocuments` of one workspace. -/
structure WriteTask where
  workspace : WorkspaceId
  createNew : Bool
  docs : List Document
  deriving DecidableEq

/-- An update request that has passed the filter and has looked the document up. -/
structure Request where
  workspace : WorkspaceId
  relPath : RelPath
  found : Bool
  deriving DecidableEq

/-- The state of the pipeline and of the stores behind it. `touched` is a history variable: the paths
whose state or content was read, with the workspace for which that was done. -/
structure Pipeline where
  requests : List Request
  parse : List ParseFile
  workers : List Worker
  write : List WriteDoc
  tasks : List WriteTask
  docs : GoMap (WorkspaceId × DocId) Document
  docCount : WorkspaceId → ℤ
  index : Index
  touched : List (WorkspaceId × Bytes)

variable (c : Config)

def Config.key (w : WorkspaceId) (rel : RelPath) : WorkspaceId × DocId :=
  (w, c.docid rel)

def Config.fullPath (w : WorkspaceId) (rel : RelPath) : Bytes :=
  join (c.path w) rel

namespace Pipeline

/-- Nothing stored, nothing queued, and `n` workers. -/
def init (n : ℕ) : Pipeline :=
  ⟨[], [], List.replicate n .idle, [], [], ∅, fun _ => 0, .empty, []⟩

variable (s : Pipeline)

/-! ### Requests -/

/-- `Parser.Add`; it waits while the channel is full. -/
def queueFile (w : WorkspaceId) (rel : RelPath) : Option Pipeline :=
  if s.parse.length < 32 then some { s with parse := s.parse ++ [⟨w, rel⟩] } else none

/-- `documents.Store.DeleteDocument`, the part of `RemoveFile` that concerns the documents. -/
def removeFile (w : WorkspaceId) (rel : RelPath) (f : Index.Forced) : Option Pipeline :=
  match s.docs.lookup (c.key w rel) with
  | none => some s
  | some _ =>
    (s.index.step c.index (.delete (c.table w) (c.docid rel) f)).map fun ix =>
      { s with
        index := ix
        docs := s.docs.erase (c.key w rel)
        docCount := Function.update s.docCount w (s.docCount w - 1) }

/-- `handleUpdateDocument` up to the lookup of the document in `AddOrSyncFile`. -/
def beginUpdate (w : WorkspaceId) (rel : RelPath) : Option Pipeline :=
  if c.shouldIndex w rel then
    some { s with requests := s.requests ++ [⟨w, rel, (s.docs.lookup (c.key w rel)).isSome⟩] }
  else some s

/-- The rest of `AddOrSyncFile`; `info` is `none` if the file cannot be found or is a directory. -/
def endUpdate (i : ℕ) (info : Option FileInfo) (f : Index.Forced) : Option Pipeline :=
  match s.requests[i]? with
  | none => none
  | some r =>
    let s := { s with
      requests := s.requests.eraseIdx i
      touched := (r.workspace, c.fullPath r.workspace r.relPath) :: s.touched }
    match info with
    | some _ => s.queueFile r.workspace r.relPath
    | none => if r.found then s.removeFile c r.workspace r.relPath f else some s

/-! ### Parser workers -/

def setWorker (i : ℕ) (w : Worker) : Pipeline :=
  { s with workers := s.workers.set i w }

def takeFile (i : ℕ) : Option Pipeline :=
  match s.workers[i]?, s.parse with
  | some .idle, file :: rest => some ({ s with parse := rest }.setWorker i (.took file))
  | _, _ => none

/-- `os.Stat` of `parse`; on an error the file is dropped. -/
def statFile (i : ℕ) (info : Option FileInfo) : Option Pipeline :=
  match s.workers[i]? with
  | some (.took file) =>
    let s := { s with
      touched := (file.workspace, c.fullPath file.workspace file.relPath) :: s.touched }
    some (s.setWorker i (match info with | some info => .statted file info | none => .idle))
  | _ => none

/-- `GetDocument` of `parse`; a file with the stored time is dropped. -/
def lookUp (i : ℕ) : Option Pipeline :=
  match s.workers[i]? with
  | some (.statted file info) =>
    let existing := s.docs.lookup (c.key file.workspace file.relPath)
    some (s.setWorker i
      (if existing.any (fun doc => doc.modifiedTime = info.modTime) then .idle
      else .looked file info existing))
  | _ => none

/-- `BuildContentDocument`; `content` is `none` for a file above the size limit. -/
def buildContentDocument (rel : RelPath) (info : FileInfo) (priorHash : Bytes) :
    Option Content → Option Document
  | none => some ⟨rel, info.size, [], info.modTime, [], Index.Plain.nil⟩
  | some content =>
    if content.isText ∧ ¬ (priorHash ≠ [] ∧ content.hash = priorHash) then
      some ⟨rel, info.size, content.hash, info.modTime, content.words, content.plain⟩
    else none

lemma relPath_build {rel : RelPath} {info : FileInfo} {prior : Bytes} {content : Option Content}
    {doc : Document} (h : buildContentDocument rel info prior content = some doc) :
    doc.relPath = rel := by
  unfold buildContentDocument at h
  split at h
  · exact (Option.some.inj h ▸ rfl)
  · split at h
    · exact (Option.some.inj h ▸ rfl)
    · simp at h

/-- Reading the content and building the document; `content` is `none` if the file cannot be read.
A file above the size limit is not read. -/
def readFile (i : ℕ) (content : Option Content) : Option Pipeline :=
  match s.workers[i]? with
  | some (.looked file info existing) =>
    let priorHash := (existing.map Document.hash).getD []
    let oversize := info.size > c.maxFileSize
    let built :=
      if oversize then buildContentDocument file.relPath info priorHash none
      else content.bind fun content =>
        buildContentDocument file.relPath info priorHash (some content)
    let s := if oversize then s else { s with
      touched := (file.workspace, c.fullPath file.workspace file.relPath) :: s.touched }
    some (s.setWorker i
      (match built with
      | some doc => .built ⟨file.workspace, doc, existing.isNone⟩
      | none => .idle))
  | _ => none

/-- `Writer.Add`; it waits while the channel is full. -/
def handOver (i : ℕ) : Option Pipeline :=
  match s.workers[i]? with
  | some (.built doc) =>
    if s.write.length < 64 then some ({ s with write := s.write ++ [doc] }.setWorker i .idle)
    else none
  | _ => none

/-! ### The writer -/

/-- The tasks of one kind; a map is walked in the order `ws` of the workspaces. -/
def tasksOf (batch : List WriteDoc) (createNew : Bool) (ws : List WorkspaceId) : List WriteTask :=
  (ws.map fun w => (⟨w, createNew, (batch.filter fun d =>
    d.workspace = w ∧ d.createNew = createNew).map WriteDoc.document⟩ : WriteTask)).filter
      (·.docs ≠ [])

/-- The writer takes up to eight documents; those that are new come first. -/
def takeBatch (n : ℕ) (news olds : List WorkspaceId) : Option Pipeline :=
  let batch := s.write.take n
  if s.tasks = [] ∧ 1 ≤ n ∧ n ≤ 8 ∧ n ≤ s.write.length ∧ news.Nodup ∧ olds.Nodup ∧
      (batch.all fun d => if d.createNew then d.workspace ∈ news else d.workspace ∈ olds) then
    some { s with
      write := s.write.drop n
      tasks := tasksOf batch true news ++ tasksOf batch false olds }
  else none

/-- The index operations of a task, with the walks of the flushes that each may force. -/
def taskOps (t : WriteTask) (fs : List (Index.Forced × Index.Forced)) : List Op :=
  List.zipWith (fun doc f =>
    if t.createNew then Op.add (c.table t.workspace) (c.docid doc.relPath) doc.words f.1
    else Op.update (c.table t.workspace) (c.docid doc.relPath) doc.words f.1 f.2) t.docs fs

/-- `saveDocument` of each document of a task. -/
def saveDocuments (docs : GoMap (WorkspaceId × DocId) Document) (t : WriteTask) :
    GoMap (WorkspaceId × DocId) Document :=
  t.docs.foldl (fun m doc => m.insert (c.key t.workspace doc.relPath) doc) docs

/-- `SaveNewDocuments` and `UpdateDocuments`; only the first counts documents. -/
def runTask (fs : List (Index.Forced × Index.Forced)) : Option Pipeline :=
  match s.tasks with
  | [] => none
  | t :: rest =>
    if fs.length = t.docs.length then
      ((taskOps c t fs).foldlM (Index.step c.index) s.index).map fun ix =>
        { s with
          tasks := rest
          index := ix
          docs := saveDocuments c s.docs t
          docCount := if t.createNew then
              Function.update s.docCount t.workspace (s.docCount t.workspace + t.docs.length)
            else s.docCount }
    else none

/-- A periodic flush or a merge of the index. -/
def maintain : Op → Option Pipeline
  | .flush writes tick f =>
    (s.index.step c.index (.flush writes tick f)).map fun ix => { s with index := ix }
  | .merge ticks clock nextIter =>
    (s.index.step c.index (.merge ticks clock nextIter)).map fun ix => { s with index := ix }
  | _ => none

end Pipeline

/-- The steps of the pipeline. `scan` is a file that a scan or a refresh queues. -/
inductive Label
  | beginUpdate (w : WorkspaceId) (rel : RelPath)
  | endUpdate (i : ℕ) (info : Option FileInfo) (f : Index.Forced)
  | delete (w : WorkspaceId) (rel : RelPath) (f : Index.Forced)
  | scan (w : WorkspaceId) (rel : RelPath)
  | takeFile (i : ℕ)
  | statFile (i : ℕ) (info : Option FileInfo)
  | lookUp (i : ℕ)
  | readFile (i : ℕ) (content : Option Content)
  | handOver (i : ℕ)
  | takeBatch (n : ℕ) (news olds : List WorkspaceId)
  | runTask (fs : List (Index.Forced × Index.Forced))
  | maintain (op : Op)

def Pipeline.step (s : Pipeline) : Label → Option Pipeline
  | .beginUpdate w rel => s.beginUpdate c w rel
  | .endUpdate i info f => s.endUpdate c i info f
  | .delete w rel f => s.removeFile c w rel f
  | .scan w rel => s.queueFile w rel
  | .takeFile i => s.takeFile i
  | .statFile i info => s.statFile c i info
  | .lookUp i => s.lookUp c i
  | .readFile i content => s.readFile c i content
  | .handOver i => s.handOver i
  | .takeBatch n news olds => s.takeBatch n news olds
  | .runTask fs => s.runTask c fs
  | .maintain op => s.maintain c op

end Haystack.Indexer
