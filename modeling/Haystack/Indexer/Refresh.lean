import Haystack.Indexer.Consistency

/-!
# Refreshing a file

A stored document is refreshed by queueing its file. The parser skips the file if it has the stored
time; otherwise it reads the file and skips it again if it is not text or has the stored hash. A file
that is skipped keeps its stored time, so that one that was touched or is no longer text is queued
by every later search.
-/

namespace Haystack.Indexer

open Option

open InvertedIndex (DocId TableId Keyword Index Op getDocs)

/-- A file that can be read and then stays as it is. -/
structure FileState where
  info : FileInfo
  content : Content

namespace FileState

variable (c : Config) (file : FileState)

def Oversize : Prop :=
  file.info.size > c.maxFileSize

instance : Decidable (file.Oversize c) :=
  inferInstanceAs (Decidable (_ < _))

/-- The words under which the file is to be found. -/
def words : List Keyword :=
  if file.Oversize c then [] else if file.content.isText then file.content.words else []

end FileState

namespace Pipeline

variable (c : Config) (s : Pipeline)

/-- `AddOrSyncFile`; `info` is `none` if the file cannot be found or is a directory. -/
def addOrSyncFile (w : WorkspaceId) (rel : RelPath) (info : Option FileInfo) (f : Index.Forced) :
    Option Pipeline :=
  match info with
  | some _ => s.queueFile w rel
  | none => if (s.docs.lookup (c.key w rel)).isSome then s.removeFile c w rel f else some s

/-- `RefreshFileIfNeeded` -/
def refreshFileIfNeeded (w : WorkspaceId) (doc : Document) (info : Option FileInfo)
    (f : Index.Forced) : Option Pipeline :=
  match info with
  | none => s.removeFile c w doc.relPath f
  | some info => if info.modTime ≠ doc.modifiedTime then s.queueFile w doc.relPath else some s

/-- `isFileChanged` of the symbol search, which returns whether the document may be used: its file
has the stored time and hash. -/
def isFileChanged (w : WorkspaceId) (doc : Document) (file : Option FileState) (f : Index.Forced) :
    Option (Pipeline × Bool) :=
  match file with
  | none => (s.removeFile c w doc.relPath f).map (·, false)
  | some file =>
    if file.info.modTime ≠ doc.modifiedTime then
      (s.addOrSyncFile c w doc.relPath (some file.info) f).map (·, false)
    else if doc.hash = [] then some (s, false)
    else if file.content.hash ≠ doc.hash then
      (s.addOrSyncFile c w doc.relPath (some file.info) f).map (·, false)
    else some (s, true)

/-- Worker `i` parses the next file. -/
def parseFile (i : ℕ) (file : FileState) : Option Pipeline := do
  let s ← s.takeFile i
  let s ← s.statFile c i (some file.info)
  let s ← s.lookUp c i
  if s.workers[i]? = some .idle then some s else s.readFile c i (some file.content)

/-- The document of worker `i` is written, if there is one. -/
def writeFile (i : ℕ) (w : WorkspaceId) (f f' : Index.Forced) : Option Pipeline :=
  if s.workers[i]? = some .idle then some s
  else do
    let s ← s.handOver i
    let s ← s.takeBatch 1 [w] [w]
    s.runTask c [(f, f')]

/-- One `AddOrSyncFile` of a file, which worker `i` parses and the writer writes. -/
def syncFile (i : ℕ) (w : WorkspaceId) (rel : RelPath) (file : FileState) (f f' : Index.Forced) :
    Option Pipeline := do
  let s ← s.addOrSyncFile c w rel (some file.info) f
  let s ← s.parseFile c i file
  s.writeFile c i w f f'

/-- Nothing is queued, and worker `i` waits. -/
structure Quiet (i : ℕ) : Prop where
  parse : s.parse = []
  write : s.write = []
  tasks : s.tasks = []
  worker : s.workers[i]? = some .idle

instance (i : ℕ) : Decidable (s.Quiet i) :=
  decidable_of_iff (s.parse = [] ∧ s.write = [] ∧ s.tasks = [] ∧ s.workers[i]? = some .idle)
    ⟨fun h => ⟨h.1, h.2.1, h.2.2.1, h.2.2.2⟩, fun h => ⟨h.parse, h.write, h.tasks, h.worker⟩⟩

end Pipeline

/-! ### What is written -/

/-- The document that is written for a file with the stored document `doc`. -/
def rebuilt (c : Config) (doc : Document) (file : FileState) : Option Document :=
  if doc.modifiedTime = file.info.modTime then none
  else Pipeline.buildContentDocument doc.relPath file.info doc.hash
    (if file.Oversize c then none else some file.content)

namespace Pipeline

variable {c : Config} {s s' : Pipeline} {i : ℕ} {w : WorkspaceId} {doc : Document}
  {file : FileState} {f f' : Index.Forced}

@[simp]
lemma workers_setWorker (hi : i < s.workers.length) (wk : Worker) :
    (s.setWorker i wk).workers[i]? = some wk := by
  simp [setWorker, hi]

@[simp]
lemma setWorker_setWorker (wk wk' : Worker) :
    (s.setWorker i wk).setWorker i wk' = s.setWorker i wk' := by
  simp [setWorker]

/-- The path was looked at. -/
def touch (s : Pipeline) (c : Config) (w : WorkspaceId) (rel : RelPath) : Pipeline :=
  { s with touched := (w, c.fullPath w rel) :: s.touched }

lemma takeFile_of_idle {file : ParseFile} (hworker : s.workers[i]? = some .idle) (rest : List ParseFile) :
    { s with parse := file :: rest }.takeFile i =
      some ({ s with parse := rest }.setWorker i (.took file)) := by
  simp only [takeFile, hworker]

lemma statFile_of_took (hi : i < s.workers.length) (file : ParseFile) (info : FileInfo) :
    (s.setWorker i (.took file)).statFile c i (some info) =
      some ((s.touch c file.workspace file.relPath).setWorker i (.statted file info)) := by
  simp only [statFile, workers_setWorker hi]
  exact congrArg some (setWorker_setWorker (s := s.touch c file.workspace file.relPath) _ _)

lemma lookUp_of_statted (hi : i < s.workers.length) (file : ParseFile) (info : FileInfo) :
    (s.setWorker i (.statted file info)).lookUp c i =
      some (s.setWorker i
        (if (s.docs.lookup (c.key file.workspace file.relPath)).any
          (fun doc => doc.modifiedTime = info.modTime) then .idle
        else .looked file info (s.docs.lookup (c.key file.workspace file.relPath)))) := by
  simp only [lookUp, workers_setWorker hi, setWorker_setWorker]
  rfl

lemma readFile_of_looked (hi : i < s.workers.length) (c : Config) (w : WorkspaceId)
    (doc : Document) (file : FileState) :
    ∃ touched, (s.setWorker i (.looked ⟨w, doc.relPath⟩ file.info (some doc))).readFile c i
        (some file.content) =
      some ({ s with touched }.setWorker i
        (((buildContentDocument doc.relPath file.info doc.hash
          (if file.Oversize c then none else some file.content)).map fun doc' =>
            Worker.built ⟨w, doc', false⟩).getD .idle)) := by
  simp only [readFile, workers_setWorker hi]
  by_cases hsize : file.info.size > c.maxFileSize
  · refine ⟨s.touched, ?_⟩
    have hover : file.Oversize c := hsize
    rw [if_pos hsize, if_pos hsize, if_pos hover, setWorker_setWorker]
    rfl
  · refine ⟨(w, c.fullPath w doc.relPath) :: s.touched, ?_⟩
    have hover : ¬ file.Oversize c := hsize
    rw [if_neg hsize, if_neg hsize, if_neg hover]
    refine congrArg some ?_
    refine (setWorker_setWorker (s := s.touch c w doc.relPath) _ _).trans ?_
    cases hbuilt : buildContentDocument doc.relPath file.info doc.hash (some file.content) <;>
      simp [hbuilt] <;> rfl

/-- The worker ends with the document, or without one. -/
lemma parseFile_eq (file : FileState) (h : s.Quiet i)
    (hdoc : s.docs.lookup (c.key w doc.relPath) = some doc) :
    ∃ touched, { s with parse := [⟨w, doc.relPath⟩] }.parseFile c i file =
      some ({ s with touched }.setWorker i (((rebuilt c doc file).map fun doc' =>
          Worker.built ⟨w, doc', false⟩).getD .idle)) := by
  have hi : i < s.workers.length := (List.getElem?_eq_some_iff.1 h.worker).1
  have hparse : ({ s with parse := [] } : Pipeline) = s := by rw [← h.parse]
  have hstat := statFile_of_took (c := c) hi ⟨w, doc.relPath⟩ file.info
  have hlook := lookUp_of_statted (c := c) (s := s.touch c w doc.relPath) hi ⟨w, doc.relPath⟩
    file.info
  rw [show (s.touch c w doc.relPath).docs = s.docs from rfl, hdoc] at hlook
  simp only [parseFile, takeFile_of_idle h.worker, hparse, bind_eq_bind, bind_some,
    hstat, hlook, any_some, decide_eq_true_eq]
  have htouch : i < (s.touch c w doc.relPath).workers.length := hi
  by_cases htime : doc.modifiedTime = file.info.modTime
  · rw [if_pos htime, workers_setWorker htouch, if_pos rfl, rebuilt, if_pos htime]
    exact ⟨_, rfl⟩
  · obtain ⟨touched, hread⟩ := readFile_of_looked htouch c w doc file
    rw [if_neg htime, workers_setWorker htouch, if_neg (by simp), rebuilt, if_neg htime, hread]
    exact ⟨touched, rfl⟩

lemma handOver_of_built (hi : i < s.workers.length) (hwrite : s.write = []) (d : WriteDoc) :
    (s.setWorker i (.built d)).handOver i =
      some ({ s with write := [d] }.setWorker i .idle) := by
  have hempty : (s.setWorker i (.built d)).write = [] := hwrite
  simp only [handOver, workers_setWorker hi, hempty, List.length_nil, Nat.zero_lt_succ, if_true,
    List.nil_append]
  exact congrArg some (setWorker_setWorker (s := { s with write := [d] }) _ _)

lemma takeBatch_single (htasks : s.tasks = []) (doc' : Document) :
    { s with write := [⟨w, doc', false⟩] }.takeBatch 1 [w] [w] =
      some { s with write := [], tasks := [⟨w, false, [doc']⟩] } := by
  simp [takeBatch, htasks, tasksOf]

lemma runTask_single (c : Config) (s : Pipeline) (w : WorkspaceId) (f f' : Index.Forced)
    (doc' : Document) :
    { s with tasks := [⟨w, false, [doc']⟩] }.runTask c [(f, f')] =
      (s.index.step c.index
        (.update (c.table w) (c.docid doc'.relPath) doc'.words f f')).map fun ix =>
          { s with
            tasks := []
            index := ix
            docs := s.docs.insert (c.key w doc'.relPath) doc' } := by
  simp [runTask, taskOps, saveDocuments]

/-- The writer replaces the stored document. -/
lemma writeFile_eq (c : Config) (w : WorkspaceId) (f f' : Index.Forced)
    (hi : i < s.workers.length) (hwrite : s.write = []) (htasks : s.tasks = []) (doc' : Document) :
    (s.setWorker i (.built ⟨w, doc', false⟩)).writeFile c i w f f' =
      (s.index.step c.index
        (.update (c.table w) (c.docid doc'.relPath) doc'.words f f')).map fun ix =>
          { s.setWorker i .idle with
            index := ix
            docs := s.docs.insert (c.key w doc'.relPath) doc' } := by
  have hbatch := takeBatch_single (s := s.setWorker i .idle) (w := w) htasks doc'
  have htask := runTask_single c { s.setWorker i .idle with write := [] } w f f' doc'
  rw [writeFile, workers_setWorker hi, if_neg (by simp), handOver_of_built hi hwrite,
    bind_eq_bind, bind_some]
  refine (congrArg (bind · fun s => s.runTask c [(f, f')]) hbatch).trans ?_
  refine htask.trans ?_
  simp only [setWorker, hwrite, htasks]

/-- What one `AddOrSyncFile` does to the documents and the index. -/
lemma syncFile_cases (h : s.Quiet i) (hdoc : s.docs.lookup (c.key w doc.relPath) = some doc)
    (hsync : s.syncFile c i w doc.relPath file f f' = some s') :
    (rebuilt c doc file = none ∧ s'.docs = s.docs ∧ s'.index = s.index) ∨
    ∃ doc', rebuilt c doc file = some doc' ∧
      s'.docs = s.docs.insert (c.key w doc'.relPath) doc' ∧
      s.index.step c.index (.update (c.table w) (c.docid doc'.relPath) doc'.words f f') =
        some s'.index := by
  have hi : i < s.workers.length := (List.getElem?_eq_some_iff.1 h.worker).1
  have hqueue : s.addOrSyncFile c w doc.relPath (some file.info) f =
      some { s with parse := [⟨w, doc.relPath⟩] } := by
    simp [addOrSyncFile, queueFile, h.parse]
  obtain ⟨touched, hparse⟩ := parseFile_eq file h hdoc
  rw [syncFile, hqueue, bind_eq_bind, bind_some, hparse, bind_some] at hsync
  cases hbuilt : rebuilt c doc file with
  | none =>
    rw [hbuilt] at hsync
    rw [map_none, getD_none, writeFile, workers_setWorker (s := { s with touched }) hi,
      if_pos rfl] at hsync
    cases hsync
    exact .inl ⟨rfl, rfl, rfl⟩
  | some doc' =>
    rw [hbuilt, map_some, getD_some] at hsync
    have hwrite := writeFile_eq (s := { s with touched }) c w f f' hi h.write h.tasks doc'
    rw [hwrite] at hsync
    obtain ⟨ix, hix, rfl⟩ := map_eq_some_iff.1 hsync
    exact .inr ⟨doc', rfl, rfl, hix⟩

end Pipeline

/-! ### Convergence -/

/-- The store agrees with the file: the stored time is that of the file, the postings after a flush
are the words of the file, a refresh queues nothing, and the symbol search queues nothing and uses
the document if it has a hash. -/
def Converged (c : Config) (s : Pipeline) (w : WorkspaceId) (rel : RelPath) (file : FileState)
    (f : Index.Forced) : Prop :=
  ∃ doc, s.docs.lookup (c.key w rel) = some doc ∧
    doc.modifiedTime = file.info.modTime ∧
    (∀ writes tick flush, writes.Perm s.index.pendingWrites.keys →
      flush.due.Perm s.index.pendingDeletes.keys → ∀ kw,
        c.docid rel ∈ getDocs (s.index.flush c.index writes tick flush).db (c.table w) kw ↔
          kw ∈ file.words c) ∧
    s.refreshFileIfNeeded c w doc (some file.info) f = some s ∧
    s.isFileChanged c w doc (some file) f = some (s, decide (doc.hash ≠ []))

/-- When the refresh of a stored document reaches the state of its file: with the stored time, the
stored words and hash are still those of the file; with another time, the file is too large, or it is
text with another hash. -/
def Refreshable (c : Config) (doc : Document) (file : FileState) : Prop :=
  if doc.modifiedTime = file.info.modTime then
    (∀ kw, kw ∈ doc.words ↔ kw ∈ file.words c) ∧ (doc.hash = [] ∨ file.content.hash = doc.hash)
  else
    file.Oversize c ∨ (file.content.isText ∧ ¬ (doc.hash ≠ [] ∧ file.content.hash = doc.hash))

section

variable {c : Config} {s s' : Pipeline} {i : ℕ} {w : WorkspaceId} {doc doc' : Document}
  {file : FileState} {f f' : Index.Forced}

/-- A document that is written is the one of the file. -/
lemma rebuilt_eq_some (h : rebuilt c doc file = some doc') :
    doc'.relPath = doc.relPath ∧ doc'.modifiedTime = file.info.modTime ∧
      doc'.words = file.words c ∧ (doc'.hash = [] ∨ file.content.hash = doc'.hash) := by
  rw [rebuilt] at h
  split at h
  · cases h
  · refine ⟨Pipeline.relPath_build h, ?_⟩
    by_cases hsize : file.Oversize c
    · rw [if_pos hsize] at h
      cases h
      exact ⟨rfl, by rw [FileState.words, if_pos hsize], .inl rfl⟩
    · rw [if_neg hsize, Pipeline.buildContentDocument] at h
      split at h
      case isTrue htext =>
        cases h
        exact ⟨rfl, by rw [FileState.words, if_neg hsize, if_pos htext.1], .inr rfl⟩
      case isFalse => cases h

lemma rebuilt_eq_none_iff : rebuilt c doc file = none ↔
    doc.modifiedTime = file.info.modTime ∨
      ¬ (file.Oversize c ∨ (file.content.isText ∧
        ¬ (doc.hash ≠ [] ∧ file.content.hash = doc.hash))) := by
  rw [rebuilt]
  by_cases htime : doc.modifiedTime = file.info.modTime
  · rw [if_pos htime]
    exact iff_of_true rfl (.inl htime)
  · rw [if_neg htime, or_iff_right htime]
    by_cases hsize : file.Oversize c
    · simp [hsize, Pipeline.buildContentDocument]
    · rw [if_neg hsize, Pipeline.buildContentDocument]
      simp [hsize]

/-- The postings of a document after a flush are its words. -/
lemma Tracked.mem_getDocs (h : Tracked c s.index s.docs) {rel : RelPath}
    (hdoc : s.docs.lookup (c.key w rel) = some doc) {writes : List (TableId × Keyword)}
    (tick : Int64) {flush : InvertedIndex.Flush} (hwrites : writes.Perm s.index.pendingWrites.keys)
    (hflush : flush.due.Perm s.index.pendingDeletes.keys) (kw : Keyword) :
    c.docid rel ∈ getDocs (s.index.flush c.index writes tick flush).db (c.table w) kw ↔
      kw ∈ doc.words := by
  obtain ⟨L, hL, hwords⟩ := h
  rw [hL.mem_getDocs_flush hwrites tick hflush, hwords, wordsOf]
  have hdoc' : s.docs.lookup (w, c.docid rel) = some doc := hdoc
  rw [hdoc']
  rfl

/-- With the postings known, the rest of the agreement is about the stored document. -/
lemma converged_iff (h : Tracked c s.index s.docs) {rel : RelPath}
    (hdoc : s.docs.lookup (c.key w rel) = some doc) :
    Converged c s w rel file f ↔ doc.modifiedTime = file.info.modTime ∧
      (∀ kw, kw ∈ doc.words ↔ kw ∈ file.words c) ∧
        (doc.hash = [] ∨ file.content.hash = doc.hash) := by
  constructor
  · rintro ⟨doc', hdoc', htime, hpostings, -, hsymbols⟩
    obtain rfl := some.inj (hdoc.symm.trans hdoc')
    refine ⟨htime, fun kw => ?_, ?_⟩
    · rw [← hpostings s.index.pendingWrites.keys 0
        ⟨s.index.pendingDeletes.keys, fun _ => 0, InvertedIndex.inOrder⟩ (.refl _) (.refl _) kw,
        h.mem_getDocs hdoc 0 (.refl _) (.refl _) kw]
    · by_contra hhash
      rw [not_or] at hhash
      rw [Pipeline.isFileChanged, if_neg (by simp [htime]), if_neg hhash.1, if_pos hhash.2] at hsymbols
      obtain ⟨s', -, hpair⟩ := map_eq_some_iff.1 hsymbols
      exact hhash.1 (by simpa using (Prod.mk.inj hpair).2)
  · rintro ⟨htime, hwords, hhash⟩
    refine ⟨doc, hdoc, htime, ?_, ?_, ?_⟩
    · intro writes tick flush hwrites hflush kw
      rw [h.mem_getDocs hdoc tick hwrites hflush kw, hwords]
    · rw [Pipeline.refreshFileIfNeeded, if_neg (by simp [htime])]
    · rw [Pipeline.isFileChanged, if_neg (by simp [htime])]
      by_cases hempty : doc.hash = []
      · simp [hempty]
      · rw [if_neg hempty, if_neg (not_not.2 (hhash.resolve_left hempty))]
        simp [hempty]

end

/-! ### Two runs -/

/-- Every path has the id of its length. -/
def lengthIds : Config where
  path _ := [47, 119]
  table w := w
  docid rel := Int64.ofNat rel.length
  shouldIndex _ _ := true
  maxFileSize := 100
  index := {}

/-- No flush is forced. -/
def unforced : Index.Forced :=
  ⟨[], 7, ⟨[], fun _ => 7, InvertedIndex.inOrder⟩⟩

/-- A file whose only word, and whose hash, is one letter. -/
def letterFile (time : Int64) (isText : Bool) (b : UInt8) (hb : b ≠ 124) : FileState :=
  ⟨⟨1, time⟩, ⟨isText, [b], [[b]], Index.Plain.letter hb⟩⟩

lemma ninety_seven_ne : (97 : UInt8) ≠ 124 := by decide

/-- The first version of a file is indexed. -/
def indexed : List Label :=
  let file := letterFile 5 true 97 ninety_seven_ne
  [.scan 1 [102], .takeFile 0, .statFile 0 (some file.info), .lookUp 0,
    .readFile 0 (some file.content), .handOver 0, .takeBatch 1 [1] [],
    .runTask [(unforced, unforced)]]

/-- The document of the first version. -/
def indexedDoc : Document :=
  ⟨[102], 1, [97], 5, [[97]], (letterFile 5 true 97 ninety_seven_ne).content.plain⟩

/-- The run ends with nothing queued and with the document, and the next synchronisation can be
carried out. -/
lemma exists_indexed (file : FileState)
    (h : (StepSystem.exec (Pipeline.step lengthIds) (StepOk lengthIds) (.init 1) indexed).any
      (fun s => s.Quiet 0 ∧ s.docs.lookup (1, 1) = some indexedDoc ∧
        (s.syncFile lengthIds 0 1 [102] file unforced unforced).isSome ∧
        (rebuilt lengthIds indexedDoc file).all fun doc' => s.index.Ordered {}
          (.update 1 1 doc'.words unforced unforced)) = true) :
    ∃ s s', StepSystem.Run (Pipeline.step lengthIds) (StepOk lengthIds) (.init 1) indexed s ∧
      s.Quiet 0 ∧ s.docs.lookup (lengthIds.key 1 indexedDoc.relPath) = some indexedDoc ∧
      s.syncFile lengthIds 0 1 indexedDoc.relPath file unforced unforced = some s' ∧
      ∀ doc', rebuilt lengthIds indexedDoc file = some doc' → s.index.Ordered {}
        (.update 1 1 doc'.words unforced unforced) := by
  obtain ⟨s, hs, hend⟩ := (any_eq_true _ _).1 h
  obtain ⟨hquiet, hdoc, hsync, hordered⟩ := of_decide_eq_true hend
  obtain ⟨s', hs'⟩ := isSome_iff_exists.1 hsync
  refine ⟨s, s', StepSystem.Run.of_exec hs, hquiet, hdoc, hs', fun doc' hdoc' => ?_⟩
  rw [hdoc', all_some] at hordered
  exact of_decide_eq_true hordered

/-- The indexed document keeps its time when the file is synchronised, and the next refresh queues the
file again. -/
def StaysStale (file : FileState) : Prop :=
  ∃ s s', StepSystem.Run (Pipeline.step lengthIds) (StepOk lengthIds) (.init 1) indexed s ∧
    s.syncFile lengthIds 0 1 [102] file unforced unforced = some s' ∧
    s'.docs.lookup (1, 1) = some indexedDoc ∧
    s'.refreshFileIfNeeded lengthIds 1 indexedDoc (some file.info) unforced ≠ some s' ∧
    ¬ Converged lengthIds s' 1 [102] file unforced

lemma Pipeline.queueFile_ne (s : Pipeline) (w : WorkspaceId) (rel : RelPath) :
    s.queueFile w rel ≠ some s := by
  intro h
  rw [Pipeline.queueFile] at h
  split at h
  · have hparse := congrArg Pipeline.parse (some.inj h)
    simp at hparse
  · cases h

lemma staysStale_of_rebuilt {file : FileState}
    (h : (StepSystem.exec (Pipeline.step lengthIds) (StepOk lengthIds) (.init 1) indexed).any
      (fun s => s.Quiet 0 ∧ s.docs.lookup (1, 1) = some indexedDoc ∧
        (s.syncFile lengthIds 0 1 [102] file unforced unforced).isSome ∧
        (rebuilt lengthIds indexedDoc file).all fun doc' => s.index.Ordered {}
          (.update 1 1 doc'.words unforced unforced)) = true)
    (hnone : rebuilt lengthIds indexedDoc file = none)
    (htime : file.info.modTime ≠ indexedDoc.modifiedTime) : StaysStale file := by
  obtain ⟨s, s', hrun, hquiet, hdoc, hsync, -⟩ := exists_indexed file h
  have hdocs : s'.docs.lookup (lengthIds.key 1 [102]) = some indexedDoc := by
    rcases Pipeline.syncFile_cases hquiet hdoc hsync with ⟨-, hdocs, -⟩ | ⟨doc', hsome, -⟩
    · rw [hdocs]
      exact hdoc
    · exact absurd (hnone.symm.trans hsome) (by simp)
  refine ⟨s, s', hrun, hsync, hdocs, ?_, ?_⟩
  · rw [Pipeline.refreshFileIfNeeded, if_pos htime]
    exact s'.queueFile_ne 1 indexedDoc.relPath
  · rintro ⟨doc, hlookup, hmod, -⟩
    obtain rfl := some.inj (hdocs.symm.trans hlookup)
    exact htime hmod.symm

end Haystack.Indexer
