import Haystack.Indexer.Pipeline

/-!
# Shutting the indexer down

The scanner queues the files of a workspace and then records a full sync; the workers parse what is
in the channel and hand documents to the writer. On shutdown the scanner, the workers and the writer
are stopped in this order, each after the one before it is done. A worker that is told to stop may
do so although there are files in the channel; the writer empties its channel first.
-/

namespace Haystack.Indexer

open List

/-- A file in the parser channel: the scan that queued it, or none for a request, and a number of
its own. -/
structure QueuedFile where
  ticket : ℕ
  scan : Option ℕ
  workspace : WorkspaceId
  relPath : RelPath
  deriving DecidableEq

/-- A document on its way to the writer. -/
structure ParsedDoc where
  file : QueuedFile
  document : Document
  createNew : Bool
  deriving DecidableEq

/-- Where the scanner stands: it has found no workspace in its queue when it waits. -/
inductive ScannerState
  | idle
  | waiting
  | scanning (scan : ℕ) (w : WorkspaceId) (interrupted : Bool)
  | exited
  deriving DecidableEq

/-- Where a worker stands. -/
inductive ParserState
  | idle
  | parsing (file : QueuedFile)
  | handing (doc : ParsedDoc)
  | exited
  deriving DecidableEq

/-- Where the writer stands. -/
inductive WriterState
  | running
  | writing (batch : List ParsedDoc)
  | draining
  | drainWriting (batch : List ParsedDoc)
  | exited
  deriving DecidableEq

/-- The three stages and the shutdown. The last five fields are history variables: the files queued,
the scans whose full sync was recorded, the files parsed, the documents that parsing gave, and those
passed to `SaveNewDocuments` or `UpdateDocuments`. -/
structure Stages where
  jobs : List WorkspaceId
  nextScan : ℕ
  nextTicket : ℕ
  scanner : ScannerState
  parse : List QueuedFile
  workers : List ParserState
  write : List ParsedDoc
  writer : WriterState
  deleted : List WorkspaceId
  shuttingDown : Bool
  stopScanner : Bool
  stopParser : Bool
  stopWriter : Bool
  queued : List QueuedFile
  recorded : List (ℕ × WorkspaceId)
  parsed : List QueuedFile
  gave : List ParsedDoc
  handed : List ParsedDoc

namespace Stages

/-- A fresh process with `n` workers. -/
def init (n : ℕ) : Stages :=
  ⟨[], 0, 0, .idle, [], List.replicate n .idle, [], .running, [], false, false, false, false, [], [],
    [], [], []⟩

variable (s : Stages)

/-- `Parser.Add`; it waits while the channel is full. -/
def add (scan : Option ℕ) (w : WorkspaceId) (rel : RelPath) : Option Stages :=
  if s.parse.length < 32 then
    some { s with
      nextTicket := s.nextTicket + 1
      parse := s.parse ++ [⟨s.nextTicket, scan, w, rel⟩]
      queued := ⟨s.nextTicket, scan, w, rel⟩ :: s.queued }
  else none

/-! ### The scanner -/

/-- `tryPopJob`: the scanner takes the next workspace, or waits. -/
def popJob : Option Stages :=
  if s.scanner = .idle then
    match s.jobs with
    | [] => some { s with scanner := .waiting }
    | w :: jobs =>
      some { s with
        jobs := jobs, nextScan := s.nextScan + 1, scanner := .scanning s.nextScan w false }
  else none

/-- One file of the scan. A file that is not indexable is passed over; another one is queued if it
matches the include filter, and the scan ends if the process is shutting down. -/
def scanFile (rel : RelPath) (indexable included : Bool) : Option Stages :=
  match s.scanner with
  | .scanning scan w false =>
    if w ∈ s.deleted then none
    else if !indexable then some s
    else
      (if included then s.add (some scan) w rel else some s).map fun s =>
        { s with scanner := .scanning scan w s.shuttingDown }
  | _ => none

/-- The end of a scan: the full sync is recorded unless listing the files failed, the scan was
interrupted or its workspace is deleted. -/
def endScan (failed : Bool) : Option Stages :=
  match s.scanner with
  | .scanning scan w interrupted =>
    if failed ∨ interrupted ∨ w ∈ s.deleted then some { s with scanner := .idle }
    else some { s with scanner := .idle, recorded := (scan, w) :: s.recorded }
  | _ => none

/-- The wait of the scanner ends after 100 ms, or with the stop signal. -/
def wakeScanner (stop : Bool) : Option Stages :=
  if s.scanner = .waiting then
    if stop then if s.stopScanner then some { s with scanner := .exited } else none
    else some { s with scanner := .idle }
  else none

/-! ### Workers -/

def takeFile (i : ℕ) : Option Stages :=
  match s.workers[i]?, s.parse with
  | some .idle, file :: rest =>
    some { s with parse := rest, workers := s.workers.set i (.parsing file) }
  | _, _ => none

/-- `parse` returns: with an error or without a document, or with a document. -/
def parseFile (i : ℕ) (result : Option (Document × Bool)) : Option Stages :=
  match s.workers[i]? with
  | some (.parsing file) =>
    match result with
    | none => some { s with parsed := file :: s.parsed, workers := s.workers.set i .idle }
    | some (document, createNew) =>
      some { s with
        parsed := file :: s.parsed
        gave := ⟨file, document, createNew⟩ :: s.gave
        workers := s.workers.set i (.handing ⟨file, document, createNew⟩) }
  | _ => none

/-- `Writer.Add`; it drops documents of deleted workspaces and waits while the channel is full. -/
def handOver (i : ℕ) : Option Stages :=
  match s.workers[i]? with
  | some (.handing doc) =>
    if doc.file.workspace ∈ s.deleted then some { s with workers := s.workers.set i .idle }
    else if s.write.length < 64 then
      some { s with write := s.write ++ [doc], workers := s.workers.set i .idle }
    else none
  | _ => none

/-- A worker that is between two files sees the stop signal. -/
def exitWorker (i : ℕ) : Option Stages :=
  if s.workers[i]? = some .idle ∧ s.stopParser then
    some { s with workers := s.workers.set i .exited }
  else none

/-! ### The writer -/

/-- The writer takes up to eight documents. -/
def takeBatch (n : ℕ) : Option Stages :=
  if 1 ≤ n ∧ n ≤ 8 ∧ n ≤ s.write.length then
    match s.writer with
    | .running => some { s with write := s.write.drop n, writer := .writing (s.write.take n) }
    | .draining => some { s with write := s.write.drop n, writer := .drainWriting (s.write.take n) }
    | _ => none
  else none

/-- The documents of a batch whose workspaces are not deleted are saved. -/
def live (batch : List ParsedDoc) : List ParsedDoc :=
  batch.filter fun doc => doc.file.workspace ∉ s.deleted

def processDocs : Option Stages :=
  match s.writer with
  | .writing batch => some { s with writer := .running, handed := s.live batch ++ s.handed }
  | .drainWriting batch => some { s with writer := .draining, handed := s.live batch ++ s.handed }
  | _ => none

/-- The writer sees the stop signal. -/
def drainWriter : Option Stages :=
  if s.writer = .running ∧ s.stopWriter then some { s with writer := .draining } else none

def exitWriter : Option Stages :=
  if s.writer = .draining ∧ s.write = [] then some { s with writer := .exited } else none

end Stages

/-- The steps. The stop signals are given in the order in which `Run` stops the components. -/
inductive StageLabel
  | sync (w : WorkspaceId)
  | request (w : WorkspaceId) (rel : RelPath)
  | deleteWorkspace (w : WorkspaceId)
  | popJob
  | scanFile (rel : RelPath) (indexable included : Bool)
  | endScan (failed : Bool)
  | wakeScanner (stop : Bool)
  | takeFile (i : ℕ)
  | parseFile (i : ℕ) (result : Option (Document × Bool))
  | handOver (i : ℕ)
  | exitWorker (i : ℕ)
  | takeBatch (n : ℕ)
  | processDocs
  | drainWriter
  | exitWriter
  | shutdown
  | stopScanner
  | stopParser
  | stopWriter

def Stages.step (s : Stages) : StageLabel → Option Stages
  | .sync w => some { s with jobs := s.jobs ++ [w] }
  | .request w rel => s.add none w rel
  | .deleteWorkspace w => some { s with deleted := w :: s.deleted }
  | .popJob => s.popJob
  | .scanFile rel indexable included => s.scanFile rel indexable included
  | .endScan failed => s.endScan failed
  | .wakeScanner stop => s.wakeScanner stop
  | .takeFile i => s.takeFile i
  | .parseFile i result => s.parseFile i result
  | .handOver i => s.handOver i
  | .exitWorker i => s.exitWorker i
  | .takeBatch n => s.takeBatch n
  | .processDocs => s.processDocs
  | .drainWriter => s.drainWriter
  | .exitWriter => s.exitWriter
  | .shutdown => some { s with shuttingDown := true }
  | .stopScanner => if s.shuttingDown then some { s with stopScanner := true } else none
  | .stopParser => if s.scanner = .exited then some { s with stopParser := true } else none
  | .stopWriter =>
    if s.stopParser ∧ ∀ w ∈ s.workers, w = .exited then some { s with stopWriter := true } else none

/-! ### Where files and documents are -/

def ParserState.file? : ParserState → Option QueuedFile
  | .parsing file => some file
  | .handing doc => some doc.file
  | _ => none

/-- The documents that the writer is working on. -/
def WriterState.batch : WriterState → List ParsedDoc
  | .writing batch => batch
  | .drainWriting batch => batch
  | _ => []

namespace Stages

variable (s : Stages)

/-- The files that are on their way through the stages. -/
def inFlight : List QueuedFile :=
  s.parse ++ s.workers.filterMap ParserState.file? ++ (s.write ++ s.writer.batch).map (·.file)

/-- The file was queued by a scan whose full sync is recorded. -/
def IsRecorded (file : QueuedFile) : Prop :=
  file.scan ∈ s.recorded.map fun r => some r.1

instance (file : QueuedFile) : Decidable (s.IsRecorded file) :=
  inferInstanceAs (Decidable (file.scan ∈ s.recorded.map fun r => some r.1))

end Stages

/-- The last worker stops only when the channel has no file of a recorded scan, and a workspace is
deleted only when no file of a recorded scan of it is on its way. -/
def StageOk (s : Stages) : StageLabel → Prop
  | .exitWorker i =>
    (∀ w ∈ s.workers.eraseIdx i, w = .exited) → ∀ file ∈ s.parse, ¬s.IsRecorded file
  | .deleteWorkspace w => ∀ file ∈ s.inFlight, file.workspace = w → ¬s.IsRecorded file
  | _ => True

instance (s : Stages) : DecidablePred (StageOk s) := fun l => by
  cases l <;> dsimp only [StageOk] <;> infer_instance

/-! ### What a step does -/

variable {i : ℕ} {result : Option (Document × Bool)}

namespace Stages

variable {s s' : Stages}

lemma exists_of_add {scan : Option ℕ} {w : WorkspaceId} {rel : RelPath}
    (h : s.add scan w rel = some s') : ∃ file : QueuedFile, file.scan = scan ∧ file.workspace = w ∧
      s' = { s with
        nextTicket := s.nextTicket + 1, parse := s.parse ++ [file], queued := file :: s.queued } := by
  unfold add at h
  split at h
  · exact ⟨_, rfl, rfl, (Option.some.inj h).symm⟩
  · cases h

lemma popJob_cases (h : s.popJob = some s') : s.scanner = .idle ∧
    (s' = { s with scanner := .waiting } ∨ ∃ w jobs, s' = { s with
      jobs := jobs, nextScan := s.nextScan + 1, scanner := .scanning s.nextScan w false }) := by
  unfold popJob at h
  split at h
  case isFalse => cases h
  case isTrue hidle =>
    split at h <;> cases h
    · exact ⟨hidle, .inl rfl⟩
    · exact ⟨hidle, .inr ⟨_, _, rfl⟩⟩

lemma scanFile_cases {rel : RelPath} {indexable included : Bool}
    (h : s.scanFile rel indexable included = some s') :
    ∃ scan w, s.scanner = .scanning scan w false ∧ w ∉ s.deleted ∧
      (s' = s ∨ ∃ s₁, (s₁ = s ∨ s.add (some scan) w rel = some s₁) ∧
        s' = { s₁ with scanner := .scanning scan w s₁.shuttingDown }) := by
  unfold scanFile at h
  split at h
  case h_2 => cases h
  case h_1 scan w hscan =>
    refine ⟨scan, w, hscan, ?_⟩
    split_ifs at h with hdel hindex hincl
    · exact ⟨hdel, .inl (Option.some.inj h).symm⟩
    · obtain ⟨s₁, h₁, rfl⟩ := Option.map_eq_some_iff.1 h
      exact ⟨hdel, .inr ⟨s₁, .inr h₁, rfl⟩⟩
    · obtain ⟨s₁, h₁, rfl⟩ := Option.map_eq_some_iff.1 h
      exact ⟨hdel, .inr ⟨s₁, .inl (Option.some.inj h₁).symm, rfl⟩⟩

lemma endScan_cases {failed : Bool} (h : s.endScan failed = some s') :
    ∃ scan w i, s.scanner = .scanning scan w i ∧ (s' = { s with scanner := .idle } ∨
      w ∉ s.deleted ∧ s' = { s with scanner := .idle, recorded := (scan, w) :: s.recorded }) := by
  unfold endScan at h
  split at h
  case h_2 => cases h
  case h_1 scan w i hscan =>
    refine ⟨scan, w, i, hscan, ?_⟩
    split_ifs at h with hend <;> cases h
    · exact .inl rfl
    · exact .inr ⟨fun hw => hend (.inr (.inr hw)), rfl⟩

lemma wakeScanner_cases {stop : Bool} (h : s.wakeScanner stop = some s') : s.scanner = .waiting ∧
    (s' = { s with scanner := .exited } ∨ s' = { s with scanner := .idle }) := by
  unfold wakeScanner at h
  split_ifs at h with hwait <;> cases h
  · exact ⟨hwait, .inl rfl⟩
  · exact ⟨hwait, .inr rfl⟩

lemma takeFile_cases (h : s.takeFile i = some s') : ∃ file rest,
    s.workers[i]? = some .idle ∧ s.parse = file :: rest ∧
      s' = { s with parse := rest, workers := s.workers.set i (.parsing file) } := by
  unfold takeFile at h
  split at h <;> cases h
  exact ⟨_, _, ‹_›, ‹_›, rfl⟩

lemma parseFile_cases (h : s.parseFile i result = some s') :
    ∃ file, s.workers[i]? = some (.parsing file) ∧
      (s' = { s with parsed := file :: s.parsed, workers := s.workers.set i .idle } ∨
      ∃ doc : ParsedDoc, doc.file = file ∧ s' = { s with
        parsed := file :: s.parsed, gave := doc :: s.gave
        workers := s.workers.set i (.handing doc) }) := by
  unfold parseFile at h
  split at h
  case h_2 => cases h
  case h_1 file hi =>
    split at h <;> cases h
    · exact ⟨file, hi, .inl rfl⟩
    · exact ⟨file, hi, .inr ⟨_, rfl, rfl⟩⟩

lemma handOver_cases (h : s.handOver i = some s') : ∃ doc,
    s.workers[i]? = some (.handing doc) ∧
      (doc.file.workspace ∈ s.deleted ∧ s' = { s with workers := s.workers.set i .idle } ∨
      s' = { s with write := s.write ++ [doc], workers := s.workers.set i .idle }) := by
  unfold handOver at h
  split at h
  case h_2 => cases h
  case h_1 doc hi =>
    split_ifs at h with hdel <;> cases h
    · exact ⟨doc, hi, .inl ⟨hdel, rfl⟩⟩
    · exact ⟨doc, hi, .inr rfl⟩

lemma takeBatch_cases {n : ℕ} (h : s.takeBatch n = some s') :
    (s.writer = .running ∧
      s' = { s with write := s.write.drop n, writer := .writing (s.write.take n) }) ∨
    s.writer = .draining ∧
      s' = { s with write := s.write.drop n, writer := .drainWriting (s.write.take n) } := by
  unfold takeBatch at h
  split at h
  case isFalse => cases h
  case isTrue =>
    split at h <;> cases h
    · exact .inl ⟨‹_›, rfl⟩
    · exact .inr ⟨‹_›, rfl⟩

lemma processDocs_cases (h : s.processDocs = some s') : ∃ batch,
    (s.writer = .writing batch ∧
      s' = { s with writer := .running, handed := s.live batch ++ s.handed }) ∨
    s.writer = .drainWriting batch ∧
      s' = { s with writer := .draining, handed := s.live batch ++ s.handed } := by
  unfold processDocs at h
  split at h <;> cases h
  · exact ⟨_, .inl ⟨‹_›, rfl⟩⟩
  · exact ⟨_, .inr ⟨‹_›, rfl⟩⟩

end Stages

/-! ### The stages end one after the other -/

/-- What has stopped, in the order of the shutdown. -/
structure Ending (s : Stages) : Prop where
  scanner : s.stopParser → s.scanner = .exited
  workers : .exited ∈ s.workers → s.stopParser
  drained : (∀ w ∈ s.workers, w = .exited) → ∀ file ∈ s.parse, ¬s.IsRecorded file
  stopped : s.stopWriter → ∀ w ∈ s.workers, w = .exited
  draining : s.writer = .draining → s.stopWriter
  drainWriting : ∀ {batch}, s.writer = .drainWriting batch → s.stopWriter
  writer : s.writer = .exited → s.stopWriter ∧ s.write = []
  nonempty : s.workers ≠ []

/-- The scans that have begun, with the files they have queued. -/
structure Numbered (s : Stages) : Prop where
  queued : ∀ file ∈ s.queued, ∀ scan ∈ file.scan, scan < s.nextScan
  recorded : ∀ r ∈ s.recorded, r.1 < s.nextScan
  scanning : ∀ {scan w i}, s.scanner = .scanning scan w i → scan < s.nextScan ∧
    (∀ r ∈ s.recorded, r.1 ≠ scan) ∧ ∀ file ∈ s.queued, file.scan = some scan → file.workspace = w

/-- Nothing gets lost between the stages, unless its workspace is deleted. -/
structure Flowing (s : Stages) : Prop where
  known : ∀ file ∈ s.inFlight, file ∈ s.queued
  files : ∀ file ∈ s.queued, file ∈ s.parse ∨ .parsing file ∈ s.workers ∨ file ∈ s.parsed
  gave : ∀ doc ∈ s.gave, doc.file ∈ s.queued
  docs : ∀ doc ∈ s.gave, (doc.file.workspace ∈ s.deleted ∧ ¬s.IsRecorded doc.file) ∨
    .handing doc ∈ s.workers ∨ doc ∈ s.write ++ s.writer.batch ∨ doc ∈ s.handed
  quiet : ∀ file ∈ s.inFlight, file.workspace ∈ s.deleted → ¬s.IsRecorded file

variable {s s' : Stages} {l : StageLabel} {ws : List ParserState}

lemma mem_set_of_ne {α : Type*} {ws : List α} {w v x : α} (hi : ws[i]? = some w) (hx : x ∈ ws)
    (hne : x ≠ w) : x ∈ ws.set i v := by
  obtain ⟨j, hj⟩ := mem_iff_getElem?.1 hx
  have hij : i ≠ j := by
    rintro rfl
    exact hne (Option.some.inj (hj.symm.trans hi))
  exact List.mem_iff_getElem?.2 ⟨j, by rw [List.getElem?_set_ne hij, hj]⟩

lemma mem_set_self {α : Type*} {ws : List α} {w : α} (hi : ws[i]? = some w) (v : α) :
    v ∈ ws.set i v :=
  List.mem_iff_getElem?.2 ⟨i, List.getElem?_set_self (List.getElem?_eq_some_iff.1 hi).1⟩

lemma ne_exited_of_set {v v' : ParserState} (hi : ws[i]? = some v) (hv' : v' ≠ .exited) :
    ¬∀ w ∈ ws.set i v', w = .exited :=
  fun hall => hv' (hall v' (mem_set_self hi v'))

lemma exited_mem_of_set {v : ParserState} (hv : v ≠ .exited) (h : .exited ∈ ws.set i v) :
    .exited ∈ ws :=
  (mem_or_eq_of_mem_set h).resolve_right hv.symm

/-- A worker that is not at its end goes on to another state. -/
lemma Ending.setWorker {v v' : ParserState} (h : Ending s) (hi : s.workers[i]? = some v)
    (hv : v ≠ .exited) (hv' : v' ≠ .exited) (parse : List QueuedFile) (write : List ParsedDoc) :
    Ending { s with parse := parse, write := write, workers := s.workers.set i v' } where
  scanner := h.scanner
  workers hmem := h.workers (exited_mem_of_set hv' hmem)
  drained hall := absurd hall (ne_exited_of_set hi hv')
  stopped hstop := absurd (h.stopped hstop v (mem_of_getElem? hi)) hv
  draining := h.draining
  drainWriting := h.drainWriting
  writer hw := absurd (h.stopped (h.writer hw).1 v (mem_of_getElem? hi)) hv
  nonempty := by simpa using h.nonempty

/-- Once every worker has stopped, so has the scanner. -/
lemma Ending.scanner_exited (h : Ending s) (hall : ∀ w ∈ s.workers, w = .exited) :
    s.scanner = .exited := by
  obtain ⟨w, hw⟩ := exists_mem_of_ne_nil _ h.nonempty
  exact h.scanner (h.workers (hall w hw ▸ hw))

lemma Ending.exitWorker (h : Ending s) (hok : StageOk s (.exitWorker i))
    (hi : s.workers[i]? = some .idle) (hstop : s.stopParser) :
    Ending { s with workers := s.workers.set i .exited } where
  scanner := h.scanner
  workers _ := hstop
  drained hall := hok fun w hw => by
    obtain ⟨j, hne, hj⟩ := mem_eraseIdx_iff_getElem?.1 hw
    exact hall w (mem_iff_getElem?.2 ⟨j, by rw [getElem?_set_ne hne.symm, hj]⟩)
  stopped hw := absurd (h.stopped hw _ (mem_of_getElem? hi)) (by simp)
  draining := h.draining
  drainWriting := h.drainWriting
  writer := h.writer
  nonempty := by simpa using h.nonempty

/-! ### Nothing gets lost -/

lemma Stages.mem_inFlight {file : QueuedFile} : file ∈ s.inFlight ↔ file ∈ s.parse ∨
    (∃ w ∈ s.workers, w.file? = some file) ∨ ∃ doc ∈ s.write ++ s.writer.batch, doc.file = file := by
  simp only [Stages.inFlight, mem_append, mem_filterMap, mem_map, or_assoc]

/-- A step that only moves what is in flight keeps the facts about what that is. -/
lemma Flowing.move (h : Flowing s) (hsub : s'.inFlight ⊆ s.inFlight)
    (hqueued : s'.queued = s.queued) (hrec : s'.recorded = s.recorded)
    (hdel : s'.deleted = s.deleted)
    (hfiles : ∀ file ∈ s.queued, file ∈ s'.parse ∨ .parsing file ∈ s'.workers ∨ file ∈ s'.parsed)
    (hgave : ∀ doc ∈ s'.gave, doc.file ∈ s.queued)
    (hdocs : ∀ doc ∈ s'.gave, (doc.file.workspace ∈ s.deleted ∧ ¬s.IsRecorded doc.file) ∨
      .handing doc ∈ s'.workers ∨ doc ∈ s'.write ++ s'.writer.batch ∨ doc ∈ s'.handed) :
    Flowing s' where
  known file hf := hqueued ▸ h.known file (hsub hf)
  files := hqueued ▸ hfiles
  gave := hqueued ▸ hgave
  docs := by simpa only [Stages.IsRecorded, hdel, hrec] using hdocs
  quiet file hf hw := by
    simpa only [Stages.IsRecorded, hrec] using h.quiet file (hsub hf) (hdel ▸ hw)

/-- What is in flight after a worker has gone on to another state. -/
lemma Stages.inFlight_setWorker {t : Stages} {w v : ParserState} (hi : s.workers[i]? = some w)
    (hws : t.workers = s.workers.set i v) (hbatch : t.writer = s.writer)
    (hparse : ∀ f ∈ t.parse, f ∈ s.parse ∨ w.file? = some f)
    (hv : ∀ f, v.file? = some f → f ∈ s.parse ∨ w.file? = some f)
    (hwrite : ∀ d ∈ t.write, d ∈ s.write ∨ w.file? = some d.file) : t.inFlight ⊆ s.inFlight := by
  have hw {f} (h : f ∈ s.parse ∨ w.file? = some f) : f ∈ s.inFlight :=
    mem_inFlight.2 (h.imp_right fun h => .inl ⟨w, mem_of_getElem? hi, h⟩)
  intro f hf
  obtain hf | ⟨u, hu, hf⟩ | ⟨d, hd, rfl⟩ := mem_inFlight.1 hf
  · exact hw (hparse f hf)
  · obtain hu | rfl := mem_or_eq_of_mem_set (hws ▸ hu)
    · exact mem_inFlight.2 (.inr (.inl ⟨u, hu, hf⟩))
    · exact hw (hv f hf)
  · obtain hd | hd := mem_append.1 hd
    · obtain hd | hd := hwrite d hd
      · exact mem_inFlight.2 (.inr (.inr ⟨d, mem_append_left _ hd, rfl⟩))
      · exact hw (.inr hd)
    · exact mem_inFlight.2 (.inr (.inr ⟨d, mem_append_right _ (hbatch ▸ hd), rfl⟩))

namespace Flowing

lemma takeFile (h : Flowing s) (hstep : s.takeFile i = some s') : Flowing s' := by
  obtain ⟨file, rest, hi, hparse, rfl⟩ := Stages.takeFile_cases hstep
  refine h.move (Stages.inFlight_setWorker hi rfl rfl (by simp +contextual [hparse])
    (by simp [ParserState.file?, hparse]) fun d hd => .inl hd) rfl rfl rfl (fun f hf => ?_) h.gave
    fun doc hdoc => ?_
  · have hset := mem_set_self hi (.parsing file)
    have := h.files f hf
    grind [mem_set_of_ne]
  · have := h.docs doc hdoc
    grind [mem_set_of_ne]

lemma parseFile (h : Flowing s) (hstep : s.parseFile i result = some s') : Flowing s' := by
  obtain ⟨file, hi, rfl | ⟨doc, rfl, rfl⟩⟩ := Stages.parseFile_cases hstep
  · refine h.move (Stages.inFlight_setWorker hi rfl rfl (fun f hf => .inl hf)
      (by simp [ParserState.file?]) fun d hd => .inl hd) rfl rfl rfl (fun f hf => ?_) h.gave
      fun doc hdoc => ?_
    · have := h.files f hf
      grind [mem_set_of_ne]
    · have := h.docs doc hdoc
      grind [mem_set_of_ne]
  · have hdoc := h.known doc.file (Stages.mem_inFlight.2
      (.inr (.inl ⟨_, mem_of_getElem? hi, rfl⟩)))
    refine h.move (Stages.inFlight_setWorker hi rfl rfl (fun f hf => .inl hf)
      (fun f hf => .inr hf) fun d hd => .inl hd) rfl rfl rfl (fun f hf => ?_)
      (forall_mem_cons.2 ⟨hdoc, h.gave⟩) fun d hd => ?_
    · have := h.files f hf
      grind [mem_set_of_ne]
    · have hset := mem_set_self hi (.handing doc)
      have := h.docs d
      grind [mem_set_of_ne]

lemma handOver (h : Flowing s) (hstep : s.handOver i = some s') : Flowing s' := by
  obtain ⟨doc, hi, ⟨hdel, rfl⟩ | rfl⟩ := Stages.handOver_cases hstep
  · have hquiet := h.quiet doc.file (Stages.mem_inFlight.2
      (.inr (.inl ⟨_, mem_of_getElem? hi, rfl⟩))) hdel
    refine h.move (Stages.inFlight_setWorker hi rfl rfl (fun f hf => .inl hf)
      (by simp [ParserState.file?]) fun d hd => .inl hd) rfl rfl rfl (fun f hf => ?_) h.gave
      fun d hd => ?_
    · have := h.files f hf
      grind [mem_set_of_ne]
    · have := h.docs d hd
      grind [mem_set_of_ne]
  · refine h.move (Stages.inFlight_setWorker hi rfl rfl (fun f hf => .inl hf)
      (by simp [ParserState.file?]) (by simp [ParserState.file?]; grind)) rfl rfl rfl
      (fun f hf => ?_) h.gave fun d hd => ?_
    · have := h.files f hf
      grind [mem_set_of_ne]
    · have := h.docs d hd
      grind [mem_set_of_ne]

lemma exitWorker (h : Flowing s) (hi : s.workers[i]? = some .idle) :
    Flowing { s with workers := s.workers.set i .exited } := by
  refine h.move (Stages.inFlight_setWorker hi rfl rfl (fun f hf => .inl hf)
    (by simp [ParserState.file?]) fun d hd => .inl hd) rfl rfl rfl (fun f hf => ?_) h.gave
    fun d hd => ?_
  · have := h.files f hf
    grind [mem_set_of_ne]
  · have := h.docs d hd
    grind [mem_set_of_ne]

lemma takeBatch {n : ℕ} (h : Flowing s) (hstep : s.takeBatch n = some s') : Flowing s' := by
  have hsplit : ∀ d, d ∈ s.write ↔ d ∈ s.write.drop n ++ s.write.take n := fun d => by
    rw [mem_append, or_comm, ← mem_append, take_append_drop]
  obtain ⟨hw, rfl⟩ | ⟨hw, rfl⟩ := Stages.takeBatch_cases hstep
  all_goals
    refine h.move (fun f hf => ?_) rfl rfl rfl h.files h.gave fun d hd => ?_
    · simpa [Stages.mem_inFlight, WriterState.batch, hw, hsplit] using hf
    · simpa [WriterState.batch, hw, hsplit] using h.docs d hd

lemma processDocs (h : Flowing s) (hstep : s.processDocs = some s') : Flowing s' := by
  obtain ⟨batch, ⟨hw, rfl⟩ | ⟨hw, rfl⟩⟩ := Stages.processDocs_cases hstep
  all_goals
    refine h.move (fun f hf => ?_) rfl rfl rfl h.files h.gave fun d hd => ?_
    · simp only [Stages.mem_inFlight, WriterState.batch, hw] at hf ⊢
      grind
    · have hdoc := h.docs d hd
      have hquiet := h.quiet d.file
      simp only [Stages.mem_inFlight, WriterState.batch, hw, Stages.live] at hdoc hquiet ⊢
      grind

/-- The writer goes on without a change to what it works on. -/
lemma setWriter {v : WriterState} (h : Flowing s) (hv : v.batch = s.writer.batch) :
    Flowing { s with writer := v } := by
  refine h.move (fun f hf => ?_) rfl rfl rfl h.files h.gave fun d hd => ?_
  · simpa [Stages.mem_inFlight, hv] using hf
  · simpa [hv] using h.docs d hd

/-- A file is queued, by a request or by the scan that is going on. -/
lemma add {file : QueuedFile} (h : Flowing s) (hrec : ¬s.IsRecorded file) (n : ℕ) :
    Flowing { s with
      nextTicket := n, parse := s.parse ++ [file], queued := file :: s.queued } where
  known f hf := by
    have := h.known f
    simp only [Stages.mem_inFlight] at hf this
    grind
  files f hf := by
    have := h.files f
    grind
  gave d hd := mem_cons_of_mem _ (h.gave d hd)
  docs := h.docs
  quiet f hf hw := by
    have := h.quiet f
    simp only [Stages.mem_inFlight] at hf this
    simp only [Stages.IsRecorded] at this hrec ⊢
    grind

lemma endScan {failed : Bool} (h : Flowing s) (hn : Numbered s)
    (hstep : s.endScan failed = some s') : Flowing s' := by
  obtain ⟨scan, w, i, hscan, rfl | ⟨hdel, rfl⟩⟩ := Stages.endScan_cases hstep
  · exact { h with }
  -- the workspace of the scan is not deleted, so none of its files was dropped
  have hown : ∀ file ∈ s.queued, file.workspace ∈ s.deleted → file.scan ≠ some scan :=
    fun file hf hw hfile => hdel ((hn.scanning hscan).2.2 file hf hfile ▸ hw)
  have hrec : ∀ file ∈ s.queued, file.workspace ∈ s.deleted → ¬s.IsRecorded file →
      ¬Stages.IsRecorded { s with scanner := .idle, recorded := (scan, w) :: s.recorded } file := by
    intro file hf hw hfile
    simpa [Stages.IsRecorded, hown file hf hw] using hfile
  exact { h with
    docs := fun d hd => (h.docs d hd).imp_left fun hd' =>
      ⟨hd'.1, hrec d.file (h.gave d hd) hd'.1 hd'.2⟩
    quiet := fun f hf hw => hrec f (h.known f hf) hw (h.quiet f hf hw) }

lemma deleteWorkspace {w : WorkspaceId} (h : Flowing s) (hok : StageOk s (.deleteWorkspace w)) :
    Flowing { s with deleted := w :: s.deleted } :=
  { h with
    docs := fun d hd => (h.docs d hd).imp_left fun hd' => ⟨mem_cons_of_mem _ hd'.1, hd'.2⟩
    quiet := fun f hf hw => (mem_cons.1 hw).elim (hok f hf) (h.quiet f hf) }

end Flowing

/-! ### Steps -/

/-- What holds in every state of a run. -/
structure Stages.Sound (s : Stages) : Prop where
  numbered : Numbered s
  ending : Ending s
  flowing : Flowing s

theorem Stages.Sound.step (h : s.Sound) (hok : StageOk s l) (hstep : s.step l = some s') :
    s'.Sound := by
  obtain ⟨hn, he, hf⟩ := h
  have ⟨hqueued, hrecorded, hscanning⟩ := hn
  have hlast := he.scanner_exited
  cases l with
  | request w rel =>
    obtain ⟨file, hscan, -, rfl⟩ := Stages.exists_of_add hstep
    refine ⟨by constructor <;> grind, { he with drained := fun hall f hf => ?_ },
      hf.add (by simp [Stages.IsRecorded, hscan]) _⟩
    obtain hf | rfl := mem_append.1 hf |>.imp_right mem_singleton.1
    · exact he.drained hall f hf
    · simp [Stages.IsRecorded, hscan]
  | popJob =>
    obtain ⟨hidle, rfl | ⟨w, jobs, rfl⟩⟩ := Stages.popJob_cases hstep
    all_goals exact ⟨by constructor <;> grind,
      { he with scanner := fun hstop => by simp [he.scanner hstop] at hidle }, { hf with }⟩
  | scanFile rel indexable included =>
    obtain ⟨scan, w, hscan, -, rfl | ⟨s₁, rfl | hadd, rfl⟩⟩ := Stages.scanFile_cases hstep
    · exact ⟨hn, he, hf⟩
    · exact ⟨by constructor <;> grind,
        { he with scanner := fun hstop => by simp [he.scanner hstop] at hscan }, { hf with }⟩
    · obtain ⟨file, hfile, hw, rfl⟩ := Stages.exists_of_add hadd
      have hrec : ¬s.IsRecorded file := by
        simpa [Stages.IsRecorded, hfile] using fun w hw => (hscanning hscan).2.1 (scan, w) hw rfl
      exact ⟨by constructor <;> grind, { he with
        scanner := fun hstop => by simp [he.scanner hstop] at hscan
        drained := fun hall => by simp [hlast hall] at hscan },
        { hf.add hrec (s.nextTicket + 1) with }⟩
  | endScan failed =>
    have hf' := hf.endScan hn hstep
    obtain ⟨scan, w, i, hscan, rfl | ⟨-, rfl⟩⟩ := Stages.endScan_cases hstep
    · exact ⟨by constructor <;> grind,
        { he with scanner := fun hstop => by simp [he.scanner hstop] at hscan }, hf'⟩
    · exact ⟨by constructor <;> grind, { he with
        scanner := fun hstop => by simp [he.scanner hstop] at hscan
        drained := fun hall => by simp [hlast hall] at hscan }, hf'⟩
  | wakeScanner stop =>
    obtain ⟨hwait, rfl | rfl⟩ := Stages.wakeScanner_cases hstep
    all_goals exact ⟨by constructor <;> grind,
      { he with scanner := fun hstop => by simp [he.scanner hstop] at hwait }, { hf with }⟩
  | takeFile i =>
    have hf' := hf.takeFile hstep
    obtain ⟨file, rest, hi, -, rfl⟩ := Stages.takeFile_cases hstep
    exact ⟨{ hn with }, he.setWorker hi (by simp) (by simp) rest s.write, hf'⟩
  | parseFile i result =>
    have hf' := hf.parseFile hstep
    obtain ⟨file, hi, rfl | ⟨doc, -, rfl⟩⟩ := Stages.parseFile_cases hstep
    all_goals exact
      ⟨{ hn with }, { he.setWorker hi (by simp) (by simp) s.parse s.write with }, hf'⟩
  | handOver i =>
    have hf' := hf.handOver hstep
    obtain ⟨doc, hi, ⟨-, rfl⟩ | rfl⟩ := Stages.handOver_cases hstep
    · exact ⟨{ hn with }, he.setWorker hi (by simp) (by simp) s.parse s.write, hf'⟩
    · exact ⟨{ hn with }, he.setWorker hi (by simp) (by simp) s.parse _, hf'⟩
  | exitWorker i =>
    obtain ⟨⟨hi, hstop⟩, hs'⟩ := Option.ite_none_right_eq_some.1 hstep
    cases hs'
    exact ⟨{ hn with }, he.exitWorker hok hi hstop, hf.exitWorker hi⟩
  | takeBatch n =>
    have hf' := hf.takeBatch hstep
    obtain ⟨hw, rfl⟩ | ⟨hw, rfl⟩ := Stages.takeBatch_cases hstep
    · exact ⟨{ hn with }, { he with
        draining := by simp, drainWriting := by simp, writer := by simp }, hf'⟩
    · exact ⟨{ hn with }, { he with
        draining := by simp, drainWriting := fun _ => he.draining hw, writer := by simp }, hf'⟩
  | processDocs =>
    have hf' := hf.processDocs hstep
    obtain ⟨batch, ⟨hw, rfl⟩ | ⟨hw, rfl⟩⟩ := Stages.processDocs_cases hstep
    · exact ⟨{ hn with }, { he with
        draining := by simp, drainWriting := by simp, writer := by simp }, hf'⟩
    · exact ⟨{ hn with }, { he with
        draining := fun _ => he.drainWriting hw, drainWriting := by simp, writer := by simp }, hf'⟩
  | drainWriter =>
    obtain ⟨⟨hw, hstop⟩, hs'⟩ := Option.ite_none_right_eq_some.1 hstep
    cases hs'
    exact ⟨{ hn with }, { he with
      draining := fun _ => hstop, drainWriting := by simp, writer := by simp },
      hf.setWriter (by simp [WriterState.batch, hw])⟩
  | exitWriter =>
    obtain ⟨⟨hw, hempty⟩, hs'⟩ := Option.ite_none_right_eq_some.1 hstep
    cases hs'
    exact ⟨{ hn with }, { he with
      draining := by simp, drainWriting := by simp, writer := fun _ => ⟨he.draining hw, hempty⟩ },
      hf.setWriter (by simp [WriterState.batch, hw])⟩
  | stopParser =>
    obtain ⟨hexit, hs'⟩ := Option.ite_none_right_eq_some.1 hstep
    cases hs'
    exact ⟨{ hn with }, { he with scanner := fun _ => hexit, workers := fun _ => rfl }, { hf with }⟩
  | stopWriter =>
    obtain ⟨⟨-, hall⟩, hs'⟩ := Option.ite_none_right_eq_some.1 hstep
    cases hs'
    exact ⟨{ hn with }, { he with
      stopped := fun _ => hall
      draining := fun _ => rfl
      drainWriting := fun _ => rfl
      writer := fun hw => ⟨rfl, (he.writer hw).2⟩ }, { hf with }⟩
  | stopScanner =>
    obtain ⟨-, hs'⟩ := Option.ite_none_right_eq_some.1 hstep
    exact Option.some.inj hs' ▸ ⟨{ hn with }, { he with }, { hf with }⟩
  | deleteWorkspace w =>
    exact Option.some.inj hstep ▸ ⟨{ hn with }, { he with }, hf.deleteWorkspace hok⟩
  | sync _ | shutdown => exact Option.some.inj hstep ▸ ⟨{ hn with }, { he with }, { hf with }⟩

/-! ### A recorded scan is indexed -/

/-- Every file that a recorded scan has queued is parsed, and every document this gave has been
passed to the store. -/
def Stages.Indexed (s : Stages) : Prop :=
  ∀ file ∈ s.queued, s.IsRecorded file →
    file ∈ s.parsed ∧ ∀ doc ∈ s.gave, doc.file = file → doc ∈ s.handed

/-- Once the writer has ended, what a recorded scan has queued is indexed, if in the run the last
worker left no file of a recorded scan in the channel and no workspace was deleted under a recorded
scan. -/
theorem recorded_scan_indexed (n : ℕ) {ls : List StageLabel}
    (hrun : StepSystem.Run Stages.step StageOk (.init (n + 1)) ls s) (hend : s.writer = .exited) :
    s.Indexed := by
  have hinit : (Stages.init (n + 1)).Sound := by
    refine ⟨?_, ?_, ?_⟩ <;> constructor <;> simp [Stages.init, Stages.mem_inFlight,
      WriterState.batch, ParserState.file?]
  obtain ⟨-, he, hf⟩ := hrun.invariant (I := fun _ s => s.Sound) hinit
    fun h hok hstep => h.step hok hstep
  obtain ⟨hstop, hwrite⟩ := he.writer hend
  have hall := he.stopped hstop
  intro file hfile hrec
  constructor
  · obtain h | h | h := hf.files file hfile
    · exact absurd hrec (he.drained hall file h)
    · exact absurd (hall _ h) (by simp)
    · exact h
  · rintro doc hdoc rfl
    obtain h | h | h | h := hf.docs doc hdoc
    · exact absurd hrec h.2
    · exact absurd (hall _ h) (by simp)
    · simp [hwrite, hend, WriterState.batch] at h
    · exact h

/-- A scan queues one file, and the process is told to shut down. -/
private def scanned : List StageLabel :=
  [.sync 1, .popJob, .scanFile [102] true true, .endScan false, .popJob, .shutdown, .stopScanner,
    .wakeScanner true, .stopParser]

/-- The worker stops and so does the writer. -/
private def ended : List StageLabel :=
  [.exitWorker 0, .stopWriter, .drainWriter, .exitWriter]

theorem recorded_scan_indexed_parsed : ∃ s,
    StepSystem.Run Stages.step StageOk (.init 1) (scanned ++ [.takeFile 0,
      .parseFile 0 (some (⟨[102], 1, [1], 5, [], by decide⟩, true)), .handOver 0, .takeBatch 1,
      .processDocs] ++ ended) s ∧ s.handed ≠ [] ∧ s.Indexed := by
  refine StepSystem.Run.exists_of_exec_imp (fun s => s.handed ≠ [] ∧ s.writer = .exited)
    (by decide +kernel) fun s hrun h => ⟨h.1, ?_⟩
  exact recorded_scan_indexed 0 hrun h.2

/-- The worker takes the stop signal although the file is in the channel. The full sync is recorded
and the file is never parsed. -/
theorem recorded_scan_not_indexed : ∃ s,
    StepSystem.Run Stages.step (fun _ _ => True) (.init 1) (scanned ++ ended) s ∧
    s.writer = .exited ∧ ∃ file ∈ s.queued, s.IsRecorded file ∧ file ∉ s.parsed := by
  refine StepSystem.Run.exists_of_exec_imp (fun s => s.writer = .exited ∧
    s.queued.any fun file => s.IsRecorded file ∧ file ∉ s.parsed) (by decide +kernel)
    fun s _ h => ⟨h.1, ?_⟩
  obtain ⟨file, hfile, hlost⟩ := any_eq_true.1 h.2
  exact ⟨file, hfile, of_decide_eq_true hlost⟩

end Haystack.Indexer
