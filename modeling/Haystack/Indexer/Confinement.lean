import Haystack.Indexer.Pipeline

/-!
# Document paths

The id of a document comes from the path string of the request, the file from the cleaned join of the
workspace directory and that string. For canonical paths, which are clean, relative and stay below
their starting point, the two agree and no file outside of the workspace is touched.
-/

namespace Haystack.Indexer

open InvertedIndex (DocId Index Op)
open SlashPath Option List

/-- The path that a request or a scan brings into the pipeline. -/
def Label.path? : Label → Option RelPath
  | .beginUpdate _ rel => some rel
  | .delete _ rel _ => some rel
  | .scan _ rel => some rel
  | _ => none

/-- The path that a worker is busy with. -/
def Worker.path? : Worker → Option RelPath
  | .idle => none
  | .took file => some file.relPath
  | .statted file _ => some file.relPath
  | .looked file _ _ => some file.relPath
  | .built doc => some doc.document.relPath

variable (c : Config)

/-- Every path on its way is canonical, every document is stored under the id of its canonical path,
and every path touched lies in its workspace. -/
structure Confined (s : Pipeline) : Prop where
  requests : ∀ r ∈ s.requests, Canonical r.relPath
  parse : ∀ file ∈ s.parse, Canonical file.relPath
  workers : ∀ w ∈ s.workers, ∀ rel ∈ w.path?, Canonical rel
  write : ∀ doc ∈ s.write, Canonical doc.document.relPath
  tasks : ∀ t ∈ s.tasks, ∀ doc ∈ t.docs, Canonical doc.relPath
  docs : ∀ {w d doc}, s.docs.lookup (w, d) = some doc →
    d = c.docid doc.relPath ∧ Canonical doc.relPath
  touched : ∀ e ∈ s.touched, Inside (c.path e.1) e.2

variable {c} {s s' : Pipeline} {rel : RelPath}

lemma Config.inside_fullPath (hroot : ∀ w, isRooted (c.path w)) (h : Canonical rel)
    (w : WorkspaceId) : Inside (c.path w) (c.fullPath w rel) :=
  (forall_inside_join_iff rel).2 h.isLocal _ (hroot w)

namespace Confined

lemma queueFile (h : Confined c s) {w : WorkspaceId} (hrel : Canonical rel)
    (hstep : s.queueFile w rel = some s') : Confined c s' := by
  unfold Pipeline.queueFile at hstep
  split at hstep
  case isFalse => simp at hstep
  case isTrue =>
    cases hstep
    refine { h with parse := fun file hfile => ?_ }
    rcases mem_append.1 hfile with hfile | hfile
    · exact h.parse file hfile
    · exact mem_singleton.1 hfile ▸ hrel

lemma removeFile (h : Confined c s) {w : WorkspaceId} {f : Index.Forced}
    (hstep : s.removeFile c w rel f = some s') : Confined c s' := by
  unfold Pipeline.removeFile at hstep
  split at hstep
  · exact some.inj hstep ▸ h
  · obtain ⟨ix, -, rfl⟩ := map_eq_some_iff.1 hstep
    refine { h with docs := fun {w' d doc} hl => ?_ }
    change (s.docs.erase _).lookup _ = some doc at hl
    rw [GoMap.lookup_erase_if] at hl
    split at hl
    · simp at hl
    · exact h.docs hl

/-- A path is touched. -/
lemma touch (h : Confined c s) (hroot : ∀ w, isRooted (c.path w)) (hrel : Canonical rel)
    (w : WorkspaceId) : Confined c { s with touched := (w, c.fullPath w rel) :: s.touched } :=
  { h with touched := forall_mem_cons.2 ⟨Config.inside_fullPath hroot hrel w, h.touched⟩ }

variable {i : ℕ} {info : Option FileInfo}

/-- A worker moves on. -/
lemma setWorker (h : Confined c s) {w : Worker} (hw : ∀ rel ∈ w.path?, Canonical rel) :
    Confined c (s.setWorker i w) := by
  refine { h with workers := fun w' hw' => ?_ }
  rcases mem_or_eq_of_mem_set hw' with hw' | rfl
  · exact h.workers w' hw'
  · exact hw

lemma worker (h : Confined c s) {w : Worker} (hi : s.workers[i]? = some w)
    (hrel : w.path? = some rel) : Canonical rel :=
  h.workers w (mem_of_getElem? hi) rel hrel

lemma endUpdate (h : Confined c s) (hroot : ∀ w, isRooted (c.path w)) {f : Index.Forced}
    (hstep : s.endUpdate c i info f = some s') : Confined c s' := by
  unfold Pipeline.endUpdate at hstep
  split at hstep
  · simp at hstep
  case h_2 r hr =>
    have hrel := h.requests r (mem_of_getElem? hr)
    have htouch : Confined c { s with
        requests := s.requests.eraseIdx i
        touched := (r.workspace, c.fullPath r.workspace r.relPath) :: s.touched } :=
      { h.touch hroot hrel r.workspace with
        requests := fun r' hr' => h.requests r' (mem_of_mem_eraseIdx hr') }
    dsimp only at hstep
    split at hstep
    · exact htouch.queueFile hrel hstep
    · split at hstep
      · exact htouch.removeFile hstep
      · exact some.inj hstep ▸ htouch

lemma takeFile (h : Confined c s) (hstep : s.takeFile i = some s') : Confined c s' := by
  unfold Pipeline.takeFile at hstep
  split at hstep
  case h_2 => simp at hstep
  case h_1 file rest _ hparse =>
    cases hstep
    have hmem : ∀ f ∈ file :: rest, Canonical f.relPath := fun f hf => h.parse f (hparse ▸ hf)
    have hrest : Confined c { s with parse := rest } :=
      { h with parse := fun f hf => hmem f (mem_cons_of_mem _ hf) }
    refine hrest.setWorker ?_
    rintro rel ⟨⟩
    exact hmem file mem_cons_self

lemma statFile (h : Confined c s) (hroot : ∀ w, isRooted (c.path w))
    (hstep : s.statFile c i info = some s') : Confined c s' := by
  unfold Pipeline.statFile at hstep
  split at hstep
  case h_2 => simp at hstep
  case h_1 file hi =>
    cases hstep
    have hrel := h.worker hi rfl
    refine (h.touch hroot hrel file.workspace).setWorker ?_
    cases info with
    | none => simp [Worker.path?]
    | some info => rintro rel ⟨⟩; exact hrel

lemma lookUp (h : Confined c s) (hstep : s.lookUp c i = some s') : Confined c s' := by
  unfold Pipeline.lookUp at hstep
  split at hstep
  case h_2 => simp at hstep
  case h_1 file info hi =>
    cases hstep
    refine h.setWorker ?_
    split
    · simp [Worker.path?]
    · rintro rel ⟨⟩
      exact h.worker hi rfl

lemma readFile (h : Confined c s) (hroot : ∀ w, isRooted (c.path w)) {content : Option Content}
    (hstep : s.readFile c i content = some s') : Confined c s' := by
  unfold Pipeline.readFile at hstep
  split at hstep
  case h_2 => simp at hstep
  case h_1 file info existing hi =>
    cases hstep
    have hrel := h.worker hi rfl
    have hread : Confined c (if info.size > c.maxFileSize then s else { s with
        touched := (file.workspace, c.fullPath file.workspace file.relPath) :: s.touched }) := by
      split
      · exact h
      · exact h.touch hroot hrel file.workspace
    refine hread.setWorker ?_
    split
    case h_2 => simp [Worker.path?]
    case h_1 doc hbuilt =>
      have hdoc : doc.relPath = file.relPath := by
        split at hbuilt
        · exact Pipeline.relPath_build hbuilt
        · obtain ⟨content, -, hbuilt⟩ := bind_eq_some_iff.1 hbuilt
          exact Pipeline.relPath_build hbuilt
      rintro rel ⟨⟩
      exact hdoc ▸ hrel

lemma handOver (h : Confined c s) (hstep : s.handOver i = some s') : Confined c s' := by
  unfold Pipeline.handOver at hstep
  split at hstep
  case h_2 => simp at hstep
  case h_1 doc hi =>
    split at hstep
    case isFalse => simp at hstep
    case isTrue =>
      cases hstep
      have hwrite : Confined c { s with write := s.write ++ [doc] } := by
        refine { h with write := fun d hd => ?_ }
        rcases mem_append.1 hd with hd | hd
        · exact h.write d hd
        · exact mem_singleton.1 hd ▸ h.worker hi rfl
      exact hwrite.setWorker (by simp [Worker.path?])

lemma takeBatch (h : Confined c s) {n : ℕ} {news olds : List WorkspaceId}
    (hstep : s.takeBatch n news olds = some s') : Confined c s' := by
  unfold Pipeline.takeBatch at hstep
  dsimp only at hstep
  split at hstep
  case isFalse => simp at hstep
  case isTrue =>
    cases hstep
    have htasks : ∀ b ws, ∀ t ∈ Pipeline.tasksOf (s.write.take n) b ws, ∀ doc ∈ t.docs,
        Canonical doc.relPath := by
      intro b ws t ht doc hdoc
      obtain ⟨w, -, rfl⟩ := mem_map.1 (mem_of_mem_filter ht)
      obtain ⟨d, hd, rfl⟩ := mem_map.1 hdoc
      exact h.write d (mem_of_mem_take (mem_of_mem_filter hd))
    refine { h with write := fun d hd => h.write d (mem_of_mem_drop hd), tasks := ?_ }
    intro t ht
    rcases mem_append.1 ht with ht | ht <;> exact htasks _ _ t ht

lemma runTask (h : Confined c s) {fs : List (Index.Forced × Index.Forced)}
    (hstep : s.runTask c fs = some s') : Confined c s' := by
  unfold Pipeline.runTask at hstep
  split at hstep
  · simp at hstep
  case h_2 t rest htasks =>
    split at hstep
    case isFalse => simp at hstep
    case isTrue =>
      obtain ⟨ix, -, rfl⟩ := map_eq_some_iff.1 hstep
      have ht : ∀ doc ∈ t.docs, Canonical doc.relPath := h.tasks t (htasks ▸ mem_cons_self)
      refine { h with
        tasks := fun t' ht' => h.tasks t' (htasks ▸ mem_cons_of_mem _ ht')
        docs := foldlRecOn (motive := fun m : GoMap _ Document => ∀ {w d doc},
          m.lookup (w, d) = some doc →
          d = c.docid doc.relPath ∧ Canonical doc.relPath) t.docs _ h.docs ?_ }
      -- every document is stored under the id of its path
      intro m hm doc hdoc w d doc' hl
      rw [GoMap.lookup_insert_if] at hl
      split at hl
      case isTrue heq =>
        cases hl
        exact ⟨(Prod.mk.inj heq).2, ht doc hdoc⟩
      case isFalse => exact hm hl

lemma maintain (h : Confined c s) {op : Op} (hstep : s.maintain c op = some s') :
    Confined c s' := by
  unfold Pipeline.maintain at hstep
  split at hstep
  · obtain ⟨ix, -, rfl⟩ := map_eq_some_iff.1 hstep
    exact { h with }
  · obtain ⟨ix, -, rfl⟩ := map_eq_some_iff.1 hstep
    exact { h with }
  · simp at hstep

theorem step (h : Confined c s) (hroot : ∀ w, isRooted (c.path w)) {l : Label}
    (hok : ∀ rel ∈ l.path?, Canonical rel) (hstep : s.step c l = some s') : Confined c s' := by
  cases l with
  | beginUpdate w rel =>
    simp only [Pipeline.step, Pipeline.beginUpdate] at hstep
    split at hstep
    · cases hstep
      refine { h with requests := fun r hr => ?_ }
      rcases mem_append.1 hr with hr | hr
      · exact h.requests r hr
      · exact mem_singleton.1 hr ▸ hok rel rfl
    · exact some.inj hstep ▸ h
  | endUpdate i info f => exact h.endUpdate hroot hstep
  | delete w rel f => exact h.removeFile hstep
  | scan w rel => exact h.queueFile (hok rel rfl) hstep
  | takeFile i => exact h.takeFile hstep
  | statFile i info => exact h.statFile hroot hstep
  | lookUp i => exact h.lookUp hstep
  | readFile i content => exact h.readFile hroot hstep
  | handOver i => exact h.handOver hstep
  | takeBatch n news olds => exact h.takeBatch hstep
  | runTask fs => exact h.runTask hstep
  | maintain op => exact h.maintain hstep

end Confined

lemma confined_init (n : ℕ) : Confined c (.init n) where
  requests := by simp [Pipeline.init]
  parse := by simp [Pipeline.init]
  workers w hw := by simp [eq_of_mem_replicate hw, Worker.path?]
  write := by simp [Pipeline.init]
  tasks := by simp [Pipeline.init]
  docs h := by simp [Pipeline.init] at h
  touched := by simp [Pipeline.init]

/-- **Document paths.** In every run whose requests and scans bring in canonical paths only: the
paths whose state or content is read lie in their workspace, and so do the files of the stored
documents; a file has one document, and canonical paths of one file have one document id; and after a
delete no document of the file is left. -/
theorem documents_confined (c : Config) (hroot : ∀ w, isRooted (c.path w)) {n : ℕ} {ls : List Label}
    {s : Pipeline}
    (hrun : StepSystem.Run (Pipeline.step c) (fun _ l => ∀ rel ∈ l.path?, Canonical rel) (.init n)
      ls s) :
    (∀ e ∈ s.touched, Inside (c.path e.1) e.2) ∧
    (∀ w d doc, s.docs.lookup (w, d) = some doc → Inside (c.path w) (c.fullPath w doc.relPath)) ∧
    (∀ w d d' doc doc', s.docs.lookup (w, d) = some doc → s.docs.lookup (w, d') = some doc' →
      c.fullPath w doc.relPath = c.fullPath w doc'.relPath → d = d') ∧
    (∀ w rel rel', Canonical rel → Canonical rel' → c.fullPath w rel = c.fullPath w rel' →
      c.key w rel = c.key w rel') ∧
    ∀ w rel f s', Canonical rel → s.step c (.delete w rel f) = some s' →
      ∀ d doc, s'.docs.lookup (w, d) = some doc → c.fullPath w doc.relPath ≠ c.fullPath w rel := by
  have h : Confined c s := hrun.invariant (I := fun _ => Confined c) (confined_init n)
    fun h hok hstep => h.step hroot hok hstep
  have hkey : ∀ w rel rel', Canonical rel → Canonical rel' →
      c.fullPath w rel = c.fullPath w rel' → rel = rel' := fun w rel rel' hrel hrel' heq =>
    Canonical.eq_of_join_eq (hroot w) hrel hrel' heq
  refine ⟨h.touched, fun w d doc hl => Config.inside_fullPath hroot (h.docs hl).2 w,
    fun w d d' doc doc' hl hl' heq => ?_, fun w rel rel' hrel hrel' heq => ?_,
    fun w rel f s' hrel hstep d doc hl heq => ?_⟩
  · rw [(h.docs hl).1, (h.docs hl').1, hkey w _ _ (h.docs hl).2 (h.docs hl').2 heq]
  · rw [hkey w rel rel' hrel hrel' heq]
  · have h' : Confined c s' := h.removeFile hstep
    have hd := h'.docs hl
    have hrel' : doc.relPath = rel := hkey w _ _ hd.2 hrel heq
    have hgone : s'.docs.lookup (c.key w rel) = none := by
      change s.removeFile c w rel f = some s' at hstep
      unfold Pipeline.removeFile at hstep
      split at hstep
      case h_1 hnone => exact some.inj hstep ▸ hnone
      case h_2 =>
        obtain ⟨ix, -, rfl⟩ := map_eq_some_iff.1 hstep
        exact AList.lookup_erase _ _
    rw [hd.1, hrel'] at hl
    exact absurd (hl.symm.trans hgone) (by simp)

/-! ### Two runs -/

/-- One workspace in `/w`; the id of a document is the length of its path. -/
private def oneWorkspace : Config where
  path _ := [47, 119]
  table w := w
  docid rel := Int64.ofNat rel.length
  shouldIndex _ _ := true
  maxFileSize := 100
  index := {}

private def noWalk : Index.Forced :=
  ⟨[], 7, ⟨[], fun _ => 7, InvertedIndex.inOrder⟩⟩

/-- An update request for a file; the worker takes the file, reads it and hands it over, and the
writer stores the document. -/
private def updateFile (rel : RelPath) : List Label :=
  [.beginUpdate 1 rel, .endUpdate 0 (some ⟨1, 5⟩) noWalk,
    .takeFile 0, .statFile 0 (some ⟨1, 5⟩), .lookUp 0,
    .readFile 0 (some ⟨true, [1], [], Index.Plain.nil⟩), .handOver 0, .takeBatch 1 [1] [],
    .runTask [(noWalk, noWalk)]]

instance (l : Label) : Decidable (∀ rel ∈ l.path?, Canonical rel) :=
  decidable_of_iff (l.path?.all (fun rel =>
      decide (clean rel = rel ∧ isRooted rel = false ∧ Local rel)) = true) (by
    simp only [Option.all_eq_true, decide_eq_true_eq, Option.mem_def]
    exact forall₂_congr fun rel _ => ⟨fun h => ⟨h.1, h.2.1, h.2.2⟩, fun h =>
      ⟨h.clean_eq, h.relative, h.isLocal⟩⟩)

/-- An update of `a/b` touches three times and stores one document. -/
theorem documents_confined_indexed : ∃ s, StepSystem.Run (Pipeline.step oneWorkspace)
      (fun _ l => ∀ rel ∈ l.path?, Canonical rel) (.init 1) (updateFile [97, 47, 98]) s ∧
    s.touched.length = 3 ∧ (∀ e ∈ s.touched, Inside (oneWorkspace.path e.1) e.2) ∧
    s.docs.keys = [(1, 3)] := by
  refine StepSystem.Run.exists_of_exec_imp (fun s => s.touched.length = 3 ∧
    s.docs.keys = [(1, 3)]) (by decide +kernel) fun s hrun h => ⟨h.1, ?_, h.2⟩
  exact (documents_confined oneWorkspace (fun _ => rfl) hrun).1

/-- A request for `../x` reads the state of `/x`, outside of the workspace; and the requests `a/b` and
`a//b` leave two documents of one file. -/
theorem documents_not_confined : ∃ ls s,
    StepSystem.Run (Pipeline.step oneWorkspace) (fun _ _ => True) (.init 1) ls s ∧
    (∃ e ∈ s.touched, ¬ Inside (oneWorkspace.path e.1) e.2) ∧
    ∃ w d d' doc doc', s.docs.lookup (w, d) = some doc ∧ s.docs.lookup (w, d') = some doc' ∧
      oneWorkspace.fullPath w doc.relPath = oneWorkspace.fullPath w doc'.relPath ∧ d ≠ d' := by
  have hexec : (StepSystem.exec (Pipeline.step oneWorkspace) (fun _ _ => True) (.init 1)
      ([.beginUpdate 1 [46, 46, 47, 120], .endUpdate 0 none noWalk] ++ updateFile [97, 47, 98] ++
        updateFile [97, 47, 47, 98])).any (fun s =>
      s.touched.any (fun e => ¬ Inside (oneWorkspace.path e.1) e.2) ∧
      (s.docs.lookup (1, 3)).any (fun doc => (s.docs.lookup (1, 4)).any fun doc' =>
        oneWorkspace.fullPath 1 doc.relPath = oneWorkspace.fullPath 1 doc'.relPath)) = true := by
    decide +kernel
  obtain ⟨s, hs, hend⟩ := (any_eq_true _ _).1 hexec
  obtain ⟨htouched, hdocs⟩ := of_decide_eq_true hend
  obtain ⟨e, he, hout⟩ := any_eq_true.1 htouched
  obtain ⟨doc, hdoc, hdocs⟩ := (any_eq_true _ _).1 hdocs
  obtain ⟨doc', hdoc', heq⟩ := (any_eq_true _ _).1 hdocs
  exact ⟨_, s, StepSystem.Run.of_exec hs, ⟨e, he, of_decide_eq_true hout⟩, 1, 3, 4, doc, doc', hdoc,
    hdoc', of_decide_eq_true heq, by decide⟩

end Haystack.Indexer
