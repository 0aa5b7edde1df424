import Haystack.Indexer.Pipeline

/-!
# Documents and postings agree

A file is in flight from the moment a worker reads its stored document until the writer has applied
the result. As long as no file is in flight twice and none is removed while it is in flight, the
decision whether a document is new is still right when the writer acts on it; the postings of the
index are then those of the stored documents, and the counter of each workspace is their number.
-/

namespace Haystack.Indexer

open List

open InvertedIndex (DocId TableId Keyword Index Op Stands setWords)

/-! ### Files in flight -/

/-- A file in flight, with the decision whether its document is new. -/
abbrev Entry := (WorkspaceId × DocId) × Bool

variable (c : Config)

def WriteDoc.entry (d : WriteDoc) : Entry :=
  (c.key d.workspace d.document.relPath, d.createNew)

def Worker.heldEntry : Worker → Option Entry
  | .looked file _ existing => some (c.key file.workspace file.relPath, existing.isNone)
  | .built doc => some (doc.entry c)
  | _ => none

/-- The file whose stored document a worker is about to read. -/
def Worker.looking? : Worker → Option (WorkspaceId × DocId)
  | .statted file _ => some (c.key file.workspace file.relPath)
  | _ => none

def WriteTask.entries (t : WriteTask) : List Entry :=
  t.docs.map fun doc => (c.key t.workspace doc.relPath, t.createNew)

/-- The files in flight. -/
def Pipeline.entries (s : Pipeline) : List Entry :=
  s.workers.filterMap (·.heldEntry c) ++ (s.write.map (·.entry c) ++ s.tasks.flatMap (·.entries c))

/-- No file is in flight twice, and every decision is right. -/
def Decided (docs : GoMap (WorkspaceId × DocId) Document) (es : List Entry) : Prop :=
  (es.map Prod.fst).Nodup ∧ ∀ e ∈ es, e.2 = (docs.lookup e.1).isNone

variable {c} {s s' : Pipeline} {docs : GoMap (WorkspaceId × DocId) Document} {es es' : List Entry}
  {i : ℕ} {rel : RelPath} {fs : List (Index.Forced × Index.Forced)} {w : WorkspaceId}

namespace Decided

lemma perm (h : Decided docs es) (hp : es'.Perm es) : Decided docs es' :=
  ⟨(hp.map Prod.fst).nodup_iff.2 h.1, fun e he => h.2 e (hp.mem_iff.1 he)⟩

lemma sublist (h : Decided docs es) (hs : es'.Sublist es) : Decided docs es' :=
  ⟨h.1.sublist (hs.map Prod.fst), fun e he => h.2 e (hs.subset he)⟩

lemma cons (h : Decided docs es) {e : Entry} (hnew : e.1 ∉ es.map Prod.fst)
    (he : e.2 = (docs.lookup e.1).isNone) : Decided docs (e :: es) :=
  ⟨nodup_cons.2 ⟨hnew, h.1⟩, forall_mem_cons.2 ⟨he, h.2⟩⟩

/-- Documents that are not in flight may change. -/
lemma congr (h : Decided docs es) {docs' : GoMap (WorkspaceId × DocId) Document}
    (hdocs : ∀ e ∈ es, docs'.lookup e.1 = docs.lookup e.1) : Decided docs' es :=
  ⟨h.1, fun e he => (h.2 e he).trans (by rw [hdocs e he])⟩

end Decided

/-- The files in flight apart from what worker `i` is busy with. -/
def Pipeline.others (c : Config) (s : Pipeline) (i : ℕ) : List Entry :=
  (s.workers.eraseIdx i).filterMap (·.heldEntry c) ++
    (s.write.map (·.entry c) ++ s.tasks.flatMap (·.entries c))

lemma Pipeline.entries_perm {w : Worker} (hi : s.workers[i]? = some w) :
    (s.entries c).Perm ((w.heldEntry c).toList ++ s.others c i) := by
  have hw := (StepSystem.perm_cons_eraseIdx hi).filterMap (·.heldEntry c)
  rw [filterMap_cons] at hw
  rw [entries, others, ← append_assoc (w.heldEntry c).toList]
  refine Perm.append_right _ (hw.trans ?_)
  cases w.heldEntry c <;> exact .refl _

lemma Pipeline.entries_setWorker {w : Worker} (hi : s.workers[i]? = some w) (w' : Worker) :
    ((s.setWorker i w').entries c).Perm ((w'.heldEntry c).toList ++ s.others c i) := by
  have hlen : i < s.workers.length := (List.getElem?_eq_some_iff.1 hi).1
  have hset : (s.setWorker i w').workers[i]? = some w' := by
    simp [setWorker, hlen]
  refine (entries_perm hset).trans (List.Perm.append_left _ ?_)
  rw [others, others, setWorker]
  dsimp only
  rw [eraseIdx_set_eq]

/-! ### The invariant -/

/-- The words of a stored document; none if there is none. -/
def wordsOf (docs : GoMap (WorkspaceId × DocId) Document) (k : WorkspaceId × DocId) : List Keyword :=
  ((docs.lookup k).map Document.words).getD []

/-- The index stands for the words of the stored documents. -/
def Tracked (c : Config) (ix : Index) (docs : GoMap (WorkspaceId × DocId) Document) : Prop :=
  ∃ L, Stands ix L ∧ ∀ w d, L (c.table w) d = wordsOf docs (w, d)

/-- The number of stored documents of a workspace. -/
def stored (docs : GoMap (WorkspaceId × DocId) Document) (w : WorkspaceId) : ℕ :=
  docs.countKeys (·.1 = w)

structure Consistent (c : Config) (s : Pipeline) : Prop where
  decided : Decided s.docs (s.entries c)
  counted : ∀ w, s.docCount w = stored s.docs w
  tracked : Tracked c s.index s.docs

/-- Steps that only move files along. -/
lemma Consistent.of_decided (h : Consistent c s) (hdecided : Decided s.docs (s'.entries c))
    (hdocs : s'.docs = s.docs) (hcount : s'.docCount = s.docCount) (hindex : s'.index = s.index) :
    Consistent c s' := by
  refine ⟨hdocs ▸ hdecided, ?_, ?_⟩
  · rw [hdocs, hcount]
    exact h.counted
  · rw [hdocs, hindex]
    exact h.tracked

/-! ### Moving files along -/

namespace Consistent

/-- A worker goes to a state with the same file in flight, or with none. -/
lemma setWorker (h : Consistent c s) {w w' : Worker} (hi : s.workers[i]? = some w)
    (hw : w'.heldEntry c = none ∨ w'.heldEntry c = w.heldEntry c) :
    Consistent c (s.setWorker i w') := by
  refine h.of_decided ?_ rfl rfl rfl
  have hold := h.decided.perm (Pipeline.entries_perm hi).symm
  refine Decided.perm ?_ (Pipeline.entries_setWorker hi w')
  rcases hw with hw | hw
  · rw [hw]
    exact hold.sublist (sublist_append_right _ _)
  · rwa [hw]

lemma queueFile (h : Consistent c s) (hstep : s.queueFile w rel = some s') : Consistent c s' := by
  unfold Pipeline.queueFile at hstep
  split at hstep
  · exact Option.some.inj hstep ▸ { h with }
  · simp at hstep

lemma takeFile (h : Consistent c s) (hstep : s.takeFile i = some s') : Consistent c s' := by
  unfold Pipeline.takeFile at hstep
  split at hstep
  case h_2 => simp at hstep
  case h_1 file rest hi _ =>
    cases hstep
    have hrest : Consistent c { s with parse := rest } := { h with }
    exact hrest.setWorker hi (.inl rfl)

lemma statFile (h : Consistent c s) {info : Option FileInfo}
    (hstep : s.statFile c i info = some s') : Consistent c s' := by
  unfold Pipeline.statFile at hstep
  split at hstep
  case h_2 => simp at hstep
  case h_1 file hi =>
    cases hstep
    have htouch : Consistent c { s with
        touched := (file.workspace, c.fullPath file.workspace file.relPath) :: s.touched } :=
      { h with }
    refine htouch.setWorker hi (.inl ?_)
    cases info <;> rfl

/-- The stored document is read: the file is in flight from now on. -/
lemma lookUp (h : Consistent c s)
    (hok : ∀ k ∈ s.workers[i]?.bind (·.looking? c), k ∉ (s.entries c).map Prod.fst)
    (hstep : s.lookUp c i = some s') : Consistent c s' := by
  unfold Pipeline.lookUp at hstep
  split at hstep
  case h_2 => simp at hstep
  case h_1 file info hi =>
    cases hstep
    split
    · exact h.setWorker hi (.inl rfl)
    · refine h.of_decided ?_ rfl rfl rfl
      have hold : (s.entries c).Perm (s.others c i) := Pipeline.entries_perm hi
      refine Decided.perm ?_ (Pipeline.entries_setWorker hi _)
      exact (h.decided.perm hold.symm).cons
        (fun hmem => hok _ (by rw [hi]; rfl) ((hold.map Prod.fst).mem_iff.2 hmem)) rfl

lemma readFile (h : Consistent c s) {content : Option Content}
    (hstep : s.readFile c i content = some s') : Consistent c s' := by
  unfold Pipeline.readFile at hstep
  split at hstep
  case h_2 => simp at hstep
  case h_1 file info existing hi =>
    cases hstep
    have hread : Consistent c (if info.size > c.maxFileSize then s else { s with
        touched := (file.workspace, c.fullPath file.workspace file.relPath) :: s.touched }) := by
      split
      · exact h
      · exact { h with }
    refine hread.setWorker (w := .looked file info existing) ?_ ?_
    · split <;> exact hi
    · split
      case h_2 => exact .inl rfl
      case h_1 doc hbuilt =>
        have hdoc : doc.relPath = file.relPath := by
          split at hbuilt
          · exact Pipeline.relPath_build hbuilt
          · obtain ⟨content, -, hbuilt⟩ := Option.bind_eq_some_iff.1 hbuilt
            exact Pipeline.relPath_build hbuilt
        refine .inr ?_
        simp [Worker.heldEntry, WriteDoc.entry, hdoc]

lemma handOver (h : Consistent c s) (hstep : s.handOver i = some s') : Consistent c s' := by
  unfold Pipeline.handOver at hstep
  split at hstep
  case h_2 => simp at hstep
  case h_1 doc hi =>
    split at hstep
    case isFalse => simp at hstep
    case isTrue =>
      cases hstep
      refine h.of_decided ?_ rfl rfl rfl
      refine (h.decided.perm (Pipeline.entries_perm hi).symm).perm ?_
      refine (Pipeline.entries_setWorker (s := { s with write := s.write ++ [doc] }) hi .idle).trans ?_
      simp only [Pipeline.others, Worker.heldEntry, Option.toList_none, Option.toList_some,
        nil_append, map_append, map_cons, map_nil, append_assoc,
        singleton_append]
      -- the entry moves from the worker to the end of the channel
      rw [← append_assoc, ← append_assoc]
      refine perm_middle.trans ?_
      simp

end Consistent

/-! ### The batch -/

/-- Taking the elements class by class. -/
lemma flatMap_filter_perm {α κ : Type*} [DecidableEq κ] (f : α → κ) {ks : List κ} (hks : ks.Nodup)
    {l : List α} (h : ∀ a ∈ l, f a ∈ ks) : (ks.flatMap fun k => l.filter (f · = k)).Perm l := by
  classical
  refine perm_iff_count.2 fun a => ?_
  by_cases ha : a ∈ l
  · have hother : ∀ k ≠ f a, k ∈ ks → (l.filter (f · = k)).count a = 0 := fun k hk _ =>
      count_eq_zero.2 (by simp [Ne.symm hk])
    rw [count_flatMap]
    refine (sum_map_eq_nsmul_single (f a) _ hother).trans ?_
    rw [count_eq_one_of_mem hks (h a ha), one_nsmul, count_filter (by simp)]
  · rw [count_eq_zero.2 ha]
    exact count_eq_zero.2 (by simp [ha])

/-- The tasks of one kind hold the documents of that kind. -/
lemma entries_tasksOf (batch : List WriteDoc) (b : Bool) {ws : List WorkspaceId} (hws : ws.Nodup)
    (h : ∀ d ∈ batch, d.createNew = b → d.workspace ∈ ws) :
    ((Pipeline.tasksOf batch b ws).flatMap (·.entries c)).Perm
      ((batch.filter (·.createNew = b)).map (·.entry c)) := by
  have hdrop : (Pipeline.tasksOf batch b ws).flatMap (·.entries c) =
      ws.flatMap fun w => ((batch.filter (·.createNew = b)).filter (·.workspace = w)).map
        (·.entry c) := by
    have hempty (l : List WriteTask) : (l.filter (·.docs ≠ [])).flatMap (·.entries c) =
        l.flatMap (·.entries c) := by
      induction l with
      | nil => rfl
      | cons t l ih =>
        by_cases ht : t.docs = [] <;> simp_all [WriteTask.entries]
    rw [Pipeline.tasksOf, hempty, flatMap_map]
    refine flatMap_congr fun w _ => ?_
    rw [WriteTask.entries, map_map, filter_filter]
    have hcongr : batch.filter (fun d => decide (d.workspace = w ∧ d.createNew = b)) =
        batch.filter (fun d => decide (d.workspace = w) && decide (d.createNew = b)) :=
      filter_congr fun d _ => by simp
    rw [hcongr]
    refine map_congr_left fun d hd => ?_
    have hd' : d.workspace = w ∧ d.createNew = b := by simpa using (mem_filter.1 hd).2
    simp [WriteDoc.entry, hd'.1, hd'.2]
  rw [hdrop, ← map_flatMap]
  refine (flatMap_filter_perm WriteDoc.workspace hws fun d hd => ?_).map _
  obtain ⟨hd, hb⟩ := mem_filter.1 hd
  exact h d hd (of_decide_eq_true hb)

lemma Consistent.takeBatch (h : Consistent c s) {n : ℕ} {news olds : List WorkspaceId}
    (hstep : s.takeBatch n news olds = some s') : Consistent c s' := by
  unfold Pipeline.takeBatch at hstep
  dsimp only at hstep
  split at hstep
  case isFalse => simp at hstep
  case isTrue hguard =>
    obtain ⟨htasks, -, -, -, hnews, holds, hall⟩ := hguard
    cases hstep
    refine h.of_decided (h.decided.perm ?_) rfl rfl rfl
    have hmem : ∀ d ∈ s.write.take n, if d.createNew then d.workspace ∈ news else d.workspace ∈ olds :=
      fun d hd => by
        have hd := all_eq_true.1 hall d hd
        split at hd <;> simp_all
    have hnew := entries_tasksOf (c := c) (s.write.take n) true hnews fun d hd hb => by
      simpa [hb] using hmem d hd
    have hold := entries_tasksOf (c := c) (s.write.take n) false holds fun d hd hb => by
      simpa [hb] using hmem d hd
    have hbatch : ((s.write.take n).filter (·.createNew = true) ++
        (s.write.take n).filter (·.createNew = false)).Perm (s.write.take n) := by
      simpa using filter_append_perm (fun d : WriteDoc => d.createNew) (s.write.take n)
    rw [Pipeline.entries, Pipeline.entries, htasks, flatMap_nil, append_nil]
    refine Perm.append_left _ ?_
    rw [flatMap_append]
    -- the documents of the batch move from the channel to the tasks
    have hmoved : ((Pipeline.tasksOf (s.write.take n) true news).flatMap (·.entries c) ++
        (Pipeline.tasksOf (s.write.take n) false olds).flatMap (·.entries c)).Perm
          ((s.write.take n).map (·.entry c)) := by
      refine (hnew.append hold).trans ?_
      rw [← map_append]
      exact hbatch.map _
    refine (Perm.append_left _ hmoved).trans (perm_append_comm.trans ?_)
    rw [← map_append, take_append_drop]

/-! ### Index operations -/

/-- Giving a document other words. -/
lemma wordsOf_insert (k k' : WorkspaceId × DocId) (doc : Document) :
    wordsOf (docs.insert k doc) k' = if k' = k then doc.words else wordsOf docs k' := by
  rw [wordsOf, GoMap.lookup_insert_if]
  split <;> rfl

lemma wordsOf_erase (k k' : WorkspaceId × DocId) :
    wordsOf (docs.erase k) k' = if k' = k then [] else wordsOf docs k' := by
  rw [wordsOf, GoMap.lookup_erase_if]
  split <;> rfl

lemma setWords_table (hinj : Function.Injective c.table) {L : TableId → DocId → List Keyword}
    (hL : ∀ w d, L (c.table w) d = wordsOf docs (w, d)) (w : WorkspaceId) (d : DocId)
    (words : List Keyword) (w' : WorkspaceId) (d' : DocId) :
    setWords L (c.table w) d words (c.table w') d' =
      if (w', d') = (w, d) then words else wordsOf docs (w', d') := by
  rw [setWords, hL]
  by_cases h : (w', d') = (w, d)
  · obtain ⟨rfl, rfl⟩ := Prod.mk.inj h
    simp
  · rw [if_neg h, if_neg]
    rintro ⟨hw, hd⟩
    exact h (by rw [hinj hw, hd])

namespace Tracked

variable {ix ix' : Index} {doc : Document} {w : WorkspaceId} {f f' : Index.Forced}

lemma add (hinj : Function.Injective c.table) (h : Tracked c ix docs)
    (hnew : docs.lookup (c.key w doc.relPath) = none)
    (hok : ix.Ordered c.index (.add (c.table w) (c.docid doc.relPath) doc.words f))
    (hstep : ix.step c.index (.add (c.table w) (c.docid doc.relPath) doc.words f) = some ix') :
    Tracked c ix' (docs.insert (c.key w doc.relPath) doc) := by
  obtain ⟨L, hL, hwords⟩ := h
  have hforward : ix.readForward (c.table w) (c.docid doc.relPath) = none := by
    rw [hL.tracks.forward, hwords, wordsOf]
    have hnew' : docs.lookup (w, c.docid doc.relPath) = none := hnew
    simp [hnew']
  refine ⟨_, hL.add hforward doc.plain hok hstep, fun w' d' => ?_⟩
  rw [setWords_table hinj hwords, wordsOf_insert]
  rfl

lemma update (hinj : Function.Injective c.table) (h : Tracked c ix docs)
    (hok : ix.Ordered c.index (.update (c.table w) (c.docid doc.relPath) doc.words f f'))
    (hstep : ix.step c.index (.update (c.table w) (c.docid doc.relPath) doc.words f f') = some ix') :
    Tracked c ix' (docs.insert (c.key w doc.relPath) doc) := by
  obtain ⟨L, hL, hwords⟩ := h
  refine ⟨_, hL.update doc.plain hok hstep, fun w' d' => ?_⟩
  rw [setWords_table hinj hwords, wordsOf_insert]
  rfl

lemma delete (hinj : Function.Injective c.table) (h : Tracked c ix docs)
    (hok : ix.Ordered c.index (.delete (c.table w) (c.docid rel) f))
    (hstep : ix.step c.index (.delete (c.table w) (c.docid rel) f) = some ix') :
    Tracked c ix' (docs.erase (c.key w rel)) := by
  obtain ⟨L, hL, hwords⟩ := h
  refine ⟨_, hL.delete hok hstep, fun w' d' => ?_⟩
  rw [setWords_table hinj hwords, wordsOf_erase]
  rfl

/-- A flush or a merge. -/
lemma maintain (h : Tracked c ix docs) {op : Op} (hsets : ∀ t d, op.sets t d = none)
    (hok : ix.Ordered c.index op) (hstep : ix.step c.index op = some ix') :
    Tracked c ix' docs := by
  obtain ⟨L, hL, hwords⟩ := h
  exact ⟨L, hL.maintain hsets hok hstep, hwords⟩

end Tracked

/-! ### Writing -/

/-- The operations of a task are each `Ordered` in the index they meet. -/
def OrderedOps (o : InvertedIndex.Options) : Index → List Op → Prop
  | _, [] => True
  | ix, op :: ops => ix.Ordered o op ∧ ∀ ix' ∈ ix.step o op, OrderedOps o ix' ops

/-- What a task does to the documents and to the index. -/
lemma applied (hinj : Function.Injective c.table) (t : WriteTask) {l : List Document}
    (hlen : fs.length = l.length) {ix ix' : Index} {docs : GoMap (WorkspaceId × DocId) Document}
    (h : Tracked c ix docs) (hnodup : (l.map fun doc => c.key t.workspace doc.relPath).Nodup)
    (hnew : ∀ doc ∈ l, t.createNew = (docs.lookup (c.key t.workspace doc.relPath)).isNone)
    (hok : OrderedOps c.index ix (Pipeline.taskOps c { t with docs := l } fs))
    (hrun : (Pipeline.taskOps c { t with docs := l } fs).foldlM (Index.step c.index) ix =
      some ix') :
    Tracked c ix' (Pipeline.saveDocuments c docs { t with docs := l }) ∧
    (∀ w, stored (Pipeline.saveDocuments c docs { t with docs := l }) w =
      stored docs w + if t.createNew ∧ w = t.workspace then l.length else 0) ∧
    ∀ k ∉ l.map (fun doc => c.key t.workspace doc.relPath),
      (Pipeline.saveDocuments c docs { t with docs := l }).lookup k = docs.lookup k := by
  induction l generalizing docs ix fs with
  | nil =>
    obtain rfl : fs = [] := length_eq_zero_iff.1 hlen
    obtain rfl : ix = ix' := Option.some.inj hrun
    exact ⟨h, by simp [Pipeline.saveDocuments], fun k _ => rfl⟩
  | cons doc l ih =>
    cases fs with
    | nil => simp at hlen
    | cons f fs =>
      obtain ⟨hkey, hnodup⟩ := nodup_cons.1 hnodup
      obtain ⟨hdoc, hnew⟩ := forall_mem_cons.1 hnew
      obtain ⟨hok, hoks⟩ := hok
      change (Index.step c.index ix _ >>= fun ix => foldlM _ ix _) = some ix' at hrun
      obtain ⟨ix₁, hstep, hrun⟩ := Option.bind_eq_some_iff.1 hrun
      have htracked : Tracked c ix₁ (docs.insert (c.key t.workspace doc.relPath) doc) := by
        cases hb : t.createNew with
        | true =>
          rw [hb] at hdoc
          simp only [hb, if_true] at hok hstep
          exact h.add hinj (Option.isNone_iff_eq_none.1 hdoc.symm) hok hstep
        | false =>
          simp only [hb, Bool.false_eq_true, if_false] at hok hstep
          exact h.update hinj hok hstep
      have hother : ∀ k, k ≠ c.key t.workspace doc.relPath →
          (docs.insert (c.key t.workspace doc.relPath) doc).lookup k = docs.lookup k :=
        fun k hk => AList.lookup_insert_ne hk
      obtain ⟨htracked', hstored, hlookup⟩ := ih (by simpa using hlen) htracked hnodup
        (fun doc' hdoc' => by
          have hne : c.key t.workspace doc'.relPath ≠ c.key t.workspace doc.relPath :=
            fun heq => hkey (mem_map.2 ⟨doc', hdoc', heq⟩)
          rw [hother _ hne]
          exact hnew doc' hdoc') (hoks ix₁ hstep) hrun
      refine ⟨htracked', fun w => ?_, fun k hk => ?_⟩
      · refine (hstored w).trans ?_
        have hfirst : stored (docs.insert (c.key t.workspace doc.relPath) doc) w =
            stored docs w + if t.createNew ∧ w = t.workspace then 1 else 0 := by
          cases hb : t.createNew with
          | true =>
            rw [hb] at hdoc
            rw [stored, GoMap.countKeys_insert_new (Option.isNone_iff_eq_none.1 hdoc.symm), stored]
            simp [Config.key, eq_comm]
          | false =>
            rw [hb] at hdoc
            rw [stored, GoMap.countKeys_insert_old (by simpa using hdoc.symm), stored]
            simp
        rw [hfirst]
        split <;> simp [length_cons]; omega
      · rw [map_cons, mem_cons, not_or] at hk
        exact (hlookup k hk.2).trans (hother k hk.1)

lemma Consistent.runTask (hinj : Function.Injective c.table) (h : Consistent c s)
    (hok : ∀ t ∈ s.tasks.head?, OrderedOps c.index s.index (Pipeline.taskOps c t fs))
    (hstep : s.runTask c fs = some s') : Consistent c s' := by
  unfold Pipeline.runTask at hstep
  split at hstep
  · simp at hstep
  case h_2 t rest htasks =>
    split at hstep
    case isFalse => simp at hstep
    case isTrue hlen =>
      obtain ⟨ix, hix, rfl⟩ := Option.map_eq_some_iff.1 hstep
      -- the files of the task come first
      have hperm : (s.entries c).Perm (t.entries c ++ (s.workers.filterMap (·.heldEntry c) ++
          (s.write.map (·.entry c) ++ rest.flatMap (·.entries c)))) := by
        rw [Pipeline.entries, htasks, flatMap_cons]
        refine Perm.trans ?_ (perm_append_comm_assoc _ _ _)
        exact Perm.append_left _ (perm_append_comm_assoc _ _ _)
      have hdecided := h.decided.perm hperm.symm
      have hkeys : (t.entries c).map Prod.fst = t.docs.map fun doc => c.key t.workspace doc.relPath := by
        simp [WriteTask.entries, Function.comp_def]
      have hnodup := hdecided.1
      rw [map_append, nodup_append] at hnodup
      obtain ⟨htracked, hstored, hlookup⟩ := applied hinj t hlen h.tracked (hkeys ▸ hnodup.1)
        (fun doc hdoc => hdecided.2 (c.key t.workspace doc.relPath, t.createNew)
          (mem_append_left _ (mem_map.2 ⟨doc, hdoc, rfl⟩)))
        (hok t (by simp [htasks])) hix
      refine ⟨?_, fun w => ?_, htracked⟩
      · refine (hdecided.sublist (sublist_append_right _ _)).congr fun e he => ?_
        refine hlookup e.1 fun hmem => ?_
        exact hnodup.2.2 e.1 (hkeys ▸ hmem) e.1 (mem_map_of_mem he) rfl
      · dsimp only
        rw [hstored w]
        split
        case isTrue hb =>
          rw [Function.update_apply]
          split
          case isTrue hw => simp [hb, hw, h.counted]
          case isFalse hw => simp [hw, h.counted]
        case isFalse hb => simp [hb, h.counted]

/-! ### Removing -/

/-- A file may be removed while it is not in flight, and the index is ready for it. -/
def RemoveOk (c : Config) (s : Pipeline) (w : WorkspaceId) (rel : RelPath) (f : Index.Forced) : Prop :=
  (s.docs.lookup (c.key w rel)).isSome → c.key w rel ∉ (s.entries c).map Prod.fst ∧
    s.index.Ordered c.index (.delete (c.table w) (c.docid rel) f)

lemma Consistent.removeFile (hinj : Function.Injective c.table) (h : Consistent c s)
    {f : Index.Forced} (hok : RemoveOk c s w rel f) (hstep : s.removeFile c w rel f = some s') :
    Consistent c s' := by
  unfold Pipeline.removeFile at hstep
  split at hstep
  · exact Option.some.inj hstep ▸ h
  case h_2 doc hdoc =>
    obtain ⟨ix, hix, rfl⟩ := Option.map_eq_some_iff.1 hstep
    have hsome : (s.docs.lookup (c.key w rel)).isSome := by simp [hdoc]
    obtain ⟨hfree, hordered⟩ := hok hsome
    refine ⟨h.decided.congr fun e he => ?_, fun w' => ?_, h.tracked.delete hinj hordered hix⟩
    · exact AList.lookup_erase_ne fun heq => hfree (heq ▸ mem_map_of_mem he)
    · have hcount := GoMap.countKeys_erase (p := (·.1 = w')) hsome
      have hbefore := h.counted w'
      rw [stored, hcount] at hbefore
      dsimp only
      rw [Function.update_apply, stored]
      split
      case isTrue hw =>
        subst hw
        rw [hbefore]
        simp [Config.key]
      case isFalse hw =>
        rw [hbefore]
        simp [Config.key, Ne.symm hw]

/-! ### Runs -/

/-- When a step is taken: a worker reads a stored document only while the file is not in flight, a
file is removed only while it is not in flight, and the index operations are `Ordered`. -/
def StepOk (c : Config) (s : Pipeline) : Label → Prop
  | .endUpdate i info f => ∀ r ∈ s.requests[i]?, info = none → RemoveOk c s r.workspace r.relPath f
  | .delete w rel f => RemoveOk c s w rel f
  | .lookUp i => ∀ k ∈ s.workers[i]?.bind (·.looking? c), k ∉ (s.entries c).map Prod.fst
  | .runTask fs => ∀ t ∈ s.tasks.head?, OrderedOps c.index s.index (Pipeline.taskOps c t fs)
  | .maintain op => s.index.Ordered c.index op
  | _ => True

theorem Consistent.step (hinj : Function.Injective c.table) (h : Consistent c s) {l : Label}
    (hok : StepOk c s l) (hstep : s.step c l = some s') : Consistent c s' := by
  cases l with
  | beginUpdate w rel =>
    simp only [Pipeline.step, Pipeline.beginUpdate] at hstep
    split at hstep
    · exact Option.some.inj hstep ▸ { h with }
    · exact Option.some.inj hstep ▸ h
  | endUpdate i info f =>
    simp only [Pipeline.step, Pipeline.endUpdate] at hstep
    split at hstep
    · simp at hstep
    case h_2 r hr =>
      have hs : Consistent c { s with
          requests := s.requests.eraseIdx i
          touched := (r.workspace, c.fullPath r.workspace r.relPath) :: s.touched } := { h with }
      split at hstep
      · exact hs.queueFile hstep
      · split at hstep
        · exact hs.removeFile hinj (hok r hr rfl) hstep
        · exact Option.some.inj hstep ▸ hs
  | delete w rel f => exact h.removeFile hinj hok hstep
  | scan w rel => exact h.queueFile hstep
  | takeFile i => exact h.takeFile hstep
  | statFile i info => exact h.statFile hstep
  | lookUp i => exact h.lookUp hok hstep
  | readFile i content => exact h.readFile hstep
  | handOver i => exact h.handOver hstep
  | takeBatch n news olds => exact h.takeBatch hstep
  | runTask fs => exact h.runTask hinj hok hstep
  | maintain op =>
    simp only [Pipeline.step, Pipeline.maintain] at hstep
    split at hstep
    · obtain ⟨ix, hix, rfl⟩ := Option.map_eq_some_iff.1 hstep
      refine { h with tracked := h.tracked.maintain (fun _ _ => rfl) ?_ hix }
      exact hok
    · obtain ⟨ix, hix, rfl⟩ := Option.map_eq_some_iff.1 hstep
      refine { h with tracked := h.tracked.maintain (fun _ _ => rfl) ?_ hix }
      exact hok
    · simp at hstep

lemma consistent_init (n : ℕ) : Consistent c (.init n) where
  decided := by
    have : (Pipeline.init n).entries c = [] := by
      simp [Pipeline.entries, Pipeline.init, Worker.heldEntry]
    rw [this]
    exact ⟨nodup_nil, by simp⟩
  counted _ := rfl
  tracked := ⟨_, InvertedIndex.stands_empty, fun _ _ => rfl⟩

/-- **Documents and postings agree.** In every run of requests, scans, parser workers and the writer
whose steps meet `StepOk`, in every state reached: after a flush of the index the postings of a
document are exactly the words of the document that was written last, none if it was removed, and
the counter of a workspace is the number of its stored documents. -/
theorem pipeline_consistent (c : Config) (hinj : Function.Injective c.table) {n : ℕ}
    {ls : List Label} {s : Pipeline}
    (hrun : StepSystem.Run (Pipeline.step c) (StepOk c) (.init n) ls s)
    {writes : List (TableId × Keyword)} (hwrites : writes.Perm s.index.pendingWrites.keys)
    (tick : Int64) {f : InvertedIndex.Flush} (hf : f.due.Perm s.index.pendingDeletes.keys) :
    (∀ w kw d, d ∈ InvertedIndex.getDocs (s.index.flush c.index writes tick f).db (c.table w) kw ↔
      ∃ doc, s.docs.lookup (w, d) = some doc ∧ kw ∈ doc.words) ∧
    ∀ w, s.docCount w = stored s.docs w := by
  have h : Consistent c s := hrun.invariant (I := fun _ => Consistent c) (consistent_init n)
    fun h hok hstep => h.step hinj hok hstep
  refine ⟨fun w kw d => ?_, h.counted⟩
  obtain ⟨L, hL, hwords⟩ := h.tracked
  rw [hL.mem_getDocs_flush hwrites tick hf, hwords, wordsOf]
  cases s.docs.lookup (w, d) <;> simp

/-! ### Two runs -/

instance decidableOrderedOps (o : InvertedIndex.Options) :
    (ix : Index) → (ops : List Op) → Decidable (OrderedOps o ix ops)
  | _, [] => .isTrue trivial
  | ix, op :: ops =>
    match h : ix.step o op with
    | none => decidable_of_iff (ix.Ordered o op) (by simp [OrderedOps, h])
    | some ix' =>
      letI := decidableOrderedOps o ix' ops
      decidable_of_iff (ix.Ordered o op ∧ OrderedOps o ix' ops) (by simp [OrderedOps, h])

instance (s : Pipeline) (w : WorkspaceId) (rel : RelPath) (f : Index.Forced) :
    Decidable (RemoveOk c s w rel f) :=
  inferInstanceAs (Decidable (_ → _ ∧ _))

/-- A condition on what an option holds, decided by looking. -/
def decidableForallMem {α : Type} (o : Option α) (p : α → Prop) [DecidablePred p] :
    Decidable (∀ a ∈ o, p a) :=
  decidable_of_iff (o.all (fun a => decide (p a)) = true) (by
    simp [Option.all_eq_true])

instance (s : Pipeline) : (l : Label) → Decidable (StepOk c s l)
  | .endUpdate i info f => decidableForallMem s.requests[i]? fun r =>
      info = none → RemoveOk c s r.workspace r.relPath f
  | .delete w rel f => inferInstanceAs (Decidable (RemoveOk c s w rel f))
  | .lookUp i => decidableForallMem (s.workers[i]?.bind (·.looking? c)) fun k =>
      k ∉ (s.entries c).map Prod.fst
  | .runTask fs => decidableForallMem s.tasks.head? fun t =>
      OrderedOps c.index s.index (Pipeline.taskOps c t fs)
  | .maintain op => inferInstanceAs (Decidable (s.index.Ordered c.index op))
  | .beginUpdate _ _ | .scan _ _ | .takeFile _ | .statFile _ _ | .readFile _ _ | .handOver _
  | .takeBatch _ _ _ => .isTrue trivial

/-- The id of a document is the length of its path. -/
private def byLength : Config where
  path _ := [47, 119]
  table w := w
  docid rel := Int64.ofNat rel.length
  shouldIndex _ _ := true
  maxFileSize := 100
  index := {}

private def walks : Index.Forced :=
  ⟨[], 7, ⟨[], fun _ => 7, InvertedIndex.inOrder⟩⟩

/-- A text whose only word has one letter. -/
private def letter (b : UInt8) (hb : b ≠ 124) : Content :=
  ⟨true, [b], [[b]], Index.Plain.letter hb⟩

/-- Worker `i` reads the state of its file and the stored document. -/
private def beginParse (i : ℕ) (time : Int64) : List Label :=
  [.takeFile i, .statFile i (some ⟨1, time⟩), .lookUp i]

private def endParse (i : ℕ) (content : Content) : List Label :=
  [.readFile i (some content), .handOver i]

/-- Two parses of one file after each other: the second one updates the document. -/
private def parsedInTurn : List Label :=
  [.scan 1 [102], .scan 1 [102]] ++ beginParse 0 5 ++ endParse 0 (letter 97 (by decide)) ++
    [.takeBatch 1 [1] [], .runTask [(walks, walks)]] ++
    beginParse 1 6 ++ endParse 1 (letter 98 (by decide)) ++
    [.takeBatch 1 [] [1], .runTask [(walks, walks)]]

theorem pipeline_consistent_in_turn : ∃ s,
    StepSystem.Run (Pipeline.step byLength) (StepOk byLength) (.init 2) parsedInTurn s ∧
    1 ∉ InvertedIndex.getDocs (s.index.flush {} s.index.pendingWrites.keys 7
      ⟨s.index.pendingDeletes.keys, fun _ => 7, InvertedIndex.inOrder⟩).db 1 [97] ∧
    1 ∈ InvertedIndex.getDocs (s.index.flush {} s.index.pendingWrites.keys 7
      ⟨s.index.pendingDeletes.keys, fun _ => 7, InvertedIndex.inOrder⟩).db 1 [98] ∧
    s.docCount 1 = stored s.docs 1 := by
  refine StepSystem.Run.exists_of_exec_imp (fun s =>
    ((s.docs.lookup (1, 1)).any (·.words = [[98]])) = true) (by decide +kernel) fun s hrun hdoc => ?_
  obtain ⟨doc, hdoc, hwords⟩ := (Option.any_eq_true _ _).1 hdoc
  obtain ⟨hpost, hcount⟩ := pipeline_consistent byLength Function.injective_id hrun
    (.refl s.index.pendingWrites.keys) 7
    (f := ⟨s.index.pendingDeletes.keys, fun _ => 7, InvertedIndex.inOrder⟩) (.refl _)
  have hmem := fun kw => hpost 1 kw 1
  simp only [hdoc, Option.some.injEq, exists_eq_left', of_decide_eq_true hwords] at hmem
  exact ⟨fun h => absurd ((hmem _).1 h) (by decide), (hmem _).2 (by decide), hcount 1⟩

/-- Two workers parse a new file at the same time; both decide that the document is new. -/
private def parsedTwice : List Label :=
  [.scan 1 [102], .scan 1 [102]] ++ beginParse 0 5 ++ beginParse 1 6 ++
    endParse 0 (letter 97 (by decide)) ++ endParse 1 (letter 98 (by decide)) ++
    [.takeBatch 2 [1] [], .runTask [(walks, walks), (walks, walks)]]

/-- The postings of the first version stay, and the document is counted twice. -/
theorem pipeline_inconsistent : ∃ s,
    StepSystem.Run (Pipeline.step byLength) (fun _ _ => True) (.init 2) parsedTwice s ∧
    (∃ doc, s.docs.lookup (1, 1) = some doc ∧ doc.words = [[98]]) ∧
    1 ∈ InvertedIndex.getDocs (s.index.flush {} s.index.pendingWrites.keys 7
      ⟨s.index.pendingDeletes.keys, fun _ => 7, InvertedIndex.inOrder⟩).db 1 [97] ∧
    s.docCount 1 = 2 ∧ stored s.docs 1 = 1 := by
  have hexec : (StepSystem.exec (Pipeline.step byLength) (fun _ _ => True) (.init 2)
      parsedTwice).any (fun s => (s.docs.lookup (1, 1)).any (·.words = [[98]]) ∧
        1 ∈ InvertedIndex.getDocs (s.index.flush {} s.index.pendingWrites.keys 7
          ⟨s.index.pendingDeletes.keys, fun _ => 7, InvertedIndex.inOrder⟩).db 1 [97] ∧
        s.docCount 1 = 2 ∧ stored s.docs 1 = 1) = true := by
    decide +kernel
  obtain ⟨s, hs, hend⟩ := (Option.any_eq_true _ _).1 hexec
  obtain ⟨hdoc, hrest⟩ := of_decide_eq_true hend
  obtain ⟨doc, hdoc, hwords⟩ := (Option.any_eq_true _ _).1 hdoc
  exact ⟨s, StepSystem.Run.of_exec hs, ⟨doc, hdoc, of_decide_eq_true hwords⟩, hrest⟩

end Haystack.Indexer
