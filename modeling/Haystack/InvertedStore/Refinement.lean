import Haystack.InvertedStore.Preservation

/-!
# The answers of a store

In a run whose steps keep the chains in order, every reader answers from the last operation on each
document: the store refines the map from documents to the keywords of their last operation. Without
the condition on tiered merges it does not: the output of a merge is ordered by an id reserved when
the merge is selected, which is above the ids of newer segments of lower levels.
-/

namespace Haystack.InvertedStore

namespace Store

variable {opts : Options} {s s' : Store} {t : TableId} {d : DocId}

/-! ### Answers and newest versions -/

lemma Readable.mem_getDocs (h : Readable s) (ht : t ∈ s.man.tables) {w : Keyword} :
    d ∈ s.getDocs t w ↔ w ∈ s.words t d := by
  rw [Store.mem_getDocs h.wf, h.topAct_eq_true_iff ht]
  simp [ht]

lemma Readable.mem_search (h : Readable s) {toLower : Keyword → Keyword} (ht : t ∈ s.man.tables)
    {query : Keyword} : d ∈ s.search toLower t query ↔ ∃ w ∈ s.words t d, toLower query <+: w := by
  rw [Store.mem_search h.wf]
  simp only [h.topAct_eq_true_iff ht, ht, true_and, and_comm]

lemma Readable.mem_forwardDocids (h : Readable s) (ht : t ∈ s.man.tables) :
    d ∈ s.forwardDocids t ↔ s.words t d ≠ ∅ := by
  rw [Store.mem_forwardDocids h.wf fun x hx => (h.heads.wf_of_mem hx).words_ne, ← topRec_getD]
  cases s.topRec t d <;> simp [ht]

/-- Two stores that no reader of a table can tell apart. -/
structure SameAnswers (s s' : Store) (t : TableId) : Prop where
  search : ∀ toLower query, s'.search toLower t query = s.search toLower t query
  getDocs : ∀ w, s'.getDocs t w = s.getDocs t w
  forwardDocids : s'.forwardDocids t = s.forwardDocids t
  forwardKeywords : ∀ d, ∃ words words' del del', s.forwardKeywords t d = some (words, del) ∧
    s'.forwardKeywords t d = some (words', del') ∧ words'.toFinset = words.toFinset

/-- The answers about a table depend on the newest versions of its documents only. -/
theorem sameAnswers_of_words (h : Readable s) (h' : Readable s') (ht : t ∈ s.man.tables)
    (ht' : t ∈ s'.man.tables) (hwords : ∀ d, s'.words t d = s.words t d) :
    SameAnswers s s' t where
  search toLower query := by
    ext d
    rw [h.mem_search ht, h'.mem_search ht', hwords]
  getDocs w := by
    ext d
    rw [h.mem_getDocs ht, h'.mem_getDocs ht', hwords]
  forwardDocids := by
    ext d
    rw [h.mem_forwardDocids ht, h'.mem_forwardDocids ht', hwords]
  forwardKeywords d := by
    obtain ⟨words, del, hf, hw⟩ := h.exists_forwardKeywords t d
    obtain ⟨words', del', hf', hw'⟩ := h'.exists_forwardKeywords t d
    exact ⟨words, words', del, del', hf, hf', by rw [hw, hw', hwords]⟩

/-! ### Runs -/

variable {tables : List TableId} {next : TableId} {ls : List Label}
  (htables : ∀ t ∈ tables, Fits t)
  (hrun : StepSystem.Run (step opts) (StepOk opts) (empty tables next) ls s)
include htables hrun

/-- The documents of a keyword are those whose last operation carries it. -/
theorem getDocs_run {t : TableId} (ht : t ∈ s.man.tables) (w : Keyword) (d : DocId) :
    d ∈ s.getDocs t w ↔ w ∈ lastKeywords (opsOf ls) t d := by
  obtain ⟨hsound, hwords⟩ := sound_run htables hrun
  rw [hsound.readable.mem_getDocs ht, hwords t ht, List.mem_toFinset]

/-- **The readers answer from the last operations.** A prefix search finds the documents whose last
operation carries an extension of the query, and the forward map holds the keywords of the last
operation. -/
theorem readers_run (ht : t ∈ s.man.tables) (d : DocId) :
    (∀ toLower query, d ∈ s.search toLower t query ↔
      ∃ w ∈ lastKeywords (opsOf ls) t d, toLower query <+: w) ∧
    (d ∈ s.forwardDocids t ↔ lastKeywords (opsOf ls) t d ≠ []) ∧
    ∃ words del, s.forwardKeywords t d = some (words, del) ∧
      words.toFinset = (lastKeywords (opsOf ls) t d).toFinset := by
  obtain ⟨hsound, hwords⟩ := sound_run htables hrun
  refine ⟨fun toLower query => ?_, ?_, ?_⟩
  · simp only [hsound.readable.mem_search ht, hwords t ht, List.mem_toFinset]
  · rw [hsound.readable.mem_forwardDocids ht, hwords t ht, ne_eq, List.toFinset_eq_empty_iff]
  · obtain ⟨words, del, hf, hw⟩ := hsound.readable.exists_forwardKeywords t d
    exact ⟨words, del, hf, hw.trans (hwords t ht d)⟩

/-- **Background work is invisible.** After the same operations the answers are the same, whatever
was spilled and merged in between, and with whatever options. -/
theorem sameAnswers_of_opsOf_eq {opts' : Options} {next' : TableId} {ls' : List Label}
    (hrun' : StepSystem.Run (step opts') (StepOk opts') (empty tables next') ls' s')
    (hops : opsOf ls' = opsOf ls) (ht : t ∈ s.man.tables) (ht' : t ∈ s'.man.tables) :
    SameAnswers s s' t := by
  obtain ⟨hsound, hwords⟩ := sound_run htables hrun
  obtain ⟨hsound', hwords'⟩ := sound_run htables hrun'
  refine sameAnswers_of_words hsound.readable hsound'.readable ht ht' fun d => ?_
  rw [hwords t ht, hwords' t ht', hops]

omit htables hrun

/-- A document is posted again while a merge of its table runs, and all is compacted at the end. -/
def repostedRun : List Label :=
  [.apply [⟨1, 1, [[97]]⟩], .spill 1, .apply [⟨1, 2, [[98]]⟩], .spill 1, .selectTiered,
    .apply [⟨1, 1, [[98]]⟩], .spill 1, .installMerge, .selectCovering true false, .installMerge]

theorem getDocs_run_reposted : ∃ s,
    StepSystem.Run (step (.singleBlock 1000 2 (by decide) (by decide)))
      (StepOk (.singleBlock 1000 2 (by decide) (by decide))) (empty [1] 2) repostedRun s ∧
    (1 : DocId) ∈ s.getDocs 1 [98] ∧ (1 : DocId) ∉ s.getDocs 1 [97] := by
  refine StepSystem.Run.exists_of_exec_imp (fun s => 1 ∈ s.man.tables)
    (by decide +kernel) fun s hrun h => ?_
  have hget := getDocs_run (by decide) hrun h
  exact ⟨(hget _ _).2 (by decide), fun h' => absurd ((hget _ _).1 h') (by decide)⟩

theorem readers_run_reposted : ∃ s,
    StepSystem.Run (step (.singleBlock 1000 2 (by decide) (by decide)))
      (StepOk (.singleBlock 1000 2 (by decide) (by decide))) (empty [1] 2) repostedRun s ∧
    (1 : DocId) ∈ s.search id 1 [] ∧ (3 : DocId) ∉ s.forwardDocids 1 := by
  refine StepSystem.Run.exists_of_exec_imp (fun s => 1 ∈ s.man.tables)
    (by decide +kernel) fun s hrun h => ?_
  exact ⟨((readers_run (by decide) hrun h 1).1 id []).2 (by decide),
    fun h' => (readers_run (by decide) hrun h 3).2.1.1 h' (by decide)⟩

/-- The operations alone, with other options. -/
theorem sameAnswers_reposted : ∃ s,
    StepSystem.Run (step (.singleBlock 1000 2 (by decide) (by decide)))
      (StepOk (.singleBlock 1000 2 (by decide) (by decide))) (empty [1] 2) repostedRun s ∧ ∃ s',
    StepSystem.Run (step (.singleBlock 2000 3 (by decide) (by decide)))
      (StepOk (.singleBlock 2000 3 (by decide) (by decide))) (empty [1] 2)
      [.apply [⟨1, 1, [[97]]⟩, ⟨1, 2, [[98]]⟩, ⟨1, 1, [[98]]⟩]] s' ∧ SameAnswers s s' 1 := by
  refine StepSystem.Run.exists_of_exec_imp (fun s => 1 ∈ s.man.tables)
    (by decide +kernel) fun s hrun h => ?_
  refine StepSystem.Run.exists_of_exec_imp (fun s => 1 ∈ s.man.tables)
    (by decide +kernel) fun s' hrun' h' => ?_
  exact sameAnswers_of_opsOf_eq (by decide) hrun hrun' rfl h h'

end Store

/-- Segment 7 holds the last operation on document 1. The merge of the two segments of level 1 is
selected while segment 7 is alone on level 0, gets the id 8, and so hides it. -/
def staleRun : List Label :=
  [.apply [⟨1, 1, [[97]]⟩], .spill 1, .apply [⟨1, 2, [[99]]⟩], .spill 1,
    .selectTiered, .installMerge,
    .apply [⟨1, 3, [[99]]⟩], .spill 1, .apply [⟨1, 4, [[99]]⟩], .spill 1,
    .selectTiered, .apply [⟨1, 1, [[98]]⟩], .spill 1, .installMerge,
    .selectTiered, .installMerge]

theorem getDocs_stale : ∃ s,
    StepSystem.Run (step (.singleBlock 1000 2 (by decide) (by decide))) (fun _ l => l.Plain)
      (Store.empty [1] 2) staleRun s ∧
    s.segs.map Segment.id = [7, 8] ∧ 1 ∈ s.man.tables ∧ (1 : DocId) ∈ s.getDocs 1 [97] ∧
      [97] ∉ lastKeywords (opsOf staleRun) 1 1 := by
  refine StepSystem.Run.exists_of_exec_imp (fun s => s.segs.map Segment.id = [7, 8] ∧
    1 ∈ s.man.tables ∧ (1 : DocId) ∈ s.getDocs 1 [97]) (by decide +kernel) fun s _ h => ?_
  exact ⟨h.1, h.2.1, h.2.2, by decide⟩

end Haystack.InvertedStore
