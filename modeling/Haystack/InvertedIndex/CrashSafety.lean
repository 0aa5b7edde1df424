import Haystack.InvertedIndex.Flush

/-!
# Maintenance and crashes

A batch commits by itself when it holds `maxBatchSize` operations, so a crash can leave any of the
states between two commits. Removing documents puts the new rows first, and every committed state
holds each posting that is to stay. Merging deletes first: a commit that falls between the deletion
of a chunk and its new row leaves a state without the postings of the chunk.
-/

namespace Haystack.InvertedIndex

open WriteBatch List

lemma mem_history_commit {x : Writer} {st : Store} (h : st ∈ (x.db.commit false).history) :
    st ∈ x.db.history ∨ st = x.db.ahead := by
  simpa [Db.commit, Db.ahead] using h

/-- Every committed state of `flushPendingDeletes` holds the postings that are not removed. -/
lemma covers_deletesBatch (o : Options) (ix : Index) {f : Flush} (hnodup : f.due.Nodup)
    (hfresh : FreshKeys ix.db ix.keySeq f.tick) {st : Store}
    (hst : st ∈ ((ix.deletesBatch o f).db.commit false).history) :
    Covers st fun t w d => d ∈ getDocs ix.db t w ∧
      ¬ ((t, w) ∈ f.due ∧ d ∈ ix.pendingDeletes.docs (t, w)) := by
  have hnew : (newWriter ix.db ix.keySeq).Covering fun t w d => d ∈ getDocs ix.db t w ∧
      ¬ ((t, w) ∈ f.due ∧ d ∈ ix.pendingDeletes.docs (t, w)) :=
    ⟨fun t w d hd => hd.1, by simp [newWriter, Db.newBatch]⟩
  have hall : (ix.deletesBatch o f).Covering fun t w d => d ∈ getDocs ix.db t w ∧
      ¬ ((t, w) ∈ f.due ∧ d ∈ ix.pendingDeletes.docs (t, w)) :=
    hnew.removeAll (ready_newWriter hfresh f.due) o.one_le_rowSize hnodup
      fun t w d hd hdue hrem => hd.2 ⟨hdue, hrem⟩
  rcases mem_history_commit hst with hst | rfl
  · exact hall.history st hst
  · exact hall.ahead

/-- **Crash safety of maintenance.** Every state that `flushPendingDeletes` commits holds each
posting that was stored before and is not being removed. Every state that a merge commits holds each
posting that was stored before, if no chunk is rewritten with so many operations buffered that its
deletions reach the limit of the batch. Both need that stored keys are not generated again, and the
merge that stored table ids are canonical. -/
theorem maintenance_crash_safe (o : Options) (ix : Index) :
    (∀ f : Flush, f.due.Nodup → FreshKeys ix.db ix.keySeq f.tick →
      ∀ st ∈ ((ix.deletesBatch o f).db.commit false).history, ∀ t w d, d ∈ getDocs ix.db t w →
        ¬ ((t, w) ∈ f.due ∧ d ∈ ix.pendingDeletes.docs (t, w)) → d ∈ getDocs st t w) ∧
    ∀ size ticks clock nextIter x iter,
      mergeBatch size ticks ix.db ix.keySeq nextIter clock = some (x, iter) →
      (∀ k ∈ ix.db, Canonical k) → FreshKeys ix.db ix.keySeq ticks →
      (∀ c ∈ x.rewritten, (c.1 + c.2 : ℤ) < maxBatchSize) →
      ∀ st ∈ (x.db.commit false).history, ∀ t w d, d ∈ getDocs ix.db t w → d ∈ getDocs st t w := by
  constructor
  · intro f hnodup hfresh st hst t w d hd hnot
    exact covers_deletesBatch o ix hnodup hfresh hst t w d ⟨hd, hnot⟩
  · intro size ticks clock nextIter x iter hmerge hcanon hfresh hfit st hst t w d hd
    obtain ⟨next, hkeeps⟩ := keeps_mergeBatch hcanon hfresh hmerge
    rcases mem_history_commit hst with hst | rfl
    · exact hkeeps.history hfit st hst t w d hd
    · exact (hkeeps.docs t w d).2 hd

/-- The index over `twoRows` with a pending removal of document 3. -/
def twoRowsRemoving : Index :=
  ⟨twoRows, ∅, (∅ : Cache).insert (1, [97]) [3], 0, 1, 2⟩

def twoRowsFlush : Flush :=
  ⟨[(1, [97])], fun _ => 7, ⟨id, List.Perm.refl⟩⟩

theorem maintenance_crash_safe_twoRows :
    (∀ st ∈ ((twoRowsRemoving.deletesBatch {} twoRowsFlush).db.commit false).history,
      4 ∈ getDocs st 1 [97]) ∧
    ∃ x iter, mergeBatch 1000 (fun _ => 7) twoRows 2 [keyTypeRow] none = some (x, iter) ∧
      ∀ st ∈ (x.db.commit false).history, 3 ∈ getDocs st 1 [97] ∧ 4 ∈ getDocs st 1 [97] := by
  have hsafe := maintenance_crash_safe {} twoRowsRemoving
  have hdocs : 3 ∈ getDocs twoRows 1 [97] ∧ 4 ∈ getDocs twoRows 1 [97] := by decide +kernel
  constructor
  · intro st hst
    refine hsafe.1 twoRowsFlush (by decide) (freshKeys_twoRows _) st hst 1 [97] 4 hdocs.2 ?_
    decide +kernel
  · have hmerge : (mergeBatch 1000 (fun _ => 7) twoRows 2 [keyTypeRow] none).any
        (fun r => ∀ c ∈ r.1.rewritten, (c.1 + c.2 : ℤ) < maxBatchSize) = true := by decide +kernel
    obtain ⟨⟨x, iter⟩, hx, hfit⟩ := (Option.any_eq_true _ _).1 hmerge
    have hkept := hsafe.2 1000 _ _ _ x iter hx canonical_twoRows (freshKeys_twoRows _)
      (of_decide_eq_true hfit)
    exact ⟨x, iter, hx, fun st hst => ⟨hkept st hst _ _ _ hdocs.1, hkept st hst _ _ _ hdocs.2⟩⟩

/-! ### A merge that commits in the middle of a chunk -/

/-- A row of keyword `a` with document 3. -/
def rowAt (i : ℕ) : Bytes × Bytes :=
  (encodeInvertedKey 1 [97] 1 7 i, (encodeInvertedValueCounted [3]).1)

/-- Many rows of one keyword, as many small flushes write them. -/
def manyRows (n : ℕ) : Store where
  entries := (List.range n).map fun i => ⟨(rowAt i).1, (rowAt i).2⟩
  nodupKeys := by
    rw [List.NodupKeys, List.keys, List.map_map]
    exact List.nodup_range.map fun i j h => seq_of_encodeInvertedKey_eq h

variable {n : ℕ}

lemma mem_manyRows {k v : Bytes} : (manyRows n).lookup k = some v ↔ ∃ i < n, (k, v) = rowAt i := by
  rw [← GoMap.mem_entries_iff]
  simp [manyRows, Prod.ext_iff, eq_comm]

lemma decodeInvertedKey_rowAt (i : ℕ) : (decodeInvertedKey (rowAt i).1).tableId = 1 ∧
    (decodeInvertedKey (rowAt i).1).keyword = [97] ∧
    (decodeInvertedKey (rowAt i).1).doccount = 1 := by
  simp [rowAt, decodeInvertedKey_encodeInvertedKey]

variable {rows : List (Bytes × Bytes)}

/-- Rows of the group in progress are collected. -/
lemma collect_rowAt {s : Scan} (hlast : s.lastTableId = 1) (hkeyword : s.current.keyword = [97])
    (hrows : ∀ e ∈ rows, ∃ i, e = rowAt i) :
    collect 1000 s rows
      = .done s.pending (rows.foldl (fun g e => g.addRow (recordOf e)) s.current) := by
  induction rows generalizing s with
  | nil => rfl
  | cons e rows ih =>
    obtain ⟨i, rfl⟩ := hrows e mem_cons_self
    obtain ⟨ht, hw, hc⟩ := decodeInvertedKey_rowAt i
    have hrow : s.row 1000 (rowAt i) = .ok { s with current := s.current.addRow (recordOf (rowAt i)) } := by
      have henter : s.enter (decodeInvertedKey (rowAt i).1) = s := by
        rw [Scan.enter, if_neg (by rw [hlast]; decide)]
      rw [Scan.row]
      dsimp only
      rw [henter, ht, hw, hc, if_neg (by decide), if_neg (by simp), if_pos ⟨hlast, hkeyword⟩]
    rw [collect, hrow]
    exact ih hlast hkeyword fun e he => hrows e (mem_cons_of_mem _ he)

/-- The first row gives the group its table and keyword. -/
lemma collect_initial (hne : rows ≠ []) (hrows : ∀ e ∈ rows, ∃ i, e = rowAt i) :
    collect 1000 ⟨invalidId, ⟨0, [], [], 0⟩, [], none⟩ rows
      = collect 1000 ⟨1, ⟨1, [97], [], 0⟩, [], none⟩ rows := by
  obtain ⟨e, rows, rfl⟩ := exists_cons_of_ne_nil hne
  obtain ⟨i, rfl⟩ := hrows e mem_cons_self
  obtain ⟨ht, hw, -⟩ := decodeInvertedKey_rowAt i
  have henter : Scan.enter ⟨invalidId, ⟨0, [], [], 0⟩, [], none⟩ (decodeInvertedKey (rowAt i).1)
      = Scan.enter ⟨1, ⟨1, [97], [], 0⟩, [], none⟩ (decodeInvertedKey (rowAt i).1) := by
    rw [Scan.enter, Scan.enter, if_pos rfl, if_neg (by decide), ht, hw]
  have hvalid : (decodeInvertedKey (rowAt i).1).tableId ≠ invalidId := by
    rw [ht]
    decide
  simp only [collect, Scan.row, henter, if_neg hvalid]

lemma foldl_addRow_rowAt {g : Group} (hrows : ∀ e ∈ rows, ∃ i, e = rowAt i) :
    rows.foldl (fun g e => g.addRow (recordOf e)) g = { g with
      rows := g.rows ++ rows.map recordOf
      docCount := g.docCount + Int64.ofNat rows.length } := by
  induction rows generalizing g with
  | nil => simp
  | cons e rows ih =>
    obtain ⟨i, rfl⟩ := hrows e mem_cons_self
    rw [foldl_cons, ih fun e he => hrows e (mem_cons_of_mem _ he)]
    have hcount : (recordOf (rowAt i)).docCount = 1 := (decodeInvertedKey_rowAt i).2.2
    simp only [Group.addRow, hcount, append_assoc, map_cons, length_cons,
      Int64.ofNat_add, singleton_append]
    congr 1
    rw [Int64.add_assoc, Int64.add_comm 1]
    rfl

/-- All rows go into one chunk: they have one document between them. -/
lemma takeChunk_rowAt {taken rows : List RecordRow} {left : Int64}
    (hrows : ∀ r ∈ taken ++ rows, ∃ i, r = recordOf (rowAt i)) :
    ∃ left', takeChunk 1000 taken rows left = (taken ++ rows, [], left') := by
  induction rows generalizing taken left with
  | nil => exact ⟨left, by simp [takeChunk]⟩
  | cons r rows ih =>
    have hdocs : docsOf taken ⊆ [3] := by
      intro d hd
      obtain ⟨r, hr, hd⟩ := mem_docsOf.1 hd
      obtain ⟨i, rfl⟩ := hrows r (mem_append_left _ hr)
      exact mem_decode_encode.1 hd
    have hlen : (docsOf taken).length ≤ 1 :=
      ((nodup_dedup _).subperm hdocs).length_le
    rw [takeChunk, if_pos (.inl (by omega))]
    obtain ⟨left', h⟩ := @ih (taken ++ [r]) (left - r.docCount) (by simpa using hrows)
    exact ⟨left', by simpa using h⟩

/-- A group of such rows is rewritten in one chunk. -/
lemma rewriteIndex_rowAt {x : Writer} {rows : List RecordRow} (hlen : 2 ≤ rows.length)
    (hlt : rows.length < 2 ^ 63) (hrows : ∀ r ∈ rows, ∃ i, r = recordOf (rowAt i)) :
    x.rewriteIndex 1000 (fun _ => 7) ⟨1, [97], rows, Int64.ofNat rows.length⟩
      = x.rewriteChunk 1 [97] rows 7 := by
  have hquot : ¬ ((Int64.ofNat rows.length).toInt.tdiv rows.length > (1000 : ℕ)) := by
    rw [Int64.toInt_ofNat_of_lt hlt, Int.tdiv_self (by omega)]
    omega
  rw [Writer.rewriteIndex, if_neg (not_or.2 ⟨not_lt.2 hlen, hquot⟩)]
  dsimp only
  generalize hfuel : rows.length = fuel
  generalize Int64.ofNat fuel = left
  obtain ⟨fuel, rfl⟩ : ∃ m, fuel = m + 1 := ⟨fuel - 1, by omega⟩
  obtain ⟨left', htake⟩ := @takeChunk_rowAt [] rows left (by simpa using hrows)
  rw [Writer.rewriteRows, if_neg (by omega), htake]
  cases fuel with
  | zero => rfl
  | succ fuel => rfl

/-- The rows that the merge scans. -/
def scanned (n : ℕ) : List (Bytes × Bytes) :=
  scanRange (manyRows n) [keyTypeRow] rowsEnd

lemma mem_scanned {e : Bytes × Bytes} : e ∈ scanned n ↔ ∃ i < n, e = rowAt i := by
  have hrange : ∀ i, [keyTypeRow] ≤ (rowAt i).1 ∧ (rowAt i).1 < rowsEnd := by
    intro i
    have hkey : ∃ tail, (rowAt i).1 = keyTypeRow :: 49 :: tail := ⟨_, rfl⟩
    obtain ⟨tail, htail⟩ := hkey
    rw [htail]
    refine ⟨Bytes.cons_le_cons_iff.2 (.inr ⟨rfl, Bytes.nil_le _⟩), ?_⟩
    rw [rowsEnd, cons_lt_cons_iff, cons_lt_cons_iff]
    exact .inr ⟨rfl, .inl (by decide)⟩
  rw [scanned, mem_scanRange, mem_manyRows]
  constructor
  · exact fun h => h.1
  · rintro ⟨i, hi, rfl⟩
    exact ⟨⟨i, hi, rfl⟩, hrange i⟩

lemma length_scanned (n : ℕ) : (scanned n).length = n := by
  rw [scanned, scanRange, length_scanWhere, countP_eq_length.2]
  · simp [manyRows]
  · intro e he
    have hmem : ((e.1, e.2) : Bytes × Bytes) ∈ scanned n :=
      mem_scanned.2 (mem_manyRows.1 (GoMap.mem_entries_iff.1 he))
    simpa using (mem_scanRange.1 hmem).2

/-- The merge replaces all rows at once. -/
lemma mergeBatch_manyRows (hn : 2 ≤ n) (hlt : n < 2 ^ 63) :
    mergeBatch 1000 (fun _ => 7) (manyRows n) n [keyTypeRow] none =
      some ((newWriter (manyRows n) n).rewriteChunk 1 [97] ((scanned n).map recordOf) 7, []) := by
  have hrow : ∀ e ∈ scanned n, ∃ i, e = rowAt i := fun e he => by
    obtain ⟨i, -, heq⟩ := mem_scanned.1 he
    exact ⟨i, heq⟩
  have hcollect : collect 1000 ⟨invalidId, ⟨0, [], [], 0⟩, [], none⟩ (scanned n)
      = .done [] ⟨1, [97], (scanned n).map recordOf, Int64.ofNat n⟩ := by
    rw [collect_initial (ne_nil_of_length_pos (by rw [length_scanned]; omega)) hrow,
      collect_rowAt rfl rfl hrow, foldl_addRow_rowAt hrow, length_scanned]
    simp
  have hlen : ((scanned n).map recordOf).length = n := by
    rw [length_map, length_scanned]
  have hrecord : ∀ r ∈ (scanned n).map recordOf, ∃ i, r = recordOf (rowAt i) := by
    intro r hr
    obtain ⟨e, he, rfl⟩ := mem_map.1 hr
    exact (hrow e he).imp fun i h => congrArg recordOf h
  have hrewrite := @rewriteIndex_rowAt (newWriter (manyRows n) n) ((scanned n).map recordOf)
    (by omega) (by omega) hrecord
  rw [hlen] at hrewrite
  have hscan : scanRange (newWriter (manyRows n) n).db.store [keyTypeRow] rowsEnd = scanned n := rfl
  rw [mergeBatch, mergeRounds, hscan, hcollect]
  dsimp only
  rw [if_pos (by omega), nil_append, foldl_cons, foldl_nil, hrewrite]

/-- If the deletions of a chunk just reach the limit, they are committed without the new row. -/
lemma mem_history_rewriteChunk {x : Writer} {t : TableId} {w : Keyword} {chunk : List RecordRow}
    {tick : Int64} (hne : chunk ≠ []) (h : (x.db.count + chunk.length : ℤ) = x.db.maxBatchSize) :
    (chunk.map RecordRow.key).foldl (fun m k => m.erase k) x.db.ahead
      ∈ (x.rewriteChunk t w chunk tick).db.history := by
  have hcommit := @Db.addAll_of_count_eq _ _ _ ((chunk.map RecordRow.key).map Op.delete) x.db
    (by simpa using hne) (by simpa using h)
  rw [applyAll, foldl_map] at hcommit
  exact Db.history_subset_add _ _ _ hcommit

/-- Without its rows the keyword has no document. -/
lemma not_mem_getDocs_erase_scanned (n : ℕ) (t : TableId) (w : Keyword) (d : DocId) :
    d ∉ getDocs ((((scanned n).map recordOf).map RecordRow.key).foldl (fun m k => m.erase k)
      (manyRows n)) t w := by
  intro hmem
  obtain ⟨k, v, hk, hl, -⟩ := mem_getDocs_foldl_erase.1 hmem
  have hrow : (k, v) ∈ scanned n := mem_scanned.2 (mem_manyRows.1 hl)
  exact hk (mem_map.2 ⟨_, mem_map_of_mem hrow, rfl⟩)

lemma exists_history_manyRows (hn : 2 ≤ n) (hmax : (n : ℤ) = maxBatchSize) :
    ∃ x iter, mergeBatch 1000 (fun _ => 7) (manyRows n) n [keyTypeRow] none = some (x, iter) ∧
      3 ∈ getDocs (manyRows n) 1 [97] ∧ ∃ st ∈ x.db.history, 3 ∉ getDocs st 1 [97] := by
  have hlt : n < 2 ^ 63 := by
    rw [maxBatchSize] at hmax
    omega
  have hlen : ((scanned n).map recordOf).length = n := by
    rw [length_map, length_scanned]
  refine ⟨_, _, mergeBatch_manyRows hn hlt, ?_, _, mem_history_rewriteChunk ?_ ?_,
    not_mem_getDocs_erase_scanned n _ _ _⟩
  · exact mem_getDocs.2 ⟨_, _, mem_manyRows.2 ⟨0, by omega, rfl⟩,
      reads_encodeInvertedKey.2 ⟨rfl, rfl⟩, mem_decode_encode.2 (mem_singleton_self 3)⟩
  · exact ne_nil_of_length_pos (by omega)
  · rw [hlen, ← show maxBatchSize = (newWriter (manyRows n) n).db.maxBatchSize from rfl, ← hmax]
    exact Int.zero_add _

/-- **A lost posting.** A keyword has 512 rows with one document. The merge deletes the 512 rows, and
the batch commits before the merged row is put: a crash now leaves no row of the keyword. -/
theorem merge_loses_postings :
    ∃ x iter, mergeBatch 1000 (fun _ => 7) (manyRows 512) 512 [keyTypeRow] none = some (x, iter) ∧
      3 ∈ getDocs (manyRows 512) 1 [97] ∧ ∃ st ∈ x.db.history, 3 ∉ getDocs st 1 [97] :=
  exists_history_manyRows (by decide) rfl

end Haystack.InvertedIndex
