import Haystack.InvertedIndex.MergeContract
import Haystack.InvertedIndex.Pending

/-!
# What a flush does to the rows

New rows add documents and touch nothing else. Removing documents from a keyword first puts what
survives into new rows and then deletes the old ones, so that no state in between lacks a document
that is to stay.
-/

namespace Haystack.InvertedIndex

open WriteBatch List

/-! ### Covered documents -/

/-- Every posting that `P` asks for is in the store. -/
def Covers (st : Store) (P : TableId → Keyword → DocId → Prop) : Prop :=
  ∀ t w d, P t w d → d ∈ getDocs st t w

/-- The postings of `P` are in the store as it will be, and were in it after each commit so far. -/
structure Writer.Covering (P : TableId → Keyword → DocId → Prop) (x : Writer) : Prop where
  ahead : Covers x.db.ahead P
  history : ∀ h ∈ x.db.history, Covers h P

variable {css : List (List DocId)} {st₀ : Store} {seq₀ : ℕ}

namespace Writer

variable {P : TableId → Keyword → DocId → Prop} {x : Writer} {tick : Int64} {t t' : TableId}
  {w w' : Keyword} {d : DocId} {docids : List DocId}

lemma mem_getDocs_writeInvertedIndex (h : x.Fresh tick) :
    d ∈ getDocs (x.writeInvertedIndex t w docids tick).db.ahead t' w' ↔
      d ∈ getDocs x.db.ahead t' w' ∨ (t' = t ∧ w' = w) ∧ d ∈ docids := by
  rw [ahead_writeInvertedIndex, mem_getDocs_insert h.rowKey_not_mem, mem_decode_encode, rowKey,
    reads_encodeInvertedKey]

/-- A new row leaves the other rows as they are. -/
lemma lookup_writeInvertedIndex (h : x.Fresh tick) {k v : Bytes}
    (hl : x.db.ahead.lookup k = some v) :
    (x.writeInvertedIndex t w docids tick).db.ahead.lookup k = some v := by
  rw [ahead_writeInvertedIndex, AList.lookup_insert_ne, hl]
  rintro rfl
  exact h.rowKey_not_mem (GoMap.mem_iff_exists_lookup.2 ⟨v, hl⟩)

lemma Covering.writeInvertedIndex (hP : x.Covering P) (h : x.Fresh tick) :
    (x.writeInvertedIndex t w docids tick).Covering P := by
  have hahead : Covers (x.writeInvertedIndex t w docids tick).db.ahead P := fun t' w' d hd =>
    (mem_getDocs_writeInvertedIndex h).2 (.inl (hP.ahead t' w' d hd))
  refine ⟨hahead, fun st hst => ?_⟩
  rcases Db.mem_history_add _ _ _ hst with hst | rfl
  · exact hP.history st hst
  · rwa [Writer.writeInvertedIndex, Db.ahead_add] at hahead

/-- Deleting rows whose covered documents are in other rows. -/
lemma Covering.delete (hP : x.Covering P) {keys : List Bytes}
    (hother : ∀ t w d, P t w d → ∃ k v, k ∉ keys ∧ x.db.ahead.lookup k = some v ∧ Reads t w k ∧
      d ∈ decodeInvertedValue v) : (x.delete keys).Covering P := by
  have hcovers : ∀ ks : List Bytes, ks ⊆ keys →
      Covers (ks.foldl (fun m k => m.erase k) x.db.ahead) P := by
    intro ks hks t w d hd
    obtain ⟨k, v, hk, hl, hr, hdv⟩ := hother t w d hd
    exact mem_getDocs_foldl_erase.2 ⟨k, v, fun hmem => hk (hks hmem), hl, hr, hdv⟩
  constructor
  · rw [ahead_delete]
    exact hcovers keys (Subset.refl _)
  · intro st hst
    rcases Db.mem_history_addAll _ hst with hst | ⟨p, hp, rfl⟩
    · exact hP.history st hst
    · -- a commit between two deletions
      obtain ⟨ks, hks, rfl⟩ : ∃ ks, ks <+: keys ∧ p = ks.map Op.delete := by
        obtain ⟨s, hs⟩ := hp
        obtain ⟨ks, ks', rfl, rfl, -⟩ := map_eq_append_iff.1 hs.symm
        exact ⟨ks, prefix_append _ _, rfl⟩
      have := hcovers ks hks.subset
      rw [applyAll, foldl_map]
      exact this

/-! ### Rows for several lists of documents -/

lemma Fresh.writeRows {tick' : Int64} (h : x.Fresh tick) :
    (x.writeRows t w css tick').Fresh tick := by
  induction css generalizing x with
  | nil => exact h
  | cons c css ih => exact ih h.writeInvertedIndex

lemma Descends.writeRows (h : x.Descends st₀ seq₀) :
    (x.writeRows t w css tick).Descends st₀ seq₀ := by
  induction css generalizing x with
  | nil => exact h
  | cons c css ih => exact ih h.writeInvertedIndex

lemma lookup_writeRows (h : x.Fresh tick) {k v : Bytes} (hl : x.db.ahead.lookup k = some v) :
    (x.writeRows t w css tick).db.ahead.lookup k = some v := by
  induction css generalizing x with
  | nil => exact hl
  | cons c css ih => exact ih h.writeInvertedIndex (lookup_writeInvertedIndex h hl)

lemma Covering.writeRows (hP : x.Covering P) (h : x.Fresh tick) :
    (x.writeRows t w css tick).Covering P := by
  induction css generalizing x with
  | nil => exact hP
  | cons c css ih => exact ih (hP.writeInvertedIndex h) h.writeInvertedIndex

/-- A row after the writes is an old one or a new one. -/
lemma lookup_writeRows_cases (h : x.Fresh tick) {k v : Bytes}
    (hl : (x.writeRows t w css tick).db.ahead.lookup k = some v) :
    x.db.ahead.lookup k = some v ∨
      Reads t w k ∧ ∃ c ∈ css, v = (encodeInvertedValueCounted c).1 := by
  induction css generalizing x with
  | nil => exact .inl hl
  | cons c css ih =>
    rcases ih h.writeInvertedIndex hl with hl | ⟨hr, c', hc', hv⟩
    · rw [ahead_writeInvertedIndex, GoMap.lookup_insert_if] at hl
      split at hl
      case isTrue hk =>
        exact .inr ⟨hk ▸ reads_encodeInvertedKey.2 ⟨rfl, rfl⟩, c, mem_cons_self,
          (Option.some.inj hl).symm⟩
      case isFalse => exact .inl hl
    · exact .inr ⟨hr, c', mem_cons_of_mem _ hc', hv⟩

/-- The rows written are new ones. -/
lemma exists_of_mem_writeRows (h : x.Fresh tick) (hd : ∃ c ∈ css, d ∈ c) :
    ∃ k v, k ∉ x.db.ahead ∧ (x.writeRows t w css tick).db.ahead.lookup k = some v ∧ Reads t w k ∧
      d ∈ decodeInvertedValue v := by
  induction css generalizing x with
  | nil => simp at hd
  | cons c css ih =>
    have hfresh : (x.writeInvertedIndex t w c tick).Fresh tick := h.writeInvertedIndex
    by_cases hc : d ∈ c
    · refine ⟨x.rowKey t w c tick, (encodeInvertedValueCounted c).1, h.rowKey_not_mem,
        lookup_writeRows hfresh ?_, reads_encodeInvertedKey.2 ⟨rfl, rfl⟩, mem_decode_encode.2 hc⟩
      rw [ahead_writeInvertedIndex, AList.lookup_insert]
    · obtain ⟨k, v, hk, hl, hr, hdv⟩ := ih hfresh (by simpa [hc] using hd)
      refine ⟨k, v, fun hmem => hk ?_, hl, hr, hdv⟩
      rw [ahead_writeInvertedIndex]
      exact (AList.mem_insert _).2 (.inr hmem)

end Writer

/-! ### Removing documents -/

lemma flatten_chunks {size : ℕ} (hsize : 1 ≤ size) {fuel : ℕ} {l : List DocId}
    (hfuel : l.length ≤ fuel) : (chunks size fuel l).flatten = l := by
  induction fuel generalizing l with
  | zero => simp [chunks, length_eq_zero_iff.1 (Nat.le_zero.1 hfuel)]
  | succ fuel ih =>
    rw [chunks]
    split
    case isTrue h => simp [h]
    case isFalse h =>
      have hpos := length_pos_of_ne_nil h
      rw [flatten_cons, ih (by simp; omega), take_append_drop]

namespace Writer

variable {P : TableId → Keyword → DocId → Prop} {x : Writer} {tick : Int64} {t t' : TableId}
  {w w' : Keyword} {d : DocId} {removing : List DocId} {size : ℕ} {walk : DocOrder}
  {e : Bytes × Bytes}

/-- No buffered operation changes a row of the keyword. -/
def Settled (x : Writer) (t : TableId) (w : Keyword) : Prop :=
  ∀ k, Reads t w k → x.db.Settled k

lemma Settled.writeRows (h : x.Settled t' w') (hother : ∀ {k}, Reads t' w' k → ¬ Reads t w k) :
    (x.writeRows t w css tick).Settled t' w' := by
  induction css generalizing x with
  | nil => exact h
  | cons c css ih =>
    refine ih fun k hk => Db.Settled.add _ _ _ (h k hk) ?_
    rintro rfl
    exact hother hk (reads_encodeInvertedKey.2 ⟨rfl, rfl⟩)

/-- The lists of documents that `removeDocuments` puts into new rows. -/
def newRows (x : Writer) (size : ℕ) (walk : DocOrder) (t : TableId) (w : Keyword)
    (removing : List DocId) : List (List DocId) :=
  let docids := walk.order ((x.rewrittenRows size t w removing).flatMap (survivors removing)).dedup
  chunks size docids.length docids

lemma removeDocuments_eq (hw : w ≠ []) (hrem : removing ≠ []) :
    x.removeDocuments size tick walk t w removing =
      (x.writeRows t w (x.newRows size walk t w removing) tick).delete
        ((x.rewrittenRows size t w removing).map Prod.fst) := by
  rw [removeDocuments, if_neg (by simp [hw, hrem])]
  rfl

/-- The documents of the new rows are the survivors of the old ones. -/
lemma mem_newRows (hsize : 1 ≤ size) :
    (∃ c ∈ x.newRows size walk t w removing, d ∈ c) ↔
      ∃ e ∈ x.rewrittenRows size t w removing, d ∈ decodeInvertedValue e.2 ∧ d ∉ removing := by
  rw [← mem_flatten, newRows, flatten_chunks hsize le_rfl, (walk.perm _).mem_iff]
  simp [survivors]

/-- A row that is not rewritten loses nothing. -/
lemma not_mem_removing (he : e ∈ rowsOf x.db.store t w)
    (hnot : e ∉ x.rewrittenRows size t w removing) (hd : d ∈ decodeInvertedValue e.2) :
    d ∉ removing := by
  intro hrem
  refine hnot (mem_filter.2 ⟨he, ?_⟩)
  exact decide_eq_true (.inl (any_eq_true.2 ⟨d, hd, decide_eq_true hrem⟩))

lemma mem_rewrittenRows (hset : x.Settled t w) (h : e ∈ x.rewrittenRows size t w removing) :
    x.db.ahead.lookup e.1 = some e.2 ∧ Reads t w e.1 := by
  obtain ⟨hl, hr⟩ := mem_rowsOf.1 (mem_of_mem_filter h)
  exact ⟨(hset e.1 hr) ▸ hl, hr⟩

/-- A document that is not removed has a row that is not deleted: its old one, or a new one. -/
lemma exists_row_of_not_removed (hsize : 1 ≤ size) (hfresh : x.Fresh tick) (hset : x.Settled t w)
    (hd : d ∈ getDocs x.db.ahead t' w') (hnot : ¬ ((t' = t ∧ w' = w) ∧ d ∈ removing)) :
    ∃ k v, k ∉ (x.rewrittenRows size t w removing).map Prod.fst ∧
      (x.writeRows t w (x.newRows size walk t w removing) tick).db.ahead.lookup k = some v ∧
      Reads t' w' k ∧ d ∈ decodeInvertedValue v := by
  obtain ⟨k, v, hl, hr, hdv⟩ := mem_getDocs.1 hd
  by_cases hk : k ∈ (x.rewrittenRows size t w removing).map Prod.fst
  · obtain ⟨e, he, rfl⟩ := mem_map.1 hk
    obtain ⟨hle, hre⟩ := mem_rewrittenRows hset he
    obtain ⟨rfl, rfl⟩ := hr.unique hre
    obtain rfl : e.2 = v := Option.some.inj (hle.symm.trans hl)
    have hsurvives : d ∉ removing := fun h => hnot ⟨⟨rfl, rfl⟩, h⟩
    have hnew : ∃ c ∈ x.newRows size walk t' w' removing, d ∈ c :=
      (mem_newRows hsize).2 ⟨e, he, hdv, hsurvives⟩
    obtain ⟨k', v', hk', hrow⟩ := exists_of_mem_writeRows (t := t') (w := w') hfresh hnew
    refine ⟨k', v', fun hmem => hk' ?_, hrow⟩
    obtain ⟨e', he', rfl⟩ := mem_map.1 hmem
    exact GoMap.mem_iff_exists_lookup.2 ⟨_, (mem_rewrittenRows hset he').1⟩
  · exact ⟨k, v, hk, lookup_writeRows hfresh hl, hr, hdv⟩

/-- `removeDocumentsFromInvertedIndex` takes the documents out of the keyword and changes nothing
else. -/
theorem mem_getDocs_removeDocuments (hsize : 1 ≤ size) (hfresh : x.Fresh tick)
    (hset : x.Settled t w) (hw : w ≠ []) :
    d ∈ getDocs (x.removeDocuments size tick walk t w removing).db.ahead t' w' ↔
      d ∈ getDocs x.db.ahead t' w' ∧ ¬ ((t' = t ∧ w' = w) ∧ d ∈ removing) := by
  by_cases hrem : removing = []
  · simp [removeDocuments, hrem]
  rw [removeDocuments_eq hw hrem, ahead_delete, mem_getDocs_foldl_erase]
  constructor
  · rintro ⟨k, v, hk, hl, hr, hd⟩
    rcases lookup_writeRows_cases hfresh hl with hold | ⟨hr', c, hc, rfl⟩
    · refine ⟨mem_getDocs.2 ⟨k, v, hold, hr, hd⟩, ?_⟩
      rintro ⟨⟨rfl, rfl⟩, hdr⟩
      have hrow : (k, v) ∈ rowsOf x.db.store t' w' := mem_rowsOf.2 ⟨(hset k hr).trans hold, hr⟩
      exact not_mem_removing hrow (fun hmem => hk (mem_map.2 ⟨_, hmem, rfl⟩)) hd hdr
    · obtain ⟨rfl, rfl⟩ := hr.unique hr'
      obtain ⟨e, he, hde, hdr⟩ := (mem_newRows hsize).1 ⟨c, hc, mem_decode_encode.1 hd⟩
      obtain ⟨hle, hre⟩ := mem_rewrittenRows hset he
      exact ⟨mem_getDocs.2 ⟨_, _, hle, hre, hde⟩, fun h => hdr h.2⟩
  · rintro ⟨hd, hnot⟩
    exact exists_row_of_not_removed hsize hfresh hset hd hnot

/-- Removing documents keeps every posting that is not to be removed in the store at each commit. -/
lemma Covering.removeDocuments (hP : x.Covering P) (hsize : 1 ≤ size) (hfresh : x.Fresh tick)
    (hset : x.Settled t w) (hkeep : w ≠ [] → ∀ d, P t w d → d ∉ removing) :
    (x.removeDocuments size tick walk t w removing).Covering P := by
  by_cases hskip : w = [] ∨ removing = []
  · rwa [Writer.removeDocuments, if_pos hskip]
  obtain ⟨hw, hrem⟩ := not_or.1 hskip
  rw [removeDocuments_eq hw hrem]
  refine (hP.writeRows hfresh).delete fun t' w' d hd => ?_
  refine exists_row_of_not_removed hsize hfresh hset (hP.ahead t' w' d hd) ?_
  rintro ⟨⟨rfl, rfl⟩, hdr⟩
  exact hkeep hw d hd hdr

/-- The rows that are deleted are still there after the new rows are written. -/
lemma mentions_rewrittenRows (hfresh : x.Fresh tick) (hset : x.Settled t w) {k : Bytes}
    (hk : k ∈ (x.rewrittenRows size t w removing).map Prod.fst) :
    (x.writeRows t w css tick).db.Mentions k ∧ Reads t w k := by
  obtain ⟨e, he, rfl⟩ := mem_map.1 hk
  obtain ⟨hl, hr⟩ := mem_rewrittenRows hset he
  exact ⟨Db.mentions_of_mem_ahead (GoMap.mem_iff_exists_lookup.2 ⟨_, lookup_writeRows hfresh hl⟩), hr⟩

lemma Fresh.removeDocuments {tick' : Int64} (h : x.Fresh tick') (hfresh : x.Fresh tick)
    (hset : x.Settled t w) : (x.removeDocuments size tick walk t w removing).Fresh tick' := by
  rw [Writer.removeDocuments]
  split
  · exact h
  · exact h.writeRows.delete fun k hk => (mentions_rewrittenRows hfresh hset hk).1

lemma Descends.removeDocuments (h : x.Descends st₀ seq₀) (hfresh : x.Fresh tick)
    (hset : x.Settled t w) : (x.removeDocuments size tick walk t w removing).Descends st₀ seq₀ := by
  rw [Writer.removeDocuments]
  split
  · exact h
  · exact h.writeRows.delete fun k hk => mentions_rewrittenRows hfresh hset hk

/-- The rows of the other keywords are not touched. -/
lemma Settled.removeDocuments (h : x.Settled t' w') (hne : (t', w') ≠ (t, w)) :
    (x.removeDocuments size tick walk t w removing).Settled t' w' := by
  have hother : ∀ {k}, Reads t' w' k → ¬ Reads t w k := by
    intro k hk hk'
    obtain ⟨rfl, rfl⟩ := hk.unique hk'
    exact hne rfl
  rw [Writer.removeDocuments]
  split
  · exact h
  · intro k hk
    refine Db.Settled.addAll _ (Settled.writeRows h hother k hk) fun op hop => ?_
    obtain ⟨k', hk', rfl⟩ := mem_map.1 hop
    obtain ⟨e, he, rfl⟩ := mem_map.1 hk'
    rintro rfl
    exact hother hk (mem_rowsOf.1 (mem_of_mem_filter he)).2

end Writer

/-! ### Flushing the caches -/

lemma Options.one_le_rowSize (o : Options) : 1 ≤ o.rowSize := by
  unfold Options.rowSize
  split <;> omega

section

variable {x : Writer} {due : List (TableId × Keyword)} {size : ℕ} {walk : DocOrder}
  {removing : TableId × Keyword → List DocId} {tick : TableId × Keyword → Int64}
  {t : TableId} {w : Keyword} {d : DocId} {adding : TableId × Keyword → List DocId}

/-- A batch that can go on with the removals of the keywords in `due`. -/
structure Ready (tick : TableId × Keyword → Int64) (due : List (TableId × Keyword)) (x : Writer) :
    Prop where
  fresh : ∀ k, x.Fresh (tick k)
  settled : ∀ k ∈ due, x.Settled k.1 k.2

lemma ready_newWriter {st : Store} {keySeq : ℕ} (h : FreshKeys st keySeq tick)
    (due : List (TableId × Keyword)) : Ready tick due (newWriter st keySeq) :=
  ⟨h.newWriter, fun _ _ _ _ => rfl⟩

lemma Ready.removeDocuments {k : TableId × Keyword} (h : Ready tick (k :: due) x) (hk : k ∉ due) :
    Ready tick due (x.removeDocuments size (tick k) walk k.1 k.2 (removing k)) := by
  have hset := h.settled k mem_cons_self
  refine ⟨fun k' => (h.fresh k').removeDocuments (h.fresh k) hset, fun k' hk' => ?_⟩
  refine (h.settled k' (mem_cons_of_mem _ hk')).removeDocuments fun heq => hk ?_
  rwa [show k = k' from heq.symm]

/-- Removing the documents of several keywords. -/
lemma mem_getDocs_removeAll (h : Ready tick due x) (hsize : 1 ≤ size) (hnodup : due.Nodup) :
    d ∈ getDocs (due.foldl (fun x k =>
        x.removeDocuments size (tick k) walk k.1 k.2 (removing k)) x).db.ahead t w ↔
      d ∈ getDocs x.db.ahead t w ∧ ¬ ((t, w) ∈ due ∧ w ≠ [] ∧ d ∈ removing (t, w)) := by
  induction due generalizing x with
  | nil => simp
  | cons k due ih =>
    obtain ⟨hk, hdue⟩ := nodup_cons.1 hnodup
    rw [foldl_cons, ih (h.removeDocuments hk) hdue]
    have hset := h.settled k mem_cons_self
    obtain ⟨t', w'⟩ := k
    by_cases hw : w' = []
    · subst hw
      rw [Writer.removeDocuments, if_pos (.inl rfl)]
      refine and_congr_right fun _ => not_congr (and_congr_left fun hne => ?_)
      simp [hne.1]
    · rw [Writer.mem_getDocs_removeDocuments hsize (h.fresh _) hset hw]
      by_cases heq : t = t' ∧ w = w'
      · obtain ⟨rfl, rfl⟩ := heq
        simp [hk, hw]
      · simp [heq, mem_cons]

/-- Every posting that is not to be removed stays in the store at each commit. -/
lemma Writer.Covering.removeAll {P : TableId → Keyword → DocId → Prop} (hP : x.Covering P)
    (h : Ready tick due x) (hsize : 1 ≤ size) (hnodup : due.Nodup)
    (hkeep : ∀ t w d, P t w d → (t, w) ∈ due → d ∉ removing (t, w)) :
    (due.foldl (fun x k =>
      x.removeDocuments size (tick k) walk k.1 k.2 (removing k)) x).Covering P := by
  induction due generalizing x with
  | nil => exact hP
  | cons k due ih =>
    obtain ⟨hk, hdue⟩ := nodup_cons.1 hnodup
    have hset := h.settled k mem_cons_self
    refine ih (hP.removeDocuments hsize (h.fresh k) hset fun _ d hd => ?_) (h.removeDocuments hk)
      hdue fun t w d hd hmem => hkeep t w d hd (mem_cons_of_mem _ hmem)
    exact hkeep _ _ d hd mem_cons_self

lemma Writer.Descends.removeAll (hx : x.Descends st₀ seq₀) (h : Ready tick due x)
    (hnodup : due.Nodup) :
    (due.foldl (fun x k =>
      x.removeDocuments size (tick k) walk k.1 k.2 (removing k)) x).Descends st₀ seq₀ := by
  induction due generalizing x with
  | nil => exact hx
  | cons k due ih =>
    obtain ⟨hk, hdue⟩ := nodup_cons.1 hnodup
    exact ih (hx.removeDocuments (h.fresh k) (h.settled k mem_cons_self)) (h.removeDocuments hk)
      hdue

/-- New rows for several keywords. -/
lemma mem_getDocs_writeAll {tick : Int64} (h : x.Fresh tick) :
    d ∈ getDocs (due.foldl (fun x k =>
        x.writeInvertedIndex k.1 k.2 (adding k) tick) x).db.ahead t w ↔
      d ∈ getDocs x.db.ahead t w ∨ (t, w) ∈ due ∧ d ∈ adding (t, w) := by
  induction due generalizing x with
  | nil => simp
  | cons k due ih =>
    rw [foldl_cons, ih h.writeInvertedIndex, Writer.mem_getDocs_writeInvertedIndex h, or_assoc]
    refine or_congr_right ?_
    by_cases heq : (t, w) = k
    · subst heq
      simp
    · have hne : ¬ (t = k.1 ∧ w = k.2) := fun h => heq (Prod.ext h.1 h.2)
      simp [heq, hne]

lemma Writer.Descends.writeAll {tick : Int64} (hx : x.Descends st₀ seq₀) :
    (due.foldl (fun x k => x.writeInvertedIndex k.1 k.2 (adding k) tick) x).Descends st₀ seq₀ := by
  induction due generalizing x with
  | nil => exact hx
  | cons k due ih => exact ih hx.writeInvertedIndex

end

end Haystack.InvertedIndex
