import Haystack.InvertedIndex.Merger

/-!
# The pending caches

`Add`, `Update` and `Delete` buffer their postings in two caches, one for additions and one for
removals, and write the forward map at once. A flush moves entries of a cache to the store: an
addition becomes a new row, a removal rewrites the rows of its keyword. The caches are flushed
periodically, when they grow too large, and on closing; a map is walked in an order of its own.
-/

namespace Haystack.InvertedIndex

open WriteBatch

/-- `pendingTableWrites` of all tables: the documents buffered for each keyword. -/
abbrev Cache := GoMap (TableId × Keyword) (List DocId)

namespace Cache

def docs (c : Cache) (k : TableId × Keyword) : List DocId :=
  (c.lookup k).getD []

/-- Append a document to the entries of some keywords. -/
def buffer (c : Cache) (t : TableId) (d : DocId) (keywords : List Keyword) : Cache :=
  keywords.foldl (fun c w => c.insert (t, w) (c.docs (t, w) ++ [d])) c

def eraseAll (c : Cache) (ks : List (TableId × Keyword)) : Cache :=
  ks.foldl (fun c k => c.erase k) c

/-- The number of documents buffered under some keywords. -/
def postings (c : Cache) (ks : List (TableId × Keyword)) : ℕ :=
  (ks.map fun k => (c.docs k).length).sum

@[simp] lemma docs_empty (k : TableId × Keyword) : (∅ : Cache).docs k = [] := rfl

variable {k : TableId × Keyword}

lemma mem_of_mem_docs {c : Cache} {d : DocId} (h : d ∈ c.docs k) : k ∈ c := by
  rw [docs] at h
  cases hl : c.lookup k with
  | none => simp [hl] at h
  | some ds => exact GoMap.mem_iff_exists_lookup.2 ⟨ds, hl⟩

@[simp] lemma mem_docs_buffer {c : Cache} {t : TableId} {d d' : DocId} {keywords : List Keyword} :
    d' ∈ (c.buffer t d keywords).docs k ↔
      d' ∈ c.docs k ∨ d' = d ∧ k.1 = t ∧ k.2 ∈ keywords := by
  induction keywords generalizing c with
  | nil => simp [buffer]
  | cons w keywords ih =>
    have hcons : c.buffer t d (w :: keywords)
        = buffer (c.insert (t, w) (c.docs (t, w) ++ [d])) t d keywords := rfl
    rw [hcons, ih, docs, GoMap.lookup_insert_if]
    split
    case isTrue h =>
      subst h
      rw [Option.getD_some, List.mem_append, List.mem_singleton, List.mem_cons]
      tauto
    case isFalse h =>
      have hne : k.1 = t → k.2 ≠ w := fun h₁ h₂ => h (Prod.ext h₁ h₂)
      rw [← docs, List.mem_cons]
      tauto

@[simp] lemma docs_eraseAll (c : Cache) (ks : List (TableId × Keyword)) (k : TableId × Keyword) :
    (c.eraseAll ks).docs k = if k ∈ ks then [] else c.docs k := by
  induction ks generalizing c with
  | nil => simp [eraseAll]
  | cons k' ks ih =>
    have hcons : c.eraseAll (k' :: ks) = eraseAll (c.erase k') ks := rfl
    rw [hcons, ih, docs, GoMap.lookup_erase_if]
    by_cases h : k = k' <;> by_cases h' : k ∈ ks <;> simp [h, h', docs]

end Cache

structure Options where
  maxInvertedIndexSize : ℤ := 0
  maxPendingPostings : ℤ := 0

/-- The number of documents of a row; 1000 unless the option is positive. -/
def Options.rowSize (o : Options) : ℕ :=
  if o.maxInvertedIndexSize > 0 then o.maxInvertedIndexSize.toNat else 1000

/-- The number of postings at which a cache is flushed; 0 when there is no bound. -/
def Options.pendingBound (o : Options) : ℤ :=
  if o.maxPendingPostings > 0 then o.maxPendingPostings else 0

structure Index where
  db : Store
  pendingWrites : Cache
  pendingDeletes : Cache
  pendingWritePostings : ℤ
  pendingDeletePostings : ℤ
  keySeq : ℕ

/-! ### Flushing -/

/-- An order in which a set of documents is walked. -/
structure DocOrder where
  order : List DocId → List DocId
  perm : ∀ l, (order l).Perm l

/-- Cut a list into pieces of `size` elements. -/
def chunks (size : ℕ) : ℕ → List DocId → List (List DocId)
  | 0, _ => []
  | fuel + 1, l => if l = [] then [] else l.take size :: chunks size fuel (l.drop size)

namespace Writer

/-- One row for each list of documents. -/
def writeRows (x : Writer) (t : TableId) (w : Keyword) (css : List (List DocId)) (tick : Int64) :
    Writer :=
  css.foldl (fun x c => x.writeInvertedIndex t w c tick) x

/-- The documents of a row that are not to be removed. -/
def survivors (removing : List DocId) (e : Bytes × Bytes) : List DocId :=
  (decodeInvertedValue e.2).filter fun d => d ∉ removing

/-- The rows that are rewritten: those that lose a document, and small ones. -/
def rewrittenRows (x : Writer) (size : ℕ) (t : TableId) (w : Keyword) (removing : List DocId) :
    List (Bytes × Bytes) :=
  (rowsOf x.db.store t w).filter fun e =>
    (decodeInvertedValue e.2).any (· ∈ removing) ∨ (survivors removing e).length < size / 2

/-- `removeDocumentsFromInvertedIndex`: put the surviving documents into new rows, then delete the
old rows. Nothing is done for the empty keyword. -/
def removeDocuments (size : ℕ) (tick : Int64) (walk : DocOrder) (x : Writer) (t : TableId)
    (w : Keyword) (removing : List DocId) : Writer :=
  if w = [] ∨ removing = [] then x
  else
    let rows := x.rewrittenRows size t w removing
    let docids := walk.order (rows.flatMap (survivors removing)).dedup
    (x.writeRows t w (chunks size docids.length docids) tick).delete (rows.map Prod.fst)

end Writer

/-- What a flush does not determine by itself: which entries are due and in which order, the ticks,
and the order in which documents are walked. -/
structure Flush where
  due : List (TableId × Keyword)
  tick : TableId × Keyword → Int64
  walk : DocOrder

namespace Index

/-- The batch of `flushPendingWrites`, whose rows all carry the tick of the flush. -/
def writesBatch (ix : Index) (due : List (TableId × Keyword)) (tick : Int64) : Writer :=
  due.foldl (fun x k => x.writeInvertedIndex k.1 k.2 (ix.pendingWrites.docs k) tick)
    (newWriter ix.db ix.keySeq)

def flushPendingWrites (ix : Index) (due : List (TableId × Keyword)) (tick : Int64) : Index :=
  { ix with
    db := ((ix.writesBatch due tick).db.commit false).store
    keySeq := (ix.writesBatch due tick).keySeq
    pendingWrites := ix.pendingWrites.eraseAll due
    pendingWritePostings := ix.pendingWritePostings - ix.pendingWrites.postings due }

/-- The batch of `flushPendingDeletes`. -/
def deletesBatch (o : Options) (ix : Index) (f : Flush) : Writer :=
  f.due.foldl (fun x k =>
    x.removeDocuments o.rowSize (f.tick k) f.walk k.1 k.2 (ix.pendingDeletes.docs k))
    (newWriter ix.db ix.keySeq)

def flushPendingDeletes (o : Options) (ix : Index) (f : Flush) : Index :=
  { ix with
    db := ((ix.deletesBatch o f).db.commit false).store
    keySeq := (ix.deletesBatch o f).keySeq
    pendingDeletes := ix.pendingDeletes.eraseAll f.due
    pendingDeletePostings := ix.pendingDeletePostings - ix.pendingDeletes.postings f.due }

/-- How the caches are walked by the flushes that an operation may force. -/
structure Forced where
  writes : List (TableId × Keyword)
  writesTick : Int64
  deletes : Flush

/-- A forced flush walks the whole cache. -/
def Forced.Complete (f : Forced) (ix : Index) : Prop :=
  f.writes.Perm ix.pendingWrites.keys ∧ f.deletes.due.Perm ix.pendingDeletes.keys

instance (f : Forced) (ix : Index) : Decidable (f.Complete ix) :=
  inferInstanceAs (Decidable (_ ∧ _))

/-- `maybeFlushOnPressure`; `none` when the given order is not one of the caches. -/
def maybeFlushOnPressure (o : Options) (ix : Index) (f : Forced) : Option Index :=
  if o.pendingBound ≤ 0 then some ix
  else if f.Complete ix then
    let ix := if ix.pendingWritePostings ≥ o.pendingBound then
        ix.flushPendingWrites f.writes f.writesTick else ix
    some (if ix.pendingDeletePostings ≥ o.pendingBound then ix.flushPendingDeletes o f.deletes
      else ix)
  else none

/-! ### Operations -/

def bufferWrites (ix : Index) (t : TableId) (d : DocId) (keywords : List Keyword) : Index :=
  { ix with
    pendingWrites := ix.pendingWrites.buffer t d keywords
    pendingWritePostings := ix.pendingWritePostings + keywords.length }

def updateIndex (o : Options) (ix : Index) (t : TableId) (d : DocId) (keywords : List Keyword)
    (f : Forced) : Option Index :=
  maybeFlushOnPressure o (ix.bufferWrites t d keywords) f

def bufferDeletes (ix : Index) (t : TableId) (d : DocId) (keywords : List Keyword) : Index :=
  { ix with
    pendingDeletes := ix.pendingDeletes.buffer t d keywords
    pendingDeletePostings := ix.pendingDeletePostings + keywords.length }

def removeIndex (o : Options) (ix : Index) (t : TableId) (d : DocId) (keywords : List Keyword)
    (f : Forced) : Option Index :=
  maybeFlushOnPressure o (ix.bufferDeletes t d keywords) f

/-- `readForward`: the stored keywords of a document, if the index knows it. -/
def readForward (ix : Index) (t : TableId) (d : DocId) : Option (List Keyword) :=
  (ix.db.lookup (encodeForwardKey t d)).map decodeForwardValue

def putForward (ix : Index) (t : TableId) (d : DocId) (keywords : List Keyword) : Index :=
  { ix with db := ix.db.insert (encodeForwardKey t d) (encodeForwardValue keywords) }

def eraseForward (ix : Index) (t : TableId) (d : DocId) : Index :=
  { ix with db := ix.db.erase (encodeForwardKey t d) }

def add (o : Options) (ix : Index) (t : TableId) (d : DocId) (keywords : List Keyword)
    (f : Forced) : Option Index :=
  if keywords = [] then some ix
  else (ix.updateIndex o t d keywords f).map fun ix => ix.putForward t d keywords

def delete (o : Options) (ix : Index) (t : TableId) (d : DocId) (f : Forced) : Option Index :=
  (match ix.readForward t d with
    | some old => if old = [] then some ix else ix.removeIndex o t d old f
    | none => some ix).map fun ix => eraseForward ix t d

/-- The keywords that an update adds. Empty keywords are left out of the set compared with. -/
def newWords (old keywords : List Keyword) : List Keyword :=
  keywords.filter fun w => ¬ (w ∈ old ∧ w ≠ [])

/-- The keywords that an update removes. -/
def removedWords (old keywords : List Keyword) : List Keyword :=
  old.filter fun w => ¬ (w ∈ keywords ∧ w ≠ [])

/-- `Update`; the removals and the additions may each force a flush. -/
def update (o : Options) (ix : Index) (t : TableId) (d : DocId) (keywords : List Keyword)
    (f f' : Forced) : Option Index :=
  if keywords = [] then ix.delete o t d f
  else
    match ix.readForward t d with
    | none => ix.add o t d keywords f'
    | some old =>
      (ix.removeIndex o t d (removedWords old keywords) f).bind fun ix =>
        (if newWords old keywords = [] then some ix
          else ix.updateIndex o t d (newWords old keywords) f').map fun ix =>
            ix.putForward t d keywords

/-- A periodic flush of the entries that are due, additions first. -/
def flush (o : Options) (ix : Index) (writes : List (TableId × Keyword)) (tick : Int64)
    (f : Flush) : Index :=
  (ix.flushPendingWrites writes tick).flushPendingDeletes o f

end Index

end Haystack.InvertedIndex
