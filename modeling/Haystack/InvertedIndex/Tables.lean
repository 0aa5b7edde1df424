import Haystack.InvertedIndex.Search

/-!
# Tables and keywords apart

The rows of a keyword share the range of its table and keyword with rows of other keywords, and the
ids of tables are prefixes of each other. What is read, changed and deleted for one keyword or table
is nevertheless its own. `DeleteTable` drops the buffered postings of a table and the two ranges of
its keys.
-/

namespace Haystack.InvertedIndex

open WriteBatch List

def keyTypeTable : UInt8 := 21

def encodeTableKey (t : TableId) : Bytes :=
  keyTypeTable :: formatId t

def encodeForwardKeyPrefix (t : TableId) : Bytes :=
  keyTypeForward :: (formatId t ++ [bar])

/-- `DeletePrefix` of a batch: the keys from the prefix up to the least key above its extensions. -/
def deletePrefix {V : Type} (st : GoMap Bytes V) (pre : Bytes) : GoMap Bytes V :=
  let upper := (Bytes.prefixUpper pre).getD (pre ++ [0xff])
  st.filterKeys fun k => ¬ (pre ≤ k ∧ k < upper)

lemma exists_prefixUpper_cons {b : UInt8} (hb : b ≠ 0xff) (p : Bytes) :
    ∃ u, Bytes.prefixUpper (b :: p) = some u := by
  rw [Bytes.prefixUpper]
  cases Bytes.prefixUpper p with
  | none => exact ⟨_, if_pos hb⟩
  | some u => exact ⟨_, rfl⟩

/-- The range is that of the keys with the prefix. -/
lemma deletePrefix_eq {V : Type} (st : GoMap Bytes V) {b : UInt8} (hb : b ≠ 0xff) (p : Bytes) :
    deletePrefix st (b :: p) = st.filterKeys fun k => ¬ b :: p <+: k := by
  obtain ⟨u, hu⟩ := exists_prefixUpper_cons hb p
  have hrange : ∀ k, (b :: p ≤ k ∧ k < u) ↔ b :: p <+: k := by
    intro k
    rw [Bytes.prefix_iff_range, hu]
    simp only [Option.mem_def, Option.some.injEq, forall_eq']
  rw [deletePrefix, hu]
  dsimp only [Option.getD_some]
  simp only [hrange]

/-- The keys with the prefix are deleted, and no others. -/
lemma lookup_deletePrefix {V : Type} (st : GoMap Bytes V) {b : UInt8} (hb : b ≠ 0xff) (p k : Bytes) :
    (deletePrefix st (b :: p)).lookup k = if b :: p <+: k then none else st.lookup k := by
  rw [deletePrefix_eq st hb, GoMap.lookup_filterKeys]
  by_cases hpre : b :: p <+: k <;> simp [hpre]

namespace Index

/-- The entries of a table. -/
def tableEntries (c : Cache) (t : TableId) : List (TableId × Keyword) :=
  c.keys.filter fun k => k.1 = t

def clearPendingWrites (ix : Index) (t : TableId) : Index :=
  { ix with
    pendingWritePostings := ix.pendingWritePostings -
      ix.pendingWrites.postings (tableEntries ix.pendingWrites t)
    pendingDeletePostings := ix.pendingDeletePostings -
      ix.pendingDeletes.postings (tableEntries ix.pendingDeletes t)
    pendingWrites := ix.pendingWrites.eraseAll (tableEntries ix.pendingWrites t)
    pendingDeletes := ix.pendingDeletes.eraseAll (tableEntries ix.pendingDeletes t) }

/-- The batch of `DeleteTable`. -/
def deleteTableKeys (st : Store) (t : TableId) : Store :=
  (deletePrefix (deletePrefix st (encodeInvertedSearchKey t [])) (encodeForwardKeyPrefix t)).erase
    (encodeTableKey t)

/-- `DeleteTable`; if the commit fails, the buffered postings are dropped nevertheless. -/
def deleteTable (ix : Index) (t : TableId) (committed : Bool) : Index :=
  let ix := ix.clearPendingWrites t
  if committed then { ix with db := deleteTableKeys ix.db t } else ix

end Index

/-! ### The keys of a table -/

variable {t t' : TableId} {d : DocId}

lemma searchKey_nil_prefix_iff {q : Bytes} :
    encodeInvertedSearchKey t [] <+: encodeInvertedSearchKey t' q ↔ t = t' := by
  rw [searchKey_prefix_searchKey_iff]
  exact and_iff_left (List.nil_prefix)

lemma encodeInvertedKey_eq_searchKey (t : TableId) (w : Keyword) (c tick : Int64) (n : ℕ) :
    encodeInvertedKey t w c tick n = encodeInvertedSearchKey t
      (w ++ bar :: (formatId c ++ bar :: (formatId tick ++ dot :: Decimal.natText n))) := by
  simp [encodeInvertedKey, encodeInvertedKeyPrefix, encodeInvertedSearchKey]

lemma forwardKeyPrefix_prefix_iff :
    encodeForwardKeyPrefix t <+: encodeForwardKey t' d ↔ t = t' := by
  rw [encodeForwardKeyPrefix, encodeForwardKey, cons_prefix_cons]
  constructor
  · rintro ⟨-, u, hu⟩
    rw [append_assoc, singleton_append] at hu
    exact formatId_injective
      (Cut.append_inj_left (bar_not_mem_formatId t) (bar_not_mem_formatId t') hu).1
  · rintro rfl
    refine ⟨rfl, (prefix_append_right_inj _).2 (cons_prefix_cons.2 ⟨rfl, ?_⟩)⟩
    exact List.nil_prefix

/-- What a key is after the deletion of a table. -/
lemma lookup_deleteTableKeys (st : Store) (t : TableId) (k : Bytes) :
    (Index.deleteTableKeys st t).lookup k =
      if encodeInvertedSearchKey t [] <+: k ∨ encodeForwardKeyPrefix t <+: k ∨
        k = encodeTableKey t then none else st.lookup k := by
  rw [Index.deleteTableKeys, GoMap.lookup_erase_if, encodeForwardKeyPrefix,
    lookup_deletePrefix _ (by decide), encodeInvertedSearchKey, lookup_deletePrefix _ (by decide)]
  by_cases h : k = encodeTableKey t <;>
    by_cases h' : keyTypeForward :: (formatId t ++ [bar]) <+: k <;>
      by_cases h'' : keyTypeRow :: (formatId t ++ [bar]) <+: k <;> simp [h, h', h'']

/-! ### Keywords apart -/

/-- The rows of an index are under keys of the encoder. -/
def RowsEncoded (st : Store) : Prop :=
  ∀ k ∈ st, k.head? = some keyTypeRow → ∃ t w c tick n, k = encodeInvertedKey t w c tick n

variable {w : Keyword} {tick : Int64} {t : TableId} {k : Bytes}

lemma RowsEncoded.mem_rowsOf_iff {st : Store} (hst : RowsEncoded st) {e : Bytes × Bytes} :
    e ∈ rowsOf st t w ↔
      st.lookup e.1 = some e.2 ∧ ∃ c tick n, e.1 = encodeInvertedKey t w c tick n := by
  rw [mem_rowsOf]
  refine and_congr_right fun hlookup => ⟨fun hreads => ?_, ?_⟩
  · have hhead : e.1.head? = some keyTypeRow := by
      obtain ⟨s, hs⟩ := hreads.1
      rw [← hs]
      rfl
    obtain ⟨t', w', c, tick, n, hkey⟩ :=
      hst e.1 (GoMap.mem_iff_exists_lookup.2 ⟨_, hlookup⟩) hhead
    obtain ⟨rfl, rfl⟩ := reads_encodeInvertedKey.1 (hkey ▸ hreads)
    exact ⟨c, tick, n, hkey⟩
  · rintro ⟨c, tick, n, hkey⟩
    exact hkey ▸ reads_encodeInvertedKey.2 ⟨rfl, rfl⟩

/-- Removing documents from a keyword changes rows of this keyword only. -/
lemma lookup_removeDocuments {size : ℕ} {walk : DocOrder} {x : Writer} {removing : List DocId}
    (hk : ¬ Reads t w k) :
    (x.removeDocuments size tick walk t w removing).db.ahead.lookup k = x.db.ahead.lookup k := by
  rw [Writer.removeDocuments]
  split
  · rfl
  · have hnew : ∀ (css : List (List DocId)) (x : Writer),
        (x.writeRows t w css tick).db.ahead.lookup k = x.db.ahead.lookup k := by
      intro css
      induction css with
      | nil => exact fun _ => rfl
      | cons c css ih =>
        intro x
        have hcons : x.writeRows t w (c :: css) tick =
          (x.writeInvertedIndex t w c tick).writeRows t w css tick := rfl
        rw [hcons, ih, Writer.ahead_writeInvertedIndex, AList.lookup_insert_ne]
        rintro rfl
        exact hk (reads_encodeInvertedKey.2 ⟨rfl, rfl⟩)
    dsimp only
    rw [Writer.lookup_delete_of_not_mem, hnew]
    intro hmem
    obtain ⟨e, he, rfl⟩ := mem_map.1 hmem
    exact hk (mem_rowsOf.1 (mem_of_mem_filter he)).2

variable {writes : List (TableId × Keyword)} {o : Options} {f : Flush} {e : TableId × Keyword}

/-- A flush changes rows of the keywords it is about only. -/
lemma lookup_flush {ix : Index} (hwrites : ∀ e ∈ writes, ¬ Reads e.1 e.2 k)
    (hdeletes : ∀ e ∈ f.due, ¬ Reads e.1 e.2 k) :
    (ix.flush o writes tick f).db.lookup k = ix.db.lookup k := by
  have hput : ∀ (docs : TableId × Keyword → List DocId) (x : Writer),
      (writes.foldl (fun x e => x.writeInvertedIndex e.1 e.2 (docs e) tick) x).db.ahead.lookup k =
        x.db.ahead.lookup k := by
    intro docs
    induction writes with
    | nil => exact fun _ => rfl
    | cons e writes ih =>
      intro x
      rw [foldl_cons, ih fun e' he' => hwrites e' (mem_cons_of_mem _ he'),
        Writer.ahead_writeInvertedIndex, AList.lookup_insert_ne]
      rintro rfl
      exact hwrites e mem_cons_self (reads_encodeInvertedKey.2 ⟨rfl, rfl⟩)
  have hremove : ∀ (due : List (TableId × Keyword)) (docs : TableId × Keyword → List DocId)
      (x : Writer), (∀ e ∈ due, ¬ Reads e.1 e.2 k) →
      (due.foldl (fun x e => x.removeDocuments o.rowSize (f.tick e) f.walk e.1 e.2 (docs e))
        x).db.ahead.lookup k = x.db.ahead.lookup k := by
    intro due docs
    induction due with
    | nil => exact fun _ _ => rfl
    | cons e due ih =>
      intro x hdue
      rw [foldl_cons, ih _ fun e' he' => hdue e' (mem_cons_of_mem _ he'),
        lookup_removeDocuments (hdue e mem_cons_self)]
  exact (hremove f.due _ _ hdeletes).trans (hput _ _)

/-- The rows of one tick and those of the other ticks get keys of their own. -/
def Index.FreshTicks (ix : Index) (tick : Int64) (f : Flush) : Prop :=
  FreshKeys ix.db ix.keySeq fun i : Option (TableId × Keyword) => i.elim tick f.tick

/-- The documents after a flush of everything. -/
lemma mem_getDocs_flush {ix : Index} (hfresh : ix.FreshTicks tick f)
    (hwrites : writes.Perm ix.pendingWrites.keys) (hdeletes : f.due.Perm ix.pendingDeletes.keys) :
    d ∈ getDocs (ix.flush o writes tick f).db t w ↔
      (d ∈ getDocs ix.db t w ∨ d ∈ ix.pendingWrites.docs (t, w)) ∧
        ¬ (w ≠ [] ∧ d ∈ ix.pendingDeletes.docs (t, w)) := by
  have hfirst : (newWriter ix.db ix.keySeq).Fresh tick := hfresh.newWriter none
  have hx : (ix.writesBatch writes tick).Descends ix.db ix.keySeq :=
    (Writer.descends_newWriter ix.db ix.keySeq).writeAll
  -- the rows of the additions have sequence numbers that are used up
  have hsecond : FreshKeys (ix.flushPendingWrites writes tick).db
      (ix.flushPendingWrites writes tick).keySeq f.tick := by
    intro t' w' c k n hn hmem
    rcases hx.origin _ (Db.mentions_of_mem_ahead hmem) with hold | ⟨_, _, _, _, n', hn', heq⟩
    · exact hfresh t' w' c (some k) n (hx.seq.trans_lt hn) hold
    · rw [seq_of_encodeInvertedKey_eq heq] at hn
      exact absurd hn' (not_le.2 hn)
  have hnodup : f.due.Nodup := hdeletes.nodup_iff.2 ix.pendingDeletes.keys_nodup
  have hadded : d ∈ getDocs (ix.flushPendingWrites writes tick).db t w ↔
      d ∈ getDocs ix.db t w ∨ (t, w) ∈ writes ∧ d ∈ ix.pendingWrites.docs (t, w) :=
    mem_getDocs_writeAll hfirst
  have hremoved : d ∈ getDocs (ix.flush o writes tick f).db t w ↔
      d ∈ getDocs (ix.flushPendingWrites writes tick).db t w ∧
        ¬ ((t, w) ∈ f.due ∧ w ≠ [] ∧ d ∈ ix.pendingDeletes.docs (t, w)) :=
    mem_getDocs_removeAll (ready_newWriter hsecond f.due) o.one_le_rowSize hnodup
  have hinWrites : d ∈ ix.pendingWrites.docs (t, w) → (t, w) ∈ writes := fun hd =>
    hwrites.mem_iff.2 (AList.mem_keys.2 (Cache.mem_of_mem_docs hd))
  have hinDeletes : w ≠ [] ∧ d ∈ ix.pendingDeletes.docs (t, w) → (t, w) ∈ f.due := fun hd =>
    hdeletes.mem_iff.2 (AList.mem_keys.2 (Cache.mem_of_mem_docs hd.2))
  rw [hremoved, hadded, and_iff_right_of_imp hinWrites, and_iff_right_of_imp hinDeletes]

/-- The buffered documents after the deletion of a table. -/
lemma docs_eraseAll_tableEntries (c : Cache) (t t' : TableId) (w : Keyword) :
    (c.eraseAll (Index.tableEntries c t)).docs (t', w) = if t' = t then [] else c.docs (t', w) := by
  rw [Cache.docs_eraseAll]
  by_cases ht : t' = t
  · subst ht
    rw [if_pos rfl]
    split
    · rfl
    case isFalse hnot =>
      refine eq_nil_iff_forall_not_mem.2 fun d hd => hnot ?_
      exact mem_filter.2 ⟨AList.mem_keys.1 (Cache.mem_of_mem_docs hd), by simp⟩
  · rw [if_neg ht, if_neg]
    intro hmem
    exact ht (by simpa using (mem_filter.1 hmem).2)

lemma mem_of_mem_eraseAll {c : Cache} {ks : List (TableId × Keyword)} (he : e ∈ c.eraseAll ks) :
    e ∈ c ∧ e ∉ ks := by
  induction ks generalizing c with
  | nil => exact ⟨he, by simp⟩
  | cons k ks ih =>
    have hcons : c.eraseAll (k :: ks) = Cache.eraseAll (c.erase k) ks := rfl
    obtain ⟨hmem, hnot⟩ := ih (hcons ▸ he)
    obtain ⟨hne, hmem⟩ := AList.mem_erase.1 hmem
    exact ⟨hmem, not_mem_cons_of_ne_of_not_mem hne hnot⟩

/-- No buffered entry of a deleted table is left. -/
lemma ne_of_mem_eraseAll_tableEntries {c : Cache}
    (he : e ∈ (c.eraseAll (Index.tableEntries c t)).keys) : e.1 ≠ t := by
  obtain ⟨hmem, hnot⟩ := mem_of_mem_eraseAll (AList.mem_keys.2 he)
  intro ht
  exact hnot (mem_filter.2 ⟨AList.mem_keys.1 hmem, by simp [ht]⟩)

/-- The range of a table has the keys that are read for its keywords. -/
lemma Reads.searchKey_prefix_iff (h : Reads t' w k) :
    encodeInvertedSearchKey t [] <+: k ↔ t = t' := by
  have hpre : encodeInvertedSearchKey t' (w ++ [bar]) <+: k := h.1
  constructor
  · intro htable
    rcases List.prefix_or_prefix_of_prefix htable hpre with h' | h'
    · exact (searchKey_prefix_searchKey_iff.1 h').1
    · exact (searchKey_prefix_searchKey_iff.1 h').1.symm
  · rintro rfl
    exact (searchKey_nil_prefix_iff.2 rfl).trans hpre

/-- The postings after the deletion of a table. -/
lemma mem_getDocs_deleteTableKeys {st : Store} :
    d ∈ getDocs (Index.deleteTableKeys st t) t' w ↔ t ≠ t' ∧ d ∈ getDocs st t' w := by
  simp only [mem_getDocs, lookup_deleteTableKeys]
  constructor
  · rintro ⟨k, v, hk, hreads, hd⟩
    split at hk
    · cases hk
    case isFalse hnot =>
      exact ⟨fun h => hnot (.inl (hreads.searchKey_prefix_iff.2 h)), k, v, hk, hreads, hd⟩
  · rintro ⟨hne, k, v, hk, hreads, hd⟩
    refine ⟨k, v, ?_, hreads, hd⟩
    rw [if_neg, hk]
    have hhead : k.head? = some keyTypeRow := by
      obtain ⟨s, rfl⟩ := hreads.1
      rfl
    rintro (h | ⟨s, rfl⟩ | rfl)
    · exact hne (hreads.searchKey_prefix_iff.1 h)
    · exact absurd hhead (by simp [encodeForwardKeyPrefix, keyTypeForward, keyTypeRow])
    · exact absurd hhead (by simp [encodeTableKey, keyTypeTable, keyTypeRow])

namespace Index

variable {ix : Index} {t t' : TableId} {committed : Bool} {w : Keyword} {d : DocId}

lemma mem_getDocs_deleteTable :
    d ∈ getDocs (ix.deleteTable t committed).db t' w ↔
      (committed = true → t ≠ t') ∧ d ∈ getDocs ix.db t' w := by
  rw [deleteTable]
  cases committed with
  | false => simp [clearPendingWrites]
  | true => simp [clearPendingWrites, mem_getDocs_deleteTableKeys]

@[simp] lemma pendingWrites_deleteTable :
    (ix.deleteTable t committed).pendingWrites =
      ix.pendingWrites.eraseAll (tableEntries ix.pendingWrites t) := by
  cases committed <;> rfl

@[simp] lemma pendingDeletes_deleteTable :
    (ix.deleteTable t committed).pendingDeletes =
      ix.pendingDeletes.eraseAll (tableEntries ix.pendingDeletes t) := by
  cases committed <;> rfl

/-- A flush after the deletion of a table writes no row of it. -/
lemma mem_getDocs_flush_deleteTable
    (hwrites : writes.Perm (ix.deleteTable t committed).pendingWrites.keys)
    (hdeletes : f.due.Perm (ix.deleteTable t committed).pendingDeletes.keys) :
    d ∈ getDocs ((ix.deleteTable t committed).flush o writes tick f).db t w ↔
      d ∈ getDocs (ix.deleteTable t committed).db t w := by
  rw [pendingWrites_deleteTable] at hwrites
  rw [pendingDeletes_deleteTable] at hdeletes
  refine getDocs_congr fun k hk => lookup_flush ?_ ?_
  · intro e he hreads
    exact ne_of_mem_eraseAll_tableEntries (hwrites.mem_iff.1 he) (hreads.unique hk).1
  · intro e he hreads
    exact ne_of_mem_eraseAll_tableEntries (hdeletes.mem_iff.1 he) (hreads.unique hk).1

end Index

/-- **Keywords and tables apart.** The decoder inverts the encoder for every keyword; the rows read
for a keyword are those encoded for it; removing documents from a keyword that is not empty takes
these documents out of its postings and changes nothing else; deleting a table takes away its rows,
its forward entries and its own record. -/
theorem keyword_isolation (o : Options) :
    (∀ t w c tick n, decodeInvertedKey (encodeInvertedKey t w c tick n) =
      ⟨t, w, c, formatId tick ++ dot :: Decimal.natText n⟩) ∧
    (∀ st, RowsEncoded st → ∀ t w e, e ∈ rowsOf st t w ↔
      st.lookup e.1 = some e.2 ∧ ∃ c tick n, e.1 = encodeInvertedKey t w c tick n) ∧
    (∀ (x : Writer) tick walk t w removing, w ≠ [] → x.Fresh tick → x.Settled t w →
      (∀ d, d ∈ getDocs (x.removeDocuments o.rowSize tick walk t w removing).db.ahead t w ↔
        d ∈ getDocs x.db.ahead t w ∧ d ∉ removing) ∧
      ∀ k, ¬ Reads t w k →
        (x.removeDocuments o.rowSize tick walk t w removing).db.ahead.lookup k =
          x.db.ahead.lookup k) ∧
    ∀ st t,
      (∀ t' w c tick n, (Index.deleteTableKeys st t).lookup (encodeInvertedKey t' w c tick n) =
        if t = t' then none else st.lookup (encodeInvertedKey t' w c tick n)) ∧
      (∀ t' d, (Index.deleteTableKeys st t).lookup (encodeForwardKey t' d) =
        if t = t' then none else st.lookup (encodeForwardKey t' d)) ∧
      ∀ k, k.head? ≠ some keyTypeRow → k.head? ≠ some keyTypeForward → k ≠ encodeTableKey t →
        (Index.deleteTableKeys st t).lookup k = st.lookup k := by
  refine ⟨decodeInvertedKey_encodeInvertedKey, fun st hst t w e => hst.mem_rowsOf_iff,
    fun x tick walk t w removing hw hfresh hset => ⟨fun d => ?_, fun k hk => ?_⟩,
    fun st t => ⟨fun t' w c tick n => ?_, fun t' d => ?_, fun k hrow hforward htable => ?_⟩⟩
  · rw [Writer.mem_getDocs_removeDocuments o.one_le_rowSize hfresh hset hw]
    simp
  · exact lookup_removeDocuments hk
  · have hne : encodeInvertedKey t' w c tick n ≠ encodeTableKey t := fun h =>
      absurd (cons.inj h).1 (by decide)
    have hforward : ¬ encodeForwardKeyPrefix t <+: encodeInvertedKey t' w c tick n := fun h =>
      absurd (cons_prefix_cons.1 h).1 (by decide)
    rw [lookup_deleteTableKeys]
    simp only [hne, hforward, or_false]
    rw [encodeInvertedKey_eq_searchKey]
    simp only [searchKey_nil_prefix_iff]
  · have hne : encodeForwardKey t' d ≠ encodeTableKey t := fun h =>
      absurd (cons.inj h).1 (by decide)
    rw [lookup_deleteTableKeys]
    simp only [hne, or_false, not_searchKey_prefix_forward, false_or, forwardKeyPrefix_prefix_iff]
  · rw [lookup_deleteTableKeys, if_neg]
    rintro (⟨s, rfl⟩ | ⟨s, rfl⟩ | h)
    · exact hrow rfl
    · exact hforward rfl
    · exact htable h

/-- The postings of the empty keyword are not removed. -/
theorem empty_keyword_not_removed :
    5 ∈ getDocs (oneRow 1 [] [5] 7 1) 1 [] ∧
      5 ∈ getDocs (((newWriter (oneRow 1 [] [5] 7 1) 1).removeDocuments 1000 8
        ⟨id, List.Perm.refl⟩ 1 [] [5]).db.ahead) 1 [] := by
  decide +kernel

end Haystack.InvertedIndex
