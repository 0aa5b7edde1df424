import Haystack.InvertedIndex.PostingContract
import Haystack.Tokenizer.Ascii

/-!
# Prefix search

`Search` collects the documents of all rows whose key continues the table and the query in lower
case. On the rows that the index writes these are the documents of the keywords that start with the
query.
-/

namespace Haystack.InvertedIndex

open List

open Tokenizer (lower)

/-- `<type><tableId>|<query>`, without a delimiter at the end. -/
def encodeInvertedSearchKey (t : TableId) (query : Bytes) : Bytes :=
  keyTypeRow :: (formatId t ++ bar :: query)

/-- `Search` without a limit and without a keyword filter. -/
def search (st : Store) (t : TableId) (query : Bytes) : Finset DocId :=
  ((scan st (encodeInvertedSearchKey t (lower query))).flatMap
    fun e => decodeInvertedValue e.2).toFinset

variable {d : DocId} {query : Bytes} {t : TableId} {st : Store} {w : Keyword} {t t' : TableId}
  {p : Bytes}

lemma mem_search :
    d ∈ search st t query ↔ ∃ k v, st.lookup k = some v ∧
      encodeInvertedSearchKey t (lower query) <+: k ∧ d ∈ decodeInvertedValue v := by
  simp [search, mem_scan, and_assoc]

/-- What has no delimiter continues to what stands before it. -/
lemma prefix_of_prefix_append_bar {p w r : Bytes} (hp : bar ∉ p) (h : p <+: w ++ bar :: r) :
    p <+: w := by
  obtain h' | ⟨u, rfl⟩ := List.prefix_or_prefix_of_prefix h (prefix_append w (bar :: r))
  · exact h'
  · cases u with
    | nil => simp
    | cons b u =>
      obtain ⟨rfl, -⟩ := cons_prefix_cons.1 ((prefix_append_right_inj w).1 h)
      exact absurd (by simp) hp

lemma searchKey_prefix_searchKey_iff {p q : Bytes} :
    encodeInvertedSearchKey t p <+: encodeInvertedSearchKey t' q ↔ t = t' ∧ p <+: q := by
  rw [encodeInvertedSearchKey, encodeInvertedSearchKey, cons_prefix_cons]
  constructor
  · rintro ⟨-, u, hu⟩
    rw [append_assoc, cons_append] at hu
    obtain ⟨ht, hpq⟩ := Cut.append_inj_left (bar_not_mem_formatId t) (bar_not_mem_formatId t') hu
    exact ⟨formatId_injective ht, u, hpq⟩
  · rintro ⟨rfl, hpq⟩
    exact ⟨rfl, (prefix_append_right_inj _).2 (cons_prefix_cons.2 ⟨rfl, hpq⟩)⟩

/-- A query without the delimiter continues to a row key exactly if it continues to its keyword. -/
lemma searchKey_prefix_iff {c tick : Int64} {n : ℕ} (hp : bar ∉ p) :
    encodeInvertedSearchKey t p <+: encodeInvertedKey t' w c tick n ↔ t = t' ∧ p <+: w := by
  have hkey : encodeInvertedKey t' w c tick n = encodeInvertedSearchKey t'
      (w ++ bar :: (formatId c ++ bar :: (formatId tick ++ dot :: Decimal.natText n))) := by
    simp [encodeInvertedKey, encodeInvertedKeyPrefix, encodeInvertedSearchKey]
  rw [hkey, searchKey_prefix_searchKey_iff]
  exact and_congr_right fun _ =>
    ⟨prefix_of_prefix_append_bar hp, fun h => h.trans (prefix_append _ _)⟩

lemma not_searchKey_prefix_forward :
    ¬encodeInvertedSearchKey t p <+: encodeForwardKey t' d := fun h =>
  absurd (cons_prefix_cons.1 h).1 (by decide)

/-- The documents found are those of the keywords that start with the query. -/
theorem mem_search_iff (hst : ∀ k ∈ st, ∃ seq, Stamped seq k) (hquery : bar ∉ lower query) :
    d ∈ search st t query ↔ ∃ w, lower query <+: w ∧ d ∈ getDocs st t w := by
  rw [mem_search]
  constructor
  · rintro ⟨k, v, hk, hpre, hd⟩
    obtain ⟨seq, ⟨t', d', rfl⟩ | ⟨t', w, c, tick, n, -, rfl⟩⟩ :=
      hst k (GoMap.mem_iff_exists_lookup.2 ⟨v, hk⟩)
    · exact absurd hpre not_searchKey_prefix_forward
    · obtain ⟨rfl, hw⟩ := (searchKey_prefix_iff hquery).1 hpre
      exact ⟨w, hw, mem_getDocs.2 ⟨_, v, hk, reads_encodeInvertedKey.2 ⟨rfl, rfl⟩, hd⟩⟩
  · rintro ⟨w, hw, hd⟩
    obtain ⟨k, v, hk, hreads, hd⟩ := mem_getDocs.1 hd
    obtain ⟨seq, ⟨t', d', rfl⟩ | ⟨t', w', c, tick, n, -, rfl⟩⟩ :=
      hst k (GoMap.mem_iff_exists_lookup.2 ⟨v, hk⟩)
    · exact absurd hreads (not_reads_encodeForwardKey _ _ _ _)
    · obtain ⟨rfl, rfl⟩ := reads_encodeInvertedKey.1 hreads
      exact ⟨_, v, hk, (searchKey_prefix_iff hquery).2 ⟨rfl, hw⟩, hd⟩

/-! ### Limits and queries with the delimiter -/

section Limited

variable (toLower : Bytes → Bytes)

/-- The documents collected from the rows of a scan. The scan stops after the row with which the
limit is reached; a limit of at most 0 is none. -/
def collectDocs (limit : ℤ) (filterKeyword : Option (Bytes → Bool)) :
    Finset DocId → List (Bytes × Bytes) → Finset DocId
  | found, [] => found
  | found, e :: rows =>
    if (filterKeyword.all fun p => p e.1) = false then collectDocs limit filterKeyword found rows
    else
      let found := found ∪ (decodeInvertedValue e.2).toFinset
      if limit > 0 ∧ (found.card : ℤ) ≥ limit then found
      else collectDocs limit filterKeyword found rows

/-- `Search`, with the lower-case mapping of the queries left open. -/
def searchLimited (st : Store) (t : TableId) (query : Bytes) (limit : ℤ)
    (filterKeyword : Option (Bytes → Bool)) : Finset DocId :=
  collectDocs limit filterKeyword ∅ (scan st (encodeInvertedSearchKey t (toLower query)))

lemma collectDocs_unlimited (found : Finset DocId) (rows : List (Bytes × Bytes)) :
    collectDocs 0 none found rows =
      found ∪ (rows.flatMap fun e => decodeInvertedValue e.2).toFinset := by
  induction rows generalizing found with
  | nil => simp [collectDocs]
  | cons e rows ih => simp [collectDocs, ih, Finset.union_assoc]

lemma mem_searchLimited :
    d ∈ searchLimited toLower st t query 0 none ↔ ∃ k v, st.lookup k = some v ∧
      encodeInvertedSearchKey t (toLower query) <+: k ∧ d ∈ decodeInvertedValue v := by
  simp [searchLimited, collectDocs_unlimited, mem_scan, and_assoc]

/-- With a limit some rows may be left out, but only when there are enough documents. -/
lemma collectDocs_limited {limit : ℤ} (hlimit : 0 < limit) (found : Finset DocId)
    (rows : List (Bytes × Bytes)) :
    collectDocs limit none found rows ⊆ collectDocs 0 none found rows ∧
      (collectDocs limit none found rows = collectDocs 0 none found rows ∨
        limit ≤ (collectDocs limit none found rows).card) := by
  induction rows generalizing found with
  | nil => exact ⟨Finset.Subset.refl _, .inl rfl⟩
  | cons e rows ih =>
    simp only [collectDocs, Option.all_none, Bool.true_eq_false, if_false, gt_iff_lt, lt_irrefl,
      false_and, hlimit, true_and]
    split
    case isTrue hfull =>
      refine ⟨?_, .inr hfull⟩
      rw [collectDocs_unlimited]
      exact Finset.subset_union_left
    case isFalse => exact ih _

/-- The entries that the index writes: the forward map, and rows whose keys count their documents. -/
def WrittenEntry (k v : Bytes) : Prop :=
  (∃ t d, k = encodeForwardKey t d) ∨
    ∃ t w docids tick n, v = (encodeInvertedValueCounted docids).1 ∧
      k = encodeInvertedKey t w (Int64.ofNat (encodeInvertedValueCounted docids).2) tick n

/-- The contents of an index after a flush. -/
def Flushed (st : Store) : Prop :=
  ∀ k v, st.lookup k = some v → WrittenEntry k v

/-- What follows the keyword in the key of a row with these documents. -/
def keyTail (docids : List DocId) (tick : Int64) (n : ℕ) : Bytes :=
  formatId (Int64.ofNat (encodeInvertedValueCounted docids).2) ++
    bar :: (formatId tick ++ dot :: Decimal.natText n)

/-- The query continues a keyword with the delimiter and the beginning of a document count and a
tick. -/
def ReachesPast (query : Bytes) : Prop :=
  ∃ w rest docids tick n, query = w ++ bar :: rest ∧ docids ≠ [] ∧ rest <+: keyTail docids tick n

lemma encodeInvertedKey_eq_keyTail (t : TableId) (w : Keyword) (docids : List DocId) (tick : Int64)
    (n : ℕ) :
    encodeInvertedKey t w (Int64.ofNat (encodeInvertedValueCounted docids).2) tick n =
      encodeInvertedSearchKey t (w ++ bar :: keyTail docids tick n) := by
  simp [encodeInvertedKey, encodeInvertedKeyPrefix, encodeInvertedSearchKey, keyTail]

lemma not_reachesPast_of_bar_not_mem (h : bar ∉ query) : ¬ ReachesPast query := by
  rintro ⟨w, rest, docids, tick, n, rfl, -, -⟩
  exact h (by simp)

/-- A query that continues to a row key continues to its keyword or reaches past it. -/
lemma prefix_or_reachesPast {docids : List DocId} {tick : Int64} {n : ℕ} (hdocs : docids ≠ [])
    (h : p <+: w ++ bar :: keyTail docids tick n) : p <+: w ∨ ReachesPast p := by
  obtain h' | ⟨u, rfl⟩ :=
    List.prefix_or_prefix_of_prefix h (prefix_append w (bar :: keyTail docids tick n))
  · exact .inl h'
  · cases u with
    | nil => simp
    | cons b u =>
      obtain ⟨rfl, hu⟩ := cons_prefix_cons.1 ((prefix_append_right_inj w).1 h)
      exact .inr ⟨w, u, docids, tick, n, rfl, hdocs, hu⟩

/-- A document of a row stands in the postings of its keyword. -/
lemma Flushed.mem_getDocs_iff (hst : Flushed st) :
    d ∈ getDocs st t w ↔ ∃ docids tick n, d ∈ docids ∧
      st.lookup (encodeInvertedSearchKey t (w ++ bar :: keyTail docids tick n)) =
        some (encodeInvertedValueCounted docids).1 := by
  rw [mem_getDocs]
  constructor
  · rintro ⟨k, v, hk, hreads, hd⟩
    obtain ⟨t', d', rfl⟩ | ⟨t', w', docids, tick, n, rfl, rfl⟩ := hst k v hk
    · exact absurd hreads (not_reads_encodeForwardKey _ _ _ _)
    · obtain ⟨rfl, rfl⟩ := reads_encodeInvertedKey.1 hreads
      exact ⟨docids, tick, n, mem_decode_encode.1 hd, encodeInvertedKey_eq_keyTail .. ▸ hk⟩
  · rintro ⟨docids, tick, n, hd, hk⟩
    rw [← encodeInvertedKey_eq_keyTail] at hk
    exact ⟨_, _, hk, reads_encodeInvertedKey.2 ⟨rfl, rfl⟩, mem_decode_encode.2 hd⟩

/-- The documents of the keywords that start with the query are found. -/
lemma mem_searchLimited_of_prefix (hst : Flushed st) (hw : toLower query <+: w)
    (hd : d ∈ getDocs st t w) : d ∈ searchLimited toLower st t query 0 none := by
  obtain ⟨docids, tick, n, hd, hk⟩ := hst.mem_getDocs_iff.1 hd
  refine (mem_searchLimited toLower).2 ⟨_, _, hk, ?_, mem_decode_encode.2 hd⟩
  exact searchKey_prefix_searchKey_iff.2 ⟨rfl, hw.trans (prefix_append _ _)⟩

/-- An index with one row. -/
def oneRow (t : TableId) (w : Keyword) (docids : List DocId) (tick : Int64) (n : ℕ) : Store :=
  (∅ : Store).insert
    (encodeInvertedKey t w (Int64.ofNat (encodeInvertedValueCounted docids).2) tick n)
    (encodeInvertedValueCounted docids).1

section OneRow

variable {t : TableId} {w : Keyword} {docids : List DocId} {tick : Int64} {n : ℕ}

lemma lookup_oneRow {k v : Bytes} (h : (oneRow t w docids tick n).lookup k = some v) :
    k = encodeInvertedKey t w (Int64.ofNat (encodeInvertedValueCounted docids).2) tick n ∧
      v = (encodeInvertedValueCounted docids).1 := by
  rw [oneRow, GoMap.lookup_insert_if] at h
  split at h
  case isTrue heq => exact ⟨heq, (Option.some.inj h).symm⟩
  case isFalse => simp at h

lemma flushed_oneRow : Flushed (oneRow t w docids tick n) := by
  intro k v h
  obtain ⟨rfl, rfl⟩ := lookup_oneRow h
  exact .inr ⟨t, w, docids, tick, n, rfl, rfl⟩

/-- Its documents are found by every query that continues to the key. -/
lemma mem_searchLimited_oneRow (hd : d ∈ docids)
    (hquery : toLower query <+: w ++ bar :: keyTail docids tick n) :
    d ∈ searchLimited toLower (oneRow t w docids tick n) t query 0 none := by
  refine (mem_searchLimited toLower).2 ⟨_, _, AList.lookup_insert _, ?_, mem_decode_encode.2 hd⟩
  rw [encodeInvertedKey_eq_keyTail]
  exact searchKey_prefix_searchKey_iff.2 ⟨rfl, hquery⟩

/-- Its documents are those of its keyword only. -/
lemma eq_of_mem_getDocs_oneRow {t' : TableId} {w' : Keyword}
    (hd : d ∈ getDocs (oneRow t w docids tick n) t' w') : w' = w := by
  obtain ⟨k, v, hk, hreads, -⟩ := mem_getDocs.1 hd
  obtain ⟨rfl, -⟩ := lookup_oneRow hk
  exact (reads_encodeInvertedKey.1 hreads).2

end OneRow

end Limited

end Haystack.InvertedIndex
