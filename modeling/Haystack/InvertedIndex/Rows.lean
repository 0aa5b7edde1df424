import Haystack.InvertedIndex.Codec
import Haystack.Lib.WriteBatch

/-!
# Posting rows

The posting rows of a keyword lie in the key range of its table and keyword, possibly mixed with
rows of keywords that continue it with a delimiter. `getDocs` reads the rows of one keyword. Rows are
rewritten through a batch that commits by itself after `maxBatchSize` operations.
-/

namespace Haystack.InvertedIndex

open WriteBatch

abbrev Store := GoMap Bytes Bytes

/-- The number of operations after which a batch commits by itself. -/
def maxBatchSize : ℤ := 512

/-! ### Scans -/

/-- The entries whose key meets `p`, in the order of their keys. -/
def scanWhere (st : Store) (p : Bytes → Bool) : List (Bytes × Bytes) :=
  StableSort.sortBy Prod.fst ((st.entries.map fun e => (e.1, e.2)).filter fun e => p e.1)

/-- `Scan`: the entries whose key starts with `pre`. -/
def scan (st : Store) (pre : Bytes) : List (Bytes × Bytes) :=
  scanWhere st fun k => pre.isPrefixOf k

/-- `ScanRange`: the entries from `lo` up to, not including, `hi`. -/
def scanRange (st : Store) (lo hi : Bytes) : List (Bytes × Bytes) :=
  scanWhere st fun k => lo ≤ k ∧ k < hi

variable {e : Bytes × Bytes} {st : Store}

@[simp] lemma mem_scanWhere {p : Bytes → Bool} :
    e ∈ scanWhere st p ↔ st.lookup e.1 = some e.2 ∧ p e.1 := by
  rw [scanWhere, StableSort.mem_sortBy, List.mem_filter, List.mem_map, ← GoMap.mem_entries_iff]
  constructor
  · rintro ⟨⟨e', he', rfl⟩, hp⟩
    exact ⟨he', hp⟩
  · rintro ⟨he, hp⟩
    exact ⟨⟨_, he, rfl⟩, hp⟩

lemma mem_scan {pre : Bytes} : e ∈ scan st pre ↔ st.lookup e.1 = some e.2 ∧ pre <+: e.1 := by
  simp [scan]

lemma mem_scanRange {lo hi : Bytes} :
    e ∈ scanRange st lo hi ↔ st.lookup e.1 = some e.2 ∧ lo ≤ e.1 ∧ e.1 < hi := by
  simp [scanRange]

lemma pairwise_scanWhere (st : Store) (p : Bytes → Bool) :
    (scanWhere st p).Pairwise fun e e' => e.1 < e'.1 := by
  refine StableSort.pairwise_lt_sortBy _ ?_
  have hmap : ((st.entries.map fun e => (e.1, e.2)).map Prod.fst) = st.keys := by
    rw [List.map_map]
    rfl
  exact (List.filter_sublist.map Prod.fst).nodup (hmap ▸ st.nodupKeys)

/-! ### Reading a keyword -/

/-- The key is read for keyword `w` of table `t`: it lies in the range of the two, and the decoded
keyword is `w`, not one that continues it. -/
def Reads (t : TableId) (w : Keyword) (key : Bytes) : Prop :=
  encodeInvertedKeyPrefix t w <+: key ∧ (decodeInvertedKey key).keyword = w

instance (t : TableId) (w : Keyword) : DecidablePred (Reads t w) :=
  fun _ => inferInstanceAs (Decidable (_ ∧ _))

/-- The rows of a keyword. -/
def rowsOf (st : Store) (t : TableId) (w : Keyword) : List (Bytes × Bytes) :=
  (scan st (encodeInvertedKeyPrefix t w)).filter fun e => (decodeInvertedKey e.1).keyword = w

/-- `GetDocs`: the documents of all rows of a keyword. -/
def getDocs (st : Store) (t : TableId) (w : Keyword) : List DocId :=
  (rowsOf st t w).flatMap fun e => decodeInvertedValue e.2

lemma mem_rowsOf {t : TableId} {w : Keyword} :
    e ∈ rowsOf st t w ↔ st.lookup e.1 = some e.2 ∧ Reads t w e.1 := by
  simp [rowsOf, mem_scan, Reads, and_assoc]

lemma mem_getDocs {t : TableId} {w : Keyword} {d : DocId} :
    d ∈ getDocs st t w ↔ ∃ k v, st.lookup k = some v ∧ Reads t w k ∧ d ∈ decodeInvertedValue v := by
  simp only [getDocs, List.mem_flatMap, mem_rowsOf, Prod.exists, and_assoc]

/-- A key is read for at most one table and keyword. -/
lemma Reads.unique {t t' : TableId} {w w' : Keyword} {key : Bytes} (h : Reads t w key)
    (h' : Reads t' w' key) : t = t' ∧ w = w' := by
  obtain ⟨hpre, rfl⟩ := h
  obtain ⟨hpre', hw⟩ := h'
  rw [hw] at hpre ⊢
  exact ⟨tableId_unique hpre hpre', rfl⟩

lemma reads_encodeInvertedKey {t t' : TableId} {w w' : Keyword} {c tick : Int64} {seq : ℕ} :
    Reads t' w' (encodeInvertedKey t w c tick seq) ↔ t' = t ∧ w' = w := by
  have hkey : (decodeInvertedKey (encodeInvertedKey t w c tick seq)).keyword = w := by
    rw [decodeInvertedKey_encodeInvertedKey]
  have hreads : Reads t w (encodeInvertedKey t w c tick seq) :=
    ⟨prefix_encodeInvertedKey _ _ _ _ _, hkey⟩
  constructor
  · exact fun h => h.unique hreads
  · rintro ⟨rfl, rfl⟩
    exact hreads

/-! ### Effect of one operation on what is read -/

section

variable {st : Store} {t : TableId} {w : Keyword} {d : DocId} {k v : Bytes}

/-- A row under a new key adds its documents. -/
lemma mem_getDocs_insert (hk : k ∉ st) :
    d ∈ getDocs (st.insert k v) t w ↔
      d ∈ getDocs st t w ∨ Reads t w k ∧ d ∈ decodeInvertedValue v := by
  simp only [mem_getDocs, GoMap.lookup_insert_if]
  constructor
  · rintro ⟨k', v', hl, hr, hd⟩
    split at hl
    case isTrue h => exact .inr ⟨h ▸ hr, Option.some.inj hl ▸ hd⟩
    case isFalse => exact .inl ⟨k', v', hl, hr, hd⟩
  · rintro (⟨k', v', hl, hr, hd⟩ | ⟨hr, hd⟩)
    · have hne : k' ≠ k := by
        rintro rfl
        exact hk (GoMap.mem_iff_exists_lookup.2 ⟨v', hl⟩)
      exact ⟨k', v', by rw [if_neg hne, hl], hr, hd⟩
    · exact ⟨k, v, if_pos rfl, hr, hd⟩

/-- Erasing rows leaves the documents of the other rows. -/
lemma mem_getDocs_foldl_erase {ks : List Bytes} :
    d ∈ getDocs (ks.foldl (fun m k => m.erase k) st) t w ↔
      ∃ k v, k ∉ ks ∧ st.lookup k = some v ∧ Reads t w k ∧ d ∈ decodeInvertedValue v := by
  have hlookup : ∀ k, (ks.foldl (fun m k => m.erase k) st).lookup k
      = if k ∈ ks then none else st.lookup k := by
    intro k
    induction ks generalizing st with
    | nil => simp
    | cons k' ks ih =>
      rw [List.foldl_cons, ih, GoMap.lookup_erase_if]
      by_cases h : k ∈ ks <;> by_cases h' : k = k' <;> simp [h, h']
  rw [mem_getDocs]
  constructor
  · rintro ⟨k, v, hl, hr, hd⟩
    rw [hlookup] at hl
    split at hl
    · simp at hl
    case isFalse hk => exact ⟨k, v, hk, hl, hr, hd⟩
  · rintro ⟨k, v, hk, hl, hr, hd⟩
    exact ⟨k, v, by rw [hlookup, if_neg hk, hl], hr, hd⟩

end

/-! ### Writing rows -/

/-- The batch of a maintenance task and the sequence counter of the index. `rewritten` lists the
chunks of rows that were merged so far: how many operations were buffered before the chunk, and how
many rows it has. -/
structure Writer where
  db : Db Bytes Bytes
  keySeq : ℕ
  rewritten : List (ℕ × ℕ)

/-- A new batch on the store. -/
def newWriter (st : Store) (keySeq : ℕ) : Writer :=
  ⟨Db.newBatch st maxBatchSize, keySeq, []⟩

namespace Writer

/-- The row that is written next for the documents `docids`. -/
def rowKey (x : Writer) (t : TableId) (w : Keyword) (docids : List DocId) (tick : Int64) : Bytes :=
  encodeInvertedKey t w (Int64.ofNat (encodeInvertedValueCounted docids).2) tick (x.keySeq + 1)

/-- Put a row whose key carries the number of its distinct documents. -/
def writeInvertedIndex (x : Writer) (t : TableId) (w : Keyword) (docids : List DocId)
    (tick : Int64) : Writer :=
  { x with
    db := x.db.add false (.put (x.rowKey t w docids tick) (encodeInvertedValueCounted docids).1)
    keySeq := x.keySeq + 1 }

def delete (x : Writer) (keys : List Bytes) : Writer :=
  { x with db := x.db.addAll (keys.map .delete) }

/-- No key that the counter can still produce with the tick is stored or buffered. -/
def Fresh (x : Writer) (tick : Int64) : Prop :=
  ∀ t w c n, x.keySeq < n → ¬ x.db.Mentions (encodeInvertedKey t w c tick n)

variable {x : Writer} {tick : Int64} {t : TableId} {w : Keyword} {docids : List DocId}
  {keys : List Bytes}

lemma Fresh.rowKey_not_mem (h : x.Fresh tick) : x.rowKey t w docids tick ∉ x.db.ahead :=
  fun hmem => h _ _ _ _ (Nat.lt_succ_self x.keySeq) (Db.mentions_of_mem_ahead hmem)

lemma Fresh.writeInvertedIndex (h : x.Fresh tick) {tick' : Int64} :
    (x.writeInvertedIndex t w docids tick').Fresh tick := by
  intro t' w' c n hn hmem
  rcases Db.mentions_add _ _ _ hmem with hmem | heq
  · exact h _ _ _ _ (Nat.lt_of_succ_lt hn) hmem
  · exact absurd (seq_of_encodeInvertedKey_eq heq) hn.ne'

/-- Deleting stored rows keeps the counter ahead of the keys. -/
lemma Fresh.delete (h : x.Fresh tick) (hkeys : ∀ k ∈ keys, x.db.Mentions k) :
    (x.delete keys).Fresh tick := by
  intro t' w' c n hn hmem
  rcases Db.mentions_addAll _ hmem with hmem | ⟨op, hop, hkey⟩
  · exact h _ _ _ _ hn hmem
  · obtain ⟨k, hk, rfl⟩ := List.mem_map.1 hop
    exact h t' w' c n hn (hkey ▸ hkeys k hk)

@[simp] lemma ahead_delete (keys : List Bytes) :
    (x.delete keys).db.ahead = keys.foldl (fun m k => m.erase k) x.db.ahead := by
  rw [delete, Db.ahead_addAll, applyAll, List.foldl_map]
  rfl

@[simp] lemma ahead_writeInvertedIndex :
    (x.writeInvertedIndex t w docids tick).db.ahead
      = x.db.ahead.insert (x.rowKey t w docids tick) (encodeInvertedValueCounted docids).1 := by
  rw [writeInvertedIndex, Db.ahead_add]
  rfl

lemma lookup_delete_of_not_mem {k : Bytes} (hk : k ∉ keys) :
    (x.delete keys).db.ahead.lookup k = x.db.ahead.lookup k := by
  rw [ahead_delete, GoMap.lookup_foldl_erase _ hk]

/-- The batch has grown out of the store `st₀` and the counter `seq₀`: entries that are no rows are
as they were, and a key is an old one or carries a sequence number given since. -/
structure Descends (st₀ : Store) (seq₀ : ℕ) (x : Writer) : Prop where
  others : ∀ k, (∀ t w, ¬ Reads t w k) → x.db.ahead.lookup k = st₀.lookup k
  seq : seq₀ ≤ x.keySeq
  origin : ∀ k, x.db.Mentions k →
    k ∈ st₀ ∨ ∃ t w c tick n, n ≤ x.keySeq ∧ k = encodeInvertedKey t w c tick n

lemma descends_newWriter (st₀ : Store) (seq₀ : ℕ) : Descends st₀ seq₀ (newWriter st₀ seq₀) where
  others _ _ := rfl
  seq := le_rfl
  origin _ hk := .inl (Db.mentions_newBatch.1 hk)

lemma Descends.writeInvertedIndex {st₀ : Store} {seq₀ : ℕ} (h : Descends st₀ seq₀ x) :
    Descends st₀ seq₀ (x.writeInvertedIndex t w docids tick) := by
  refine ⟨fun k hk => ?_, h.seq.trans (Nat.le_succ _), fun k hk => ?_⟩
  · rw [ahead_writeInvertedIndex, AList.lookup_insert_ne, h.others k hk]
    rintro rfl
    exact hk t w (reads_encodeInvertedKey.2 ⟨rfl, rfl⟩)
  · rcases Db.mentions_add _ _ _ hk with hk | rfl
    · refine (h.origin k hk).imp_right ?_
      rintro ⟨t, w, c, tick, m, hm, rfl⟩
      exact ⟨t, w, c, tick, m, hm.trans (Nat.le_succ _), rfl⟩
    · exact .inr ⟨_, _, _, _, _, le_rfl, rfl⟩

lemma Descends.delete {st₀ : Store} {seq₀ : ℕ} (h : Descends st₀ seq₀ x)
    (hkeys : ∀ k ∈ keys, x.db.Mentions k ∧ Reads t w k) : Descends st₀ seq₀ (x.delete keys) := by
  refine ⟨fun k hk => ?_, h.seq, fun k hk => ?_⟩
  · rw [lookup_delete_of_not_mem fun hmem => hk t w (hkeys k hmem).2, h.others k hk]
  · rcases Db.mentions_addAll _ hk with hk | ⟨op, hop, rfl⟩
    · exact h.origin k hk
    · obtain ⟨k', hk', rfl⟩ := List.mem_map.1 hop
      exact h.origin k' (hkeys k' hk').1

end Writer

end Haystack.InvertedIndex
