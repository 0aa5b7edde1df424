import Haystack.InvertedIndex.Merger

/-!
# What a merge keeps

A chunk of rows is replaced by one row with the same documents under a key of its own, so every
keyword keeps its documents once the batch is committed. The state of the store in between is as
good only if no automatic commit separates the deletion of the rows from the new row.
-/

namespace Haystack.InvertedIndex

open WriteBatch List

/-- The key is read for one table and keyword only. -/
def Owned (t : TableId) (w : Keyword) (key : Bytes) : Prop :=
  ∀ t' w', Reads t' w' key ↔ t' = t ∧ w' = w

/-- A key that decodes to a table starts with the encoding of that table and its keyword: the table
id is written as the encoder writes it. -/
def Canonical (key : Bytes) : Prop :=
  (decodeInvertedKey key).tableId ≠ invalidId →
    encodeInvertedKeyPrefix (decodeInvertedKey key).tableId (decodeInvertedKey key).keyword <+: key

lemma Canonical.owned {key : Bytes} (h : Canonical key)
    (hvalid : (decodeInvertedKey key).tableId ≠ invalidId) :
    Owned (decodeInvertedKey key).tableId (decodeInvertedKey key).keyword key := by
  intro t' w'
  constructor
  · rintro ⟨hpre, rfl⟩
    exact ⟨tableId_unique hpre (h hvalid), rfl⟩
  · rintro ⟨rfl, rfl⟩
    exact ⟨h hvalid, rfl⟩

lemma canonical_encodeInvertedKey (t : TableId) (w : Keyword) (c tick : Int64) (seq : ℕ) :
    Canonical (encodeInvertedKey t w c tick seq) := by
  intro _
  rw [decodeInvertedKey_encodeInvertedKey]
  exact prefix_encodeInvertedKey t w c tick seq

/-- The row is in the store and is read for this table and keyword only. -/
def Holds (st : Store) (t : TableId) (w : Keyword) (r : RecordRow) : Prop :=
  st.lookup r.key = some r.value ∧ Owned t w r.key

/-- What a merge that started from the store `st₀` and the counter `seq₀` keeps: the documents of
each keyword once the batch is committed, the fitness of the sequence counter, and that the rows from
`next` on are not touched by buffered operations. The last field is about the commits so far. -/
structure Keeps (st₀ : Store) (seq₀ : ℕ) (ticks : Ticks) (next : Bytes) (x : Writer) : Prop
    extends x.Descends st₀ seq₀ where
  maxBatchSize : x.db.maxBatchSize = maxBatchSize
  docs : ∀ t w d, d ∈ getDocs x.db.ahead t w ↔ d ∈ getDocs st₀ t w
  fresh : ∀ n, x.Fresh (ticks n)
  canonical : ∀ k, x.db.Mentions k → Canonical k
  clear : ∀ k v, next ≤ k → x.db.store.lookup k = some v → x.db.ahead.lookup k = some v
  history : (∀ c ∈ x.rewritten, (c.1 + c.2 : ℤ) < InvertedIndex.maxBatchSize) →
    ∀ h ∈ x.db.history, ∀ t w d, d ∈ getDocs st₀ t w → d ∈ getDocs h t w

/-! ### One chunk -/

variable {rows : List RecordRow} (size : ℕ)

section

variable {st₀ : Store} {seq₀ : ℕ} {ticks : Ticks} {tick : Int64} {next : Bytes}
  {x : Writer} {t : TableId} {w : Keyword} {chunk : List RecordRow}

lemma mem_docsOf {d : DocId} : d ∈ docsOf rows ↔ ∃ r ∈ rows, d ∈ decodeInvertedValue r.value := by
  simp [docsOf]

lemma ahead_rewriteChunk :
    (x.rewriteChunk t w chunk tick).db.ahead
      = ((chunk.map RecordRow.key).foldl (fun m k => m.erase k) x.db.ahead).insert
        (x.rowKey t w (docsOf chunk) tick) (encodeInvertedValueCounted (docsOf chunk)).1 := by
  rw [Writer.rewriteChunk, Writer.ahead_writeInvertedIndex, Writer.ahead_delete]
  rfl

/-- Replacing the rows of a chunk by one row keeps every keyword's documents. -/
lemma mem_getDocs_rewriteChunk (hfresh : x.Fresh tick)
    (hchunk : ∀ r ∈ chunk, Holds x.db.ahead t w r) {t' : TableId} {w' : Keyword} {d : DocId} :
    d ∈ getDocs (x.rewriteChunk t w chunk tick).db.ahead t' w' ↔ d ∈ getDocs x.db.ahead t' w' := by
  have hnew : x.rowKey t w (docsOf chunk) tick ∉
      (chunk.map RecordRow.key).foldl (fun m k => m.erase k) x.db.ahead := by
    intro hmem
    have hsub : ∀ {ks : List Bytes} {m : Store} {k : Bytes},
        k ∈ ks.foldl (fun m k => m.erase k) m → k ∈ m := by
      intro ks
      induction ks with
      | nil => exact id
      | cons k' ks ih => exact fun h => (AList.mem_erase.1 (ih h)).2
    exact hfresh.rowKey_not_mem (hsub hmem)
  rw [ahead_rewriteChunk, mem_getDocs_insert hnew, mem_getDocs_foldl_erase, mem_decode_encode,
    mem_docsOf, Writer.rowKey, reads_encodeInvertedKey]
  constructor
  · rintro (⟨k, v, -, hl, hr, hd⟩ | ⟨⟨rfl, rfl⟩, r, hr, hd⟩)
    · exact mem_getDocs.2 ⟨k, v, hl, hr, hd⟩
    · obtain ⟨hl, hown⟩ := hchunk r hr
      exact mem_getDocs.2 ⟨r.key, r.value, hl, (hown _ _).2 ⟨rfl, rfl⟩, hd⟩
  · intro h
    obtain ⟨k, v, hl, hr, hd⟩ := mem_getDocs.1 h
    by_cases hk : k ∈ chunk.map RecordRow.key
    · obtain ⟨r, hr', rfl⟩ := mem_map.1 hk
      obtain ⟨hl', hown⟩ := hchunk r hr'
      rw [hl', Option.some.injEq] at hl
      exact .inr ⟨(hown _ _).1 hr, r, hr', hl ▸ hd⟩
    · exact .inl ⟨k, v, hk, hl, hr, hd⟩

/-- Rows outside the chunk stay. -/
lemma lookup_rewriteChunk (hfresh : x.Fresh tick) {k v : Bytes}
    (hk : k ∉ chunk.map RecordRow.key) (hl : x.db.ahead.lookup k = some v) :
    (x.rewriteChunk t w chunk tick).db.ahead.lookup k = some v := by
  have hne : k ≠ x.rowKey t w (docsOf chunk) tick := by
    rintro rfl
    exact hfresh.rowKey_not_mem (GoMap.mem_iff_exists_lookup.2 ⟨v, hl⟩)
  rw [ahead_rewriteChunk, AList.lookup_insert_ne hne, GoMap.lookup_foldl_erase _ hk, hl]

/-- An operation on a key below `next`, or on a key that is not stored, leaves the rows from `next`
on clear. -/
lemma clear_add {d : Db Bytes Bytes} {op : Op Bytes Bytes}
    (hclear : ∀ k v, next ≤ k → d.store.lookup k = some v → d.ahead.lookup k = some v)
    (hop : op.key < next ∨ op.key ∉ d.store) :
    ∀ k v, next ≤ k → (d.add false op).store.lookup k = some v →
      (d.add false op).ahead.lookup k = some v := by
  intro k v hk hl
  rw [Db.ahead_add]
  rcases Db.store_add false d op with heq | heq <;> rw [heq] at hl
  · have hne : op.key ≠ k := by
      rintro rfl
      rcases hop with hlt | hnot
      · exact absurd hk hlt.not_ge
      · exact hnot (GoMap.mem_iff_exists_lookup.2 ⟨v, hl⟩)
    rw [Op.lookup_apply_of_ne _ hne]
    exact hclear k v hk hl
  · exact hl

lemma clear_delete {keys : List Bytes}
    (hclear : ∀ k v, next ≤ k → x.db.store.lookup k = some v → x.db.ahead.lookup k = some v)
    (hkeys : ∀ k ∈ keys, k < next) :
    ∀ k v, next ≤ k → (x.delete keys).db.store.lookup k = some v →
      (x.delete keys).db.ahead.lookup k = some v := by
  unfold Writer.delete
  dsimp only
  generalize x.db = d at hclear ⊢
  induction keys generalizing d with
  | nil => exact hclear
  | cons k keys ih =>
    rw [map_cons, Db.addAll_cons]
    exact ih (fun k' hk' => hkeys k' (mem_cons_of_mem _ hk')) _
      (clear_add hclear (.inl (hkeys k mem_cons_self)))

theorem Keeps.rewriteChunk (h : Keeps st₀ seq₀ ticks next x)
    (hchunk : ∀ r ∈ chunk, Holds x.db.ahead t w r) (hlt : ∀ r ∈ chunk, r.key < next)
    (n : ℕ) : Keeps st₀ seq₀ ticks next (x.rewriteChunk t w chunk (ticks n)) := by
  have hmentions : ∀ k ∈ chunk.map RecordRow.key, x.db.Mentions k := by
    intro k hk
    obtain ⟨r, hr, rfl⟩ := mem_map.1 hk
    exact Db.mentions_of_mem_ahead (GoMap.mem_iff_exists_lookup.2 ⟨_, (hchunk r hr).1⟩)
  set y : Writer := { x with rewritten := x.rewritten ++ [(x.db.count, chunk.length)] } with hy
  have hfresh : ∀ m, (y.delete (chunk.map RecordRow.key)).Fresh (ticks m) := fun m =>
    Writer.Fresh.delete (h.fresh m) hmentions
  have hdocs : ∀ t' w' d,
      d ∈ getDocs (x.rewriteChunk t w chunk (ticks n)).db.ahead t' w' ↔
        d ∈ getDocs st₀ t' w' :=
    fun t' w' d => (mem_getDocs_rewriteChunk (h.fresh n) hchunk).trans (h.docs t' w' d)
  have hdesc : (y.delete (chunk.map RecordRow.key)).Descends st₀ seq₀ := by
    refine Writer.Descends.delete (t := t) (w := w) ⟨h.others, h.seq, h.origin⟩ fun k hk => ?_
    obtain ⟨r, hr, rfl⟩ := mem_map.1 hk
    exact ⟨hmentions _ hk, ((hchunk r hr).2 t w).2 ⟨rfl, rfl⟩⟩
  refine
    { maxBatchSize := ?_
      docs := hdocs
      toDescends := hdesc.writeInvertedIndex
      fresh := fun m => (hfresh m).writeInvertedIndex
      canonical := fun k hk => ?_
      clear := ?_
      history := fun hfit h' hh' => ?_ }
  · simp [Writer.rewriteChunk, Writer.writeInvertedIndex, Writer.delete, h.maxBatchSize]
  · rcases Db.mentions_add _ _ _ hk with hk | rfl
    · rcases Db.mentions_addAll _ hk with hk | ⟨op, hop, rfl⟩
      · exact h.canonical k hk
      · obtain ⟨k', hk', rfl⟩ := mem_map.1 hop
        exact h.canonical k' (hmentions k' hk')
    · exact canonical_encodeInvertedKey _ _ _ _ _
  · have hkeys : ∀ k ∈ chunk.map RecordRow.key, k < next := by simpa using hlt
    have hclear := clear_delete (x := y) h.clear hkeys
    exact clear_add hclear (.inr fun hmem => hfresh n _ _ _ _ (Nat.lt_succ_self _) (.inl hmem))
  · have hfit' : (x.db.count + chunk.length : ℤ) < InvertedIndex.maxBatchSize :=
      hfit (x.db.count, chunk.length) (mem_append_right _ (mem_singleton_self _))
    have hquiet : (y.delete (chunk.map RecordRow.key)).db.history = x.db.history := by
      rw [Writer.delete]
      dsimp only
      rw [Db.addAll_of_count_lt (by simpa [hy, h.maxBatchSize] using hfit')]
    rcases Db.mem_history_add _ _ _ hh' with hh' | rfl
    · rw [hquiet] at hh'
      exact h.history (fun c hc => hfit c (mem_append_left _ hc)) h' hh'
    · intro t' w' d hd
      have := (hdocs t' w' d).2 hd
      rwa [Writer.rewriteChunk, Writer.writeInvertedIndex, Db.ahead_add] at this

end

/-! ### Groups -/

/-- The rows of a chunk and the rows after it are the rows it was taken from. -/
lemma takeChunk_append (taken rows : List RecordRow) (left : Int64) :
    (takeChunk size taken rows left).1 ++ (takeChunk size taken rows left).2.1 = taken ++ rows := by
  induction rows generalizing taken left with
  | nil => simp [takeChunk]
  | cons r rows ih =>
    rw [takeChunk]
    split
    · rw [ih, append_assoc, singleton_append]
    · rfl

lemma prefix_takeChunk (taken rows : List RecordRow) (left : Int64) :
    taken <+: (takeChunk size taken rows left).1 := by
  induction rows generalizing taken left with
  | nil => simp [takeChunk]
  | cons r rows ih =>
    rw [takeChunk]
    split
    · exact (prefix_append _ _).trans (ih _ _)
    · exact prefix_rfl

/-- A chunk has at least one row. -/
lemma takeChunk_ne_nil {size : ℕ} (hsize : 1 ≤ size) (hrows : rows ≠ []) (left : Int64) :
    (takeChunk size [] rows left).1 ≠ [] := by
  obtain ⟨r, rows, rfl⟩ := exists_cons_of_ne_nil hrows
  rw [takeChunk, if_pos (.inl (by simpa [docsOf] using Nat.lt_of_succ_le hsize))]
  have := prefix_takeChunk size ([] ++ [r]) rows (left - r.docCount)
  intro hnil
  rw [hnil] at this
  simp at this

section

variable {st₀ : Store} {seq₀ : ℕ} {ticks : Ticks} {next : Bytes} {size : ℕ} {x : Writer}

lemma Keeps.rewriteRows {t : TableId} {w : Keyword} {fuel : ℕ} {left : Int64}
    (h : Keeps st₀ seq₀ ticks next x) (hrows : ∀ r ∈ rows, Holds x.db.ahead t w r)
    (hlt : ∀ r ∈ rows, r.key < next) (hnodup : (rows.map RecordRow.key).Nodup) (n : ℕ) :
    Keeps st₀ seq₀ ticks next (x.rewriteRows size t w (ticks n) fuel rows left) ∧
      ∀ k v, k ∉ rows.map RecordRow.key → x.db.ahead.lookup k = some v →
        (x.rewriteRows size t w (ticks n) fuel rows left).db.ahead.lookup k = some v := by
  induction fuel generalizing x rows left with
  | zero => exact ⟨h, fun _ _ _ hl => hl⟩
  | succ fuel ih =>
    rw [Writer.rewriteRows]
    split
    case isTrue => exact ⟨h, fun _ _ _ hl => hl⟩
    case isFalse =>
      have happ := takeChunk_append size [] rows left
      generalize takeChunk size [] rows left = p at happ ⊢
      obtain ⟨chunk, rest, left'⟩ := p
      dsimp only [nil_append] at happ ⊢
      subst happ
      rw [map_append] at hnodup
      obtain ⟨-, hrest, hdisj⟩ := nodup_append.1 hnodup
      have hchunk : ∀ r ∈ chunk, Holds x.db.ahead t w r := fun r hr => hrows r (by simp [hr])
      have hx := h.rewriteChunk hchunk (fun r hr => hlt r (by simp [hr])) n
      -- the rows of later chunks are not touched by this one
      have hstay : ∀ r ∈ rest, Holds (x.rewriteChunk t w chunk (ticks n)).db.ahead t w r := by
        intro r hr
        obtain ⟨hl, hown⟩ := hrows r (by simp [hr])
        refine ⟨lookup_rewriteChunk (h.fresh n) (fun hmem => ?_) hl, hown⟩
        exact hdisj _ hmem _ (mem_map_of_mem hr) rfl
      obtain ⟨hkeeps, hlookup⟩ := @ih _ _ left' hx hstay (fun r hr => hlt r (by simp [hr])) hrest
      refine ⟨hkeeps, fun k v hk hl => ?_⟩
      rw [map_append, mem_append, not_or] at hk
      exact hlookup k v hk.2 (lookup_rewriteChunk (h.fresh n) hk.1 hl)

/-- The rows of a list of groups. -/
def groupRows (gs : List Group) : List RecordRow :=
  gs.flatMap Group.rows

/-- Every row of the groups is stored and belongs to the table and keyword of its group. -/
def GroupsHold (st : Store) (gs : List Group) : Prop :=
  ∀ g ∈ gs, ∀ r ∈ g.rows, Holds st g.tableId g.keyword r

lemma Keeps.rewriteIndex {g : Group} (h : Keeps st₀ seq₀ ticks next x)
    (hrows : ∀ r ∈ g.rows, Holds x.db.ahead g.tableId g.keyword r)
    (hlt : ∀ r ∈ g.rows, r.key < next) (hnodup : (g.rows.map RecordRow.key).Nodup) :
    Keeps st₀ seq₀ ticks next (x.rewriteIndex size ticks g) ∧
      ∀ k v, k ∉ g.rows.map RecordRow.key → x.db.ahead.lookup k = some v →
        (x.rewriteIndex size ticks g).db.ahead.lookup k = some v := by
  unfold Writer.rewriteIndex
  split
  · exact ⟨h, fun _ _ _ hl => hl⟩
  · exact h.rewriteRows hrows hlt hnodup _

/-- Rewriting all groups of a round. -/
lemma Keeps.rewriteAll {gs : List Group} (h : Keeps st₀ seq₀ ticks next x)
    (hgs : GroupsHold x.db.ahead gs) (hlt : ∀ r ∈ groupRows gs, r.key < next)
    (hnodup : ((groupRows gs).map RecordRow.key).Nodup) :
    Keeps st₀ seq₀ ticks next (gs.foldl (Writer.rewriteIndex size ticks) x) ∧
      ∀ k v, k ∉ (groupRows gs).map RecordRow.key → x.db.ahead.lookup k = some v →
        (gs.foldl (Writer.rewriteIndex size ticks) x).db.ahead.lookup k = some v := by
  induction gs generalizing x with
  | nil => exact ⟨h, fun _ _ _ hl => hl⟩
  | cons g gs ih =>
    simp only [groupRows, flatMap_cons, mem_append, map_append] at hlt hnodup
    obtain ⟨hg, hrest, hdisj⟩ := nodup_append.1 hnodup
    obtain ⟨hx, hlookup⟩ := @Keeps.rewriteIndex _ _ _ _ size _ _ h (hgs g (by simp))
      (fun r hr => hlt r (.inl hr)) hg
    have hgs' : GroupsHold (x.rewriteIndex size ticks g).db.ahead gs := by
      intro g' hg' r hr
      obtain ⟨hl, hown⟩ := hgs g' (by simp [hg']) r hr
      refine ⟨hlookup _ _ (fun hmem => ?_) hl, hown⟩
      exact hdisj _ hmem _ (mem_map_of_mem (mem_flatMap.2 ⟨g', hg', hr⟩)) rfl
    obtain ⟨hkeeps, hlookup'⟩ := ih hx hgs' (fun r hr => hlt r (.inr hr)) hrest
    refine ⟨hkeeps, fun k v hk hl => ?_⟩
    simp only [groupRows, flatMap_cons, map_append, mem_append, not_or] at hk
    exact hlookup' k v hk.2 (hlookup k v hk.1 hl)

end

/-! ### Collecting -/

/-- What one row does to a scan. -/
lemma Scan.row_cases (s : Scan) (e : Bytes × Bytes) :
    (decodeInvertedKey e.1).tableId = invalidId ∧ s.row size e = .ok s ∨
    (decodeInvertedKey e.1).tableId ≠ invalidId ∧
      let k := decodeInvertedKey e.1
      let s' := s.enter k
      let next : Group := ⟨k.tableId, k.keyword, [recordOf e], k.doccount⟩
      s.row size e = .ok s' ∨
      (s'.lastTableId = k.tableId ∧ s'.current.keyword = k.keyword) ∧
        s.row size e = .ok { s' with current := s'.current.addRow (recordOf e) } ∨
      ¬ (s'.lastTableId = k.tableId ∧ s'.current.keyword = k.keyword) ∧
        ∃ clock, s.row size e = .ok ⟨k.tableId, next, s'.pending ++ [s'.current], clock⟩ ∨
          s.row size e = .error (.cut (s'.pending ++ [s'.current]) next (e.1 ++ [0x01]) clock) ∧
            (clock = some 0 ∨ 500 ≤ (s'.pending ++ [s'.current]).length) := by
  unfold Scan.row
  dsimp only
  split
  case isTrue h => exact .inl ⟨h, rfl⟩
  case isFalse h =>
    refine .inr ⟨h, ?_⟩
    split
    case isTrue => exact .inl rfl
    case isFalse =>
      split
      case isTrue h' => exact .inr (.inl ⟨h', rfl⟩)
      case isFalse h' =>
        refine .inr (.inr ⟨h', ?_⟩)
        cases hclock : (s.enter (decodeInvertedKey e.1)).clock.isTimeout with
        | mk timeout clock =>
          dsimp only
          split
          case isTrue => exact ⟨clock, .inl rfl⟩
          case isFalse hcut =>
            refine ⟨clock, .inr ⟨rfl, ?_⟩⟩
            rw [not_and_or, not_lt] at hcut
            refine hcut.imp_left fun ht => ?_
            -- once the time is up it stays up
            generalize (s.enter (decodeInvertedKey e.1)).clock = c at hclock
            match c with
            | none => simp_all [Clock.isTimeout]
            | some 0 => simp_all [Clock.isTimeout]
            | some (n + 1) => simp_all [Clock.isTimeout]

/-- What every row keeps holds when the round ends. -/
lemma collect_induction {size : ℕ} {I : Scan → List (Bytes × Bytes) → Prop} {R : Round → Prop}
    (hrow : ∀ s e rest s', I s (e :: rest) → s.row size e = .ok s' → I s' rest)
    (hcut : ∀ s e rest r, I s (e :: rest) → s.row size e = .error r → R r)
    (hdone : ∀ s, I s [] → R (.done s.pending s.current))
    {s : Scan} {rows : List (Bytes × Bytes)} (h : I s rows) : R (collect size s rows) := by
  induction rows generalizing s with
  | nil => exact hdone s h
  | cons e rows ih =>
    rw [collect]
    cases hr : s.row size e with
    | ok s' => exact ih (hrow s e rows s' h hr)
    | error r => exact hcut s e rows r h hr

section

variable (P : TableId → Keyword → RecordRow → Prop) (S : TableId → Keyword → Bytes → Prop)
  (base : List RecordRow) (all : List (Bytes × Bytes))

/-- The state of a scan before the rows `rest` of the round's rows `all`. Each row collected is one
that `P` admits for its group, and the rows are among those carried over from the round before
(`base`) and the ones scanned. Only the first group can be empty. The table and keyword of the group
in progress are those of some key seen before, as `S` says. -/
structure Collected (s : Scan) (rest : List (Bytes × Bytes)) : Prop where
  start : s.lastTableId = invalidId → s.current.rows = []
  table : s.lastTableId ≠ invalidId → s.current.tableId = s.lastTableId
  rows : ∀ g ∈ s.pending ++ [s.current], ∀ r ∈ g.rows, P g.tableId g.keyword r
  tail : ∀ g ∈ (s.pending ++ [s.current]).tail, g.rows ≠ []
  sub : ∃ pre, all = pre ++ rest ∧
    (groupRows (s.pending ++ [s.current])).Sublist (base ++ pre.map recordOf)
  seen : s.lastTableId ≠ invalidId →
    ∃ k, S s.current.tableId s.current.keyword k ∧ ∀ e ∈ rest, k ≤ e.1
  valid : ∀ e ∈ rest, (decodeInvertedKey e.1).tableId ≠ invalidId →
    P (decodeInvertedKey e.1).tableId (decodeInvertedKey e.1).keyword (recordOf e) ∧
      S (decodeInvertedKey e.1).tableId (decodeInvertedKey e.1).keyword e.1
  sorted : rest.Pairwise fun e e' => e.1 < e'.1

/-- What is known when a round is cut at a row. -/
structure CutAt (pending : List Group) (next : Group) (nextIter : Bytes) (clock : Clock)
    (pre : List (Bytes × Bytes)) (e : Bytes × Bytes) (post : List (Bytes × Bytes)) : Prop where
  all_eq : all = pre ++ e :: post
  nextIter_eq : nextIter = e.1 ++ [0x01]
  next_eq : next = ⟨(decodeInvertedKey e.1).tableId, (decodeInvertedKey e.1).keyword,
    [recordOf e], (decodeInvertedKey e.1).doccount⟩
  valid : (decodeInvertedKey e.1).tableId ≠ invalidId
  rows : ∀ g ∈ pending ++ [next], ∀ r ∈ g.rows, P g.tableId g.keyword r
  tail : ∀ g ∈ pending.tail, g.rows ≠ []
  sub : (groupRows (pending ++ [next])).Sublist (base ++ (pre ++ [e]).map recordOf)
  seen : ∃ t w k, S t w k ∧ k < e.1 ∧ ¬ (t = next.tableId ∧ w = next.keyword)
  reason : clock = some 0 ∨ 500 ≤ pending.length

/-- What is known when a round ends. -/
def Round.Ok : Round → Prop
  | .done pending current => (∀ g ∈ pending ++ [current], ∀ r ∈ g.rows, P g.tableId g.keyword r) ∧
      (groupRows (pending ++ [current])).Sublist (base ++ all.map recordOf)
  | .cut pending next nextIter clock =>
      ∃ pre e post, CutAt P S base all pending next nextIter clock pre e post

end

section

variable {P : TableId → Keyword → RecordRow → Prop} {S : TableId → Keyword → Bytes → Prop}
  {base : List RecordRow} {all : List (Bytes × Bytes)} {s : Scan} {e : Bytes × Bytes}
  {rest : List (Bytes × Bytes)}

lemma groupRows_append (gs gs' : List Group) :
    groupRows (gs ++ gs') = groupRows gs ++ groupRows gs' :=
  flatMap_append

@[simp] lemma groupRows_singleton (g : Group) : groupRows [g] = g.rows := by
  simp [groupRows]

lemma mem_tail_append_singleton {α : Type*} {l : List α} {a b : α} :
    a ∈ (l ++ [b]).tail ↔ a ∈ l.tail ∨ a = b ∧ l ≠ [] := by
  cases l <;> simp

lemma Scan.enter_lastTableId_ne {k : RowKey} (hk : k.tableId ≠ invalidId) :
    (s.enter k).lastTableId ≠ invalidId := by
  unfold Scan.enter
  split
  · exact hk
  · assumption

lemma Collected.enter (h : Collected P S base all s (e :: rest))
    (hk : (decodeInvertedKey e.1).tableId ≠ invalidId) :
    Collected P S base all (s.enter (decodeInvertedKey e.1)) (e :: rest) := by
  unfold Scan.enter
  split
  case isFalse => exact h
  case isTrue hs =>
    have hnil := h.start hs
    refine
      { start := fun h' => absurd h' hk
        table := fun _ => rfl
        rows := fun g hg r hr => ?_
        tail := fun g hg => ?_
        sub := ?_
        seen := fun _ => ⟨e.1, (h.valid e (by simp) hk).2, fun e' he' => ?_⟩
        valid := h.valid
        sorted := h.sorted }
    · rcases mem_append.1 hg with hg | hg
      · exact h.rows g (mem_append_left _ hg) r hr
      · rw [mem_singleton.1 hg] at hr
        simp [hnil] at hr
    · rcases mem_tail_append_singleton.1 hg with hg | ⟨rfl, hne⟩
      · exact h.tail g (mem_tail_append_singleton.2 (.inl hg))
      · exact absurd hnil (h.tail s.current (mem_tail_append_singleton.2 (.inr ⟨rfl, hne⟩)))
    · obtain ⟨pre, hall, hsub⟩ := h.sub
      exact ⟨pre, hall, by simpa [groupRows_append] using hsub⟩
    · rcases mem_cons.1 he' with rfl | he'
      · exact le_rfl
      · exact ((pairwise_cons.1 h.sorted).1 e' he').le

/-- Skipping a row. -/
lemma Collected.skip (h : Collected P S base all s (e :: rest)) : Collected P S base all s rest where
  start := h.start
  table := h.table
  rows := h.rows
  tail := h.tail
  sub := by
    obtain ⟨pre, hall, hsub⟩ := h.sub
    refine ⟨pre ++ [e], by simp [hall], hsub.trans ?_⟩
    simp
  seen hs := by
    obtain ⟨k, hk, hle⟩ := h.seen hs
    exact ⟨k, hk, fun e' he' => hle e' (mem_cons_of_mem _ he')⟩
  valid e' he' := h.valid e' (mem_cons_of_mem _ he')
  sorted := (pairwise_cons.1 h.sorted).2

/-- Adding a row to the group in progress. -/
lemma Collected.addRow (h : Collected P S base all s (e :: rest))
    (hk : (decodeInvertedKey e.1).tableId ≠ invalidId)
    (htable : s.lastTableId = (decodeInvertedKey e.1).tableId)
    (hkeyword : s.current.keyword = (decodeInvertedKey e.1).keyword) :
    Collected P S base all { s with current := s.current.addRow (recordOf e) } rest := by
  have hs : s.lastTableId ≠ invalidId := htable ▸ hk
  have hskip := h.skip
  refine
    { start := fun h' => absurd h' hs
      table := hskip.table
      rows := fun g hg r hr => ?_
      tail := fun g hg => ?_
      sub := ?_
      seen := hskip.seen
      valid := hskip.valid
      sorted := hskip.sorted }
  · rcases mem_append.1 hg with hg | hg
    · exact h.rows g (mem_append_left _ hg) r hr
    · rw [mem_singleton.1 hg] at hr ⊢
      rcases mem_append.1 hr with hr | hr
      · exact h.rows s.current (by simp) r hr
      · rw [mem_singleton.1 hr]
        have := (h.valid e (by simp) hk).1
        rwa [← htable, ← h.table hs, ← hkeyword] at this
  · rcases mem_tail_append_singleton.1 hg with hg | ⟨rfl, -⟩
    · exact h.tail g (mem_tail_append_singleton.2 (.inl hg))
    · simp [Group.addRow]
  · obtain ⟨pre, hall, hsub⟩ := h.sub
    refine ⟨pre ++ [e], by simp [hall], ?_⟩
    simp only [groupRows_append, groupRows_singleton, Group.addRow, map_append,
      map_cons, map_nil, ← append_assoc] at hsub ⊢
    exact hsub.append (Sublist.refl _)

/-- The groups when a row starts a new one. -/
lemma Collected.newGroup (h : Collected P S base all s (e :: rest))
    (hk : (decodeInvertedKey e.1).tableId ≠ invalidId) {next : Group}
    (hnext : next = ⟨(decodeInvertedKey e.1).tableId, (decodeInvertedKey e.1).keyword,
      [recordOf e], (decodeInvertedKey e.1).doccount⟩) :
    (∀ g ∈ s.pending ++ [s.current] ++ [next], ∀ r ∈ g.rows, P g.tableId g.keyword r) ∧
    (∀ g ∈ (s.pending ++ [s.current] ++ [next]).tail, g.rows ≠ []) ∧
    ∃ pre, all = pre ++ e :: rest ∧
      (groupRows (s.pending ++ [s.current] ++ [next])).Sublist (base ++ (pre ++ [e]).map recordOf) := by
  refine ⟨fun g hg r hr => ?_, fun g hg => ?_, ?_⟩
  · rcases mem_append.1 hg with hg | hg
    · exact h.rows g hg r hr
    · rw [mem_singleton.1 hg, hnext] at hr ⊢
      rw [mem_singleton.1 hr]
      exact (h.valid e (by simp) hk).1
  · rcases mem_tail_append_singleton.1 hg with hg | ⟨rfl, -⟩
    · exact h.tail g hg
    · simp [hnext]
  · obtain ⟨pre, hall, hsub⟩ := h.sub
    refine ⟨pre, hall, ?_⟩
    rw [groupRows_append, groupRows_singleton, hnext, map_append, ← append_assoc]
    exact hsub.append (Sublist.refl _)

/-- The groups that a round collects. -/
theorem collect_ok (hS : ∀ t w k, S t w k →
      (decodeInvertedKey k).tableId = t ∧ (decodeInvertedKey k).keyword = w)
    (h : Collected P S base all s rest) : (collect size s rest).Ok P S base all := by
  refine collect_induction (I := Collected P S base all) ?_ ?_ ?_ h
  · intro s e rest s' h hrow
    rcases s.row_cases size e with ⟨-, heq⟩ | ⟨hk, hcases⟩
    · obtain rfl : s = s' := by simpa [heq] using hrow
      exact h.skip
    · have henter := h.enter hk
      have hne := Scan.enter_lastTableId_ne (s := s) hk
      rcases hcases with heq | ⟨⟨ht, hw⟩, heq⟩ | ⟨-, clock, heq | ⟨heq, -⟩⟩
      · obtain rfl : _ = s' := by simpa [heq] using hrow
        exact henter.skip
      · obtain rfl : _ = s' := by simpa [heq] using hrow
        exact henter.addRow hk ht hw
      · obtain rfl : _ = s' := by simpa [heq] using hrow
        obtain ⟨hrows, htail, pre, hall, hsub⟩ := henter.newGroup hk rfl
        exact
          { start := fun h' => absurd h' hk
            table := fun _ => rfl
            rows := hrows
            tail := htail
            sub := ⟨pre ++ [e], by simp [hall], hsub⟩
            seen := fun _ => ⟨e.1, (h.valid e (by simp) hk).2,
              fun e' he' => ((pairwise_cons.1 h.sorted).1 e' he').le⟩
            valid := h.skip.valid
            sorted := h.skip.sorted }
      · simp [heq] at hrow
  · intro s e rest r h hrow
    rcases s.row_cases size e with ⟨-, heq⟩ | ⟨hk, hcases⟩
    · simp [heq] at hrow
    · have henter := h.enter hk
      have hne := Scan.enter_lastTableId_ne (s := s) hk
      rcases hcases with heq | ⟨-, heq⟩ | ⟨hdiff, clock, heq | ⟨heq, hreason⟩⟩
      · simp [heq] at hrow
      · simp [heq] at hrow
      · simp [heq] at hrow
      · obtain rfl : _ = r := by simpa [heq] using hrow
        obtain ⟨hrows, htail, pre, hall, hsub⟩ := henter.newGroup hk rfl
        obtain ⟨k, hSk, hle⟩ := henter.seen hne
        have hdiff' : ¬ ((s.enter (decodeInvertedKey e.1)).current.tableId
            = (decodeInvertedKey e.1).tableId ∧ (s.enter (decodeInvertedKey e.1)).current.keyword
            = (decodeInvertedKey e.1).keyword) := by
          rwa [henter.table hne]
        refine ⟨pre, e, rest, hall, rfl, rfl, hk, hrows, fun g hg => ?_, hsub, ?_, hreason⟩
        · exact htail g (mem_tail_append_singleton.2 (.inl hg))
        · refine ⟨_, _, k, hSk, lt_of_le_of_ne (hle e (by simp)) ?_, hdiff'⟩
          rintro rfl
          obtain ⟨h₁, h₂⟩ := hS _ _ _ hSk
          exact hdiff' ⟨h₁.symm, h₂.symm⟩
  · intro s h
    obtain ⟨pre, hall, hsub⟩ := h.sub
    exact ⟨h.rows, by simpa [hall] using hsub⟩

end

end Haystack.InvertedIndex
