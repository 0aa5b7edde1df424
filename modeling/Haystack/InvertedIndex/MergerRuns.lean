import Haystack.InvertedIndex.MergerSpec

/-!
# Rounds of the merger

The rounds of one call, and the calls that follow each other until the whole key space is merged.
A round hands over the group in progress to the next one; from then on only keys behind the cut are
scanned. The number of rounds is bounded because a group of rows becomes fewer rows.
-/

namespace Haystack.InvertedIndex

open WriteBatch List

/-! ### What one round hands over to the next -/

section

variable (P : TableId → Keyword → RecordRow → Prop) (S : TableId → Keyword → Bytes → Prop)

/-- The group in progress when a round starts at `nextIter`. -/
structure Carried (lastTableId : TableId) (current : Group) (nextIter : Bytes) : Prop where
  start : lastTableId = invalidId → current.rows = []
  table : lastTableId ≠ invalidId → current.tableId = lastTableId
  rows : ∀ r ∈ current.rows, P current.tableId current.keyword r
  below : ∀ r ∈ current.rows, r.key < nextIter
  nodup : (current.rows.map RecordRow.key).Nodup
  seen : lastTableId ≠ invalidId → ∃ k, S current.tableId current.keyword k ∧ k < nextIter

end

variable {clock : Clock} {pre post : List (Bytes × Bytes)} {size : ℕ} {lastTableId : TableId}
  {e : Bytes × Bytes} {current : Group} {fuel : ℕ} {pending : List Group} {nextIter : Bytes}
  {nextIter' : Bytes} {next : Group} {x : Writer} {g : TableId × Keyword} {base : List RecordRow}

section

variable {P : TableId → Keyword → RecordRow → Prop} {S : TableId → Keyword → Bytes → Prop}
  {lastTableId : TableId} {current : Group} {nextIter : Bytes} {st : Store}

lemma Carried.initial (nextIter : Bytes) : Carried P S invalidId ⟨0, [], [], 0⟩ nextIter where
  start _ := rfl
  table h := absurd rfl h
  rows := by simp
  below := by simp
  nodup := by simp
  seen h := absurd rfl h

lemma Carried.collected (h : Carried P S lastTableId current nextIter) (clock : Clock)
    (hvalid : ∀ e ∈ scanRange st nextIter rowsEnd, (decodeInvertedKey e.1).tableId ≠ invalidId →
      P (decodeInvertedKey e.1).tableId (decodeInvertedKey e.1).keyword (recordOf e) ∧
        S (decodeInvertedKey e.1).tableId (decodeInvertedKey e.1).keyword e.1) :
    Collected P S current.rows (scanRange st nextIter rowsEnd) ⟨lastTableId, current, [], clock⟩
      (scanRange st nextIter rowsEnd) where
  start := h.start
  table := h.table
  rows g hg r hr := by
    rw [nil_append, mem_singleton] at hg
    subst hg
    exact h.rows r hr
  tail := by simp
  sub := ⟨[], rfl, by simp⟩
  seen hne := by
    obtain ⟨k, hk, hlt⟩ := h.seen hne
    exact ⟨k, hk, fun e he => hlt.le.trans (mem_scanRange.1 he).2.1⟩
  valid := hvalid
  sorted := pairwise_scanWhere _ _

/-- The rows carried over and the rows scanned have distinct keys. -/
lemma Carried.nodup_keys (h : Carried P S lastTableId current nextIter)
    {pre : List (Bytes × Bytes)} (hpre : pre.Sublist (scanRange st nextIter rowsEnd)) :
    ((current.rows ++ pre.map recordOf).map RecordRow.key).Nodup := by
  rw [map_append, map_map, nodup_append]
  refine ⟨h.nodup, ?_, ?_⟩
  · have hsorted := (pairwise_scanWhere _ _).sublist hpre
    exact pairwise_map.2 (hsorted.imp fun hlt => hlt.ne)
  · intro k hk k' hk'
    obtain ⟨r, hr, rfl⟩ := mem_map.1 hk
    obtain ⟨e, he, rfl⟩ := mem_map.1 hk'
    exact ((h.below r hr).trans_le (mem_scanRange.1 (hpre.subset he)).2.1).ne

lemma lt_append_singleton (k : Bytes) (b : UInt8) : k < k ++ [b] := by
  conv_lhs => rw [← append_nil k]
  rw [Bytes.append_lt_append_left_iff]
  exact nil_lt_cons b []

/-- The rows of a round that is cut lie before the next round. -/
lemma CutAt.spec (h : Carried P S lastTableId current nextIter)
    (hcut : CutAt P S current.rows (scanRange st nextIter rowsEnd) pending next
      nextIter' clock pre e post) :
    ((groupRows (pending ++ [next])).map RecordRow.key).Nodup ∧
    (∀ r ∈ groupRows (pending ++ [next]), r.key < nextIter') ∧ nextIter ≤ nextIter' ∧
    e ∈ scanRange st nextIter rowsEnd ∧ e.1 < nextIter' := by
  have hsub : (pre ++ [e]).Sublist (scanRange st nextIter rowsEnd) := by
    rw [hcut.all_eq]
    exact (prefix_append (pre ++ [e]) post).sublist.trans (by simp)
  have he : e ∈ scanRange st nextIter rowsEnd := hsub.subset (by simp)
  have hlt : e.1 < nextIter' := hcut.nextIter_eq ▸ lt_append_singleton e.1 _
  have hle : nextIter ≤ e.1 := (mem_scanRange.1 he).2.1
  have hsorted : (pre ++ [e]).Pairwise fun a b => a.1 < b.1 :=
    (pairwise_scanWhere _ _).sublist hsub
  refine ⟨(hcut.sub.map RecordRow.key).nodup (h.nodup_keys hsub), fun r hr => ?_,
    hle.trans hlt.le, he, hlt⟩
  rcases mem_append.1 (hcut.sub.subset hr) with hr | hr
  · exact (h.below r hr).trans_le (hle.trans hlt.le)
  · obtain ⟨e', he', rfl⟩ := mem_map.1 hr
    rcases mem_append.1 he' with he' | he'
    · exact ((pairwise_append.1 hsorted).2.2 e' he' e (by simp)).trans hlt
    · rw [mem_singleton.1 he']
      exact hlt

/-- The group that a cut starts is carried over. -/
lemma CutAt.carried {P' : TableId → Keyword → RecordRow → Prop} {all : List (Bytes × Bytes)}
    (hcut : CutAt P S base all pending next nextIter' clock pre e post)
    (hrow : P' next.tableId next.keyword (recordOf e)) (hS : S next.tableId next.keyword e.1) :
    Carried P' S next.tableId next nextIter' := by
  have hrows : next.rows = [recordOf e] := by rw [hcut.next_eq]
  have hlt : e.1 < nextIter' := hcut.nextIter_eq ▸ lt_append_singleton e.1 _
  refine
    { start := fun hinv => absurd hinv ?_
      table := fun _ => rfl
      rows := fun r hr => ?_
      below := fun r hr => ?_
      nodup := by simp [hrows]
      seen := fun _ => ⟨e.1, hS, hlt⟩ }
  · rw [hcut.next_eq]
    exact hcut.valid
  · rw [hrows, mem_singleton] at hr
    exact hr ▸ hrow
  · rw [hrows, mem_singleton] at hr
    exact hr ▸ hlt

end

/-! ### The documents -/

section

variable {st₀ : Store} {seq₀ : ℕ} {ticks : Ticks} {size : ℕ}

lemma Keeps.mono {next next' : Bytes} (h : Keeps st₀ seq₀ ticks next x) (hle : next ≤ next') :
    Keeps st₀ seq₀ ticks next' x :=
  { h with clear := fun k v hk hl => h.clear k v (hle.trans hk) hl }

/-- A scanned row is held by the store as it will be. -/
lemma Keeps.holds (h : Keeps st₀ seq₀ ticks nextIter x)
    (he : e ∈ scanRange x.db.store nextIter rowsEnd)
    (hk : (decodeInvertedKey e.1).tableId ≠ invalidId) :
    Holds x.db.ahead (decodeInvertedKey e.1).tableId (decodeInvertedKey e.1).keyword
      (recordOf e) := by
  obtain ⟨hl, hle, -⟩ := mem_scanRange.1 he
  exact ⟨h.clear _ _ hle hl,
    (h.canonical _ (.inl (GoMap.mem_iff_exists_lookup.2 ⟨_, hl⟩))).owned hk⟩

/-- The rounds of a call keep the documents of every keyword. -/
theorem Keeps.mergeRounds {x x' : Writer} {nextIter iter : Bytes}
    (h : Keeps st₀ seq₀ ticks nextIter x) (hcar : Carried (Holds x.db.ahead)
      (fun t w k => (decodeInvertedKey k).tableId = t ∧ (decodeInvertedKey k).keyword = w)
      lastTableId current nextIter)
    (hmerge : mergeRounds size ticks fuel x lastTableId current nextIter clock = some (x', iter)) :
    ∃ next, Keeps st₀ seq₀ ticks next x' := by
  induction fuel generalizing x lastTableId current nextIter clock with
  | zero => simp [InvertedIndex.mergeRounds] at hmerge
  | succ fuel ih =>
    rw [InvertedIndex.mergeRounds] at hmerge
    have hround := collect_ok size (fun _ _ _ h => h)
      (hcar.collected clock fun e he hk => ⟨h.holds he hk, rfl, rfl⟩)
    generalize collect size ⟨lastTableId, current, [], clock⟩
      (scanRange x.db.store nextIter rowsEnd) = r at hmerge hround
    cases r with
    | done pending last =>
      obtain ⟨hrows, hsub⟩ := hround
      dsimp only at hmerge
      obtain ⟨rfl, -⟩ := Prod.mk.inj (Option.some.inj hmerge)
      -- every row lies before the larger of the two ends
      refine ⟨max nextIter rowsEnd, ?_⟩
      have hsubg : (pending ++ if last.rows.length > 0 then [last] else []).Sublist
          (pending ++ [last]) := (Sublist.refl _).append (by split <;> simp)
      have hsub' : (groupRows (pending ++ if last.rows.length > 0 then [last] else [])).Sublist
          (current.rows ++ (scanRange x.db.store nextIter rowsEnd).map recordOf) :=
        (hsubg.flatMap _).trans hsub
      refine ((h.mono (le_max_left _ _)).rewriteAll (fun g hg => hrows g (hsubg.subset hg))
        (fun r hr => ?_) ((hsub'.map _).nodup (hcar.nodup_keys (Sublist.refl _)))).1
      rcases mem_append.1 (hsub'.subset hr) with hr | hr
      · exact (hcar.below r hr).trans_le (le_max_left _ _)
      · obtain ⟨e, he, rfl⟩ := mem_map.1 hr
        exact (mem_scanRange.1 he).2.2.trans_le (le_max_right _ _)
    | cut pending next nextIter' clock' =>
      obtain ⟨pre, e, post, hcut⟩ := hround
      obtain ⟨hnodup, hlt, hle, he, -⟩ := CutAt.spec hcar hcut
      rw [groupRows_append, groupRows_singleton] at hnodup hlt
      rw [map_append] at hnodup
      obtain ⟨hkeeps, hlookup⟩ := @Keeps.rewriteAll _ _ _ _ size _ pending (h.mono hle)
        (fun g hg => hcut.rows g (mem_append_left _ hg))
        (fun r hr => hlt r (mem_append_left _ hr)) (nodup_append.1 hnodup).1
      dsimp only at hmerge
      cases hclock : clock'.isTimeout with
      | mk timeout clock'' =>
        rw [hclock] at hmerge
        cases timeout with
        | true =>
          obtain ⟨rfl, -⟩ := Prod.mk.inj (Option.some.inj hmerge)
          exact ⟨nextIter', hkeeps⟩
        | false =>
          refine ih hkeeps (hcut.carried ?_ ?_) hmerge
          · have hmem : recordOf e ∈ next.rows := by simp [hcut.next_eq]
            obtain ⟨hl, hown⟩ := hcut.rows next (by simp) _ hmem
            refine ⟨hlookup _ _ (fun hin => ?_) hl, hown⟩
            exact (nodup_append.1 hnodup).2.2 _ hin _ (mem_map_of_mem hmem) rfl
          · rw [hcut.next_eq]
            exact ⟨rfl, rfl⟩

end

/-! ### The number of rounds -/

def isPut : Op Bytes Bytes → Bool
  | .put _ _ => true
  | .delete _ => false

/-- The rows still to be scanned from `next` on, and the rows that are buffered. -/
def load (d : Db Bytes Bytes) (next : Bytes) : ℕ :=
  (scanRange d.store next rowsEnd).length + d.ops.countP isPut

lemma length_scanWhere (st : Store) (p : Bytes → Bool) :
    (scanWhere st p).length = st.entries.countP fun e => p e.1 := by
  rw [scanWhere, (StableSort.perm_sortBy _ _).length_eq, ← countP_eq_length_filter,
    countP_map]
  rfl

lemma length_scanWhere_apply (st : Store) (p : Bytes → Bool) (op : Op Bytes Bytes) :
    (scanWhere (op.apply st) p).length ≤ (scanWhere st p).length + [op].countP isPut := by
  simp only [length_scanWhere]
  cases op with
  | put k v =>
    have hle := (kerase_sublist k st.entries).countP_le (p := fun e => p e.1)
    rw [Op.apply, AList.entries_insert, countP_cons]
    simp only [countP_cons, isPut, countP_nil, if_true]
    split <;> omega
  | delete k => exact (kerase_sublist k st.entries).countP_le

lemma length_scanWhere_applyAll (st : Store) (p : Bytes → Bool) (ops : List (Op Bytes Bytes)) :
    (scanWhere (applyAll st ops) p).length ≤ (scanWhere st p).length + ops.countP isPut := by
  induction ops generalizing st with
  | nil => simp [applyAll]
  | cons op ops ih =>
    have h₁ := ih (op.apply st)
    have h₂ := length_scanWhere_apply st p op
    rw [show op :: ops = [op] ++ ops from rfl, countP_append]
    rw [applyAll, foldl_append, foldl_cons, foldl_nil]
    exact h₁.trans (by omega)

lemma load_add (d : Db Bytes Bytes) (op : Op Bytes Bytes) (next : Bytes) :
    load (d.add false op) next ≤ load d next + [op].countP isPut := by
  obtain ⟨c, h, -⟩ | ⟨-, h⟩ | ⟨-, h⟩ := Db.add_cases false d op <;> rw [h] <;> unfold load
  · dsimp only
    rw [countP_append]
    omega
  · have := length_scanWhere_applyAll d.store (fun k => next ≤ k ∧ k < rowsEnd) (d.ops ++ [op])
    rw [countP_append] at this
    simp only [countP_nil, scanRange] at this ⊢
    omega
  · dsimp only
    rw [countP_append]
    omega

lemma load_delete (x : Writer) (keys : List Bytes) (next : Bytes) :
    load (x.delete keys).db next ≤ load x.db next := by
  unfold Writer.delete
  dsimp only
  generalize x.db = d
  induction keys generalizing d with
  | nil => exact le_rfl
  | cons k keys ih => exact (ih _).trans (load_add d (.delete k) next)

lemma load_rewriteChunk (x : Writer) (t : TableId) (w : Keyword) (chunk : List RecordRow)
    (tick : Int64) (next : Bytes) :
    load (x.rewriteChunk t w chunk tick).db next ≤ load x.db next + 1 :=
  (load_add _ _ next).trans (Nat.add_le_add_right (load_delete _ _ next) 1)

/-- A group of rows becomes fewer rows. -/
lemma load_rewriteRows (hsize : 1 ≤ size) (t : TableId) (w : Keyword) (tick : Int64) (next : Bytes)
    (fuel : ℕ) (x : Writer) (rows : List RecordRow) (left : Int64) :
    load (x.rewriteRows size t w tick fuel rows left).db next ≤ load x.db next + (rows.length - 1) := by
  induction fuel generalizing x rows left with
  | zero => exact Nat.le_add_right _ _
  | succ fuel ih =>
    rw [Writer.rewriteRows]
    split
    case isTrue => exact Nat.le_add_right _ _
    case isFalse hlen =>
      have hrows : rows ≠ [] := by
        rintro rfl
        simp at hlen
      have hne := takeChunk_ne_nil hsize hrows left
      have happ := congrArg length (takeChunk_append size [] rows left)
      generalize takeChunk size [] rows left = p at happ hne ⊢
      obtain ⟨chunk, rest, left'⟩ := p
      have hpos := length_pos_of_ne_nil hne
      have h₁ := ih (x.rewriteChunk t w chunk tick) rest left'
      have h₂ := load_rewriteChunk x t w chunk tick next
      simp only [length_append, nil_append] at happ hpos ⊢
      omega

lemma load_rewriteIndex (hsize : 1 ≤ size) (ticks : Ticks) (next : Bytes) (x : Writer) (g : Group) :
    load (x.rewriteIndex size ticks g).db next ≤ load x.db next + (g.rows.length - 1) := by
  unfold Writer.rewriteIndex
  split
  · exact Nat.le_add_right _ _
  · exact load_rewriteRows hsize _ _ _ _ _ _ _ _

lemma load_rewriteAll (hsize : 1 ≤ size) (ticks : Ticks) (next : Bytes) (x : Writer)
    (gs : List Group) :
    load (gs.foldl (Writer.rewriteIndex size ticks) x).db next
      ≤ load x.db next + (gs.map fun g => g.rows.length - 1).sum := by
  induction gs generalizing x with
  | nil => simp
  | cons g gs ih =>
    have h₁ := ih (x.rewriteIndex size ticks g)
    have h₂ := load_rewriteIndex hsize ticks next x g
    rw [foldl_cons, map_cons, sum_cons]
    omega

/-- Among 500 groups one loses a row. -/
lemma sum_length_sub_one_lt {gs : List Group} (hlen : 2 ≤ gs.length)
    (htail : ∀ g ∈ gs.tail, g.rows ≠ []) :
    (gs.map fun g => g.rows.length - 1).sum + 1 ≤ (groupRows gs).length := by
  have hle : ∀ gs : List Group,
      (gs.map fun g => g.rows.length - 1).sum ≤ (groupRows gs).length := by
    intro gs
    induction gs with
    | nil => simp
    | cons g gs ih =>
      simp only [groupRows, map_cons, sum_cons, flatMap_cons,
        length_append] at ih ⊢
      omega
  rcases gs with _ | ⟨g₁, _ | ⟨g₂, gs⟩⟩
  · simp at hlen
  · simp at hlen
  · have h₂ := length_pos_of_ne_nil (htail g₂ (by simp))
    have h := hle gs
    simp only [groupRows, map_cons, sum_cons, flatMap_cons,
      length_append] at h ⊢
    omega

/-- After a cut fewer rows are left to scan. -/
lemma CutAt.length_scanRange {P : TableId → Keyword → RecordRow → Prop}
    {S : TableId → Keyword → Bytes → Prop} {st : Store}
    (hcut : CutAt P S base (scanRange st nextIter rowsEnd) pending next nextIter' clock pre e post)
    :
    (scanRange st nextIter' rowsEnd).length + (pre.length + 1)
      ≤ (scanRange st nextIter rowsEnd).length := by
  have hlt : e.1 < nextIter' := hcut.nextIter_eq ▸ lt_append_singleton e.1 _
  have hsorted := pairwise_scanWhere st fun k => nextIter ≤ k ∧ k < rowsEnd
  rw [← scanRange, hcut.all_eq] at hsorted
  have hle : nextIter ≤ nextIter' := by
    have he : e ∈ scanRange st nextIter rowsEnd := by simp [hcut.all_eq]
    exact (mem_scanRange.1 he).2.1.trans hlt.le
  -- what is scanned later stands behind the cut row
  have hsub : scanRange st nextIter' rowsEnd ⊆ post := by
    intro e' he'
    obtain ⟨hl, hle', hend⟩ := mem_scanRange.1 he'
    have hmem : e' ∈ pre ++ e :: post := by
      rw [← hcut.all_eq]
      exact mem_scanRange.2 ⟨hl, hle.trans hle', hend⟩
    rcases mem_append.1 hmem with hmem | hmem
    · have := (pairwise_append.1 hsorted).2.2 e' hmem e (by simp)
      exact absurd (hle'.trans_lt this) hlt.not_gt
    · rcases mem_cons.1 hmem with rfl | hmem
      · exact absurd hle' hlt.not_ge
      · exact hmem
  have hnodup : (scanRange st nextIter' rowsEnd).Nodup :=
    (pairwise_scanWhere _ _).imp fun h heq => h.ne (congrArg Prod.fst heq)
  have := (hnodup.subperm hsub).length_le
  rw [hcut.all_eq]
  simp only [length_append, length_cons]
  omega

/-- The rounds of a call come to an end. -/
theorem isSome_mergeRounds (hsize : 1 ≤ size) {ticks : Ticks} (hcar : Carried (fun _ _ _ => True)
      (fun t w k => (decodeInvertedKey k).tableId = t ∧ (decodeInvertedKey k).keyword = w)
      lastTableId current nextIter) (hfuel : load x.db nextIter + current.rows.length < fuel) :
    (mergeRounds size ticks fuel x lastTableId current nextIter clock).isSome := by
  induction fuel generalizing x lastTableId current nextIter clock with
  | zero => omega
  | succ fuel ih =>
    rw [mergeRounds]
    have hround := collect_ok size (fun _ _ _ h => h)
      (hcar.collected clock fun e (_ : e ∈ scanRange x.db.store nextIter rowsEnd) _ =>
        ⟨trivial, rfl, rfl⟩)
    generalize collect size ⟨lastTableId, current, [], clock⟩
      (scanRange x.db.store nextIter rowsEnd) = r at hround
    cases r with
    | done pending last => rfl
    | cut pending next nextIter' clock' =>
      obtain ⟨pre, e, post, hcut⟩ := hround
      dsimp only
      cases hclock : clock'.isTimeout with
      | mk timeout clock'' =>
        cases timeout with
        | true => rfl
        | false =>
          have hlen : 500 ≤ pending.length := hcut.reason.resolve_left fun h => by
            simp [h, Clock.isTimeout] at hclock
          refine ih (hcut.carried trivial (by rw [hcut.next_eq]; exact ⟨rfl, rfl⟩)) ?_
          have hload := load_rewriteAll hsize ticks nextIter' x pending
          have hdrop := sum_length_sub_one_lt (by omega) hcut.tail
          have hscan := hcut.length_scanRange
          have hrows := hcut.sub.length_le
          have hnext : next.rows.length = 1 := by rw [hcut.next_eq]; rfl
          rw [groupRows_append, groupRows_singleton] at hrows
          simp only [length_append, length_map, length_cons, length_nil,
            hnext] at hrows
          simp only [load] at hload hfuel ⊢
          omega

/-! ### The keywords in the store -/

/-- The table and keyword of a row. -/
def groupOf (key : Bytes) : TableId × Keyword :=
  ((decodeInvertedKey key).tableId, (decodeInvertedKey key).keyword)

/-- The range in which the rows of a table and keyword lie. -/
def rangeOf (g : TableId × Keyword) : Bytes :=
  encodeInvertedKeyPrefix g.1 g.2

/-- A key is canonical, and if it is a row its table and keyword are in `G`. -/
def InGroups (G : Finset (TableId × Keyword)) (key : Bytes) : Prop :=
  Canonical key ∧ ((decodeInvertedKey key).tableId ≠ invalidId → groupOf key ∈ G)

section

variable {G : Finset (TableId × Keyword)} {x : Writer} {tick : Int64} {ticks : Ticks} {size : ℕ}
  {w : Keyword} {t : TableId}

/-- All keys of the store and of the buffered operations are in `G`. -/
def Writer.Within (G : Finset (TableId × Keyword)) (x : Writer) : Prop :=
  ∀ k, x.db.Mentions k → InGroups G k

lemma Writer.Within.rewriteChunk (h : x.Within G) {chunk : List RecordRow} (hg : (t, w) ∈ G)
    (hchunk : ∀ r ∈ chunk, InGroups G r.key) : (x.rewriteChunk t w chunk tick).Within G := by
  intro k hk
  rcases Db.mentions_add _ _ _ hk with hk | rfl
  · rcases Db.mentions_addAll _ hk with hk | ⟨op, hop, rfl⟩
    · exact h k hk
    · obtain ⟨k', hk', rfl⟩ := mem_map.1 hop
      obtain ⟨r, hr, rfl⟩ := mem_map.1 hk'
      exact hchunk r hr
  · refine ⟨canonical_encodeInvertedKey _ _ _ _ _, fun _ => ?_⟩
    rw [groupOf, Op.key, Writer.rowKey, decodeInvertedKey_encodeInvertedKey]
    exact hg

lemma Writer.Within.rewriteRows {rows : List RecordRow} {left : Int64} (h : x.Within G)
    (hg : rows ≠ [] → (t, w) ∈ G) (hrows : ∀ r ∈ rows, InGroups G r.key) :
    (x.rewriteRows size t w tick fuel rows left).Within G := by
  induction fuel generalizing x rows left with
  | zero => exact h
  | succ fuel ih =>
    rw [Writer.rewriteRows]
    split
    case isTrue => exact h
    case isFalse hlen =>
      have hmem : (t, w) ∈ G := hg (by rintro rfl; simp at hlen)
      have happ := takeChunk_append size [] rows left
      generalize takeChunk size [] rows left = p at happ ⊢
      obtain ⟨chunk, rest, left'⟩ := p
      dsimp only [nil_append] at happ ⊢
      subst happ
      exact ih (h.rewriteChunk hmem fun r hr => hrows r (by simp [hr])) (fun _ => hmem)
        fun r hr => hrows r (by simp [hr])

lemma Writer.Within.rewriteAll {gs : List Group} (h : x.Within G)
    (hgs : ∀ g ∈ gs, ∀ r ∈ g.rows, (g.tableId, g.keyword) ∈ G ∧ InGroups G r.key) :
    (gs.foldl (Writer.rewriteIndex size ticks) x).Within G := by
  induction gs generalizing x with
  | nil => exact h
  | cons g gs ih =>
    refine ih ?_ fun g' hg' => hgs g' (mem_cons_of_mem _ hg')
    have hrows := hgs g mem_cons_self
    unfold Writer.rewriteIndex
    split
    · exact h
    · refine h.rewriteRows (fun hne => ?_) fun r hr => (hrows r hr).2
      obtain ⟨r, hr⟩ := exists_mem_of_ne_nil _ hne
      exact (hrows r hr).1

/-- A row key in `G` that is not below `start`. -/
structure SeenKey (G : Finset (TableId × Keyword)) (start : Bytes) (t : TableId) (w : Keyword)
    (k : Bytes) : Prop where
  table : (decodeInvertedKey k).tableId = t
  keyword : (decodeInvertedKey k).keyword = w
  valid : t ≠ invalidId
  mem : (t, w) ∈ G
  canonical : Canonical k
  le : start ≤ k

lemma SeenKey.extends_rangeOf {start : Bytes} {k : Bytes} (h : SeenKey G start t w k) :
    rangeOf (t, w) <+: k := by
  have := h.canonical (h.table ▸ h.valid)
  rwa [h.table, h.keyword] at this

/-- A call that does not reach the end of the key space stops in front of a keyword behind another
one that it has seen. -/
theorem Writer.Within.mergeRounds {x' : Writer} {start nextIter iter : Bytes} (h : x.Within G)
    (hstart : start ≤ nextIter)
    (hcar : Carried (fun t w r => (t, w) ∈ G ∧ InGroups G r.key) (SeenKey G start)
      lastTableId current nextIter)
    (hmerge : mergeRounds size ticks fuel x lastTableId current nextIter clock = some (x', iter)) :
    x'.Within G ∧ (iter = [] ∨ ∃ t w k t' w' k', SeenKey G start t w k ∧ SeenKey G start t' w' k' ∧
      k < k' ∧ ¬ (t = t' ∧ w = w') ∧ iter = rangeOf (t', w')) := by
  induction fuel generalizing x lastTableId current nextIter clock with
  | zero => simp [InvertedIndex.mergeRounds] at hmerge
  | succ fuel ih =>
    rw [InvertedIndex.mergeRounds] at hmerge
    have hvalid : ∀ e ∈ scanRange x.db.store nextIter rowsEnd,
        (decodeInvertedKey e.1).tableId ≠ invalidId →
        (groupOf e.1 ∈ G ∧ InGroups G (recordOf e).key) ∧
          SeenKey G start (decodeInvertedKey e.1).tableId (decodeInvertedKey e.1).keyword e.1 := by
      intro e he hk
      obtain ⟨hl, hle, -⟩ := mem_scanRange.1 he
      have hin := h e.1 (.inl (GoMap.mem_iff_exists_lookup.2 ⟨_, hl⟩))
      exact ⟨⟨hin.2 hk, hin⟩, rfl, rfl, hk, hin.2 hk, hin.1, hstart.trans hle⟩
    have hround := collect_ok size (fun _ _ _ h => ⟨h.table, h.keyword⟩)
      (hcar.collected clock hvalid)
    generalize collect size ⟨lastTableId, current, [], clock⟩
      (scanRange x.db.store nextIter rowsEnd) = r at hmerge hround
    cases r with
    | done pending last =>
      dsimp only at hmerge
      cases hmerge
      refine ⟨h.rewriteAll fun g hg => hround.1 g ?_, .inl rfl⟩
      split at hg
      · exact hg
      · exact mem_append_left _ (by simpa using hg)
    | cut pending next nextIter' clock' =>
      obtain ⟨pre, e, post, hcut⟩ := hround
      obtain ⟨-, -, hle, he, -⟩ := CutAt.spec hcar hcut
      have hnext : SeenKey G start next.tableId next.keyword e.1 := by
        rw [hcut.next_eq]
        exact (hvalid e he hcut.valid).2
      have hwithin := @Writer.Within.rewriteAll G x ticks size pending h
        fun g hg => hcut.rows g (mem_append_left _ hg)
      dsimp only at hmerge
      cases hclock : clock'.isTimeout with
      | mk timeout clock'' =>
        rw [hclock] at hmerge
        cases timeout with
        | true =>
          cases hmerge
          obtain ⟨t, w, k, hk, hlt, hne⟩ := hcut.seen
          exact ⟨hwithin, .inr ⟨t, w, k, _, _, e.1, hk, hnext, hlt, hne, rfl⟩⟩
        | false =>
          refine ih hwithin (hstart.trans hle) (hcut.carried ?_ hnext) hmerge
          exact hcut.rows next (by simp) _ (by simp [hcut.next_eq])

/-! ### Calls that follow each other -/

/-- No two keywords of `G` have ranges inside each other: none continues another one of its table
with a delimiter. -/
def Apart (G : Finset (TableId × Keyword)) : Prop :=
  ∀ g ∈ G, ∀ g' ∈ G, rangeOf g <+: rangeOf g' → g = g'

instance (G : Finset (TableId × Keyword)) : Decidable (Apart G) :=
  inferInstanceAs (Decidable (∀ g ∈ G, ∀ g' ∈ G, _ → _))

open Classical in
/-- The keywords whose range reaches beyond `next`. -/
noncomputable def ahead (G : Finset (TableId × Keyword)) (next : Bytes) :
    Finset (TableId × Keyword) :=
  G.filter fun g => ∃ s, next ≤ rangeOf g ++ s

lemma mem_ahead {next : Bytes} : g ∈ ahead G next ↔ g ∈ G ∧ ∃ s, next ≤ rangeOf g ++ s := by
  classical
  simp [ahead]

lemma ahead_ssubset (hG : Apart G) {start : Bytes} {t t' : TableId} {w w' : Keyword} {k k' : Bytes}
    (hk : SeenKey G start t w k) (hk' : SeenKey G start t' w' k') (hlt : k < k')
    (hne : ¬ (t = t' ∧ w = w')) : ahead G (rangeOf (t', w')) ⊂ ahead G start := by
  obtain ⟨a, ha⟩ := hk.extends_rangeOf
  obtain ⟨b, hb⟩ := hk'.extends_rangeOf
  have hbelow : ∀ s, rangeOf (t, w) ++ s < rangeOf (t', w') := by
    refine Bytes.append_lt_of_not_prefix (fun hp => hne ?_) (fun hp => hne ?_)
      (a := a) (b := b) (by rwa [ha, hb])
    · exact Prod.mk.inj (hG _ hk.mem _ hk'.mem hp)
    · exact Prod.mk.inj (hG _ hk'.mem _ hk.mem hp).symm
  have hstart : start ≤ rangeOf (t', w') := hk.le.trans (ha ▸ (hbelow a).le)
  rw [Finset.ssubset_iff_of_subset]
  · refine ⟨(t, w), ?_, fun hmem => ?_⟩
    · exact mem_ahead.2 ⟨hk.mem, a, ha ▸ hk.le⟩
    · obtain ⟨s, hs⟩ := (mem_ahead.1 hmem).2
      exact absurd hs (hbelow s).not_ge
  · intro g hg
    obtain ⟨hgG, s, hs⟩ := mem_ahead.1 hg
    exact mem_ahead.2 ⟨hgG, s, hstart.trans hs⟩

end

/-- The rows of the store, as tables and keywords. -/
def groupsOf (st : Store) : Finset (TableId × Keyword) :=
  ((st.keys.filter fun k => (decodeInvertedKey k).tableId ≠ invalidId).map groupOf).toFinset

lemma mem_groupsOf {st : Store} :
    g ∈ groupsOf st ↔ ∃ k ∈ st, (decodeInvertedKey k).tableId ≠ invalidId ∧ groupOf k = g := by
  simp only [groupsOf, mem_toFinset, mem_map, mem_filter, decide_eq_true_eq,
    and_assoc, AList.mem_keys]

/-- A call of `mergeKeywordsIndex` always returns. -/
theorem exists_mergeBatch (hsize : 1 ≤ size) (ticks : Ticks) (st : Store) (keySeq : ℕ)
    (nextIter : Bytes) (clock : Clock) :
    ∃ x iter, mergeBatch size ticks st keySeq nextIter clock = some (x, iter) := by
  have hload : load (newWriter st keySeq).db nextIter ≤ st.entries.length := by
    simp only [load, newWriter, Db.newBatch, countP_nil, Nat.add_zero, scanRange,
      length_scanWhere]
    exact countP_le_length
  have hsome : (mergeBatch size ticks st keySeq nextIter clock).isSome :=
    isSome_mergeRounds hsize (Carried.initial nextIter) (Nat.lt_succ_of_le hload)
  obtain ⟨r, hr⟩ := Option.isSome_iff_exists.1 hsome
  exact ⟨r.1, r.2, hr⟩

/-- Calls one after the other, each starting where the one before has stopped; `env n` are the
ticks and the clock of call `n`. -/
def mergeCalls (size : ℕ) (env : ℕ → Ticks × Clock) (m : MergeState) : ℕ → Option MergeState
  | 0 => some m
  | n + 1 => (mergeCalls size env m n).bind (mergeKeywordsIndex size (env n).1 (env n).2)

end Haystack.InvertedIndex
