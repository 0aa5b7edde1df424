import Haystack.InvertedIndex.MergerRuns

/-!
# The contract of the keywords merger

One call always returns, and it keeps the answer for every table and keyword if the table ids of the
stored rows are written as the encoder writes them and no stored key is one that the call can
generate. Calls that follow each other reach the end of the key space if no stored keyword continues
another one with a delimiter. Without the last condition two calls can send each other back.
-/

namespace Haystack.InvertedIndex

open WriteBatch

variable {size : ℕ} {ticks : Ticks} {clock : Clock} {m m' : MergeState} {keySeq : ℕ}
  {G : Finset (TableId × Keyword)} {st : Store}

/-- The keys that the sequence counter can still produce with these ticks are not in the store. -/
def FreshKeys {ι : Type*} (st : Store) (keySeq : ℕ) (ticks : ι → Int64) : Prop :=
  ∀ t w c m n, keySeq < n → encodeInvertedKey t w c (ticks m) n ∉ st

lemma FreshKeys.newWriter {ι : Type*} {ticks : ι → Int64} (h : FreshKeys st keySeq ticks) (i : ι) :
    (newWriter st keySeq).Fresh (ticks i) :=
  fun t w c n hn hmem => h t w c i n hn (Db.mentions_newBatch.1 hmem)

lemma keeps_newWriter (hcanon : ∀ k ∈ st, Canonical k) (hfresh : FreshKeys st keySeq ticks)
    (next : Bytes) :
    Keeps st keySeq ticks next (newWriter st keySeq) where
  maxBatchSize := rfl
  docs _ _ _ := Iff.rfl
  toDescends := Writer.descends_newWriter st keySeq
  fresh := hfresh.newWriter
  canonical k hk := hcanon k (Db.mentions_newBatch.1 hk)
  clear _ _ _ hl := hl
  history := by simp [newWriter, Db.newBatch]

/-- The batch of a call, just before its last commit. -/
lemma keeps_mergeBatch {nextIter iter : Bytes} {x : Writer} (hcanon : ∀ k ∈ st, Canonical k)
    (hfresh : FreshKeys st keySeq ticks)
    (hmerge : mergeBatch size ticks st keySeq nextIter clock = some (x, iter)) :
    ∃ next, Keeps st keySeq ticks next x :=
  (keeps_newWriter hcanon hfresh nextIter).mergeRounds (Carried.initial nextIter) hmerge

lemma mergeKeywordsIndex_eq_some (h : mergeKeywordsIndex size ticks clock m = some m') :
    ∃ x, mergeBatch size ticks m.store m.keySeq m.nextIter clock = some (x, m'.nextIter) ∧
      m'.store = x.db.ahead := by
  obtain ⟨⟨x, iter⟩, hx, rfl⟩ := Option.map_eq_some_iff.1 h
  exact ⟨x, hx, rfl⟩

/-- One call: the keywords of the store stay within `G`, and the call finishes or leaves fewer
keywords ahead. -/
lemma mergeKeywordsIndex_progress (hG : Apart G) (hm : ∀ k ∈ m.store, InGroups G k)
    (h : mergeKeywordsIndex size ticks clock m = some m') :
    (∀ k ∈ m'.store, InGroups G k) ∧
      (m'.nextIter = [] ∨ ahead G m'.nextIter ⊂ ahead G m.nextIter) := by
  obtain ⟨x, hx, hstore⟩ := mergeKeywordsIndex_eq_some h
  have hwithin : (newWriter m.store m.keySeq).Within G := fun k hk =>
    hm k (Db.mentions_newBatch.1 hk)
  obtain ⟨hx', hiter⟩ := hwithin.mergeRounds le_rfl (Carried.initial m.nextIter) hx
  refine ⟨fun k hk => hx' k (Db.mentions_of_mem_ahead (hstore ▸ hk)), hiter.imp_right ?_⟩
  rintro ⟨t, w, k, t', w', k', hk, hk', hlt, hne, heq⟩
  rw [heq]
  exact ahead_ssubset hG hk hk' hlt hne

/-- Following `NextIter` leads to the end of the key space. -/
lemma exists_mergeCalls (hsize : 1 ≤ size) (hG : Apart G) (env : ℕ → Ticks × Clock)
    (hm : ∀ k ∈ m.store, InGroups G k) :
    ∃ n m', mergeCalls size env m n = some m' ∧ m'.nextIter = [] := by
  -- after `n` calls the end is reached or at least `n` keywords have been left behind
  have hcalls : ∀ n, ∃ m', (∀ k ∈ m'.store, InGroups G k) ∧
      ((∃ n, mergeCalls size env m n = some m' ∧ m'.nextIter = []) ∨
        mergeCalls size env m n = some m' ∧
          (ahead G m'.nextIter).card + n ≤ (ahead G m.nextIter).card) := by
    intro n
    induction n with
    | zero => exact ⟨m, hm, .inr ⟨rfl, le_rfl⟩⟩
    | succ n ih =>
      obtain ⟨m₁, hm₁, hend | ⟨hcalls, hcard⟩⟩ := ih
      · exact ⟨m₁, hm₁, .inl hend⟩
      · obtain ⟨x, iter, hx⟩ := exists_mergeBatch hsize (env n).1 m₁.store m₁.keySeq m₁.nextIter
          (env n).2
        have hcall : mergeKeywordsIndex size (env n).1 (env n).2 m₁
            = some ⟨(x.db.commit false).store, x.keySeq, iter⟩ := by
          rw [mergeKeywordsIndex, hx, Option.map_some]
        obtain ⟨hm₂, hiter⟩ := mergeKeywordsIndex_progress hG hm₁ hcall
        have hnext : mergeCalls size env m (n + 1)
            = some ⟨(x.db.commit false).store, x.keySeq, iter⟩ := by
          rw [mergeCalls, hcalls, Option.bind_some, hcall]
        refine ⟨_, hm₂, hiter.imp (fun hnil => ⟨n + 1, hnext, hnil⟩) fun hss => ⟨hnext, ?_⟩⟩
        have := Finset.card_lt_card hss
        omega
  obtain ⟨m', -, ⟨n, hn, hnil⟩ | ⟨-, hcard⟩⟩ := hcalls ((ahead G m.nextIter).card + 1)
  · exact ⟨n, m', hn, hnil⟩
  · omega

/-- **Keyword merging.** Every call of `mergeKeywordsIndex` returns, whatever the store holds and
wherever it starts and times out. If the stored table ids are canonical and no stored key can be
generated again, `GetDocs` answers as before for every table and keyword. And if moreover no stored
keyword continues another one of its table with a delimiter, the calls that follow `NextIter` from
the start of the key space end with an empty `NextIter`. -/
theorem mergeKeywordsIndex_contract (hsize : 1 ≤ size) :
    (∀ ticks clock m, ∃ m', mergeKeywordsIndex size ticks clock m = some m' ∧
      ((∀ k ∈ m.store, Canonical k) → FreshKeys m.store m.keySeq ticks →
        ∀ t w d, d ∈ getDocs m'.store t w ↔ d ∈ getDocs m.store t w)) ∧
    ∀ st keySeq env, (∀ k ∈ st, Canonical k) → Apart (groupsOf st) →
      ∃ n m', mergeCalls size env ⟨st, keySeq, [keyTypeRow]⟩ n = some m' ∧ m'.nextIter = [] := by
  constructor
  · intro ticks clock m
    obtain ⟨x, iter, hx⟩ := exists_mergeBatch hsize ticks m.store m.keySeq m.nextIter clock
    refine ⟨⟨(x.db.commit false).store, x.keySeq, iter⟩, by rw [mergeKeywordsIndex, hx]; rfl, ?_⟩
    intro hcanon hfresh t w d
    obtain ⟨next, hkeeps⟩ := keeps_mergeBatch hcanon hfresh hx
    exact hkeeps.docs t w d
  · intro st keySeq env hcanon hG
    refine exists_mergeCalls hsize hG env fun k hk => ⟨hcanon k hk, fun hvalid => ?_⟩
    exact mem_groupsOf.2 ⟨k, hk, hvalid, rfl⟩

/-- Two rows of one keyword, written by two flushes. -/
def twoRows : Store :=
  ((∅ : Store).insert (encodeInvertedKey 1 [97] 1 7 1) (encodeInvertedValueCounted [3]).1).insert
    (encodeInvertedKey 1 [97] 2 7 2) (encodeInvertedValueCounted [3, 4]).1

lemma mem_twoRows {k : Bytes} (hk : k ∈ twoRows) :
    ∃ c n, k = encodeInvertedKey 1 [97] c 7 n ∧ n ≤ 2 := by
  simp only [twoRows, AList.mem_insert, AList.notMem_empty, or_false] at hk
  rcases hk with rfl | rfl
  · exact ⟨2, 2, rfl, le_rfl⟩
  · exact ⟨1, 1, rfl, by decide⟩

lemma canonical_twoRows : ∀ k ∈ twoRows, Canonical k := by
  intro k hk
  obtain ⟨c, n, rfl, -⟩ := mem_twoRows hk
  exact canonical_encodeInvertedKey _ _ _ _ _

lemma freshKeys_twoRows {ι : Type*} (ticks : ι → Int64) : FreshKeys twoRows 2 ticks := by
  intro t w c _ n hn hmem
  obtain ⟨c', n', heq, hle⟩ := mem_twoRows hmem
  rw [seq_of_encodeInvertedKey_eq heq] at hn
  omega

theorem mergeKeywordsIndex_contract_twoRows :
    ∃ m', mergeKeywordsIndex 1000 (fun _ => 7) none ⟨twoRows, 2, [keyTypeRow]⟩ = some m' ∧
      (∀ d, d ∈ getDocs m'.store 1 [97] ↔ d ∈ getDocs twoRows 1 [97]) ∧
      ∃ n m', mergeCalls 1000 (fun _ => (fun _ => 7, some 0)) ⟨twoRows, 2, [keyTypeRow]⟩ n = some m' ∧
        m'.nextIter = [] := by
  have hcontract := mergeKeywordsIndex_contract (show 1 ≤ 1000 by decide)
  have hapart : Apart (groupsOf twoRows) := by decide +kernel
  obtain ⟨m', hm', hdocs⟩ := hcontract.1 (fun _ => 7) none ⟨twoRows, 2, [keyTypeRow]⟩
  exact ⟨m', hm', hdocs canonical_twoRows (freshKeys_twoRows _) 1 [97],
    hcontract.2 twoRows 2 (fun _ => (fun _ => 7, some 0)) canonical_twoRows hapart⟩

/-- Rows of the keywords `a` and `a|5`, which lie between each other. -/
def interleaved : Store :=
  (((∅ : Store).insert (encodeInvertedKey 1 [97] 1 7 1) (encodeInvertedValueCounted [3]).1).insert
    (encodeInvertedKey 1 [97, 124, 53] 3 7 2) (encodeInvertedValueCounted [4, 5, 6]).1).insert
    (encodeInvertedKey 1 [97] 9 7 3) (encodeInvertedValueCounted [7, 8]).1

/-- What a state is made of, in a form that can be compared by evaluation. -/
def MergeState.view (m : MergeState) : List (Bytes × Bytes) × ℕ × Bytes :=
  (m.store.entries.map fun e => (e.1, e.2), m.keySeq, m.nextIter)

lemma MergeState.eq_some_of_view {o : Option MergeState} {m : MergeState}
    (h : o.map MergeState.view = some m.view) : o = some m := by
  obtain ⟨⟨st, seq, iter⟩, rfl, hview⟩ := Option.map_eq_some_iff.1 h
  obtain ⟨st', seq', iter'⟩ := m
  simp only [MergeState.view, Prod.mk.injEq] at hview
  obtain ⟨hst, rfl, rfl⟩ := hview
  have hinj : Function.Injective fun e : Sigma fun _ : Bytes => Bytes => (e.1, e.2) :=
    fun e e' h => by simpa [Sigma.ext_iff] using h
  rw [AList.ext (List.map_injective_iff.2 hinj hst)]

/-- When the time is up at every check, each call collects one row and stops in front of the other
keyword, whose range starts before that row: the calls never end. A row under `+5` is taken for a row
of table 5 and its document appears there. -/
theorem merge_livelock :
    (∀ n, ∃ m', mergeCalls 1000 (fun _ => (fun _ => 7, some 0)) ⟨interleaved, 3, [keyTypeRow]⟩ n = some m' ∧
      m'.nextIter ≠ []) ∧
    ∃ st m', mergeKeywordsIndex 1000 (fun _ => 7) none ⟨st, 2, [keyTypeRow]⟩ = some m' ∧
      9 ∉ getDocs st 5 [97] ∧ 9 ∈ getDocs m'.store 5 [97] := by
  constructor
  · have hback : mergeKeywordsIndex 1000 (fun _ => 7) (some 0) ⟨interleaved, 3, rangeOf (1, [97, 124, 53])⟩
        = some ⟨interleaved, 3, rangeOf (1, [97])⟩ :=
      MergeState.eq_some_of_view (by decide +kernel)
    have hforth : mergeKeywordsIndex 1000 (fun _ => 7) (some 0) ⟨interleaved, 3, rangeOf (1, [97])⟩
        = some ⟨interleaved, 3, rangeOf (1, [97, 124, 53])⟩ :=
      MergeState.eq_some_of_view (by decide +kernel)
    have hfirst : mergeKeywordsIndex 1000 (fun _ => 7) (some 0) ⟨interleaved, 3, [keyTypeRow]⟩
        = some ⟨interleaved, 3, rangeOf (1, [97, 124, 53])⟩ :=
      MergeState.eq_some_of_view (by decide +kernel)
    have hcycle : ∀ n, ∃ iter, (iter = [keyTypeRow] ∨ iter = rangeOf (1, [97]) ∨
        iter = rangeOf (1, [97, 124, 53])) ∧ mergeCalls 1000 (fun _ => (fun _ => 7, some 0))
          ⟨interleaved, 3, [keyTypeRow]⟩ n = some ⟨interleaved, 3, iter⟩ := by
      intro n
      induction n with
      | zero => exact ⟨_, .inl rfl, rfl⟩
      | succ n ih =>
        obtain ⟨iter, rfl | rfl | rfl, hn⟩ := ih <;> rw [mergeCalls, hn, Option.bind_some]
        · exact ⟨_, .inr (.inr rfl), hfirst⟩
        · exact ⟨_, .inr (.inr rfl), hforth⟩
        · exact ⟨_, .inr (.inl rfl), hback⟩
    intro n
    obtain ⟨iter, hiter, hn⟩ := hcycle n
    refine ⟨_, hn, ?_⟩
    rcases hiter with rfl | rfl | rfl <;> simp [rangeOf, encodeInvertedKeyPrefix]
  · have hgain : (mergeKeywordsIndex 1000 (fun _ => 7) none ⟨((∅ : Store).insert
          (encodeInvertedKey 5 [97] 1 7 1) (encodeInvertedValueCounted [3]).1).insert
          (keyTypeRow :: 43 :: (encodeInvertedKey 5 [97] 1 7 2).tail)
          (encodeInvertedValueCounted [9]).1, 2, [keyTypeRow]⟩).any
        (fun m' => 9 ∈ getDocs m'.store 5 [97]) = true := by decide +kernel
    obtain ⟨m', hm', hdec⟩ := (Option.any_eq_true _ _).1 hgain
    exact ⟨_, m', hm', by decide +kernel, of_decide_eq_true hdec⟩

end Haystack.InvertedIndex
