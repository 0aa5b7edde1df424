import Haystack.InvertedIndex.Tables

/-!
# Accounting for the pending caches

The index counts the postings that it holds back, to flush a cache that grows too large. The two
counters are the numbers of documents in the caches after every operation, and below the bound if
there is one.
-/

namespace Haystack.InvertedIndex

open List

/-- The number of documents buffered in a cache. -/
def Cache.total (c : Cache) : ℕ := GoMap.total List.length c

variable {ks : List (TableId × Keyword)} (c : Cache)

namespace Cache

@[simp] lemma total_empty : (∅ : Cache).total = 0 := rfl

lemma length_docs (k : TableId × Keyword) :
    (c.docs k).length = ((c.lookup k).map List.length).getD 0 := by
  rw [docs]
  cases c.lookup k <;> rfl

/-- One document is added for every keyword, repeated ones included. -/
lemma total_buffer (t : TableId) (d : DocId) (keywords : List Keyword) :
    (c.buffer t d keywords).total = c.total + keywords.length := by
  induction keywords generalizing c with
  | nil => rfl
  | cons w keywords ih =>
    have hcons : c.buffer t d (w :: keywords) =
      buffer (c.insert (t, w) (c.docs (t, w) ++ [d])) t d keywords := rfl
    have hinsert := GoMap.total_insert length c (t, w) (c.docs (t, w) ++ [d])
    rw [← length_docs, length_append, length_singleton] at hinsert
    rw [hcons, ih, length_cons, total, total]
    omega

/-- What is taken out of a cache. -/
lemma total_eraseAll (hks : ks.Nodup) : (c.eraseAll ks).total + c.postings ks = c.total := by
  induction ks generalizing c with
  | nil => rfl
  | cons k ks ih =>
    obtain ⟨hk, hks⟩ := nodup_cons.1 hks
    have hcons : c.eraseAll (k :: ks) = eraseAll (c.erase k) ks := rfl
    have hothers : postings (c.erase k) ks = c.postings ks := by
      refine congrArg sum (map_congr_left fun k' hk' => ?_)
      have hne : k' ≠ k := fun h => hk (h ▸ hk')
      rw [docs, docs, GoMap.lookup_erase_if, if_neg hne]
    have herase := GoMap.total_erase length c k
    have hpostings : c.postings (k :: ks) = (c.docs k).length + c.postings ks := rfl
    have := ih (c.erase k) hks
    rw [← length_docs] at herase
    rw [hothers] at this
    rw [hcons, hpostings]
    rw [total] at this ⊢
    rw [total] at this
    rw [total]
    omega

/-- A cache of which every entry is taken out is empty. -/
lemma postings_of_perm (hks : ks.Perm c.keys) : c.postings ks = c.total := by
  have hnodup : ks.Nodup := hks.nodup_iff.2 c.nodupKeys
  have herase := total_eraseAll c hnodup
  have hempty : (c.eraseAll ks).total = 0 := by
    refine sum_eq_zero fun n hn => ?_
    obtain ⟨e, he, rfl⟩ := mem_map.1 hn
    have hlookup := GoMap.mem_entries_iff.1 he
    have hdocs : (c.eraseAll ks).docs e.1 = e.2 := by rw [docs, hlookup, Option.getD_some]
    rw [docs_eraseAll] at hdocs
    split at hdocs
    · rw [← hdocs, length_nil]
    case isFalse hnot =>
      have hnone : c.docs e.1 = [] := eq_nil_iff_forall_not_mem.2 fun d hd =>
        hnot (hks.mem_iff.2 (AList.mem_keys.1 (mem_of_mem_docs hd)))
      rw [← hdocs, hnone, length_nil]
  omega

end Cache

namespace Index

/-- The counters are right. -/
structure Accounted (ix : Index) : Prop where
  writes : ix.pendingWritePostings = ix.pendingWrites.total
  deletes : ix.pendingDeletePostings = ix.pendingDeletes.total

variable {o : Options} {ix ix' : Index} {due : List (TableId × Keyword)}

lemma Accounted.bufferWrites (h : ix.Accounted) (t : TableId) (d : DocId)
    (keywords : List Keyword) : (ix.bufferWrites t d keywords).Accounted := by
  refine ⟨?_, h.deletes⟩
  rw [Index.bufferWrites, h.writes, Cache.total_buffer]
  push_cast
  rfl

lemma Accounted.bufferDeletes (h : ix.Accounted) (t : TableId) (d : DocId)
    (keywords : List Keyword) : (ix.bufferDeletes t d keywords).Accounted := by
  refine ⟨h.writes, ?_⟩
  rw [Index.bufferDeletes, h.deletes, Cache.total_buffer]
  push_cast
  rfl

lemma Accounted.flushPendingWrites (h : ix.Accounted) (hdue : due.Nodup) (tick : Int64) :
    (ix.flushPendingWrites due tick).Accounted := by
  refine ⟨?_, h.deletes⟩
  have := ix.pendingWrites.total_eraseAll hdue
  rw [Index.flushPendingWrites, h.writes]
  dsimp only
  omega

lemma Accounted.flushPendingDeletes (h : ix.Accounted) {f : Flush} (hdue : f.due.Nodup) :
    (ix.flushPendingDeletes o f).Accounted := by
  refine ⟨h.writes, ?_⟩
  have := ix.pendingDeletes.total_eraseAll hdue
  rw [Index.flushPendingDeletes, h.deletes]
  dsimp only
  omega

lemma nodup_tableEntries (t : TableId) : (tableEntries c t).Nodup :=
  c.nodupKeys.filter _

lemma Accounted.clearPendingWrites (h : ix.Accounted) (t : TableId) :
    (ix.clearPendingWrites t).Accounted := by
  have hw := ix.pendingWrites.total_eraseAll (nodup_tableEntries ix.pendingWrites t)
  have hd := ix.pendingDeletes.total_eraseAll (nodup_tableEntries ix.pendingDeletes t)
  constructor
  · rw [Index.clearPendingWrites, h.writes]
    dsimp only
    omega
  · rw [Index.clearPendingWrites, h.deletes]
    dsimp only
    omega

/-- A flush of all entries brings the counter to 0. -/
lemma Accounted.flush_all_writes (h : ix.Accounted) (hdue : due.Perm ix.pendingWrites.keys)
    (tick : Int64) : (ix.flushPendingWrites due tick).pendingWritePostings = 0 := by
  rw [Index.flushPendingWrites, h.writes, ix.pendingWrites.postings_of_perm hdue, sub_self]

lemma Accounted.flush_all_deletes (h : ix.Accounted) {f : Flush}
    (hdue : f.due.Perm ix.pendingDeletes.keys) :
    (ix.flushPendingDeletes o f).pendingDeletePostings = 0 := by
  rw [Index.flushPendingDeletes, h.deletes, ix.pendingDeletes.postings_of_perm hdue, sub_self]

/-- The counters are below the bound. -/
def Bounded (o : Options) (ix : Index) : Prop :=
  0 < o.maxPendingPostings → ix.pendingWritePostings < o.maxPendingPostings ∧
    ix.pendingDeletePostings < o.maxPendingPostings

/-- A forced flush empties the caches that have reached the bound. -/
lemma Accounted.maybeFlushOnPressure (h : ix.Accounted) {f : Forced}
    (hix : ix.maybeFlushOnPressure o f = some ix') : ix'.Accounted ∧ Bounded o ix' := by
  unfold Index.maybeFlushOnPressure at hix
  split at hix
  case isTrue hbound =>
    cases hix
    refine ⟨h, fun hpos => ?_⟩
    rw [Options.pendingBound, if_pos hpos] at hbound
    omega
  case isFalse hbound =>
    have hpos : 0 < o.maxPendingPostings := by
      by_contra hnot
      rw [Options.pendingBound, if_neg hnot] at hbound
      exact hbound le_rfl
    rw [Options.pendingBound, if_pos hpos] at hix
    split at hix
    case isFalse => cases hix
    case isTrue hcomplete =>
      cases hix
      have hwrites : f.writes.Nodup := hcomplete.1.nodup_iff.2 ix.pendingWrites.nodupKeys
      have hdeletes : f.deletes.due.Nodup := hcomplete.2.nodup_iff.2 ix.pendingDeletes.nodupKeys
      obtain ⟨ix₁, hix₁, h₁, hlt, hdue⟩ : ∃ ix₁, (if ix.pendingWritePostings ≥ o.maxPendingPostings
          then ix.flushPendingWrites f.writes f.writesTick else ix) = ix₁ ∧ ix₁.Accounted ∧
          ix₁.pendingWritePostings < o.maxPendingPostings ∧
          ix₁.pendingDeletes = ix.pendingDeletes := by
        split
        · exact ⟨_, rfl, h.flushPendingWrites hwrites _,
            (h.flush_all_writes hcomplete.1 _).trans_lt hpos, rfl⟩
        case isFalse hsmall => exact ⟨_, rfl, h, not_le.1 hsmall, rfl⟩
      rw [hix₁]
      split
      · refine ⟨h₁.flushPendingDeletes hdeletes, fun _ => ⟨hlt, ?_⟩⟩
        rw [h₁.flush_all_deletes (hdue ▸ hcomplete.2)]
        exact hpos
      case isFalse hsmall => exact ⟨h₁, fun _ => ⟨hlt, not_le.1 hsmall⟩⟩

/-! ### Runs -/

/-- The operations on the caches. A periodic or closing flush takes some or all entries. -/
inductive CacheOp
  | updateIndex (t : TableId) (d : DocId) (keywords : List Keyword) (f : Forced)
  | removeIndex (t : TableId) (d : DocId) (keywords : List Keyword) (f : Forced)
  | flush (writes : List (TableId × Keyword)) (tick : Int64) (f : Flush)
  | clearPendingWrites (t : TableId)

def cacheStep (o : Options) (ix : Index) : CacheOp → Option Index
  | .updateIndex t d keywords f => ix.updateIndex o t d keywords f
  | .removeIndex t d keywords f => ix.removeIndex o t d keywords f
  | .flush writes tick f =>
    if writes.Nodup ∧ writes ⊆ ix.pendingWrites.keys ∧ f.due.Nodup ∧ f.due ⊆ ix.pendingDeletes.keys
    then some (ix.flush o writes tick f) else none
  | .clearPendingWrites t => some (ix.clearPendingWrites t)

/-- An index that has just been opened. -/
def opened (db : Store) (keySeq : ℕ) : Index :=
  ⟨db, ∅, ∅, 0, 0, keySeq⟩

lemma total_eraseAll_le (hks : ks.Nodup) : (c.eraseAll ks).total ≤ c.total := by
  have := c.total_eraseAll hks
  omega

/-- A cache that shrinks stays below the bound. -/
lemma Bounded.mono (h : Bounded o ix) (hix : ix.Accounted) (hix' : ix'.Accounted)
    (hwrites : ix'.pendingWrites.total ≤ ix.pendingWrites.total)
    (hdeletes : ix'.pendingDeletes.total ≤ ix.pendingDeletes.total) : Bounded o ix' := by
  intro hpos
  obtain ⟨hw, hd⟩ := h hpos
  rw [hix.writes] at hw
  rw [hix.deletes] at hd
  rw [hix'.writes, hix'.deletes]
  omega

lemma accounted_cacheStep {op : CacheOp} (h : ix.Accounted ∧ Bounded o ix)
    (hstep : cacheStep o ix op = some ix') : ix'.Accounted ∧ Bounded o ix' := by
  cases op with
  | updateIndex t d keywords f =>
    exact (h.1.bufferWrites t d keywords).maybeFlushOnPressure hstep
  | removeIndex t d keywords f =>
    exact (h.1.bufferDeletes t d keywords).maybeFlushOnPressure hstep
  | flush writes tick f =>
    rw [cacheStep] at hstep
    split at hstep
    case isFalse => cases hstep
    case isTrue hcond =>
      cases hstep
      have hix' := (h.1.flushPendingWrites hcond.1 tick).flushPendingDeletes (o := o) hcond.2.2.1
      exact ⟨hix', h.2.mono h.1 hix' (total_eraseAll_le _ hcond.1)
        (total_eraseAll_le _ hcond.2.2.1)⟩
  | clearPendingWrites t =>
    cases hstep
    have hix' := h.1.clearPendingWrites t
    exact ⟨hix', h.2.mono h.1 hix' (total_eraseAll_le _ (nodup_tableEntries _ t))
      (total_eraseAll_le _ (nodup_tableEntries _ t))⟩

/-- **Accounting.** After every run of operations on the caches the counters are the numbers of
documents buffered, and with a bound they are below it. -/
theorem pending_accounting (o : Options) (db : Store) (keySeq : ℕ) {ops : List CacheOp} {ix : Index}
    (hrun : StepSystem.Run (cacheStep o) (fun _ _ => True) (opened db keySeq) ops ix) :
    ix.pendingWritePostings = ix.pendingWrites.total ∧
      ix.pendingDeletePostings = ix.pendingDeletes.total ∧
      (0 < o.maxPendingPostings → ix.pendingWritePostings < o.maxPendingPostings ∧
        ix.pendingDeletePostings < o.maxPendingPostings) := by
  have hinit : (opened db keySeq).Accounted ∧ Bounded o (opened db keySeq) :=
    ⟨⟨rfl, rfl⟩, fun hpos => ⟨hpos, hpos⟩⟩
  obtain ⟨haccounted, hbounded⟩ := StepSystem.Run.invariant
    (I := fun _ ix => ix.Accounted ∧ Bounded o ix) hinit
    (fun h _ hstep => accounted_cacheStep h hstep) hrun
  exact ⟨haccounted.writes, haccounted.deletes, hbounded⟩

/-- Repeated keywords, a forced flush and a dropped table. -/
def droppedTable : List CacheOp :=
  [.updateIndex 1 5 [[97], [97]] (forcing [(1, [97])] []),
    .updateIndex 2 6 [[97], [98]] (forcing [(2, [98]), (1, [97]), (2, [97])] []),
    .removeIndex 2 6 [[98]] (forcing [] [(2, [98])]), .clearPendingWrites 2,
    .updateIndex 1 7 [[99]] (forcing [(1, [99])] [])]

theorem pending_accounting_droppedTable : ∃ ix,
    StepSystem.Run (cacheStep { maxPendingPostings := 4 }) (fun _ _ => True) (opened ∅ 0)
      droppedTable ix ∧ ix.pendingWritePostings = 1 ∧ ix.pendingWrites.total = 1 := by
  refine StepSystem.Run.exists_of_exec_imp (fun ix => ix.pendingWritePostings = 1)
    (by decide +kernel) fun ix hrun h => ⟨h, ?_⟩
  have haccounted := (pending_accounting _ _ _ hrun).1
  omega

end Index

end Haystack.InvertedIndex
