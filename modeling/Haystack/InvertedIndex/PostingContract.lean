import Haystack.InvertedIndex.Flush
import Haystack.Lib.StepSystem

/-!
# The posting contract

Runs of `Add`, `Update` and `Delete` with flushes and merges in between. A posting is wanted if it is
stored or its addition is pending, and its removal is not pending. Buffering, flushing and merging
keep this reading as long as no addition is buffered while the removal of the same posting is
pending, and no removal is flushed while the addition of the same posting stays in the cache. After
a flush of everything the rows then hold exactly the most recent keyword set of each document.
-/

namespace Haystack.InvertedIndex

open WriteBatch StepSystem

/-! ### Keys of the index -/

/-- The keys of the forward map and the row keys whose sequence number has been given out. -/
def Stamped (seq : ℕ) (k : Bytes) : Prop :=
  (∃ t d, k = encodeForwardKey t d) ∨
    ∃ t w c tick n, n ≤ seq ∧ k = encodeInvertedKey t w c tick n

lemma not_reads_encodeForwardKey (t : TableId) (d : DocId) (t' : TableId) (w : Keyword) :
    ¬ Reads t' w (encodeForwardKey t d) := by
  rintro ⟨⟨s, hs⟩, -⟩
  have := (List.cons.inj hs).1
  exact absurd this (by decide)

lemma Stamped.mono {seq seq' : ℕ} {k : Bytes} (h : Stamped seq k) (hle : seq ≤ seq') :
    Stamped seq' k := by
  refine h.imp_right ?_
  rintro ⟨t, w, c, tick, n, hn, rfl⟩
  exact ⟨t, w, c, tick, n, hn.trans hle, rfl⟩

lemma Stamped.canonical {seq : ℕ} {k : Bytes} (h : Stamped seq k) : Canonical k := by
  rcases h with ⟨t, d, rfl⟩ | ⟨t, w, c, tick, n, -, rfl⟩
  · intro hvalid
    exact absurd rfl hvalid
  · exact canonical_encodeInvertedKey _ _ _ _ _

lemma freshKeys_of_stamped {ι : Type*} {st : Store} {seq : ℕ} (h : ∀ k ∈ st, Stamped seq k)
    (ticks : ι → Int64) : FreshKeys st seq ticks := by
  intro t w c i n hn hmem
  rcases h _ hmem with ⟨t', d, heq⟩ | ⟨t', w', c', tick', n', hn', heq⟩
  · exact not_reads_encodeForwardKey t' d t w (heq ▸ reads_encodeInvertedKey.2 ⟨rfl, rfl⟩)
  · rw [seq_of_encodeInvertedKey_eq heq] at hn
    omega

section

variable {st : Store} {k v : Bytes} {t : TableId} {w : Keyword} {d : DocId}

/-- An entry that is no row does not matter for the documents. -/
lemma getDocs_congr {st' : Store}
    (h : ∀ k, Reads t w k → st'.lookup k = st.lookup k) :
    d ∈ getDocs st' t w ↔ d ∈ getDocs st t w := by
  simp only [mem_getDocs]
  constructor
  · rintro ⟨k, v, hl, hr, hd⟩
    exact ⟨k, v, h k hr ▸ hl, hr, hd⟩
  · rintro ⟨k, v, hl, hr, hd⟩
    exact ⟨k, v, (h k hr).trans hl, hr, hd⟩

end

/-! ### What the index stands for -/

/-- The index stands for the postings `W` and the forward map `F`. -/
structure Tracks (ix : Index) (W : TableId → Keyword → DocId → Prop)
    (F : TableId → DocId → Option (List Keyword)) : Prop where
  stamped : ∀ k ∈ ix.db, Stamped ix.keySeq k
  named : ∀ t, ix.pendingDeletes.docs (t, []) = []
  wanted : ∀ t w d, W t w d ↔ (d ∈ getDocs ix.db t w ∨ d ∈ ix.pendingWrites.docs (t, w)) ∧
    d ∉ ix.pendingDeletes.docs (t, w)
  forward : ∀ t d, ix.readForward t d = F t d

/-- No document has both an addition and a removal pending for the keyword. -/
def Index.Unclashed (ix : Index) (k : TableId × Keyword) : Prop :=
  ∀ d ∈ ix.pendingDeletes.docs k, d ∉ ix.pendingWrites.docs k

instance (ix : Index) (k : TableId × Keyword) : Decidable (ix.Unclashed k) :=
  List.decidableBAll (fun d => d ∉ ix.pendingWrites.docs k) (ix.pendingDeletes.docs k)

section

variable {o : Options} {ix ix' : Index} {W : TableId → Keyword → DocId → Prop}
  {F : TableId → DocId → Option (List Keyword)} {keywords : List Keyword} {t : TableId} {d : DocId}

/-- The keys after a batch. -/
lemma stamped_of_descends (h : ∀ k ∈ ix.db, Stamped ix.keySeq k) {x : Writer}
    (hx : x.Descends ix.db ix.keySeq) : ∀ k ∈ x.db.ahead, Stamped x.keySeq k := by
  intro k hk
  rcases hx.origin k (Db.mentions_of_mem_ahead hk) with hk | hk
  · exact (h k hk).mono hx.seq
  · exact .inr hk

lemma readForward_of_descends {x : Writer} (hx : x.Descends ix.db ix.keySeq)
    (hdb : ix'.db = x.db.ahead) (t : TableId) (d : DocId) :
    ix'.readForward t d = ix.readForward t d := by
  rw [Index.readForward, hdb, hx.others _ fun t' w => not_reads_encodeForwardKey t d t' w]
  rfl

/-- Additions that are flushed stay wanted. -/
lemma Tracks.flushPendingWrites (h : Tracks ix W F) (due : List (TableId × Keyword))
    (tick : Int64) : Tracks (ix.flushPendingWrites due tick) W F := by
  have hfresh := (freshKeys_of_stamped h.stamped (fun _ : Unit => tick)).newWriter ()
  have hx : (ix.writesBatch due tick).Descends ix.db ix.keySeq :=
    (Writer.descends_newWriter ix.db ix.keySeq).writeAll
  refine
    { stamped := stamped_of_descends h.stamped hx
      named := h.named
      wanted := fun t w d => ?_
      forward := fun t d => (readForward_of_descends hx rfl t d).trans (h.forward t d) }
  have hdocs : d ∈ getDocs (ix.flushPendingWrites due tick).db t w ↔
      d ∈ getDocs ix.db t w ∨ (t, w) ∈ due ∧ d ∈ ix.pendingWrites.docs (t, w) :=
    mem_getDocs_writeAll hfresh
  rw [h.wanted, hdocs, Index.flushPendingWrites]
  dsimp only
  rw [Cache.docs_eraseAll]
  by_cases hdue : (t, w) ∈ due <;> simp [hdue]

/-- Removals may be flushed if no addition of the same posting stays behind. -/
lemma Tracks.flushPendingDeletes (h : Tracks ix W F) {f : Flush} (hnodup : f.due.Nodup)
    (hclash : ∀ k ∈ f.due, ix.Unclashed k) : Tracks (ix.flushPendingDeletes o f) W F := by
  have hready := ready_newWriter (freshKeys_of_stamped h.stamped f.tick) f.due
  have hx : (ix.deletesBatch o f).Descends ix.db ix.keySeq :=
    (Writer.descends_newWriter ix.db ix.keySeq).removeAll hready hnodup
  refine
    { stamped := stamped_of_descends h.stamped hx
      named := fun t => ?_
      wanted := fun t w d => ?_
      forward := fun t d => (readForward_of_descends hx rfl t d).trans (h.forward t d) }
  · rw [Index.flushPendingDeletes]
    dsimp only
    rw [Cache.docs_eraseAll, h.named, ite_self]
  · have hdocs : d ∈ getDocs (ix.flushPendingDeletes o f).db t w ↔ d ∈ getDocs ix.db t w ∧
        ¬ ((t, w) ∈ f.due ∧ w ≠ [] ∧ d ∈ ix.pendingDeletes.docs (t, w)) :=
      mem_getDocs_removeAll hready o.one_le_rowSize hnodup
    rw [h.wanted, hdocs, Index.flushPendingDeletes]
    dsimp only
    rw [Cache.docs_eraseAll]
    by_cases hdue : (t, w) ∈ f.due
    · by_cases hd : d ∈ ix.pendingDeletes.docs (t, w)
      · have hw : w ≠ [] := by
          rintro rfl
          rw [h.named] at hd
          simp at hd
        simp [hdue, hd, hw, hclash _ hdue d hd]
      · simp [hdue, hd]
    · simp [hdue]

/-- A forced flush of the removals alone meets no pending addition of the same posting. -/
def Index.PressureOk (o : Options) (ix : Index) : Prop :=
  0 < o.pendingBound → ix.pendingWritePostings < o.pendingBound →
    o.pendingBound ≤ ix.pendingDeletePostings → ∀ k ∈ ix.pendingDeletes.keys, ix.Unclashed k

instance (o : Options) (ix : Index) : Decidable (ix.PressureOk o) :=
  inferInstanceAs (Decidable (_ → _ → _ → _))

lemma Tracks.maybeFlushOnPressure (h : Tracks ix W F) {f : Index.Forced} (hok : ix.PressureOk o)
    (hf : ix.maybeFlushOnPressure o f = some ix') : Tracks ix' W F := by
  unfold Index.maybeFlushOnPressure at hf
  split at hf
  case isTrue => exact Option.some.inj hf ▸ h
  case isFalse hbound =>
    split at hf
    case isFalse => simp at hf
    case isTrue hcomplete =>
      obtain ⟨hwrites, hdeletes⟩ := hcomplete
      have hnodup : f.deletes.due.Nodup := hdeletes.nodup_iff.2 ix.pendingDeletes.keys_nodup
      dsimp only at hf
      cases hf
      by_cases hw : ix.pendingWritePostings ≥ o.pendingBound
      · rw [if_pos hw]
        have hflushed := h.flushPendingWrites f.writes f.writesTick
        split
        · -- the additions are all gone
          refine hflushed.flushPendingDeletes hnodup fun k _ d _ hd => ?_
          rw [Index.flushPendingWrites] at hd
          dsimp only at hd
          rw [Cache.docs_eraseAll] at hd
          split at hd
          · simp at hd
          case isFalse hk =>
            exact hk (hwrites.mem_iff.2 (AList.mem_keys.2 (Cache.mem_of_mem_docs hd)))
        · exact hflushed
      · rw [if_neg hw]
        split
        case isTrue hd =>
          exact h.flushPendingDeletes hnodup fun k hk =>
            hok (not_le.1 hbound) (not_le.1 hw) hd k (hdeletes.mem_iff.1 hk)
        case isFalse => exact h

/-! ### Buffering -/

lemma Tracks.bufferWrites (h : Tracks ix W F)
    (hok : ∀ w ∈ keywords, d ∉ ix.pendingDeletes.docs (t, w)) :
    Tracks (ix.bufferWrites t d keywords)
      (fun t' w d' => W t' w d' ∨ t' = t ∧ d' = d ∧ w ∈ keywords) F := by
  refine { h with wanted := fun t' w d' => ?_ }
  rw [Index.bufferWrites]
  dsimp only
  rw [Cache.mem_docs_buffer, h.wanted]
  by_cases hnew : t' = t ∧ d' = d ∧ w ∈ keywords
  · obtain ⟨rfl, rfl, hw⟩ := hnew
    simp [hw, hok w hw]
  · have hnew' : ¬ (d' = d ∧ t' = t ∧ w ∈ keywords) := fun h => hnew ⟨h.2.1, h.1, h.2.2⟩
    simp [hnew, hnew']

lemma Tracks.bufferDeletes (h : Tracks ix W F) (hne : [] ∉ keywords) :
    Tracks (ix.bufferDeletes t d keywords)
      (fun t' w d' => W t' w d' ∧ ¬ (t' = t ∧ d' = d ∧ w ∈ keywords)) F := by
  refine { h with named := fun t' => ?_, wanted := fun t' w d' => ?_ }
  · refine List.eq_nil_iff_forall_not_mem.2 fun d' hd' => ?_
    rcases Cache.mem_docs_buffer.1 hd' with hd' | ⟨-, -, hmem⟩
    · simp [h.named] at hd'
    · exact hne hmem
  · rw [Index.bufferDeletes]
    dsimp only
    rw [Cache.mem_docs_buffer, h.wanted]
    dsimp only
    tauto

/-! ### The forward map -/

/-- Change the forward map at one document. -/
def setForward (F : TableId → DocId → Option (List Keyword)) (t : TableId) (d : DocId)
    (ws : Option (List Keyword)) : TableId → DocId → Option (List Keyword) :=
  fun t' d' => if t' = t ∧ d' = d then ws else F t' d'

/-- Writing or deleting a forward entry leaves the rows as they are. -/
lemma Tracks.withForward (h : Tracks ix W F) {db : Store} {v : Option Bytes}
    (hkeys : ∀ k ∈ db, k = encodeForwardKey t d ∨ k ∈ ix.db)
    (hdb : ∀ k, db.lookup k = if k = encodeForwardKey t d then v else ix.db.lookup k) :
    Tracks { ix with db := db } W (setForward F t d (v.map decodeForwardValue)) := by
  refine
    { stamped := fun k hk => ?_
      named := h.named
      wanted := fun t' w d' => ?_
      forward := fun t' d' => ?_ }
  · rcases hkeys k hk with rfl | hk
    · exact .inl ⟨t, d, rfl⟩
    · exact h.stamped k hk
  · have hdocs : d' ∈ getDocs db t' w ↔ d' ∈ getDocs ix.db t' w := by
      refine getDocs_congr fun k hk => ?_
      rw [hdb, if_neg]
      rintro rfl
      exact not_reads_encodeForwardKey t d t' w hk
    rw [h.wanted, hdocs]
  · rw [setForward, ← h.forward, Index.readForward, Index.readForward, hdb]
    by_cases heq : t' = t ∧ d' = d
    · obtain ⟨rfl, rfl⟩ := heq
      simp
    · rw [if_neg heq, if_neg fun hkey => heq (encodeForwardKey_inj hkey)]

lemma Tracks.putForward (h : Tracks ix W F) (t : TableId) (d : DocId)
    (hok : ∀ w ∈ keywords, w ≠ [] ∧ bar ∉ w) :
    Tracks (ix.putForward t d keywords) W (setForward F t d (some keywords)) := by
  have hput : Tracks (ix.putForward t d keywords) W (setForward F t d
      ((some (encodeForwardValue keywords)).map decodeForwardValue)) :=
    h.withForward (fun _ hk => (AList.mem_insert _).1 hk) fun _ => GoMap.lookup_insert_if _ _ _ _
  rwa [Option.map_some, decodeForwardValue_encodeForwardValue hok] at hput

lemma Tracks.eraseForward (h : Tracks ix W F) (t : TableId) (d : DocId) :
    Tracks (ix.eraseForward t d) W (setForward F t d none) :=
  h.withForward (v := none) (fun _ hk => .inr (AList.mem_erase.1 hk).2)
    fun _ => GoMap.lookup_erase_if _ _ _

/-- A merge keeps what the index stands for. -/
lemma Tracks.merge (h : Tracks ix W F) {ticks : Ticks} {clock : Clock} {nextIter : Bytes}
    {m : MergeState} {size : ℕ}
    (hm : mergeKeywordsIndex size ticks clock ⟨ix.db, ix.keySeq, nextIter⟩ = some m) :
    Tracks { ix with db := m.store, keySeq := m.keySeq } W F := by
  obtain ⟨⟨x, iter⟩, hx, rfl⟩ := Option.map_eq_some_iff.1 hm
  obtain ⟨next, hkeeps⟩ := keeps_mergeBatch (fun k hk => (h.stamped k hk).canonical)
    (freshKeys_of_stamped h.stamped ticks) hx
  refine
    { stamped := stamped_of_descends h.stamped hkeeps.toDescends
      named := h.named
      wanted := fun t w d => ?_
      forward := fun t d =>
        (readForward_of_descends hkeeps.toDescends rfl t d).trans (h.forward t d) }
  have hdocs : d ∈ getDocs (x.db.commit false).store t w ↔ d ∈ getDocs ix.db t w :=
    hkeeps.docs t w d
  rw [h.wanted, hdocs]

end

/-! ### Runs -/

/-- The tasks of the worker. Every operation carries how the flushes that it may force walk the
caches; a periodic flush says which entries are due; a merge may start anywhere. -/
inductive Op
  | add (t : TableId) (d : DocId) (keywords : List Keyword) (f : Index.Forced)
  | update (t : TableId) (d : DocId) (keywords : List Keyword) (f f' : Index.Forced)
  | delete (t : TableId) (d : DocId) (f : Index.Forced)
  | flush (writes : List (TableId × Keyword)) (tick : Int64) (f : Flush)
  | merge (ticks : Ticks) (clock : Clock) (nextIter : Bytes)

namespace Op

/-- The keyword set that an operation gives to a document. -/
def sets (t : TableId) (d : DocId) : Op → Option (List Keyword)
  | add t' d' keywords _ => if t = t' ∧ d = d' then some keywords else none
  | update t' d' keywords _ _ => if t = t' ∧ d = d' then some keywords else none
  | delete t' d' _ => if t = t' ∧ d = d' then some [] else none
  | flush _ _ _ | merge _ _ _ => none

end Op

/-- The most recent keyword set of a document. -/
def latest (ops : List Op) (t : TableId) (d : DocId) : List Keyword :=
  (ops.reverse.findSome? (Op.sets t d)).getD []

lemma latest_append (ops : List Op) (op : Op) (t : TableId) (d : DocId) :
    latest (ops ++ [op]) t d = (op.sets t d).getD (latest ops t d) := by
  rw [latest, List.reverse_append, List.reverse_singleton, List.singleton_append,
    List.findSome?_cons]
  cases op.sets t d <;> rfl

namespace Index

def empty : Index :=
  ⟨∅, ∅, ∅, 0, 0, 0⟩

/-- One task. A periodic flush walks some entries of each cache. -/
def step (o : Options) (ix : Index) : Op → Option Index
  | .add t d keywords f => ix.add o t d keywords f
  | .update t d keywords f f' => ix.update o t d keywords f f'
  | .delete t d f => ix.delete o t d f
  | .flush writes tick f =>
    if writes.Nodup ∧ writes ⊆ ix.pendingWrites.keys ∧ f.due.Nodup ∧ f.due ⊆ ix.pendingDeletes.keys
    then some (ix.flush o writes tick f) else none
  | .merge ticks clock nextIter =>
    (mergeKeywordsIndex o.rowSize ticks clock ⟨ix.db, ix.keySeq, nextIter⟩).map fun m =>
      { ix with db := m.store, keySeq := m.keySeq }

/-- Keywords are not empty and do not contain the delimiter. -/
def Plain (keywords : List Keyword) : Prop :=
  ∀ w ∈ keywords, w ≠ [] ∧ bar ∉ w

/-- How the operations are used: keywords are plain, and `Add` is for documents that are not in the
forward map. -/
def Proper (ix : Index) : Op → Prop
  | .add t d keywords _ => ix.readForward t d = none ∧ Plain keywords
  | .update _ _ keywords _ _ => Plain keywords
  | .delete _ _ _ | .flush _ _ _ | .merge _ _ _ => True

/-- Buffering additions: no removal of one of the postings is pending. -/
def AddOk (o : Options) (ix : Index) (t : TableId) (d : DocId) (keywords : List Keyword) : Prop :=
  (∀ w ∈ keywords, d ∉ ix.pendingDeletes.docs (t, w)) ∧ (ix.bufferWrites t d keywords).PressureOk o

/-- Buffering removals. -/
def RemoveOk (o : Options) (ix : Index) (t : TableId) (d : DocId) (keywords : List Keyword) : Prop :=
  (ix.bufferDeletes t d keywords).PressureOk o

def DeleteOk (o : Options) (ix : Index) (t : TableId) (d : DocId) : Prop :=
  ∀ old ∈ ix.readForward t d, old ≠ [] → ix.RemoveOk o t d old

/-- The condition under which an operation keeps the two caches consistent with each other. -/
def Ordered (o : Options) (ix : Index) : Op → Prop
  | .add t d keywords _ => keywords ≠ [] → ix.AddOk o t d keywords
  | .update t d keywords f _ =>
    (keywords = [] → ix.DeleteOk o t d) ∧
      (keywords ≠ [] → (ix.readForward t d = none → ix.AddOk o t d keywords) ∧
        ∀ old ∈ ix.readForward t d, ix.RemoveOk o t d (removedWords old keywords) ∧
          ∀ ix' ∈ ix.removeIndex o t d (removedWords old keywords) f,
            newWords old keywords ≠ [] → ix'.AddOk o t d (newWords old keywords))
  | .delete t d _ => ix.DeleteOk o t d
  | .flush writes _ f => ∀ k ∈ f.due, k ∉ writes → ix.Unclashed k
  | .merge _ _ _ => True

lemma Plain.nil : Plain [] := by simp [Plain]

lemma Plain.letter {b : UInt8} (hb : b ≠ 124) : Plain [[b]] := by
  simpa [Plain, bar] using hb.symm

instance (keywords : List Keyword) : Decidable (Plain keywords) :=
  inferInstanceAs (Decidable (∀ w ∈ keywords, _))

instance (ix : Index) : DecidablePred ix.Proper := fun op => by
  cases op <;> dsimp only [Proper] <;> infer_instance

instance (o : Options) (ix : Index) (t : TableId) (d : DocId) (keywords : List Keyword) :
    Decidable (ix.AddOk o t d keywords) :=
  inferInstanceAs (Decidable (_ ∧ _))

instance (o : Options) (ix : Index) (t : TableId) (d : DocId) (keywords : List Keyword) :
    Decidable (ix.RemoveOk o t d keywords) :=
  inferInstanceAs (Decidable (Index.PressureOk _ _))

instance (o : Options) (ix : Index) (t : TableId) (d : DocId) : Decidable (ix.DeleteOk o t d) :=
  inferInstanceAs (Decidable (∀ old ∈ ix.readForward t d, _))

instance (o : Options) (ix : Index) : DecidablePred (ix.Ordered o)
  | .add _ _ _ _ => inferInstanceAs (Decidable (_ → _))
  | .update _ _ _ _ _ => inferInstanceAs (Decidable (_ ∧ _))
  | .delete t d _ => inferInstanceAs (Decidable (ix.DeleteOk o t d))
  | .flush _ _ f => inferInstanceAs (Decidable (∀ k ∈ f.due, _))
  | .merge _ _ _ => .isTrue trivial

end Index

variable {writes : List (TableId × Keyword)}

section

variable {o : Options} {ix ix' : Index} {L : TableId → DocId → List Keyword} {t : TableId} {d : DocId}
  {keywords : List Keyword} {f f' : Index.Forced}

/-- The index stands for the keyword sets `L` of the documents. -/
structure Stands (ix : Index) (L : TableId → DocId → List Keyword) : Prop where
  tracks : Tracks ix (fun t w d => w ∈ L t d) fun t d => if L t d = [] then none else some (L t d)
  plain : ∀ t d, Index.Plain (L t d)

/-- Give a document another keyword set. -/
def setWords (L : TableId → DocId → List Keyword) (t : TableId) (d : DocId)
    (keywords : List Keyword) : TableId → DocId → List Keyword :=
  fun t' d' => if t' = t ∧ d' = d then keywords else L t' d'

lemma Tracks.congr {W W' : TableId → Keyword → DocId → Prop}
    {F F' : TableId → DocId → Option (List Keyword)} (h : Tracks ix W F)
    (hW : ∀ t w d, W' t w d ↔ W t w d) (hF : ∀ t d, F' t d = F t d) : Tracks ix W' F' :=
  { h with
    wanted := fun t w d => (hW t w d).trans (h.wanted t w d)
    forward := fun t d => (h.forward t d).trans (hF t d).symm }

/-- The forward map after a document got another keyword set. -/
lemma setForward_setWords (t' : TableId) (d' : DocId) :
    (if setWords L t d keywords t' d' = [] then none else some (setWords L t d keywords t' d')) =
      setForward (fun t d => if L t d = [] then none else some (L t d)) t d
        (if keywords = [] then none else some keywords) t' d' := by
  rw [setWords, setForward]
  by_cases h : t' = t ∧ d' = d <;> simp [h]

lemma plain_setWords (h : ∀ t d, Index.Plain (L t d)) (hk : Index.Plain keywords) (t' : TableId)
    (d' : DocId) : Index.Plain (setWords L t d keywords t' d') := by
  rw [setWords]
  split
  · exact hk
  · exact h t' d'

lemma Stands.readForward_eq_some (h : Stands ix L) {old : List Keyword}
    (hold : ix.readForward t d = some old) : L t d = old := by
  have := h.tracks.forward t d
  rw [hold] at this
  split at this
  · simp at this
  · exact (Option.some.inj this).symm

lemma Stands.readForward_eq_none (h : Stands ix L) (hold : ix.readForward t d = none) :
    L t d = [] := by
  have := h.tracks.forward t d
  rw [hold] at this
  by_contra hne
  simp [hne] at this

/-! ### What each operation does -/

lemma Stands.add (h : Stands ix L) (hnew : ix.readForward t d = none)
    (hplain : Index.Plain keywords) (hok : keywords ≠ [] → ix.AddOk o t d keywords)
    (hadd : ix.add o t d keywords f = some ix') : Stands ix' (setWords L t d keywords) := by
  have hL := h.readForward_eq_none hnew
  refine ⟨?_, plain_setWords h.plain hplain⟩
  unfold Index.add at hadd
  split at hadd
  case isTrue hnil =>
    cases hadd
    have hsame : setWords L t d keywords = L := by
      funext t' d'
      rw [setWords]
      split
      case isTrue heq => rw [heq.1, heq.2, hL, hnil]
      case isFalse => rfl
    rw [hsame]
    exact h.tracks
  case isFalse hne =>
    obtain ⟨ix₁, h₁, rfl⟩ := Option.map_eq_some_iff.1 hadd
    obtain ⟨hdel, hpress⟩ := hok hne
    refine (((h.tracks.bufferWrites hdel).maybeFlushOnPressure hpress h₁).putForward t d
      hplain).congr (fun t' w d' => ?_) fun t' d' => ?_
    · rw [setWords]
      by_cases heq : t' = t ∧ d' = d
      · simp [heq, hL]
      · rw [if_neg heq, or_iff_left fun hmem => heq ⟨hmem.1, hmem.2.1⟩]
    · rw [setForward_setWords, if_neg hne]

lemma Stands.delete (h : Stands ix L) (hok : ix.DeleteOk o t d)
    (hdel : ix.delete o t d f = some ix') : Stands ix' (setWords L t d []) := by
  refine ⟨?_, plain_setWords h.plain (by simp [Index.Plain])⟩
  unfold Index.delete at hdel
  obtain ⟨ix₁, h₁, rfl⟩ := Option.map_eq_some_iff.1 hdel
  have htracks : Tracks ix₁ (fun t' w d' => w ∈ L t' d' ∧ ¬ (t' = t ∧ d' = d ∧ w ∈ L t d))
      fun t d => if L t d = [] then none else some (L t d) := by
    cases hold : ix.readForward t d with
    | none =>
      rw [hold] at h₁
      cases h₁
      exact h.tracks.congr (by simp [h.readForward_eq_none hold]) fun _ _ => rfl
    | some old =>
      rw [hold] at h₁
      obtain rfl := h.readForward_eq_some hold
      dsimp only at h₁
      split at h₁
      case isTrue hnil =>
        cases h₁
        exact h.tracks.congr (by simp [hnil]) fun _ _ => rfl
      case isFalse hne =>
        have hempty : [] ∉ L t d := fun hmem => (h.plain t d [] hmem).1 rfl
        exact (h.tracks.bufferDeletes hempty).maybeFlushOnPressure (hok _ hold hne) h₁
  refine (htracks.eraseForward t d).congr (fun t' w d' => ?_) fun t' d' => ?_
  · rw [setWords]
    by_cases heq : t' = t ∧ d' = d
    · simp [heq]
    · rw [if_neg heq]
      exact (and_iff_left fun hmem => heq ⟨hmem.1, hmem.2.1⟩).symm
  · rw [setForward_setWords, if_pos rfl]

lemma Stands.update (h : Stands ix L) (hplain : Index.Plain keywords)
    (hok : ix.Ordered o (.update t d keywords f f'))
    (hupd : ix.update o t d keywords f f' = some ix') : Stands ix' (setWords L t d keywords) := by
  unfold Index.update at hupd
  dsimp only [Index.Ordered] at hok
  by_cases hnil : keywords = []
  · rw [if_pos hnil] at hupd
    rw [hnil]
    exact h.delete (hok.1 hnil) hupd
  rw [if_neg hnil] at hupd
  obtain ⟨hunknown, hknown⟩ := hok.2 hnil
  cases hold : ix.readForward t d with
  | none =>
    rw [hold] at hupd
    exact h.add hold hplain (fun _ => hunknown hold) hupd
  | some old =>
    rw [hold] at hupd
    obtain rfl := h.readForward_eq_some hold
    obtain ⟨hremove, hadd⟩ := hknown _ hold
    obtain ⟨ix₁, h₁, hupd⟩ := Option.bind_eq_some_iff.1 hupd
    obtain ⟨ix₂, h₂, rfl⟩ := Option.map_eq_some_iff.1 hupd
    have hempty : [] ∉ Index.removedWords (L t d) keywords := fun hmem =>
      (h.plain t d [] (List.mem_of_mem_filter hmem)).1 rfl
    have htracks₁ := (h.tracks.bufferDeletes hempty).maybeFlushOnPressure hremove h₁
    have htracks₂ : Tracks ix₂ (fun t' w d' => (w ∈ L t' d' ∧
        ¬ (t' = t ∧ d' = d ∧ w ∈ Index.removedWords (L t d) keywords)) ∨
        t' = t ∧ d' = d ∧ w ∈ Index.newWords (L t d) keywords)
        fun t d => if L t d = [] then none else some (L t d) := by
      split at h₂
      case isTrue hnone =>
        cases h₂
        exact htracks₁.congr (by simp [hnone]) fun _ _ => rfl
      case isFalse hne =>
        obtain ⟨hdel, hpress⟩ := hadd ix₁ h₁ hne
        exact (htracks₁.bufferWrites hdel).maybeFlushOnPressure hpress h₂
    refine ⟨(htracks₂.putForward t d hplain).congr (fun t' w d' => ?_) fun t' d' => ?_,
      plain_setWords h.plain hplain⟩
    · rw [setWords]
      by_cases heq : t' = t ∧ d' = d
      · obtain ⟨rfl, rfl⟩ := heq
        have hw : w ∈ keywords → w ≠ [] := fun hmem => (hplain w hmem).1
        by_cases hmem : w ∈ keywords <;> by_cases hmem' : w ∈ L t' d' <;>
          simp [Index.removedWords, Index.newWords, hmem, hmem', hw]
      · rw [if_neg heq]
        have hne : ∀ p : Prop, ¬ (t' = t ∧ d' = d ∧ p) := fun p hp => heq ⟨hp.1, hp.2.1⟩
        simp [hne]
    · rw [setForward_setWords, if_neg hnil]

/-- A removal is flushed together with the additions of its keyword, or meets none of them. -/
lemma Tracks.flush {W : TableId → Keyword → DocId → Prop}
    {F : TableId → DocId → Option (List Keyword)} (h : Tracks ix W F) {tick : Int64} {f : Flush}
    (hnodup : f.due.Nodup) (hclash : ∀ k ∈ f.due, k ∉ writes → ix.Unclashed k) :
    Tracks (ix.flush o writes tick f) W F := by
  refine (h.flushPendingWrites writes tick).flushPendingDeletes hnodup fun k hk d hd hd' => ?_
  rw [Index.flushPendingWrites] at hd'
  dsimp only at hd'
  rw [Cache.docs_eraseAll] at hd'
  split at hd'
  · simp at hd'
  case isFalse hnot => exact hclash k hk hnot d hd hd'

/-- Flushes and merges change no keyword set. -/
lemma Stands.maintain (h : Stands ix L) {op : Op} (hsets : ∀ t d, op.sets t d = none)
    (hok : ix.Ordered o op) (hstep : ix.step o op = some ix') : Stands ix' L := by
  cases op with
  | add t d keywords f => simpa [Op.sets] using hsets t d
  | update t d keywords f f' => simpa [Op.sets] using hsets t d
  | delete t d f => simpa [Op.sets] using hsets t d
  | flush writes tick f =>
    rw [Index.step] at hstep
    split at hstep
    case isFalse => simp at hstep
    case isTrue hwalk =>
      cases hstep
      exact ⟨h.tracks.flush hwalk.2.2.1 hok, h.plain⟩
  | merge ticks clock nextIter =>
    obtain ⟨m, hm, rfl⟩ := Option.map_eq_some_iff.1 hstep
    exact ⟨h.tracks.merge hm, h.plain⟩

theorem Stands.step {ops : List Op} {op : Op} (h : Stands ix (latest ops)) (hproper : ix.Proper op)
    (hok : ix.Ordered o op) (hstep : ix.step o op = some ix') :
    Stands ix' (latest (ops ++ [op])) := by
  have hsets : ∀ L, (∀ t d, (op.sets t d).getD (latest ops t d) = L t d) →
      latest (ops ++ [op]) = L := fun L hL =>
    funext fun t => funext fun d => (latest_append ops op t d).trans (hL t d)
  cases op with
  | add t d keywords f =>
    rw [hsets (setWords (latest ops) t d keywords) fun t' d' => by
      rw [setWords, Op.sets]; split <;> rfl]
    exact h.add hproper.1 hproper.2 hok hstep
  | update t d keywords f f' =>
    rw [hsets (setWords (latest ops) t d keywords) fun t' d' => by
      rw [setWords, Op.sets]; split <;> rfl]
    exact h.update hproper hok hstep
  | delete t d f =>
    rw [hsets (setWords (latest ops) t d []) fun t' d' => by
      rw [setWords, Op.sets]; split <;> rfl]
    exact h.delete hok hstep
  | flush writes tick f =>
    rw [hsets (latest ops) fun _ _ => rfl]
    exact h.maintain (fun _ _ => rfl) hok hstep
  | merge ticks clock nextIter =>
    rw [hsets (latest ops) fun _ _ => rfl]
    exact h.maintain (fun _ _ => rfl) hok hstep

lemma stands_empty : Stands Index.empty (latest []) where
  tracks :=
    { stamped := by simp [Index.empty]
      named := fun _ => rfl
      wanted := fun t w d => by
        simp [latest, Index.empty, mem_getDocs]
      forward := fun _ _ => rfl }
  plain _ _ := by simp [latest, Index.Plain]

end

/-- After a flush of everything the rows hold what the index stands for. -/
lemma Stands.mem_getDocs_flush {o : Options} {ix : Index} {L : TableId → DocId → List Keyword}
    (h : Stands ix L) (hwrites : writes.Perm ix.pendingWrites.keys) (tick : Int64) {f : Flush}
    (hf : f.due.Perm ix.pendingDeletes.keys) (t : TableId) (w : Keyword) (d : DocId) :
    d ∈ getDocs (ix.flush o writes tick f).db t w ↔ w ∈ L t d := by
  have hnodup : f.due.Nodup := hf.nodup_iff.2 ix.pendingDeletes.keys_nodup
  have hgone : ∀ k ∉ writes, ix.pendingWrites.docs k = [] := fun k hk =>
    List.eq_nil_iff_forall_not_mem.2 fun d hd =>
      hk (hwrites.mem_iff.2 (AList.mem_keys.2 (Cache.mem_of_mem_docs hd)))
  have hflushed : Tracks (ix.flush o writes tick f) _ _ :=
    h.tracks.flush hnodup fun k _ hk d _ hd => by simp [hgone k hk] at hd
  rw [hflushed.wanted t w d]
  -- nothing is pending any more
  have hno : (ix.flush o writes tick f).pendingWrites.docs (t, w) = [] := by
    change (ix.pendingWrites.eraseAll writes).docs (t, w) = []
    rw [Cache.docs_eraseAll]
    split
    · rfl
    case isFalse hk => exact hgone _ hk
  have hno' : (ix.flush o writes tick f).pendingDeletes.docs (t, w) = [] := by
    change (ix.pendingDeletes.eraseAll f.due).docs (t, w) = []
    rw [Cache.docs_eraseAll]
    split
    · rfl
    case isFalse hk =>
      exact List.eq_nil_iff_forall_not_mem.2 fun d hd =>
        hk (hf.mem_iff.2 (AList.mem_keys.2 (Cache.mem_of_mem_docs hd)))
  simp [hno, hno']

/-- **Postings.** After every run of proper operations, partial and forced flushes and merges from the
empty index, all of whose steps are `Ordered`, a closing flush leaves for every table and keyword
exactly the documents whose most recent keyword set contains the keyword. -/
theorem postings_run (o : Options) {ops : List Op} {ix : Index}
    (hrun : Run (Index.step o) (fun ix op => ix.Proper op ∧ ix.Ordered o op) Index.empty ops ix)
    {writes : List (TableId × Keyword)} (hwrites : writes.Perm ix.pendingWrites.keys)
    (tick : Int64) {f : Flush} (hf : f.due.Perm ix.pendingDeletes.keys) (t : TableId)
    (w : Keyword) (d : DocId) :
    d ∈ getDocs (ix.flush o writes tick f).db t w ↔ w ∈ latest ops t d := by
  have hstands : Stands ix (latest ops) := by
    refine Run.invariant (I := fun ops ix => Stands ix (latest ops)) stands_empty ?_ hrun
    exact fun h hok hstep => h.step hok.1 hok.2 hstep
  exact hstands.mem_getDocs_flush hwrites tick hf t w d

/-! ### Two runs -/

/-- Walk sets of documents in the order given. -/
def inOrder : DocOrder :=
  ⟨id, List.Perm.refl⟩

/-- The caches walked in the orders given, always at tick 7. -/
def forcing (writes deletes : List (TableId × Keyword)) : Index.Forced :=
  ⟨writes, 7, ⟨deletes, fun _ => 7, inOrder⟩⟩

/-- A document changes its keywords twice; the second addition forces a flush of the additions, the
removal is flushed before the keyword comes back, and a merge runs in between. -/
def orderedRun : List Op :=
  [.add 1 5 [[97], [98]] (forcing [(1, [97]), (1, [98])] []),
    .update 1 5 [[98], [99]] (forcing [(1, [97]), (1, [98])] [(1, [97])])
      (forcing [(1, [97]), (1, [98]), (1, [99])] [(1, [97])]),
    .flush [] 7 ⟨[(1, [97])], fun _ => 7, inOrder⟩,
    .merge (fun _ => 7) none [keyTypeRow],
    .update 1 5 [[97]] (forcing [] [(1, [98]), (1, [99])])
      (forcing [(1, [97])] [(1, [98]), (1, [99])])]

theorem postings_run_ordered : ∃ ix,
    Run (Index.step { maxPendingPostings := 3 }) (fun ix op => ix.Proper op ∧
      ix.Ordered { maxPendingPostings := 3 } op) Index.empty orderedRun ix ∧
    5 ∈ getDocs (ix.flush { maxPendingPostings := 3 } ix.pendingWrites.keys 7
      ⟨ix.pendingDeletes.keys, fun _ => 7, inOrder⟩).db 1 [97] ∧
    5 ∉ getDocs (ix.flush { maxPendingPostings := 3 } ix.pendingWrites.keys 7
      ⟨ix.pendingDeletes.keys, fun _ => 7, inOrder⟩).db 1 [98] := by
  refine Run.exists_of_exec_imp (fun _ => True) (by decide +kernel) fun ix hrun _ => ?_
  have hdocs := fun w => postings_run _ hrun (.refl _) 7
    (f := ⟨ix.pendingDeletes.keys, fun _ => 7, inOrder⟩) (.refl _) 1 w 5
  exact ⟨(hdocs [97]).2 (by decide), fun h' => absurd ((hdocs [98]).1 h') (by decide)⟩

/-- **A lost posting.** The keyword of a document is replaced and then restored before the removal is
flushed. The closing flush writes the addition first and removes it again. -/
theorem posting_restored_lost : ∃ ops ix,
    Run (Index.step {}) (fun ix op => ix.Proper op) Index.empty ops ix ∧ [97] ∈ latest ops 1 5 ∧
    5 ∉ getDocs (ix.flush {} ix.pendingWrites.keys 7
      ⟨ix.pendingDeletes.keys, fun _ => 7, inOrder⟩).db 1 [97] := by
  refine ⟨[.add 1 5 [[97]] (forcing [] []), .flush [(1, [97])] 7 ⟨[], fun _ => 7, inOrder⟩,
    .update 1 5 [[98]] (forcing [] []) (forcing [] []),
    .update 1 5 [[97]] (forcing [] []) (forcing [] [])], Run.exists_of_exec (by decide +kernel)⟩

end Haystack.InvertedIndex
