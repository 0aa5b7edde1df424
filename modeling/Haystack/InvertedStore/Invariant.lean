import Haystack.InvertedStore.SpillGate
import Haystack.InvertedStore.Posting
import Haystack.InvertedStore.SegmentChain

/-!
# The invariant of a store

For every table and document the versions held by the head, the detached head and the segments form
a chain in which each version withdraws what the next older one posted. The conditions under which
every step keeps this are collected in `StepOk`: documents and tables are in the range the keys can
tell apart, a head is not spilled past a detached head of its table that has a document in common,
and a tiered merge does not lift an old version of a document above a newer one.
-/

namespace Haystack.InvertedStore

open List

/-- The documents a head has a record of. -/
def HeadTable.docs (h : HeadTable) : List DocId :=
  h.fwd.keys ++ h.delForward.keys

lemma HeadTable.mem_docs_iff {h : HeadTable} {d : DocId} : d ∈ h.docs ↔ (h.rec? d).isSome := by
  simp only [docs, mem_append, ← AList.mem_keys, rec?, forwardLookup, Option.isSome_map]
  by_cases hdel : d ∈ h.delForward
  · simp [hdel]
  · simp [hdel, AList.lookup_isSome]

/-- What an operation needs: its document keeps its place in the key order and its table can be
recovered from the key. -/
def UpdateOp.Valid (op : UpdateOp) : Prop :=
  0 ≤ op.docid ∧ Fits op.tableId

instance (op : UpdateOp) : Decidable op.Valid :=
  inferInstanceAs (Decidable (_ ∧ _))

namespace Store

variable (s : Store)

/-- No detached head of the table has a document of the head. -/
def SpillOrdered (t : TableId) : Prop :=
  ∀ e ∈ s.spilling, e.tableId = t →
    ∀ d ∈ ((s.head.lookup t).getD newHeadTable).docs, d ∉ e.head.docs

instance (t : TableId) : Decidable (s.SpillOrdered t) :=
  -- document ids are finitely many, but their lists are what is searched
  letI : ∀ e : SpillEntry, Decidable (∀ d ∈ ((s.head.lookup t).getD newHeadTable).docs,
      d ∉ e.head.docs) := fun _ => List.decidableBAll _ _
  inferInstanceAs (Decidable (∀ e ∈ s.spilling, _ → _))

/-- No segment outside a merge is newer than an input with which it shares a document. -/
def MergeOrdered (ids : List ℕ) : Prop :=
  ∀ old ∈ s.segs, old.id ∈ ids → ∀ new ∈ s.segs, new.id ∉ ids → old.id < new.id → old.Apart new

instance (ids : List ℕ) : Decidable (s.MergeOrdered ids) :=
  inferInstanceAs (Decidable (∀ old ∈ s.segs, _ → ∀ new ∈ s.segs, _ → _ → _))

end Store

/-- The steps that keep the chains of all documents in order. -/
def StepOk (opts : Options) (s : Store) : Label → Prop
  | .apply ops => ∀ op ∈ ops, op.Valid
  | .spill t => s.SpillOrdered t
  | .selectTiered => ∀ x ∈ s.pickLowestQualifyingLevel opts, s.MergeOrdered x.2
  | .giveUpSpill _ _ => False
  | .createTable => False
  | _ => True

instance (opts : Options) (s : Store) : DecidablePred (StepOk opts s) := fun l => by
  cases l <;> dsimp only [StepOk] <;> infer_instance

/-- The steps of a run with a fixed catalog in which every write succeeds and all operations are in
range. -/
def Label.Plain : Label → Prop
  | .apply ops => ∀ op ∈ ops, op.Valid
  | .failInstall _ => False
  | .giveUpSpill _ _ => False
  | .createTable => False
  | .deleteTable _ => False
  | _ => True

instance : DecidablePred Label.Plain := fun l => by
  cases l <;> dsimp only [Label.Plain] <;> infer_instance

/-! ### The invariant -/

/-- The id and the document span of a segment, which the MANIFEST records as well. -/
def Segment.handle (seg : Segment) : ℕ × DocId × DocId :=
  (seg.id, seg.minDocid, seg.maxDocid)

def SegMeta.handle (sm : SegMeta) : ℕ × DocId × DocId :=
  (sm.id, sm.minDocid, sm.maxDocid)

namespace Store

/-- What holds between the selection of a merge and its install. -/
structure PlanOk (s : Store) (p : MergePlan) : Prop where
  segs : p.segs = s.segs.filter fun seg => seg.id ∈ p.inputIds
  inputs_lt : ∀ i ∈ p.inputIds, i < p.outId
  out_lt : p.outId < s.man.nextSegId
  out_new : ∀ seg ∈ s.segs, seg.id ≠ p.outId
  ordered : ∀ old ∈ s.segs, old.id ∈ p.inputIds → ∀ new ∈ s.segs, new.id ∉ p.inputIds →
    old.id < new.id → new.id < p.outId → old.Apart new
  covering : p.covering = true → (∀ seg ∈ s.segs, seg.id < p.outId → seg.id ∈ p.inputIds) ∧
    ∀ t ∈ s.man.tables, isTableLive p.liveTables (tid t) = true

structure SegsOk (s : Store) : Prop where
  wf : ∀ seg ∈ s.segs, seg.WF
  id_lt : ∀ seg ∈ s.segs, seg.id < s.man.nextSegId
  sorted : s.segs.Pairwise fun a b => a.id < b.id
  closed : Closed s.segs
  metas : (s.man.segments.map SegMeta.handle).Perm (s.segs.map Segment.handle)
  plan : ∀ p ∈ s.plan, PlanOk s p

structure HeadsOk (s : Store) : Prop where
  head : ∀ {t h}, s.head.lookup t = some h → Fits t ∧ h.WF
  spilling : ∀ e ∈ s.spilling, Fits e.tableId ∧ e.head.WF

/-- The versions of a document in the heads of its table. -/
def headChain (s : Store) (t : TableId) (d : DocId) : List (Version Keyword) :=
  (s.heads t).filterMap fun h => h.layer.version d

/-- All versions of a document, newest first. -/
def chain (s : Store) (t : TableId) (d : DocId) : List (Version Keyword) :=
  s.headChain t d ++ segChain s.segs (tid t) d

/-- The words of the newest version. -/
def words (s : Store) (t : TableId) (d : DocId) : Finset Keyword :=
  Version.top (s.chain t d)

structure Sound (opts : Options) (s : Store) : Prop where
  gate : Gate opts s
  heads : HeadsOk s
  segs : SegsOk s
  tables : ∀ t ∈ s.man.tables, Fits t
  chain : ∀ {t}, Fits t → ∀ d, Version.ChainOk (s.chain t d)

variable {opts : Options} {s s' : Store}

lemma layerChain_layers (s : Store) (t : TableId) (d : DocId) :
    Layer.chain (s.layers t) d = s.chain t d := by
  rw [layers, Layer.chain_append, chain, headChain, Layer.chain, filterMap_map]
  rfl

lemma HeadsOk.wf_of_mem (h : HeadsOk s) {t : TableId} {x : HeadTable} (hx : x ∈ s.heads t) :
    x.WF := by
  rw [heads, mem_append, Option.mem_toList, mem_map] at hx
  rcases hx with hx | ⟨e, he, rfl⟩
  · exact (h.head hx).2
  · exact (h.spilling e (mem_reverse.1 (mem_of_mem_filter he))).2

/-- What the readers rely on. -/
structure Readable (s : Store) : Prop where
  heads : HeadsOk s
  wf : ∀ seg ∈ s.segs, seg.WF
  closed : Closed s.segs
  chain : ∀ t ∈ s.man.tables, ∀ d, Version.ChainOk (s.chain t d)

lemma Sound.readable (h : Sound opts s) : Readable s :=
  ⟨h.heads, h.segs.wf, h.segs.closed, fun t ht d => h.chain (h.tables t ht) d⟩

lemma Readable.closed_layers (h : Readable s) (t : TableId) : ∀ l ∈ s.layers t, l.Closed := by
  intro l hl
  rcases mem_append.1 hl with hl | hl
  · obtain ⟨x, hx, rfl⟩ := mem_map.1 hl
    exact (h.heads.wf_of_mem hx).closed
  · obtain ⟨seg, hseg, rfl⟩ := mem_map.1 hl
    exact h.closed seg (mem_reverse.1 hseg) (tid t)

/-- A reader of a keyword finds the documents whose newest version carries it. -/
theorem Readable.topAct_eq_true_iff (h : Readable s) {t : TableId} (ht : t ∈ s.man.tables)
    (w : Keyword) (d : DocId) : s.topAct t w d = some true ↔ w ∈ s.words t d := by
  rw [topAct, Layer.findSome?_act (h.closed_layers t), layerChain_layers,
    (h.chain t ht d).topAct_eq_true_iff, words]

/-- A reader of a document finds the words of its newest version. -/
theorem topRec_getD (s : Store) (t : TableId) (d : DocId) :
    (s.topRec t d).getD ∅ = s.words t d := by
  rw [topRec, Layer.findSome?_rec, layerChain_layers, words]
  cases s.chain t d <;> rfl

lemma Readable.exists_forwardKeywords (h : Readable s) (t : TableId) (d : DocId) :
    ∃ words del, s.forwardKeywords t d = some (words, del) ∧ words.toFinset = s.words t d := by
  obtain ⟨words, del, hf, hw⟩ := Store.exists_forwardKeywords h.wf t d
  exact ⟨words, del, hf, hw.trans (topRec_getD s t d)⟩

/-- All heads have been spilled and installed. -/
def AllSpilled (s : Store) : Prop :=
  s.spilling = [] ∧ ∀ h ∈ GoMap.values s.head, h.isEmpty = true

instance (s : Store) : Decidable s.AllSpilled :=
  inferInstanceAs (Decidable (_ ∧ _))

lemma version_of_isEmpty {h : HeadTable} (hempty : h.isEmpty) (d : DocId) :
    h.layer.version d = none := by
  simp only [HeadTable.isEmpty, Bool.and_eq_true, List.isEmpty_iff] at hempty
  have hdocs : d ∉ h.docs := by simp [HeadTable.docs, hempty]
  rw [HeadTable.mem_docs_iff, Option.not_isSome_iff_eq_none] at hdocs
  exact Layer.version_eq_none.2 hdocs

/-- Without heads the chain of a document is that of the segments. -/
lemma AllSpilled.chain_eq (h : s.AllSpilled) (t : TableId) (d : DocId) :
    s.chain t d = segChain s.segs (tid t) d := by
  have hnil : s.headChain t d = [] := by
    refine filterMap_eq_nil_iff.2 fun x hx => ?_
    rw [heads, h.1] at hx
    simp only [reverse_nil, filter_nil, map_nil, append_nil,
      Option.mem_toList] at hx
    exact version_of_isEmpty (h.2 x (GoMap.mem_values_of_lookup hx)) d
  rw [chain, hnil, nil_append]

/-! ### Frames -/

lemma SegsOk.congr (h : SegsOk s) (hsegs : s'.segs = s.segs)
    (hmetas : s'.man.segments = s.man.segments) (hnext : s'.man.nextSegId = s.man.nextSegId)
    (hplan : s'.plan = s.plan) (htables : ∀ t ∈ s'.man.tables, t ∈ s.man.tables) : SegsOk s' where
  wf := hsegs ▸ h.wf
  id_lt := by rw [hsegs, hnext]; exact h.id_lt
  sorted := hsegs ▸ h.sorted
  closed := hsegs ▸ h.closed
  metas := by rw [hsegs, hmetas]; exact h.metas
  plan p hp := by
    have hp := h.plan p (hplan ▸ hp)
    refine ⟨hsegs ▸ hp.segs, hp.inputs_lt, hnext ▸ hp.out_lt, hsegs ▸ hp.out_new,
      hsegs ▸ hp.ordered, fun hc => ?_⟩
    exact ⟨hsegs ▸ (hp.covering hc).1, fun t ht => (hp.covering hc).2 t (htables t ht)⟩

/-- The state after a step that leaves all chains alone. -/
lemma Sound.of_chain_eq (h : Sound opts s) (hgate : Gate opts s') (hheads : HeadsOk s')
    (hsegs : SegsOk s') (htables : ∀ t ∈ s'.man.tables, t ∈ s.man.tables)
    (hchain : ∀ {t}, Fits t → ∀ d, s'.chain t d = s.chain t d) : Sound opts s' :=
  ⟨hgate, hheads, hsegs, fun t ht => h.tables t (htables t ht),
    fun ht d => hchain ht d ▸ h.chain ht d⟩

end Store

end Haystack.InvertedStore
