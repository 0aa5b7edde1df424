import Haystack.InvertedStore.Reopen

/-!
# Segments in every run

Documents may have any 64-bit id and tables any number, a store may be closed or crash at any time and
its MANIFEST may come from a version without document spans. Forward records with negative ids are
then not written in key order, but the inverted records still are, and the span of a segment covers
all its forward records: this is kept by every writer of segments and by both ways of opening them.
-/

namespace Haystack.InvertedStore

open List

/-- What the readers can rely on in every run. -/
structure Segment.Usable (seg : Segment) : Prop extends seg.Laid where
  spanned : seg.Spanned

/-! ### Encoded heads -/

section Encode

variable (opts : Options) (h : HeadTable) (tableId : TableId) (id : ℕ)

/-- The segment of any head. -/
theorem usable_encodeHeadToFile : (encodeHeadToFile opts h tableId id).Usable where
  blocks_ne := by
    have hw := wf_foldl_addEntry opts (h.fwdRec (tid tableId)) h.fwdRecs
      (wf_foldl_addEntry opts (h.invRec (tid tableId)) h.terms SegWriter.wf_new)
    exact (hw.finish id h.span).2.2
  sorted := by
    have hfwd : ∀ r' ∈ h.fwdRecs.map (h.fwdRec (tid tableId)), ¬IsInvKey r'.key := by
      intro r' hr'
      obtain ⟨⟨d, o⟩, -, rfl⟩ := mem_map.1 hr'
      cases o <;> exact not_isInvKey_forwardKey _ _
    rw [recs_encodeHeadToFile]
    refine pairwise_append.2 ⟨?_, ?_, fun r _ r' hr' hinv => absurd hinv (hfwd r' hr')⟩
    · refine pairwise_map.2 (HeadTable.pairwise_terms.imp fun hlt _ => ?_)
      exact invertedKey_lt_iff.2 hlt
    · refine pairwise_iff_forall_sublist.2 fun {r r'} hsub hinv => ?_
      exact absurd hinv (hfwd r' (hsub.subset (by simp)))
  spanned := by
    intro t d ords hr
    obtain ⟨o, hmem, -⟩ := (mem_recs_encodeHeadToFile_fwd opts tableId id).1 hr
    exact HeadTable.span_covers hmem

end Encode

/-! ### Merged segments -/

section Merge

variable (opts : Options) (covering : Bool) (tableLive : UInt32 → Bool)

/-- The key of a round. -/
def rowKey (row : List (Option Rec)) : Option Bytes :=
  (row.findSome? id).map Rec.key

/-- What the merge loop has written after the rounds `rows`. -/
structure MergeAcc.Usable (rows : List (List (Option Rec))) (acc : MergeAcc) : Prop where
  w : acc.w.WF
  keys : (acc.w.recs.map Rec.key).Sublist (rows.filterMap rowKey)
  span : ∀ {t d ords}, Rec.fwd t d ords ∈ acc.w.recs → acc.span.1 ≤ d ∧ d ≤ acc.span.2

variable {opts covering tableLive} {rows : List (List (Option Rec))} {acc acc' : MergeAcc}
  {row : List (Option Rec)} {segs : List Segment}

lemma MergeAcc.usable_init (segs : List Segment) : (MergeAcc.init segs).Usable [] :=
  ⟨SegWriter.wf_new, by simp [MergeAcc.init], by simp [MergeAcc.init]⟩

/-- A round that writes nothing. -/
lemma MergeAcc.Usable.skip (h : acc.Usable rows) (acc' : MergeAcc) (hw : acc'.w = acc.w)
    (hspan : acc'.span = acc.span) (row : List (Option Rec)) : acc'.Usable (rows ++ [row]) where
  w := hw ▸ h.w
  keys := by
    rw [hw, filterMap_append]
    exact h.keys.trans (sublist_append_left _ _)
  span := by rw [hw, hspan]; exact h.span

variable (opts) in
/-- A round that writes a record under its key. -/
lemma MergeAcc.Usable.add (h : acc.Usable rows) (r : Rec) (hr : rowKey row = some r.key)
    (hw : acc'.w = acc.w.addEntry opts r)
    (hspan : acc'.span.1 ≤ acc.span.1 ∧ acc.span.2 ≤ acc'.span.2 ∧
      ∀ {t d ords}, r = .fwd t d ords → acc'.span.1 ≤ d ∧ d ≤ acc'.span.2) :
    acc'.Usable (rows ++ [row]) where
  w := hw ▸ h.w.addEntry r
  keys := by
    rw [hw, SegWriter.recs_addEntry, filterMap_append, map_append]
    exact h.keys.append (by simp [hr])
  span := by
    intro t d ords hmem
    rw [hw, SegWriter.recs_addEntry, mem_append, mem_singleton] at hmem
    rcases hmem with hmem | heq
    · exact ⟨hspan.1.trans (h.span hmem).1, (h.span hmem).2.trans hspan.2.1⟩
    · exact hspan.2.2 heq.symm

lemma MergeAcc.Usable.mergeRow (h : acc.Usable rows)
    (hs : mergeRow opts covering tableLive acc row = some acc') : acc'.Usable (rows ++ [row]) := by
  unfold InvertedStore.mergeRow at hs
  split at hs
  case h_1 => exact Option.some.inj hs ▸ h.skip acc rfl rfl row
  case h_2 t kw adds dels hrow =>
    cases hs
    have hkey : rowKey row = some (invertedKey t kw) := by rw [rowKey, hrow]; rfl
    unfold mergeInv
    split
    case h_1 r hr =>
      obtain ⟨as, bs, rfl⟩ : ∃ as bs, r = .inv t kw as bs := by
        simp only [emitInv] at hr
        split at hr
        · obtain ⟨-, hr⟩ := Option.ite_none_right_eq_some.1 hr
          exact ⟨_, _, (Option.some.inj hr).symm⟩
        · exact ⟨_, _, (Option.some.inj hr).symm⟩
      exact h.add opts (.inv t kw as bs) hkey rfl ⟨le_rfl, le_rfl, by simp⟩
    case h_2 => exact h.skip { acc with remap := appendRemap row acc.remap none } rfl rfl row
  case h_3 t d ords hrow =>
    obtain ⟨o, -, rfl⟩ := Option.map_eq_some_iff.1 hs
    cases o with
    | none => exact h.skip acc rfl rfl row
    | some ords' =>
      have hkey : rowKey row = some (forwardKey t d) := by rw [rowKey, hrow]; rfl
      have hspan := MergeAcc.noteDocid_span
        ({ acc with w := acc.w.addEntry opts (.fwd t d (encodeForward ords')) }.noteTable t) d
      refine h.add opts (.fwd t d (encodeForward ords')) hkey rfl
        ⟨hspan.2.2.1, hspan.2.2.2, ?_⟩
      intro t' d' ords'' heq
      obtain ⟨-, rfl, -⟩ := Rec.fwd.inj heq
      exact ⟨hspan.1, hspan.2.1⟩

lemma MergeAcc.Usable.foldlM (hs : rows.foldlM (InvertedStore.mergeRow opts covering tableLive)
    (MergeAcc.init segs) = some acc) : acc.Usable rows :=
  StepSystem.foldlM_consumes (P := fun pre acc => acc.Usable pre) (MergeAcc.usable_init segs)
    (fun h hs => h.mergeRow hs) hs

/-- A record of the row carries its key. -/
lemma exists_mem_of_rowKey {k : Bytes} (h : rowKey row = some k) : ∃ r, some r ∈ row ∧ r.key = k := by
  obtain ⟨r, hr, rfl⟩ := Option.map_eq_some_iff.1 h
  obtain ⟨o, ho, heq⟩ := exists_of_findSome?_eq_some hr
  exact ⟨r, heq ▸ ho, rfl⟩

/-- The output of a merge and its MANIFEST entry. -/
theorem usable_mergeSegments (hsegs : ∀ seg ∈ segs, seg.Usable) {outId level : ℕ}
    {liveTables : Option (List TableId)} {res : MergeResult}
    (hres : mergeSegments opts segs outId level covering liveTables = some res) :
    res.seg.Usable ∧ res.seg.id = outId ∧ res.seg.handle = res.sm.handle := by
  obtain ⟨acc, hacc, rfl⟩ := Option.map_eq_some_iff.1 hres
  have h : acc.Usable (mergeRows segs) := MergeAcc.Usable.foldlM hacc
  obtain ⟨hrecs, -, hne⟩ := h.w.finish outId acc.span
  refine ⟨⟨⟨hne, ?_⟩, ?_⟩, rfl, rfl⟩
  · have hrows : (mergeRows segs).Pairwise fun row row' =>
        ∀ a, some a ∈ row → ∀ b, some b ∈ row' → IsInvKey b.key → a.key < b.key := by
      refine KWay.pairwise_rows_on _ fun rs hrs => ?_
      obtain ⟨seg, hseg, rfl⟩ := mem_map.1 hrs
      exact (hsegs seg hseg).sorted
    have hkeys : ((mergeRows segs).filterMap rowKey).Pairwise fun k k' => IsInvKey k' → k < k' := by
      refine pairwise_filterMap.2 (hrows.imp fun {row row'} hlt k hk k' hk' => ?_)
      obtain ⟨r, hr, rfl⟩ := exists_mem_of_rowKey hk
      obtain ⟨r', hr', rfl⟩ := exists_mem_of_rowKey hk'
      exact hlt r hr r' hr'
    rw [Segment.recs]
    change KWay.StrictOn Rec.key IsInvKey (acc.w.finish outId acc.span).blocks.flatten
    rw [hrecs]
    exact pairwise_map.1 (hkeys.sublist h.keys)
  · intro t d ords hr
    have hmem : Rec.fwd t d ords ∈ acc.w.recs := by
      rw [← hrecs]
      exact hr
    exact h.span hmem

end Merge

/-! ### Opening segments of an older version -/

/-- The documents of the forward records that a scan of all forward keys visits: the least and the
greatest. -/
def Segment.forwardRange (seg : Segment) : DocId × DocId :=
  ((seg.scanPrefix [ktForward] (Bytes.prefixUpper [ktForward])).filterMap Rec.fwd?).foldl
    (fun span x => (if x.1 < span.1 then x.1 else span.1, if span.2 < x.1 then x.1 else span.2))
    emptyDocidRange

def Segment.setRange (seg : Segment) (span : DocId × DocId) : Segment :=
  { seg with minDocid := span.1, maxDocid := span.2 }

def SegMeta.setRange (sm : SegMeta) (span : DocId × DocId) : SegMeta :=
  { sm with minDocid := span.1, maxDocid := span.2 }

/-- The ends of the fold cover the start and every document. -/
lemma foldl_range_covers (l : List (DocId × List ℕ)) (span : DocId × DocId) :
    let y := l.foldl (fun span x =>
      (if x.1 < span.1 then x.1 else span.1, if span.2 < x.1 then x.1 else span.2)) span
    y.1 ≤ span.1 ∧ span.2 ≤ y.2 ∧ ∀ x ∈ l, y.1 ≤ x.1 ∧ x.1 ≤ y.2 := by
  induction l generalizing span with
  | nil => simp
  | cons x l ih =>
    have hstep := ih (if x.1 < span.1 then x.1 else span.1, if span.2 < x.1 then x.1 else span.2)
    simp only [foldl_cons] at hstep ⊢
    obtain ⟨hmin, hmax, hall⟩ := hstep
    have hlo : (if x.1 < span.1 then x.1 else span.1) ≤ span.1 ∧
        (if x.1 < span.1 then x.1 else span.1) ≤ x.1 := by split <;> grind
    have hhi : span.2 ≤ (if span.2 < x.1 then x.1 else span.2) ∧
        x.1 ≤ (if span.2 < x.1 then x.1 else span.2) := by split <;> grind
    refine ⟨hmin.trans hlo.1, hhi.1.trans hmax, fun y hy => ?_⟩
    rcases mem_cons.1 hy with rfl | hy
    · exact ⟨hmin.trans hlo.2, hhi.2.trans hmax⟩
    · exact hall y hy

/-- The recomputed span covers all forward records. -/
lemma Segment.Laid.usable_setRange {seg : Segment} (h : seg.Laid) :
    (seg.setRange seg.forwardRange).Usable := by
  refine ⟨⟨h.blocks_ne, h.sorted⟩, fun {t d ords} hr => ?_⟩
  refine (foldl_range_covers _ emptyDocidRange).2.2 (d, ords) ?_
  rw [h.scanPrefix_fwd, mem_filterMap]
  refine ⟨.fwd t d ords, mem_filter.2 ⟨hr, ?_⟩, rfl⟩
  simp [Rec.key, forwardKey]

/-- A MANIFEST of a version before 3: it has no spans, which are read as zero. -/
def Manifest.withoutRanges (man : Manifest) : Manifest :=
  { man with segments := man.segments.map fun sm => sm.setRange (0, 0) }

namespace Store

variable (opts : Options)

/-- `upgradeSegmentRanges`: the span of every segment is recomputed and set on the segment and on the
MANIFEST entries with its id. -/
def upgradeSegmentRanges (s : Store) : Store :=
  { s with
    segs := s.segs.map fun seg => seg.setRange seg.forwardRange
    man := { s.man with
      segments := s.segs.foldl (fun sms seg =>
        sms.map fun sm => if sm.id = seg.id then sm.setRange seg.forwardRange else sm)
        s.man.segments } }

/-- `Open` on a MANIFEST of a version before 3. -/
def openLegacy (man : Manifest) (files : ℕ → Option SegFile) : Option Store :=
  (man.withoutRanges.segments.mapM (openSegment files)).bind fun segs =>
    let s := (opened man.withoutRanges segs ∅).upgradeSegmentRanges
    reclaimOrphanTables opts { s with liveByTable := s.recomputeLive }

/-! ### Runs -/

/-- What happens to a store: a task of its worker, a merge that is given up because its output could
not be written, or a close or crash followed by `Open`. The MANIFEST on disk may lack ids that were
reserved since it was written, and may come from a version before 3. -/
inductive Event
  | task (l : Label)
  | abandonMerge
  | reopen (legacy : Bool) (nextSegId : ℕ)

def onEvent (s : Store) : Event → Option Store
  | .task l => step opts s l
  | .abandonMerge => some { s with plan := none }
  | .reopen legacy nextSegId =>
    let man := { s.man with nextSegId := nextSegId }
    if ∀ sm ∈ man.segments, sm.id < nextSegId then
      if legacy then openLegacy opts man s.files else openStore opts man s.files
    else none

/-- The states that a store can reach from an empty one. -/
def Reachable (s : Store) : Prop :=
  ∃ tables next es, StepSystem.Run (onEvent opts) (fun _ _ => True) (empty tables next) es s

/-- What every reachable state satisfies: usable segments whose spans are those of the MANIFEST, and
fresh ids. -/
structure Consistent (s : Store) : Prop where
  usable : ∀ seg ∈ s.segs, seg.Usable
  handles : ∀ sm ∈ s.man.segments, ∀ seg ∈ s.segs, seg.id = sm.id → seg.handle = sm.handle
  seg_lt : ∀ seg ∈ s.segs, seg.id < s.man.nextSegId
  meta_lt : ∀ sm ∈ s.man.segments, sm.id < s.man.nextSegId
  plan_usable : ∀ p ∈ s.plan, ∀ seg ∈ p.segs, seg.Usable
  out_lt : ∀ p ∈ s.plan, p.outId < s.man.nextSegId
  out_new : ∀ p ∈ s.plan, (∀ seg ∈ s.segs, seg.id ≠ p.outId) ∧
    ∀ sm ∈ s.man.segments, sm.id ≠ p.outId

variable {opts} {s s' : Store}

namespace Consistent

lemma congr (h : Consistent s) (hsegs : s'.segs = s.segs)
    (hmetas : s'.man.segments = s.man.segments) (hnext : s'.man.nextSegId = s.man.nextSegId)
    (hplan : ∀ p ∈ s'.plan, p ∈ s.plan) : Consistent s' where
  usable := hsegs ▸ h.usable
  handles := by rw [hsegs, hmetas]; exact h.handles
  seg_lt := by rw [hsegs, hnext]; exact h.seg_lt
  meta_lt := by rw [hmetas, hnext]; exact h.meta_lt
  plan_usable p hp := h.plan_usable p (hplan p hp)
  out_lt p hp := hnext ▸ h.out_lt p (hplan p hp)
  out_new p hp := by rw [hsegs, hmetas]; exact h.out_new p (hplan p hp)

/-- The head `x` is sealed under the next id. -/
lemma adds (h : Consistent s) {x : HeadTable} {t : TableId} (hman : s'.man = s.recordSpill x t)
    (hsegs : s'.segs.Perm (s.segs ++ [encodeHeadToFile opts x t s.man.nextSegId]))
    (hplan : s'.plan = s.plan) : Consistent s' := by
  have hmem : ∀ {seg}, seg ∈ s'.segs →
      seg ∈ s.segs ∨ seg = encodeHeadToFile opts x t s.man.nextSegId := fun hseg => by
    simpa using hsegs.subset hseg
  have hmetas : ∀ {sm}, sm ∈ s'.man.segments →
      sm ∈ s.man.segments ∨ sm = spillSegMeta x s.man.nextSegId t := fun hsm => by
    simpa [hman, recordSpill] using hsm
  have hnext : s'.man.nextSegId = s.man.nextSegId + 1 := by rw [hman]; rfl
  refine ⟨fun seg hseg => ?_, fun sm hsm seg hseg hid => ?_, fun seg hseg => ?_, fun sm hsm => ?_,
    hplan ▸ h.plan_usable, fun p hp => ?_, fun p hp => ⟨fun seg hseg => ?_, fun sm hsm => ?_⟩⟩
  · rcases hmem hseg with hseg | rfl
    · exact h.usable seg hseg
    · exact usable_encodeHeadToFile opts x t _
  · rcases hmem hseg with hseg | rfl <;> rcases hmetas hsm with hsm | rfl
    · exact h.handles sm hsm seg hseg hid
    · exact absurd hid (h.seg_lt seg hseg).ne
    · exact absurd hid.symm (h.meta_lt sm hsm).ne
    · rfl
  · rw [hnext]
    rcases hmem hseg with hseg | rfl
    · exact (h.seg_lt seg hseg).trans (Nat.lt_succ_self _)
    · exact Nat.lt_succ_self _
  · rw [hnext]
    rcases hmetas hsm with hsm | rfl
    · exact (h.meta_lt sm hsm).trans (Nat.lt_succ_self _)
    · exact Nat.lt_succ_self _
  · rw [hnext]
    exact (h.out_lt p (hplan ▸ hp)).trans (Nat.lt_succ_self _)
  · rcases hmem hseg with hseg | rfl
    · exact (h.out_new p (hplan ▸ hp)).1 seg hseg
    · exact (h.out_lt p (hplan ▸ hp)).ne'
  · rcases hmetas hsm with hsm | rfl
    · exact (h.out_new p (hplan ▸ hp)).2 sm hsm
    · exact (h.out_lt p (hplan ▸ hp)).ne'

lemma reserve (h : Consistent s) (ids : List ℕ) (level : ℕ) (covering : Bool)
    (liveTables : Option (List TableId)) : Consistent (s.reserve ids level covering liveTables) where
  usable := h.usable
  handles := h.handles
  seg_lt seg hseg := (h.seg_lt seg hseg).trans (Nat.lt_succ_self _)
  meta_lt sm hsm := (h.meta_lt sm hsm).trans (Nat.lt_succ_self _)
  plan_usable p hp seg hseg := by
    cases hp
    have hmem := (StableSort.perm_sortBy Segment.id _).subset hseg
    exact h.usable seg (mem_of_mem_filter hmem)
  out_lt p hp := by
    cases hp
    exact Nat.lt_succ_self _
  out_new p hp := by
    cases hp
    exact ⟨fun seg hseg => (h.seg_lt seg hseg).ne, fun sm hsm => (h.meta_lt sm hsm).ne⟩

lemma installMerge (h : Consistent s) (hs : s.installMerge opts = some s') : Consistent s' := by
  obtain ⟨p, res, hp, hres, rfl⟩ := installMerge_cases hs
  obtain ⟨husable, hid, hhandle⟩ := usable_mergeSegments (h.plan_usable p hp) hres
  have hmem : ∀ {seg}, seg ∈ (s.swapMerged p.inputIds res).segs → seg ∈ s.segs ∨ seg = res.seg := by
    intro seg hseg
    have hseg := (StableSort.perm_sortBy Segment.id _).subset hseg
    rw [mem_append, mem_filter, mem_singleton] at hseg
    exact hseg.imp_left And.left
  have hmetas : ∀ {sm}, sm ∈ (s.swapMerged p.inputIds res).man.segments →
      sm ∈ s.man.segments ∨ sm = res.sm := by
    intro sm hsm
    simp only [swapMerged, mem_append, mem_filter, mem_singleton] at hsm
    exact hsm.imp_left And.left
  have hsmid : res.sm.id = p.outId := (congrArg Prod.fst hhandle).symm.trans hid
  refine ⟨fun seg hseg => ?_, fun sm hsm seg hseg heq => ?_, fun seg hseg => ?_, fun sm hsm => ?_,
    by simp [swapMerged], by simp [swapMerged], by simp [swapMerged]⟩
  · rcases hmem hseg with hseg | rfl
    exacts [h.usable seg hseg, husable]
  · rcases hmem hseg with hseg | rfl <;> rcases hmetas hsm with hsm | rfl
    · exact h.handles sm hsm seg hseg heq
    · exact absurd (heq.trans hsmid) ((h.out_new p hp).1 seg hseg)
    · exact absurd (heq.symm.trans hid) ((h.out_new p hp).2 sm hsm)
    · exact hhandle
  · rcases hmem hseg with hseg | rfl
    exacts [h.seg_lt seg hseg, hid ▸ h.out_lt p hp]
  · rcases hmetas hsm with hsm | rfl
    exacts [h.meta_lt sm hsm, hsmid ▸ h.out_lt p hp]

lemma applyOneOp (h : Consistent s) (op : UpdateOp) (old : List Keyword) :
    Consistent (s.applyOneOp opts op old) := by
  have hpost : Consistent (s.post op old) := h.congr rfl rfl rfl fun _ hp => hp
  unfold Store.applyOneOp
  obtain heq | heq | ⟨-, heq⟩ := relieve_cases opts (s.post op old) op.tableId <;> rw [heq]
  exacts [hpost, hpost.congr rfl rfl rfl fun _ hp => hp, hpost.congr rfl rfl rfl fun _ hp => hp]

lemma endSpill (h : Consistent s) {i : ℕ} {e : SpillEntry} {next : Option TableId}
    (hs : s.endSpill opts i e next = some s') : Consistent s' := by
  unfold Store.endSpill findOverCapHead at hs
  rw [if_neg (by simp)] at hs
  cases next with
  | none =>
    obtain ⟨-, hs⟩ := Option.ite_none_left_eq_some.1 hs
    exact Option.some.inj hs ▸ h.congr rfl rfl rfl fun _ hp => hp
  | some t =>
    obtain ⟨-, hs⟩ := Option.ite_none_right_eq_some.1 hs
    exact Option.some.inj hs ▸ h.congr rfl rfl rfl fun _ hp => hp

lemma step (h : Consistent s) {l : Label} (hs : InvertedStore.step opts s l = some s') :
    Consistent s' := by
  cases l with
  | apply ops => exact applyBatch_preserves (fun op old h => applyOneOp h op old) h hs
  | installSpill i next =>
    obtain ⟨e, n, -, -, hs⟩ := installSpill_cases hs
    have hpub : Consistent (s.publishSpill opts e) :=
      h.adds rfl (StableSort.perm_sortBy Segment.id _) rfl
    exact hpub.endSpill hs
  | failInstall i =>
    obtain ⟨e, n, -, -, rfl⟩ := failInstall_cases hs
    exact h.congr rfl rfl rfl fun _ hp => hp
  | giveUpSpill i next =>
    obtain ⟨e, n, -, -, hs⟩ := giveUpSpill_cases hs
    exact h.endSpill hs
  | spill t =>
    cases hs
    obtain heq | ⟨x, -, heq⟩ := spill_cases opts s t <;> rw [heq]
    exacts [h, h.adds rfl (.refl _) rfl]
  | selectTiered =>
    obtain ⟨-, l, ids, -, rfl⟩ := selectTiered_cases hs
    exact h.reserve _ _ _ _
  | selectCovering force dead =>
    obtain ⟨-, level, rfl⟩ := selectCovering_cases hs
    exact h.reserve _ _ _ _
  | installMerge => exact h.installMerge hs
  | createTable => exact Option.some.inj hs ▸ h.congr rfl rfl rfl fun _ hp => hp
  | deleteTable t => exact Option.some.inj hs ▸ h.congr rfl rfl rfl fun _ hp => hp
  | releaseGate => exact Option.some.inj hs ▸ h.congr rfl rfl rfl fun _ hp => hp

/-! #### Reopening -/

lemma reclaimOrphanTables (h : Consistent s) (hs : s.reclaimOrphanTables opts = some s') :
    Consistent s' := by
  unfold Store.reclaimOrphanTables at hs
  split at hs
  case isFalse => exact Option.some.inj hs ▸ h
  case isTrue =>
    unfold coveringMerge at hs
    split at hs
    case h_1 s₁ h₁ =>
      obtain ⟨-, level, rfl⟩ := selectCovering_cases h₁
      exact (h.reserve _ _ _ _).installMerge hs
    case h_2 => exact Option.some.inj hs ▸ h

/-- A segment that is opened from a file comes from a segment with that file. -/
lemma exists_of_openSegment {sm : SegMeta} {seg : Segment}
    (hs : openSegment s.files sm = some seg) :
    ∃ seg₀ ∈ s.segs, seg₀.id = sm.id ∧ seg = seg₀.file.load sm := by
  obtain ⟨x, hx, rfl⟩ := Option.map_eq_some_iff.1 hs
  obtain ⟨seg₀, hseg₀, rfl⟩ := Option.map_eq_some_iff.1 hx
  exact ⟨seg₀, KWay.mem_of_lookup hseg₀, KWay.key_of_lookup hseg₀, rfl⟩

lemma openStore (h : Consistent s) {n : ℕ} (hn : ∀ sm ∈ s.man.segments, sm.id < n)
    (hs : openStore opts { s.man with nextSegId := n } s.files = some s') : Consistent s' := by
  obtain ⟨segs, hsegs, hs⟩ := Option.bind_eq_some_iff.1 hs
  have hmem : ∀ seg ∈ segs, seg ∈ s.segs ∧ ∃ sm ∈ s.man.segments, seg.id = sm.id := by
    intro seg hseg
    obtain ⟨sm, hsm, hopen⟩ := StepSystem.exists_of_mem_mapM hsegs hseg
    obtain ⟨seg₀, hseg₀, hid, rfl⟩ := exists_of_openSegment hopen
    rw [load_file (h.handles sm hsm seg₀ hseg₀ hid)]
    exact ⟨hseg₀, sm, hsm, hid⟩
  refine reclaimOrphanTables ⟨fun seg hseg => ?_, fun sm hsm seg hseg hid => ?_, fun seg hseg => ?_,
    hn, by simp [opened], by simp [opened], by simp [opened]⟩ hs
  · exact h.usable seg (hmem seg hseg).1
  · exact h.handles sm hsm seg (hmem seg hseg).1 hid
  · obtain ⟨-, sm, hsm, hid⟩ := hmem seg hseg
    exact hid ▸ hn sm hsm

/-- The upgrade gives an entry the span of every segment with its id, if these agree. -/
lemma mem_foldl_setRange (segs : List Segment) (sms : List SegMeta)
    (hagree : ∀ seg ∈ segs, ∀ seg' ∈ segs, seg.id = seg'.id → seg.forwardRange = seg'.forwardRange)
    {sm : SegMeta} (hsm : sm ∈ segs.foldl (fun sms seg =>
      sms.map fun sm => if sm.id = seg.id then sm.setRange seg.forwardRange else sm) sms) :
    (∃ sm₀ ∈ sms, sm.id = sm₀.id) ∧
      ∀ seg ∈ segs, seg.id = sm.id → (sm.minDocid, sm.maxDocid) = seg.forwardRange := by
  induction segs using reverseRecOn generalizing sm with
  | nil => exact ⟨⟨sm, hsm, rfl⟩, by simp⟩
  | append_singleton segs last ih =>
    rw [foldl_append, foldl_cons, foldl_nil, mem_map] at hsm
    obtain ⟨sm₁, hsm₁, rfl⟩ := hsm
    obtain ⟨⟨sm₀, hsm₀, hid⟩, hspan⟩ := ih (fun seg hseg seg' hseg' => hagree seg
      (mem_append_left _ hseg) seg' (mem_append_left _ hseg')) hsm₁
    by_cases heq : sm₁.id = last.id
    · rw [if_pos heq]
      refine ⟨⟨sm₀, hsm₀, hid⟩, fun seg hseg hsegid => ?_⟩
      exact hagree last (by simp) seg hseg (heq.symm.trans hsegid.symm)
    · rw [if_neg heq]
      refine ⟨⟨sm₀, hsm₀, hid⟩, fun seg hseg hsegid => ?_⟩
      rcases mem_append.1 hseg with hseg | hseg
      · exact hspan seg hseg hsegid
      · obtain rfl := mem_singleton.1 hseg
        exact absurd hsegid.symm heq

lemma forwardRange_congr {seg seg' : Segment} (h : seg.blocks = seg'.blocks) :
    seg.forwardRange = seg'.forwardRange := by
  rw [Segment.forwardRange, Segment.forwardRange, Segment.scanPrefix, Segment.scanPrefix, h]

lemma openLegacy (h : Consistent s) {n : ℕ} (hn : ∀ sm ∈ s.man.segments, sm.id < n)
    (hs : openLegacy opts { s.man with nextSegId := n } s.files = some s') : Consistent s' := by
  obtain ⟨segs, hsegs, hs⟩ := Option.bind_eq_some_iff.1 hs
  -- a loaded segment has the blocks of the file under its id
  have hmem : ∀ seg ∈ segs, ∃ x, s.files seg.id = some x ∧ seg.blocks = x.blocks ∧ seg.Laid ∧
      seg.id < n := by
    intro seg hseg
    obtain ⟨sm, hsm, hopen⟩ := StepSystem.exists_of_mem_mapM hsegs hseg
    obtain ⟨sm₀, hsm₀, rfl⟩ := mem_map.1 hsm
    obtain ⟨seg₀, hseg₀, hid, heq⟩ := exists_of_openSegment hopen
    obtain ⟨x, hx, hload⟩ := Option.map_eq_some_iff.1 hopen
    have hlaid := (h.usable seg₀ hseg₀).toLaid
    refine ⟨x, ?_, ?_, ?_, ?_⟩
    · rw [← hload]
      exact hx
    · rw [← hload]
      rfl
    · rw [heq]
      exact ⟨hlaid.blocks_ne, hlaid.sorted⟩
    · rw [heq]
      exact hn sm₀ hsm₀
  have hagree : ∀ seg ∈ segs, ∀ seg' ∈ segs, seg.id = seg'.id →
      seg.forwardRange = seg'.forwardRange := by
    intro seg hseg seg' hseg' hid
    obtain ⟨x, hx, hblocks, -⟩ := hmem seg hseg
    obtain ⟨x', hx', hblocks', -⟩ := hmem seg' hseg'
    rw [hid, hx', Option.some.injEq] at hx
    exact forwardRange_congr (by rw [hblocks, hblocks', hx])
  refine reclaimOrphanTables ⟨fun seg hseg => ?_, fun sm hsm seg hseg hid => ?_, fun seg hseg => ?_,
    fun sm hsm => ?_, by simp [opened, upgradeSegmentRanges], by simp [opened, upgradeSegmentRanges],
    by simp [opened, upgradeSegmentRanges]⟩ hs
  · obtain ⟨seg₀, hseg₀, rfl⟩ := mem_map.1 hseg
    obtain ⟨-, -, -, hlaid, -⟩ := hmem seg₀ hseg₀
    exact hlaid.usable_setRange
  · obtain ⟨seg₀, hseg₀, rfl⟩ := mem_map.1 hseg
    have hspan := (mem_foldl_setRange segs _ hagree hsm).2 seg₀ hseg₀ hid
    simp only [Segment.handle, SegMeta.handle, Segment.setRange, ← hspan] at hid ⊢
    rw [hid]
  · obtain ⟨seg₀, hseg₀, rfl⟩ := mem_map.1 hseg
    obtain ⟨-, -, -, -, hlt⟩ := hmem seg₀ hseg₀
    exact hlt
  · obtain ⟨sm₀, hsm₀, hid⟩ := (mem_foldl_setRange segs _ hagree hsm).1
    obtain ⟨sm₁, hsm₁, rfl⟩ := mem_map.1 hsm₀
    rw [hid]
    exact hn sm₁ hsm₁

lemma onEvent (h : Consistent s) {e : Event} (hs : s.onEvent opts e = some s') : Consistent s' := by
  cases e with
  | task l => exact h.step hs
  | abandonMerge => exact Option.some.inj hs ▸ h.congr rfl rfl rfl (by simp)
  | reopen legacy n =>
    obtain ⟨hn, hs⟩ := Option.ite_none_right_eq_some.1 hs
    cases legacy with
    | true => exact h.openLegacy hn hs
    | false => exact h.openStore hn hs

end Consistent

lemma consistent_empty (tables : List TableId) (next : TableId) : Consistent (empty tables next) := by
  constructor <;> simp [empty, opened]

/-- Every reachable state is consistent. -/
theorem Reachable.consistent (h : Reachable opts s) : Consistent s := by
  obtain ⟨tables, next, es, hrun⟩ := h
  exact hrun.invariant (I := fun _ s => Consistent s) (consistent_empty tables next)
    fun h _ hs => h.onEvent hs

end Store

end Haystack.InvertedStore
