import Haystack.InvertedStore.Reopen
import Haystack.InvertedStore.Writers

/-!
# Crashes and failed writes

In every state that a store and its directory reach, a writer may fail or die at any of its file
steps: the MANIFEST names complete files only, `Open` finds the old or the new set of segments, and
a writer that reports an error leaves memory and MANIFEST in agreement. There are two exceptions: if
the directory cannot be synced after the rename of the MANIFEST, the writer takes back in memory,
and partly on disk, what the MANIFEST already names; and the errors of a segment writer are not seen
by anyone.
-/

namespace Haystack.InvertedStore

open Faulty Option List

/-! ### The live set and the directory -/

/-- The segments in memory are those of the MANIFEST in memory. -/
structure Sealed (s : Store) : Prop where
  wf : ∀ seg ∈ s.segs, seg.WF
  nodup : (s.segs.map Segment.id).Nodup
  metas : (s.man.segments.map SegMeta.handle).Perm (s.segs.map Segment.handle)
  id_lt : ∀ seg ∈ s.segs, seg.id < s.man.nextSegId

/-- The directory holds the live set: the MANIFEST lists it and all its files are complete. -/
structure OnDisk (s : Store) (d : Disk) : Prop extends Sealed s where
  manifest : ∃ man, d.readManifest = some man ∧ man.segments = s.man.segments ∧
    ∀ seg ∈ s.segs, seg.id < man.nextSegId
  files : ∀ seg ∈ s.segs, d.file seg.id = some seg.file

/-- `s'` has one segment that `s` has not. -/
structure Adds (s s' : Store) (id : ℕ) (x : SegFile) : Prop where
  sealed : Sealed s'
  old : ∀ seg ∈ s'.segs, seg.id ≠ id → seg ∈ s.segs
  new : ∀ seg ∈ s'.segs, seg.id = id → seg.file = x
  mem : ∃ sm ∈ s'.man.segments, sm.id = id
  fresh : ∀ sm ∈ s.man.segments, sm.id ≠ id

variable {opts : Options} {s s' : Store} {d d' : Disk} {e : SpillEntry} {n : ℕ}

namespace Sealed

lemma exists_seg (h : Sealed s) {sm : SegMeta} (hsm : sm ∈ s.man.segments) :
    ∃ seg ∈ s.segs, seg.handle = sm.handle :=
  mem_map.1 (h.metas.subset (mem_map_of_mem hsm))

/-- A new segment takes the place of those with ids in `ids`. -/
lemma adds (h : Sealed s) (ids : List ℕ) (seg : Segment) (sm : SegMeta)
    (hsegs : s'.segs.Perm ((s.segs.filter fun x => x.id ∉ ids) ++ [seg]))
    (hmetas : s'.man.segments = (s.man.segments.filter fun x => x.id ∉ ids) ++ [sm])
    (hsm : sm.handle = seg.handle) (hfresh : ∀ x ∈ s.segs, x.id ≠ seg.id)
    (hnext : s.man.nextSegId ≤ s'.man.nextSegId) (hlt : seg.id < s'.man.nextSegId) (hwf : seg.WF) :
    Adds s s' seg.id seg.file := by
  have hmem : ∀ {x}, x ∈ s'.segs → x ∈ s.segs ∨ x = seg := by
    intro x hx
    have hx := hsegs.subset hx
    rw [mem_append, mem_singleton] at hx
    exact hx.imp_left mem_of_mem_filter
  have hsmid : sm.id = seg.id := congrArg Prod.fst hsm
  refine ⟨⟨fun x hx => ?_, ?_, ?_, fun x hx => ?_⟩, fun x hx hne => ?_, fun x hx hid => ?_,
    ⟨sm, by simp [hmetas], hsmid⟩, fun y hy => ?_⟩
  · rcases hmem hx with hx | rfl
    exacts [h.wf x hx, hwf]
  · refine (hsegs.map Segment.id).nodup_iff.2 ?_
    rw [map_append, nodup_append']
    refine ⟨(List.filter_sublist.map _).nodup h.nodup, by simp, ?_⟩
    simp only [List.map_cons, List.map_nil, List.disjoint_singleton, List.mem_map, not_exists,
      not_and]
    exact fun x hx => hfresh x (List.mem_of_mem_filter hx)
  · refine List.Perm.trans ?_ (hsegs.map Segment.handle).symm
    rw [hmetas, map_append, map_append]
    refine List.Perm.append ?_ (by simp [hsm])
    have hfilter := h.metas.filter fun x => x.1 ∉ ids
    rw [List.filter_map, List.filter_map] at hfilter
    exact hfilter
  · rcases hmem hx with hx | rfl
    exacts [(h.id_lt x hx).trans_le hnext, hlt]
  · exact (hmem hx).resolve_right fun heq => hne (heq ▸ rfl)
  · rcases hmem hx with hx | rfl
    exacts [absurd hid (hfresh x hx), rfl]
  · obtain ⟨x, hx, heq⟩ := h.exists_seg hy
    have hid : x.id = y.id := congrArg Prod.fst heq
    exact hid ▸ hfresh x hx

end Sealed

namespace OnDisk

/-- Other files do not matter. -/
lemma beside (h : OnDisk s d) {id : ℕ} (hid : ∀ seg ∈ s.segs, seg.id ≠ id) (hb : d.Beside id d') :
    OnDisk s d' where
  toSealed := h.toSealed
  manifest := by rw [Disk.readManifest_of_eq hb.manifest]; exact h.manifest
  files seg hseg := (hb.files _ (hid seg hseg)).trans (h.files seg hseg)

lemma congr (h : OnDisk s d) (hsegs : s'.segs = s.segs)
    (hmetas : s'.man.segments = s.man.segments) (hnext : s.man.nextSegId ≤ s'.man.nextSegId) :
    OnDisk s' d where
  wf := hsegs ▸ h.wf
  nodup := hsegs ▸ h.nodup
  metas := by rw [hsegs, hmetas]; exact h.metas
  id_lt := by rw [hsegs]; exact fun seg hseg => (h.id_lt seg hseg).trans_le hnext
  manifest := by rw [hsegs, hmetas]; exact h.manifest
  files := hsegs ▸ h.files

/-- An entry of the MANIFEST opens as the segment it was written for, from memory or from disk. -/
lemma openSegment_eq (h : OnDisk s d) {sm : SegMeta} (hsm : sm ∈ s.man.segments) : ∃ seg ∈ s.segs,
    seg.handle = sm.handle ∧ Store.openSegment d.file sm = some seg ∧
      Store.openSegment s.files sm = some seg := by
  obtain ⟨seg, hseg, hhandle⟩ := h.exists_seg hsm
  have hid : seg.id = sm.id := congrArg Prod.fst hhandle
  have hlookup : KWay.lookup Segment.id sm.id s.segs = some seg :=
    (KWay.lookup_eq_some_iff h.nodup).2 ⟨hseg, hid⟩
  refine ⟨seg, hseg, hhandle, ?_, ?_⟩
  · rw [Store.openSegment, ← hid, h.files seg hseg, map_some, Store.load_file hhandle]
  · rw [Store.openSegment, Store.files, hlookup, map_some, map_some,
      Store.load_file hhandle]

/-- `Open` finds the live set, in the order of the MANIFEST. -/
lemma exists_opened (h : OnDisk s d) : ∃ segs,
    s.man.segments.mapM (Store.openSegment d.file) = some segs ∧
    s.man.segments.mapM (Store.openSegment s.files) = some segs ∧
    segs.map Segment.handle = s.man.segments.map SegMeta.handle ∧ ∀ seg ∈ segs, seg ∈ s.segs := by
  have hopen : ∀ sm ∈ s.man.segments, ∃ seg, Store.openSegment d.file sm = some seg ∧
      (seg ∈ s.segs ∧ seg.handle = sm.handle ∧ Store.openSegment s.files sm = some seg) := by
    intro sm hsm
    obtain ⟨seg, hseg, hhandle, hd, hs⟩ := h.openSegment_eq hsm
    exact ⟨seg, hd, hseg, hhandle, hs⟩
  obtain ⟨segs, hmap, hall⟩ := StepSystem.exists_mapM_eq_some hopen
  refine ⟨segs, hmap, ?_, ?_, ?_⟩
  · rw [← hmap]
    refine StepSystem.mapM_congr fun sm hsm => ?_
    obtain ⟨seg, -, -, hd, hs⟩ := h.openSegment_eq hsm
    rw [hd, hs]
  · have heq : Forall₂ Eq (segs.map Segment.handle) (s.man.segments.map SegMeta.handle) := by
      rw [forall₂_map_left_iff, forall₂_map_right_iff]
      exact hall.flip.imp fun _ _ hR => hR.2.1
    rwa [forall₂_eq_eq_eq] at heq
  · intro seg hseg
    obtain ⟨i, hi⟩ := mem_iff_getElem?.1 hseg
    obtain ⟨sm, -, hR⟩ := StepSystem.Forall₂.exists_getElem? hall.flip hi
    exact hR.1

/-- Sweeping keeps the files of the live set. -/
lemma sweep (h : OnDisk s d) {man : Manifest}
    (hsegments : man.segments = s.man.segments) : OnDisk s (d.sweepOrphanSegments man) := by
  refine ⟨h.toSealed, h.manifest, fun seg hseg => ?_⟩
  rw [← h.files seg hseg, Disk.file, Disk.file, Disk.sweepOrphanSegments,
    GoMap.lookup_foldl_erase]
  simp only [mem_filter, decide_eq_true_eq, not_and, not_not]
  intro _
  obtain ⟨sm, hsm, heq⟩ := mem_map.1 (h.metas.symm.subset (mem_map_of_mem hseg))
  exact hsegments ▸ mem_map.2 ⟨sm, hsm, congrArg Prod.fst heq⟩

/-- A covering merge of well-formed segments does not panic. -/
lemma exists_reclaim (opts : Options) {s : Store} (hwf : ∀ seg ∈ s.segs, seg.WF) :
    ∃ s₂, s.reclaimOrphanTables opts = some s₂ := by
  unfold Store.reclaimOrphanTables
  split
  case isFalse => exact ⟨s, rfl⟩
  case isTrue =>
    unfold Store.coveringMerge
    split
    case h_2 => exact ⟨s, rfl⟩
    case h_1 s₁ hsel =>
      obtain ⟨-, level, rfl⟩ := Store.selectCovering_cases hsel
      have hinputs : ∀ seg ∈ s.segsByIds (s.man.segments.map SegMeta.id), seg.WF :=
        fun seg hseg => hwf seg (Store.mem_of_mem_segsByIds hseg)
      obtain ⟨res, hres⟩ : ∃ res, mergeSegments opts (s.segsByIds (s.man.segments.map SegMeta.id))
          s.man.nextSegId level true (some s.man.tables) = some res := exists_mergeSegments hinputs
      exact ⟨_, congrArg (Option.map _) hres⟩

/-- `Open` succeeds and finds the live set. -/
lemma openDir_eq (opts : Options) (h : OnDisk s d) : ∃ man s₂, d.readManifest = some man ∧
    man.segments = s.man.segments ∧ d.openDir opts = some s₂ ∧
      Store.openStore opts man s.files = some s₂ := by
  obtain ⟨man, hman, hsegments, -⟩ := h.manifest
  obtain ⟨segs, hdisk, hmem, -, hsegs⟩ := (h.sweep hsegments).exists_opened
  obtain ⟨s₂, hs₂⟩ := exists_reclaim opts
    (s := .opened man segs (Store.opened man segs ∅).recomputeLive)
    fun seg hseg => h.wf seg (hsegs seg hseg)
  refine ⟨man, s₂, hman, hsegments, ?_, ?_⟩
  · rw [Disk.openDir, hman, bind_some, Store.openStore, hsegments, hdisk]
    exact hs₂
  · rw [Store.openStore, hsegments, hmem]
    exact hs₂

end OnDisk

/-! ### A writer in a working store -/

/-- What holds between the selection of a merge and its install. -/
structure PlanFits (s : Store) (p : MergePlan) : Prop where
  inputs_lt : ∀ i ∈ p.inputIds, i < p.outId
  out_lt : p.outId < s.man.nextSegId
  out_new : ∀ seg ∈ s.segs, seg.id ≠ p.outId
  wf : ∀ seg ∈ p.segs, seg.WF

/-- The temporary file of a detached head, if complete, is its encoding. -/
def SpillFile (opts : Options) (e : SpillEntry) (d : Disk) : Prop :=
  ∀ x, d.tempFiles.lookup e.tempN = some (some x) →
    x = (encodeHeadToFile opts e.head e.tableId 0).file

/-- A process between two tasks. -/
structure Running (opts : Options) (s : Store) : Prop where
  gate : Store.Gate opts s
  heads : Store.HeadsOk s
  plan : ∀ p ∈ s.plan, PlanFits s p

/-- A process that works on the directory `d`. -/
structure Working (opts : Options) (s : Store) (d : Disk) : Prop extends Running opts s where
  temps : ∀ {e n}, (e, n) ∈ s.dispatches → n ≠ 0 → SpillFile opts e d

/-- The pending task of a writer. -/
lemma writer_cases {l : Label} {w : Writer} (hl : s.writer opts l = some w) :
    (∃ t, l = .spill t ∧ w = .spill t) ∨
    (∃ i next e n, l = .installSpill i next ∧ w = .installSpill e n ∧
      s.dispatches[i]? = some (e, n) ∧ n < opts.maxInstallRetries) ∨
    ∃ p, l = .installMerge ∧ w = .installMerge p ∧ s.plan = some p := by
  cases l with
  | spill t => exact .inl ⟨t, rfl, (some.inj hl).symm⟩
  | installSpill i next =>
    rw [Store.writer_installSpill] at hl
    obtain ⟨⟨e, n⟩, hd, hl⟩ := bind_eq_some_iff.1 hl
    obtain ⟨hn, hl⟩ := ite_none_right_eq_some.1 hl
    exact .inr (.inl ⟨i, next, e, n, rfl, (some.inj hl).symm, hd, hn⟩)
  | installMerge =>
    obtain ⟨p, hp, rfl⟩ := map_eq_some_iff.1 hl
    exact .inr (.inr ⟨p, rfl, rfl, hp⟩)
  | _ => exact absurd hl (some_ne_none w).symm

/-- A spilled head is a new segment. -/
lemma adds_spill (h : Sealed s) {x : HeadTable} (hwf : x.WF) {t : TableId}
    (hsegs : s'.segs.Perm (s.segs ++ [encodeHeadToFile opts x t s.man.nextSegId]))
    (hman : s'.man = s.recordSpill x t) :
    Adds s s' s.man.nextSegId (encodeHeadToFile opts x t 0).file := by
  refine h.adds [] (encodeHeadToFile opts x t s.man.nextSegId)
    (Store.spillSegMeta x s.man.nextSegId t) ?_ ?_ rfl (fun y hy => ?_) ?_ ?_ ?_
  · simpa using hsegs
  · simp [hman, Store.recordSpill]
  · exact (h.id_lt y hy).ne
  · simp [hman, Store.recordSpill]
  · simp only [hman, Store.recordSpill]
    exact Nat.lt_succ_self _
  · exact wf_encodeHeadToFile opts t _ hwf.toEncodable

/-- The output of a merge is a new segment. -/
lemma adds_swapMerged (h : Sealed s) {p : MergePlan} (hp : PlanFits s p) {res : MergeResult}
    (hres : mergeSegments opts p.segs p.outId p.level p.covering p.liveTables = some res) :
    Adds s (s.swapMerged p.inputIds res) p.outId res.seg.file := by
  obtain ⟨hid, hsmid, -, hmin, hmax⟩ := id_mergeSegments hres
  rw [← hid]
  refine h.adds p.inputIds res.seg res.sm (StableSort.perm_sortBy _ _) rfl ?_ ?_ le_rfl ?_ ?_
  · simp [SegMeta.handle, Segment.handle, hid, hsmid, hmin, hmax]
  · exact hid ▸ hp.out_new
  · exact hid ▸ hp.out_lt
  · exact wf_mergeSegments hp.wf hres

/-- How a writer ends; `x` is the file of the segment it adds. -/
structure Ends (s s' : Store) (x : SegFile) (d : Disk) (f : Faults) (w : Writer)
    (r : Ran Disk Written) : Prop where
  fresh : ∀ seg ∈ s.segs, seg.id ≠ w.newId s
  untouched : ¬ w.Publishes s d f → Untouched s (w.newId s) d r
  adds : w.Publishes s d f → Adds s s' (w.newId s) x
  wentBack : w.Publishes s d f → w.GoesBack f → WentBack s s' r
  published : w.Publishes s d f → ¬ w.GoesBack f →
    Published s' (w.newId s) (if w.Torn d f then none else some x) d r

lemma ends_spill (h : Sealed s) (hheads : Store.HeadsOk s) (d : Disk) (f : Faults) (t : TableId) :
    ∃ x, Ends s (s.spill opts t) x d f (.spill t) (s.spillFiles opts f t d) := by
  refine ⟨_, fun seg hseg => (h.id_lt seg hseg).ne, Store.spillFiles_untouched, fun hpub => ?_,
    Store.spillFiles_wentBack, Store.spillFiles_published⟩
  have hne := hpub.1
  refine adds_spill h (hheads.wf_getD t) ?_ ?_
  · simp [Store.spill, hne]
  · simp [Store.spill, hne]

lemma ends_installMerge (h : Sealed s) {p : MergePlan} (hp : PlanFits s p) {res : MergeResult}
    (hres : mergeSegments opts p.segs p.outId p.level p.covering p.liveTables = some res)
    (d : Disk) (f : Faults) :
    Ends s (s.swapMerged p.inputIds res) res.seg.file d f (.installMerge p)
      (s.installMergeFiles opts f p d) :=
  ⟨hp.out_new, Store.installMergeFiles_untouched hres, fun _ => adds_swapMerged h hp hres,
    Store.installMergeFiles_wentBack hres,
    fun hpub hback => Store.installMergeFiles_published hres hpub hback hp.inputs_lt⟩

/-- The file that an install publishes is the encoding of the head, unless it is cut short. -/
lemma spillContent_eq (htemp : n ≠ 0 → SpillFile opts e d) {f : Faults}
    (hpub : (Writer.installSpill e n).Publishes s d f) :
    Store.spillContent opts d f e n = if (Writer.installSpill e n).Torn d f then none
      else some (encodeHeadToFile opts e.head e.tableId 0).file := by
  by_cases hn : n = 0
  · simp [Store.spillContent, Writer.Torn, Faults.content, hn]
  · have hfirst := hpub.1
    rw [if_neg hn] at hfirst
    obtain ⟨y, hy⟩ := ne_none_iff_exists'.1 hfirst
    cases y with
    | none => simp [Store.spillContent, Writer.Torn, hn, hy]
    | some x => simp [Store.spillContent, Writer.Torn, hn, hy, htemp hn x hy]

lemma ends_installSpill (h : Sealed s) (hwf : e.head.WF) (htemp : n ≠ 0 → SpillFile opts e d)
    (f : Faults) :
    Ends s (s.publishSpill opts e) (encodeHeadToFile opts e.head e.tableId 0).file d f
      (.installSpill e n) (s.installSpillFiles opts f e n d) := by
  refine ⟨fun seg hseg => (h.id_lt seg hseg).ne, Store.installSpillFiles_untouched,
    fun _ => adds_spill h hwf (StableSort.perm_sortBy _ _) rfl,
    Store.installSpillFiles_wentBack, fun hpub hback => ?_⟩
  rw [← spillContent_eq htemp hpub]
  exact Store.installSpillFiles_published hpub hback

lemma Working.wf_of_dispatch (h : Working opts s d) {i : ℕ} (hd : s.dispatches[i]? = some (e, n)) :
    e.head.WF := by
  obtain ⟨-, hb⟩ := h.gate.busy_of_dispatch hd
  exact (h.heads.spilling e (by simp [hb.spilling])).2

/-- Every pending writer comes to one of these ends. -/
theorem exists_ends (h : Sealed s) (hw : Working opts s d) {l : Label} {w : Writer}
    (hl : s.writer opts l = some w) (f : Faults) :
    ∃ s' x, w.after opts s = some s' ∧ Ends s s' x d f w (w.run opts s f d) := by
  obtain ⟨t, rfl, rfl⟩ | ⟨i, next, e, n, rfl, rfl, hd, -⟩ | ⟨p, rfl, rfl, hp⟩ := writer_cases hl
  · obtain ⟨x, hx⟩ := ends_spill h hw.heads d f t
    exact ⟨_, x, rfl, hx⟩
  · exact ⟨_, _, rfl, ends_installSpill h (hw.wf_of_dispatch hd)
      (hw.temps (mem_of_getElem? hd)) f⟩
  · have hfits := hw.plan p hp
    obtain ⟨res, hres⟩ : ∃ res,
        mergeSegments opts p.segs p.outId p.level p.covering p.liveTables = some res :=
      exists_mergeSegments hfits.wf
    exact ⟨_, _, by rw [Writer.after, hres]; rfl, ends_installMerge h hfits hres d f⟩

/-! ### Safety of a writer -/

/-- What a writer may leave behind, whether it returned or died: the MANIFEST names complete files
only, `Open` finds the set before or after the task, and after an error memory and MANIFEST describe
the same set. -/
structure Safe (opts : Options) (s s' : Store) (d : Disk) (r : Ran Disk Written) : Prop where
  complete : ∃ man, r.state.readManifest = some man ∧
    ∀ sm ∈ man.segments, (r.state.file sm.id).isSome
  opens : ∃ s₂, r.state.openDir opts = some s₂ ∧
    ((∃ man, d.readManifest = some man ∧ Store.openStore opts man s.files = some s₂) ∨
      Store.openStore opts s'.man s'.files = some s₂)
  agrees : ∀ {w d'}, r = .returned w d' → w.ok = false → ∃ man, d'.readManifest = some man ∧
    man.segments = w.store.man.segments ∧
      (w.store.man.segments.map SegMeta.handle).Perm (w.store.segs.map Segment.handle)

lemma OnDisk.complete (h : OnDisk s d) : ∃ man, d.readManifest = some man ∧
    ∀ sm ∈ man.segments, (d.file sm.id).isSome := by
  obtain ⟨man, hman, hsegments, -⟩ := h.manifest
  refine ⟨man, hman, fun sm hsm => ?_⟩
  obtain ⟨seg, hseg, heq⟩ := h.exists_seg (hsegments ▸ hsm)
  have hid : seg.id = sm.id := congrArg Prod.fst heq
  simp [← hid, h.files seg hseg]

namespace Ends

variable {x : SegFile} {f : Faults} {w : Writer} {r : Ran Disk Written}

lemma onDisk_untouched (he : Ends s s' x d f w r) (h : OnDisk s d) (hpub : ¬ w.Publishes s d f) :
    OnDisk s r.state :=
  h.beside he.fresh (he.untouched hpub).beside

lemma onDisk_published (he : Ends s s' x d f w r) (h : OnDisk s d) (hpub : w.Publishes s d f)
    (hback : ¬ w.GoesBack f) (htorn : ¬ w.Torn d f) :
    OnDisk s' r.state ∧ r.state.readManifest = some s'.man := by
  have hp := he.published hpub hback
  have ha := he.adds hpub
  rw [if_neg htorn] at hp
  have hman : r.state.readManifest = some s'.man := by rw [Disk.readManifest, hp.manifest]
  refine ⟨⟨ha.sealed, ⟨s'.man, hman, rfl, ha.sealed.id_lt⟩, fun seg hseg => ?_⟩, hman⟩
  by_cases hid : seg.id = w.newId s
  · rw [hid, hp.new, ha.new seg hseg hid]
  · rw [hp.files seg hseg hid, h.files seg (ha.old seg hseg hid)]

lemma not_safe_of_goesBack (he : Ends s s' x d f w r) (hpub : w.Publishes s d f)
    (hback : w.GoesBack f) : ¬ Safe opts s s' d r := by
  intro hsafe
  obtain ⟨w', d', rfl, hok, hstore, hman⟩ := he.wentBack hpub hback
  obtain ⟨man, hread, hsegments, -⟩ := hsafe.agrees rfl hok
  obtain rfl : s'.man = man := by simpa [Disk.readManifest, hman] using hread
  obtain ⟨sm, hsm, hid⟩ := (he.adds hpub).mem
  exact (he.adds hpub).fresh sm (by rwa [← hstore, ← hsegments]) hid

lemma not_safe_of_torn (he : Ends s s' x d f w r) (hpub : w.Publishes s d f)
    (hback : ¬ w.GoesBack f) (htorn : w.Torn d f) : ¬ Safe opts s s' d r := by
  intro hsafe
  have hp := he.published hpub hback
  rw [if_pos htorn] at hp
  obtain ⟨man, hread, hall⟩ := hsafe.complete
  obtain rfl : s'.man = man := by simpa [Disk.readManifest, hp.manifest] using hread
  obtain ⟨sm, hsm, hid⟩ := (he.adds hpub).mem
  have hfile := hall sm hsm
  rw [hid, hp.new] at hfile
  simp at hfile

/-- A writer is safe at every point of failure except those of `Exposed`. -/
theorem safe_iff (he : Ends s s' x d f w r) (h : OnDisk s d) :
    Safe opts s s' d r ↔ ¬ w.Exposed s d f := by
  constructor
  · rintro hsafe ⟨hpub, hexp⟩
    by_cases hback : w.GoesBack f
    · exact he.not_safe_of_goesBack hpub hback hsafe
    · exact he.not_safe_of_torn hpub hback (hexp.resolve_right hback) hsafe
  · intro hexp
    by_cases hpub : w.Publishes s d f
    · have hback : ¬ w.GoesBack f := fun hback => hexp ⟨hpub, .inr hback⟩
      have htorn : ¬ w.Torn d f := fun htorn => hexp ⟨hpub, .inl htorn⟩
      obtain ⟨hdisk, hman⟩ := he.onDisk_published h hpub hback htorn
      obtain ⟨man, s₂, hread, -, hopen, hstore⟩ := hdisk.openDir_eq opts
      obtain rfl := some.inj (hman.symm.trans hread)
      refine ⟨hdisk.complete, ⟨s₂, hopen, .inr hstore⟩, fun hr hok => ?_⟩
      have := ((he.published hpub hback).store hr).2
      simp [hok] at this
    · have hdisk := he.onDisk_untouched h hpub
      have hunt := he.untouched hpub
      obtain ⟨man, s₂, hread, hsegments, hopen, hstore⟩ := hdisk.openDir_eq opts
      refine ⟨hdisk.complete, ⟨s₂, hopen, .inl ⟨man, ?_, hstore⟩⟩, fun hr _ => ?_⟩
      · rw [← hread, Disk.readManifest_of_eq hunt.beside.manifest]
      · subst hr
        obtain hw | hw := hunt.store rfl <;> rw [hw] <;> exact ⟨man, hread, hsegments, h.metas⟩

end Ends

end Haystack.InvertedStore
