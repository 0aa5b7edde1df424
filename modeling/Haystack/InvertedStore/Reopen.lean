import Haystack.InvertedStore.Close
import Haystack.InvertedStore.Open

/-!
# Closing and reopening a store

`CloseAndWait` waits for the spills in flight, spills the remaining heads and lets the merge loop
finish. `Open` then loads the live segments in the order of the MANIFEST, which is not the order of
their ids: `installMerge` appends its output, whose id was reserved when the merge was selected,
behind the segments spilled in between. The answers survive if such segments have no document in
common with the merge.
-/

namespace Haystack.InvertedStore

open Option StepSystem List

namespace Store

/-- No segment that has been spilled since the merge in progress was selected has a document of an
input. -/
def InstallOrdered (s : Store) : Prop :=
  ∀ p ∈ s.plan, ∀ old ∈ p.segs, ∀ new ∈ s.segs, p.outId < new.id → old.Apart new

instance (s : Store) : Decidable s.InstallOrdered :=
  inferInstanceAs (Decidable (∀ p ∈ s.plan, ∀ old ∈ p.segs, ∀ new ∈ s.segs, _ → _))

/-- The steps that keep the chains of all documents in order, in memory and in the MANIFEST. -/
def ReopenOk (opts : Options) (s : Store) (l : Label) : Prop :=
  StepOk opts s l ∧ l.Succeeds ∧ (l = .installMerge → s.InstallOrdered)

instance (opts : Options) (s : Store) (l : Label) : Decidable (ReopenOk opts s l) :=
  inferInstanceAs (Decidable (_ ∧ _ ∧ _))

variable {opts : Options} {s s' : Store} {sm : SegMeta} {segs : List Segment} {res : MergeResult}

/-! ### The order of the MANIFEST -/

/-- Segments that the MANIFEST lists out of order have no document in common. -/
def ManifestOrdered (s : Store) : Prop :=
  s.man.segments.Pairwise fun a b => a.id < b.id ∨
    ∀ x ∈ s.segs, x.id = a.id → ∀ y ∈ s.segs, y.id = b.id → x.Apart y

lemma ManifestOrdered.congr (h : ManifestOrdered s) (hsegs : s'.segs = s.segs)
    (hmetas : s'.man.segments = s.man.segments) : ManifestOrdered s' := by
  rw [ManifestOrdered, hsegs, hmetas]
  exact h

lemma SegsOk.meta_id_lt (h : SegsOk s) (hsm : sm ∈ s.man.segments) : sm.id < s.man.nextSegId := by
  obtain ⟨seg, hseg, hid⟩ := h.exists_seg hsm
  exact hid ▸ h.id_lt seg hseg

/-- A spilled head is listed last and has the highest id. -/
lemma ManifestOrdered.append (h : ManifestOrdered s) (hok : SegsOk s) {seg : Segment}
    (hsegs : s'.segs = s.segs ++ [seg]) (hmetas : s'.man.segments = s.man.segments ++ [sm])
    (hid : seg.id = s.man.nextSegId) (hsm : sm.id = s.man.nextSegId) : ManifestOrdered s' := by
  have hold : ∀ {a : SegMeta} {x : Segment}, a ∈ s.man.segments → x ∈ s'.segs → x.id = a.id →
      x ∈ s.segs := by
    intro a x ha hx hxa
    rw [hsegs, mem_append, mem_singleton] at hx
    refine hx.resolve_right ?_
    rintro rfl
    exact absurd (hok.meta_id_lt ha) (by omega)
  rw [ManifestOrdered, hmetas, pairwise_append]
  refine ⟨h.imp_of_mem fun {a b} ha hb hab => ?_, by simp, fun a ha b hb => .inl ?_⟩
  · exact hab.imp_right fun hap x hx hxa y hy hyb => hap x (hold ha hx hxa) hxa y (hold hb hy hyb) hyb
  · rw [mem_singleton.1 hb, hsm]
    exact hok.meta_id_lt ha

/-- A merge has no documents of its own. -/
lemma exists_mem_docs_of_merged (h : Sound opts s) {p : MergePlan} (hp : PlanOk s p)
    (hres : mergeSegments opts p.segs p.outId p.level p.covering p.liveTables = some res)
    {x : UInt32 × DocId} (hx : x ∈ res.seg.docs) : ∃ seg ∈ p.segs, x ∈ seg.docs := by
  obtain ⟨t, d⟩ := x
  obtain ⟨hwf, hclosed⟩ := h.segs.inputs hp
  have hne : ((res.seg.layer t).version d).toList ≠ [] := by
    rw [(wf_mergeSegments hwf hres).mem_docs_iff] at hx
    obtain ⟨ws, hws⟩ := isSome_iff_exists.1 hx
    simp [Layer.version, Segment.layer, hws]
  have hchain : segChain p.segs t d ≠ [] := by
    intro hnil
    refine hne ?_
    cases hcov : p.covering with
    | false => rw [version_tiered hwf hclosed (hcov ▸ hres), hnil]; rfl
    | true =>
      rw [version_covering hwf hclosed (hcov ▸ hres) (h.chainOk_inputs hp t d), hnil]
      split <;> rfl
  simp only [segChain_eq, Ne, filterMap_eq_nil_iff, mem_reverse, not_forall] at hchain
  obtain ⟨seg, hseg, hv⟩ := hchain
  refine ⟨seg, hseg, (hwf seg hseg).mem_docs_iff.2 ?_⟩
  exact isSome_iff_ne_none.2 fun hnone => hv (Layer.version_eq_none.2 hnone)

/-- The output of a merge is listed last. -/
lemma ManifestOrdered.swapMerged (h : ManifestOrdered s) (hsound : Sound opts s) {p : MergePlan}
    (hplan : s.plan = some p) (hord : s.InstallOrdered)
    (hres : mergeSegments opts p.segs p.outId p.level p.covering p.liveTables = some res) :
    ManifestOrdered (s.swapMerged p.inputIds res) := by
  have hp := hsound.segs.plan p hplan
  obtain ⟨hid, hsmid, -⟩ := id_mergeSegments hres
  have hmem : ∀ {x}, x ∈ (s.swapMerged p.inputIds res).segs → x ∈ s.segs ∨ x = res.seg :=
    fun hx => (mem_swapMerged.1 hx).imp_left And.left
  have hold : ∀ {a : SegMeta} {x : Segment}, a ∈ s.man.segments →
      x ∈ (s.swapMerged p.inputIds res).segs → x.id = a.id → x ∈ s.segs := by
    intro a x ha hx hxa
    refine (hmem hx).resolve_right ?_
    rintro rfl
    obtain ⟨seg, hseg, hsegid⟩ := hsound.segs.exists_seg ha
    exact hp.out_new seg hseg (by rw [hsegid, ← hxa, hid])
  rw [ManifestOrdered]
  simp only [Store.swapMerged]
  rw [pairwise_append]
  refine ⟨(h.imp_of_mem fun {a b} ha hb hab => ?_).filter _, by simp, fun a ha b hb => ?_⟩
  · exact hab.imp_right fun hap x hx hxa y hy hyb => hap x (hold ha hx hxa) hxa y (hold hb hy hyb) hyb
  · obtain rfl := mem_singleton.1 hb
    have ha := mem_of_mem_filter ha
    rw [hsmid]
    refine (lt_or_ge a.id p.outId).imp_right fun hge x hx hxa y hy hyb z hzx hzy => ?_
    have hx := hold ha hx hxa
    obtain rfl : y = res.seg := by
      refine (hmem hy).resolve_left fun hy' => ?_
      exact hp.out_new y hy' hyb
    obtain ⟨seg, hseg, hz⟩ := exists_mem_docs_of_merged hsound hp hres hzy
    have hlt : p.outId < x.id := lt_of_le_of_ne (hxa ▸ hge) (hp.out_new x hx).symm
    exact hord p hplan seg hseg x hx hlt z hz hzx

/-- Every step of this kind keeps the MANIFEST in order. -/
theorem manifestOrdered_step (h : ManifestOrdered s) (hsound : Sound opts s) {l : Label}
    (hok : ReopenOk opts s l) (hs : step opts s l = some s') : ManifestOrdered s' := by
  obtain ⟨hok, -, hinstall⟩ := hok
  cases l with
  | apply ops =>
    obtain ⟨-, hman, hsegs⟩ := sound_applyBatch (fun _ s' => s'.man = s.man ∧ s'.segs = s.segs)
      (fun {_ s₁ op old} _ _ _ ⟨hman, hsegs⟩ =>
        have hframe := applyOneOp_frame opts s₁ op old
        ⟨hframe.1.trans hman, hframe.2.1.trans hsegs⟩) hsound hok ⟨rfl, rfl⟩ hs
    exact h.congr hsegs (by rw [hman])
  | installSpill i next =>
    obtain ⟨e, n, -, hcases⟩ := hsound.gate.install_cases hs
    have hmid : ManifestOrdered (s.publishSpill opts e).ended :=
      h.append hsound.segs (sort_append hsound.segs rfl) rfl rfl rfl
    obtain rfl | ⟨t, x, -, -, rfl⟩ := hcases
    · exact hmid
    · exact hmid.congr rfl rfl
  | failInstall i =>
    obtain ⟨e, n, -, -, rfl⟩ := failInstall_cases hs
    exact h.congr rfl rfl
  | giveUpSpill i next => exact hok.elim
  | spill t =>
    cases hs
    obtain heq | ⟨x, -, heq⟩ := spill_cases opts s t
    · rw [heq]
      exact h
    · rw [heq]
      exact h.append hsound.segs rfl rfl rfl rfl
  | selectTiered =>
    obtain ⟨-, l, ids, -, rfl⟩ := selectTiered_cases hs
    exact h.congr rfl rfl
  | selectCovering force dead =>
    obtain ⟨-, level, rfl⟩ := selectCovering_cases hs
    exact h.congr rfl rfl
  | installMerge =>
    obtain ⟨p, res, hp, hres, rfl⟩ := installMerge_cases hs
    exact h.swapMerged hsound hp (hinstall rfl) hres
  | createTable => exact hok.elim
  | deleteTable t =>
    cases hs
    exact h.congr rfl rfl
  | releaseGate =>
    cases hs
    exact h.congr rfl rfl

/-! ### What is opened -/

/-- Segments that are listed out of order without a common document have the same chains. -/
lemma segChain_eq_of_perm {segs segs' : List Segment} (hwf : ∀ seg ∈ segs, seg.WF)
    (hperm : segs'.Perm segs) (hsorted : segs.Pairwise fun a b => a.id < b.id)
    (hord : segs'.Pairwise fun a b => a.id < b.id ∨ a.Apart b) (t : UInt32) (d : DocId) :
    segChain segs' t d = segChain segs t d := by
  have hdocs : ∀ {seg}, seg ∈ segs → ((seg.layer t).version d).isSome → (t, d) ∈ seg.docs := by
    intro seg hseg hv
    rw [(hwf seg hseg).mem_docs_iff]
    exact isSome_iff_ne_none.2 fun hnone => by
      simp [Layer.version_eq_none.2 (show (seg.layer t).rec? d = none from hnone)] at hv
  have heq := ListScan.filterMap_eq_of_perm (f := fun seg => (seg.layer t).version d) Segment.id hperm
    (hord.imp_of_mem fun {a b} ha hb hab hva hvb => hab.resolve_right fun hap =>
      hap _ (hdocs (hperm.subset ha) hva) (hdocs (hperm.subset hb) hvb))
    (hsorted.imp fun hab _ _ => hab)
  rw [segChain_eq, segChain_eq, filterMap_reverse, filterMap_reverse, heq]

lemma load_file {seg : Segment} (h : seg.handle = sm.handle) : seg.file.load sm = seg := by
  obtain ⟨hid, hmin, hmax⟩ : seg.id = sm.id ∧ seg.minDocid = sm.minDocid ∧
      seg.maxDocid = sm.maxDocid := by
    simpa [Segment.handle, SegMeta.handle] using h
  rw [SegFile.load, ← hid, ← hmin, ← hmax]
  rfl

/-- An entry of the MANIFEST opens as the segment it was written for. -/
lemma SegsOk.openSegment_eq (h : SegsOk s) (hsm : sm ∈ s.man.segments) :
    ∃ seg ∈ s.segs, openSegment s.files sm = some seg ∧ seg.handle = sm.handle := by
  obtain ⟨seg, hseg, heq⟩ := mem_map.1 (h.metas.subset (mem_map_of_mem hsm))
  have hlookup : KWay.lookup Segment.id sm.id s.segs = some seg :=
    KWay.StrictRun.lookup_eq_some_iff h.sorted |>.2 ⟨hseg, congrArg Prod.fst heq⟩
  refine ⟨seg, hseg, ?_, heq⟩
  rw [openSegment, files, hlookup, map_some, map_some, load_file heq]

/-- `Open` finds all live segments, in an order with the same chains. -/
lemma exists_opened (h : SegsOk s) (hm : ManifestOrdered s) :
    ∃ segs, s.man.segments.mapM (openSegment s.files) = some segs ∧ segs.Perm s.segs ∧
      segs.Pairwise fun a b => a.id < b.id ∨ a.Apart b := by
  refine ⟨s.man.segments.filterMap (openSegment s.files), ?_, ?_, ?_⟩
  · refine ListScan.mapM_eq_filterMap fun sm hsm => ?_
    obtain ⟨seg, -, heq, -⟩ := h.openSegment_eq hsm
    simp [heq]
  · -- both lists are the segments looked up by the handles of the MANIFEST
    let find (x : ℕ × DocId × DocId) := KWay.lookup Segment.id x.1 s.segs
    have hfind : ∀ seg ∈ s.segs, find seg.handle = some seg := fun seg hseg =>
      KWay.StrictRun.lookup_eq_some_iff h.sorted |>.2 ⟨hseg, rfl⟩
    calc s.man.segments.filterMap (openSegment s.files)
        = (s.man.segments.map SegMeta.handle).filterMap find := by
          rw [filterMap_map]
          refine filterMap_congr fun sm hsm => ?_
          obtain ⟨seg, hseg, heq, hhandle⟩ := h.openSegment_eq hsm
          rw [heq, Function.comp, ← hhandle, hfind seg hseg]
      _ |>.Perm ((s.segs.map Segment.handle).filterMap find) := h.metas.filterMap find
      _ = s.segs := by
          rw [filterMap_map, filterMap_congr (f := find ∘ Segment.handle) hfind,
            filterMap_some]
  · refine Pairwise.filterMap _ (fun a b hab x hx y hy => ?_) (Pairwise.and_mem.1 hm)
    obtain ⟨ha, hb, hab⟩ := hab
    obtain ⟨x', hx', hax, hxa⟩ := h.openSegment_eq ha
    obtain ⟨y', hy', hby, hyb⟩ := h.openSegment_eq hb
    obtain rfl := some.inj (hax.symm.trans hx)
    obtain rfl := some.inj (hby.symm.trans hy)
    have hxid : x'.id = a.id := congrArg Prod.fst hxa
    have hyid : y'.id = b.id := congrArg Prod.fst hyb
    rw [hxid, hyid]
    exact hab.imp_right fun hap => hap x' hx' hxid y' hy' hyid

lemma allSpilled_of_empty (hhead : s.head = ∅) (hspilling : s.spilling = []) : s.AllSpilled :=
  ⟨hspilling, by simp [hhead, GoMap.values]⟩

/-- A reopened store, before orphaned tables are reclaimed, has the versions the store was closed
with. -/
lemma chain_opened (h : SegsOk s) (hq : s.AllSpilled) (hperm : segs.Perm s.segs)
    (hord : segs.Pairwise fun a b => a.id < b.id ∨ a.Apart b) (live : GoMap TableId ℤ) (t : TableId)
    (d : DocId) : (opened s.man segs live).chain t d = s.chain t d := by
  rw [(allSpilled_of_empty (s := opened s.man segs live) rfl rfl).chain_eq, hq.chain_eq]
  exact segChain_eq_of_perm h.wf hperm h.sorted hord (tid t) d

lemma headsOk_of_empty (hhead : s.head = ∅) (hspilling : s.spilling = []) : HeadsOk s :=
  ⟨by simp [hhead], by simp [hspilling]⟩

lemma readable_opened (h : Sound opts s) (hq : s.AllSpilled) (hperm : segs.Perm s.segs)
    (hord : segs.Pairwise fun a b => a.id < b.id ∨ a.Apart b) (live : GoMap TableId ℤ) :
    Readable (opened s.man segs live) where
  heads := headsOk_of_empty rfl rfl
  wf seg hseg := h.segs.wf seg (hperm.subset hseg)
  closed seg hseg := h.segs.closed seg (hperm.subset hseg)
  chain t ht d := by
    rw [chain_opened h.segs hq hperm hord]
    exact h.chain (h.tables t ht) d

/-- The selection of a covering merge of all live segments. -/
def covering (s : Store) : Store :=
  s.reserve (s.man.segments.map SegMeta.id) (s.man.segments.foldl (fun m sm => max m sm.level) 0)
    true (some s.man.tables)

lemma selectCovering_eq (s : Store) (hplan : s.plan = none) (hne : s.man.segments ≠ []) :
    s.selectCoveringMergePlan true false = some s.covering := by
  simp [selectCoveringMergePlan, hplan, hne, covering]

/-- The covering merge of the opened segments is that of the segments in the order of their ids. -/
lemma exists_coveringMerge (h : Sound opts s) (hne : s.man.segments ≠ []) (hperm : segs.Perm s.segs)
    (live : GoMap TableId ℤ) :
    ∃ s₂ s₃, (opened s.man segs live).coveringMerge opts = some s₂ ∧
      step opts s.covering .installMerge = some s₃ ∧ s₂.man = s₃.man ∧ s₂.segs = s₃.segs ∧
      (s₂.head = ∅ ∧ s₂.spilling = []) ∧ s₃.head = s.head ∧ s₃.spilling = s.spilling := by
  set ids := s.man.segments.map SegMeta.id with hids
  have hinputs : (opened s.man segs live).segsByIds ids = s.segsByIds ids := by
    have hsorted := h.segs.sorted.filter fun seg => decide (seg.id ∈ ids)
    exact (StableSort.sortBy_eq_of_perm _ (hperm.filter _) hsorted).trans
      (StableSort.sortBy_eq_of_perm _ (Perm.refl _) hsorted).symm
  have hrest : ∀ l : List Segment, (∀ seg ∈ l, seg ∈ s.segs) →
      (l.filter fun seg => seg.id ∉ ids) = [] := by
    intro l hl
    refine filter_eq_nil_iff.2 fun seg hseg => ?_
    simp only [decide_eq_true_eq, not_not]
    exact h.segs.id_mem (hl seg hseg)
  have hwf : ∀ seg ∈ s.segsByIds ids, seg.WF := fun seg hseg =>
    h.segs.wf seg (mem_of_mem_segsByIds hseg)
  obtain ⟨res, hres⟩ : ∃ res, mergeSegments opts (s.segsByIds ids) s.man.nextSegId
      (s.man.segments.foldl (fun m sm => max m sm.level) 0) true (some s.man.tables) = some res :=
    exists_mergeSegments hwf
  refine ⟨(opened s.man segs live).covering.swapMerged ids res, s.covering.swapMerged ids res,
    ?_, ?_, rfl, ?_, ⟨rfl, rfl⟩, rfl, rfl⟩
  · unfold coveringMerge
    rw [selectCovering_eq (opened s.man segs live) rfl hne]
    change (mergeSegments opts ((opened s.man segs live).segsByIds ids) _ _ _ _).map _ = _
    rw [hinputs]
    exact congrArg _ hres
  · exact congrArg (Option.map _) hres
  · simp only [swapMerged, covering, reserve, opened]
    rw [hrest segs fun seg hseg => hperm.subset hseg, hrest s.segs fun _ => id]

/-! ### The answers after a reopen -/

section Run

variable {tables : List TableId} {next : TableId} {ls ls' : List Label} {s₁ : Store}

lemma tables_closing (h : Gate opts s) {l : Label} (hl : l.Closing)
    (hs : step opts s l = some s') : s'.man.tables = s.man.tables := by
  cases l with
  | releaseGate => exact some.inj hs ▸ rfl
  | installSpill i next =>
    obtain ⟨e, n, -, rfl | ⟨t, x, -, -, rfl⟩⟩ := h.install_cases hs <;> rfl
  | spill t =>
    cases hs
    obtain heq | ⟨x, -, heq⟩ := spill_cases opts s t <;> rw [heq]
    rfl
  | selectTiered =>
    obtain ⟨-, l, ids, -, rfl⟩ := selectTiered_cases hs
    rfl
  | selectCovering force dead =>
    obtain ⟨-, level, rfl⟩ := selectCovering_cases hs
    rfl
  | installMerge =>
    obtain ⟨p, res, -, -, rfl⟩ := installMerge_cases hs
    rfl
  | _ => exact hl.elim

/-- Closing changes no newest version. -/
lemma words_close (h : Sound opts s) (hm : ManifestOrdered s)
    (hclose : StepSystem.Run (step opts) (fun s l => l.Closing ∧ ReopenOk opts s l) s ls' s₁) :
    Sound opts s₁ ∧ ManifestOrdered s₁ ∧ s₁.man.tables = s.man.tables ∧
      ∀ t ∈ s.man.tables, ∀ d, s₁.words t d = s.words t d := by
  refine hclose.invariant (I := fun _ s₁ => Sound opts s₁ ∧ ManifestOrdered s₁ ∧
    s₁.man.tables = s.man.tables ∧ ∀ t ∈ s.man.tables, ∀ d, s₁.words t d = s.words t d)
    ⟨h, hm, rfl, fun _ _ _ => rfl⟩ ?_
  rintro _ s₁ l s₁' ⟨h₁, hm₁, htables, hwords⟩ ⟨hl, hok⟩ hs
  obtain ⟨h₂, -, hwords₂⟩ := sound_step h₁ hok.1 hs
  have htables₂ := tables_closing h₁.gate hl hs
  refine ⟨h₂, manifestOrdered_step hm₁ h₁ hok hs, htables₂.trans htables, fun t ht d => ?_⟩
  have hops : opsOf [l] = [] := by cases l <;> first | rfl | exact hl.elim
  rw [hwords₂ t (by rwa [htables₂, htables]) d, hops, ← hwords t ht d]
  rfl

/-- A clean close completes, and after it a reopen gives every answer there was before, if the steps
meet the condition. -/
theorem reopen_run (htables : ∀ t ∈ tables, Fits t)
    (hrun : StepSystem.Run (step opts) (ReopenOk opts) (empty tables next) ls s) :
    (∃ ls' s₁, StepSystem.Run (step opts) (fun s l => l.Closing ∧ StepOk opts s l) s ls' s₁ ∧
      s₁.Quiet) ∧
    ∀ {ls' s₁}, StepSystem.Run (step opts) (fun s l => l.Closing ∧ ReopenOk opts s l) s ls' s₁ →
      s₁.Quiet → ∃ s₂, openStore opts s₁.man s₁.files = some s₂ ∧
        ∀ t ∈ s.man.tables, SameAnswers s s₂ t := by
  obtain ⟨h, hf, hm⟩ := hrun.invariant (I := fun _ s => Sound opts s ∧ Fresh s ∧ ManifestOrdered s)
    ⟨sound_empty htables next, by simp [Fresh, empty, opened],
      by simp [ManifestOrdered, empty, opened]⟩
    fun ⟨h, hf, hm⟩ hok hs => ⟨(sound_step h hok.1 hs).1, fresh_step hf h hok.1 hok.2.1 hs,
      manifestOrdered_step hm h hok hs⟩
  refine ⟨exists_close h hf, fun {ls' s₁} hclose hq => ?_⟩
  obtain ⟨h₁, hm₁, htables₁, hwords₁⟩ := words_close h hm hclose
  obtain ⟨segs, hsegs, hperm, hord⟩ := exists_opened h₁.segs hm₁
  set s₂ := opened s₁.man segs (opened s₁.man segs ∅).recomputeLive with hs₂
  have hopen : openStore opts s₁.man s₁.files = s₂.reclaimOrphanTables opts := by
    rw [openStore, hsegs]
    rfl
  rw [hopen, reclaimOrphanTables]
  split
  case isFalse =>
    refine ⟨s₂, rfl, fun t ht => sameAnswers_of_words h.readable
      (readable_opened h₁ hq.1 hperm hord _) ht (htables₁ ▸ ht) fun d => ?_⟩
    rw [← hwords₁ t ht d, words, chain_opened h₁.segs hq.1 hperm hord, words]
  case isTrue horphan =>
    have hplan : s₁.plan = none := by simpa using hq.2.2
    have hne : s₁.man.segments ≠ [] := by
      rintro hnil
      simp [hs₂, opened, hasOrphan, hnil] at horphan
    obtain ⟨s₃, s₄, hcov, hinstall, hman, hsegs₃, ⟨hhead, hspilling⟩, hhead₄, hspilling₄⟩ :=
      exists_coveringMerge h₁ hne hperm (opened s₁.man segs ∅).recomputeLive
    have hselect : step opts s₁ (.selectCovering true false) = some s₁.covering :=
      selectCovering_eq s₁ hplan hne
    obtain ⟨hsel, -, hwsel⟩ := sound_step h₁ (l := .selectCovering true false) trivial hselect
    obtain ⟨h₄, -, hw₄⟩ := sound_step hsel (l := .installMerge) trivial hinstall
    have htables₄ : s₄.man.tables = s₁.man.tables :=
      tables_closing (s := s₁.covering) (l := .installMerge) hsel.gate trivial hinstall
    have hsp₄ : s₄.AllSpilled := ⟨hspilling₄ ▸ hq.1.1, hhead₄ ▸ hq.1.2⟩
    have hchain : ∀ t d, s₃.chain t d = s₄.chain t d := fun t d => by
      rw [(allSpilled_of_empty hhead hspilling).chain_eq, hsp₄.chain_eq, hsegs₃]
    have hreadable : Readable s₃ := ⟨headsOk_of_empty hhead hspilling, hsegs₃ ▸ h₄.segs.wf,
      hsegs₃ ▸ h₄.segs.closed, fun t ht d => hchain t d ▸ h₄.chain (h₄.tables t (hman ▸ ht)) d⟩
    refine ⟨s₃, hcov, fun t ht => sameAnswers_of_words h.readable hreadable ht
      (by rwa [hman, htables₄, htables₁]) fun d => ?_⟩
    have ht₁ : t ∈ s₁.man.tables := htables₁ ▸ ht
    rw [words, hchain]
    exact (hw₄ t (htables₄ ▸ ht₁) d).trans ((hwsel t ht₁ d).trans (hwords₁ t ht d))

end Run

/-- A document is posted while a merge of the segments of another one is in progress; a second table
is dropped. -/
def mergingRun : List Label :=
  [.apply [⟨1, 1, [[97]]⟩, ⟨2, 1, [[97]]⟩], .spill 1, .spill 2, .selectTiered,
    .apply [⟨1, 2, [[98]]⟩], .spill 1, .deleteTable 2, .apply [⟨1, 1, [[99]]⟩]]

/-- The merge is installed after the spill of the head. -/
def mergingClose : List Label :=
  [.releaseGate, .installMerge, .spill 1]

theorem reopen_run_merging : ∃ s s₁ s₂,
    StepSystem.Run (step (.singleBlock 1000 2 (by decide) (by decide)))
      (ReopenOk (.singleBlock 1000 2 (by decide) (by decide))) (empty [1, 2] 3) mergingRun s ∧
    StepSystem.Run (step (.singleBlock 1000 2 (by decide) (by decide)))
      (fun s l => l.Closing ∧ ReopenOk (.singleBlock 1000 2 (by decide) (by decide)) s l)
      s mergingClose s₁ ∧ s₁.Quiet ∧
    openStore (.singleBlock 1000 2 (by decide) (by decide)) s₁.man s₁.files = some s₂ ∧
      SameAnswers s s₂ 1 := by
  set opts : Options := .singleBlock 1000 2 (by decide) (by decide)
  have hexec : (exec (step opts) (ReopenOk opts) (empty [1, 2] 3) mergingRun).any
      (fun s => 1 ∈ s.man.tables ∧ (exec (step opts)
        (fun s l => l.Closing ∧ ReopenOk opts s l) s mergingClose).any Quiet) = true := by
    decide +kernel
  obtain ⟨s, hs, hdec⟩ := (any_eq_true _ _).1 hexec
  obtain ⟨ht, hclose⟩ := of_decide_eq_true hdec
  obtain ⟨s₁, hs₁, hq⟩ := (any_eq_true _ _).1 hclose
  have hrun := Run.of_exec hs
  have hrun₁ := Run.of_exec hs₁
  obtain ⟨s₂, hopen, hsame⟩ := (reopen_run (by decide) hrun).2 hrun₁ (of_decide_eq_true hq)
  exact ⟨s, s₁, s₂, hrun, hrun₁, of_decide_eq_true hq, hopen, hsame 1 ht⟩

end Store

/-- Document 1 is posted again and spilled as segment 4 while the merge of segments 1 and 2 into
segment 3 is in progress. The MANIFEST then lists 4 before 3. -/
def overtakenMergeRun : List Label :=
  [.apply [⟨1, 1, [[97]]⟩], .spill 1,
    .apply [⟨1, 2, [[99], [100], [101], [102], [103], [104]]⟩], .spill 1,
    .selectTiered, .apply [⟨1, 1, [[98]]⟩], .spill 1, .installMerge]

theorem reopen_stale : ∃ s s₁ s₂,
    StepSystem.Run (step (.singleBlock 1000 2 (by decide) (by decide))) (fun _ l => l.Plain)
      (Store.empty [1] 2) overtakenMergeRun s ∧
    StepSystem.Run (step (.singleBlock 1000 2 (by decide) (by decide))) (fun _ l => l.Closing)
      s [.releaseGate] s₁ ∧ s₁.Quiet ∧
    Store.openStore (.singleBlock 1000 2 (by decide) (by decide)) s₁.man s₁.files = some s₂ ∧
      1 ∈ s.man.tables ∧ (1 : DocId) ∉ s.getDocs 1 [97] ∧ (1 : DocId) ∈ s₂.getDocs 1 [97] := by
  set opts : Options := .singleBlock 1000 2 (by decide) (by decide)
  have hexec : (exec (step opts) (fun _ l => l.Plain) (Store.empty [1] 2)
      overtakenMergeRun).any (fun s => 1 ∈ s.man.tables ∧ (1 : DocId) ∉ s.getDocs 1 [97] ∧
        (exec (step opts) (fun _ l => l.Closing) s [.releaseGate]).any (fun s₁ => s₁.Quiet ∧
          (Store.openStore opts s₁.man s₁.files).any
            (fun s₂ => (1 : DocId) ∈ s₂.getDocs 1 [97]))) = true := by
    decide +kernel
  obtain ⟨s, hs, hdec⟩ := (any_eq_true _ _).1 hexec
  obtain ⟨ht, hbefore, hclose⟩ := of_decide_eq_true hdec
  obtain ⟨s₁, hs₁, hdec₁⟩ := (any_eq_true _ _).1 hclose
  obtain ⟨hq, hopen⟩ := of_decide_eq_true hdec₁
  obtain ⟨s₂, hs₂, hafter⟩ := (any_eq_true _ _).1 hopen
  exact ⟨s, s₁, s₂, Run.of_exec hs, Run.of_exec hs₁, hq, hs₂, ht, hbefore,
    of_decide_eq_true hafter⟩

end Haystack.InvertedStore
