import Haystack.InvertedStore.Invariant

/-!
# Every step keeps the invariant

Spills move a version from one source to the next without changing any chain. A merge replaces the
versions of its inputs by one; an operation puts a new version on top of one chain. The words of the
newest version therefore change only by operations, and a run leaves those of the last operation.
-/

namespace Haystack.InvertedStore

open List

namespace Store

variable {opts : Options} {s s' : Store} {t : TableId} {p : MergePlan} {x : HeadTable}
  {ids : List ℕ} {seg : Segment} {op : UpdateOp} {ops : List UpdateOp} {tables : List TableId}

/-! ### Spills -/

lemma version_new (d : DocId) : newHeadTable.layer.version d = none := rfl

/-- The head of a table; a table without a head behaves like one with an empty head. -/
def headD (s : Store) (t : TableId) : HeadTable :=
  (s.head.lookup t).getD newHeadTable

/-- The head of the table first, then its detached heads. -/
lemma headChain_eq (s : Store) (t : TableId) (d : DocId) :
    s.headChain t d = ((s.headD t).layer.version d).toList ++
      (s.spilling.reverse.filter fun e => e.tableId = t).filterMap
        fun e => e.head.layer.version d := by
  rw [headChain, heads, filterMap_append, filterMap_map, headD]
  congr 1
  cases hl : s.head.lookup t with
  | none => rfl
  | some h => cases hv : h.layer.version d <;> simp [hv]

variable (s') in
lemma headD_insert {head : GoMap TableId HeadTable} (hs : s'.head = head.insert t x)
    (t' : TableId) : s'.headD t' = if t' = t then x else (head.lookup t').getD newHeadTable := by
  rw [headD, hs, GoMap.lookup_insert_if]
  split <;> rfl

/-- A new segment with the next id. -/
lemma SegsOk.append (h : SegsOk s) (sm : SegMeta) (hsegs : s'.segs = s.segs ++ [seg])
    (hmetas : s'.man.segments = s.man.segments ++ [sm])
    (hnext : s'.man.nextSegId = s.man.nextSegId + 1) (hplan : s'.plan = s.plan)
    (htables : s'.man.tables = s.man.tables) (hsm : sm.handle = seg.handle)
    (hid : seg.id = s.man.nextSegId) (hwf : seg.WF) (hclosed : ∀ t, (seg.layer t).Closed) :
    SegsOk s' := by
  have hmem : ∀ {x}, x ∈ s'.segs ↔ x ∈ s.segs ∨ x = seg := by simp [hsegs]
  refine ⟨fun x hx => ?_, fun x hx => ?_, ?_, fun x hx => ?_, ?_, fun p hp => ?_⟩
  · rcases hmem.1 hx with hx | rfl
    exacts [h.wf x hx, hwf]
  · rw [hnext]
    rcases hmem.1 hx with hx | rfl
    exacts [(h.id_lt x hx).trans (Nat.lt_succ_self _), hid ▸ Nat.lt_succ_self _]
  · rw [hsegs, pairwise_append]
    exact ⟨h.sorted, by simp, fun x hx y hy => by
      rw [mem_singleton.1 hy, hid]; exact h.id_lt x hx⟩
  · rcases hmem.1 hx with hx | rfl
    exacts [h.closed x hx, hclosed]
  · rw [hsegs, hmetas, map_append, map_append]
    exact h.metas.append (by simp [hsm])
  · -- the new segment lies above the reserved id of a plan
    have hp := h.plan p (hplan ▸ hp)
    have hnew : seg.id ∉ p.inputIds := fun hin =>
      absurd ((hp.inputs_lt _ hin).trans hp.out_lt) (by rw [hid]; exact lt_irrefl _)
    have hout : p.outId < seg.id := hid ▸ hp.out_lt
    refine ⟨?_, hp.inputs_lt, by rw [hnext]; exact hp.out_lt.trans (Nat.lt_succ_self _),
      fun x hx => ?_, fun old hold hin new hn hnot hlt hlt' => ?_, fun hc => ⟨fun x hx hlt => ?_, ?_⟩⟩
    · rw [hp.segs, hsegs, filter_append]
      simp [hnew]
    · rcases hmem.1 hx with hx | rfl
      exacts [hp.out_new x hx, hout.ne']
    · rcases hmem.1 hn with hn | rfl
      · rcases hmem.1 hold with hold | rfl
        · exact hp.ordered old hold hin new hn hnot hlt hlt'
        · exact absurd hin hnew
      · exact absurd hlt' hout.asymm
    · rcases hmem.1 hx with hx | rfl
      · exact (hp.covering hc).1 x hx hlt
      · exact absurd hlt hout.asymm
    · rw [htables]
      exact (hp.covering hc).2

/-- The segment of a head recorded by `recordSpill`. -/
lemma SegsOk.appendSpill (h : SegsOk s) {head : HeadTable} (hwf : head.WF)
    (hsegs : s'.segs = s.segs ++ [encodeHeadToFile opts head t s.man.nextSegId])
    (hman : s'.man = s.recordSpill head t) (hplan : s'.plan = s.plan) : SegsOk s' :=
  h.append (spillSegMeta head s.man.nextSegId t) hsegs (by rw [hman]; rfl)
    (by rw [hman]; rfl) hplan (by rw [hman]; rfl) rfl rfl
    (wf_encodeHeadToFile opts t _ hwf.toEncodable)
    (closed_encodeHeadToFile opts hwf.toEncodable t _ hwf.closed)

lemma sort_append (h : SegsOk s) (hid : seg.id = s.man.nextSegId) :
    sortSegmentsById (s.segs ++ [seg]) = s.segs ++ [seg] := by
  refine StableSort.sortBy_eq_of_perm _ (Perm.refl _) (pairwise_append.2
    ⟨h.sorted, by simp, fun x hx y hy => ?_⟩)
  rw [mem_singleton.1 hy, hid]
  exact h.id_lt x hx

/-- Detaching a head while nothing is detached. -/
lemma chain_detachHead (hsp : s.spilling = []) (t t' : TableId) (d : DocId) :
    (s.detachHead t').chain t d = s.chain t d := by
  have hhead : (s.detachHead t').headChain t d = s.headChain t d := by
    rw [headChain_eq, headChain_eq, headD_insert (s.detachHead t') rfl]
    by_cases ht : t = t'
    · subst ht
      rw [headD]
      cases hv : ((s.head.lookup t).getD newHeadTable).layer.version d <;>
        simp [detachHead, hsp, version_new, hv]
    · simp [detachHead, hsp, ht, Ne.symm ht, headD]
  rw [chain, hhead]
  rfl

lemma HeadsOk.detachHead (h : HeadsOk s) (ht : Fits t) :
    HeadsOk (s.detachHead t) where
  head {t' h'} hl := by
    simp only [Store.detachHead, GoMap.lookup_insert_if] at hl
    split at hl
    case isTrue heq => exact ⟨heq ▸ ht, Option.some.inj hl ▸ HeadTable.wf_new⟩
    case isFalse => exact h.head hl
  spilling e he := by
    simp only [Store.detachHead, mem_append, mem_singleton] at he
    rcases he with he | rfl
    · exact h.spilling e he
    · refine ⟨ht, ?_⟩
      cases hl : s.head.lookup t with
      | none => exact HeadTable.wf_new
      | some x => exact (h.head hl).2

/-- What a step may do to the chains of a sound store: nothing. -/
structure KeepsChains (opts : Options) (s s' : Store) : Prop where
  sound : Sound opts s'
  tables : ∀ t ∈ s'.man.tables, t ∈ s.man.tables
  chain : ∀ {t}, Fits t → ∀ d, s'.chain t d = s.chain t d

/-- An install: the detached head becomes a segment, and another head may be detached. -/
lemma keepsChains_installSpill (h : Sound opts s) {i : ℕ} {next : Option TableId}
    (hs : s.installSpill opts i next = some s') : KeepsChains opts s s' := by
  have hgate : Gate opts s' := gate_step h.gate (l := .installSpill i next) hs
  obtain ⟨e, n, hb, hcases⟩ := h.gate.install_cases hs
  obtain ⟨hfits, hwf⟩ := h.heads.spilling e (by simp [hb.spilling])
  set mid := (s.publishSpill opts e).ended with hmid
  have hsegs : mid.segs = s.segs ++ [encodeHeadToFile opts e.head e.tableId s.man.nextSegId] :=
    sort_append h.segs rfl
  have hsegsOk : SegsOk mid := h.segs.appendSpill hwf hsegs rfl rfl
  have hheadsOk : HeadsOk mid := ⟨h.heads.head, by simp [hmid, ended]⟩
  have hchain : ∀ {t}, Fits t → ∀ d, mid.chain t d = s.chain t d := by
    intro t ht d
    rw [Store.chain, Store.chain, headChain_eq, headChain_eq, hsegs, segChain_append,
      segChain_encodeHeadToFile opts hwf.toEncodable _ _ hfits ht, hb.spilling]
    change ((s.headD t).layer.version d).toList ++ [] ++ _ = _
    by_cases heq : t = e.tableId
    · cases hv : e.head.layer.version d <;> simp [heq, hv]
    · simp [heq, Ne.symm heq]
  obtain rfl | ⟨t, x, hl, -, rfl⟩ := hcases
  · exact ⟨h.of_chain_eq hgate hheadsOk hsegsOk (fun _ => id) hchain, fun _ => id, hchain⟩
  · have hfits' : Fits t := (h.heads.head hl).1
    have hchain' : ∀ {t'}, Fits t' → ∀ d, (mid.detachHead t).chain t' d = s.chain t' d :=
      fun ht' d => (chain_detachHead rfl _ _ d).trans (hchain ht' d)
    exact ⟨h.of_chain_eq hgate (hheadsOk.detachHead hfits')
      (hsegsOk.congr rfl rfl rfl rfl fun _ => id) (fun _ => id) hchain', fun _ => id, hchain'⟩

lemma HeadsOk.wf_getD (h : HeadsOk s) (t : TableId) :
    ((s.head.lookup t).getD newHeadTable).WF := by
  cases hl : s.head.lookup t with
  | none => exact HeadTable.wf_new
  | some x => exact (h.head hl).2

/-- The state after a head is spilled synchronously. -/
def spilled (opts : Options) (s : Store) (t : TableId) (x : HeadTable) : Store :=
  { s with
    man := s.recordSpill x t
    segs := s.segs ++ [encodeHeadToFile opts x t s.man.nextSegId]
    head := s.head.insert t newHeadTable }

lemma spill_cases (opts : Options) (s : Store) (t : TableId) :
    s.spill opts t = s ∨ ∃ x, s.head.lookup t = some x ∧ s.spill opts t = s.spilled opts t x := by
  simp only [Store.spill]
  split
  case isTrue => exact .inl rfl
  case isFalse hne =>
    cases hl : s.head.lookup t with
    | none => simp [hl, HeadTable.isEmpty, newHeadTable] at hne
    | some x => exact .inr ⟨x, rfl, rfl⟩

lemma HeadsOk.spilled (h : HeadsOk s) (hl : s.head.lookup t = some x) :
    HeadsOk (s.spilled opts t x) := by
  refine ⟨fun {t' h'} hl' => ?_, h.spilling⟩
  simp only [Store.spilled, GoMap.lookup_insert_if] at hl'
  split at hl'
  case isTrue heq => exact ⟨heq ▸ (h.head hl).1, Option.some.inj hl' ▸ HeadTable.wf_new⟩
  case isFalse => exact h.head hl'

/-- A detached head without documents of `x` has no version of a document of `x`. -/
lemma version_eq_none_of_ordered {x y : HeadTable} (hord : ∀ d ∈ x.docs, d ∉ y.docs) {d : DocId}
    {v : Version Keyword} (hv : x.layer.version d = some v) : y.layer.version d = none := by
  obtain ⟨ws, hws, -⟩ := Option.map_eq_some_iff.1 hv
  have hx : d ∈ x.docs := HeadTable.mem_docs_iff.2 (Option.isSome_iff_exists.2 ⟨ws, hws⟩)
  have hy : y.rec? d = none := by simpa [HeadTable.mem_docs_iff] using hord d hx
  exact Layer.version_eq_none.2 hy

/-- A synchronous spill. The head moves below the detached head of its table, which changes no chain
if they have no document in common. -/
lemma keepsChains_spill (h : Sound opts s) (hord : s.SpillOrdered t) :
    KeepsChains opts s (s.spill opts t) := by
  have hgate := gate_spill h.gate t
  obtain heq | ⟨x, hl, heq⟩ := spill_cases opts s t
  · rw [heq]
    exact ⟨h, fun _ => id, fun _ _ => rfl⟩
  rw [heq] at hgate ⊢
  obtain ⟨hfits, hwf⟩ := h.heads.head hl
  simp only [SpillOrdered, hl, Option.getD_some] at hord
  have hheads : HeadsOk (s.spilled opts t x) := h.heads.spilled hl
  have hsegs : SegsOk (s.spilled opts t x) := h.segs.appendSpill hwf rfl rfl rfl
  have hchain : ∀ {t'}, Fits t' → ∀ d, (s.spilled opts t x).chain t' d = s.chain t' d := by
    intro t' ht' d
    rw [Store.chain, Store.chain, headChain_eq, headChain_eq,
      headD_insert (s.spilled opts t x) rfl]
    simp only [spilled, segChain_append,
      segChain_encodeHeadToFile opts hwf.toEncodable _ _ hfits ht', headD]
    by_cases heq : t' = t
    · subst heq
      simp only [if_true, version_new, Option.toList_none, nil_append, hl, Option.getD_some]
      cases hv : x.layer.version d with
      | none => simp
      | some v =>
        have hnil : (s.spilling.reverse.filter fun e => e.tableId = t').filterMap
            (fun e => e.head.layer.version d) = [] := by
          refine filterMap_eq_nil_iff.2 fun e he => ?_
          obtain ⟨he, ht⟩ := mem_filter.1 he
          exact version_eq_none_of_ordered
            (hord e (mem_reverse.1 he) (by simpa using ht)) hv
        rw [hnil]
        rfl
    · simp [heq]
  exact ⟨h.of_chain_eq hgate hheads hsegs (fun _ => id) hchain, fun _ => id, hchain⟩

/-! ### Merges -/

lemma SegsOk.mergeable (h : SegsOk s) (hp : PlanOk s p) : Mergeable s.segs p.inputIds p.outId :=
  ⟨h.wf, h.sorted, h.closed, fun _ _ hin => hp.inputs_lt _ hin, hp.out_new, hp.ordered⟩

/-- The inputs of a plan. -/
lemma SegsOk.inputs (h : SegsOk s) (hp : PlanOk s p) :
    (∀ seg ∈ p.segs, seg.WF) ∧ Closed p.segs := by
  have hmem : ∀ seg ∈ p.segs, seg ∈ s.segs := fun seg hseg =>
    mem_of_mem_filter (hp.segs ▸ hseg)
  exact ⟨fun seg hseg => h.wf seg (hmem seg hseg), fun seg hseg => h.closed seg (hmem seg hseg)⟩

/-- The ids a plan selects from the MANIFEST are ids of live segments. -/
lemma SegsOk.exists_seg (h : SegsOk s) {sm : SegMeta} (hsm : sm ∈ s.man.segments) :
    ∃ seg ∈ s.segs, seg.id = sm.id := by
  have := h.metas.subset (mem_map_of_mem hsm)
  obtain ⟨seg, hseg, heq⟩ := mem_map.1 this
  exact ⟨seg, hseg, congrArg Prod.fst heq⟩

lemma SegsOk.id_mem (h : SegsOk s) (hseg : seg ∈ s.segs) :
    seg.id ∈ s.man.segments.map SegMeta.id := by
  obtain ⟨sm, hsm, heq⟩ := mem_map.1 (h.metas.symm.subset (mem_map_of_mem hseg))
  exact mem_map.2 ⟨sm, hsm, congrArg Prod.fst heq⟩

/-- Selecting a merge over segments in an order the output can take. -/
lemma SegsOk.reserve (h : SegsOk s) (hids : ∀ i ∈ ids, ∃ seg ∈ s.segs, seg.id = i)
    (hord : s.MergeOrdered ids) {level : ℕ} {covering : Bool} {liveTables : Option (List TableId)}
    (hcov : covering = true → (∀ seg ∈ s.segs, seg.id ∈ ids) ∧
      ∀ t ∈ s.man.tables, isTableLive liveTables (tid t) = true) :
    SegsOk (s.reserve ids level covering liveTables) where
  wf := h.wf
  id_lt seg hseg := (h.id_lt seg hseg).trans (Nat.lt_succ_self _)
  sorted := h.sorted
  closed := h.closed
  metas := h.metas
  plan p hp := by
    cases hp
    have hlt : ∀ i ∈ ids, i < s.man.nextSegId := by
      intro i hi
      obtain ⟨seg, hseg, rfl⟩ := hids i hi
      exact h.id_lt seg hseg
    refine ⟨?_, hlt, Nat.lt_succ_self _, fun seg hseg => (h.id_lt seg hseg).ne,
      fun old ho hin new hn hnot hlt _ => hord old ho hin new hn hnot hlt,
      fun hc => ⟨fun seg hseg _ => (hcov hc).1 seg hseg, (hcov hc).2⟩⟩
    exact StableSort.sortBy_eq_of_perm _ (Perm.refl _) (h.sorted.filter _)

lemma exists_of_pick {l : ℕ} (h : s.pickLowestQualifyingLevel opts = some (l, ids)) :
    ∀ i ∈ ids, ∃ sm ∈ s.man.segments, sm.id = i := by
  obtain ⟨l', -, heq⟩ := Option.map_eq_some_iff.1 h
  obtain ⟨rfl, rfl⟩ := Prod.mk.inj heq
  intro i hi
  obtain ⟨sm, hsm, rfl⟩ := mem_map.1 hi
  exact ⟨sm, mem_of_mem_filter hsm, rfl⟩

lemma SegsOk.selectTiered (h : SegsOk s) {l : ℕ}
    (hpick : s.pickLowestQualifyingLevel opts = some (l, ids)) (hord : s.MergeOrdered ids) :
    SegsOk (s.reserve ids (l + 1) false none) := by
  refine h.reserve (fun i hi => ?_) hord (by simp)
  obtain ⟨sm, hsm, rfl⟩ := exists_of_pick hpick i hi
  exact h.exists_seg hsm

/-- A covering merge takes all live segments and keeps the tables of the catalog. -/
lemma Sound.segsOk_selectCovering (h : Sound opts s) (level : ℕ) :
    SegsOk (s.reserve (s.man.segments.map SegMeta.id) level true (some s.man.tables)) := by
  refine h.segs.reserve (fun i hi => ?_) ?_ fun _ => ⟨fun _ => h.segs.id_mem, fun t ht => ?_⟩
  · obtain ⟨sm, hsm, rfl⟩ := mem_map.1 hi
    exact h.segs.exists_seg hsm
  · exact fun old _ _ new hn hnot _ => absurd (h.segs.id_mem hn) hnot
  · have hfits : ofTid (tid t) = t := h.tables t ht
    simpa [isTableLive, hfits] using ht

lemma Sound.chainOk_inputs (h : Sound opts s) (hp : PlanOk s p) (t : UInt32) (d : DocId) :
    Version.ChainOk (segChain p.segs t d) := by
  obtain ⟨a, c, hsplit, -, -⟩ := (h.segs.mergeable hp).segChain_split t d
  have hok := h.chain (fits_ofTid t) d
  rw [Store.chain, tid_ofTid, hsplit, ← hp.segs] at hok
  exact hok.tail.tail.init

/-- The output of a merge on the chain of a document. A covering merge may drop the chain of a table
that is not in the catalog, but no more than that. -/
lemma chain_swapMerged (h : Sound opts s) (hp : PlanOk s p) {res : MergeResult}
    (hres : mergeSegments opts p.segs p.outId p.level p.covering p.liveTables = some res)
    (ht : Fits t) (d : DocId) :
    Version.ChainOk ((s.swapMerged p.inputIds res).chain t d) ∧
      (t ∈ s.man.tables → (s.swapMerged p.inputIds res).words t d = s.words t d) := by
  have hm := h.segs.mergeable hp
  obtain ⟨a, c, hsplit, hswap, hnil⟩ := hm.segChain_split (tid t) d
  obtain ⟨hwf, hclosed⟩ := h.segs.inputs hp
  have hbefore : s.chain t d = (s.headChain t d ++ a) ++ (segChain p.segs (tid t) d ++ c) := by
    rw [Store.chain, hsplit, hp.segs, append_assoc]
  have hafter : (s.swapMerged p.inputIds res).chain t d =
      (s.headChain t d ++ a) ++ (((res.seg.layer (tid t)).version d).toList ++ c) := by
    rw [append_assoc, ← hswap res.seg (id_mergeSegments hres).1]
    rfl
  have hok := h.chain ht d
  simp only [words, hafter, hbefore] at hok ⊢
  cases hcov : p.covering with
  | false =>
    rw [hcov] at hres
    rw [version_tiered hwf hclosed hres]
    exact ⟨hok.merge_block.1, fun _ => hok.merge_block.2⟩
  | true =>
    obtain ⟨hall, hlive⟩ := hp.covering hcov
    rw [hcov] at hres
    rw [version_covering hwf hclosed hres (h.chainOk_inputs hp _ d)]
    simp only [hnil hall, append_nil] at hok ⊢
    split
    case isTrue => exact ⟨hok.compact_block.1, fun _ => hok.compact_block.2⟩
    case isFalse hdead =>
      refine ⟨by simpa using hok.init, fun hmem => absurd (hlive t hmem) (by simpa using hdead)⟩

lemma segsOk_swapMerged (h : Sound opts s) (hp : PlanOk s p) {res : MergeResult}
    (hres : mergeSegments opts p.segs p.outId p.level p.covering p.liveTables = some res) :
    SegsOk (s.swapMerged p.inputIds res) := by
  obtain ⟨hwf, hclosed⟩ := h.segs.inputs hp
  obtain ⟨hid, hsmid, -, hmin, hmax⟩ := id_mergeSegments hres
  have hmem : ∀ {x}, x ∈ (s.swapMerged p.inputIds res).segs → x ∈ s.segs ∨ x = res.seg :=
    fun hx => (mem_swapMerged.1 hx).imp_left And.left
  refine ⟨fun x hx => ?_, fun x hx => ?_, ?_, fun x hx => ?_, ?_, by simp [swapMerged]⟩
  · rcases hmem hx with hx | rfl
    exacts [h.segs.wf x hx, wf_mergeSegments hwf hres]
  · rcases hmem hx with hx | rfl
    exacts [h.segs.id_lt x hx, hid ▸ hp.out_lt]
  · refine StableSort.pairwise_lt_sortBy _ ?_
    rw [map_append, nodup_append']
    refine ⟨?_, by simp, ?_⟩
    · exact pairwise_map.2 ((h.segs.sorted.filter _).imp fun hlt => hlt.ne)
    · simp only [map_cons, map_nil, disjoint_singleton, mem_map, not_exists,
        not_and, hid]
      exact fun x hx => hp.out_new x (mem_of_mem_filter hx)
  · rcases hmem hx with hx | rfl
    · exact h.segs.closed x hx
    · intro t
      cases hcov : p.covering with
      | false => exact closed_tiered hwf hclosed (hcov ▸ hres) t
      | true => exact closed_covering hwf hclosed (hcov ▸ hres) fun d => h.chainOk_inputs hp t d
  · have hperm := (StableSort.perm_sortBy Segment.id
      ((s.segs.filter fun seg => seg.id ∉ p.inputIds) ++ [res.seg])).map Segment.handle
    refine Perm.trans ?_ hperm.symm
    simp only [swapMerged, map_append]
    refine Perm.append ?_ (by simp [SegMeta.handle, Segment.handle, hid, hsmid, hmin, hmax])
    have hfilter := h.segs.metas.filter fun x => x.1 ∉ p.inputIds
    rw [filter_map, filter_map] at hfilter
    exact hfilter

/-! ### Operations -/

/-- The words of a document after operations. -/
def wordsAfter (ops : List UpdateOp) (t : TableId) (d : DocId) (ws : Finset Keyword) :
    Finset Keyword :=
  ops.foldl (fun ws op =>
    if op.tableId = t ∧ op.docid = d then op.keywords.toFinset else ws) ws

lemma wordsAfter_append (ops ops' : List UpdateOp) (t : TableId) (d : DocId) (ws : Finset Keyword) :
    wordsAfter (ops ++ ops') t d ws = wordsAfter ops' t d (wordsAfter ops t d ws) :=
  foldl_append

lemma wordsAfter_empty (ops : List UpdateOp) (t : TableId) (d : DocId) :
    wordsAfter ops t d ∅ = (lastKeywords ops t d).toFinset := by
  induction ops using reverseRecOn with
  | nil => rfl
  | append_singleton ops op ih =>
    rw [wordsAfter_append, ih]
    by_cases h : op.tableId = t ∧ op.docid = d <;> simp [wordsAfter, lastKeywords, h]

/-- A new version on top of a sound chain. -/
lemma chainOk_repost (hx : x.WF) {d : DocId} {rest : List (Version Keyword)}
    (hok : Version.ChainOk ((x.layer.version d).toList ++ rest)) (new : Finset Keyword) :
    Version.ChainOk (.repost (fun w => x.act w d)
      (Version.top ((x.layer.version d).toList ++ rest)) new :: rest) := by
  cases hr : x.rec? d with
  | none =>
    have hact : (fun w => x.act w d) = fun _ => none := funext fun w => hx.closed d w hr
    rw [Layer.version_eq_none.2 hr] at hok ⊢
    exact hact ▸ hok.repost_new new
  | some ws =>
    have hv : x.layer.version d = some ⟨ws, fun w => x.act w d⟩ := by
      simp [Layer.version, HeadTable.layer, hr]
    rw [hv] at hok ⊢
    exact hok.repost_top new

/-- The chain of the document of an operation gets a new top, the others stay. -/
lemma chain_post (h : Sound opts s) {old : List Keyword}
    (hold : old.toFinset = s.words op.tableId op.docid) (ht : Fits t) (d : DocId) :
    Version.ChainOk ((s.post op old).chain t d) ∧ (s.post op old).words t d =
      if op.tableId = t ∧ op.docid = d then op.keywords.toFinset else s.words t d := by
  set rest := (s.spilling.reverse.filter fun e => e.tableId = t).filterMap
    (fun e => e.head.layer.version d) ++ segChain s.segs (tid t) d with hrest
  have hbefore : s.chain t d = ((s.headD t).layer.version d).toList ++ rest := by
    rw [Store.chain, headChain_eq, append_assoc]
  have hafter : (s.post op old).chain t d =
      (((s.post op old).headD t).layer.version d).toList ++ rest := by
    rw [Store.chain, headChain_eq, append_assoc]
    rfl
  have hok := h.chain ht d
  simp only [words] at hold ⊢
  rw [hafter, headD_insert (s.post op old) rfl]
  by_cases heq : op.tableId = t ∧ op.docid = d
  · obtain ⟨rfl, rfl⟩ := heq
    rw [hbefore] at hok hold
    rw [if_pos rfl, HeadTable.version_post, hold]
    exact ⟨chainOk_repost (h.heads.wf_getD _) hok _, by simp [Version.repost]⟩
  · have hkeep : (if t = op.tableId then
        ((s.head.lookup op.tableId).getD newHeadTable).post op.docid op.keywords old
        else (s.head.lookup t).getD newHeadTable).layer.version d =
          (s.headD t).layer.version d := by
      by_cases htable : t = op.tableId
      · subst htable
        rw [if_pos rfl, HeadTable.version_post_of_ne _ fun hd => heq ⟨rfl, hd.symm⟩]
        rfl
      · rw [if_neg htable]
        rfl
    rw [hkeep, ← hbefore, if_neg heq]
    exact ⟨hok, rfl⟩

/-- The over-cap handling detaches only if nothing is detached. -/
lemma relieve_cases (opts : Options) (s : Store) (t : TableId) :
    s.relieve opts t = s ∨ s.relieve opts t = { s with blockProducer := true } ∨
      (s.spillInFlight = false ∧ s.relieve opts t = s.detachHead t) := by
  unfold relieve
  split
  · split
    case isTrue => exact .inr (.inl rfl)
    case isFalse hf => exact .inr (.inr ⟨by simpa using hf, rfl⟩)
  · exact .inl rfl

/-- An operation changes heads and counters only. -/
lemma applyOneOp_frame (opts : Options) (s : Store) (op : UpdateOp) (old : List Keyword) :
    (s.applyOneOp opts op old).man = s.man ∧ (s.applyOneOp opts op old).segs = s.segs ∧
      (s.applyOneOp opts op old).liveByTable = (s.post op old).liveByTable := by
  unfold Store.applyOneOp
  obtain heq | heq | ⟨-, heq⟩ := relieve_cases opts (s.post op old) op.tableId <;> rw [heq] <;>
    exact ⟨rfl, rfl, rfl⟩

lemma Gate.spilling_eq_nil (h : Gate opts s) (hf : s.spillInFlight = false) : s.spilling = [] := by
  cases h with
  | idle h => exact h.spilling
  | busy h => simp [h.inFlight] at hf

lemma HeadsOk.post (h : HeadsOk s) (hop : op.Valid) (old : List Keyword) :
    HeadsOk (s.post op old) := by
  refine ⟨fun {t x} hl => ?_, h.spilling⟩
  simp only [Store.post, GoMap.lookup_insert_if] at hl
  split at hl
  case isTrue heq =>
    exact ⟨heq ▸ hop.2, Option.some.inj hl ▸ (h.wf_getD _).post hop.1 _ _⟩
  case isFalse => exact h.head hl

/-- An operation that withdraws the right keywords. -/
theorem sound_applyOneOp (h : Sound opts s) (hop : op.Valid) {old : List Keyword}
    (hold : old.toFinset = s.words op.tableId op.docid) :
    Sound opts (s.applyOneOp opts op old) ∧ (s.applyOneOp opts op old).man = s.man ∧
      ∀ {t}, Fits t → ∀ d, (s.applyOneOp opts op old).words t d =
        if op.tableId = t ∧ op.docid = d then op.keywords.toFinset else s.words t d := by
  have hgate := h.gate.applyOneOp op old
  have hheads := h.heads.post hop old
  have hsegs : SegsOk (s.post op old) := h.segs.congr rfl rfl rfl rfl fun _ => id
  have hchain := fun {t} ht d => chain_post h hold (t := t) ht d
  unfold Store.applyOneOp at hgate ⊢
  obtain heq | heq | ⟨hf, heq⟩ := relieve_cases opts (s.post op old) op.tableId <;>
    rw [heq] at hgate ⊢
  · exact ⟨⟨hgate, hheads, hsegs, h.tables, fun ht d => (hchain ht d).1⟩, rfl,
      fun ht d => (hchain ht d).2⟩
  · refine ⟨⟨hgate, ⟨hheads.head, hheads.spilling⟩, hsegs.congr rfl rfl rfl rfl fun _ => id,
      h.tables, fun ht d => (hchain ht d).1⟩, rfl, fun ht d => (hchain ht d).2⟩
  · have hsp : (s.post op old).spilling = [] := h.gate.spilling_eq_nil hf
    have hdetach := fun {t} d => chain_detachHead hsp t op.tableId d
    refine ⟨⟨hgate, hheads.detachHead hop.2, hsegs.congr rfl rfl rfl rfl fun _ => id, h.tables,
      fun ht d => ?_⟩, rfl, fun ht d => ?_⟩
    · rw [hdetach]
      exact (hchain ht d).1
    · rw [words, hdetach]
      exact (hchain ht d).2

/-- The keywords an operation diffs against are those of the newest version. -/
lemma Sound.exists_oldKeywords (h : Sound opts s)
    {inBatch : GoMap (TableId × DocId) (List Keyword)}
    (hin : ∀ {t d ws}, inBatch.lookup (t, d) = some ws → Fits t ∧ ws.toFinset = s.words t d)
    (op : UpdateOp) : ∃ old, s.oldKeywords inBatch op = some old ∧
      old.toFinset = s.words op.tableId op.docid := by
  unfold oldKeywords
  cases hl : inBatch.lookup (op.tableId, op.docid) with
  | some ws => exact ⟨ws, rfl, (hin hl).2⟩
  | none =>
    obtain ⟨ws, del, hf, hw⟩ := h.readable.exists_forwardKeywords op.tableId op.docid
    exact ⟨ws, by simp [hf], hw⟩

/-- The loop over a batch does not panic, and what each operation keeps the batch keeps. -/
theorem exists_applyOps (P : List UpdateOp → Store → Prop)
    (hstep : ∀ {pre s op old}, Sound opts s → op.Valid →
      old.toFinset = s.words op.tableId op.docid → P pre s →
      P (pre ++ [op]) (s.applyOneOp opts op old)) (inBatch : GoMap (TableId × DocId) (List Keyword))
    (pre : List UpdateOp) (h : Sound opts s) (hops : ∀ op ∈ ops, op.Valid) (hP : P pre s)
    (hin : ∀ {t d ws}, inBatch.lookup (t, d) = some ws → Fits t ∧ ws.toFinset = s.words t d) :
    ∃ s', applyOps opts s inBatch ops = some s' ∧ Sound opts s' ∧ P (pre ++ ops) s' := by
  induction ops generalizing s inBatch pre with
  | nil => exact ⟨s, rfl, h, by simpa using hP⟩
  | cons op ops ih =>
    have hop := hops op (mem_cons_self ..)
    obtain ⟨old, hold, hwords⟩ := h.exists_oldKeywords hin op
    obtain ⟨hsound, -, hafter⟩ := sound_applyOneOp h hop hwords
    have hin' : ∀ {t d ws}, (inBatch.insert (op.tableId, op.docid) op.keywords).lookup (t, d) =
        some ws → Fits t ∧ ws.toFinset = (s.applyOneOp opts op old).words t d := by
      intro t d ws hl
      rw [GoMap.lookup_insert_if] at hl
      split at hl
      case isTrue heq =>
        obtain ⟨rfl, rfl⟩ := Prod.mk.inj heq
        cases hl
        exact ⟨hop.2, by simp [hafter hop.2]⟩
      case isFalse hne =>
        obtain ⟨ht, hw⟩ := hin hl
        refine ⟨ht, hw.trans ?_⟩
        rw [hafter ht, if_neg]
        rintro ⟨rfl, rfl⟩
        exact hne rfl
    obtain ⟨s', hs', hs'', hP'⟩ := ih _ _ hsound
      (fun op' h' => hops op' (mem_cons_of_mem _ h'))
      (hstep h hop hwords hP) hin'
    refine ⟨s', ?_, hs'', by simpa using hP'⟩
    rw [applyOps, hold]
    exact hs'

/-- What each operation keeps a batch keeps. -/
theorem sound_applyBatch (P : List UpdateOp → Store → Prop)
    (hstep : ∀ {pre s op old}, Sound opts s → op.Valid →
      old.toFinset = s.words op.tableId op.docid → P pre s →
      P (pre ++ [op]) (s.applyOneOp opts op old)) (h : Sound opts s) (hops : ∀ op ∈ ops, op.Valid)
    (hP : P [] s) (hs : s.applyBatch opts ops = some s') : Sound opts s' ∧ P ops s' := by
  obtain ⟨s₁, hs₁, hsound, hP'⟩ := exists_applyOps P hstep ∅ [] h hops hP (by simp)
  obtain rfl := Option.some.inj (hs₁.symm.trans ((applyBatch_eq s ops).symm.trans hs))
  exact ⟨hsound, hP'⟩

/-! ### Steps and runs -/

lemma chain_deleteTable {t t' : TableId} (hne : t' ≠ t) (d : DocId) :
    (s.deleteTable t).chain t' d = s.chain t' d := by
  rw [Store.chain, Store.chain, headChain_eq, headChain_eq, headD, headD, Store.deleteTable,
    AList.lookup_erase_ne hne]

/-- A deleted table loses the version in its head. -/
lemma chainOk_deleteTable (h : Sound opts s) (t : TableId) {t' : TableId} (ht' : Fits t')
    (d : DocId) : Version.ChainOk ((s.deleteTable t).chain t' d) := by
  have hok := h.chain ht' d
  by_cases hne : t' = t
  · subst hne
    rw [Store.chain, headChain_eq, append_assoc] at hok ⊢
    rw [headD, Store.deleteTable, AList.lookup_erase]
    exact hok.tail
  · rwa [chain_deleteTable hne]

/-- What a step does to the words of the catalog's documents. -/
theorem sound_step (h : Sound opts s) {l : Label} (hok : StepOk opts s l)
    (hs : step opts s l = some s') :
    Sound opts s' ∧ (∀ t ∈ s'.man.tables, t ∈ s.man.tables) ∧
      ∀ t ∈ s'.man.tables, ∀ d, s'.words t d = wordsAfter (opsOf [l]) t d (s.words t d) := by
  have hgate : Gate opts s' := gate_step h.gate hs
  have hkeep : KeepsChains opts s s' → Sound opts s' ∧ (∀ t ∈ s'.man.tables, t ∈ s.man.tables) ∧
      ∀ t ∈ s'.man.tables, ∀ d, s'.words t d = s.words t d := fun hk =>
    ⟨hk.sound, hk.tables, fun t ht d => by rw [words, hk.chain (hk.sound.tables t ht)]; rfl⟩
  cases l with
  | apply ops =>
    refine sound_applyBatch (fun pre s' => s'.man = s.man ∧
      ∀ {t}, Fits t → ∀ d, s'.words t d = wordsAfter pre t d (s.words t d))
      ?_ h hok ⟨rfl, fun _ _ => rfl⟩ hs |>.imp_right ?_
    · rintro pre s₁ op old h₁ hop hold ⟨hman, hwords⟩
      obtain ⟨-, hman', hafter⟩ := sound_applyOneOp h₁ hop hold
      refine ⟨hman'.trans hman, fun ht d => ?_⟩
      rw [hafter ht, hwords ht, wordsAfter_append]
      rfl
    · rintro ⟨hman, hwords⟩
      refine ⟨hman ▸ fun _ => id, fun t ht d => ?_⟩
      simpa [opsOf] using hwords (h.tables t (hman ▸ ht)) d
  | installSpill i next => exact hkeep (keepsChains_installSpill h hs)
  | failInstall i =>
    obtain ⟨e, n, -, -, rfl⟩ := failInstall_cases hs
    exact hkeep ⟨h.of_chain_eq hgate ⟨h.heads.head, h.heads.spilling⟩
      (h.segs.congr rfl rfl rfl rfl fun _ => id) (fun _ => id) fun _ _ => rfl, fun _ => id,
      fun _ _ => rfl⟩
  | giveUpSpill i next => exact hok.elim
  | spill t => exact Option.some.inj hs ▸ hkeep (Option.some.inj hs ▸ keepsChains_spill h hok)
  | selectTiered =>
    obtain ⟨-, l, ids, hpick, rfl⟩ := selectTiered_cases hs
    exact hkeep ⟨h.of_chain_eq hgate ⟨h.heads.head, h.heads.spilling⟩
      (h.segs.selectTiered hpick (hok _ hpick)) (fun _ => id) fun _ _ => rfl, fun _ => id,
      fun _ _ => rfl⟩
  | selectCovering force dead =>
    obtain ⟨-, level, rfl⟩ := selectCovering_cases hs
    exact hkeep ⟨h.of_chain_eq hgate ⟨h.heads.head, h.heads.spilling⟩
      (h.segsOk_selectCovering level) (fun _ => id) fun _ _ => rfl, fun _ => id,
      fun _ _ => rfl⟩
  | installMerge =>
    obtain ⟨p, res, hp, hres, rfl⟩ := installMerge_cases hs
    have hplan := h.segs.plan p hp
    have hchain := fun {t} ht d => chain_swapMerged h hplan hres (t := t) ht d
    exact ⟨⟨hgate, ⟨h.heads.head, h.heads.spilling⟩, segsOk_swapMerged h hplan hres, h.tables,
      fun ht d => (hchain ht d).1⟩, fun _ => id, fun t ht d => (hchain (h.tables t ht) d).2 ht⟩
  | createTable => exact hok.elim
  | deleteTable t =>
    cases hs
    have htables : ∀ t' ∈ (s.deleteTable t).man.tables, t' ∈ s.man.tables := fun t' ht' =>
      mem_of_mem_filter ht'
    refine ⟨⟨hgate, ⟨fun {t' x} hl => ?_, h.heads.spilling⟩,
      h.segs.congr rfl rfl rfl rfl htables, fun t' ht' => h.tables t' (htables t' ht'),
      fun ht d => chainOk_deleteTable h t ht d⟩, htables, fun t' ht' d => ?_⟩
    · rw [Store.deleteTable, GoMap.lookup_erase_if] at hl
      exact h.heads.head (Option.ite_none_left_eq_some.1 hl).2
    · have hne : t' ≠ t := by simpa using (mem_filter.1 ht').2
      simp only [words, chain_deleteTable hne]
      rfl
  | releaseGate =>
    cases hs
    exact hkeep ⟨h.of_chain_eq hgate ⟨h.heads.head, h.heads.spilling⟩
      (h.segs.congr rfl rfl rfl rfl fun _ => id) (fun _ => id) fun _ _ => rfl, fun _ => id,
      fun _ _ => rfl⟩

lemma sound_empty (htables : ∀ t ∈ tables, Fits t) (next : TableId) :
    Sound opts (empty tables next) where
  gate := gate_opened _ _ _
  heads := ⟨by simp [empty, opened], by simp [empty, opened]⟩
  segs := ⟨by simp [empty, opened], by simp [empty, opened], by simp [empty, opened],
    by simp [empty, opened, Closed], by simp [empty, opened], by simp [empty, opened]⟩
  tables := htables
  chain _ _ := trivial

/-- In a run of such steps the invariant holds, and the newest version of a catalog document carries
the keywords of its last operation. -/
theorem sound_run (htables : ∀ t ∈ tables, Fits t) {next : TableId} {ls : List Label}
    (hrun : StepSystem.Run (step opts) (StepOk opts) (empty tables next) ls s) :
    Sound opts s ∧ ∀ t ∈ s.man.tables, ∀ d, s.words t d = (lastKeywords (opsOf ls) t d).toFinset := by
  refine hrun.invariant (I := fun ls s => Sound opts s ∧
    ∀ t ∈ s.man.tables, ∀ d, s.words t d = (lastKeywords (opsOf ls) t d).toFinset)
    ⟨sound_empty htables next, fun _ _ _ => rfl⟩ ?_
  rintro ls s l s' ⟨hsound, hwords⟩ hok hs
  obtain ⟨hsound', htables', hafter⟩ := sound_step hsound hok hs
  refine ⟨hsound', fun t ht d => ?_⟩
  have happend : opsOf (ls ++ [l]) = opsOf ls ++ opsOf [l] := flatMap_append
  rw [hafter t ht d, hwords t (htables' t ht) d, happend, ← wordsAfter_empty, ← wordsAfter_append,
    wordsAfter_empty]

end Store

end Haystack.InvertedStore
