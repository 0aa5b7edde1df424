import Haystack.InvertedStore.Views

/-!
# Chains of segments

How the versions of a document in a list of segments change when a spilled head is added and when
some of the segments are replaced by their merge. The output of a merge takes a place that depends
on its id alone, so it stands for its inputs only if no segment outside the merge has a record of a
document in between.
-/

namespace Haystack.InvertedStore

open List

/-- The tables and documents of the forward records. -/
def Segment.docs (seg : Segment) : List (UInt32 × DocId) :=
  seg.recs.filterMap fun
    | .fwd t d _ => some (t, d)
    | .inv _ _ _ _ => none

/-- Two segments without a common document. -/
def Segment.Apart (a b : Segment) : Prop :=
  ∀ x ∈ a.docs, x ∉ b.docs

instance (a b : Segment) : Decidable (a.Apart b) :=
  List.decidableBAll (fun x => x ∉ b.docs) a.docs

lemma Segment.WF.mem_docs_iff {seg : Segment} (hwf : seg.WF) {t : UInt32} {d : DocId} :
    (t, d) ∈ seg.docs ↔ (seg.fwd t d).isSome := by
  rw [Option.isSome_iff_exists]
  simp only [hwf.fwd_eq_some_iff, docs, mem_filterMap]
  constructor
  · rintro ⟨r, hr, hx⟩
    cases r with
    | inv t' w adds dels => simp at hx
    | fwd t' d' ords =>
      cases hx
      exact ⟨_, ords, hr, rfl⟩
  · rintro ⟨_, ords, hr, -⟩
    exact ⟨_, hr, rfl⟩

namespace Store

/-- The versions of a document in a list of segments, newest first. -/
def segChain (segs : List Segment) (t : UInt32) (d : DocId) : List (Version Keyword) :=
  Layer.chain (segLayers segs t) d

lemma segChain_eq (segs : List Segment) (t : UInt32) (d : DocId) :
    segChain segs t d = segs.reverse.filterMap fun seg => (seg.layer t).version d := by
  rw [segChain, Layer.chain, segLayers, filterMap_map]
  rfl

@[simp] lemma segChain_append (segs segs' : List Segment) (t : UInt32) (d : DocId) :
    segChain (segs ++ segs') t d = segChain segs' t d ++ segChain segs t d := by
  simp [segChain_eq]

@[simp] lemma segChain_singleton (seg : Segment) (t : UInt32) (d : DocId) :
    segChain [seg] t d = ((seg.layer t).version d).toList := by
  rw [segChain, segLayers]
  simp [Layer.chain_cons]

/-- Every segment has actions only on documents it has a record of. -/
def Closed (segs : List Segment) : Prop :=
  ∀ seg ∈ segs, ∀ t, (seg.layer t).Closed

/-! ### Spilled heads -/

section Spilled

variable (opts : Options) {h : HeadTable} (he : h.Encodable) (tableId : TableId) (id : ℕ)
include he

/-- A spilled head is the layer the head was, for its own table. -/
lemma layer_encodeHeadToFile (t : UInt32) :
    (encodeHeadToFile opts h tableId id).layer t =
      if t = tid tableId then h.layer else ⟨fun _ => none, fun _ _ => none⟩ := by
  have hfwd := funext fun d => fwd_encodeHeadToFile opts tableId id he t d
  have hact := funext fun w => funext fun d => act_encodeHeadToFile opts tableId id he t w d
  by_cases ht : t = tid tableId
  · simp only [ht, if_true] at hfwd hact ⊢
    simp [Segment.layer, HeadTable.layer, hfwd, hact]
  · simp only [ht, if_false] at hfwd hact ⊢
    simp [Segment.layer, hfwd, hact]

lemma segChain_encodeHeadToFile (hfits : Fits tableId) {t : TableId} (ht : Fits t) (d : DocId) :
    segChain [encodeHeadToFile opts h tableId id] (tid t) d =
      if t = tableId then (h.layer.version d).toList else [] := by
  rw [segChain_singleton, layer_encodeHeadToFile opts he]
  simp only [tid_inj ht hfits]
  split <;> rfl

lemma closed_encodeHeadToFile (hc : h.layer.Closed) (t : UInt32) :
    ((encodeHeadToFile opts h tableId id).layer t).Closed := by
  rw [layer_encodeHeadToFile opts he]
  split
  · exact hc
  · exact fun _ _ _ => rfl

end Spilled

/-! ### Merged segments -/

/-- The live segments `segs` may be merged into a segment `outId`: the inputs are older than the
output, and in between no other segment has a record of a document of an older input. -/
structure Mergeable (segs : List Segment) (ids : List ℕ) (outId : ℕ) : Prop where
  wf : ∀ seg ∈ segs, seg.WF
  sorted : segs.Pairwise fun a b => a.id < b.id
  closed : Closed segs
  inputs_lt : ∀ seg ∈ segs, seg.id ∈ ids → seg.id < outId
  out_new : ∀ seg ∈ segs, seg.id ≠ outId
  ordered : ∀ old ∈ segs, old.id ∈ ids → ∀ new ∈ segs, new.id ∉ ids → old.id < new.id →
    new.id < outId → old.Apart new

section Merge

variable {segs : List Segment} {ids : List ℕ} {outId : ℕ} (hm : Mergeable segs ids outId)
include hm

namespace Mergeable

/-- The segments below and above the place of the output. -/
lemma split : segs = (segs.filter fun seg => seg.id < outId) ++
    segs.filter fun seg => !decide (seg.id < outId) := by
  have h := ListScan.filterMap_eq_append (f := some) (p := fun seg => decide (seg.id < outId))
    (hm.sorted.imp fun {a b} hlt _ _ hb => by
      simp only [decide_eq_true_eq] at hb ⊢
      exact hlt.trans hb)
  simpa using h

/-- Above the place of the output there are no inputs. -/
lemma filter_above (seg : Segment)
    (hseg : seg ∈ segs.filter fun seg => !decide (seg.id < outId)) : seg.id ∉ ids := by
  obtain ⟨hmem, hge⟩ := mem_filter.1 hseg
  exact fun hin => by simp [hm.inputs_lt seg hmem hin] at hge

/-- The live segments after the swap. -/
lemma sort_swap {out : Segment} (hout : out.id = outId) :
    sortSegmentsById ((segs.filter fun seg => seg.id ∉ ids) ++ [out]) =
      ((segs.filter fun seg => seg.id < outId).filter fun seg => seg.id ∉ ids) ++
        out :: segs.filter fun seg => !decide (seg.id < outId) := by
  refine StableSort.sortBy_eq_of_perm _ ?_ ?_
  · have habove : (segs.filter fun seg => !decide (seg.id < outId)).filter
        (fun seg => seg.id ∉ ids) = segs.filter fun seg => !decide (seg.id < outId) :=
      filter_eq_self.2 fun seg hseg => by simpa using hm.filter_above seg hseg
    have hsplit : (segs.filter fun seg => seg.id ∉ ids) =
        ((segs.filter fun seg => seg.id < outId).filter fun seg => seg.id ∉ ids) ++
          segs.filter fun seg => !decide (seg.id < outId) := by
      conv_lhs => rw [hm.split, filter_append, habove]
    rw [hsplit, append_assoc]
    exact Perm.append_left _ perm_append_comm
  · rw [pairwise_append]
    refine ⟨(hm.sorted.filter _).filter _, pairwise_cons.2 ⟨fun seg hseg => ?_,
      hm.sorted.filter _⟩, fun a ha b hb => ?_⟩
    · obtain ⟨hmem, hge⟩ := mem_filter.1 hseg
      have hge : outId ≤ seg.id := by simpa using hge
      rw [hout]
      exact lt_of_le_of_ne hge (hm.out_new seg hmem).symm
    · have ha : a.id < outId := by simpa using (mem_filter.1 (mem_of_mem_filter ha)).2
      rcases mem_cons.1 hb with rfl | hb
      · exact hout.symm ▸ ha
      · have hb : outId ≤ b.id := by simpa using (mem_filter.1 hb).2
        exact ha.trans_le hb

/-- The versions of a document before and after the swap: those above the output, those of the
inputs, and those below the output that stay. -/
lemma segChain_split (t : UInt32) (d : DocId) : ∃ a c,
    segChain segs t d = a ++ (segChain (segs.filter fun seg => seg.id ∈ ids) t d ++ c) ∧
      (∀ out : Segment, out.id = outId →
        segChain (sortSegmentsById ((segs.filter fun seg => seg.id ∉ ids) ++ [out])) t d =
          a ++ (((out.layer t).version d).toList ++ c)) ∧
      ((∀ seg ∈ segs, seg.id < outId → seg.id ∈ ids) → c = []) := by
  set lo := segs.filter fun seg => seg.id < outId with hlo
  set hi := segs.filter fun seg => !decide (seg.id < outId) with hhi
  have hinputs : (segs.filter fun seg => seg.id ∈ ids) = lo.filter fun seg => seg.id ∈ ids := by
    have hnone : hi.filter (fun seg => seg.id ∈ ids) = [] :=
      filter_eq_nil_iff.2 fun seg hseg => by simpa using hm.filter_above seg hseg
    conv_lhs => rw [hm.split, filter_append, hnone, append_nil]
  have hblock : segChain lo t d = segChain (lo.filter fun seg => seg.id ∈ ids) t d ++
      segChain (lo.filter fun seg => seg.id ∉ ids) t d := by
    have h := ListScan.filterMap_eq_append (l := lo.reverse)
      (f := fun seg => (seg.layer t).version d) (p := fun seg => decide (seg.id ∈ ids)) ?_
    · simpa [segChain_eq, filter_reverse] using h
    · -- a newer segment with a record of the document is an input if an older one is
      refine pairwise_reverse.2 ((hm.sorted.filter _).imp_of_mem ?_)
      intro old new hold hnew hlt hn ho hin
      simp only [decide_eq_true_eq] at hin ⊢
      obtain ⟨hold, -⟩ := mem_filter.1 hold
      obtain ⟨hnew, hout⟩ := mem_filter.1 hnew
      by_contra hnot
      have hapart := hm.ordered old hold hin new hnew hnot hlt (by simpa using hout)
      refine hapart (t, d) ((hm.wf old hold).mem_docs_iff.2 ?_) ((hm.wf new hnew).mem_docs_iff.2 ?_)
      · simpa [Layer.version, Segment.layer] using ho
      · simpa [Layer.version, Segment.layer] using hn
  refine ⟨segChain hi t d, segChain (lo.filter fun seg => seg.id ∉ ids) t d, ?_, ?_, ?_⟩
  · conv_lhs => rw [hm.split, segChain_append, hblock]
    rw [hinputs]
  · intro out hout
    rw [hm.sort_swap hout, segChain_append, ← singleton_append, segChain_append,
      segChain_singleton, append_assoc]
  · intro hall
    have hnil : lo.filter (fun seg => seg.id ∉ ids) = [] := by
      refine filter_eq_nil_iff.2 fun seg hseg => ?_
      obtain ⟨hmem, hlt⟩ := mem_filter.1 hseg
      simpa using hall seg hmem (by simpa using hlt)
    rw [hnil]
    rfl

end Mergeable

end Merge

/-! ### The output of a merge -/

lemma newestAct_eq {segs : List Segment} (hc : Closed segs) (t : UInt32) (w : Keyword) (d : DocId) :
    newestAct segs t w d = Version.topAct (segChain segs t d) w := by
  have hclosed : ∀ l ∈ segLayers segs t, l.Closed := by
    intro l hl
    obtain ⟨seg, hseg, rfl⟩ := mem_map.1 hl
    exact hc seg (mem_reverse.1 hseg) t
  rw [segChain, ← Layer.findSome?_act hclosed, segLayers, findSome?_map]
  rfl

lemma newestFwd_eq (segs : List Segment) (t : UInt32) (d : DocId) :
    newestFwd segs t d = (segChain segs t d).head?.map Version.words := by
  rw [segChain, ← Layer.findSome?_rec, findSome?_rec_segLayers]
  rfl

section Output

variable {opts : Options} {inputs : List Segment} {outId level : ℕ}
  {liveTables : Option (List TableId)} {res : MergeResult}
  (hwf : ∀ seg ∈ inputs, seg.WF) (hc : Closed inputs)
include hwf hc

/-- A tiered merge stands for the versions of its inputs. -/
theorem version_tiered
    (hres : mergeSegments opts inputs outId level false liveTables = some res) (t : UInt32)
    (d : DocId) :
    ((res.seg.layer t).version d).toList = Version.mergedBlock (segChain inputs t d) := by
  have hfwd := fwd_mergeSegments hwf hres (t := t) (d := d) (by simp)
  have hact := fun w => act_mergeSegments hwf hres t w d
  simp only [Bool.false_eq_true, if_false, newestFwd_eq, newestAct_eq hc] at hfwd hact
  simp only [Layer.version, Segment.layer, hfwd, hact, Version.mergedBlock, Version.merged]
  cases segChain inputs t d with
  | nil => rfl
  | cons v b => simp

lemma closed_tiered (hres : mergeSegments opts inputs outId level false liveTables = some res)
    (t : UInt32) : (res.seg.layer t).Closed := by
  intro d w hrec
  have hver := version_tiered hwf hc hres t d
  rw [Layer.version_eq_none.2 hrec] at hver
  have hnil : segChain inputs t d = [] := by
    by_contra hne
    simp [Version.mergedBlock, hne] at hver
  change res.seg.act t w d = none
  simp [act_mergeSegments hwf hres t w d, newestAct_eq hc, hnil]

variable (hres : mergeSegments opts inputs outId level true liveTables = some res) {t : UInt32}
include hres

/-- A covering merge compacts the versions of its inputs, and drops those of absent tables. -/
theorem version_covering {d : DocId} (hok : Version.ChainOk (segChain inputs t d)) :
    ((res.seg.layer t).version d).toList =
      if isTableLive liveTables t then Version.compacted (segChain inputs t d) else [] := by
  have hkept : ∀ ws ∈ newestFwd inputs t d, ∀ w ∈ ws,
      ∃ d', newestAct inputs t w d' = some true := by
    intro ws hws w hw
    refine ⟨d, ?_⟩
    rw [newestAct_eq hc, hok.topAct_eq_true_iff]
    rw [newestFwd_eq, Option.mem_def, Option.map_eq_some_iff] at hws
    obtain ⟨v, hv, rfl⟩ := hws
    cases hb : segChain inputs t d with
    | nil => simp [hb] at hv
    | cons v' b =>
      obtain rfl : v' = v := by simpa [hb] using hv
      exact hw
  have hfwd := fwd_mergeSegments hwf hres (t := t) (d := d) fun _ _ => hkept
  have hact := fun w => act_mergeSegments hwf hres t w d
  simp only [if_true, newestFwd_eq, newestAct_eq hc, hok.topAct_eq_true_iff] at hfwd hact
  simp only [Layer.version, Segment.layer, hfwd, hact, Version.compacted]
  cases isTableLive liveTables t with
  | false => simp
  | true =>
    cases segChain inputs t d with
    | nil => simp
    | cons v b =>
      by_cases hv : v.words = ∅
      · simp [hv]
      · simp only [Version.top_cons, hv, if_false]
        simp [hv]
        funext w
        by_cases hw : w ∈ v.words <;> simp [hw]

lemma closed_covering (hok : ∀ d, Version.ChainOk (segChain inputs t d)) :
    (res.seg.layer t).Closed := by
  intro d w hrec
  have hver := version_covering hwf hc hres (hok d)
  rw [Layer.version_eq_none.2 hrec] at hver
  have hact := act_mergeSegments hwf hres t w d
  simp only [if_true, newestAct_eq hc, (hok d).topAct_eq_true_iff] at hact
  change res.seg.act t w d = none
  rw [hact, if_neg]
  rintro ⟨hlive, hw⟩
  rw [if_pos hlive, Version.compacted] at hver
  split at hver
  case isTrue htop => simp [htop] at hw
  case isFalse => simp at hver

end Output

end Store

end Haystack.InvertedStore
