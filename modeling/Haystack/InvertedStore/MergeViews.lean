import Mathlib.Data.List.ReduceOption
import Haystack.InvertedStore.MergeSpec

/-!
# How a merge looks to a reader

The output of a merge in terms of what its inputs say about a document: the newest action per
keyword and the newest forward record.
-/

namespace Haystack.InvertedStore

open List Option StepSystem

open Segment (recAct)

/-- The newest action of the segments, oldest first, on a document under a keyword. -/
def newestAct (segs : List Segment) (t : UInt32) (w : Keyword) (d : DocId) : Option Bool :=
  segs.reverse.findSome? fun s => s.act t w d

/-- The newest forward record of a document in the segments, oldest first. -/
def newestFwd (segs : List Segment) (t : UInt32) (d : DocId) : Option (Finset Keyword) :=
  segs.reverse.findSome? fun s => s.fwd t d

variable {opts : Options} {covering : Bool} {tableLive : UInt32 → Bool} {segs : List Segment}
  {t : UInt32} {d : DocId}

lemma rowAct_rowAt (t : UInt32) (w : Keyword) (d : DocId) :
    rowAct d (rowAt segs (invertedKey t w)).reduceOption = newestAct segs t w d := by
  induction segs using reverseRecOn with
  | nil => rfl
  | append_singleton segs s ih =>
    have hact : newestAct (segs ++ [s]) t w d = (s.act t w d).or (newestAct segs t w d) := by
      simp only [newestAct, reverse_append, reverse_singleton, singleton_append]
      cases h : s.act t w d <;> simp [h]
    rw [hact, ← ih, Segment.act, rowAt, rowAt, map_append, reduceOption,
      filterMap_append]
    cases h : KWay.lookup Rec.key (invertedKey t w) s.recs with
    | none => simp [h]
    | some r => simpa [h] using rowAct_append_singleton d _ r

section Content

variable {recs : List Rec} {remap : List (List (Option ℕ))}
  (h : MergeContent covering tableLive segs recs remap) (hwf : ∀ s ∈ segs, s.WF) {ords : List ℕ}
  {mapped : List (Option ℕ)}
include h hwf

omit h hwf in
/-- The record written for a row has the key of the row. -/
lemma key_of_emitRow {k : Bytes} (hne : ∃ r, some r ∈ rowAt segs k) {r : Rec}
    (hr : emitRow covering tableLive remap (rowAt segs k) = some r) : r.key = k := by
  obtain ⟨r₀, hr₀⟩ := hne
  obtain rfl := key_of_mem_rowAt hr₀
  cases r₀ with
  | inv t w _ _ =>
    change emitRow _ _ _ (rowAt segs (invertedKey t w)) = _ at hr
    rw [emitRow, emitFwdRow_inv ⟨_, hr₀⟩, or_none, emitInvRow_inv ⟨_, hr₀⟩] at hr
    exact Rec.key_eq_invertedKey.2 (emitInv_eq_some hr).1
  | fwd t d _ =>
    change emitRow _ _ _ (rowAt segs (forwardKey t d)) = _ at hr
    rw [emitRow, emitInvRow_fwd ⟨_, hr₀⟩, none_or, emitFwdRow_fwd ⟨_, hr₀⟩,
      map_eq_some_iff] at hr
    obtain ⟨ords, -, rfl⟩ := hr
    rfl

lemma MergeContent.mem_recs_iff {r : Rec} :
    r ∈ recs ↔ (∃ r', some r' ∈ rowAt segs r.key) ∧
      emitRow covering tableLive remap (rowAt segs r.key) = some r := by
  rw [h.recs_eq, mem_filterMap]
  constructor
  · rintro ⟨row, hrow, hr⟩
    obtain ⟨k, rfl, hne⟩ := (mem_mergeRows_iff hwf row).1 hrow
    obtain rfl := key_of_emitRow hne hr
    exact ⟨hne, hr⟩
  · rintro ⟨hne, hr⟩
    exact ⟨_, (mem_mergeRows_iff hwf _).2 ⟨_, rfl, hne⟩, hr⟩

lemma MergeContent.mem_inv_iff {w : Keyword} {adds dels : List DocId} :
    Rec.inv t w adds dels ∈ recs ↔ (∃ r, some r ∈ rowAt segs (invertedKey t w)) ∧
      emitInv covering tableLive t w (rowAt segs (invertedKey t w)) =
        some (.inv t w adds dels) := by
  rw [h.mem_recs_iff hwf]
  refine and_congr_right fun hne => ?_
  change emitRow _ _ _ (rowAt segs (invertedKey t w)) = _ ↔ _
  rw [emitRow, emitFwdRow_inv hne, or_none, emitInvRow_inv hne]

lemma MergeContent.mem_fwd_iff :
    Rec.fwd t d ords ∈ recs ↔ (∃ r, some r ∈ rowAt segs (forwardKey t d)) ∧
      ∃ out, emitFwd covering tableLive remap t (rowAt segs (forwardKey t d)) =
        some (some out) ∧ encodeForward out = ords := by
  rw [h.mem_recs_iff hwf]
  refine and_congr_right fun hne => ?_
  change emitRow _ _ _ (rowAt segs (forwardKey t d)) = _ ↔ _
  rw [emitRow, emitInvRow_fwd hne, none_or, emitFwdRow_fwd hne, map_eq_some_iff]
  simp only [join_eq_some_iff, Rec.fwd.injEq, true_and]

lemma MergeContent.sorted : KWay.StrictRun Rec.key recs := by
  have hrun : ∀ run ∈ segs.map Segment.recs, KWay.StrictRun Rec.key run := by
    simpa using fun s hs => (hwf s hs).sorted
  rw [h.recs_eq]
  refine pairwise_filterMap.2
    ((Pairwise.and_mem.1 (KWay.pairwise_rows _ hrun)).imp ?_)
  rintro row row' ⟨hrow, hrow', hlt⟩ r hr r' hr'
  obtain ⟨k, rfl, r₀, hr₀⟩ := (mem_mergeRows_iff hwf row).1 hrow
  obtain ⟨k', rfl, r₀', hr₀'⟩ := (mem_mergeRows_iff hwf row').1 hrow'
  rw [key_of_emitRow ⟨_, hr₀⟩ hr, key_of_emitRow ⟨_, hr₀'⟩ hr', ← key_of_mem_rowAt hr₀,
    ← key_of_mem_rowAt hr₀']
  exact hlt r₀ hr₀ r₀' hr₀'

/-- How an ordinal of a record of table `t` is translated: to the ordinal of the same keyword, or to
the sentinel if the keyword was dropped. -/
def OrdRel (covering : Bool) (tableLive : UInt32 → Bool) (segs : List Segment) (recs : List Rec)
    (t : UInt32) (seg : Segment) (o : ℕ) (x : Option ℕ) : Prop :=
  ∃ w, seg.invKeys[o]? = some (t, w) ∧
    (∀ j, x = some j → (recs.filterMap Rec.invKey?)[j]? = some (t, w)) ∧
    (x = none → emitInv covering tableLive t w (rowAt segs (invertedKey t w)) = none)

/-- The newest record of a forward key: its ordinals are translated one by one. -/
lemma MergeContent.exists_of_newestHit {r : Rec} {m : List (Option ℕ)}
    (hhit : newestHit (rowAt segs (forwardKey t d)) remap = some (r, m)) :
    ∃ seg mapped, seg ∈ segs ∧ Rec.fwd t d r.ords ∈ seg.recs ∧
      newestFwd segs t d = some (seg.words r.ords) ∧ remapOrds m r.ords = some mapped ∧
      List.Forall₂ (OrdRel covering tableLive segs recs t seg) r.ords mapped := by
  obtain ⟨older, seg, newer, rfl, hm, hlook, hnewer⟩ := newestHit_eq_some h.remap_length hhit
  have hseg : (older ++ seg :: newer)[older.length]? = some seg := by simp
  have hsegwf := hwf seg (mem_of_getElem? hseg)
  obtain ⟨hr, hmem⟩ := hsegwf.lookup_forwardKey.1 hlook
  rw [hr] at hmem
  obtain ⟨mapped, hmapped, hrel⟩ := exists_mapM_eq_some (l := r.ords)
    (f := fun o => m[o]?)
    (R := OrdRel covering tableLive (older ++ seg :: newer) recs t seg) fun o ho => by
      obtain ⟨w, hw⟩ := hsegwf.ords_ok hmem o ho
      obtain ⟨x, hx, hsome, hnone⟩ := h.exists_remap hseg hm hw
      exact ⟨x, hx, w, hw, hsome, fun hx => (hnone hx).choose_spec.2⟩
  refine ⟨seg, mapped, mem_of_getElem? hseg, hmem, ?_, hmapped, hrel⟩
  have hnone : newer.reverse.findSome? (fun s => s.fwd t d) = none := by
    rw [findSome?_eq_none_iff]
    intro s hs
    simp [Segment.fwd, hnewer s (mem_reverse.1 hs)]
  have hfwd : seg.fwd t d = some (seg.words r.ords) := by simp [Segment.fwd, hlook]
  simp [newestFwd, findSome?_append, hnone, hfwd]

/-- What is written for a forward key: the newest record of the inputs decides, a tombstone is
copied, and the ordinals of a live record are translated one by one. -/
lemma MergeContent.exists_newest (hne : ∃ r, some r ∈ rowAt segs (forwardKey t d)) :
    ∃ seg ords mapped, seg ∈ segs ∧ Rec.fwd t d ords ∈ seg.recs ∧
      newestFwd segs t d = some (seg.words ords) ∧
      List.Forall₂ (OrdRel covering tableLive segs recs t seg) ords mapped ∧
      emitFwd covering tableLive remap t (rowAt segs (forwardKey t d)) =
        if covering = true ∧ ¬ tableLive t = true then some none
        else if ords = [] then some (if covering then none else some [])
        else some (if none ∈ mapped ∧ mapped.reduceOption = [] then none
          else some mapped.reduceOption) := by
  cases hhit : newestHit (rowAt segs (forwardKey t d)) remap with
  | none =>
    obtain ⟨r, hr⟩ := hne
    obtain ⟨s, hs, hs'⟩ := mem_map.1 hr
    simp [newestHit_eq_none h.remap_length hhit s hs] at hs'
  | some x =>
    obtain ⟨seg, mapped, hseg, hmem, hnewest, hmapped, hrel⟩ := h.exists_of_newestHit hwf hhit
    refine ⟨seg, x.1.ords, mapped, hseg, hmem, hnewest, hrel, ?_⟩
    rw [emitFwd, hhit]
    dsimp only
    rw [hmapped]
    rfl

/-- The ordinals written for a live record resolve to keywords of the record's table. -/
lemma MergeContent.ords_ok (hr : Rec.fwd t d ords ∈ recs) :
    ∀ o ∈ ords, ∃ w, (recs.filterMap Rec.invKey?)[o]? = some (t, w) := by
  obtain ⟨hne, out, hout, rfl⟩ := (h.mem_fwd_iff hwf).1 hr
  obtain ⟨seg, ords, mapped, -, -, -, hrel, hemit⟩ := h.exists_newest hwf hne
  intro o ho
  rw [mem_encodeForward] at ho
  rw [hemit] at hout
  split_ifs at hout with h₁ h₂ h₃ h₄
  · simp at hout
  · simp at hout
  · simp only [some.injEq] at hout
    simp [← hout] at ho
  · simp at hout
  · simp only [some.injEq] at hout
    rw [← hout, reduceOption_mem_iff] at ho
    obtain ⟨i, hi⟩ := getElem?_of_mem ho
    obtain ⟨o', -, w, -, hsome, -⟩ := Forall₂.exists_getElem? hrel.flip hi
    exact ⟨w, hsome o rfl⟩

omit h in
/-- If no keyword of the newest record was dropped, the words survive the translation. -/
lemma words_eq_of_ordRel {out : Segment} (hout : out.WF) (hrecs : out.recs = recs) {seg : Segment}
    (hseg : seg ∈ segs) (hr : Rec.fwd t d ords ∈ seg.recs)
    (hrel : List.Forall₂ (OrdRel covering tableLive segs recs t seg) ords mapped)
    (hmem : Rec.fwd t d (encodeForward mapped.reduceOption) ∈ out.recs) (hnone : none ∉ mapped) :
    out.words (encodeForward mapped.reduceOption) = seg.words ords := by
  ext w
  rw [hout.mem_words_iff hmem, (hwf seg hseg).mem_words_iff hr]
  simp only [mem_encodeForward, reduceOption_mem_iff, Segment.invKeys, hrecs]
  constructor
  · rintro ⟨j, hj, hw⟩
    obtain ⟨i, hi⟩ := getElem?_of_mem hj
    obtain ⟨o, ho, w', hw', hsome, -⟩ := Forall₂.exists_getElem? hrel.flip hi
    obtain ⟨-, rfl⟩ := Prod.mk.inj (some.inj (hw.symm.trans (hsome j rfl)))
    exact ⟨o, mem_of_getElem? ho, hw'⟩
  · rintro ⟨o, ho, hw⟩
    obtain ⟨i, hi⟩ := getElem?_of_mem ho
    obtain ⟨x, hx, w', hw', hsome, -⟩ := Forall₂.exists_getElem? hrel hi
    cases x with
    | none => exact absurd (mem_of_getElem? hx) hnone
    | some j =>
      obtain ⟨-, rfl⟩ := Prod.mk.inj (some.inj (hw.symm.trans hw'))
      exact ⟨j, mem_of_getElem? hx, hsome j rfl⟩

omit h in
/-- The sentinel stands only for keywords without a document in the output. -/
lemma none_notMem_of_ordRel {seg : Segment} (hseg : seg ∈ segs) (hr : Rec.fwd t d ords ∈ seg.recs)
    (hrel : List.Forall₂ (OrdRel covering tableLive segs recs t seg) ords mapped)
    (hlive : covering = true → tableLive t = true)
    (hkept : covering = true → ∀ w ∈ seg.words ords, ∃ d', newestAct segs t w d' = some true) :
    none ∉ mapped := by
  intro hmem
  obtain ⟨i, hi⟩ := getElem?_of_mem hmem
  obtain ⟨o, ho, w, hw, -, hdrop⟩ := Forall₂.exists_getElem? hrel.flip hi
  obtain ⟨hc, hno⟩ := emitInv_eq_none_iff.1 (hdrop rfl)
  have hwmem := ((hwf seg hseg).mem_words_iff hr).2 ⟨o, mem_of_getElem? ho, hw⟩
  obtain ⟨d', hd'⟩ := hkept hc w hwmem
  exact hno (hlive hc) d' (rowAct_rowAt t w d' ▸ hd')

end Content

/-! ### The output segment -/

variable {outId level : ℕ} {liveTables : Option (List TableId)}

/-- A merge of well-formed segments does not panic. -/
theorem exists_mergeSegments (hwf : ∀ s ∈ segs, s.WF) :
    ∃ res, mergeSegments opts segs outId level covering liveTables = some res := by
  obtain ⟨acc, remap, hfold, -⟩ := exists_foldlM_mergeRow opts covering
    (isTableLive liveTables) hwf
  exact ⟨_, by rw [mergeSegments, hfold]; rfl⟩

section Output

variable {res : MergeResult} (hwf : ∀ s ∈ segs, s.WF)
  (hres : mergeSegments opts segs outId level covering liveTables = some res)
include hwf hres

lemma exists_mergeContent :
    ∃ remap, MergeContent covering (isTableLive liveTables) segs res.seg.recs remap ∧
      res.seg.WF := by
  obtain ⟨acc, remap, hfold, hw, hspan, hcontent⟩ := exists_foldlM_mergeRow opts
    covering (isTableLive liveTables) hwf
  rw [mergeSegments, hfold, map_some, some.injEq] at hres
  subst hres
  obtain ⟨hrecs, hterms, hne⟩ := hw.finish outId acc.span
  have hrecs' : (acc.w.finish outId acc.span).recs = acc.w.recs := hrecs
  refine ⟨remap, hrecs' ▸ hcontent, ?_, hne, ?_, ?_, ?_, ?_⟩
  · rw [hrecs']
    exact hcontent.sorted hwf
  · rw [hterms, hw.terms_eq, Segment.invKeys, hrecs']
  · intro t d ords hr
    rw [Segment.invKeys, hrecs'] at *
    exact hcontent.ords_ok hwf hr
  · intro t d ords hr
    rw [hrecs'] at hr
    obtain ⟨-, out, -, rfl⟩ := (hcontent.mem_fwd_iff hwf).1 hr
    exact pairwise_encodeForward out
  · intro t d ords hr
    rw [hrecs'] at hr
    exact hspan hr

lemma wf_mergeSegments : res.seg.WF :=
  (exists_mergeContent hwf hres).choose_spec.2

omit hwf in
lemma id_mergeSegments : res.seg.id = outId ∧ res.sm.id = outId ∧ res.sm.level = level ∧
    res.sm.minDocid = res.seg.minDocid ∧ res.sm.maxDocid = res.seg.maxDocid := by
  rw [mergeSegments, map_eq_some_iff] at hres
  obtain ⟨acc, -, rfl⟩ := hres
  exact ⟨rfl, rfl, rfl, rfl, rfl⟩

omit hwf hres in
lemma newestAct_eq_none {w : Keyword} (h : ¬ ∃ r, some r ∈ rowAt segs (invertedKey t w))
    (d : DocId) :
    newestAct segs t w d = none := by
  have hnil : (rowAt segs (invertedKey t w)).reduceOption = [] := by
    rw [reduceOption, filterMap_eq_nil_iff]
    rintro (_ | r) hr
    · rfl
    · exact absurd ⟨r, hr⟩ h
  rw [← rowAct_rowAt, hnil]
  rfl

omit hwf hres in
lemma newestFwd_eq_none (h : ¬ ∃ r, some r ∈ rowAt segs (forwardKey t d)) :
    newestFwd segs t d = none := by
  rw [newestFwd, findSome?_eq_none_iff]
  intro s hs
  cases hl : KWay.lookup Rec.key (forwardKey t d) s.recs with
  | none => simp [Segment.fwd, hl]
  | some r => exact absurd ⟨r, mem_map.2 ⟨s, mem_reverse.1 hs, hl⟩⟩ h

/-- The output holds the newest action of the inputs; a covering merge keeps the adds of live
tables. -/
theorem act_mergeSegments (t : UInt32) (w : Keyword) (d : DocId) :
    res.seg.act t w d =
      if covering then
        if isTableLive liveTables t ∧ newestAct segs t w d = some true then some true else none
      else newestAct segs t w d := by
  obtain ⟨remap, hcontent, hout⟩ := exists_mergeContent hwf hres
  by_cases hne : ∃ r, some r ∈ rowAt segs (invertedKey t w)
  · cases hr : emitInv covering (isTableLive liveTables) t w (rowAt segs (invertedKey t w)) with
    | none =>
      have hnone : res.seg.act t w d = none := by
        rw [eq_none_iff_forall_ne_some]
        intro b hb
        obtain ⟨adds, dels, hmem, -⟩ := hout.act_eq_some_iff.1 hb
        rw [((hcontent.mem_inv_iff hwf).1 hmem).2] at hr
        simp at hr
      obtain ⟨hc, hdead⟩ := emitInv_eq_none_iff.1 hr
      simp only [rowAct_rowAt] at hdead
      rw [hnone, hc, if_pos rfl, if_neg fun hlive => hdead hlive.1 d hlive.2]
    | some r =>
      obtain ⟨hk, hact⟩ := emitInv_eq_some hr
      have hlive : covering = true → isTableLive liveTables t = true := by
        intro hc
        by_contra hdead
        rw [emitInv_eq_none_iff.2 ⟨hc, fun hl => absurd hl hdead⟩] at hr
        simp at hr
      cases r with
      | fwd _ _ _ => simp [Rec.invKey?] at hk
      | inv t' w' adds dels =>
        obtain ⟨rfl, rfl⟩ := Prod.mk.inj (some.inj hk)
        have hmem := (hcontent.mem_inv_iff hwf).2 ⟨hne, hr⟩
        have hlook := (hout.sorted.lookup_eq_some_iff (k := invertedKey t' w')).2 ⟨hmem, rfl⟩
        rw [Segment.act, hlook, bind_some, hact d, rowAct_rowAt]
        split
        case isTrue hc => simp [hlive hc]
        case isFalse => rfl
  · have hnone : res.seg.act t w d = none := by
      rw [eq_none_iff_forall_ne_some]
      intro b hb
      obtain ⟨adds, dels, hmem, -⟩ := hout.act_eq_some_iff.1 hb
      exact hne ((hcontent.mem_inv_iff hwf).1 hmem).1
    simp [hnone, newestAct_eq_none hne d]

/-- The output holds the newest forward record of the inputs; a covering merge keeps the live records
of live tables. A keyword of the newest record must not have been dropped. -/
theorem fwd_mergeSegments
    (hkept : covering = true → isTableLive liveTables t = true → ∀ ws ∈ newestFwd segs t d,
      ∀ w ∈ ws, ∃ d', newestAct segs t w d' = some true) :
    res.seg.fwd t d =
      if covering then
        if isTableLive liveTables t then (newestFwd segs t d).filter (· ≠ ∅) else none
      else newestFwd segs t d := by
  obtain ⟨remap, hcontent, hout⟩ := exists_mergeContent hwf hres
  have hiff : ∀ ws, res.seg.fwd t d = some ws ↔ (∃ r, some r ∈ rowAt segs (forwardKey t d)) ∧
      ∃ out, emitFwd covering (isTableLive liveTables) remap t (rowAt segs (forwardKey t d)) =
        some (some out) ∧ res.seg.words (encodeForward out) = ws := by
    intro ws
    rw [hout.fwd_eq_some_iff]
    constructor
    · rintro ⟨ords, hmem, rfl⟩
      obtain ⟨hne, out, hemit, rfl⟩ := (hcontent.mem_fwd_iff hwf).1 hmem
      exact ⟨hne, out, hemit, rfl⟩
    · rintro ⟨hne, out, hemit, rfl⟩
      exact ⟨_, (hcontent.mem_fwd_iff hwf).2 ⟨hne, out, hemit, rfl⟩, rfl⟩
  by_cases hne : ∃ r, some r ∈ rowAt segs (forwardKey t d)
  · obtain ⟨seg, ords, mapped, hseg, hmem, hnewest, hrel, hemit⟩ :=
      hcontent.exists_newest hwf hne
    have hnone : ∀ {o}, emitFwd covering (isTableLive liveTables) remap t
        (rowAt segs (forwardKey t d)) = some o → o = none → res.seg.fwd t d = none := by
      rintro o ho rfl
      rw [eq_none_iff_forall_ne_some]
      intro ws hws
      obtain ⟨-, out, hout', -⟩ := (hiff ws).1 hws
      simp [ho] at hout'
    by_cases hdead : covering = true ∧ ¬ isTableLive liveTables t = true
    · rw [if_pos hdead] at hemit
      simp [hnone hemit rfl, hdead.1, hdead.2]
    rw [if_neg hdead] at hemit
    by_cases hords : ords = []
    · -- the newest record is a tombstone
      subst hords
      rw [if_pos rfl] at hemit
      rw [hnewest, show seg.words [] = ∅ from rfl]
      by_cases hc : covering = true
      · rw [if_pos hc] at hemit
        simp [hnone hemit rfl, hc, Option.filter]
      · rw [if_neg hc] at hemit
        simp [(hiff ∅).2 ⟨hne, [], hemit, rfl⟩, hc]
    · rw [if_neg hords] at hemit
      have hlive' : covering = true → isTableLive liveTables t = true := fun hc => by
        by_contra hl
        exact hdead ⟨hc, hl⟩
      have hkeep : none ∉ mapped := none_notMem_of_ordRel hwf hseg hmem hrel hlive'
        fun hc => hkept hc (hlive' hc) _ hnewest
      rw [if_neg fun hn => hkeep hn.1] at hemit
      have hwords := (hiff _).2 ⟨hne, _, hemit, rfl⟩
      rw [words_eq_of_ordRel hwf hout rfl hseg hmem hrel
        ((hcontent.mem_fwd_iff hwf).2 ⟨hne, _, hemit, rfl⟩) hkeep] at hwords
      have hlive : seg.words ords ≠ ∅ := by
        obtain ⟨o, ho⟩ := exists_mem_of_ne_nil _ hords
        obtain ⟨w, hw⟩ := (hwf seg hseg).ords_ok hmem o ho
        exact Finset.ne_empty_of_mem (((hwf seg hseg).mem_words_iff hmem).2 ⟨o, ho, hw⟩)
      rw [hwords, hnewest]
      by_cases hc : covering = true
      · simp [hc, hlive' hc, hlive, Option.filter]
      · simp [hc]
  · have hnone : res.seg.fwd t d = none := by
      rw [Option.eq_none_iff_forall_ne_some]
      exact fun ws hws => hne ((hiff ws).1 hws).1
    simp [hnone, newestFwd_eq_none hne]

end Output

end Haystack.InvertedStore
