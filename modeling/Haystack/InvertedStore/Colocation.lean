import Haystack.InvertedStore.Preservation

/-!
# Forward records and postings go together

Every source posts a document under each keyword of its forward record, and has postings only for
documents it has a forward record of. Operations, spills and tiered merges keep this for whatever
they are applied to. A covering merge drops tombstones, so it keeps it only if a document whose
newest record is a tombstone has no posting left; the chains of a run guarantee that.
-/

namespace Haystack.InvertedStore

open List

/-! ### Heads and spilled heads -/

lemma HeadTable.colocated_new : newHeadTable.layer.Colocated where
  posted h := by simp [HeadTable.layer, HeadTable.rec?, HeadTable.forwardLookup, newHeadTable] at h
  closed := HeadTable.wf_new.closed

variable {h : HeadTable} {ws : Finset Keyword} {d : DocId}

lemma HeadTable.colocated_post (hc : h.layer.Colocated) (d : DocId) (keywords old : List Keyword) :
    (h.post d keywords old).layer.Colocated where
  posted {d' ws} hr w hw := by
    change (h.post d keywords old).rec? d' = some ws at hr
    change (h.post d keywords old).act w d' = some true
    rw [rec?_post] at hr
    rw [act_post]
    split at hr
    case isTrue hd =>
      cases hr
      simp [hd, mem_toFinset.1 hw]
    case isFalse hd =>
      rw [if_neg hd]
      exact hc.posted hr w hw
  closed d' w hr := by
    change (h.post d keywords old).rec? d' = none at hr
    change (h.post d keywords old).act w d' = none
    rw [rec?_post] at hr
    rw [act_post]
    split at hr
    · simp at hr
    · rw [if_neg ‹_›]
      exact hc.closed d' w hr

lemma colocated_encodeHeadToFile (opts : Options) (he : h.Encodable) (hc : h.layer.Colocated)
    (tableId : TableId) (id : ℕ) (t : UInt32) :
    ((encodeHeadToFile opts h tableId id).layer t).Colocated := by
  rw [Store.layer_encodeHeadToFile opts he]
  split
  · exact hc
  · exact ⟨by simp, fun _ _ _ => rfl⟩

/-! ### Merges -/

section Merge

variable {opts : Options} {inputs : List Segment} {outId level : ℕ}
  {liveTables : Option (List TableId)} {res : MergeResult} {t : UInt32}

lemma newestAct_eq_true {w : Keyword} (hc : ∀ seg ∈ inputs, (seg.layer t).Colocated)
    (h : newestFwd inputs t d = some ws) (hw : w ∈ ws) : newestAct inputs t w d = some true := by
  have hcol : ∀ l ∈ Store.segLayers inputs t, l.Colocated := by
    intro l hl
    obtain ⟨seg, hseg, rfl⟩ := mem_map.1 hl
    exact hc seg (mem_reverse.1 hseg)
  have hact := Layer.findSome?_act_of_rec hcol
    ((Store.findSome?_rec_segLayers inputs t d).trans h) hw
  rwa [Store.segLayers, findSome?_map] at hact

lemma newestAct_eq_none_of_fwd (hc : ∀ seg ∈ inputs, (seg.layer t).Colocated)
    (h : newestFwd inputs t d = none) (w : Keyword) : newestAct inputs t w d = none := by
  rw [newestFwd, findSome?_eq_none_iff] at h
  rw [newestAct, findSome?_eq_none_iff]
  exact fun seg hseg => (hc seg (mem_reverse.1 hseg)).closed d w (h seg hseg)

variable (hwf : ∀ seg ∈ inputs, seg.WF) (hc : ∀ seg ∈ inputs, (seg.layer t).Colocated)
include hwf hc

theorem colocated_tiered
    (hres : mergeSegments opts inputs outId level false liveTables = some res) :
    (res.seg.layer t).Colocated where
  posted {d ws} hr w hw := by
    have hfwd := fwd_mergeSegments hwf hres (t := t) (d := d) (by simp)
    have hr : res.seg.fwd t d = some ws := hr
    change res.seg.act t w d = some true
    simp only [Bool.false_eq_true, if_false, hr] at hfwd
    simp [act_mergeSegments hwf hres, newestAct_eq_true hc hfwd.symm hw]
  closed d w hr := by
    have hfwd := fwd_mergeSegments hwf hres (t := t) (d := d) (by simp)
    have hr : res.seg.fwd t d = none := hr
    change res.seg.act t w d = none
    simp only [Bool.false_eq_true, if_false, hr] at hfwd
    simp [act_mergeSegments hwf hres, newestAct_eq_none_of_fwd hc hfwd.symm]

/-- A covering merge keeps the words of the newest record. -/
lemma fwd_covering (hres : mergeSegments opts inputs outId level true liveTables = some res)
    (d : DocId) : res.seg.fwd t d =
      if isTableLive liveTables t then (newestFwd inputs t d).filter (· ≠ ∅) else none := by
  have := fwd_mergeSegments hwf hres (t := t) (d := d)
    fun _ _ ws hws w hw => ⟨d, newestAct_eq_true hc hws hw⟩
  simpa using this

theorem colocated_covering
    (hres : mergeSegments opts inputs outId level true liveTables = some res)
    (hdel : ∀ d, newestFwd inputs t d = some ∅ → ∀ w, newestAct inputs t w d ≠ some true) :
    (res.seg.layer t).Colocated where
  posted {d ws} hr w hw := by
    have hr : res.seg.fwd t d = some ws := hr
    change res.seg.act t w d = some true
    rw [fwd_covering hwf hc hres, Option.ite_none_right_eq_some, Option.filter_eq_some_iff] at hr
    obtain ⟨hlive, hnew, -⟩ := hr
    simp [act_mergeSegments hwf hres, hlive, newestAct_eq_true hc hnew hw]
  closed d w hr := by
    have hr : res.seg.fwd t d = none := hr
    change res.seg.act t w d = none
    rw [fwd_covering hwf hc hres] at hr
    simp only [act_mergeSegments hwf hres, if_true]
    rw [if_neg]
    rintro ⟨hlive, hact⟩
    -- a posting without a record: the newest record is a tombstone
    rw [if_pos hlive] at hr
    cases hnew : newestFwd inputs t d with
    | none => simp [newestAct_eq_none_of_fwd hc hnew] at hact
    | some ws =>
      obtain rfl : ws = ∅ := by simpa [hnew, Option.filter] using hr
      exact hdel d hnew w hact

end Merge

/-! ### Sentinels -/

/-- Some round of the merge translates a live forward record of a kept table and meets the sentinel
of a dropped keyword. -/
def MeetsSentinel (opts : Options) (covering : Bool) (tableLive : UInt32 → Bool)
    (segs : List Segment) : Prop :=
  ∃ pre row post acc t d ords r m mapped,
    mergeRows segs = pre ++ row :: post ∧
    pre.foldlM (mergeRow opts covering tableLive) (MergeAcc.init segs) = some acc ∧
    row.findSome? id = some (.fwd t d ords) ∧ (covering = true → tableLive t = true) ∧
    newestHit row acc.remap = some (r, m) ∧ remapOrds m r.ords = some mapped ∧ none ∈ mapped

section Sentinel

variable {opts : Options} {covering : Bool} {tableLive : UInt32 → Bool} {segs : List Segment}
  (hwf : ∀ seg ∈ segs, seg.WF)
include hwf

/-- In the rounds of forward keys the remap arrays are complete. -/
lemma exists_mergeContent_of_prefix {pre post : List (List (Option Rec))}
    {row : List (Option Rec)} {acc : MergeAcc} (hsplit : mergeRows segs = pre ++ row :: post)
    (hrow : ¬ InvRow segs row) (hfold : pre.foldlM (mergeRow opts covering tableLive)
      (MergeAcc.init segs) = some acc) :
    ∃ recs, MergeContent covering tableLive segs recs acc.remap := by
  obtain ⟨a, b, acc₀, hab, ha, hb, hfold₀, h₀, hfwd⟩ := exists_phases opts _ _ hwf
  -- all rounds of inverted keys lie before the row
  obtain ⟨b₁, rfl⟩ : ∃ b₁, pre = a ++ b₁ := by
    rcases append_eq_append_iff.1 (hab.symm.trans hsplit) with ⟨b₁, h, -⟩ | ⟨c, rfl, hc⟩
    · exact ⟨b₁, h⟩
    · cases c with
      | nil => exact ⟨[], by simp⟩
      | cons x c =>
        obtain ⟨rfl, -⟩ := cons.inj hc
        exact absurd (ha row (by simp)) hrow
  have hb₁ : b₁ <+: b := by
    rw [hab, append_assoc] at hsplit
    exact ⟨_, (append_cancel_left hsplit).symm⟩
  obtain ⟨acc₁, hfold₁, h₁⟩ := hfwd b₁ hb₁
  obtain ⟨acc₂, -, h₂⟩ := hfwd b prefix_rfl
  rw [foldlM_append, hfold₀] at hfold
  obtain rfl := Option.some.inj (hfold₁.symm.trans hfold)
  exact ⟨acc₂.w.recs, h₁.remap ▸ mergeContent_of_phases hwf hab ha hb h₀ h₂⟩

/-- A merge of sources that keep records and postings together never meets the sentinel. -/
theorem not_meetsSentinel (hc : ∀ t, ∀ seg ∈ segs, (seg.layer t).Colocated) :
    ¬ MeetsSentinel opts covering tableLive segs := by
  rintro ⟨pre, row, post, acc, t, d, ords, r, m, mapped, hsplit, hfold, hfirst, hlive, hhit, hmap,
    hnone⟩
  have hmem : row ∈ mergeRows segs := hsplit ▸ by simp
  obtain ⟨k, rfl, -⟩ := (mem_mergeRows_iff hwf row).1 hmem
  obtain ⟨o, ho, hid⟩ := exists_of_findSome?_eq_some hfirst
  obtain rfl : o = some (.fwd t d ords) := hid
  obtain rfl : forwardKey t d = k := key_of_mem_rowAt ho
  have hrow : ¬ InvRow segs (rowAt segs (forwardKey t d)) := by
    rintro ⟨t', w, heq, -⟩
    have hkey := key_of_mem_rowAt (heq ▸ ho)
    exact (invertedKey_lt_forwardKey t' t w d).ne hkey.symm
  obtain ⟨recs, hcontent⟩ := exists_mergeContent_of_prefix hwf hsplit hrow hfold
  obtain ⟨seg, mapped', hseg, hr, hnewest, hmapped, hrel⟩ := hcontent.exists_of_newestHit hwf hhit
  obtain rfl := Option.some.inj (hmapped.symm.trans hmap)
  refine none_notMem_of_ordRel hwf hseg hr hrel hlive (fun _ w hw => ⟨d, ?_⟩) hnone
  exact newestAct_eq_true (hc t) hnewest hw

end Sentinel

/-! ### Stores -/

lemma HeadTable.encodable_of_colocated (hdisj : ∀ d ∈ h.delForward, d ∉ h.fwd)
    (hnonneg : ∀ d, d ∈ h.fwd ∨ d ∈ h.delForward → 0 ≤ d) (hc : h.layer.Colocated) :
    h.Encodable where
  disjoint := hdisj
  nonneg := hnonneg
  words_mem {d words} hl w hw := by
    have hdel : d ∉ h.delForward := fun hdel =>
      hdisj d hdel (GoMap.mem_iff_exists_lookup.2 ⟨words, hl⟩)
    have hrec : h.rec? d = some words.toFinset := by simp [rec?, forwardLookup, hdel, hl]
    have hact : h.act w d = some true := hc.posted hrec w (mem_toFinset.2 hw)
    obtain ⟨ops, hops, -⟩ := Option.bind_eq_some_iff.1 hact
    exact GoMap.mem_iff_exists_lookup.2 ⟨ops, hops⟩

namespace Store

variable {opts : Options} {s : Store}

/-- All sources of a store keep records and postings together. -/
def Colocated (s : Store) : Prop :=
  ∀ t, ∀ l ∈ s.layers t, l.Colocated

lemma Sound.posted (h : Sound opts s) {t : TableId} (ht : Fits t) {l : Layer DocId Keyword}
    (hl : l ∈ s.layers t) (hr : l.rec? d = some ws) : ∀ w ∈ ws, l.act w d = some true := by
  have hv : (⟨ws, fun w => l.act w d⟩ : Version Keyword) ∈ s.chain t d := by
    rw [← layerChain_layers]
    exact mem_filterMap.2 ⟨l, hl, by simp [Layer.version, hr]⟩
  exact fun w hw => ((h.chain ht d).coherent _ hv w).2 hw

theorem Sound.colocated (h : Sound opts s) : s.Colocated := by
  refine fun t l hl => ⟨fun hr => ?_, h.readable.closed_layers t l hl⟩
  rcases mem_append.1 hl with hl' | hl'
  · -- only tables whose ids fit have heads
    have ht : Fits t := by
      obtain ⟨x, hx, -⟩ := mem_map.1 hl'
      rw [Store.heads, mem_append, Option.mem_toList, mem_map] at hx
      rcases hx with hx | ⟨e, he, -⟩
      · exact (h.heads.head hx).1
      · obtain ⟨he, het⟩ := mem_filter.1 he
        exact of_decide_eq_true het ▸ (h.heads.spilling e (mem_reverse.1 he)).1
    exact h.posted ht hl hr
  · refine h.posted (fits_ofTid (tid t)) (mem_append_right _ ?_) hr
    rwa [tid_ofTid]

lemma mem_heads_detachHead {t t' : TableId} {x : HeadTable} (hx : x ∈ (s.detachHead t').heads t) :
    x ∈ s.heads t ∨ x = newHeadTable := by
  simp only [heads, detachHead, GoMap.lookup_insert_if, mem_append, Option.mem_toList,
    reverse_append, reverse_singleton, singleton_append, mem_map] at hx ⊢
  rcases hx with hx | ⟨e, he, rfl⟩
  · split at hx
    · exact .inr (Option.some.inj hx).symm
    · exact .inl (.inl hx)
  · obtain ⟨he, ht⟩ := mem_filter.1 he
    rcases mem_cons.1 he with rfl | he
    · obtain rfl : t' = t := of_decide_eq_true ht
      cases hl : s.head.lookup t' with
      | none => exact .inr rfl
      | some y => exact .inl (.inl rfl)
    · exact .inl (.inr ⟨e, mem_filter.2 ⟨he, ht⟩, rfl⟩)

/-- The heads after an operation: those there were, the rewritten head, or an empty one. -/
lemma mem_heads_applyOneOp {op : UpdateOp} {old : List Keyword} {t : TableId} {x : HeadTable}
    (hx : x ∈ (s.applyOneOp opts op old).heads t) : x ∈ s.heads t ∨ x = newHeadTable ∨
      ∃ y, (y ∈ s.heads op.tableId ∨ y = newHeadTable) ∧ x = y.post op.docid op.keywords old := by
  have hpost : ∀ {x}, x ∈ (s.post op old).heads t → x ∈ s.heads t ∨ x = newHeadTable ∨
      ∃ y, (y ∈ s.heads op.tableId ∨ y = newHeadTable) ∧
        x = y.post op.docid op.keywords old := by
    intro x hx
    simp only [heads, Store.post, GoMap.lookup_insert_if, mem_append, Option.mem_toList] at hx ⊢
    split at hx
    · rcases hx with hx | hx
      · refine .inr (.inr ⟨_, ?_, (Option.some.inj hx).symm⟩)
        cases hl : s.head.lookup op.tableId with
        | none => exact .inr rfl
        | some y => exact .inl (.inl rfl)
      · exact .inl (.inr hx)
    · exact .inl hx
  unfold Store.applyOneOp at hx
  obtain heq | heq | ⟨-, heq⟩ := relieve_cases opts (s.post op old) op.tableId <;> rw [heq] at hx
  · exact hpost hx
  · exact hpost hx
  · exact (mem_heads_detachHead hx).elim hpost fun h => .inr (.inl h)

lemma Colocated.applyOneOp (h : s.Colocated) (op : UpdateOp) (old : List Keyword) :
    (s.applyOneOp opts op old).Colocated := by
  have hhead : ∀ {t x}, x ∈ s.heads t → x.layer.Colocated := fun {t x} hx =>
    h t _ (mem_append_left _ (mem_map_of_mem hx))
  intro t l hl
  rcases mem_append.1 hl with hl | hl
  · obtain ⟨x, hx, rfl⟩ := mem_map.1 hl
    obtain hx | rfl | ⟨y, hy | rfl, rfl⟩ := mem_heads_applyOneOp hx
    exacts [hhead hx, HeadTable.colocated_new, HeadTable.colocated_post (hhead hy) _ _ _,
      HeadTable.colocated_post HeadTable.colocated_new _ _ _]
  · rw [(applyOneOp_frame opts s op old).2.1] at hl
    exact h t l (mem_append_right _ hl)

end Store

/-- The head of a document posted under one keyword. -/
def postedHead : HeadTable :=
  newHeadTable.post 1 [[97]] []

/-- The head of a delete that withdrew nothing. -/
def deletedHead : HeadTable :=
  newHeadTable.post 1 [] []

end Haystack.InvertedStore
