import Haystack.Lib.ListScan
import Haystack.InvertedStore.Steps
import Haystack.InvertedStore.MergeViews

/-!
# What the readers see

The sources of a table, newest first, are layers over its documents. Every reader of the store is a
function of these layers alone: of the newest action on a document under a keyword (`getDocs`,
`search`) or of the newest record of a document (`forwardKeywords`, `forwardDocids`).
-/

namespace Haystack.InvertedStore

open List

namespace Store

variable (s : Store)

/-- What the segments say about a table, newest first. -/
def segLayers (segs : List Segment) (t : UInt32) : List (Layer DocId Keyword) :=
  segs.reverse.map fun seg => seg.layer t

/-- The sources of a table, newest first. -/
def layers (t : TableId) : List (Layer DocId Keyword) :=
  (s.heads t).map HeadTable.layer ++ segLayers s.segs (tid t)

/-- The newest action on a document under a keyword. -/
def topAct (t : TableId) (w : Keyword) (d : DocId) : Option Bool :=
  (s.layers t).findSome? fun l => l.act w d

/-- The newest record of a document. -/
def topRec (t : TableId) (d : DocId) : Option (Finset Keyword) :=
  (s.layers t).findSome? fun l => l.rec? d

variable {s} {d : DocId} {t : TableId} {seg : Segment} {segs : List Segment} {q w : Keyword}
  {w : Keyword}

/-! ### Deciding documents -/

/-- What a source's adds and dels say about a document. -/
def pairAct (d : DocId) (p : List DocId × List DocId) : Option Bool :=
  if d ∈ p.2 then some false else if d ∈ p.1 then some true else none

lemma pairAct_resolveOps (d : DocId) (ops : List (DocId × Bool)) :
    pairAct d (resolveOps ops) = lastAct ops d := by
  simp only [pairAct, mem_resolveOps_fst, mem_resolveOps_snd]
  cases h : lastAct ops d with
  | none => simp
  | some b => cases b <;> simp

lemma mem_foldl_insert (l : List DocId) (x : Finset DocId) (d : DocId) :
    d ∈ l.foldl (fun x d => insert d x) x ↔ d ∈ x ∨ d ∈ l := by
  induction l generalizing x with
  | nil => simp
  | cons d' l ih => simp [ih]; tauto

namespace Decided

/-- Adding documents decides those not yet decided. -/
lemma mem_foldl_add (adds : List DocId) (x : Decided) (d : DocId) :
    let y := adds.foldl (fun x d =>
      if d ∈ x.seen then x else ⟨insert d x.seen, insert d x.live⟩) x
    (d ∈ y.seen ↔ d ∈ x.seen ∨ d ∈ adds) ∧ (d ∈ y.live ↔ d ∈ x.live ∨ (d ∉ x.seen ∧ d ∈ adds)) := by
  induction adds generalizing x with
  | nil => simp
  | cons d' adds ih =>
    rw [foldl_cons]
    obtain ⟨hseen, hlive⟩ := ih (if d' ∈ x.seen then x else ⟨insert d' x.seen, insert d' x.live⟩)
    refine ⟨hseen.trans ?_, hlive.trans ?_⟩ <;> by_cases h : d' ∈ x.seen <;> by_cases hd : d = d' <;>
      simp [h, hd]

lemma mem_seen_merge (x : Decided) (adds dels : List DocId) (d : DocId) :
    d ∈ (x.merge adds dels).seen ↔ d ∈ x.seen ∨ (pairAct d (adds, dels)).isSome := by
  simp only [merge, (mem_foldl_add _ _ d).1, mem_foldl_insert, pairAct]
  by_cases h : d ∈ dels <;> by_cases h' : d ∈ adds <;> simp [h, h']

lemma mem_live_merge (x : Decided) (adds dels : List DocId) (d : DocId) :
    d ∈ (x.merge adds dels).live ↔
      d ∈ x.live ∨ (d ∉ x.seen ∧ pairAct d (adds, dels) = some true) := by
  simp only [merge, (mem_foldl_add _ _ d).2, mem_foldl_insert, pairAct]
  by_cases h : d ∈ dels <;> by_cases h' : d ∈ adds <;> simp [h, h']

/-- After all sources, newest first, the live documents are those whose newest action adds them. -/
lemma mem_live_foldl (l : List (List DocId × List DocId)) (x : Decided) (d : DocId) :
    d ∈ (l.foldl (fun (x : Decided) p => x.merge p.1 p.2) x).live ↔
      d ∈ x.live ∨ (d ∉ x.seen ∧ l.findSome? (pairAct d) = some true) := by
  induction l generalizing x with
  | nil => simp
  | cons p l ih =>
    rw [foldl_cons, ih, mem_live_merge, mem_seen_merge, findSome?_cons]
    cases h : pairAct d p with
    | none => simp
    | some b => simp

lemma mem_seen_foldl (l : List (List DocId × List DocId)) (x : Decided) (d : DocId) :
    d ∈ (l.foldl (fun (x : Decided) p => x.merge p.1 p.2) x).seen ↔
      d ∈ x.seen ∨ (l.findSome? (pairAct d)).isSome := by
  induction l generalizing x with
  | nil => simp
  | cons p l ih =>
    rw [foldl_cons, ih, mem_seen_merge, findSome?_cons]
    cases h : pairAct d p <;> simp

end Decided

/-! ### Postings -/

/-- The records of a segment under a keyword prefix that carry a key: at most one. -/
lemma filter_scanPrefix (hseg : seg.Laid) (t : UInt32) (h : q <+: w) :
    (seg.scanPrefix (invertedKey t q) (Bytes.prefixUpper (invertedKey t q))).filter
        (fun r => r.key = invertedKey t w) =
      (KWay.lookup Rec.key (invertedKey t w) seg.recs).toList := by
  have hpre : invertedKey t q <+: invertedKey t w := Rec.invertedKey_prefix_invertedKey h
  rw [hseg.scanPrefix_inv, filter_filter]
  have hpred : ∀ r ∈ seg.recs, (decide (r.key = invertedKey t w) &&
      decide (invertedKey t q <+: r.key)) = decide (r.key = invertedKey t w) := fun r _ => by
    by_cases hr : r.key = invertedKey t w <;> simp [hr, hpre]
  rw [filter_congr hpred]
  convert hseg.sorted.filter_key_eq (isInvKey_invertedKey t w)

/-- The newest action of a source list that is described head by head and segment by segment. -/
lemma findSome?_layers {α : Type*} {g : α → Option Bool} {f : HeadTable → List α}
    {f' : Segment → List α} (hhead : ∀ h, (f h).findSome? g = h.act w d)
    (hseg : ∀ seg ∈ s.segs, (f' seg).findSome? g = seg.act (tid t) w d) :
    ((s.heads t).flatMap f ++ s.segs.reverse.flatMap f').findSome? g = s.topAct t w d := by
  rw [topAct, layers, findSome?_append, findSome?_append, ListScan.findSome?_flatMap,
    ListScan.findSome?_flatMap, findSome?_map, segLayers, findSome?_map]
  congr 1
  · exact ListScan.findSome?_congr fun h _ => hhead h
  · exact ListScan.findSome?_congr fun seg hs => hseg seg (mem_reverse.1 hs)

/-- `GetDocs` answers with the documents whose newest action adds them. -/
theorem mem_getDocs_of_laid (hlaid : ∀ seg ∈ s.segs, seg.Laid) :
    d ∈ s.getDocs t w ↔ t ∈ s.man.tables ∧ s.topAct t w d = some true := by
  have hpost : (s.postings t w).findSome? (pairAct d) = s.topAct t w d := by
    refine findSome?_layers (fun h => ?_) fun seg hseg => ?_
    · cases hl : h.inv.lookup w <;> simp [HeadTable.act, hl, pairAct_resolveOps]
    · rw [filter_scanPrefix (hlaid seg hseg) (tid t) prefix_rfl]
      cases hl : KWay.lookup Rec.key (invertedKey (tid t) w) seg.recs <;>
        simp [Segment.act, hl, pairAct, Segment.recAct]
  unfold getDocs
  split
  case isTrue ht => simp [Decided.mem_live_foldl, hpost, ht]
  case isFalse ht => simp [ht]

theorem mem_getDocs (hwf : ∀ seg ∈ s.segs, seg.WF) :
    d ∈ s.getDocs t w ↔ t ∈ s.man.tables ∧ s.topAct t w d = some true :=
  mem_getDocs_of_laid fun seg hseg => (hwf seg hseg).laid

/-! ### Prefix search -/

/-- The state of a keyword after all hits. -/
lemma getD_lookup_foldl (hits : List (Keyword × List DocId × List DocId)) (m : GoMap Keyword Decided)
    (w : Keyword) :
    ((hits.foldl (fun m hit =>
        m.insert hit.1 (((m.lookup hit.1).getD ⟨∅, ∅⟩).merge hit.2.1 hit.2.2)) m).lookup w).getD
        ⟨∅, ∅⟩ =
      ((hits.filter fun hit => hit.1 = w).map Prod.snd).foldl
        (fun (x : Decided) p => x.merge p.1 p.2) ((m.lookup w).getD ⟨∅, ∅⟩) := by
  induction hits generalizing m with
  | nil => rfl
  | cons hit hits ih =>
    rw [foldl_cons, ih, GoMap.lookup_insert_if]
    by_cases h : hit.1 = w
    · subst h
      simp
    · simp [h, Ne.symm h]

lemma mem_foldl_union (xs : List Decided) (docs : Finset DocId) (d : DocId) :
    d ∈ xs.foldl (fun docs x => docs ∪ x.live) docs ↔ d ∈ docs ∨ ∃ x ∈ xs, d ∈ x.live := by
  induction xs generalizing docs with
  | nil => simp
  | cons x xs ih => simp [ih, or_assoc]

/-- Every hit of a search extends the query. -/
lemma prefix_of_mem_searchHits (hlaid : ∀ seg ∈ s.segs, seg.Laid) {q : Keyword}
    {hit : Keyword × List DocId × List DocId} (h : hit ∈ s.searchHits t q) : q <+: hit.1 := by
  simp only [searchHits, mem_append, mem_flatMap, mem_map, mem_filter,
    mem_reverse, decide_eq_true_eq] at h
  obtain ⟨_, -, e, ⟨-, he⟩, rfl⟩ | ⟨seg, hseg, r, hr, rfl⟩ := h
  · exact he
  · rw [(hlaid seg hseg).scanPrefix_inv, mem_filter, decide_eq_true_eq,
      Rec.invertedKey_prefix_key_iff] at hr
    obtain ⟨-, w, hw, hq⟩ := hr
    rwa [Rec.drop_key hw]

/-- The hits of one keyword are those `GetDocs` would see. -/
lemma findSome?_searchHits (hlaid : ∀ seg ∈ s.segs, seg.Laid) (hq : q <+: w) (d : DocId) :
    (s.searchHits t q).findSome? (fun hit => if hit.1 = w then pairAct d hit.2 else none) =
      s.topAct t w d := by
  refine findSome?_layers (fun h => ?_) fun seg hseg => ?_
  · rw [findSome?_map, ListScan.findSome?_filter]
    trans h.inv.entries.findSome? fun e => if e.1 = w then lastAct e.2 d else none
    · refine ListScan.findSome?_congr fun e _ => ?_
      by_cases he : e.1 = w <;> simp [he, hq, pairAct_resolveOps]
    · exact GoMap.findSome?_entries h.inv w fun ops => lastAct ops d
  · have hlaid := hlaid seg hseg
    rw [findSome?_map, Segment.act, ← ListScan.findSome?_toList,
      ← filter_scanPrefix hlaid (tid t) hq, ListScan.findSome?_filter]
    refine ListScan.findSome?_congr fun r hr => ?_
    rw [hlaid.scanPrefix_inv, mem_filter, decide_eq_true_eq,
      Rec.invertedKey_prefix_key_iff] at hr
    obtain ⟨-, w', hw', -⟩ := hr
    have hkey : r.key = invertedKey (tid t) w ↔ w' = w := by
      simp [Rec.key_eq_invertedKey, hw']
    by_cases hw : w' = w <;> simp [Rec.drop_key hw', hkey, hw, pairAct, Segment.recAct]

variable (s) in
/-- `seen` and `live` of `Search`, per accepted keyword, after all hits. -/
def searchLive (accept : Keyword → Bool) (t : TableId) (q : Keyword) : GoMap Keyword Decided :=
  ((s.searchHits t q).filter fun hit => accept hit.1).foldl (fun m hit =>
    m.insert hit.1 (((m.lookup hit.1).getD ⟨∅, ∅⟩).merge hit.2.1 hit.2.2)) ∅

/-- A document is live under a keyword if `GetDocs` finds it there. -/
lemma mem_searchLive (hlaid : ∀ seg ∈ s.segs, seg.Laid) {accept : Keyword → Bool} :
    d ∈ (((s.searchLive accept t q).lookup w).getD ⟨∅, ∅⟩).live ↔
      accept w = true ∧ q <+: w ∧ s.topAct t w d = some true := by
  have hhits : d ∈ (((s.searchLive accept t q).lookup w).getD ⟨∅, ∅⟩).live ↔
      accept w = true ∧ (s.searchHits t q).findSome?
        (fun hit => if hit.1 = w then pairAct d hit.2 else none) = some true := by
    rw [searchLive, getD_lookup_foldl, Decided.mem_live_foldl, findSome?_map, filter_filter,
      ListScan.findSome?_filter]
    cases haccept : accept w with
    | true =>
      have hcongr : ∀ hit : Keyword × List DocId × List DocId,
          (decide (hit.1 = w) && accept hit.1) = decide (hit.1 = w) := fun hit => by
        by_cases hw : hit.1 = w <;> simp [hw, haccept]
      simp [hcongr]
    | false =>
      have hcongr : ∀ hit : Keyword × List DocId × List DocId,
          (decide (hit.1 = w) && accept hit.1) = false := fun hit => by
        by_cases hw : hit.1 = w <;> simp [hw, haccept]
      have hnone : (s.searchHits t q).findSome? (fun _ => (none : Option Bool)) = none :=
        findSome?_eq_none_iff.2 fun _ _ => rfl
      simp [hcongr, hnone]
  rw [hhits]
  refine and_congr_right fun _ => ?_
  constructor
  · intro h
    obtain ⟨hit, hmem, hact⟩ := exists_of_findSome?_eq_some h
    have hw : hit.1 = w := by
      by_contra hne
      simp [hne] at hact
    have hq : q <+: w := hw ▸ prefix_of_mem_searchHits hlaid hmem
    exact ⟨hq, by rwa [findSome?_searchHits hlaid hq] at h⟩
  · rintro ⟨hq, h⟩
    rwa [findSome?_searchHits hlaid hq]

/-- The live documents of all keywords of a map. -/
lemma exists_mem_values_iff (m : GoMap Keyword Decided) (d : DocId) :
    (∃ x ∈ GoMap.values m, d ∈ x.live) ↔ ∃ w, d ∈ ((m.lookup w).getD ⟨∅, ∅⟩).live := by
  constructor
  · rintro ⟨x, hx, hd⟩
    obtain ⟨⟨w, _⟩, he, rfl⟩ := mem_map.1 hx
    exact ⟨w, by simpa [GoMap.mem_entries_iff.1 he] using hd⟩
  · rintro ⟨w, hd⟩
    cases hl : m.lookup w with
    | none => simp [hl] at hd
    | some x =>
      exact ⟨x, mem_map.2 ⟨⟨w, x⟩, GoMap.mem_entries_iff.2 hl, rfl⟩, by simpa [hl] using hd⟩

/-- `Search` answers with the documents that some keyword extending the query adds. -/
theorem mem_search (hwf : ∀ seg ∈ s.segs, seg.WF) {toLower : Keyword → Keyword} {query : Keyword} :
    d ∈ s.search toLower t query ↔
      t ∈ s.man.tables ∧ ∃ w, toLower query <+: w ∧ s.topAct t w d = some true := by
  unfold search
  split
  case isFalse ht => simp [ht]
  case isTrue ht =>
    have hlive : (s.searchHits t (toLower query)).foldl (fun m hit =>
        m.insert hit.1 (((m.lookup hit.1).getD ⟨∅, ∅⟩).merge hit.2.1 hit.2.2)) ∅ =
          s.searchLive (fun _ => true) t (toLower query) := by
      rw [searchLive, filter_true]
    simp only [hlive, mem_foldl_union, exists_mem_values_iff,
      mem_searchLive fun seg hseg => (hwf seg hseg).laid, ht, true_and, Finset.notMem_empty, false_or]

/-! ### Forward reads -/

/-- A segment whose span does not cover a document has no record of it. -/
lemma fwd_eq_none_of_not_covers (hwf : seg.WF) {t : UInt32} (h : seg.coversDocid d = false) :
    seg.fwd t d = none := by
  refine Option.eq_none_iff_forall_ne_some.2 fun ws hws => ?_
  obtain ⟨ords, hr, -⟩ := hwf.fwd_eq_some_iff.1 hws
  simp [Segment.coversDocid, (hwf.span hr).1, (hwf.span hr).2] at h

/-- A record has no words only if it is a tombstone. -/
lemma words_eq_empty_iff (hwf : seg.WF) {t : UInt32} {ords : List ℕ}
    (hr : Rec.fwd t d ords ∈ seg.recs) : seg.words ords = ∅ ↔ ords = [] := by
  refine ⟨fun h => eq_nil_iff_forall_not_mem.2 fun o ho => ?_, fun h => by simp [h, Segment.words]⟩
  obtain ⟨w, hw⟩ := hwf.ords_ok hr o ho
  have := (hwf.mem_words_iff hr).2 ⟨o, ho, hw⟩
  simp [h] at this

/-- The segments' part of a forward read resolves and finds the newest record, which is a tombstone
exactly if the document is reported as deleted. -/
lemma exists_segForward (segs : List Segment) (hwf : ∀ seg ∈ segs, seg.WF) (t : UInt32)
    (d : DocId) : ∃ words del, segForward t d segs = some (words, del) ∧
      words.toFinset = (segs.findSome? fun seg => seg.fwd t d).getD ∅ ∧
      del = decide ((segs.findSome? fun seg => seg.fwd t d) = some ∅) := by
  induction segs with
  | nil => exact ⟨[], false, rfl, rfl, rfl⟩
  | cons seg segs ih =>
    have hseg := hwf seg (mem_cons_self ..)
    have ih := ih fun seg' h' => hwf seg' (mem_cons_of_mem _ h')
    rw [segForward, findSome?_cons, hseg.lookupForward_eq]
    by_cases hcov : seg.coversDocid d = true
    · rw [if_neg (by simpa using hcov)]
      cases hl : KWay.lookup Rec.key (forwardKey t d) seg.recs with
      | none =>
        have hnone : seg.fwd t d = none := by simp [Segment.fwd, hl]
        simpa [hnone] using ih
      | some r =>
        obtain ⟨hr, hmem⟩ := hseg.lookup_forwardKey.1 hl
        have hfwd : seg.fwd t d = some (seg.words r.ords) := by simp [Segment.fwd, hl]
        have hempty := words_eq_empty_iff hseg (hr ▸ hmem)
        have hres : r.ords.mapM seg.resolveOrd = some (r.ords.filterMap seg.resolveOrd) :=
          ListScan.mapM_eq_filterMap fun o ho => hseg.resolveOrd_isSome (hr ▸ hmem) ho
        by_cases hords : r.ords = []
        · exact ⟨[], true, by simp [hords], by simp [hfwd, hords, Segment.words],
            by simp [hfwd, hords, Segment.words]⟩
        · exact ⟨r.ords.filterMap seg.resolveOrd, false, by simp [hords, hres],
            by simp [hfwd, Segment.words], by simp [hfwd, hempty, hords]⟩
    · have hnone := fwd_eq_none_of_not_covers (t := t) hseg (eq_false_of_ne_true hcov)
      simpa [hcov, hnone] using ih

lemma findSome?_rec_segLayers (segs : List Segment) (t : UInt32) (d : DocId) :
    (segLayers segs t).findSome? (fun l => l.rec? d) =
      segs.reverse.findSome? fun seg => seg.fwd t d := by
  rw [segLayers, findSome?_map]
  rfl

/-- The heads are read before the segments. -/
lemma topRec_eq (s : Store) (t : TableId) (d : DocId) :
    s.topRec t d = ((s.heads t).findSome? fun h => h.rec? d).or
      (s.segs.reverse.findSome? fun seg => seg.fwd (tid t) d) := by
  rw [topRec, layers, findSome?_append, findSome?_rec_segLayers, findSome?_map]
  rfl

/-- `forwardKeywords` does not panic and answers with the newest record. -/
theorem exists_forwardKeywords (hwf : ∀ seg ∈ s.segs, seg.WF) (t : TableId) (d : DocId) :
    ∃ words del, s.forwardKeywords t d = some (words, del) ∧
      words.toFinset = (s.topRec t d).getD ∅ := by
  have hheads : ((s.heads t).map HeadTable.layer).findSome? (fun l => l.rec? d) =
      ((s.heads t).findSome? fun h => h.forwardLookup d).map fun x => x.1.toFinset := by
    rw [findSome?_map, map_findSome?]
    rfl
  unfold forwardKeywords
  rw [topRec, layers, findSome?_append, hheads]
  cases hf : (s.heads t).findSome? fun h => h.forwardLookup d with
  | some x => exact ⟨x.1, x.2, rfl, by simp⟩
  | none =>
    obtain ⟨words, del, h, hw, -⟩ := exists_segForward s.segs.reverse
      (fun seg hs => hwf seg (mem_reverse.1 hs)) (tid t) d
    exact ⟨words, del, h, by simpa [findSome?_rec_segLayers] using hw⟩

/-! ### Enumerating live documents -/

/-- The ordinals of the newest record of a document in the segments. -/
def newestOrds (segs : List Segment) (t : UInt32) (d : DocId) : Option (List ℕ) :=
  segs.reverse.findSome? fun seg => (KWay.lookup Rec.key (forwardKey t d) seg.recs).map Rec.ords

/-- What a scan of a table's forward records finds for a document in one segment. -/
lemma find?_scan_forward (hwf : seg.WF) (t : UInt32) (d : DocId) :
    ((seg.scanPrefix (forwardKeyPrefix t) (Bytes.prefixUpper (forwardKeyPrefix t))).filterMap
      Rec.fwd?).find? (fun x => x.1 = d) =
      (KWay.lookup Rec.key (forwardKey t d) seg.recs).map fun r => (d, r.ords) := by
  have hmem : ∀ x, x ∈ (seg.scanPrefix (forwardKeyPrefix t)
      (Bytes.prefixUpper (forwardKeyPrefix t))).filterMap Rec.fwd? ↔
        Rec.fwd t x.1 x.2 ∈ seg.recs := by
    rintro ⟨d', ords⟩
    simp only [hwf.scanPrefix_eq, mem_filterMap, mem_filter, decide_eq_true_eq,
      Rec.forwardKeyPrefix_prefix_key_iff]
    constructor
    · rintro ⟨r, ⟨hr, d'', ords'', rfl⟩, hx⟩
      cases hx
      exact hr
    · exact fun h => ⟨_, ⟨h, d', ords, rfl⟩, rfl⟩
  cases hl : KWay.lookup Rec.key (forwardKey t d) seg.recs with
  | none =>
    refine find?_eq_none.2 fun x hx => ?_
    simp only [decide_eq_true_eq]
    rintro rfl
    have := hwf.lookup_forwardKey.2 ⟨rfl, (hmem x).1 hx⟩
    simp [hl] at this
  | some r =>
    obtain ⟨hr, hrmem⟩ := hwf.lookup_forwardKey.1 hl
    cases hf : find? (fun x : DocId × List ℕ => decide (x.1 = d)) _ with
    | none =>
      have := find?_eq_none.1 hf (d, r.ords) ((hmem _).2 (hr ▸ hrmem))
      simp at this
    | some x =>
      obtain rfl : x.1 = d := by simpa using find?_some hf
      have hx := hwf.lookup_forwardKey.2 ⟨rfl, (hmem x).1 (mem_of_find?_eq_some hf)⟩
      obtain rfl := Option.some.inj (hl.symm.trans hx)
      rfl

/-- The enumeration yields each undecided document once, with its newest record. -/
theorem liveSegmentForward_spec (hwf : ∀ seg ∈ segs, seg.WF) (t : UInt32) (decided : Finset DocId) :
    ((liveSegmentForward t decided segs).map Prod.fst).Nodup ∧
      ∀ d ords, (d, ords) ∈ liveSegmentForward t decided segs ↔
        d ∉ decided ∧ newestOrds segs t d = some ords := by
  obtain ⟨-, hnodup, hmem⟩ := ListScan.foldl_firsts (segs.reverse.flatMap fun seg =>
    (seg.scanPrefix (forwardKeyPrefix t) (Bytes.prefixUpper (forwardKeyPrefix t))).filterMap
      Rec.fwd?) decided
  refine ⟨hnodup, fun d ords => (hmem (d, ords)).trans (and_congr_right fun _ => ?_)⟩
  have hfind : segs.reverse.findSome? (fun seg =>
      ((seg.scanPrefix (forwardKeyPrefix t) (Bytes.prefixUpper (forwardKeyPrefix t))).filterMap
        Rec.fwd?).find? fun x => x.1 = d) = (newestOrds segs t d).map fun ords => (d, ords) := by
    rw [newestOrds, map_findSome?]
    refine ListScan.findSome?_congr fun seg hseg => ?_
    rw [find?_scan_forward (hwf seg (mem_reverse.1 hseg)), Function.comp, Option.map_map]
    rfl
  rw [find?_flatMap, hfind, Option.map_eq_some_iff]
  simp

/-- The record behind the newest ordinals. -/
lemma newestOrds_eq_some (hwf : ∀ seg ∈ segs, seg.WF) {t : UInt32} {ords : List ℕ}
    (h : newestOrds segs t d = some ords) :
    ∃ seg ∈ segs, Rec.fwd t d ords ∈ seg.recs ∧
      (segs.reverse.findSome? fun seg => seg.fwd t d) = some (seg.words ords) := by
  obtain ⟨pre, seg, post, hsplit, hseg, hpre⟩ := findSome?_eq_some_iff.1 h
  have hmem : seg ∈ segs := mem_reverse.1 (by simp [hsplit])
  obtain ⟨r, hl, rfl⟩ := Option.map_eq_some_iff.1 hseg
  obtain ⟨hr, hrmem⟩ := (hwf seg hmem).lookup_forwardKey.1 hl
  refine ⟨seg, hmem, hr ▸ hrmem, ?_⟩
  refine findSome?_eq_some_iff.2 ⟨pre, seg, post, hsplit, by simp [Segment.fwd, hl], ?_⟩
  exact fun seg' h' => by simpa [Segment.fwd] using hpre seg' h'

lemma newestOrds_eq_none {t : UInt32} :
    newestOrds segs t d = none ↔ (segs.reverse.findSome? fun seg => seg.fwd t d) = none := by
  simp [newestOrds, findSome?_eq_none_iff, Segment.fwd]

/-- A head decides a document in `ForwardDocids` as its record says. -/
lemma pairAct_forward {h : HeadTable} (hne : ∀ {d words}, h.fwd.lookup d = some words → words ≠ [])
    (d : DocId) :
    pairAct d (h.fwd.keys, h.delForward.keys) = (h.rec? d).map fun ws => decide (ws ≠ ∅) := by
  simp only [pairAct, ← AList.mem_keys, HeadTable.rec?, HeadTable.forwardLookup]
  by_cases hdel : d ∈ h.delForward
  · simp [hdel]
  · cases hl : h.fwd.lookup d with
    | none => simp [hdel, AList.lookup_eq_none.1 hl]
    | some words =>
      have hmem : d ∈ h.fwd := GoMap.mem_iff_exists_lookup.2 ⟨words, hl⟩
      simp [hdel, hmem, hne hl]

lemma mem_foldl_live (l : List (DocId × List ℕ)) (live : Finset DocId) (d : DocId) :
    d ∈ l.foldl (fun live y => if y.2 = [] then live else insert y.1 live) live ↔
      d ∈ live ∨ ∃ ords, (d, ords) ∈ l ∧ ords ≠ [] := by
  induction l generalizing live with
  | nil => simp
  | cons y l ih =>
    obtain ⟨d', ords'⟩ := y
    rw [foldl_cons, ih]
    by_cases h : ords' = []
    · simp only [h, if_true, mem_cons, Prod.mk.injEq]
      refine or_congr_right (exists_congr fun ords => ?_)
      constructor
      · exact fun ⟨hm, hn⟩ => ⟨.inr hm, hn⟩
      · rintro ⟨⟨-, rfl⟩ | hm, hn⟩
        exacts [absurd rfl hn, ⟨hm, hn⟩]
    · simp only [h, if_false, Finset.mem_insert, mem_cons, Prod.mk.injEq, or_and_right,
        exists_or]
      constructor
      · rintro ((rfl | hl) | hr)
        exacts [.inr (.inl ⟨ords', ⟨rfl, rfl⟩, h⟩), .inl hl, .inr (.inr hr)]
      · rintro (hl | ⟨ords, ⟨rfl, -⟩, -⟩ | hr)
        exacts [.inl (.inr hl), .inl (.inl rfl), .inr hr]

/-- `ForwardDocids` yields the documents whose newest record has words. -/
theorem mem_forwardDocids (hwf : ∀ seg ∈ s.segs, seg.WF)
    (hne : ∀ h ∈ s.heads t, ∀ {d words}, h.fwd.lookup d = some words → words ≠ []) :
    d ∈ s.forwardDocids t ↔ t ∈ s.man.tables ∧ ∃ ws, s.topRec t d = some ws ∧ ws ≠ ∅ := by
  unfold forwardDocids
  split
  case isFalse ht => simp [ht]
  case isTrue ht =>
    set heads := (s.heads t).map fun h => (h.fwd.keys, h.delForward.keys) with hheads
    have hfold : (s.heads t).foldl (fun (x : Decided) h => x.merge h.fwd.keys h.delForward.keys)
        ⟨∅, ∅⟩ = heads.foldl (fun (x : Decided) p => x.merge p.1 p.2) ⟨∅, ∅⟩ := by
      rw [hheads, foldl_map]
    have hact : heads.findSome? (pairAct d) =
        ((s.heads t).findSome? fun h => h.rec? d).map fun ws => decide (ws ≠ ∅) := by
      rw [hheads, findSome?_map, map_findSome?]
      exact ListScan.findSome?_congr fun h hh => pairAct_forward (hne h hh) d
    simp only [hfold, mem_foldl_live, Decided.mem_live_foldl, ht, true_and, topRec_eq,
      (liveSegmentForward_spec hwf _ _).2, Decided.mem_seen_foldl, hact]
    cases hh : (s.heads t).findSome? fun h => h.rec? d with
    | some ws => simp
    | none =>
      -- no head mentions the document: the newest record of the segments decides
      have hiff : (∃ ords, newestOrds s.segs (tid t) d = some ords ∧ ords ≠ []) ↔
          ∃ ws, (s.segs.reverse.findSome? fun seg => seg.fwd (tid t) d) = some ws ∧ ws ≠ ∅ := by
        cases ho : newestOrds s.segs (tid t) d with
        | none => simp [newestOrds_eq_none.1 ho]
        | some ords =>
          obtain ⟨seg, hseg, hr, hfwd⟩ := newestOrds_eq_some hwf ho
          simp [hfwd, words_eq_empty_iff (hwf seg hseg) hr]
      simpa using hiff

end Store

end Haystack.InvertedStore
