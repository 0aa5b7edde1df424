import Haystack.InvertedStore.Layout

/-!
# Readers that must agree

`Search` resolves all keywords of a prefix range at once and `GetDocs` a single keyword; the union of
the answers of the second is the answer of the first, whatever the order in which Go visits the maps
and whatever the limit. `forwardKeywords` skips the segments whose span does not cover the document;
a scan of all segments has the same result.
-/

namespace Haystack.InvertedStore

open Finset List

namespace Store

variable (s : Store)

/-! ### Prefix search -/

/-- An order in which the nested `range` loops over the live documents of all keywords can visit
them: the keywords in any order, and the documents of a keyword in any order. -/
def Visits (live : GoMap Keyword Decided) (order : List (List DocId)) : Prop :=
  ∃ xs, xs.Perm (GoMap.values live) ∧
    List.Forall₂ (fun x ds => ds.Nodup ∧ ds.toFinset = x.live) xs order

/-- The loop that collects the answer: once the limit is reached, the first new document ends it. -/
def collect (limit : ℤ) : Finset DocId → List DocId → Finset DocId
  | docs, [] => docs
  | docs, d :: ds =>
    if 0 < limit ∧ limit ≤ docs.card then if d ∉ docs then docs else collect limit docs ds
    else collect limit (insert d docs) ds

/-- `docs` is a possible answer of `Search(t, query, limit, accept)`. -/
def Answers (toLower : Keyword → Keyword) (t : TableId) (query : Keyword) (limit : ℤ)
    (accept : Keyword → Bool) (docs : Finset DocId) : Prop :=
  if t ∈ s.man.tables then
    ∃ order, Visits (s.searchLive accept t (toLower query)) order ∧
      docs = collect limit ∅ order.flatten
  else docs = ∅

variable {s}

lemma exists_visits (live : GoMap Keyword Decided) : ∃ order, Visits live order := by
  refine ⟨(GoMap.values live).map fun x => x.live.toList, _, .refl _, ?_⟩
  refine forall₂_map_right_iff.2 (forall₂_same.2 fun x _ => ?_)
  exact ⟨x.live.nodup_toList, x.live.toList_toFinset⟩

/-- A document is visited if it is live under some keyword. -/
lemma Visits.mem_iff {live : GoMap Keyword Decided} {order : List (List DocId)}
    (h : Visits live order) (d : DocId) :
    d ∈ order.flatten ↔ ∃ w, d ∈ ((live.lookup w).getD ⟨∅, ∅⟩).live := by
  obtain ⟨xs, hperm, hforall⟩ := h
  have hmem : d ∈ order.flatten ↔ ∃ x ∈ xs, d ∈ x.live := by
    clear hperm
    induction hforall with
    | nil => simp
    | cons hx _ ih => simp [ih, ← hx.2]
  rw [hmem, ← exists_mem_values_iff]
  exact exists_congr fun x => and_congr_left fun _ => hperm.mem_iff

lemma collect_of_nonpos {limit : ℤ} (h : limit ≤ 0) (docs : Finset DocId) (ds : List DocId) :
    collect limit docs ds = docs ∪ ds.toFinset := by
  induction ds generalizing docs with
  | nil => simp [collect]
  | cons d ds ih =>
    rw [collect, if_neg fun hlim => absurd hlim.1 h.not_gt, ih, toFinset_cons,
      insert_union, union_insert]

/-- With a limit that has not been passed, the loop keeps what it has and stops at the limit or at
the last document. -/
lemma collect_of_pos {limit : ℤ} (h : 0 < limit) {docs : Finset DocId} (hdocs : docs.card ≤ limit)
    (ds : List DocId) :
    collect limit docs ds ⊆ docs ∪ ds.toFinset ∧
      ((collect limit docs ds).card : ℤ) = min limit (docs ∪ ds.toFinset).card := by
  induction ds generalizing docs with
  | nil => simpa [collect] using hdocs
  | cons d ds ih =>
    have hunion : docs ∪ (d :: ds).toFinset = insert d docs ∪ ds.toFinset := by
      rw [toFinset_cons, insert_union, union_insert]
    rw [collect]
    split
    case isTrue hfull =>
      have hcard : (docs.card : ℤ) = limit := le_antisymm hdocs hfull.2
      split
      case isTrue =>
        have hsub : docs ⊆ docs ∪ (d :: ds).toFinset := subset_union_left
        have hle := card_le_card hsub
        exact ⟨hsub, by omega⟩
      case isFalse hd =>
        rw [hunion, insert_eq_of_mem (not_not.1 hd)]
        exact ih hdocs
    case isFalse hroom =>
      have hcard := card_insert_le d docs
      rw [hunion]
      exact ih (by push Not at hroom; have := hroom h; omega)

variable {opts : Options}

/-- **Prefix search is the union of exact lookups.** In every reachable state `Search` answers; without
a limit its answer is the set of the documents that `GetDocs` finds under an accepted keyword that
extends the lower-cased query, and with a limit it is a part of that set of the size of the limit or
of the whole set, if that is smaller. -/
theorem search_eq_union (h : Reachable opts s) (toLower : Keyword → Keyword) (t : TableId)
    (query : Keyword) (limit : ℤ) (accept : Keyword → Bool) :
    (∃ docs, s.Answers toLower t query limit accept docs) ∧
    ∃ all : Finset DocId,
      (∀ d, d ∈ all ↔ ∃ w, accept w = true ∧ toLower query <+: w ∧ d ∈ s.getDocs t w) ∧
      ∀ docs, s.Answers toLower t query limit accept docs →
        (limit ≤ 0 → docs = all) ∧
        (0 < limit → docs ⊆ all ∧ (docs.card : ℤ) = min limit all.card) := by
  have hlaid : ∀ seg ∈ s.segs, seg.Laid := fun seg hseg => (h.consistent.usable seg hseg).toLaid
  by_cases ht : t ∈ s.man.tables
  · simp only [Answers, mem_getDocs_of_laid hlaid, ht, if_true, true_and]
    obtain ⟨order, horder⟩ := exists_visits (s.searchLive accept t (toLower query))
    refine ⟨⟨_, order, horder, rfl⟩, order.flatten.toFinset, fun d => ?_, ?_⟩
    · simp [horder.mem_iff, mem_searchLive hlaid]
    · rintro docs ⟨order', horder', rfl⟩
      have hall : order'.flatten.toFinset = order.flatten.toFinset := by
        ext d
        simp only [mem_toFinset, horder.mem_iff, horder'.mem_iff]
      rw [← hall]
      refine ⟨fun hlimit => ?_, fun hlimit => ?_⟩
      · rw [collect_of_nonpos hlimit, empty_union]
      · have hempty : ((∅ : Finset DocId).card : ℤ) ≤ limit := by simpa using hlimit.le
        have hcollect := collect_of_pos hlimit hempty order'.flatten
        rwa [empty_union] at hcollect
  · simp only [Answers, mem_getDocs_of_laid hlaid, ht, if_false, false_and, and_false, exists_false]
    refine ⟨⟨∅, rfl⟩, ∅, by simp, ?_⟩
    rintro docs rfl
    exact ⟨fun _ => rfl, fun hlimit => ⟨le_rfl, by simpa using hlimit.le⟩⟩

/-- Two documents, one with a negative id, are spilled and merged; the store is reopened from an old
MANIFEST and a third document is posted. -/
def upgradedRun : List Event :=
  [.task (.apply [⟨1, 7, [[97]]⟩]), .task (.spill 1), .task (.apply [⟨1, -3, [[97, 98]]⟩]),
    .task (.spill 1), .task .selectTiered, .task .installMerge, .reopen true 4,
    .task (.apply [⟨1, 9, [[97, 99]]⟩])]

theorem search_eq_union_upgraded : ∃ s, Reachable (.singleBlock 1000 2 (by decide) (by decide)) s ∧
    s.segs.length = 1 ∧ ∀ docs, s.Answers id 1 [97] 0 (fun w => w ≠ [97, 98]) docs →
      7 ∈ docs ∧ 9 ∈ docs := by
  set opts : Options := .singleBlock 1000 2 (by decide) (by decide)
  have hexec : (StepSystem.exec (onEvent opts) (fun _ _ => True) (empty [1] 2) upgradedRun).any
      (fun s => s.segs.length = 1 ∧ (7 : DocId) ∈ s.getDocs 1 [97] ∧
        (9 : DocId) ∈ s.getDocs 1 [97, 99]) = true := by
    decide +kernel
  obtain ⟨s, hs, hdec⟩ := (Option.any_eq_true _ _).1 hexec
  obtain ⟨hlen, h₇, h₉⟩ := of_decide_eq_true hdec
  have hreach : Reachable opts s := ⟨[1], 2, upgradedRun, StepSystem.Run.of_exec hs⟩
  obtain ⟨-, all, hall, hanswers⟩ := search_eq_union hreach id 1 [97] 0 fun w => w ≠ [97, 98]
  refine ⟨s, hreach, hlen, fun docs hdocs => ?_⟩
  rw [(hanswers docs hdocs).1 le_rfl]
  exact ⟨(hall 7).2 ⟨[97], by decide, by decide, h₇⟩, (hall 9).2 ⟨[97, 99], by decide, by decide, h₉⟩⟩

/-! ### Skipping segments -/

variable (s) in
/-- The segments' part of `forwardKeywords` without the skip. -/
def segForwardAll (t : UInt32) (d : DocId) : List Segment → Option (List Keyword × Bool)
  | [] => some ([], false)
  | seg :: segs =>
    match seg.lookupForward t d with
    | none => segForwardAll t d segs
    | some ords =>
      if ords = [] then some ([], true)
      else (ords.mapM seg.resolveOrd).map fun words => (words, false)

variable (s) in
/-- `forwardKeywords` with a scan that never skips a segment. -/
def forwardKeywordsAll (t : TableId) (d : DocId) : Option (List Keyword × Bool) :=
  match (s.heads t).findSome? fun h => h.forwardLookup d with
  | some r => some r
  | none => segForwardAll (tid t) d s.segs.reverse

end Store

namespace Segment

variable {seg : Segment}

/-- A segment whose span does not cover a document has no record of it to find. -/
lemma Spanned.lookupForward_eq_none (h : seg.Spanned) {d : DocId} (hd : seg.coversDocid d = false)
    (t : UInt32) : seg.lookupForward t d = none := by
  rw [lookupForward, Option.map_eq_none_iff, getLast?_eq_none_iff]
  refine eq_nil_iff_forall_not_mem.2 fun r hr => ?_
  rw [scanPrefix_eq_scan] at hr
  obtain ⟨hmem, hpre⟩ := PrefixScan.mem_scan hr
  rw [Rec.forwardKey_prefix_key_iff, Rec.key_eq_forwardKey] at hpre
  rw [hpre] at hmem
  obtain ⟨hmin, hmax⟩ := h hmem
  simp [coversDocid, hmin, hmax] at hd

end Segment

namespace Store

variable {opts : Options} {s : Store}

lemma segForward_eq_segForwardAll (t : UInt32) (d : DocId) {segs : List Segment}
    (h : ∀ seg ∈ segs, seg.Spanned) : segForward t d segs = segForwardAll t d segs := by
  induction segs with
  | nil => rfl
  | cons seg segs ih =>
    have ih := ih fun seg' h' => h seg' (mem_cons_of_mem _ h')
    rw [segForward, segForwardAll]
    split
    case isTrue hskip =>
      have hnone : seg.lookupForward t d = none :=
        Segment.Spanned.lookupForward_eq_none (h seg mem_cons_self) (eq_false_of_ne_true hskip) t
      rw [hnone, ih]
    case isFalse =>
      cases seg.lookupForward t d with
      | none => exact ih
      | some ords => rfl

/-- **The skip is sound.** In every reachable state the span of a segment covers all its forward
records, and a forward read that skips segments finds what a scan of all segments finds. -/
theorem forwardKeywords_skip_sound (h : Reachable opts s) :
    (∀ seg ∈ s.segs, ∀ {t d ords}, Rec.fwd t d ords ∈ seg.recs →
      seg.minDocid ≤ d ∧ d ≤ seg.maxDocid) ∧
    ∀ t d, s.forwardKeywords t d = s.forwardKeywordsAll t d := by
  have hspanned : ∀ seg ∈ s.segs, seg.Spanned := fun seg hseg => (h.consistent.usable seg hseg).spanned
  refine ⟨fun seg hseg => hspanned seg hseg, fun t d => ?_⟩
  have hsegs : segForward (tid t) d s.segs.reverse = segForwardAll (tid t) d s.segs.reverse :=
    segForward_eq_segForwardAll _ _ fun seg hseg => hspanned seg (mem_reverse.1 hseg)
  cases hheads : (s.heads t).findSome? fun h => h.forwardLookup d with
  | none => simp only [forwardKeywords, forwardKeywordsAll, hheads, hsegs]
  | some words => simp only [forwardKeywords, forwardKeywordsAll, hheads]

theorem forwardKeywords_skip_sound_upgraded :
    ∃ s, Reachable (.singleBlock 1000 2 (by decide) (by decide)) s ∧
      (s.segs.any fun seg => !seg.coversDocid 8) = true ∧
      s.forwardKeywords 1 8 = s.forwardKeywordsAll 1 8 ∧
      s.forwardKeywords 1 (-3) = some ([[97, 98]], false) := by
  set opts : Options := .singleBlock 1000 2 (by decide) (by decide)
  have hexec : (StepSystem.exec (onEvent opts) (fun _ _ => True) (empty [1] 2) upgradedRun).any
      (fun s => (s.segs.any fun seg => !seg.coversDocid 8) = true ∧
        s.forwardKeywords 1 (-3) = some ([[97, 98]], false)) = true := by
    decide +kernel
  obtain ⟨s, hs, hdec⟩ := (Option.any_eq_true _ _).1 hexec
  obtain ⟨hskip, hfwd⟩ := of_decide_eq_true hdec
  have hreach : Reachable opts s := ⟨[1], 2, upgradedRun, StepSystem.Run.of_exec hs⟩
  exact ⟨s, hreach, hskip, (forwardKeywords_skip_sound hreach).2 1 8, hfwd⟩

end Store

end Haystack.InvertedStore
