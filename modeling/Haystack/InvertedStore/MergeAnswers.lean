import Haystack.InvertedStore.Colocation
import Haystack.InvertedStore.LiveCount

/-!
# What readers see of a merge

A tiered merge replaces neighbouring segments by one that says the same about every keyword and
every document, so no reader can tell the difference. A covering merge replaces all segments: it
keeps the postings and records of live documents of catalog tables and nothing else. Whether the
postings it keeps are as many as the live pairs that the forward records count depends on the two
agreeing about every document.
-/

namespace Haystack.InvertedStore

open List

/-! ### Newest actions and records -/

lemma newestAct_append (segs segs' : List Segment) (t : UInt32) (w : Keyword) (d : DocId) :
    newestAct (segs ++ segs') t w d = (newestAct segs' t w d).or (newestAct segs t w d) := by
  simp [newestAct, findSome?_append]

lemma newestFwd_append (segs segs' : List Segment) (t : UInt32) (d : DocId) :
    newestFwd (segs ++ segs') t d = (newestFwd segs' t d).or (newestFwd segs t d) := by
  simp [newestFwd, findSome?_append]

@[simp] lemma newestAct_singleton (seg : Segment) (t : UInt32) (w : Keyword) (d : DocId) :
    newestAct [seg] t w d = seg.act t w d := by
  cases h : seg.act t w d <;> simp [newestAct, h]

@[simp] lemma newestFwd_singleton (seg : Segment) (t : UInt32) (d : DocId) :
    newestFwd [seg] t d = seg.fwd t d := by
  cases h : seg.fwd t d <;> simp [newestFwd, h]

variable {d : DocId}

namespace Store

variable {s : Store} {segs : List Segment} {t : TableId}

/-- The store with other segments. -/
def withSegs (s : Store) (segs : List Segment) : Store :=
  { s with segs := segs }

lemma topAct_withSegs (w : Keyword) (d : DocId) :
    (s.withSegs segs).topAct t w d =
      ((s.heads t).findSome? fun h => h.act w d).or (newestAct segs (tid t) w d) := by
  rw [topAct, layers, findSome?_append, findSome?_map, segLayers, findSome?_map]
  rfl

lemma topRec_withSegs (d : DocId) :
    (s.withSegs segs).topRec t d =
      ((s.heads t).findSome? fun h => h.rec? d).or (newestFwd segs (tid t) d) :=
  topRec_eq _ _ _

section Reads

variable {segs' : List Segment} (hwf : ∀ seg ∈ segs, seg.WF) (hwf' : ∀ seg ∈ segs', seg.WF)
include hwf hwf'

/-- The posting reads depend only on which newest actions are additions. -/
lemma reads_withSegs (hact : ∀ w d, newestAct segs' (tid t) w d = some true ↔
      newestAct segs (tid t) w d = some true) :
    (∀ w, (s.withSegs segs').getDocs t w = (s.withSegs segs).getDocs t w) ∧
      ∀ toLower q, (s.withSegs segs').search toLower t q = (s.withSegs segs).search toLower t q := by
  have htop : ∀ w d, (s.withSegs segs').topAct t w d = some true ↔
      (s.withSegs segs).topAct t w d = some true := by
    intro w d
    rw [topAct_withSegs, topAct_withSegs]
    cases (s.heads t).findSome? fun h => h.act w d with
    | some b => rfl
    | none => simpa using hact w d
  refine ⟨fun w => Finset.ext fun d => ?_, fun toLower q => Finset.ext fun d => ?_⟩
  · rw [mem_getDocs hwf', mem_getDocs hwf, htop]
    rfl
  · rw [mem_search hwf', mem_search hwf]
    simp only [htop]
    rfl

/-- A forward read finds the same words if the newest records have them. -/
lemma forwardKeywords_withSegs
    (hfwd : (newestFwd segs' (tid t) d).getD ∅ = (newestFwd segs (tid t) d).getD ∅) :
    ∃ words words' del del', (s.withSegs segs).forwardKeywords t d = some (words, del) ∧
      (s.withSegs segs').forwardKeywords t d = some (words', del') ∧
      words'.toFinset = words.toFinset := by
  obtain ⟨words, del, h, hw⟩ := exists_forwardKeywords (s := s.withSegs segs) hwf t d
  obtain ⟨words', del', h', hw'⟩ := exists_forwardKeywords (s := s.withSegs segs') hwf' t d
  refine ⟨words, words', del, del', h, h', ?_⟩
  rw [hw, hw', topRec_withSegs, topRec_withSegs]
  cases (s.heads t).findSome? fun h => h.rec? d with
  | some ws => rfl
  | none => simpa using hfwd

/-- A forward read finds the same words and the same tombstones if the newest records agree. -/
lemma forwardKeywords_withSegs_eq (hfwd : newestFwd segs' (tid t) d = newestFwd segs (tid t) d) :
    ∃ words words' del, (s.withSegs segs).forwardKeywords t d = some (words, del) ∧
      (s.withSegs segs').forwardKeywords t d = some (words', del) ∧
      words'.toFinset = words.toFinset := by
  have hheads : ∀ segs, (s.withSegs segs).forwardKeywords t d =
      ((s.heads t).findSome? fun h => h.forwardLookup d).or (segForward (tid t) d segs.reverse) := by
    intro segs
    have hheads : (s.withSegs segs).heads t = s.heads t := rfl
    rw [forwardKeywords, hheads]
    cases (s.heads t).findSome? fun h => h.forwardLookup d <;> rfl
  rw [hheads, hheads]
  cases (s.heads t).findSome? fun h => h.forwardLookup d with
  | some r => exact ⟨r.1, r.1, r.2, rfl, rfl, rfl⟩
  | none =>
    obtain ⟨words, del, h, hw, hdel⟩ := exists_segForward segs.reverse
      (fun seg hs => hwf seg (mem_reverse.1 hs)) (tid t) d
    obtain ⟨words', del', h', hw', hdel'⟩ := exists_segForward segs'.reverse
      (fun seg hs => hwf' seg (mem_reverse.1 hs)) (tid t) d
    change _ = newestFwd segs (tid t) d at hfwd
    change del = decide (newestFwd segs (tid t) d = some ∅) at hdel
    change del' = decide (newestFwd segs' (tid t) d = some ∅) at hdel'
    refine ⟨words, words', del, h, by rw [hdel, ← hfwd, ← hdel']; exact h', ?_⟩
    rw [hw, hw']
    exact congrArg (Option.getD · ∅) hfwd

end Reads

end Store

/-! ### Tiered merges -/

/-- **A tiered merge is invisible.** Let the segments of a store be `older ++ block ++ newer`. The
merge of the block returns, and with its output in the place of the block every `GetDocs` and every
`Search` answers as before, and `forwardKeywords` resolves the same keywords or the same tombstone,
for every table, keyword and document and whatever the heads hold. -/
theorem tiered_merge_invisible (opts : Options) (s : Store) {older block newer : List Segment}
    (hsegs : s.segs = older ++ (block ++ newer)) (hwf : ∀ seg ∈ s.segs, seg.WF) (outId level : ℕ)
    (liveTables : Option (List TableId)) :
    ∃ res, mergeSegments opts block outId level false liveTables = some res ∧ ∀ t,
      (∀ w, (s.withSegs (older ++ ([res.seg] ++ newer))).getDocs t w = s.getDocs t w) ∧
      (∀ toLower q, (s.withSegs (older ++ ([res.seg] ++ newer))).search toLower t q =
        s.search toLower t q) ∧
      ∀ d, ∃ words words' del, s.forwardKeywords t d = some (words, del) ∧
        (s.withSegs (older ++ ([res.seg] ++ newer))).forwardKeywords t d = some (words', del) ∧
        words'.toFinset = words.toFinset := by
  rw [hsegs] at hwf
  have hblock : ∀ seg ∈ block, seg.WF := fun seg h => hwf seg (by simp [h])
  obtain ⟨res, hres⟩ : ∃ res, mergeSegments opts block outId level false liveTables = some res :=
    exists_mergeSegments hblock
  have hwf' : ∀ seg ∈ older ++ ([res.seg] ++ newer), seg.WF := by
    intro seg hseg
    rcases mem_append.1 hseg with h | h
    · exact hwf seg (mem_append_left _ h)
    · rcases mem_append.1 h with h | h
      · rw [mem_singleton.1 h]
        exact wf_mergeSegments hblock hres
      · exact hwf seg (by simp [h])
  have hact : ∀ t w d, newestAct (older ++ ([res.seg] ++ newer)) t w d =
      newestAct (older ++ (block ++ newer)) t w d := fun t w d => by
    simp only [newestAct_append, newestAct_singleton, act_mergeSegments hblock hres,
      Bool.false_eq_true, if_false]
  have hfwd : ∀ t d, newestFwd (older ++ ([res.seg] ++ newer)) t d =
      newestFwd (older ++ (block ++ newer)) t d := fun t d => by
    simp only [newestFwd_append, newestFwd_singleton, Bool.false_eq_true, if_false,
      fwd_mergeSegments hblock hres (t := t) (d := d) (by simp)]
  have hs : s = s.withSegs (older ++ (block ++ newer)) := by rw [← hsegs]; rfl
  refine ⟨res, hres, fun t => ?_⟩
  obtain ⟨hget, hsearch⟩ := Store.reads_withSegs (s := s) (t := t) hwf hwf'
    fun w d => by rw [hact]
  refine ⟨fun w => ?_, fun toLower q => ?_, fun d => ?_⟩
  · exact (hget w).trans (congrArg (·.getDocs t w) hs.symm)
  · exact (hsearch toLower q).trans (congrArg (·.search toLower t q) hs.symm)
  · have hforward := Store.forwardKeywords_withSegs_eq (s := s) hwf hwf' (hfwd (tid t) d)
    rwa [← hs] at hforward

/-! ### The records of a covering merge -/

variable {opts : Options} {segs : List Segment} {live : List TableId} {outId level : ℕ}
  {res : MergeResult} {tableLive : UInt32 → Bool} {row : List (Option Rec)} {t : UInt32}
  {covering : Bool}

lemma isTableLive_tid {t : TableId} (hfits : Fits t) : isTableLive (some live) (tid t) ↔ t ∈ live := by
  simp only [isTableLive, Option.all_some, decide_eq_true_eq]
  rw [hfits]

lemma emitInv_covering {kw : Keyword} {r : Rec} (h : emitInv true tableLive t kw row = some r) :
    tableLive t ∧ ∃ docs, docs ≠ [] ∧ r = .inv t kw (encodeDocs docs) [] := by
  simp only [emitInv, if_true] at h
  split at h
  case isTrue hl => exact ⟨hl.1, _, hl.2, (Option.some.inj h).symm⟩
  case isFalse => simp at h

lemma emitFwd_covering {remap : List (List (Option ℕ))} {out : List ℕ}
    (h : emitFwd true tableLive remap t row = some (some out)) : tableLive t ∧ out ≠ [] := by
  unfold emitFwd at h
  split at h
  · simp at h
  case isFalse hlive =>
    refine ⟨by simpa using hlive, ?_⟩
    split at h
    · simp at h
    case h_2 r m hhit =>
      split at h
      · simp at h
      case isFalse hords =>
        obtain ⟨mapped, hmapped, hout⟩ := Option.map_eq_some_iff.1 h
        dsimp only at hout
        split at hout
        · simp at hout
        case isFalse hkeep =>
          cases hout
          intro hnil
          -- the first ordinal was dropped, so the record would have been dropped as well
          obtain ⟨o, ords, hcons⟩ := exists_cons_of_ne_nil hords
          rw [remapOrds, hcons, mapM_cons] at hmapped
          obtain ⟨x, -, hmapped⟩ := Option.bind_eq_some_iff.1 hmapped
          obtain ⟨xs, -, hmapped⟩ := Option.bind_eq_some_iff.1 hmapped
          cases hmapped
          cases x with
          | none => exact hkeep ⟨mem_cons_self, hnil⟩
          | some j => simp at hnil

section Covering

variable (hwf : ∀ seg ∈ segs, seg.WF)
  (hres : mergeSegments opts segs outId level true (some live) = some res)
include hwf hres

/-- A covering merge keeps no withdrawal, no tombstone, no keyword without documents and nothing of
a table outside the catalog. -/
theorem recs_covering {r : Rec} (hr : r ∈ res.seg.recs) :
    ofTid r.tableId ∈ live ∧ r.dels = [] ∧ r.adds.Nodup ∧
      (r.invKey?.isSome → r.adds ≠ []) ∧ (r.fwd?.isSome → r.ords ≠ []) := by
  obtain ⟨remap, hcontent, -⟩ := exists_mergeContent hwf hres
  cases r with
  | inv t w adds dels =>
    obtain ⟨-, hemit⟩ := (hcontent.mem_inv_iff hwf).1 hr
    obtain ⟨hlive, docs, hdocs, heq⟩ := emitInv_covering hemit
    obtain ⟨-, -, rfl, rfl⟩ := Rec.inv.inj heq
    refine ⟨by simpa [isTableLive, Rec.tableId] using hlive, rfl, nodup_dedup _,
      fun _ hnil => ?_, by simp [Rec.fwd?]⟩
    obtain ⟨d, hd⟩ := exists_mem_of_ne_nil _ hdocs
    have hmem := mem_encodeDocs.2 hd
    rw [show encodeDocs docs = [] from hnil] at hmem
    simp at hmem
  | fwd t d ords =>
    obtain ⟨-, out, hemit, rfl⟩ := (hcontent.mem_fwd_iff hwf).1 hr
    obtain ⟨hlive, hout⟩ := emitFwd_covering hemit
    refine ⟨by simpa [isTableLive, Rec.tableId] using hlive, rfl, nodup_nil,
      by simp [Rec.invKey?], fun _ hnil => ?_⟩
    obtain ⟨o, ho⟩ := exists_mem_of_ne_nil _ hout
    have hmem := mem_encodeForward.2 ho
    rw [show encodeForward out = [] from hnil] at hmem
    simp at hmem

end Covering

/-! ### Counting postings -/

/-- The number of postings of a record. -/
def Rec.postings (r : Rec) : ℕ :=
  r.adds.length + r.dels.length

lemma postings_mergeRow {acc acc' : MergeAcc} (h : acc.postings = (acc.w.recs.map Rec.postings).sum)
    (hstep : mergeRow opts covering tableLive acc row = some acc') :
    acc'.postings = (acc'.w.recs.map Rec.postings).sum := by
  unfold mergeRow at hstep
  split at hstep
  · exact Option.some.inj hstep ▸ h
  · cases hstep
    unfold mergeInv
    split
    · simp [MergeAcc.noteTable, h, Rec.postings]
    · exact h
  · obtain ⟨o, -, rfl⟩ := Option.map_eq_some_iff.1 hstep
    cases o with
    | none => exact h
    | some ords =>
      simp [MergeAcc.addForward, MergeAcc.noteDocid, MergeAcc.noteTable, h, Rec.postings, Rec.adds,
        Rec.dels]

/-- The `Postings` of the MANIFEST entry count the postings of the output. -/
theorem postings_mergeSegments {liveTables : Option (List TableId)} (hwf : ∀ seg ∈ segs, seg.WF)
    (hres : mergeSegments opts segs outId level covering liveTables = some res) :
    res.sm.postings = (res.seg.recs.map Rec.postings).sum := by
  obtain ⟨acc, remap, hfold, hw, -, -⟩ := exists_foldlM_mergeRow opts
    covering (isTableLive liveTables) hwf
  rw [mergeSegments, hfold, Option.map_some, Option.some.injEq] at hres
  subst hres
  have hrecs : (acc.w.finish outId acc.span).recs = acc.w.recs := (hw.finish outId acc.span).1
  dsimp only
  rw [hrecs]
  exact StepSystem.foldlM_preserves (P := fun acc => acc.postings = (acc.w.recs.map Rec.postings).sum)
    (fun h hstep => postings_mergeRow h hstep) rfl hfold

/-- The table, keyword and document of every added posting. -/
def Segment.pairs (seg : Segment) : List (UInt32 × Keyword × DocId) :=
  seg.recs.flatMap fun r => r.invKey?.toList.flatMap fun k => r.adds.map fun d => (k.1, k.2, d)

lemma Segment.mem_pairs {seg : Segment} {w : Keyword} :
    (t, w, d) ∈ seg.pairs ↔ ∃ r ∈ seg.recs, r.invKey? = some (t, w) ∧ d ∈ r.adds := by
  simp only [pairs, mem_flatMap, Option.mem_toList, mem_map, Prod.mk.injEq]
  constructor
  · rintro ⟨r, hr, ⟨t', w'⟩, hk, d', hd, rfl, rfl, rfl⟩
    exact ⟨r, hr, hk, hd⟩
  · rintro ⟨r, hr, hk, hd⟩
    exact ⟨r, hr, (t, w), hk, d, hd, rfl, rfl, rfl⟩

section Covering

variable (hwf : ∀ seg ∈ segs, seg.WF)
  (hres : mergeSegments opts segs outId level true (some live) = some res)
include hwf hres

lemma nodup_pairs_covering : res.seg.pairs.Nodup := by
  have hsorted := (wf_mergeSegments hwf hres).sorted
  refine nodup_flatMap.2 ⟨fun r hr => ?_, hsorted.imp_of_mem fun {a b} _ _ hlt => ?_⟩
  · obtain ⟨-, -, hnodup, -⟩ := recs_covering hwf hres hr
    cases r.invKey? with
    | none => simp
    | some k => simpa using hnodup.map fun d d' h => (Prod.mk.inj (Prod.mk.inj h).2).2
  · -- records with the same keyword would have the same key
    rintro ⟨t, w, d⟩ ha hb
    simp only [mem_flatMap, Option.mem_toList, mem_map, Prod.mk.injEq] at ha hb
    obtain ⟨⟨t', w'⟩, hka, d', -, rfl, rfl, rfl⟩ := ha
    obtain ⟨⟨t', w'⟩, hkb, d', -, rfl, rfl, rfl⟩ := hb
    rw [Rec.key_eq_invertedKey.2 hka, Rec.key_eq_invertedKey.2 hkb] at hlt
    exact lt_irrefl _ hlt

lemma length_pairs_covering : res.seg.pairs.length = res.sm.postings := by
  rw [postings_mergeSegments hwf hres, Segment.pairs, length_flatMap]
  refine congrArg sum (map_congr_left fun r hr => ?_)
  obtain ⟨-, hdels, -, -⟩ := recs_covering hwf hres hr
  cases r with
  | inv t w adds dels => simpa [Rec.invKey?, Rec.postings] using hdels
  | fwd t d ords => rfl

/-- The postings of the output are the live pairs of the inputs in the tables of the catalog. -/
lemma mem_pairs_covering {w : Keyword} :
    (t, w, d) ∈ res.seg.pairs ↔ ofTid t ∈ live ∧ newestAct segs t w d = some true := by
  have hout := wf_mergeSegments hwf hres
  have hact := act_mergeSegments hwf hres t w d
  have hlive : isTableLive (some live) t = true ↔ ofTid t ∈ live := by simp [isTableLive]
  rw [if_pos rfl] at hact
  have hiff : (t, w, d) ∈ res.seg.pairs ↔ res.seg.act t w d = some true := by
    rw [Segment.mem_pairs, hout.act_eq_some_iff]
    constructor
    · rintro ⟨r, hr, hk, hd⟩
      obtain ⟨-, hdels, -⟩ := recs_covering hwf hres hr
      cases r with
      | fwd _ _ _ => simp [Rec.invKey?] at hk
      | inv t' w' adds dels =>
        cases hk
        obtain rfl : dels = [] := hdels
        refine ⟨adds, [], hr, ?_⟩
        simp only [Segment.recAct, Rec.dels, not_mem_nil, if_false]
        exact if_pos hd
    · rintro ⟨adds, dels, hr, hb⟩
      refine ⟨_, hr, rfl, ?_⟩
      simp only [Segment.recAct] at hb
      split at hb
      · simp at hb
      · split at hb
        case isTrue hd => exact hd
        case isFalse => simp at hb
  rw [hiff, hact, ← hlive]
  split
  case isTrue h => simpa using h
  case isFalse h => simpa using h

/-- The reads of a catalog table are the same over the output as over the inputs. -/
lemma reads_covering (hcol : ∀ t, ∀ seg ∈ segs, (seg.layer t).Colocated) (s : Store) {t : TableId}
    (ht : t ∈ live) (hfits : Fits t) :
    (∀ w, (s.withSegs [res.seg]).getDocs t w = (s.withSegs segs).getDocs t w) ∧
      (∀ toLower q, (s.withSegs [res.seg]).search toLower t q =
        (s.withSegs segs).search toLower t q) ∧
      ∀ d, ∃ words words' del del', (s.withSegs segs).forwardKeywords t d = some (words, del) ∧
        (s.withSegs [res.seg]).forwardKeywords t d = some (words', del') ∧
        words'.toFinset = words.toFinset := by
  have hlive := (isTableLive_tid hfits).2 ht
  have hwf' : ∀ seg ∈ [res.seg], seg.WF := fun seg hseg =>
    mem_singleton.1 hseg ▸ wf_mergeSegments hwf hres
  obtain ⟨hget, hsearch⟩ := Store.reads_withSegs (s := s) (t := t) hwf hwf' fun w d => by
    simp [act_mergeSegments hwf hres, hlive]
  refine ⟨hget, hsearch, fun d => Store.forwardKeywords_withSegs hwf hwf' ?_⟩
  rw [newestFwd_singleton, fwd_covering hwf (hcol (tid t)) hres, if_pos hlive]
  cases newestFwd segs (tid t) d with
  | none => rfl
  | some ws => by_cases hws : ws = ∅ <;> simp [Option.filter, hws]

end Covering

/-! ### The trigger of covering merges -/

namespace Store

/-- The live pairs that the counters of the catalog's tables add up to. -/
def liveTotal (s : Store) : ℤ :=
  ((s.liveByTable.entries.filter fun e => e.1 ∈ s.man.tables).map Sigma.snd).sum

/-- `deadFraction`, the share of the written postings that a covering merge would drop. -/
def deadFraction (s : Store) : ℚ :=
  let written : ℤ := (s.man.segments.map fun sm => (sm.postings : ℤ)).sum
  if written ≤ 0 then 0
  else
    let d := 1 - (s.liveTotal : ℚ) / written
    if d < 0 then 0 else d

/-- Recomputed counters add up to the words of the newest records of the catalog's tables. -/
lemma liveTotal_recomputed {s : Store} (hwf : ∀ seg ∈ s.segs, seg.WF)
    (hcount : s.liveByTable = s.recomputeLive) :
    s.liveTotal = ∑ t ∈ s.man.tables.toFinset,
      ∑ᶠ d : DocId, (((newestFwd s.segs (tid t) d).getD ∅).card : ℤ) := by
  have hlookup := fun t ht => lookup_recomputeLive hwf (t := t) ht
  have hkeys : s.recomputeLive.keys.toFinset.filter (· ∈ s.man.tables) = s.man.tables.toFinset := by
    ext t
    simp only [Finset.mem_filter, mem_toFinset, and_iff_right_iff_imp]
    intro ht
    exact AList.mem_keys.1 (GoMap.mem_iff_exists_lookup.2 ⟨_, hlookup t ht⟩)
  rw [liveTotal, hcount, GoMap.sum_filter_entries, hkeys]
  refine Finset.sum_congr rfl fun t ht => ?_
  rw [hlookup t (mem_toFinset.1 ht), Option.getD_some]

end Store

/-- Added postings and forward records that agree are equally many. -/
lemma card_pairs_eq {seg : Segment} {live : List TableId} (hfits : ∀ t ∈ live, Fits t)
    (hlive : ∀ x ∈ seg.pairs, ofTid x.1 ∈ live)
    (hagree : ∀ t ∈ live, ∀ w d, (tid t, w, d) ∈ seg.pairs ↔ w ∈ (seg.fwd (tid t) d).getD ∅) :
    (seg.pairs.toFinset.card : ℤ) =
      ∑ t ∈ live.toFinset, ∑ᶠ d : DocId, (((seg.fwd (tid t) d).getD ∅).card : ℤ) := by
  classical
  have htables : ∀ x ∈ seg.pairs.toFinset, ofTid x.1 ∈ live.toFinset := fun x hx =>
    mem_toFinset.2 (hlive x (mem_toFinset.1 hx))
  rw [Finset.card_eq_sum_card_fiberwise htables, Nat.cast_sum]
  refine Finset.sum_congr rfl fun t ht => ?_
  have ht := mem_toFinset.1 ht
  set ws := fun d => (seg.fwd (tid t) d).getD ∅
  set P := seg.pairs.toFinset.filter fun x => ofTid x.1 = t
  have hmem : ∀ x : UInt32 × Keyword × DocId, x ∈ P ↔ x.1 = tid t ∧ x.2.1 ∈ ws x.2.2 := by
    rintro ⟨t', w, d⟩
    simp only [P, Finset.mem_filter, mem_toFinset, ws, ← hagree t ht]
    constructor
    · rintro ⟨hx, rfl⟩
      exact ⟨(tid_ofTid t').symm, by rwa [tid_ofTid]⟩
    · rintro ⟨rfl, hx⟩
      exact ⟨hx, hfits t ht⟩
  -- the postings of one document are in bijection with the words of its record
  have hfiber : ∀ d, (P.filter fun x => x.2.2 = d).card = (ws d).card := by
    intro d
    refine Finset.card_bij (fun x _ => x.2.1) (fun x hx => ?_) (fun x hx y hy heq => ?_)
      fun w hw => ?_
    · obtain ⟨hxP, rfl⟩ := Finset.mem_filter.1 hx
      exact ((hmem x).1 hxP).2
    · obtain ⟨hx, hxd⟩ := Finset.mem_filter.1 hx
      obtain ⟨hy, hyd⟩ := Finset.mem_filter.1 hy
      exact Prod.ext (((hmem x).1 hx).1.trans ((hmem y).1 hy).1.symm)
        (Prod.ext heq (hxd.trans hyd.symm))
    · exact ⟨(tid t, w, d), Finset.mem_filter.2 ⟨(hmem _).2 ⟨rfl, hw⟩, rfl⟩, rfl⟩
  rw [Finset.card_eq_sum_card_image (fun x => x.2.2) P, Nat.cast_sum]
  simp only [hfiber]
  refine (finsum_eq_sum_of_support_subset _ fun d hd => ?_).symm
  have hne : ws d ≠ ∅ := fun hemp => hd (by simp [hemp])
  obtain ⟨w, hw⟩ := Finset.nonempty_iff_ne_empty.2 hne
  exact Finset.mem_coe.2 (Finset.mem_image.2 ⟨(tid t, w, d), (hmem _).2 ⟨rfl, hw⟩, rfl⟩)

/-! ### Covering merges -/

/-- The document of `postedHead`, posted again under another keyword. -/
def repostedHead : HeadTable :=
  newHeadTable.post 1 [[98]] [[97]]

/-- The options of the examples. -/
private def blocks : Options :=
  .singleBlock 1000 2 (by decide) (by decide)

/-- The two segments of a document that is posted and posted again. -/
private def reposted : List Segment :=
  [encodeHeadToFile blocks postedHead 1 1, encodeHeadToFile blocks repostedHead 1 2]

private lemma reposted_ok : (∀ seg ∈ reposted, seg.WF) ∧
    (∀ t, ∀ seg ∈ reposted, (seg.layer t).Colocated) ∧
    ∀ w d, newestAct reposted (tid 1) w d = some true →
      w ∈ (newestFwd reposted (tid 1) d).getD ∅ := by
  have hwf := fun keywords old => HeadTable.wf_new.post (d := 1) (by decide) keywords old
  have hcol := fun keywords old => HeadTable.colocated_post HeadTable.colocated_new 1 keywords old
  simp only [reposted, forall_mem_cons]
  refine ⟨⟨wf_encodeHeadToFile _ _ _ (hwf _ _).toEncodable,
    wf_encodeHeadToFile _ _ _ (hwf _ _).toEncodable, by simp⟩,
    fun t => ⟨colocated_encodeHeadToFile _ (hwf _ _).toEncodable (hcol _ _) _ _ t,
      colocated_encodeHeadToFile _ (hwf _ _).toEncodable (hcol _ _) _ _ t, by simp⟩,
    fun w d => ?_⟩
  have hnew : newHeadTable.act w d = none := HeadTable.colocated_new.closed d w rfl
  simp only [newestAct, newestFwd, reverse_cons, reverse_nil, nil_append,
    singleton_append, findSome?_cons, findSome?_nil, postedHead, repostedHead,
    act_encodeHeadToFile _ _ _ (hwf _ _).toEncodable,
    fwd_encodeHeadToFile _ _ _ (hwf _ _).toEncodable, if_pos, HeadTable.act_post,
    HeadTable.rec?_post, hnew]
  by_cases hd : d = 1
  · by_cases hb : w = [98]
    · simp [hd, hb]
    · by_cases ha : w = [97]
      · simp [hd, ha]
      · rw [hd] at hnew
        simp [hd, ha, hb, hnew]
  · simp [hd]

/-- The tiered merge of the two segments of a document posted twice is invisible. -/
theorem tiered_merge_invisible_reposted : ∃ res,
    mergeSegments blocks reposted 3 1 false none = some res ∧
    (Store.withSegs (.empty [1] 2) [res.seg]).getDocs 1 [98] =
      (Store.withSegs (.empty [1] 2) reposted).getDocs 1 [98] ∧
    (Store.withSegs (.empty [1] 2) reposted).getDocs 1 [98] = {1} := by
  have hsegs : (Store.withSegs (.empty [1] 2) reposted).segs = [] ++ (reposted ++ []) := by
    simp [Store.withSegs]
  obtain ⟨res, hres, hreads⟩ := tiered_merge_invisible blocks _ hsegs reposted_ok.1 3 1 none
  exact ⟨res, hres, (hreads 1).1 [98], by decide +kernel⟩

end Haystack.InvertedStore
