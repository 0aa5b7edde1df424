import Haystack.Lib.StepSystem
import Haystack.InvertedStore.Merge

/-!
# What a merge produces

For well-formed inputs `mergeSegments` does not panic and its output is well-formed. The output
holds, per keyword and document, the newest action of the inputs, and per document the newest
forward record; a covering merge keeps only the adds and the live documents of catalog tables.
-/

namespace Haystack.InvertedStore

open List StepSystem

open Segment (recAct)

/-! ### Reconciling a key -/

/-- The newest action on a document in the records of one key, oldest first. -/
def rowAct (d : DocId) (rs : List Rec) : Option Bool :=
  rs.reverse.findSome? (recAct d)

lemma rowAct_append_singleton (d : DocId) (rs : List Rec) (r : Rec) :
    rowAct d (rs ++ [r]) = (recAct d r).or (rowAct d rs) := by
  simp only [rowAct, reverse_append, reverse_singleton, singleton_append]
  cases h : recAct d r <;> simp [h]

lemma mem_foldl_adds (adds : List DocId) (s : GoMap DocId Unit × GoMap DocId Unit) (d : DocId) :
    (d ∈ (adds.foldl (fun s d => (s.1.insert d (), s.2.erase d)) s).1 ↔ d ∈ adds ∨ d ∈ s.1) ∧
    (d ∈ (adds.foldl (fun s d => (s.1.insert d (), s.2.erase d)) s).2 ↔ d ∉ adds ∧ d ∈ s.2) := by
  induction adds generalizing s with
  | nil => simp
  | cons a adds ih =>
    obtain ⟨h₁, h₂⟩ := ih (s.1.insert a (), s.2.erase a)
    rw [foldl_cons, h₁, h₂, AList.mem_insert, AList.mem_erase, mem_cons]
    tauto

lemma mem_foldl_dels (dels : List DocId) (s : GoMap DocId Unit × GoMap DocId Unit) (d : DocId) :
    (d ∈ (dels.foldl (fun s d => (s.1.erase d, s.2.insert d ())) s).1 ↔ d ∉ dels ∧ d ∈ s.1) ∧
    (d ∈ (dels.foldl (fun s d => (s.1.erase d, s.2.insert d ())) s).2 ↔ d ∈ dels ∨ d ∈ s.2) := by
  induction dels generalizing s with
  | nil => simp
  | cons a dels ih =>
    obtain ⟨h₁, h₂⟩ := ih (s.1.erase a, s.2.insert a ())
    rw [foldl_cons, h₁, h₂, AList.mem_insert, AList.mem_erase, mem_cons]
    tauto

/-- The reconciled sets hold the documents by their newest action. -/
lemma mem_reconcile (row : List (Option Rec)) (d : DocId) :
    (d ∈ (reconcile row).1 ↔ rowAct d row.reduceOption = some true) ∧
    (d ∈ (reconcile row).2 ↔ rowAct d row.reduceOption = some false) := by
  unfold reconcile
  generalize row.reduceOption = rs
  induction rs using reverseRecOn with
  | nil => simp [rowAct]
  | append_singleton rs r ih =>
    rw [foldl_append, foldl_cons, foldl_nil, rowAct_append_singleton]
    generalize rs.foldl _ _ = s at ih ⊢
    obtain ⟨ha₁, ha₂⟩ := mem_foldl_adds r.adds s d
    obtain ⟨hd₁, hd₂⟩ := mem_foldl_dels r.dels
      (r.adds.foldl (fun s d => (s.1.insert d (), s.2.erase d)) s) d
    rw [hd₁, hd₂, ha₁, ha₂, ih.1, ih.2]
    unfold recAct
    by_cases hdel : d ∈ r.dels
    · simp [hdel]
    · by_cases hadd : d ∈ r.adds <;> simp [hdel, hadd]

variable {opts : Options} {covering : Bool} {tableLive : UInt32 → Bool} {row : List (Option Rec)}
  {t : UInt32} {r : Rec}

/-- The record of an inverted key carries the newest actions; a covering merge keeps the adds. -/
lemma emitInv_eq_some {kw : Keyword} (h : emitInv covering tableLive t kw row = some r) :
    r.invKey? = some (t, kw) ∧ ∀ d, recAct d r =
      if covering then (if rowAct d row.reduceOption = some true then some true else none)
      else rowAct d row.reduceOption := by
  have hrec := mem_reconcile row
  simp only [emitInv] at h
  split_ifs at h with hc hl
  · cases h
    refine ⟨rfl, fun d => ?_⟩
    simp only [recAct, Rec.dels, Rec.adds, mem_encodeDocs, not_mem_nil, if_false,
      ← AList.mem_keys, (hrec d).1, hc, if_true]
  · cases h
    refine ⟨rfl, fun d => ?_⟩
    simp only [recAct, Rec.dels, Rec.adds, mem_encodeDocs, ← AList.mem_keys, (hrec d).1,
      (hrec d).2, hc, if_false, Bool.false_eq_true]
    cases rowAct d row.reduceOption with
    | none => simp
    | some b => cases b <;> simp

/-- A key is dropped only by a covering merge, when its table is dead or no document is left. -/
lemma emitInv_eq_none_iff {kw : Keyword} :
    emitInv covering tableLive t kw row = none ↔
      covering = true ∧ (tableLive t = true → ∀ d, rowAct d row.reduceOption ≠ some true) := by
  have hrec := mem_reconcile row
  simp only [emitInv]
  split_ifs with hc hl
  · simp only [hc, true_and, false_iff, not_forall]
    obtain ⟨d, hd⟩ := exists_mem_of_ne_nil _ hl.2
    exact ⟨hl.1, d, fun h => h ((hrec d).1.1 (AList.mem_keys.2 hd))⟩
  · simp only [hc, true_and, true_iff]
    intro hlive d hd
    exact hl ⟨hlive, ne_nil_of_mem (AList.mem_keys.1 ((hrec d).1.2 hd))⟩
  · simp [hc]

/-! ### Rows -/

/-- What the inputs hold for a key. -/
def rowAt (segs : List Segment) (k : Bytes) : List (Option Rec) :=
  segs.map fun s => KWay.lookup Rec.key k s.recs

variable {segs : List Segment} {remap : List (List (Option ℕ))} {a b : List (List (Option Rec))}
  {pre : List (List (Option Rec))} {seg : Segment} {m : List (Option ℕ)} {w : Keyword}
  {acc : MergeAcc} {k : Bytes} {i : ℕ} {acc₀ acc : MergeAcc}

lemma key_of_mem_rowAt (h : some r ∈ rowAt segs k) : r.key = k := by
  obtain ⟨s, -, hs⟩ := mem_map.1 h
  exact KWay.key_of_lookup hs

lemma mem_mergeRows_iff (hwf : ∀ s ∈ segs, s.WF) (row : List (Option Rec)) :
    row ∈ mergeRows segs ↔ ∃ k, row = rowAt segs k ∧ ∃ r, some r ∈ row := by
  have hrun : ∀ run ∈ segs.map Segment.recs, KWay.StrictRun Rec.key run := by
    simpa using fun s hs => (hwf s hs).sorted
  rw [mergeRows, KWay.mem_rows_iff hrun le_rfl]
  simp only [rowAt, map_map, Function.comp_def]

lemma exists_findSome?_id (h : ∃ r, some r ∈ row) :
    ∃ r, row.findSome? id = some r ∧ some r ∈ row := by
  obtain ⟨r₀, h₀⟩ := h
  obtain ⟨r, hr⟩ : ∃ r, row.findSome? id = some r :=
    Option.isSome_iff_exists.1 (findSome?_isSome_iff.2 ⟨some r₀, h₀, by simp⟩)
  obtain ⟨o, ho, rfl⟩ := exists_of_findSome?_eq_some hr
  exact ⟨r, hr, ho⟩

/-- The rows of inverted keys. -/
def InvRow (segs : List Segment) (row : List (Option Rec)) : Prop :=
  ∃ t kw, row = rowAt segs (invertedKey t kw) ∧ ∃ r, some r ∈ row

/-- The rows of forward keys. -/
def FwdRow (segs : List Segment) (row : List (Option Rec)) : Prop :=
  ∃ t d, row = rowAt segs (forwardKey t d) ∧ ∃ r, some r ∈ row

/-- The loop meets all inverted keys before the first forward key. -/
lemma exists_mergeRows_eq_append (hwf : ∀ s ∈ segs, s.WF) :
    ∃ a b, mergeRows segs = a ++ b ∧ (∀ row ∈ a, InvRow segs row) ∧
      ∀ row ∈ b, FwdRow segs row := by
  have hrun : ∀ run ∈ segs.map Segment.recs, KWay.StrictRun Rec.key run := by
    simpa using fun s hs => (hwf s hs).sorted
  have hpw : (mergeRows segs).Pairwise fun x y => InvRow segs y → InvRow segs x := by
    refine (Pairwise.and_mem.1 (KWay.pairwise_rows _ hrun)).imp ?_
    rintro x y ⟨hx, -, hlt⟩ ⟨t, kw, rfl, r, hr⟩
    obtain ⟨k, rfl, r', hr'⟩ := (mem_mergeRows_iff hwf x).1 hx
    have hkey := hlt r' hr' r hr
    obtain rfl := key_of_mem_rowAt hr'
    rw [key_of_mem_rowAt hr] at hkey
    cases r' with
    | inv t' kw' _ _ => exact ⟨t', kw', rfl, _, hr'⟩
    | fwd t' d' _ => exact absurd hkey (invertedKey_lt_forwardKey t t' kw d').not_gt
  obtain ⟨a, b, hab, ha, hb⟩ := KWay.exists_append_of_pairwise hpw
  refine ⟨a, b, hab, ha, fun row hrow => ?_⟩
  obtain ⟨k, rfl, r, hr⟩ := (mem_mergeRows_iff hwf row).1 (hab ▸ mem_append_right a hrow)
  obtain rfl := key_of_mem_rowAt hr
  cases r with
  | inv t kw _ _ => exact absurd ⟨t, kw, rfl, _, hr⟩ (hb _ hrow)
  | fwd t d _ => exact ⟨t, d, rfl, _, hr⟩

/-! ### Inverted keys -/

/-- The record written for the row of an inverted key. -/
def emitInvRow (covering : Bool) (tableLive : UInt32 → Bool) (row : List (Option Rec)) :
    Option Rec :=
  (row.findSome? id).bind fun r => r.invKey?.bind fun k =>
    emitInv covering tableLive k.1 k.2 row

/-- What an entry of a remap array says about the key of the input: its place in the output, or that
the key was dropped. -/
def RemapRel (covering : Bool) (tableLive : UInt32 → Bool) (segs : List Segment) (out : List Rec)
    (r : Rec) : Option ℕ → Prop
  | some j => out[j]?.map Rec.key = some r.key
  | none => emitInvRow covering tableLive (rowAt segs r.key) = none

/-- The state of the loop after the rows `pre` of inverted keys. -/
structure InvPhase (covering : Bool) (tableLive : UInt32 → Bool) (segs : List Segment)
    (pre : List (List (Option Rec))) (acc : MergeAcc) : Prop where
  wf : acc.w.WF
  recs : acc.w.recs = pre.filterMap (emitInvRow covering tableLive)
  outOrd : acc.outOrd = acc.w.recs.length
  span : acc.span = emptyDocidRange
  remap_length : acc.remap.length = segs.length
  remap : ∀ {i : ℕ} {m : List (Option ℕ)}, acc.remap[i]? = some m →
    List.Forall₂ (RemapRel covering tableLive segs acc.w.recs)
      (pre.filterMap fun row => row[i]?.join) m

lemma invPhase_init : InvPhase covering tableLive segs [] (MergeAcc.init segs) where
  wf := SegWriter.wf_new
  recs := rfl
  outOrd := rfl
  span := rfl
  remap_length := by simp [MergeAcc.init]
  remap h := by
    simp only [MergeAcc.init, List.getElem?_map, Option.map_eq_some_iff] at h
    obtain ⟨_, -, rfl⟩ := h
    exact .nil

lemma RemapRel.append {out : List Rec} {o : Option ℕ} (h : RemapRel covering tableLive segs out r o)
    (out' : List Rec) : RemapRel covering tableLive segs (out ++ out') r o := by
  cases o with
  | none => exact h
  | some j =>
    simp only [RemapRel, Option.map_eq_some_iff] at h ⊢
    obtain ⟨r', hr', hk⟩ := h
    exact ⟨r', List.getElem?_append_left (List.getElem?_eq_some_iff.1 hr').1 ▸ hr', hk⟩

/-- An input with the key of a row gets one more entry, the others none. -/
lemma forall₂_appendRemap {out : List Rec} (out' : List Rec) {o : Option ℕ}
    (hremap : ∀ {m : List (Option ℕ)}, remap[i]? = some m → List.Forall₂
      (RemapRel covering tableLive segs out) (pre.filterMap fun row => row[i]?.join) m)
    (ho : ∀ r : Rec, r.key = k → RemapRel covering tableLive segs (out ++ out') r o)
    (hm : (appendRemap (rowAt segs k) remap o)[i]? = some m) :
    List.Forall₂ (RemapRel covering tableLive segs (out ++ out'))
      ((pre ++ [rowAt segs k]).filterMap fun row => row[i]?.join) m := by
  rw [appendRemap, getElem?_zipWith_eq_some] at hm
  obtain ⟨r?, m₀, hr?, hm₀, rfl⟩ := hm
  have hpre := (hremap hm₀).imp fun _ _ h => h.append out'
  rw [filterMap_append]
  cases r? with
  | none => simpa [hr?] using hpre
  | some r =>
    have hk : r.key = k := key_of_mem_rowAt (mem_of_getElem? hr?)
    simpa [hr?] using rel_append hpre (.cons (ho r hk) .nil)

/-- One round of an inverted key. -/
lemma InvPhase.step (h : InvPhase covering tableLive segs pre acc) (hrow : InvRow segs row) :
    ∃ acc', mergeRow opts covering tableLive acc row = some acc' ∧
      InvPhase covering tableLive segs (pre ++ [row]) acc' := by
  obtain ⟨t, kw, rfl, hne⟩ := hrow
  obtain ⟨r₀, hfirst, hmem⟩ := exists_findSome?_id hne
  have hk := Rec.key_eq_invertedKey.1 (key_of_mem_rowAt hmem)
  have hemit : emitInvRow covering tableLive (rowAt segs (invertedKey t kw)) =
      emitInv covering tableLive t kw (rowAt segs (invertedKey t kw)) := by
    simp [emitInvRow, hfirst, hk]
  have hlen : ∀ o, (appendRemap (rowAt segs (invertedKey t kw)) acc.remap o).length =
      segs.length := fun o => by simp [appendRemap, rowAt, h.remap_length]
  have hstep : mergeRow opts covering tableLive acc (rowAt segs (invertedKey t kw)) =
      some (mergeInv opts covering tableLive acc t kw (rowAt segs (invertedKey t kw))) := by
    cases r₀ with
    | fwd _ _ _ => simp [Rec.invKey?] at hk
    | inv t' kw' _ _ =>
      cases hk
      simp only [mergeRow, hfirst]
  refine ⟨_, hstep, ?_⟩
  unfold mergeInv
  cases hr : emitInv covering tableLive t kw (rowAt segs (invertedKey t kw)) with
  | some r =>
    obtain ⟨hrk, -⟩ := emitInv_eq_some hr
    refine ⟨h.wf.addEntry r, ?_, ?_, h.span, hlen _, fun {i m} hm => ?_⟩
    · simp [MergeAcc.noteTable, h.recs, hemit, hr]
    · simp [MergeAcc.noteTable, h.outOrd]
    · simp only [MergeAcc.noteTable, SegWriter.recs_addEntry] at hm ⊢
      refine forall₂_appendRemap [r] h.remap (fun r' hr' => ?_) hm
      simp [RemapRel, h.outOrd, hr', Rec.key_eq_invertedKey.2 hrk]
  | none =>
    refine ⟨h.wf, ?_, h.outOrd, h.span, hlen _, fun {i m} hm => ?_⟩
    · simp [h.recs, hemit, hr]
    · have := forall₂_appendRemap [] h.remap (fun r' hr' => ?_) hm
      · simpa using this
      · simp [RemapRel, hr', hemit, hr]

/-- The rows of inverted keys, restricted to one input, are its inverted records. -/
lemma filterMap_invKey?_rows (hab : mergeRows segs = a ++ b) (hb : ∀ row ∈ b, FwdRow segs row)
    (hseg : segs[i]? = some seg) :
    (a.filterMap fun row => row[i]?.join).filterMap Rec.invKey? = seg.invKeys := by
  have hproj := KWay.filterMap_rows Rec.key _ (segs.map Segment.recs) le_rfl i
  rw [← mergeRows, hab, filterMap_append, getElem?_map, hseg] at hproj
  have hnil : (b.filterMap fun row => row[i]?.join).filterMap Rec.invKey? = [] := by
    rw [filterMap_eq_nil_iff]
    intro r hr
    obtain ⟨row, hrow, hrow'⟩ := mem_filterMap.1 hr
    obtain ⟨t, d, rfl, -⟩ := hb row hrow
    have hmem := mem_of_getElem? (Option.join_eq_some_iff.1 hrow')
    rw [Rec.key_eq_forwardKey.1 (key_of_mem_rowAt hmem)]
    rfl
  have := congrArg (filterMap Rec.invKey?) hproj
  rwa [filterMap_append, hnil, append_nil] at this

/-- After the inverted keys, every ordinal of an input has an entry in its remap array. -/
lemma InvPhase.exists_remap (h : InvPhase covering tableLive segs a acc)
    (hab : mergeRows segs = a ++ b) (ha : ∀ row ∈ a, InvRow segs row)
    (hb : ∀ row ∈ b, FwdRow segs row) (hseg : segs[i]? = some seg) (hm : acc.remap[i]? = some m)
    {o : ℕ} (ho : seg.invKeys[o]? = some (t, w)) :
    ∃ x, m[o]? = some x ∧
      RemapRel covering tableLive segs acc.w.recs (.inv t w [] []) x := by
  have hall : ∀ r ∈ a.filterMap fun row => row[i]?.join, (Rec.invKey? r).isSome := by
    intro r hr
    obtain ⟨row, hrow, hrow'⟩ := mem_filterMap.1 hr
    obtain ⟨t, kw, rfl, -⟩ := ha row hrow
    have hmem := mem_of_getElem? (Option.join_eq_some_iff.1 hrow')
    rw [Rec.key_eq_invertedKey.1 (key_of_mem_rowAt hmem)]
    rfl
  have hkeys := forall₂_filterMap_of_isSome hall
  rw [filterMap_invKey?_rows hab hb hseg] at hkeys
  obtain ⟨r, hr, hrk⟩ := Forall₂.exists_getElem? hkeys.flip ho
  obtain ⟨x, hx, hrel⟩ := Forall₂.exists_getElem? (h.remap hm) hr
  refine ⟨x, hx, ?_⟩
  have hkey : r.key = (Rec.inv t w [] []).key := Rec.key_eq_invertedKey.2 hrk
  cases x <;> simpa only [RemapRel, hkey] using hrel

/-! ### Forward keys -/

/-- The row of a key paired with the remap arrays, input by input. -/
lemma zip_rowAt (k : Bytes) (remap : List (List (Option ℕ))) :
    (rowAt segs k).zip remap =
      (segs.zip remap).map fun x => (KWay.lookup Rec.key k x.1.recs, x.2) := by
  rw [rowAt, zip_map_left]
  rfl

/-- The newest record of a key is in the last input that has one. -/
lemma newestHit_eq_some (hlen : remap.length = segs.length)
    (h : newestHit (rowAt segs k) remap = some (r, m)) :
    ∃ older seg newer, segs = older ++ seg :: newer ∧ remap[older.length]? = some m ∧
      KWay.lookup Rec.key k seg.recs = some r ∧
      ∀ s ∈ newer, KWay.lookup Rec.key k s.recs = none := by
  rw [newestHit, zip_rowAt, ← map_reverse, findSome?_map,
    findSome?_eq_some_iff] at h
  obtain ⟨newer, ⟨seg, m'⟩, older, heq, hhit, hnewer⟩ := h
  obtain ⟨r', hr', hrm⟩ := Option.map_eq_some_iff.1 hhit
  obtain ⟨rfl, rfl⟩ := Prod.mk.inj hrm
  have hzip : segs.zip remap = older.reverse ++ (seg, m') :: newer.reverse := by
    rw [← reverse_reverse (segs.zip remap), heq]
    simp
  have hsegs : segs = (segs.zip remap).map Prod.fst := (map_fst_zip hlen.ge).symm
  have hremap : remap = (segs.zip remap).map Prod.snd := (map_snd_zip hlen.le).symm
  rw [hzip, map_append, map_cons] at hsegs hremap
  refine ⟨_, seg, _, hsegs, ?_, hr', fun s hs => ?_⟩
  · rw [hremap]
    simp
  · obtain ⟨x, hx, rfl⟩ := mem_map.1 hs
    simpa using hnewer x (mem_reverse.1 hx)

lemma newestHit_eq_none (hlen : remap.length = segs.length)
    (h : newestHit (rowAt segs k) remap = none) :
    ∀ s ∈ segs, KWay.lookup Rec.key k s.recs = none := by
  rw [newestHit, zip_rowAt, ← map_reverse, findSome?_map,
    findSome?_eq_none_iff] at h
  intro s hs
  rw [← map_fst_zip hlen.ge] at hs
  obtain ⟨x, hx, rfl⟩ := mem_map.1 hs
  simpa using h x (mem_reverse.2 hx)

/-- The record written for the row of a forward key, the remap arrays being complete. -/
def emitFwdRow (covering : Bool) (tableLive : UInt32 → Bool) (remap : List (List (Option ℕ)))
    (row : List (Option Rec)) : Option Rec :=
  match row.findSome? id with
  | some (.fwd t d _) =>
    (emitFwd covering tableLive remap t row).join.map fun ords => .fwd t d (encodeForward ords)
  | _ => none

/-- The state of the loop after the rows `pre` of forward keys, starting from `acc₀`. -/
structure FwdPhase (covering : Bool) (tableLive : UInt32 → Bool) (acc₀ : MergeAcc)
    (pre : List (List (Option Rec))) (acc : MergeAcc) : Prop where
  wf : acc.w.WF
  recs : acc.w.recs = acc₀.w.recs ++ pre.filterMap (emitFwdRow covering tableLive acc₀.remap)
  remap : acc.remap = acc₀.remap
  span : ∀ {t d ords}, Rec.fwd t d ords ∈ acc.w.recs → acc.span.1 ≤ d ∧ d ≤ acc.span.2

lemma emitFwd_ne_none (hwf : ∀ s ∈ segs, s.WF) (h : InvPhase covering tableLive segs a acc)
    (hab : mergeRows segs = a ++ b) (ha : ∀ row ∈ a, InvRow segs row)
    (hb : ∀ row ∈ b, FwdRow segs row) (t : UInt32) (d : DocId) :
    ∃ o, emitFwd covering tableLive acc.remap t (rowAt segs (forwardKey t d)) = some o := by
  unfold emitFwd
  split
  · exact ⟨_, rfl⟩
  split
  · exact ⟨_, rfl⟩
  case h_2 r m hhit =>
    obtain ⟨older, seg, newer, rfl, hm, hlook, -⟩ := newestHit_eq_some h.remap_length hhit
    have hseg : (older ++ seg :: newer)[older.length]? = some seg := by simp
    have hsegwf := hwf seg (mem_of_getElem? hseg)
    obtain ⟨hr, hmem⟩ := hsegwf.lookup_forwardKey.1 hlook
    rw [hr] at hmem
    split
    · exact ⟨_, rfl⟩
    · obtain ⟨mapped, hmapped, -⟩ := exists_mapM_eq_some (l := r.ords)
        (f := fun o => m[o]?) (R := fun _ _ => True) fun o ho => by
          obtain ⟨w, hw⟩ := hsegwf.ords_ok hmem o ho
          obtain ⟨x, hx, -⟩ := h.exists_remap hab ha hb hseg hm hw
          exact ⟨x, hx, trivial⟩
      exact ⟨_, by rw [remapOrds, hmapped]; rfl⟩

lemma MergeAcc.noteDocid_span (acc : MergeAcc) (d : DocId) :
    let span := (acc.noteDocid d).span
    span.1 ≤ d ∧ d ≤ span.2 ∧ span.1 ≤ acc.span.1 ∧ acc.span.2 ≤ span.2 := by
  simp only [noteDocid]
  refine ⟨?_, ?_, ?_, ?_⟩ <;> split_ifs with h
  exacts [le_rfl, not_lt.1 h, le_rfl, not_lt.1 h, h.le, le_rfl, h.le, le_rfl]

/-- One round of a forward key. -/
lemma FwdPhase.step (h : FwdPhase covering tableLive acc₀ pre acc) (hrow : FwdRow segs row)
    (hemit : ∀ t d, ∃ o, emitFwd covering tableLive acc₀.remap t
      (rowAt segs (forwardKey t d)) = some o) :
    ∃ acc', mergeRow opts covering tableLive acc row = some acc' ∧
      FwdPhase covering tableLive acc₀ (pre ++ [row]) acc' := by
  obtain ⟨t, d, rfl, hne⟩ := hrow
  obtain ⟨r₀, hfirst, hmem⟩ := exists_findSome?_id hne
  rw [Rec.key_eq_forwardKey.1 (key_of_mem_rowAt hmem)] at hfirst
  obtain ⟨o, ho⟩ := hemit t d
  have hstep : mergeRow opts covering tableLive acc (rowAt segs (forwardKey t d)) =
      mergeFwd opts covering tableLive acc t d (rowAt segs (forwardKey t d)) := by
    simp only [mergeRow, hfirst]
  rw [hstep, mergeFwd, h.remap, ho, Option.map_some]
  have hrec : emitFwdRow covering tableLive acc₀.remap (rowAt segs (forwardKey t d)) =
      o.map fun ords => .fwd t d (encodeForward ords) := by
    simp only [emitFwdRow, hfirst, ho, Option.join_some]
  refine ⟨_, rfl, ?_⟩
  cases o with
  | none => exact ⟨h.wf, by simp [h.recs, hrec], h.remap, h.span⟩
  | some ords =>
    have hrecs : (acc.addForward opts t d ords).w.recs =
        acc.w.recs ++ [.fwd t d (encodeForward ords)] := by
      simp [MergeAcc.addForward, MergeAcc.noteDocid, MergeAcc.noteTable]
    refine ⟨h.wf.addEntry _, by simp [hrecs, h.recs, hrec], h.remap, fun {t' d' ords'} hmem' => ?_⟩
    obtain ⟨h₁, h₂, h₃, h₄⟩ := MergeAcc.noteDocid_span
      ({ acc with w := acc.w.addEntry opts (.fwd t d (encodeForward ords)) }.noteTable t) d
    simp only [hrecs, mem_append, mem_singleton] at hmem'
    rcases hmem' with hmem' | heq
    · obtain ⟨h₅, h₆⟩ := h.span hmem'
      exact ⟨h₃.trans h₅, h₆.trans h₄⟩
    · obtain ⟨-, rfl, -⟩ := Rec.fwd.inj heq
      exact ⟨h₁, h₂⟩

/-! ### The whole loop -/

/-- The record written for a row. -/
def emitRow (covering : Bool) (tableLive : UInt32 → Bool) (remap : List (List (Option ℕ)))
    (row : List (Option Rec)) : Option Rec :=
  (emitInvRow covering tableLive row).or (emitFwdRow covering tableLive remap row)

/-- The records of the output, and the remap arrays as a translation of the ordinals of the inputs
to those of the output. -/
structure MergeContent (covering : Bool) (tableLive : UInt32 → Bool) (segs : List Segment)
    (recs : List Rec) (remap : List (List (Option ℕ))) : Prop where
  recs_eq : recs = (mergeRows segs).filterMap (emitRow covering tableLive remap)
  remap_length : remap.length = segs.length
  exists_remap : ∀ {i : ℕ} {seg : Segment} {m : List (Option ℕ)} {o : ℕ} {t : UInt32}
    {w : Keyword}, segs[i]? = some seg → remap[i]? = some m → seg.invKeys[o]? = some (t, w) →
    ∃ x, m[o]? = some x ∧ (∀ j, x = some j → (recs.filterMap Rec.invKey?)[j]? = some (t, w)) ∧
      (x = none → ∃ r, some r ∈ rowAt segs (invertedKey t w) ∧
        emitInv covering tableLive t w (rowAt segs (invertedKey t w)) = none)

lemma emitInvRow_inv (h : ∃ r, some r ∈ rowAt segs (invertedKey t w)) :
    emitInvRow covering tableLive (rowAt segs (invertedKey t w)) =
      emitInv covering tableLive t w (rowAt segs (invertedKey t w)) := by
  obtain ⟨r₀, hfirst, hmem⟩ := exists_findSome?_id h
  simp [emitInvRow, hfirst, Rec.key_eq_invertedKey.1 (key_of_mem_rowAt hmem)]

lemma emitInvRow_fwd {d : DocId} (h : ∃ r, some r ∈ rowAt segs (forwardKey t d)) :
    emitInvRow covering tableLive (rowAt segs (forwardKey t d)) = none := by
  obtain ⟨r₀, hfirst, hmem⟩ := exists_findSome?_id h
  rw [Rec.key_eq_forwardKey.1 (key_of_mem_rowAt hmem)] at hfirst
  simp [emitInvRow, hfirst, Rec.invKey?]

lemma emitFwdRow_inv (h : ∃ r, some r ∈ rowAt segs (invertedKey t w)) :
    emitFwdRow covering tableLive remap (rowAt segs (invertedKey t w)) = none := by
  obtain ⟨r₀, hfirst, hmem⟩ := exists_findSome?_id h
  have hk := Rec.key_eq_invertedKey.1 (key_of_mem_rowAt hmem)
  cases r₀ with
  | inv _ _ _ _ => simp only [emitFwdRow, hfirst]
  | fwd _ _ _ => simp [Rec.invKey?] at hk

lemma emitFwdRow_fwd {d : DocId} (h : ∃ r, some r ∈ rowAt segs (forwardKey t d)) :
    emitFwdRow covering tableLive remap (rowAt segs (forwardKey t d)) =
      (emitFwd covering tableLive remap t (rowAt segs (forwardKey t d))).join.map
        fun ords => .fwd t d (encodeForward ords) := by
  obtain ⟨r₀, hfirst, hmem⟩ := exists_findSome?_id h
  rw [Rec.key_eq_forwardKey.1 (key_of_mem_rowAt hmem)] at hfirst
  simp only [emitFwdRow, hfirst]

lemma isSome_invKey?_of_emitInvRow (h : emitInvRow covering tableLive row = some r) :
    r.invKey?.isSome := by
  obtain ⟨r₀, -, h⟩ := Option.bind_eq_some_iff.1 h
  obtain ⟨k, -, h⟩ := Option.bind_eq_some_iff.1 h
  rw [(emitInv_eq_some h).1]
  rfl

lemma exists_mem_rowAt (hseg : seg ∈ segs) (hr : r ∈ seg.recs) (hwf : seg.WF) :
    some r ∈ rowAt segs r.key :=
  mem_map.2 ⟨seg, hseg, hwf.sorted.lookup_eq_some_iff.2 ⟨hr, rfl⟩⟩

lemma exists_mem_rowAt_invertedKey (hwf : ∀ s ∈ segs, s.WF) (hseg : seg ∈ segs) {o : ℕ}
    (ho : seg.invKeys[o]? = some (t, w)) : ∃ r, some r ∈ rowAt segs (invertedKey t w) := by
  obtain ⟨r, hr, hk⟩ := mem_filterMap.1 (mem_of_getElem? ho)
  exact ⟨r, Rec.key_eq_invertedKey.2 hk ▸ exists_mem_rowAt hseg hr (hwf seg hseg)⟩

/-- The content of the output after both phases. -/
lemma mergeContent_of_phases (hwf : ∀ s ∈ segs, s.WF) (hab : mergeRows segs = a ++ b)
    (ha : ∀ row ∈ a, InvRow segs row) (hb : ∀ row ∈ b, FwdRow segs row)
    (h₀ : InvPhase covering tableLive segs a acc₀) (h : FwdPhase covering tableLive acc₀ b acc) :
    MergeContent covering tableLive segs acc.w.recs acc₀.remap where
  recs_eq := by
    rw [h.recs, h₀.recs, hab, filterMap_append]
    congr 1
    · refine filterMap_congr fun row hrow => ?_
      obtain ⟨t, w, rfl, hne⟩ := ha row hrow
      rw [emitRow, emitFwdRow_inv hne, Option.or_none]
    · refine filterMap_congr fun row hrow => ?_
      obtain ⟨t, d, rfl, hne⟩ := hb row hrow
      rw [emitRow, emitInvRow_fwd hne, Option.none_or]
  remap_length := h₀.remap_length
  exists_remap {i seg m o t w} hseg hm ho := by
    obtain ⟨x, hx, hrel⟩ := h₀.exists_remap hab ha hb hseg hm ho
    have hne := exists_mem_rowAt_invertedKey hwf (mem_of_getElem? hseg) ho
    refine ⟨x, hx, fun j hj => ?_, fun hnone => ?_⟩
    · subst hj
      obtain ⟨r, hr, hk⟩ := Option.map_eq_some_iff.1 hrel
      have hall : ∀ r ∈ acc₀.w.recs, r.invKey?.isSome := by
        intro r hr
        rw [h₀.recs] at hr
        obtain ⟨row, -, hrow⟩ := mem_filterMap.1 hr
        exact isSome_invKey?_of_emitInvRow hrow
      obtain ⟨k, hk', hrk⟩ :=
        Forall₂.exists_getElem? (forall₂_filterMap_of_isSome hall) hr
      rw [Rec.key_eq_invertedKey.1 hk] at hrk
      cases hrk
      rw [h.recs, List.filterMap_append, List.getElem?_append_left
        (List.getElem?_eq_some_iff.1 hk').1]
      exact hk'
    · subst hnone
      obtain ⟨r, hr⟩ := hne
      exact ⟨r, hr, (emitInvRow_inv ⟨r, hr⟩).symm.trans hrel⟩

section Loop

variable (opts covering tableLive)

/-- The loop runs through the rows of inverted keys, then through those of forward keys, up to any of
them. -/
lemma exists_phases (hwf : ∀ s ∈ segs, s.WF) : ∃ a b acc₀, mergeRows segs = a ++ b ∧
    (∀ row ∈ a, InvRow segs row) ∧ (∀ row ∈ b, FwdRow segs row) ∧
    a.foldlM (mergeRow opts covering tableLive) (MergeAcc.init segs) = some acc₀ ∧
    InvPhase covering tableLive segs a acc₀ ∧ ∀ b₁, b₁ <+: b → ∃ acc,
      b₁.foldlM (mergeRow opts covering tableLive) acc₀ = some acc ∧
      FwdPhase covering tableLive acc₀ b₁ acc := by
  obtain ⟨a, b, hab, ha, hb⟩ := exists_mergeRows_eq_append hwf
  obtain ⟨acc₀, hfold₀, h₀⟩ := foldlM_invariant (l := a)
    (f := mergeRow opts covering tableLive) (P := InvPhase covering tableLive segs)
    invPhase_init fun hrow h => h.step (ha _ hrow)
  have hinit : FwdPhase covering tableLive acc₀ [] acc₀ := by
    refine ⟨h₀.wf, by simp, rfl, fun {t d ords} hmem => ?_⟩
    rw [h₀.recs] at hmem
    obtain ⟨row, -, hrow⟩ := mem_filterMap.1 hmem
    simpa [Rec.invKey?] using isSome_invKey?_of_emitInvRow hrow
  exact ⟨a, b, acc₀, hab, ha, hb, hfold₀, h₀, fun b₁ hb₁ => foldlM_invariant hinit
    fun hrow h => h.step (hb _ (hb₁.subset hrow)) (emitFwd_ne_none hwf h₀ hab ha hb)⟩

/-- The loop runs through and leaves the output described by `MergeContent`. -/
theorem exists_foldlM_mergeRow (hwf : ∀ s ∈ segs, s.WF) :
    ∃ acc remap, (mergeRows segs).foldlM (mergeRow opts covering tableLive)
        (MergeAcc.init segs) = some acc ∧ acc.w.WF ∧
      (∀ {t d ords}, Rec.fwd t d ords ∈ acc.w.recs → acc.span.1 ≤ d ∧ d ≤ acc.span.2) ∧
      MergeContent covering tableLive segs acc.w.recs remap := by
  obtain ⟨a, b, acc₀, hab, ha, hb, hfold₀, h₀, hfwd⟩ := exists_phases opts covering tableLive hwf
  obtain ⟨acc, hfold, h⟩ := hfwd b prefix_rfl
  refine ⟨acc, acc₀.remap, ?_, h.wf, h.span, mergeContent_of_phases hwf hab ha hb h₀ h⟩
  rw [hab, foldlM_append, hfold₀]
  exact hfold

end Loop

end Haystack.InvertedStore
