import Haystack.Lib.GoMap
import Haystack.Lib.Sorting
import Haystack.InvertedStore.Segment

/-!
# The head of a table and its encoding

The head buffers the latest operations of a table: per keyword the log of documents added and
removed, in the order of the operations, and per document the current keywords or a mark that it is
deleted. `resolveOps` reduces the log of a keyword to the last action per document, and
`encodeHeadToFile` writes the resolved head as a segment.
-/

namespace Haystack.InvertedStore

open List StableSort

/-- `headTable`. The two slices of a `postingDelta` are one list of document and action. -/
structure HeadTable where
  inv : GoMap Keyword (List (DocId × Bool))
  fwd : GoMap DocId (List Keyword)
  delForward : GoMap DocId Unit
  bytes : ℕ

def newHeadTable : HeadTable :=
  ⟨∅, ∅, ∅, 0⟩

namespace HeadTable

variable (h : HeadTable)

/-- `posting` followed by `appendOp`: a keyword seen for the first time is charged its length and a
slice header, every operation eight bytes. -/
def appendOp (isAdd : Bool) (w : Keyword) (d : DocId) : HeadTable :=
  { h with
    inv := h.inv.insert w ((h.inv.lookup w).getD [] ++ [(d, isAdd)])
    bytes := h.bytes + (if w ∈ h.inv then 0 else w.length + 24) + 8 }

def addPosting (w : Keyword) (d : DocId) : HeadTable :=
  h.appendOp true w d

def tombstonePosting (w : Keyword) (d : DocId) : HeadTable :=
  h.appendOp false w d

def setForward (d : DocId) (words : List Keyword) : HeadTable :=
  { h with
    delForward := h.delForward.erase d
    fwd := h.fwd.insert d words
    bytes := h.bytes + (8 + words.length * 4) }

def deleteForward (d : DocId) : HeadTable :=
  { h with
    fwd := h.fwd.erase d
    delForward := h.delForward.insert d ()
    bytes := h.bytes + 12 }

/-- The head holds nothing to spill. -/
def isEmpty : Bool :=
  h.inv.keys.isEmpty && h.fwd.keys.isEmpty && h.delForward.keys.isEmpty

/-- `headForwardLookup`: the words and the deleted flag, if the head mentions the document. -/
def forwardLookup (d : DocId) : Option (List Keyword × Bool) :=
  if d ∈ h.delForward then some ([], true) else (h.fwd.lookup d).map fun words => (words, false)

end HeadTable

/-! ### Resolving an operation log -/

/-- `resolveOps`: the documents whose last operation adds them and those it removes. -/
def resolveOps (ops : List (DocId × Bool)) : List DocId × List DocId :=
  let last := StableSort.lastOfRuns Prod.fst (StableSort.sortBy Prod.fst ops)
  ((last.filter Prod.snd).map Prod.fst, (last.filter fun x => !x.2).map Prod.fst)

/-- The last action on a document in a log. -/
def lastAct (ops : List (DocId × Bool)) (d : DocId) : Option Bool :=
  (ops.filter fun x => x.1 = d).getLast?.map Prod.snd

lemma lastAct_append_singleton (ops : List (DocId × Bool)) (d d' : DocId) (b : Bool) :
    lastAct (ops ++ [(d', b)]) d = if d = d' then some b else lastAct ops d := by
  by_cases h : d = d'
  · subst h; simp [lastAct]
  · simp [lastAct, h, Ne.symm h]

variable {d : DocId} {ops : List (DocId × Bool)}

lemma lastAct_eq_some_iff {b : Bool} :
    lastAct ops d = some b ↔
      (d, b) ∈ StableSort.lastOfRuns Prod.fst (StableSort.sortBy Prod.fst ops) := by
  rw [mem_lastOfRuns_sortBy_iff, lastAct, Option.map_eq_some_iff]
  constructor
  · rintro ⟨⟨d', b'⟩, hlast, rfl⟩
    have := mem_of_getLast? hlast
    simp only [mem_filter, decide_eq_true_eq] at this
    exact this.2 ▸ hlast
  · exact fun h => ⟨(d, b), h, rfl⟩

/-- A document is among the resolved adds if its last action adds it. -/
lemma mem_resolveOps_fst : d ∈ (resolveOps ops).1 ↔ lastAct ops d = some true := by
  rw [lastAct_eq_some_iff]
  simp [resolveOps]

lemma mem_resolveOps_snd : d ∈ (resolveOps ops).2 ↔ lastAct ops d = some false := by
  rw [lastAct_eq_some_iff]
  simp [resolveOps]

/-! ### Encoding -/

/-- What `decodeDocs` reads back from `encodeDocs`: the documents sorted, without repetitions. -/
def encodeDocs (docs : List DocId) : List DocId :=
  (StableSort.sortBy id docs).dedup

/-- What `decodeForward` reads back from `encodeForward`: the ordinals sorted. -/
def encodeForward (ords : List ℕ) : List ℕ :=
  StableSort.sortBy id ords

@[simp] lemma mem_encodeDocs {docs : List DocId} : d ∈ encodeDocs docs ↔ d ∈ docs := by
  simp [encodeDocs]

lemma pairwise_encodeForward (ords : List ℕ) : (encodeForward ords).Pairwise (· ≤ ·) :=
  pairwise_sortBy id ords

@[simp] lemma mem_encodeForward {ords : List ℕ} {o : ℕ} : o ∈ encodeForward ords ↔ o ∈ ords := by
  simp [encodeForward]

variable (opts : Options) (h : HeadTable) {w : Keyword} {o : Option (List Keyword)}
  {words : List Keyword}

namespace HeadTable

/-- The sorted keywords of the head: the dictionary of its segment. -/
def terms : List Keyword :=
  StableSort.sortBy id h.inv.keys

/-- `kw2ord`: the position of a keyword in the dictionary, zero for a keyword that is not there. -/
def kw2ord (w : Keyword) : ℕ :=
  if w ∈ h.terms then h.terms.idxOf w else 0

/-- The inverted record of a keyword. -/
def invRec (t : UInt32) (w : Keyword) : Rec :=
  let (adds, dels) := resolveOps ((h.inv.lookup w).getD [])
  .inv t w (encodeDocs adds) (encodeDocs dels)

/-- The documents with a forward entry and the entries, ascending; `none` is a deleted document. -/
def fwdRecs : List (DocId × Option (List Keyword)) :=
  StableSort.sortBy Prod.fst
    (h.fwd.entries.map (fun e => (e.1, some e.2)) ++ h.delForward.keys.map fun d => (d, none))

/-- The forward record of a document. -/
def fwdRec (t : UInt32) : DocId × Option (List Keyword) → Rec
  | (d, none) => .fwd t d []
  | (d, some words) => .fwd t d (encodeForward (words.map h.kw2ord))

/-- The document span of the forward records. -/
def span : DocId × DocId :=
  match h.fwdRecs.head?, h.fwdRecs.getLast? with
  | some first, some last => (first.1, last.1)
  | _, _ => emptyDocidRange

/-- The number of posting entries, for `segMeta.Postings`. -/
def postings : ℕ :=
  (h.terms.map fun w =>
    let (adds, dels) := resolveOps ((h.inv.lookup w).getD [])
    adds.length + dels.length).sum

end HeadTable

/-- `encodeHeadToFile`, with the id the segment gets when it is installed. -/
def encodeHeadToFile (tableId : TableId) (id : ℕ) : Segment :=
  let t := tid tableId
  let w := h.terms.foldl (fun w kw => w.addEntry opts (h.invRec t kw)) newSegWriter
  let w := h.fwdRecs.foldl (fun w r => w.addEntry opts (h.fwdRec t r)) w
  w.finish id h.span

/-! ### What a head says about a document -/

namespace HeadTable

variable {h}

/-- The forward entry of a document; a deleted document has no words. -/
def rec? (h : HeadTable) (d : DocId) : Option (Finset Keyword) :=
  (h.forwardLookup d).map fun x => x.1.toFinset

/-- What the head says about a document under a keyword. -/
def act (h : HeadTable) (w : Keyword) (d : DocId) : Option Bool :=
  (h.inv.lookup w).bind fun ops => lastAct ops d

/-- What the head says about all documents. -/
def layer (h : HeadTable) : Layer DocId Keyword :=
  ⟨h.rec?, h.act⟩

/-- What the encoder relies on: no document is both live and deleted, the words of a live document
are in the dictionary, and document ids are in the range on which the keys keep their order. -/
structure Encodable (h : HeadTable) : Prop where
  disjoint : ∀ d ∈ h.delForward, d ∉ h.fwd
  words_mem : ∀ {d words}, h.fwd.lookup d = some words → ∀ w ∈ words, w ∈ h.inv
  nonneg : ∀ d, d ∈ h.fwd ∨ d ∈ h.delForward → 0 ≤ d

lemma mem_terms : w ∈ h.terms ↔ w ∈ h.inv := by
  simp [terms, AList.mem_keys]

lemma pairwise_terms : h.terms.Pairwise (· < ·) :=
  pairwise_lt_sortBy id (by simpa using h.inv.keys_nodup)

lemma getElem?_kw2ord (hw : w ∈ h.inv) : h.terms[h.kw2ord w]? = some w := by
  rw [kw2ord, if_pos (mem_terms.2 hw)]
  exact getElem?_idxOf (mem_terms.2 hw)

lemma mem_fwdRecs :
    (d, o) ∈ h.fwdRecs ↔
      (∃ words, o = some words ∧ h.fwd.lookup d = some words) ∨ (o = none ∧ d ∈ h.delForward) := by
  simp only [fwdRecs, mem_sortBy, mem_append, mem_map, Prod.mk.injEq,
    AList.mem_keys]
  constructor
  · rintro (⟨⟨d', words⟩, he, rfl, rfl⟩ | ⟨d', hd', rfl, rfl⟩)
    · exact .inl ⟨words, rfl, GoMap.mem_entries_iff.1 he⟩
    · exact .inr ⟨rfl, hd'⟩
  · rintro (⟨words, rfl, hl⟩ | ⟨rfl, hd⟩)
    · exact .inl ⟨⟨d, words⟩, GoMap.mem_entries_iff.2 hl, rfl, rfl⟩
    · exact .inr ⟨d, hd, rfl, rfl⟩

lemma pairwise_fwdRecs (hdisjoint : ∀ d ∈ h.delForward, d ∉ h.fwd) :
    h.fwdRecs.Pairwise fun a b => a.1 < b.1 := by
  refine pairwise_lt_sortBy Prod.fst ?_
  have hdel : (h.delForward.keys.map fun d => (d, (none : Option (List Keyword)))).map Prod.fst =
      h.delForward.keys := by simp [Function.comp_def]
  rw [map_append, map_map, hdel]
  refine nodup_append'.2 ⟨h.fwd.keys_nodup, h.delForward.keys_nodup, ?_⟩
  exact fun d hd hd' => hdisjoint d (AList.mem_keys.2 hd') (AList.mem_keys.2 hd)

/-- The two ways a document has a forward entry. -/
lemma forwardLookup_eq_some (he : h.Encodable) {del : Bool} :
    h.forwardLookup d = some (words, del) ↔
      (del = true ∧ words = [] ∧ d ∈ h.delForward) ∨
        (del = false ∧ h.fwd.lookup d = some words) := by
  unfold forwardLookup
  by_cases hd : d ∈ h.delForward
  · have hnone := AList.lookup_eq_none.2 (he.disjoint d hd)
    simp [hd, hnone, eq_comm]
    tauto
  · simp [hd, eq_comm]
    tauto

end HeadTable

/-! ### What the encoded segment says -/

lemma recs_foldl_addEntry {α : Type*} (f : α → Rec) (l : List α) (w : SegWriter) :
    (l.foldl (fun w a => w.addEntry opts (f a)) w).recs = w.recs ++ l.map f := by
  induction l generalizing w with
  | nil => simp
  | cons a l ih => simp [ih]

lemma wf_foldl_addEntry {α : Type*} (f : α → Rec) (l : List α) {w : SegWriter} (hw : w.WF) :
    (l.foldl (fun w a => w.addEntry opts (f a)) w).WF := by
  induction l generalizing w with
  | nil => exact hw
  | cons a l ih => exact ih (hw.addEntry (f a))

variable {h} (tableId : TableId) (id : ℕ) {t : UInt32}

/-- The records of an encoded head: the inverted records in keyword order, then the forward records
in document order. -/
lemma recs_encodeHeadToFile :
    (encodeHeadToFile opts h tableId id).recs =
      h.terms.map (h.invRec (tid tableId)) ++ h.fwdRecs.map (h.fwdRec (tid tableId)) := by
  have hw := wf_foldl_addEntry opts (h.fwdRec (tid tableId)) h.fwdRecs
    (wf_foldl_addEntry opts (h.invRec (tid tableId)) h.terms SegWriter.wf_new)
  rw [Segment.recs, encodeHeadToFile, (hw.finish id h.span).1, recs_foldl_addEntry,
    recs_foldl_addEntry, SegWriter.recs_new, nil_append]

lemma invKeys_encodeHeadToFile :
    (encodeHeadToFile opts h tableId id).invKeys = h.terms.map fun w => (tid tableId, w) := by
  rw [Segment.invKeys, recs_encodeHeadToFile, filterMap_append, filterMap_map,
    filterMap_map]
  have hinv : Rec.invKey? ∘ h.invRec (tid tableId) = fun w => some (tid tableId, w) := rfl
  have hfwd : Rec.invKey? ∘ h.fwdRec (tid tableId) = fun _ => none := by
    funext ⟨d, o⟩
    cases o <;> rfl
  rw [hinv, hfwd]
  simp

lemma mem_recs_encodeHeadToFile_inv {adds dels : List DocId} :
    Rec.inv t w adds dels ∈ (encodeHeadToFile opts h tableId id).recs ↔
      w ∈ h.inv ∧ Rec.inv t w adds dels = h.invRec (tid tableId) w := by
  rw [recs_encodeHeadToFile, mem_append, mem_map, mem_map]
  constructor
  · rintro (⟨w', hw', heq⟩ | ⟨⟨d, o⟩, -, heq⟩)
    · obtain ⟨-, rfl, -⟩ := Rec.inv.inj heq
      exact ⟨HeadTable.mem_terms.1 hw', heq.symm⟩
    · cases o <;> simp [HeadTable.fwdRec] at heq
  · rintro ⟨hw, heq⟩
    exact .inl ⟨w, HeadTable.mem_terms.2 hw, heq.symm⟩

lemma mem_recs_encodeHeadToFile_fwd {ords : List ℕ} :
    Rec.fwd t d ords ∈ (encodeHeadToFile opts h tableId id).recs ↔
      ∃ o, (d, o) ∈ h.fwdRecs ∧ Rec.fwd t d ords = h.fwdRec (tid tableId) (d, o) := by
  rw [recs_encodeHeadToFile, mem_append, mem_map, mem_map]
  constructor
  · rintro (⟨w', -, heq⟩ | ⟨⟨d', o⟩, ho, heq⟩)
    · simp [HeadTable.invRec] at heq
    · obtain rfl : d' = d := by cases o <;> exact (Rec.fwd.inj heq).2.1
      exact ⟨o, ho, heq.symm⟩
  · rintro ⟨o, ho, heq⟩
    exact .inr ⟨(d, o), ho, heq.symm⟩

lemma sorted_encodeHeadToFile (he : h.Encodable) :
    KWay.StrictRun Rec.key (encodeHeadToFile opts h tableId id).recs := by
  rw [recs_encodeHeadToFile]
  refine pairwise_append.2 ⟨?_, ?_, ?_⟩
  · exact pairwise_map.2 (HeadTable.pairwise_terms.imp invertedKey_lt_iff.2)
  · refine pairwise_map.2 ((Pairwise.and_mem.1
      (HeadTable.pairwise_fwdRecs he.disjoint)).imp ?_)
    rintro ⟨d, o⟩ ⟨d', o'⟩ ⟨hmem, -, hlt⟩
    have hd : 0 ≤ d := by
      rcases HeadTable.mem_fwdRecs.1 hmem with ⟨words, -, hl⟩ | ⟨-, hdel⟩
      · exact he.nonneg d (.inl (GoMap.mem_iff_exists_lookup.2 ⟨words, hl⟩))
      · exact he.nonneg d (.inr hdel)
    cases o <;> cases o' <;> exact forwardKey_lt_of_lt hd hlt
  · intro r hr r' hr'
    obtain ⟨w, -, rfl⟩ := mem_map.1 hr
    obtain ⟨⟨d, o⟩, -, rfl⟩ := mem_map.1 hr'
    cases o <;> exact invertedKey_lt_forwardKey _ _ _ _

/-- The span of a head covers its forward records. -/
lemma HeadTable.span_covers (hmem : (d, o) ∈ h.fwdRecs) : h.span.1 ≤ d ∧ d ≤ h.span.2 := by
  have hne := ne_nil_of_mem hmem
  rw [HeadTable.span, head?_eq_some_head hne, getLast?_eq_some_getLast hne]
  exact head_le_and_le_getLast Prod.fst (pairwise_sortBy Prod.fst _) hne hmem

/-- A head in good order is encoded as a well-formed segment. -/
theorem wf_encodeHeadToFile (he : h.Encodable) : (encodeHeadToFile opts h tableId id).WF := by
  have hw := wf_foldl_addEntry opts (h.fwdRec (tid tableId)) h.fwdRecs
    (wf_foldl_addEntry opts (h.invRec (tid tableId)) h.terms SegWriter.wf_new)
  obtain ⟨hrecs, hterms, hne⟩ := hw.finish id h.span
  refine ⟨sorted_encodeHeadToFile opts tableId id he, hne, ?_, ?_, ?_, ?_⟩
  · rw [Segment.invKeys, Segment.recs]
    change ((_ : SegWriter).finish id h.span).terms = _
    rw [hterms, hw.terms_eq, ← hrecs]
    rfl
  · intro t d ords hr o ho
    obtain ⟨e, hmem, heq⟩ := (mem_recs_encodeHeadToFile_fwd opts tableId id).1 hr
    cases e with
    | none => simp [HeadTable.fwdRec] at heq; simp [heq.2] at ho
    | some words =>
      obtain ⟨rfl, -, rfl⟩ := Rec.fwd.inj heq
      rw [mem_encodeForward, mem_map] at ho
      obtain ⟨w, hw', rfl⟩ := ho
      obtain ⟨words', hw'', hl⟩ | ⟨h', -⟩ := HeadTable.mem_fwdRecs.1 hmem
      · cases hw''
        refine ⟨w, ?_⟩
        rw [invKeys_encodeHeadToFile, getElem?_map,
          HeadTable.getElem?_kw2ord (he.words_mem hl w hw')]
        rfl
      · simp at h'
  · intro t d ords hr
    obtain ⟨e, -, heq⟩ := (mem_recs_encodeHeadToFile_fwd opts tableId id).1 hr
    cases e with
    | none => simp [(Rec.fwd.inj heq).2.2]
    | some words => exact (Rec.fwd.inj heq).2.2 ▸ pairwise_encodeForward _
  · intro t d ords hr
    obtain ⟨o, hmem, -⟩ := (mem_recs_encodeHeadToFile_fwd opts tableId id).1 hr
    exact HeadTable.span_covers hmem

/-- The words of a live document survive the translation to ordinals and back. -/
lemma words_fwdRec (he : h.Encodable) (hl : h.fwd.lookup d = some words)
    (hr : Rec.fwd t d (encodeForward (words.map h.kw2ord)) ∈
      (encodeHeadToFile opts h tableId id).recs) :
    (encodeHeadToFile opts h tableId id).words (encodeForward (words.map h.kw2ord)) =
      words.toFinset := by
  have hwf := wf_encodeHeadToFile opts tableId id he
  have hget : ∀ w ∈ words, (encodeHeadToFile opts h tableId id).invKeys[h.kw2ord w]? =
      some (tid tableId, w) := fun w hw => by
    rw [invKeys_encodeHeadToFile, getElem?_map,
      HeadTable.getElem?_kw2ord (he.words_mem hl w hw)]
    rfl
  ext w
  rw [hwf.mem_words_iff hr, mem_toFinset]
  simp only [mem_encodeForward, mem_map]
  constructor
  · rintro ⟨_, ⟨w', hw', rfl⟩, hk⟩
    obtain ⟨-, rfl⟩ := Prod.mk.inj (Option.some.inj ((hget w' hw').symm.trans hk))
    exact hw'
  · intro hw
    obtain ⟨o, hmem, heq⟩ := (mem_recs_encodeHeadToFile_fwd opts tableId id).1 hr
    obtain rfl : t = tid tableId := by cases o <;> exact (Rec.fwd.inj heq).1
    exact ⟨_, ⟨w, hw, rfl⟩, hget w hw⟩

/-- The encoded segment holds the forward entries of the head, under the key of its table. -/
theorem fwd_encodeHeadToFile (he : h.Encodable) (t : UInt32) (d : DocId) :
    (encodeHeadToFile opts h tableId id).fwd t d = if t = tid tableId then h.rec? d else none := by
  have hwf := wf_encodeHeadToFile opts tableId id he
  ext ws
  rw [hwf.fwd_eq_some_iff]
  constructor
  · rintro ⟨ords, hr, rfl⟩
    obtain ⟨o, hmem, heq⟩ := (mem_recs_encodeHeadToFile_fwd opts tableId id).1 hr
    rcases HeadTable.mem_fwdRecs.1 hmem with ⟨words, rfl, hl⟩ | ⟨rfl, hdel⟩
    · obtain ⟨rfl, -, rfl⟩ := Rec.fwd.inj heq
      rw [words_fwdRec opts tableId id he hl hr, if_pos rfl, HeadTable.rec?,
        (HeadTable.forwardLookup_eq_some he).2 (.inr ⟨rfl, hl⟩), Option.map_some]
    · obtain ⟨rfl, -, rfl⟩ := Rec.fwd.inj heq
      rw [if_pos rfl, HeadTable.rec?,
        (HeadTable.forwardLookup_eq_some he).2 (.inl ⟨rfl, rfl, hdel⟩), Option.map_some]
      rfl
  · intro hws
    split_ifs at hws with ht
    obtain ⟨⟨words, del⟩, hlook, rfl⟩ := Option.map_eq_some_iff.1 hws
    rcases (HeadTable.forwardLookup_eq_some he).1 hlook with ⟨rfl, rfl, hdel⟩ | ⟨rfl, hl⟩
    · exact ⟨[], (mem_recs_encodeHeadToFile_fwd opts tableId id).2
        ⟨none, HeadTable.mem_fwdRecs.2 (.inr ⟨rfl, hdel⟩), by rw [ht]; rfl⟩, rfl⟩
    · have hr := (mem_recs_encodeHeadToFile_fwd opts tableId id (t := t)).2
        ⟨some words, HeadTable.mem_fwdRecs.2 (.inl ⟨words, rfl, hl⟩), by rw [ht]; rfl⟩
      exact ⟨_, hr, words_fwdRec opts tableId id he hl hr⟩

lemma recAct_invRec (t : UInt32) (w : Keyword) (d : DocId) :
    Segment.recAct d (h.invRec t w) = lastAct ((h.inv.lookup w).getD []) d := by
  simp only [Segment.recAct, HeadTable.invRec, Rec.dels, Rec.adds, mem_encodeDocs,
    mem_resolveOps_fst, mem_resolveOps_snd]
  cases lastAct ((h.inv.lookup w).getD []) d with
  | none => simp
  | some b => cases b <;> simp

/-- The encoded segment holds the resolved actions of the head, under the key of its table. -/
theorem act_encodeHeadToFile (he : h.Encodable) (t : UInt32) (w : Keyword) (d : DocId) :
    (encodeHeadToFile opts h tableId id).act t w d =
      if t = tid tableId then h.act w d else none := by
  have hwf := wf_encodeHeadToFile opts tableId id he
  ext b
  rw [hwf.act_eq_some_iff]
  constructor
  · rintro ⟨adds, dels, hr, hb⟩
    obtain ⟨hw, heq⟩ := (mem_recs_encodeHeadToFile_inv opts tableId id).1 hr
    obtain ⟨ops, hops⟩ := GoMap.mem_iff_exists_lookup.1 hw
    rw [heq, recAct_invRec, hops, Option.getD_some] at hb
    rw [if_pos (Rec.inv.inj heq).1, HeadTable.act, hops]
    exact hb
  · intro hb
    split_ifs at hb with ht
    obtain ⟨ops, hops, hb⟩ := Option.bind_eq_some_iff.1 hb
    have hw := GoMap.mem_iff_exists_lookup.2 ⟨ops, hops⟩
    subst ht
    refine ⟨_, _, (mem_recs_encodeHeadToFile_inv opts tableId id).2 ⟨hw, rfl⟩, ?_⟩
    change Segment.recAct d (h.invRec (tid tableId) w) = some b
    rw [recAct_invRec, hops]
    exact hb

end Haystack.InvertedStore
