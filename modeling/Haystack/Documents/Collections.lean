import Haystack.InvertedIndex.Tables

/-!
# Collections of documents

A document of a collection is stored as a record under a meta key and as a path under a path key;
its words are in a table of the inverted index, which is a store of its own. Deleting a collection
deletes the table and the range of the meta keys. The paths stay, and an error of the index is not
reported.
-/

namespace Haystack.Documents

open InvertedIndex List

abbrev CollectionId := Int64

def keyTypeDocCollection : UInt8 := 10
def keyTypeDocMeta : UInt8 := 12
def keyTypeDocPath : UInt8 := 13

/-- `<type><collection>|<docid>` -/
def appendDocKey (type : UInt8) (c : CollectionId) (docid : Bytes) : Bytes :=
  type :: (formatId c ++ bar :: docid)

def encodeDocumentMetaKey (c : CollectionId) (docid : Bytes) : Bytes :=
  appendDocKey keyTypeDocMeta c docid

def encodeDocumentPathKey (c : CollectionId) (docid : Bytes) : Bytes :=
  appendDocKey keyTypeDocPath c docid

def encodeMetaKey (c : CollectionId) : Bytes :=
  keyTypeDocCollection :: formatId c

/-- The document id of a path key; empty if the key is malformed. -/
def decodeDocumentPathKey (key : Bytes) : Bytes :=
  if key.head? = some keyTypeDocPath then ((Cut.first bar key.tail).map Prod.snd).getD [] else []

structure Document where
  id : Bytes
  relPath : Bytes
  size : Int64
  hash : Bytes
  modifiedTime : Int64
  lastSyncTime : Int64
  words : List Keyword
  deriving DecidableEq

structure CollectionInfo where
  collectionID : CollectionId
  invertedId : TableId
  desc : Bytes
  deriving DecidableEq

/-- The values of the store. A record has neither the id nor the words of its document. -/
inductive Value
  | collection (info : CollectionInfo)
  | document (doc : Document)
  | path (relPath : Bytes)
  deriving DecidableEq

/-- `documents.Store` with its index. -/
structure DocStore where
  data : GoMap Bytes Value
  index : Index
  collections : GoMap CollectionId CollectionInfo
  deleted : List CollectionId
  docCount : GoMap CollectionId ℤ

namespace DocStore

variable (s : DocStore) (c : CollectionId)

/-! ### Reading -/

/-- `GetCollection` without the error of a failing read. -/
def getCollection : Option CollectionInfo :=
  match s.collections.lookup c with
  | some info => some info
  | none =>
    match s.data.lookup (encodeMetaKey c) with
    | some (.collection info) => some info
    | _ => none

/-- `GetDocument`; a value of another kind does not decode. -/
def getDocument (docid : Bytes) : Option Document :=
  match s.data.lookup (encodeDocumentMetaKey c docid) with
  | some (.document doc) => some { doc with id := docid }
  | _ => none

/-- `GetDocumentPath`; there is no difference between an empty path and none. -/
def getDocumentPath (docid : Bytes) : Bytes :=
  match s.data.lookup (encodeDocumentPathKey c docid) with
  | some (.path p) => p
  | _ => []

/-- The calls that `ScanFiles` makes. -/
def scanFiles : List (Bytes × Bytes) :=
  (StableSort.sortBy Prod.fst ((s.data.entries.map fun e => (e.1, e.2)).filter fun e =>
    (encodeDocumentPathKey c []).isPrefixOf e.1)).filterMap fun e =>
      match decodeDocumentPathKey e.1, e.2 with
      | [], _ => none
      | docid, .path p => some (docid, p)
      | _, _ => none

/-! ### Writing -/

/-- `Create`, when no call fails; `table` is the new table of the index. -/
def create (desc : Bytes) (table : TableId) : DocStore :=
  { s with
    data := s.data.insert (encodeMetaKey c) (.collection ⟨c, table, desc⟩)
    docCount := s.docCount.insert c
      (GoMap.countKeys s.data fun k => (encodeDocumentMetaKey c []).isPrefixOf k) }

/-- `idtable.DecodeId` -/
def decodeId (docid : Bytes) : DocId :=
  if docid.length < 8 then -1
  else (UInt64.ofNat (Bytes.ofBigEndian (docid.take 8))).toInt64

def saveDocument (now : Int64) (data : GoMap Bytes Value) (doc : Document) : GoMap Bytes Value :=
  (data.insert (encodeDocumentMetaKey c doc.id)
    (.document { doc with id := [], words := [], lastSyncTime := now })).insert
      (encodeDocumentPathKey c doc.id) (.path doc.relPath)

/-- `SaveNewDocuments`, when no call fails. The additions of the documents may force flushes. -/
def saveNewDocuments (o : Options) (now : Int64) (docs : List (Document × Index.Forced)) :
    Option DocStore :=
  if c ∈ s.deleted then none
  else do
    let info ← s.getCollection c
    let index ← docs.foldlM (fun ix x => ix.add o info.invertedId (decodeId x.1.id) x.1.words x.2)
      s.index
    some { s with
      index
      data := docs.foldl (fun data x => saveDocument c now data x.1) s.data
      docCount := s.docCount.insert c ((s.docCount.lookup c).getD 0 + docs.length) }

/-- `Delete`, when it reports no error. `committed` says whether the index has committed, which
`Delete` does not look at. -/
def delete (committed : Bool) : Option DocStore :=
  (s.getCollection c).map fun info =>
    { s with
      deleted := c :: s.deleted
      index := s.index.deleteTable info.invertedId committed
      data := deletePrefix s.data (encodeDocumentMetaKey c [])
      docCount := s.docCount.erase c }

/-- The store in a new process, after a crash. -/
def crashed : DocStore :=
  { s with
    index := ⟨s.index.db, ∅, ∅, 0, 0, 0⟩, collections := ∅, deleted := [], docCount := ∅ }

/-- The store in a new process, after a closing flush. -/
def closed (o : Options) (writes : List (TableId × Keyword)) (tick : Int64) (f : Flush) : DocStore :=
  { s with
    index := ⟨(s.index.flush o writes tick f).db, ∅, ∅, 0, 0, 0⟩
    collections := ∅
    deleted := []
    docCount := ∅ }

/-! ### What is left of a collection -/

/-- Nothing of the collection, whose words were in table `t`, can be read. -/
structure Gone (t : TableId) : Prop where
  document : ∀ docid, s.getDocument c docid = none
  path : ∀ docid, s.getDocumentPath c docid = []
  files : s.scanFiles c = []
  postings : ∀ w, getDocs s.index.db t w = [] ∧ s.index.pendingWrites.docs (t, w) = [] ∧
    s.index.pendingDeletes.docs (t, w) = []

/-- The other collections are what they were in `s`; the postings of the other tables are `P`. -/
structure OthersKept (t : TableId) (P : TableId → Keyword → DocId → Prop) (s' : DocStore) :
    Prop where
  document : ∀ c' docid, c' ≠ c → s'.getDocument c' docid = s.getDocument c' docid
  path : ∀ c' docid, c' ≠ c → s'.getDocumentPath c' docid = s.getDocumentPath c' docid
  files : ∀ c', c' ≠ c → s'.scanFiles c' = s.scanFiles c'
  postings : ∀ t' w d, t' ≠ t → (d ∈ getDocs s'.index.db t' w ↔ P t' w d)

/-- The collection is gone and the others are kept, in the same process, after a crash and after a
closing flush. -/
structure DeletedAlone (o : Options) (t : TableId) (s' : DocStore) : Prop where
  gone : s'.Gone c t
  goneCrashed : s'.crashed.Gone c t
  goneClosed : ∀ writes tick f, writes.Perm s'.index.pendingWrites.keys →
    f.due.Perm s'.index.pendingDeletes.keys → (s'.closed o writes tick f).Gone c t
  others : s.OthersKept c t (fun t' w d => d ∈ getDocs s.index.db t' w) s'
  pending : ∀ t' w, t' ≠ t →
    s'.index.pendingWrites.docs (t', w) = s.index.pendingWrites.docs (t', w) ∧
      s'.index.pendingDeletes.docs (t', w) = s.index.pendingDeletes.docs (t', w)
  othersCrashed : s.OthersKept c t (fun t' w d => d ∈ getDocs s.index.db t' w) s'.crashed
  othersClosed : ∀ writes tick f, writes.Perm s'.index.pendingWrites.keys →
    f.due.Perm s'.index.pendingDeletes.keys → s'.index.FreshTicks tick f →
    s.OthersKept c t (fun t' w d =>
      (d ∈ getDocs s.index.db t' w ∨ d ∈ s.index.pendingWrites.docs (t', w)) ∧
        ¬ (w ≠ [] ∧ d ∈ s.index.pendingDeletes.docs (t', w))) (s'.closed o writes tick f)

/-- No path is stored for the collection, apart from an empty one for the empty id. -/
def Pathless : Prop :=
  ∀ docid p, s.data.lookup (encodeDocumentPathKey c docid) = some (.path p) → docid = [] ∧ p = []

/-! ### The keys of a collection -/

lemma appendDocKey_prefix_iff {type type' : UInt8} {c c' : CollectionId} {docid : Bytes} :
    appendDocKey type c [] <+: appendDocKey type' c' docid ↔ type = type' ∧ c = c' := by
  rw [appendDocKey, appendDocKey, cons_prefix_cons]
  refine and_congr_right fun _ => ⟨?_, ?_⟩
  · rintro ⟨u, hu⟩
    rw [append_assoc, singleton_append] at hu
    exact formatId_injective
      (Cut.append_inj_left (bar_not_mem_formatId c) (bar_not_mem_formatId c') hu).1
  · rintro rfl
    exact (prefix_append_right_inj _).2 (cons_prefix_cons.2 ⟨rfl, List.nil_prefix⟩)

lemma decodeDocumentPathKey_encode (docid : Bytes) :
    decodeDocumentPathKey (encodeDocumentPathKey c docid) = docid := by
  rw [decodeDocumentPathKey, encodeDocumentPathKey, appendDocKey, head?_cons, if_pos rfl,
    tail_cons, Cut.first_append (bar_not_mem_formatId c)]
  rfl

/-- The files of a collection are its stored paths. -/
lemma mem_scanFiles {docid p : Bytes} :
    (docid, p) ∈ s.scanFiles c ↔
      docid ≠ [] ∧ s.data.lookup (encodeDocumentPathKey c docid) = some (.path p) := by
  have hentry : ∀ e : Bytes × Value, e ∈ StableSort.sortBy Prod.fst
      ((s.data.entries.map fun e => (e.1, e.2)).filter fun e =>
        (encodeDocumentPathKey c []).isPrefixOf e.1) ↔
      s.data.lookup e.1 = some e.2 ∧ ∃ docid, e.1 = encodeDocumentPathKey c docid := by
    intro e
    rw [(StableSort.perm_sortBy _ _).mem_iff, mem_filter, List.isPrefixOf_iff_prefix,
      ← GoMap.mem_entries_iff]
    refine and_congr ?_ ?_
    · constructor
      · intro he
        obtain ⟨x, hx, rfl⟩ := mem_map.1 he
        exact hx
      · exact fun he => mem_map.2 ⟨_, he, rfl⟩
    · constructor
      · rintro ⟨rest, hrest⟩
        exact ⟨rest, by rw [← hrest]; simp [encodeDocumentPathKey, appendDocKey]⟩
      · rintro ⟨rest, hrest⟩
        exact hrest ▸ appendDocKey_prefix_iff.2 ⟨rfl, rfl⟩
  rw [scanFiles, mem_filterMap]
  constructor
  · rintro ⟨⟨k, v⟩, he, hsome⟩
    obtain ⟨hlookup, docid', rfl⟩ := (hentry _).1 he
    dsimp only at hsome hlookup
    rw [decodeDocumentPathKey_encode] at hsome
    cases docid' with
    | nil => simp at hsome
    | cons b docid' =>
      cases v with
      | collection info => simp at hsome
      | document doc => simp at hsome
      | path p' =>
        cases hsome
        exact ⟨cons_ne_nil _ _, hlookup⟩
  · rintro ⟨hne, hlookup⟩
    refine ⟨(encodeDocumentPathKey c docid, .path p), (hentry _).2 ⟨hlookup, docid, rfl⟩, ?_⟩
    dsimp only
    rw [decodeDocumentPathKey_encode]
    cases docid with
    | nil => exact absurd rfl hne
    | cons b docid => rfl

/-- What can be read of the paths of a collection. -/
lemma pathless_iff :
    s.Pathless c ↔ (∀ docid, s.getDocumentPath c docid = []) ∧ s.scanFiles c = [] := by
  constructor
  · intro h
    refine ⟨fun docid => ?_, eq_nil_iff_forall_not_mem.2 fun e he => ?_⟩
    · rw [getDocumentPath]
      split
      case h_1 p hp => exact (h docid p hp).2
      case h_2 => rfl
    · obtain ⟨hne, hlookup⟩ := (mem_scanFiles s c).1 he
      exact hne (h _ _ hlookup).1
  · rintro ⟨hpath, hfiles⟩ docid p hp
    constructor
    · by_contra hne
      have hmem := (mem_scanFiles s c).2 ⟨hne, hp⟩
      rw [hfiles] at hmem
      simp at hmem
    · have hread := hpath docid
      rw [getDocumentPath, hp] at hread
      exact hread

/-! ### After a deletion -/

section Deleted

variable {s c} {s' : DocStore} {t : TableId}

/-- The deletion of the records of a collection. -/
lemma lookup_deletePrefix_meta (data : GoMap Bytes Value) (type : UInt8) (c' : CollectionId)
    (docid : Bytes) :
    (deletePrefix data (encodeDocumentMetaKey c [])).lookup (appendDocKey type c' docid) =
      if keyTypeDocMeta = type ∧ c = c' then none else data.lookup (appendDocKey type c' docid) := by
  rw [encodeDocumentMetaKey, appendDocKey.eq_def keyTypeDocMeta c, lookup_deletePrefix _ (by decide),
    ← appendDocKey]
  exact if_congr appendDocKey_prefix_iff rfl rfl

variable (hdata : s'.data = deletePrefix s.data (encodeDocumentMetaKey c []))
include hdata

lemma getDocument_of_deleted (c' : CollectionId) (docid : Bytes) :
    s'.getDocument c' docid = if c = c' then none else s.getDocument c' docid := by
  rw [getDocument, getDocument, hdata, encodeDocumentMetaKey, lookup_deletePrefix_meta]
  by_cases hc : c = c' <;> simp [hc]

/-- Paths have keys of another type. -/
lemma lookup_path_of_deleted (c' : CollectionId) (docid : Bytes) :
    s'.data.lookup (encodeDocumentPathKey c' docid) =
      s.data.lookup (encodeDocumentPathKey c' docid) := by
  rw [hdata, encodeDocumentPathKey, lookup_deletePrefix_meta, if_neg]
  exact fun h => absurd h.1 (by decide)

lemma getDocumentPath_of_deleted (c' : CollectionId) (docid : Bytes) :
    s'.getDocumentPath c' docid = s.getDocumentPath c' docid := by
  rw [getDocumentPath, getDocumentPath, lookup_path_of_deleted hdata]

lemma scanFiles_of_deleted (c' : CollectionId) : s'.scanFiles c' = s.scanFiles c' := by
  have hkept : ∀ k, (encodeDocumentPathKey c' []).isPrefixOf k = true →
      ¬ encodeDocumentMetaKey c [] <+: k := by
    intro k hk hmeta
    obtain ⟨u, rfl⟩ := List.isPrefixOf_iff_prefix.1 hk
    exact absurd (cons_prefix_cons.1 hmeta).1 (by decide)
  have hentries : s'.data.entries =
      s.data.entries.filter fun e => ¬ encodeDocumentMetaKey c [] <+: e.1 := by
    rw [hdata, encodeDocumentMetaKey, appendDocKey, deletePrefix_eq _ (by decide)]
    rfl
  rw [scanFiles, scanFiles, hentries, filter_map, filter_map, filter_filter]
  congr 3
  refine filter_congr fun e _ => ?_
  cases hk : (encodeDocumentPathKey c' []).isPrefixOf e.1 with
  | false => simp [hk]
  | true => simp [hk, hkept e.1 hk]

lemma OthersKept.of_deleted {P : TableId → Keyword → DocId → Prop}
    (hpost : ∀ t' w d, t' ≠ t → (d ∈ getDocs s'.index.db t' w ↔ P t' w d)) :
    s.OthersKept c t P s' where
  document c' docid hc := by rw [getDocument_of_deleted hdata, if_neg hc.symm]
  path c' docid _ := getDocumentPath_of_deleted hdata c' docid
  files c' _ := scanFiles_of_deleted hdata c'
  postings := hpost

lemma Gone.of_deleted (hpathless : s.Pathless c)
    (hpost : ∀ w, getDocs s'.index.db t w = [] ∧ s'.index.pendingWrites.docs (t, w) = [] ∧
      s'.index.pendingDeletes.docs (t, w) = []) : s'.Gone c t := by
  obtain ⟨hpath, hfiles⟩ := (pathless_iff s c).1 hpathless
  exact
    { document := fun docid => by rw [getDocument_of_deleted hdata, if_pos rfl]
      path := fun docid => (getDocumentPath_of_deleted hdata c docid).trans (hpath docid)
      files := (scanFiles_of_deleted hdata c).trans hfiles
      postings := hpost }

lemma Gone.pathless (h : s'.Gone c t) : s.Pathless c :=
  (pathless_iff s c).2
    ⟨fun docid => (getDocumentPath_of_deleted hdata c docid).symm.trans (h.path docid),
      (scanFiles_of_deleted hdata c).symm.trans h.files⟩

end Deleted

/-- **Deleting a collection.** A collection is gone and the others are kept exactly if no path is
stored for the collection, and the index commits or has no row of the collection's table. -/
theorem delete_removes_all_iff (o : Options) {info : CollectionInfo} {committed : Bool}
    {s' : DocStore} (hinfo : s.getCollection c = some info) (hdelete : s.delete c committed = some s') :
    s.DeletedAlone c o info.invertedId s' ↔
      s.Pathless c ∧ (committed = true ∨ ∀ w, getDocs s.index.db info.invertedId w = []) := by
  rw [delete, hinfo, Option.map_some] at hdelete
  cases hdelete
  set t := info.invertedId
  constructor
  · intro h
    refine ⟨h.gone.pathless rfl, ?_⟩
    rw [or_iff_not_imp_left]
    refine fun hfail w => eq_nil_iff_forall_not_mem.2 fun d hd => ?_
    have hempty := (h.gone.postings w).1
    refine eq_nil_iff_forall_not_mem.1 hempty d (Index.mem_getDocs_deleteTable.2 ⟨?_, hd⟩)
    exact fun hcommit => absurd hcommit hfail
  · rintro ⟨hpathless, hrows⟩
    have hstored : ∀ w, getDocs (s.index.deleteTable t committed).db t w = [] := by
      intro w
      refine eq_nil_iff_forall_not_mem.2 fun d hd => ?_
      obtain ⟨hcommit, hd⟩ := Index.mem_getDocs_deleteTable.1 hd
      rcases hrows with hcommitted | hnone
      · exact hcommit hcommitted rfl
      · rw [hnone w] at hd
        exact absurd hd not_mem_nil
    have hkept : ∀ t' w d, t' ≠ t →
        (d ∈ getDocs (s.index.deleteTable t committed).db t' w ↔ d ∈ getDocs s.index.db t' w) := by
      intro t' w d ht
      rw [Index.mem_getDocs_deleteTable]
      exact and_iff_right fun _ => ht.symm
    have hpending : ∀ t' w, t' ≠ t →
        (s.index.deleteTable t committed).pendingWrites.docs (t', w) =
            s.index.pendingWrites.docs (t', w) ∧
          (s.index.deleteTable t committed).pendingDeletes.docs (t', w) =
            s.index.pendingDeletes.docs (t', w) := by
      intro t' w ht
      rw [Index.pendingWrites_deleteTable, Index.pendingDeletes_deleteTable,
        docs_eraseAll_tableEntries, docs_eraseAll_tableEntries, if_neg ht, if_neg ht]
      exact ⟨rfl, rfl⟩
    refine
      { gone := Gone.of_deleted rfl hpathless fun w => ⟨hstored w, ?_, ?_⟩
        goneCrashed := Gone.of_deleted rfl hpathless fun w => ⟨hstored w, rfl, rfl⟩
        goneClosed := fun writes tick f hwrites hdeletes =>
          Gone.of_deleted rfl hpathless fun w => ⟨?_, rfl, rfl⟩
        others := OthersKept.of_deleted rfl hkept
        pending := hpending
        othersCrashed := OthersKept.of_deleted rfl hkept
        othersClosed := fun writes tick f hwrites hdeletes hfresh =>
          OthersKept.of_deleted rfl fun t' w d ht => ?_ }
    · rw [Index.pendingWrites_deleteTable, docs_eraseAll_tableEntries, if_pos rfl]
    · rw [Index.pendingDeletes_deleteTable, docs_eraseAll_tableEntries, if_pos rfl]
    · refine eq_nil_iff_forall_not_mem.2 fun d hd => ?_
      have hd' := (Index.mem_getDocs_flush_deleteTable hwrites hdeletes).1 hd
      rw [hstored w] at hd'
      exact absurd hd' not_mem_nil
    · obtain ⟨hadds, hremoves⟩ := hpending t' w ht
      rw [← hadds, ← hremoves, ← hkept t' w d ht]
      exact mem_getDocs_flush hfresh hwrites hdeletes

/-- A store with one collection, which has no documents. -/
def created : DocStore :=
  (⟨∅, Index.empty, ∅, [], ∅⟩ : DocStore).create 7 [] 1

/-- A collection without documents is deleted. -/
theorem delete_removes_all_created :
    ∃ s', created.delete 7 true = some s' ∧ created.DeletedAlone 7 ⟨0, 0⟩ 1 s' := by
  have hinfo : created.getCollection 7 = some ⟨7, 1, []⟩ := rfl
  refine ⟨_, rfl, (delete_removes_all_iff created 7 ⟨0, 0⟩ hinfo rfl).2 ⟨?_, .inl rfl⟩⟩
  intro docid p hp
  have hne : encodeDocumentPathKey 7 docid ≠ encodeMetaKey 7 := fun h =>
    absurd (cons.inj h).1 (by decide)
  rw [created, create, GoMap.lookup_insert_if, if_neg hne] at hp
  simp at hp

/-- A deletion that succeeds leaves the path of a saved document. -/
theorem delete_leaves_path :
    ∃ s s', created.saveNewDocuments 7 ⟨0, 0⟩ 5
        [(⟨[0, 0, 0, 0, 0, 0, 0, 1], [97], 1, [], 0, 0, [[98]]⟩, ⟨[], 0, ⟨[], fun _ => 0, inOrder⟩⟩)] =
          some s ∧
      s.delete 7 true = some s' ∧ s'.getDocument 7 [0, 0, 0, 0, 0, 0, 0, 1] = none ∧
      s'.getDocumentPath 7 [0, 0, 0, 0, 0, 0, 0, 1] = [97] ∧
      s'.crashed.getDocumentPath 7 [0, 0, 0, 0, 0, 0, 0, 1] = [97] ∧
      s'.scanFiles 7 = [([0, 0, 0, 0, 0, 0, 0, 1], [97])] := by
  refine ⟨_, _, rfl, rfl, ?_⟩
  decide +kernel

end DocStore

end Haystack.Documents
