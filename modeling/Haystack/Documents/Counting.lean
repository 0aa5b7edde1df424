import Haystack.Documents.Collections

/-!
# Counting documents

The number of documents of a collection is kept in memory. It is counted once, when the collection is
created; each saved batch adds its length and each deleted document subtracts one. A batch that saves
a document again is counted again, an update that saves a new document is not counted, and a store
that is opened has no counts at all.
-/

namespace Haystack.Documents

open InvertedIndex Option StepSystem GoMap Finset

namespace DocStore

variable (s : DocStore) (c : CollectionId)

/-! ### Calls -/

/-- `UpdateDocuments`, when no call fails. -/
def updateDocuments (o : Options) (now : Int64)
    (docs : List (Document × Index.Forced × Index.Forced)) : Option DocStore :=
  if c ∈ s.deleted then none
  else do
    let info ← s.getCollection c
    let index ← docs.foldlM (fun ix x =>
      ix.update o info.invertedId (decodeId x.1.id) x.1.words x.2.1 x.2.2) s.index
    some { s with
      index
      data := docs.foldl (fun data x => saveDocument c now data x.1) s.data }

/-- `DeleteDocument`, when no call fails. -/
def deleteDocument (o : Options) (docid : Bytes) (f : Index.Forced) : Option DocStore := do
  let info ← s.getCollection c
  let _ ← s.getDocument c docid
  let index ← s.index.delete o info.invertedId (decodeId docid) f
  some { s with
    index
    data := (s.data.erase (encodeDocumentMetaKey c docid)).erase (encodeDocumentPathKey c docid)
    docCount := s.docCount.insert c ((s.docCount.lookup c).getD 0 - 1) }

/-- `CountByCollection` -/
def countByCollection : ℤ :=
  (s.docCount.lookup c).getD 0

/-- `GetCollection` keeps what it has read. -/
def caching : DocStore :=
  match s.getCollection c with
  | some info => { s with collections := s.collections.insert c info }
  | none => s

/-- A new store on the same database. -/
def reopened (index : Index) : DocStore :=
  { s with index, collections := ∅, deleted := [], docCount := ∅ }

end DocStore

/-- The calls of a run, with what they do not determine by themselves. -/
inductive Call
  | create (c : CollectionId) (desc : Bytes) (table : TableId)
  | saveNew (c : CollectionId) (now : Int64) (docs : List (Document × Index.Forced))
  | update (c : CollectionId) (now : Int64) (docs : List (Document × Index.Forced × Index.Forced))
  | deleteDocument (c : CollectionId) (docid : Bytes) (f : Index.Forced)
  | delete (c : CollectionId) (committed : Bool)
  | reopen (index : Index)

namespace DocStore

/-- Documents cannot be saved: the collection is deleted in this process, or unknown. -/
def Refuses (s : DocStore) (c : CollectionId) : Prop :=
  c ∈ s.deleted ∨ s.getCollection c = none

instance (s : DocStore) (c : CollectionId) : Decidable (s.Refuses c) :=
  inferInstanceAs (Decidable (_ ∨ _))

/-- One call. A call that returns an error changes nothing. -/
def step (o : Options) (s : DocStore) : Call → Option DocStore
  | .create c desc table => some (s.create c desc table)
  | .saveNew c now docs =>
    if s.Refuses c then some s else (s.caching c).saveNewDocuments c o now docs
  | .update c now docs =>
    if s.Refuses c then some s else (s.caching c).updateDocuments c o now docs
  | .deleteDocument c docid f =>
    if s.getCollection c = none ∨ s.getDocument c docid = none then some (s.caching c)
    else (s.caching c).deleteDocument c o docid f
  | .delete c committed =>
    if s.getCollection c = none then some s else (s.caching c).delete c committed
  | .reopen index => some (s.reopened index)

/-! ### Documents of a collection -/

/-- The ids of the documents that `GetDocument` can return. -/
def ids (s : DocStore) (c : CollectionId) : Set Bytes :=
  {docid | (s.getDocument c docid).isSome}

/-- The records of documents are documents. -/
def Typed (s : DocStore) : Prop :=
  ∀ c docid v, s.data.lookup (encodeDocumentMetaKey c docid) = some v → ∃ doc, v = .document doc

/-- The count of every collection is the number of its documents. -/
def Exact (s : DocStore) : Prop :=
  ∀ c, s.countByCollection c = (s.ids c).ncard

section Keys

variable {c c' : CollectionId} {docid docid' : Bytes}

lemma encodeDocumentMetaKey_inj :
    encodeDocumentMetaKey c docid = encodeDocumentMetaKey c' docid' ↔ c = c' ∧ docid = docid' := by
  constructor
  · intro h
    obtain ⟨hc, hdocid⟩ := Cut.append_inj_left (bar_not_mem_formatId c) (bar_not_mem_formatId c')
      (List.cons.inj h).2
    exact ⟨formatId_injective hc, hdocid⟩
  · rintro ⟨rfl, rfl⟩
    rfl

lemma encodeDocumentMetaKey_ne_path : encodeDocumentMetaKey c docid ≠ encodeDocumentPathKey c' docid' :=
  fun h => absurd (List.cons.inj h).1 (by decide)

lemma encodeDocumentMetaKey_ne_meta : encodeDocumentMetaKey c docid ≠ encodeMetaKey c' :=
  fun h => absurd (List.cons.inj h).1 (by decide)

end Keys

section Ids

variable {s s' : DocStore} {c c' : CollectionId} {docid : Bytes}

/-- With typed records a document is there if its key is. -/
lemma Typed.mem_ids_iff (h : s.Typed) :
    docid ∈ s.ids c ↔ encodeDocumentMetaKey c docid ∈ s.data := by
  change (s.getDocument c docid).isSome ↔ _
  rw [getDocument, mem_iff_exists_lookup]
  cases hv : s.data.lookup (encodeDocumentMetaKey c docid) with
  | none => simp
  | some v =>
    obtain ⟨doc, rfl⟩ := h c docid v hv
    simp

lemma Typed.image_ids (h : s.Typed) (c : CollectionId) :
    encodeDocumentMetaKey c '' s.ids c =
      ((s.data.keys.filter fun k => (encodeDocumentMetaKey c []).isPrefixOf k).toFinset : Set Bytes) := by
  ext k
  simp only [Set.mem_image, List.coe_toFinset, Set.mem_ofPred_eq, List.mem_filter,
    List.isPrefixOf_iff_prefix]
  constructor
  · rintro ⟨docid, hdocid, rfl⟩
    exact ⟨AList.mem_keys.1 (h.mem_ids_iff.1 hdocid), appendDocKey_prefix_iff.2 ⟨rfl, rfl⟩⟩
  · rintro ⟨hk, rest, rfl⟩
    have hkey : encodeDocumentMetaKey c [] ++ rest = encodeDocumentMetaKey c rest := by
      simp [encodeDocumentMetaKey, appendDocKey]
    rw [hkey] at hk ⊢
    exact ⟨rest, h.mem_ids_iff.2 (AList.mem_keys.2 hk), rfl⟩

lemma injective_encodeDocumentMetaKey : Function.Injective (encodeDocumentMetaKey c) :=
  fun _ _ h => (encodeDocumentMetaKey_inj.1 h).2

lemma Typed.finite_ids (h : s.Typed) (c : CollectionId) : (s.ids c).Finite := by
  refine Set.Finite.of_finite_image ?_ (@injective_encodeDocumentMetaKey c).injOn
  rw [h.image_ids]
  exact finite_toSet _

/-- Counting keys counts documents. -/
lemma Typed.countKeys_eq (h : s.Typed) (c : CollectionId) :
    GoMap.countKeys s.data (fun k => (encodeDocumentMetaKey c []).isPrefixOf k) =
      (s.ids c).ncard := by
  rw [← Set.ncard_image_of_injective _ (@injective_encodeDocumentMetaKey c), h.image_ids,
    Set.ncard_coe_finset, countKeys, List.countP_eq_length_filter]
  exact (List.toFinset_card_of_nodup (List.Nodup.filter _ s.data.nodupKeys)).symm

lemma typed_of_data_eq (h : s.Typed) (hdata : s'.data = s.data) : s'.Typed := by
  rw [Typed, hdata]
  exact h

lemma ids_of_data_eq (hdata : s'.data = s.data) (c : CollectionId) : s'.ids c = s.ids c := by
  simp only [ids, getDocument, hdata]

/-! ### What the calls do to the ids -/

lemma lookup_saveDocument (data : GoMap Bytes Value) (now : Int64) (doc : Document)
    (c c' : CollectionId) (docid : Bytes) :
    (saveDocument c now data doc).lookup (encodeDocumentMetaKey c' docid) =
      if c' = c ∧ docid = doc.id then
        some (.document { doc with id := [], words := [], lastSyncTime := now })
      else data.lookup (encodeDocumentMetaKey c' docid) := by
  rw [saveDocument, lookup_insert_if, if_neg encodeDocumentMetaKey_ne_path,
    lookup_insert_if]
  exact if_congr encodeDocumentMetaKey_inj rfl rfl

/-- Records after some documents have been saved. -/
lemma lookup_foldl_saveDocument {α : Type} (f : α → Document) (now : Int64) (docs : List α)
    (data : GoMap Bytes Value) (c c' : CollectionId) (docid : Bytes) :
    ((docs.foldl (fun data x => saveDocument c now data (f x)) data).lookup
        (encodeDocumentMetaKey c' docid) = data.lookup (encodeDocumentMetaKey c' docid) ∧
      ¬ (c' = c ∧ docid ∈ docs.map fun x => (f x).id)) ∨
    ((∃ doc, (docs.foldl (fun data x => saveDocument c now data (f x)) data).lookup
        (encodeDocumentMetaKey c' docid) = some (.document doc)) ∧
      c' = c ∧ docid ∈ docs.map fun x => (f x).id) := by
  induction docs using List.reverseRecOn with
  | nil => exact .inl ⟨rfl, by simp⟩
  | append_singleton docs x ih =>
    rw [List.foldl_append, List.foldl_cons, List.foldl_nil, lookup_saveDocument, List.map_append]
    by_cases hx : c' = c ∧ docid = (f x).id
    · rw [if_pos hx]
      exact .inr ⟨⟨_, rfl⟩, hx.1, by simp [hx.2]⟩
    · rw [if_neg hx]
      rcases ih with ⟨heq, hnot⟩ | ⟨hsome, hc, hmem⟩
      · refine .inl ⟨heq, ?_⟩
        rintro ⟨rfl, hmem⟩
        rcases List.mem_append.1 hmem with hmem | hmem
        · exact hnot ⟨rfl, hmem⟩
        · exact hx ⟨rfl, by simpa using hmem⟩
      · exact .inr ⟨hsome, hc, List.mem_append_left _ hmem⟩

variable {α : Type} {f : α → Document} {now : Int64} {docs : List α}

lemma typed_saved (h : s.Typed)
    (hdata : s'.data = docs.foldl (fun data x => saveDocument c now data (f x)) s.data) :
    s'.Typed := by
  intro c' docid v hv
  rw [hdata] at hv
  rcases lookup_foldl_saveDocument f now docs s.data c c' docid with ⟨heq, -⟩ | ⟨⟨doc, hdoc⟩, -⟩
  · exact h c' docid v (heq ▸ hv)
  · exact ⟨doc, some.inj (hv.symm.trans hdoc)⟩

/-- Saving adds the ids that are saved. -/
lemma ids_saved (hdata : s'.data = docs.foldl (fun data x => saveDocument c now data (f x)) s.data)
    (c' : CollectionId) :
    s'.ids c' = s.ids c' ∪ {docid | c' = c ∧ docid ∈ docs.map fun x => (f x).id} := by
  ext docid
  change (s'.getDocument c' docid).isSome ↔ (s.getDocument c' docid).isSome ∨ (_ ∧ _)
  rw [getDocument, getDocument, hdata]
  rcases lookup_foldl_saveDocument f now docs s.data c c' docid with ⟨heq, hnot⟩ | ⟨⟨doc, hdoc⟩, h⟩
  · rw [heq]
    exact (or_iff_left hnot).symm
  · rw [hdoc]
    exact iff_of_true rfl (.inr h)

lemma ids_deleted (hdata : s'.data = deletePrefix s.data (encodeDocumentMetaKey c []))
    (c' : CollectionId) : s'.ids c' = if c = c' then ∅ else s.ids c' := by
  ext docid
  change (s'.getDocument c' docid).isSome ↔ _
  rw [getDocument_of_deleted hdata]
  by_cases hc : c = c'
  · simp [hc]
  · rw [if_neg hc, if_neg hc]
    rfl

lemma typed_deleted (h : s.Typed)
    (hdata : s'.data = deletePrefix s.data (encodeDocumentMetaKey c [])) : s'.Typed := by
  intro c' docid v hv
  rw [hdata, encodeDocumentMetaKey, lookup_deletePrefix_meta] at hv
  split at hv
  · cases hv
  · exact h c' docid v hv

lemma lookup_erased
    (hdata : s'.data =
      (s.data.erase (encodeDocumentMetaKey c docid)).erase (encodeDocumentPathKey c docid))
    (c' : CollectionId) (docid' : Bytes) :
    s'.data.lookup (encodeDocumentMetaKey c' docid') =
      if c' = c ∧ docid' = docid then none else s.data.lookup (encodeDocumentMetaKey c' docid') := by
  rw [hdata, lookup_erase_if, if_neg encodeDocumentMetaKey_ne_path, lookup_erase_if]
  exact if_congr encodeDocumentMetaKey_inj rfl rfl

lemma ids_erased
    (hdata : s'.data =
      (s.data.erase (encodeDocumentMetaKey c docid)).erase (encodeDocumentPathKey c docid))
    (c' : CollectionId) : s'.ids c' = if c' = c then s.ids c' \ {docid} else s.ids c' := by
  ext docid'
  change (s'.getDocument c' docid').isSome ↔ _
  rw [getDocument, lookup_erased hdata]
  by_cases hc : c' = c
  · by_cases hd : docid' = docid
    · simp [hc, hd]
    · rw [if_neg fun h => hd h.2, if_pos hc]
      exact (and_iff_left hd).symm
  · rw [if_neg fun h => hc h.1, if_neg hc]
    rfl

lemma typed_erased (h : s.Typed)
    (hdata : s'.data =
      (s.data.erase (encodeDocumentMetaKey c docid)).erase (encodeDocumentPathKey c docid)) :
    s'.Typed := by
  intro c' docid' v hv
  rw [lookup_erased hdata] at hv
  split at hv
  · cases hv
  · exact h c' docid' v hv

lemma lookup_create (s : DocStore) (desc : Bytes) (table : TableId) (c' : CollectionId)
    (docid : Bytes) :
    (s.create c desc table).data.lookup (encodeDocumentMetaKey c' docid) =
      s.data.lookup (encodeDocumentMetaKey c' docid) := by
  rw [create]
  exact (lookup_insert_if _ _ _ _).trans (if_neg encodeDocumentMetaKey_ne_meta)

lemma ids_create (s : DocStore) (desc : Bytes) (table : TableId) (c' : CollectionId) :
    (s.create c desc table).ids c' = s.ids c' := by
  ext docid
  change ((s.create c desc table).getDocument c' docid).isSome ↔ (s.getDocument c' docid).isSome
  rw [getDocument, getDocument, lookup_create]

lemma typed_create (h : s.Typed) (desc : Bytes) (table : TableId) :
    (s.create c desc table).Typed := by
  intro c' docid v hv
  rw [lookup_create] at hv
  exact h c' docid v hv

@[simp]
lemma caching_data (s : DocStore) (c : CollectionId) : (s.caching c).data = s.data := by
  rw [caching]
  split <;> rfl

@[simp]
lemma caching_docCount (s : DocStore) (c : CollectionId) :
    (s.caching c).docCount = s.docCount := by
  rw [caching]
  split <;> rfl

end Ids

section Cardinality

variable {α : Type*} {A : Set α} {l : List α}

/-- The members of a list all count in a union just if they are new and different. -/
lemma ncard_union_mem_eq_add_iff (hA : A.Finite) :
    (A ∪ {x | x ∈ l}).ncard = A.ncard + l.length ↔ l.Nodup ∧ ∀ x ∈ l, x ∉ A := by
  classical
  obtain ⟨F, rfl⟩ := hA.exists_finset_coe
  have hunion : (F : Set α) ∪ {x | x ∈ l} = ((F ∪ l.toFinset : Finset α) : Set α) := by
    ext x
    simp
  rw [hunion, Set.ncard_coe_finset, Set.ncard_coe_finset]
  have hle : l.toFinset.card ≤ l.length := l.toFinset_card_le
  constructor
  · intro h
    have hcard := card_union_add_card_inter F l.toFinset
    have hinter : (F ∩ l.toFinset).card = 0 := by omega
    have hnodup : l.toFinset.card = l.length := by omega
    refine ⟨Multiset.toFinset_card_eq_card_iff_nodup.1 hnodup, fun x hx hF => ?_⟩
    have hmem : x ∈ F ∩ l.toFinset := mem_inter.2 ⟨hF, List.mem_toFinset.2 hx⟩
    rw [card_eq_zero.1 hinter] at hmem
    exact absurd hmem (notMem_empty x)
  · rintro ⟨hnodup, hnew⟩
    rw [card_union_of_disjoint, List.toFinset_card_of_nodup hnodup]
    refine disjoint_right.2 fun x hx => ?_
    exact hnew x (List.mem_toFinset.1 hx)

/-- A list adds nothing to the size of a set just if its members are there. -/
lemma ncard_union_mem_eq_iff (hA : A.Finite) :
    (A ∪ {x | x ∈ l}).ncard = A.ncard ↔ ∀ x ∈ l, x ∈ A := by
  constructor
  · intro h x hx
    have hfin : (A ∪ {x | x ∈ l}).Finite := hA.union l.finite_toSet
    rw [Set.eq_of_subset_of_ncard_le Set.subset_union_left h.le hfin]
    exact Set.mem_union_right _ hx
  · intro h
    have hsub : {x | x ∈ l} ⊆ A := h
    rw [Set.union_eq_self_of_subset_right hsub]

end Cardinality

/-! ### The condition of a call -/

/-- What a call has to meet for the counts to stay right. -/
def Meets (s : DocStore) : Call → Prop
  | .saveNew c _ docs =>
    s.Refuses c ∨ (docs.map fun x => x.1.id).Nodup ∧ ∀ docid ∈ docs.map fun x => x.1.id, docid ∉ s.ids c
  | .update c _ docs => s.Refuses c ∨ ∀ docid ∈ docs.map fun x => x.1.id, docid ∈ s.ids c
  | .reopen _ => ∀ c, s.ids c = ∅
  | .create .. | .deleteDocument .. | .delete .. => True

section Step

variable {s s' : DocStore} {o : Options} {call : Call} {c : CollectionId}

/-- A call on one collection is exact just if it is exact there. -/
lemma exact_iff_of_others (h : s.Exact)
    (hcount : ∀ c', c' ≠ c → s'.docCount.lookup c' = s.docCount.lookup c')
    (hids : ∀ c', c' ≠ c → s'.ids c' = s.ids c') :
    s'.Exact ↔ s'.countByCollection c = (s'.ids c).ncard := by
  refine ⟨fun h' => h' c, fun hc c' => ?_⟩
  by_cases hne : c' = c
  · exact hne ▸ hc
  · rw [countByCollection, hcount c' hne, hids c' hne]
    exact h c'

lemma exact_congr (hdata : s'.data = s.data) (hcount : s'.docCount = s.docCount) :
    s'.Exact ↔ s.Exact := by
  simp only [Exact, countByCollection, hcount, ids_of_data_eq hdata]

lemma exact_create (h : s.Exact) (ht : s.Typed) (c : CollectionId) (desc : Bytes)
    (table : TableId) : (s.create c desc table).Exact := by
  refine (exact_iff_of_others (c := c) h ?_ fun c' _ => ids_create s desc table c').2 ?_
  · intro c' hc'
    exact (lookup_insert_if _ _ _ _).trans (if_neg hc')
  · rw [ids_create, ← ht.countKeys_eq]
    exact congrArg (getD · 0) (AList.lookup_insert _)

lemma exact_saveNew_iff (h : s.Exact) (ht : s.Typed) {now : Int64}
    {docs : List (Document × Index.Forced)}
    (hdata : s'.data = docs.foldl (fun data x => saveDocument c now data x.1) s.data)
    (hcount : s'.docCount = s.docCount.insert c ((s.docCount.lookup c).getD 0 + docs.length)) :
    s'.Exact ↔ (docs.map fun x => x.1.id).Nodup ∧
      ∀ docid ∈ docs.map fun x => x.1.id, docid ∉ s.ids c := by
  have hids := ids_saved hdata
  rw [exact_iff_of_others (c := c) h, countByCollection, hcount, AList.lookup_insert,
    getD_some, hids c, ← ncard_union_mem_eq_add_iff (ht.finite_ids c), List.length_map]
  · have hc := h c
    rw [countByCollection] at hc
    simp only [hc, true_and]
    rw [eq_comm]
    exact_mod_cast Iff.rfl
  · intro c' hc'
    rw [hcount, AList.lookup_insert_ne hc']
  · intro c' hc'
    rw [hids c']
    simp [hc']

lemma exact_update_iff (h : s.Exact) (ht : s.Typed) {now : Int64}
    {docs : List (Document × Index.Forced × Index.Forced)}
    (hdata : s'.data = docs.foldl (fun data x => saveDocument c now data x.1) s.data)
    (hcount : s'.docCount = s.docCount) :
    s'.Exact ↔ ∀ docid ∈ docs.map fun x => x.1.id, docid ∈ s.ids c := by
  have hids := ids_saved hdata
  rw [exact_iff_of_others (c := c) h, countByCollection, hcount, hids c,
    ← ncard_union_mem_eq_iff (ht.finite_ids c)]
  · have hc := h c
    rw [countByCollection] at hc
    simp only [hc, true_and]
    rw [eq_comm]
    exact_mod_cast Iff.rfl
  · intro c' _
    rw [hcount]
  · intro c' hc'
    rw [hids c']
    simp [hc']

lemma exact_deleteDocument (h : s.Exact) (ht : s.Typed) {docid : Bytes} (hmem : docid ∈ s.ids c)
    (hdata : s'.data =
      (s.data.erase (encodeDocumentMetaKey c docid)).erase (encodeDocumentPathKey c docid))
    (hcount : s'.docCount = s.docCount.insert c ((s.docCount.lookup c).getD 0 - 1)) : s'.Exact := by
  have hids := ids_erased hdata
  rw [exact_iff_of_others (c := c) h, countByCollection, hcount, AList.lookup_insert,
    getD_some, hids c, if_pos rfl]
  · have hc := h c
    rw [countByCollection, ← Set.ncard_sdiff_singleton_add_one hmem (ht.finite_ids c)] at hc
    rw [hc]
    push_cast
    ring
  · intro c' hc'
    rw [hcount, AList.lookup_insert_ne hc']
  · intro c' hc'
    rw [hids c', if_neg hc']

lemma exact_delete (h : s.Exact)
    (hdata : s'.data = deletePrefix s.data (encodeDocumentMetaKey c []))
    (hcount : s'.docCount = s.docCount.erase c) : s'.Exact := by
  have hids := ids_deleted hdata
  rw [exact_iff_of_others (c := c) h, countByCollection, hcount, AList.lookup_erase, hids c,
    if_pos rfl, Set.ncard_empty]
  · rfl
  · intro c' hc'
    rw [hcount, AList.lookup_erase_ne hc']
  · intro c' hc'
    rw [hids c', if_neg hc'.symm]

lemma exact_reopened_iff (ht : s.Typed) (index : Index) :
    (s.reopened index).Exact ↔ ∀ c, s.ids c = ∅ := by
  refine forall_congr' fun c => ?_
  rw [← Set.ncard_eq_zero (ht.finite_ids c)]
  change ((0 : ℤ) = (s.ids c).ncard) ↔ _
  omega

/-- From a store with right counts a call leads to right counts just if it meets its condition. -/
lemma typed_exact_of_step (h : s.Exact) (ht : s.Typed) (hstep : s.step o call = some s') :
    s'.Typed ∧ (s'.Exact ↔ s.Meets call) := by
  cases call with
  | create c desc table =>
    cases hstep
    exact ⟨typed_create ht desc table, iff_of_true (exact_create h ht c desc table) trivial⟩
  | saveNew c now docs =>
    rw [step] at hstep
    rw [Meets]
    by_cases hr : s.Refuses c
    · rw [if_pos hr] at hstep
      cases hstep
      exact ⟨ht, iff_of_true h (.inl hr)⟩
    · rw [if_neg hr, saveNewDocuments] at hstep
      split at hstep
      · cases hstep
      · obtain ⟨info, -, hstep⟩ := bind_eq_some_iff.1 hstep
        obtain ⟨index, -, hstep⟩ := bind_eq_some_iff.1 hstep
        rw [caching_data, caching_docCount] at hstep
        cases hstep
        rw [or_iff_right hr]
        exact ⟨typed_saved ht rfl, exact_saveNew_iff h ht rfl rfl⟩
  | update c now docs =>
    rw [step] at hstep
    rw [Meets]
    by_cases hr : s.Refuses c
    · rw [if_pos hr] at hstep
      cases hstep
      exact ⟨ht, iff_of_true h (.inl hr)⟩
    · rw [if_neg hr, updateDocuments] at hstep
      split at hstep
      · cases hstep
      · obtain ⟨info, -, hstep⟩ := bind_eq_some_iff.1 hstep
        obtain ⟨index, -, hstep⟩ := bind_eq_some_iff.1 hstep
        rw [caching_data] at hstep
        cases hstep
        rw [or_iff_right hr]
        exact ⟨typed_saved ht rfl, exact_update_iff h ht rfl (by simp)⟩
  | deleteDocument c docid f =>
    rw [step] at hstep
    refine (?_ : s'.Typed ∧ s'.Exact).imp_right fun h' => iff_of_true h' trivial
    split at hstep
    case isTrue =>
      cases hstep
      exact ⟨typed_of_data_eq ht (caching_data s c),
        (exact_congr (caching_data s c) (caching_docCount s c)).2 h⟩
    case isFalse hfound =>
      have hmem : docid ∈ s.ids c := isSome_iff_ne_none.2 fun hnone => hfound (.inr hnone)
      obtain ⟨info, -, hstep⟩ := bind_eq_some_iff.1 hstep
      obtain ⟨doc, -, hstep⟩ := bind_eq_some_iff.1 hstep
      obtain ⟨index, -, hstep⟩ := bind_eq_some_iff.1 hstep
      rw [caching_data, caching_docCount] at hstep
      cases hstep
      exact ⟨typed_erased ht rfl, exact_deleteDocument h ht hmem rfl rfl⟩
  | delete c committed =>
    rw [step] at hstep
    refine (?_ : s'.Typed ∧ s'.Exact).imp_right fun h' => iff_of_true h' trivial
    split at hstep
    case isTrue =>
      cases hstep
      exact ⟨ht, h⟩
    case isFalse =>
      rw [delete, caching_data, caching_docCount] at hstep
      obtain ⟨info, -, rfl⟩ := map_eq_some_iff.1 hstep
      exact ⟨typed_deleted ht rfl, exact_delete h rfl rfl⟩
  | reopen index =>
    cases hstep
    exact ⟨typed_of_data_eq ht rfl, exact_reopened_iff ht index⟩

end Step

/-- The store on an empty database. -/
def empty : DocStore :=
  ⟨∅, Index.empty, ∅, [], ∅⟩

lemma typed_empty : empty.Typed := by
  intro c docid v hv
  cases hv

lemma ids_empty (c : CollectionId) : empty.ids c = ∅ :=
  Set.eq_empty_of_forall_notMem fun _ h => Bool.false_ne_true h

lemma exact_empty : empty.Exact := by
  intro c
  rw [ids_empty, Set.ncard_empty]
  rfl

/-- In a run whose calls have all met their condition the counts are right, and they stay right
exactly if the next call meets its condition too. -/
theorem count_exact_iff (o : Options) {calls : List Call} {s : DocStore}
    (hrun : StepSystem.Run (step o) Meets empty calls s) :
    s.Exact ∧ ∀ call s', s.step o call = some s' → (s'.Exact ↔ s.Meets call) := by
  have hinv : s.Typed ∧ s.Exact := by
    refine Run.invariant (I := fun _ s => s.Typed ∧ s.Exact) ⟨typed_empty, exact_empty⟩
      ?_ hrun
    intro _ s call s' hs hmeets hstep
    obtain ⟨ht, hiff⟩ := typed_exact_of_step hs.2 hs.1 hstep
    exact ⟨ht, hiff.2 hmeets⟩
  exact ⟨hinv.2, fun call s' hstep => (typed_exact_of_step hinv.2 hinv.1 hstep).2⟩

/-- A document for the runs below. -/
def sample (docid : UInt8) : Document :=
  ⟨[0, 0, 0, 0, 0, 0, 0, docid], [97], 1, [], 0, 0, [[98]]⟩

/-- No flush is forced. -/
def calm : Index.Forced :=
  ⟨[], 0, ⟨[], fun _ => 0, inOrder⟩⟩

/-- Two different new documents are counted. -/
theorem count_exact_two_saved :
    ∃ s, StepSystem.Run (step ⟨0, 0⟩) Meets empty
        [.create 7 [] 1, .saveNew 7 5 [(sample 1, calm), (sample 2, calm)]] s ∧
      s.Exact ∧ s.countByCollection 7 = 2 := by
  have hcreate : Run (step ⟨0, 0⟩) Meets empty [.create 7 [] 1] (empty.create 7 [] 1) :=
    Run.snoc .nil trivial rfl
  have hnew : ∀ docid, docid ∉ (empty.create 7 [] 1).ids 7 := by
    intro docid
    rw [ids_create, ids_empty]
    exact Set.notMem_empty docid
  have hmeets : (empty.create 7 [] 1).Meets (.saveNew 7 5 [(sample 1, calm), (sample 2, calm)]) :=
    Or.inr ⟨by decide, fun docid _ => hnew docid⟩
  have hsave := hcreate.snoc hmeets rfl
  exact ⟨_, hsave, (count_exact_iff _ hsave).1, rfl⟩

/-- The collection with the first sample as its only document. -/
lemma ids_sample {s s' : DocStore} {now : Int64} (h : s.ids 7 ⊆ {(sample 1).id})
    (hdata : s'.data = saveDocument 7 now s.data (sample 1)) : s'.ids 7 = {(sample 1).id} := by
  have hsaved := @ids_saved s s' 7 Document (fun doc => doc) now [sample 1] hdata 7
  rw [hsaved]
  refine (Set.union_eq_right.2 ?_).trans ?_
  · intro docid hdocid
    exact ⟨rfl, List.mem_singleton.2 (h hdocid)⟩
  · ext docid
    simp

lemma ids_created : (empty.create 7 [] 1).ids 7 ⊆ {(sample 1).id} := by
  rw [ids_create, ids_empty]
  exact Set.empty_subset _

lemma not_exact_of_ids {s : DocStore} {docid : Bytes} (hids : s.ids 7 = {docid})
    (hcount : s.countByCollection 7 ≠ 1) : ¬ s.Exact := by
  intro h
  have h7 := h 7
  rw [hids, Set.ncard_singleton] at h7
  exact hcount (by simpa using h7)

/-- A document that is saved twice is counted twice, one that is first seen by an update is not
counted, and a new store has no counts. -/
theorem count_not_exact :
    (∃ s, StepSystem.Run (step ⟨0, 0⟩) (fun _ _ => True) empty
        [.create 7 [] 1, .saveNew 7 5 [(sample 1, calm)], .saveNew 7 6 [(sample 1, calm)]] s ∧
      s.countByCollection 7 = 2 ∧ s.ids 7 = {(sample 1).id} ∧ ¬ s.Exact) ∧
    (∃ s, StepSystem.Run (step ⟨0, 0⟩) (fun _ _ => True) empty
        [.create 7 [] 1, .update 7 5 [(sample 1, calm, calm)]] s ∧
      s.countByCollection 7 = 0 ∧ s.ids 7 = {(sample 1).id} ∧ ¬ s.Exact) ∧
    ∃ s, StepSystem.Run (step ⟨0, 0⟩) (fun _ _ => True) empty
        [.create 7 [] 1, .saveNew 7 5 [(sample 1, calm)], .reopen Index.empty] s ∧
      s.countByCollection 7 = 0 ∧ s.ids 7 = {(sample 1).id} ∧ ¬ s.Exact := by
  refine ⟨⟨_, Run.of_exec rfl, rfl, ?_⟩, ⟨_, Run.of_exec rfl, rfl, ?_⟩,
    ⟨_, Run.of_exec rfl, rfl, ?_⟩⟩
  · have hfirst := @ids_sample _ { empty with data := _ } 5 ids_created rfl
    have hids := @ids_sample _ { empty with data := _ } 6 hfirst.subset rfl
    exact ⟨hids, not_exact_of_ids hids (by decide)⟩
  · have hids := @ids_sample _ { empty with data := _ } 5 ids_created rfl
    exact ⟨hids, not_exact_of_ids hids (by decide)⟩
  · have hids := @ids_sample _ { empty with data := _ } 5 ids_created rfl
    exact ⟨hids, not_exact_of_ids hids (by decide)⟩

end DocStore

end Haystack.Documents
