import Haystack.Engine.Query

/-!
# Candidate documents

The index gives candidates for a compiled query: for each term the documents of all its keywords,
for each clause the documents of all its terms, and for the query those of any clause. Next to them
a second set is kept with the documents of the wildcard keywords. The sets are Go maps, which may be
nil; an assignment to a nil map is a panic.
-/

namespace Haystack.ContentEngine

open List

open InvertedIndex (DocId TableId Keyword Store search)

/-- `SearchResult`; a set may be nil. -/
structure SearchResult where
  docIds : Option (Finset DocId)
  wildDocIds : Option (Finset DocId)
  deriving DecidableEq

namespace SearchResult

variable (r : SearchResult)

/-- The documents; a nil map has none. -/
def docs : Finset DocId := r.docIds.getD ∅

def wild : Finset DocId := r.wildDocIds.getD ∅

end SearchResult

/-! ### Terms -/

/-- Intersect the documents so far with those of the next keywords, the smaller set first, until
nothing is left. -/
def intersectKeywords (st : Store) (t : TableId) (result : Finset DocId) :
    List Keyword → Finset DocId
  | [] => result
  | kw :: kws =>
    let found := search st t kw
    let (small, large) := if found.card < result.card then (found, result) else (result, found)
    let result := small.filter (· ∈ large)
    if result = ∅ then result else intersectKeywords st t result kws

def collectWithKeywords (idx : Option Store) (t : TableId) : List Keyword → Finset DocId
  | [] => ∅
  | kw :: kws =>
    match idx with
    | none => ∅
    | some st => intersectKeywords st t (search st t kw) kws

/-- `term.collectDocuments` -/
def Term.collectDocuments (e : Engine) (t : Term) : SearchResult :=
  match e.table with
  | none => ⟨none, none⟩
  | some table =>
    if t.keywords = [] then ⟨none, none⟩
    else
      let docs := collectWithKeywords e.idx table t.keywords
      ⟨some docs, some ((collectWithKeywords e.idx table t.wildcards).filter (· ∈ docs))⟩

/-! ### Clauses -/

/-- One more term: documents that it does not have are deleted from the result, and those of its
wildcard documents that are not in the result from the wildcard documents of the result. -/
def SearchResult.intersect (result r : SearchResult) : SearchResult where
  docIds := result.docIds.map fun s => s.filter (· ∈ r.docs)
  wildDocIds := result.wildDocIds.map fun s =>
    s.filter fun d => ¬(d ∈ r.wild ∧ d ∉ result.docs.filter (· ∈ r.docs))

/-- The terms of a clause that the index is asked for. -/
def AndClause.keyTerms (c : AndClause) : List Term :=
  c.andTerms.filter fun t => t.keywords ≠ []

def AndClause.collectDocuments (e : Engine) (c : AndClause) : SearchResult :=
  match c.keyTerms.map (Term.collectDocuments e) with
  | [] => ⟨some ∅, none⟩
  | r :: rs => rs.foldl SearchResult.intersect r

/-! ### Queries -/

/-- Add documents to a map; nothing is assigned if there are none. -/
def insertAll (m : Option (Finset DocId)) (s : Finset DocId) : Option (Option (Finset DocId)) :=
  if s = ∅ then some m else m.map fun m => some (m ∪ s)

/-- One more clause. -/
def SearchResult.union (result r : SearchResult) : Option SearchResult :=
  (insertAll result.docIds r.docs).bind fun docs =>
    (insertAll result.wildDocIds r.wild).map fun wild => ⟨docs, wild⟩

/-- `CollectDocuments`; there is no result if it panics. -/
def Engine.collectDocuments (e : Engine) : Option SearchResult :=
  match e.orClauses.map (AndClause.collectDocuments e) with
  | [] => some ⟨none, none⟩
  | r :: rs => rs.foldlM SearchResult.union r

/-! ### What the sets hold -/

section

variable {e : Engine} {st : Store} {table : TableId} {d : DocId} {rs : List SearchResult}
  {c : AndClause} {r r' : SearchResult} {r : SearchResult}

lemma mem_intersectKeywords {result : Finset DocId} {kws : List Keyword} :
    d ∈ intersectKeywords st table result kws ↔
      d ∈ result ∧ ∀ kw ∈ kws, d ∈ search st table kw := by
  induction kws generalizing result with
  | nil => simp [intersectKeywords]
  | cons kw kws ih =>
    have hswap : ∀ s r : Finset DocId,
        (if r.card < s.card then (r, s) else (s, r)).1.filter
          (· ∈ (if r.card < s.card then (r, s) else (s, r)).2) = s ∩ r := by
      intro s r
      ext x
      split <;> simp [and_comm]
    simp only [intersectKeywords, hswap]
    split
    case isTrue hempty =>
      have hd : d ∉ result ∩ search st table kw := by simp [hempty]
      simp only [hempty, Finset.notMem_empty, false_iff]
      rintro ⟨hmem, hall⟩
      exact hd (Finset.mem_inter.2 ⟨hmem, hall kw (by simp)⟩)
    case isFalse =>
      rw [ih, Finset.mem_inter, forall_mem_cons, and_assoc]

/-- The document matches every one of the keywords, of which there is one. -/
def Engine.Finds (e : Engine) (kws : List Keyword) (d : DocId) : Prop :=
  kws ≠ [] ∧ ∃ st ∈ e.idx, ∃ table ∈ e.table, ∀ kw ∈ kws, d ∈ search st table kw

lemma mem_collectWithKeywords (htable : e.table = some table) {kws : List Keyword} :
    d ∈ collectWithKeywords e.idx table kws ↔ e.Finds kws d := by
  cases kws with
  | nil => simp [collectWithKeywords, Engine.Finds]
  | cons kw kws =>
    cases hidx : e.idx with
    | none => simp [collectWithKeywords, Engine.Finds, hidx]
    | some st =>
      simp [collectWithKeywords, Engine.Finds, hidx, htable, mem_intersectKeywords]

section

variable {t : Term} (ht : t.keywords ≠ [])

include ht

lemma Term.mem_docs : d ∈ (t.collectDocuments e).docs ↔ e.Finds t.keywords d := by
  unfold Term.collectDocuments
  split
  case h_1 htable => simp [SearchResult.docs, Engine.Finds, htable]
  case h_2 htable => simp [SearchResult.docs, ht, mem_collectWithKeywords htable]

lemma Term.mem_wild : d ∈ (t.collectDocuments e).wild ↔
    e.Finds t.wildcards d ∧ e.Finds t.keywords d := by
  unfold Term.collectDocuments
  split
  case h_1 htable => simp [SearchResult.wild, Engine.Finds, htable]
  case h_2 htable => simp [SearchResult.wild, ht, mem_collectWithKeywords htable]

lemma Term.wildDocIds_eq_none : (t.collectDocuments e).wildDocIds = none ↔ e.table = none := by
  unfold Term.collectDocuments
  split <;> simp_all

lemma Term.docIds_eq_none : (t.collectDocuments e).docIds = none ↔ e.table = none := by
  unfold Term.collectDocuments
  split <;> simp_all

end

lemma SearchResult.mem_docs_intersect : d ∈ (r.intersect r').docs ↔ d ∈ r.docs ∧ d ∈ r'.docs := by
  cases hr : r.docIds with
  | none => simp [SearchResult.intersect, SearchResult.docs, hr]
  | some s =>
    simp only [SearchResult.intersect, SearchResult.docs, hr, Option.map_some, Option.getD_some]
    exact Finset.mem_filter

lemma SearchResult.mem_wild_intersect :
    d ∈ (r.intersect r').wild ↔ d ∈ r.wild ∧ (d ∈ r'.wild → d ∈ r.docs ∧ d ∈ r'.docs) := by
  cases hr : r.wildDocIds <;> simp [SearchResult.intersect, SearchResult.wild, hr]

lemma SearchResult.mem_docs_foldl :
    d ∈ (rs.foldl intersect r).docs ↔ ∀ r' ∈ r :: rs, d ∈ r'.docs := by
  induction rs generalizing r with
  | nil => simp
  | cons r₁ rs ih =>
    rw [foldl_cons, ih]
    simp [mem_docs_intersect, and_assoc]

/-- A document stays in the wildcard set if each term that has it among its wildcard documents comes
only after terms that have the document. -/
lemma SearchResult.mem_wild_foldl :
    d ∈ (rs.foldl intersect r).wild ↔ d ∈ r.wild ∧ ∀ pre r' post, rs = pre ++ r' :: post →
      d ∈ r'.wild → ∀ r'' ∈ r :: (pre ++ [r']), d ∈ r''.docs := by
  induction rs using reverseRecOn with
  | nil => simp
  | append_singleton rs r₁ ih =>
    rw [foldl_append, foldl_cons, foldl_nil, mem_wild_intersect, ih,
      mem_docs_foldl, and_assoc]
    refine and_congr_right fun _ => ⟨?_, fun h => ⟨?_, ?_⟩⟩
    · rintro ⟨hrs, hlast⟩ pre r' post heq hwild
      obtain rfl | ⟨post, r₂, rfl⟩ := post.eq_nil_or_concat
      · obtain ⟨rfl, hlast'⟩ := append_inj' heq rfl
        obtain rfl := singleton_inj.1 hlast'
        obtain ⟨hdocs, hd⟩ := hlast hwild
        rw [← cons_append]
        exact forall_mem_append.2 ⟨hdocs, by simpa using hd⟩
      · rw [concat_eq_append, ← cons_append, ← append_assoc] at heq
        exact hrs pre r' post (append_inj' heq rfl).1 hwild
    · intro pre r' post heq
      exact h pre r' (post ++ [r₁]) (by simp [heq])
    · intro hwild
      have := h rs r₁ [] rfl hwild
      exact ⟨fun r'' hr'' => this r'' (by simp only [mem_cons, mem_append] at *; tauto),
        this r₁ (by simp)⟩

/-! ### The boolean query -/

/-- The document matches the keywords of all terms of the clause that have any. -/
def Engine.Matches (e : Engine) (c : AndClause) (d : DocId) : Prop :=
  c.keyTerms ≠ [] ∧ ∀ t ∈ c.keyTerms, e.Finds t.keywords d

/-- The document is a wildcard document of the first term, and each further term of which it is one
comes only after terms whose keywords it matches. -/
def Engine.Lingers (e : Engine) (c : AndClause) (d : DocId) : Prop :=
  ∃ t ts, c.keyTerms = t :: ts ∧ e.Finds t.wildcards d ∧ e.Finds t.keywords d ∧
    ∀ pre t' post, ts = pre ++ t' :: post → e.Finds t'.wildcards d → e.Finds t'.keywords d →
      ∀ t'' ∈ t :: pre, e.Finds t''.keywords d

lemma AndClause.keywords_ne_nil {t : Term} (ht : t ∈ c.keyTerms) : t.keywords ≠ [] := by
  simpa using (mem_filter.1 ht).2

lemma AndClause.mem_docs : d ∈ (c.collectDocuments e).docs ↔ e.Matches c d := by
  unfold AndClause.collectDocuments
  cases hc : c.keyTerms with
  | nil => simp [SearchResult.docs, Engine.Matches, hc]
  | cons t ts =>
    have hne : ∀ t' ∈ t :: ts, t'.keywords ≠ [] := fun t' h => keywords_ne_nil (hc ▸ h)
    rw [map_cons]
    simp only [SearchResult.mem_docs_foldl, ← map_cons, forall_mem_map, Engine.Matches,
      hc, ne_eq, reduceCtorEq, not_false_eq_true, true_and]
    exact forall₂_congr fun t' h => Term.mem_docs (hne t' h)

lemma AndClause.mem_wild : d ∈ (c.collectDocuments e).wild ↔ e.Lingers c d := by
  unfold AndClause.collectDocuments
  cases hc : c.keyTerms with
  | nil => simp [SearchResult.wild, Engine.Lingers, hc]
  | cons t ts =>
    have hne : ∀ t' ∈ t :: ts, t'.keywords ≠ [] := fun t' h => keywords_ne_nil (hc ▸ h)
    rw [map_cons]
    simp only [SearchResult.mem_wild_foldl, Term.mem_wild (hne t (by simp))]
    constructor
    · rintro ⟨⟨hw, hk⟩, hrest⟩
      refine ⟨t, ts, hc, hw, hk, ?_⟩
      rintro pre t' post rfl hw' hk' t'' ht''
      have ht' : t'.keywords ≠ [] := hne t' (by simp)
      refine (Term.mem_docs (hne t'' ?_)).1 (hrest _ _ _ (map_append ..)
        ((Term.mem_wild ht').2 ⟨hw', hk'⟩) _ ?_)
      · simp only [mem_cons, mem_append] at ht'' ⊢
        tauto
      · rw [mem_cons] at ht''
        obtain rfl | ht'' := ht''
        · simp
        · simp [mem_map_of_mem ht'']
    · rintro ⟨t₁, ts₁, heq, hw, hk, hrest⟩
      obtain ⟨rfl, rfl⟩ := cons.inj (hc.symm.trans heq)
      refine ⟨⟨hw, hk⟩, fun pre r' post hsplit hr' => ?_⟩
      obtain ⟨pre, rest, rfl, rfl, hrest'⟩ := map_eq_append_iff.1 hsplit
      obtain ⟨t', post, rfl, rfl, rfl⟩ := map_eq_cons_iff.1 hrest'
      have ht' : t'.keywords ≠ [] := hne t' (by simp)
      obtain ⟨hw', hk'⟩ := (Term.mem_wild ht').1 hr'
      have hall := hrest pre t' post rfl hw' hk'
      rw [← map_singleton, ← map_append, ← map_cons]
      refine forall_mem_map.2 fun t'' ht'' => (Term.mem_docs (hne t'' ?_)).2 ?_
      · simp only [mem_cons, mem_append] at ht'' ⊢
        tauto
      · obtain ht'' | ht'' := mem_append.1 (cons_append ▸ ht'')
        · exact hall t'' ht''
        · rwa [mem_singleton.1 ht'']

/-! ### Nil maps -/

lemma SearchResult.foldl_intersect_eq_none :
    ((rs.foldl intersect r).docIds = none ↔ r.docIds = none) ∧
      ((rs.foldl intersect r).wildDocIds = none ↔ r.wildDocIds = none) := by
  induction rs generalizing r with
  | nil => simp
  | cons r₁ rs ih =>
    rw [foldl_cons, ih.1, ih.2]
    simp [intersect]

lemma AndClause.docIds_eq_none :
    (c.collectDocuments e).docIds = none ↔ c.keyTerms ≠ [] ∧ e.table = none := by
  unfold AndClause.collectDocuments
  cases hc : c.keyTerms with
  | nil => simp
  | cons t ts =>
    rw [map_cons]
    simp only [SearchResult.foldl_intersect_eq_none.1]
    simpa using Term.docIds_eq_none (keywords_ne_nil (hc ▸ mem_cons_self))

lemma AndClause.wildDocIds_eq_none :
    (c.collectDocuments e).wildDocIds = none ↔ c.keyTerms = [] ∨ e.table = none := by
  unfold AndClause.collectDocuments
  cases hc : c.keyTerms with
  | nil => simp
  | cons t ts =>
    rw [map_cons]
    simp only [SearchResult.foldl_intersect_eq_none.2]
    simpa using Term.wildDocIds_eq_none (keywords_ne_nil (hc ▸ mem_cons_self))

/-- Without a collection nothing is found. -/
lemma not_finds_of_table (h : e.table = none) (kws : List Keyword) : ¬e.Finds kws d := by
  simp [Engine.Finds, h]

/-! ### Unions -/

lemma insertAll_eq_some {m m' : Option (Finset DocId)} {s : Finset DocId} :
    insertAll m s = some m' ↔ m'.getD ∅ = m.getD ∅ ∪ s ∧ (m' = none ↔ m = none) ∧
      (m = none → s = ∅) := by
  unfold insertAll
  split
  case isTrue hs =>
    subst hs
    cases m <;> cases m' <;> simp [eq_comm]
  case isFalse hs => cases m <;> cases m' <;> simp [hs, eq_comm]

lemma SearchResult.union_eq_some {r r' r'' : SearchResult} : r.union r' = some r'' ↔
    (r''.docs = r.docs ∪ r'.docs ∧ (r''.docIds = none ↔ r.docIds = none) ∧
      (r.docIds = none → r'.docs = ∅)) ∧
    (r''.wild = r.wild ∪ r'.wild ∧ (r''.wildDocIds = none ↔ r.wildDocIds = none) ∧
      (r.wildDocIds = none → r'.wild = ∅)) := by
  obtain ⟨docs, wild⟩ := r''
  simp only [SearchResult.union, Option.bind_eq_some_iff, Option.map_eq_some_iff, insertAll_eq_some,
    SearchResult.mk.injEq]
  constructor
  · rintro ⟨docs, hdocs, wild, hwild, rfl, rfl⟩
    exact ⟨hdocs, hwild⟩
  · rintro ⟨hdocs, hwild⟩
    exact ⟨docs, hdocs, wild, hwild, rfl, rfl⟩

lemma insertAll_isSome {m : Option (Finset DocId)} {s : Finset DocId} :
    (insertAll m s).isSome ↔ (m = none → s = ∅) := by
  unfold insertAll
  split <;> cases m <;> simp_all

lemma SearchResult.union_isSome : (r.union r').isSome ↔
    (r.docIds = none → r'.docs = ∅) ∧ (r.wildDocIds = none → r'.wild = ∅) := by
  rw [← insertAll_isSome, ← insertAll_isSome, union]
  cases insertAll r.docIds r'.docs <;> simp

/-- The union over the clauses is there unless something is assigned to a nil map. -/
lemma SearchResult.foldlM_union_isSome :
    (rs.foldlM union r).isSome ↔ (r.docIds = none → ∀ r₁ ∈ rs, r₁.docs = ∅) ∧
      (r.wildDocIds = none → ∀ r₁ ∈ rs, r₁.wild = ∅) := by
  induction rs generalizing r with
  | nil => simp
  | cons r₁ rs ih =>
    rw [foldlM_cons]
    cases hu : r.union r₁ with
    | none =>
      have hnone : ¬(r.union r₁).isSome := by simp [hu]
      rw [union_isSome] at hnone
      simp only [Option.bind_eq_bind, Option.bind_none, Option.isSome_none, Bool.false_eq_true,
        forall_mem_cons, false_iff]
      exact fun h => hnone ⟨fun hr => (h.1 hr).1, fun hr => (h.2 hr).1⟩
    | some r₂ =>
      obtain ⟨⟨-, hdocs, hd⟩, -, hwild, hw⟩ := union_eq_some.1 hu
      rw [Option.bind_eq_bind, Option.bind_some, ih, hdocs, hwild]
      simp only [forall_mem_cons]
      exact ⟨fun h => ⟨fun hr => ⟨hd hr, h.1 hr⟩, fun hr => ⟨hw hr, h.2 hr⟩⟩,
        fun h => ⟨fun hr => (h.1 hr).2, fun hr => (h.2 hr).2⟩⟩

lemma SearchResult.mem_foldlM_union (h : rs.foldlM union r = some r') :
    (∀ d, d ∈ r'.docs ↔ ∃ r₁ ∈ r :: rs, d ∈ r₁.docs) ∧
      ∀ d, d ∈ r'.wild ↔ ∃ r₁ ∈ r :: rs, d ∈ r₁.wild := by
  induction rs generalizing r with
  | nil =>
    cases h
    simp
  | cons r₁ rs ih =>
    rw [foldlM_cons] at h
    obtain ⟨r₂, hu, h⟩ := Option.bind_eq_some_iff.1 h
    obtain ⟨⟨hdocs, -⟩, hwild, -⟩ := union_eq_some.1 hu
    obtain ⟨hd, hw⟩ := ih h
    simp [hd, hw, hdocs, hwild, or_assoc]

lemma Engine.collectDocuments_isSome : e.collectDocuments.isSome ↔
    (∀ c ∈ e.orClauses.head?, c.keyTerms ≠ []) ∨
      ∀ c ∈ e.orClauses.tail, ∀ d, ¬e.Lingers c d := by
  unfold Engine.collectDocuments
  cases hcl : e.orClauses with
  | nil => simp
  | cons c cs =>
    simp only [map_cons, SearchResult.foldlM_union_isSome, AndClause.docIds_eq_none,
      AndClause.wildDocIds_eq_none, forall_mem_map, head?_cons, Option.mem_some_iff,
      forall_eq', tail_cons, Finset.eq_empty_iff_forall_notMem, AndClause.mem_docs,
      AndClause.mem_wild]
    by_cases htable : e.table = none
    · have hno : ∀ c d, ¬e.Matches c d ∧ ¬e.Lingers c d := by
        intro c d
        refine ⟨fun ⟨hne, hall⟩ => ?_, fun ⟨_, _, _, hw, _⟩ => not_finds_of_table htable _ hw⟩
        obtain ⟨t, ht⟩ := exists_mem_of_ne_nil _ hne
        exact not_finds_of_table htable _ (hall t ht)
      exact iff_of_true ⟨fun _ c _ d => (hno c d).1, fun _ c _ d => (hno c d).2⟩
        (.inr fun c _ d => (hno c d).2)
    · simp only [htable, and_false, false_implies, or_false, true_and]
      exact imp_iff_not_or

/-- **Boolean queries.** `CollectDocuments` returns, with exactly the documents of the boolean query
and wildcard documents among them, if and only if the first clause has keywords or no wildcard
document of a later clause is left, and every wildcard document that is left matches some clause. -/
theorem collectDocuments_boolean_iff (e : Engine) :
    (∃ r, e.collectDocuments = some r ∧
      (∀ d, d ∈ r.docs ↔ ∃ c ∈ e.orClauses, e.Matches c d) ∧ r.wild ⊆ r.docs) ↔
    ((∀ c ∈ e.orClauses.head?, c.keyTerms ≠ []) ∨
      ∀ c ∈ e.orClauses.tail, ∀ d, ¬e.Lingers c d) ∧
    ∀ c ∈ e.orClauses, ∀ d, e.Lingers c d → ∃ c' ∈ e.orClauses, e.Matches c' d := by
  have hmem : ∀ r, e.collectDocuments = some r →
      (∀ d, d ∈ r.docs ↔ ∃ c ∈ e.orClauses, e.Matches c d) ∧
        ∀ d, d ∈ r.wild ↔ ∃ c ∈ e.orClauses, e.Lingers c d := by
    intro r hr
    unfold Engine.collectDocuments at hr
    cases hcl : e.orClauses with
    | nil =>
      rw [hcl] at hr
      cases hr
      simp [SearchResult.docs, SearchResult.wild]
    | cons c cs =>
      rw [hcl] at hr
      have hfold := SearchResult.mem_foldlM_union hr
      simpa [AndClause.mem_docs, AndClause.mem_wild] using hfold
  rw [← Engine.collectDocuments_isSome, Option.isSome_iff_exists]
  constructor
  · rintro ⟨r, hr, hdocs, hsub⟩
    refine ⟨⟨r, hr⟩, fun c hc d hd => (hdocs d).1 (hsub ?_)⟩
    exact ((hmem r hr).2 d).2 ⟨c, hc, hd⟩
  · rintro ⟨⟨r, hr⟩, hall⟩
    refine ⟨r, hr, (hmem r hr).1, fun d hd => ?_⟩
    obtain ⟨c, hc, hd⟩ := ((hmem r hr).2 d).1 hd
    exact ((hmem r hr).1 d).2 (hall c hc d hd)

end

/-- A table in which the document 5 has the keywords of the text `foo_bar`. -/
private def fooBar : Store :=
  (Tokenizer.tokenizeForIndex (Bytes.ofAscii "foo_bar")).foldl (fun st w => st.insert
    (InvertedIndex.encodeInvertedKey 1 w 1 7 st.keys.length)
    (InvertedIndex.encodeInvertedValueCounted [5]).1) ∅

private def overFooBar : Engine :=
  ⟨⟨24, 32, false⟩, some fooBar, some 1, []⟩

/-- The query `ab | *foo_bar` panics: its first clause has no keyword, so the wildcard documents of
the second clause are assigned to a nil map. For `*foo_bar zzz` the document stays in the wildcard
set although it is in no other set. -/
theorem collectDocuments_not_boolean :
    (∃ e ∈ (overFooBar.compile Tokenizer.tokenizeForSearch (Bytes.ofAscii "ab | *foo_bar")
      false).toOption, e.collectDocuments = none) ∧
    ∃ e ∈ (overFooBar.compile Tokenizer.tokenizeForSearch (Bytes.ofAscii "*foo_bar zzz")
      false).toOption, ∃ r ∈ e.collectDocuments, 5 ∈ r.wild ∧ 5 ∉ r.docs := by
  have hpanic : (overFooBar.compile Tokenizer.tokenizeForSearch (Bytes.ofAscii "ab | *foo_bar")
      false).toOption.any (fun e => e.collectDocuments = none) = true := by
    decide +kernel
  have hleft : (overFooBar.compile Tokenizer.tokenizeForSearch (Bytes.ofAscii "*foo_bar zzz")
      false).toOption.any (fun e => e.collectDocuments.any fun r => 5 ∈ r.wild ∧ 5 ∉ r.docs)
      = true := by
    decide +kernel
  obtain ⟨e, he, hnone⟩ := (Option.any_eq_true _ _).1 hpanic
  obtain ⟨e', he', hr⟩ := (Option.any_eq_true _ _).1 hleft
  obtain ⟨r, hr, hd⟩ := (Option.any_eq_true _ _).1 hr
  exact ⟨⟨e, he, of_decide_eq_true hnone⟩, e', he', r, hr, of_decide_eq_true hd⟩

end Haystack.ContentEngine
