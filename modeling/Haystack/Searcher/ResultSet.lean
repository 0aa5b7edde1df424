import Haystack.Searcher.SearchContent

/-!
# The files of a result

Which files a search can return depends on names only: the paths of the unsaved files and of the
stored documents, the filters, and the two sets of candidates. `SearchSound` says that for given
names every search, whatever the contents, the limits and the orders of maps are, returns files that
pass the filters, each one once, and for unsaved files only what is unsaved.
-/

namespace Haystack.Searcher

open InvertedIndex (DocId)
open ContentEngine SlashPath List
open Tokenizer (lower)

/-! ### Sorted candidates -/

variable {d : DocId} {p : RelPath} {r : List ContentMatch × Bool} {editor : Option Editor}

section Order

variable {w : Workspace} {o : MapOrder} {sr : SearchResult} {filter : RelPath → Bool}

lemma Workspace.mem_withPaths :
    (p, d) ∈ w.withPaths o sr ↔ d ∈ sr.docs ∧ w.docs.lookup d = some p := by
  unfold Workspace.withPaths
  split
  · simp only [mem_map, mem_filter, decide_eq_true_eq, Prod.mk.injEq]
    constructor
    · rintro ⟨e, ⟨he, hd⟩, rfl, rfl⟩
      exact ⟨hd, GoMap.mem_entries_iff.1 he⟩
    · rintro ⟨hd, hp⟩
      exact ⟨⟨d, p⟩, ⟨GoMap.mem_entries_iff.2 hp, hd⟩, rfl, rfl⟩
  · simp only [mem_filterMap, o.mem_ids, Option.bind_eq_some_iff,
      Option.ite_none_left_eq_some, Option.some.injEq, Prod.mk.injEq]
    constructor
    · rintro ⟨d', hd', p', hp', -, rfl, rfl⟩
      exact ⟨hd', hp'⟩
    · rintro ⟨hd, hp⟩
      exact ⟨d, hd, p, hp, w.named hp, rfl, rfl⟩

lemma Workspace.lookup_byPath :
    (w.byPath o sr).lookup p = some d ↔ d ∈ sr.docs ∧ w.docs.lookup d = some p := by
  rw [Workspace.byPath, GoMap.lookup_foldl_insert_iff, mem_withPaths]
  exact fun h h' => w.inj (mem_withPaths.1 h).2 (mem_withPaths.1 h').2

/-- The documents of the result whose stored path passes the filter. -/
def Workspace.Passes (w : Workspace) (sr : SearchResult) (filter : RelPath → Bool) (d : DocId) :
    Prop :=
  d ∈ sr.docs ∧ ∃ p, w.docs.lookup d = some p ∧ filter p

/-- The documents of the result whose stored path does not pass the filter. -/
def Workspace.Fails (w : Workspace) (sr : SearchResult) (filter : RelPath → Bool) (d : DocId) :
    Prop :=
  d ∈ sr.docs ∧ ∃ p, w.docs.lookup d = some p ∧ ¬filter p

/-- While documents move to the list, each one that passes the filter is either in the list or left,
and the wildcard documents left are those of `wild` that are not in the list. -/
structure Sorting.Ok (passes : DocId → Prop) (wild : Finset DocId) (s : Sorting) : Prop where
  nodup_docs : (s.docs.map Prod.snd).Nodup
  nodup_sorted : s.sorted.Nodup
  disjoint : ∀ d ∈ s.sorted, d ∉ s.docs.map Prod.snd
  passes : ∀ d, passes d ↔ d ∈ s.sorted ∨ d ∈ s.docs.map Prod.snd
  wild : ∀ d, d ∈ s.wild ↔ d ∈ wild ∧ d ∉ s.sorted

lemma Workspace.mem_entries_byPath :
    (p, d) ∈ (w.byPath o sr).entries.map (fun e => (e.1, e.2)) ↔
      d ∈ sr.docs ∧ w.docs.lookup d = some p := by
  rw [← Workspace.lookup_byPath (o := o), ← GoMap.mem_entries_iff, mem_map]
  constructor
  · rintro ⟨e, he, heq⟩
    obtain ⟨rfl, rfl⟩ := Prod.mk.inj heq
    exact he
  · exact fun he => ⟨_, he, rfl⟩

lemma Workspace.nodup_entries_byPath :
    ((w.byPath o sr).entries.map fun e => (e.1, e.2)).Nodup := by
  refine Nodup.of_map Prod.fst ?_
  rw [map_map]
  exact (w.byPath o sr).nodupKeys

lemma mem_map_filter {l : List (RelPath × DocId)} {f : RelPath → Bool} :
    d ∈ (l.filter fun e => f e.1).map Prod.snd ↔ ∃ p, (p, d) ∈ l ∧ f p := by
  constructor
  · intro h
    obtain ⟨⟨p, d⟩, he, rfl⟩ := mem_map.1 h
    exact ⟨p, mem_filter.1 he⟩
  · rintro ⟨p, he, hp⟩
    exact mem_map.2 ⟨(p, d), mem_filter.2 ⟨he, hp⟩, rfl⟩

lemma Workspace.startSorting_ok :
    (w.startSorting o sr filter).Ok (w.Passes sr filter) (w.startSorting o sr filter).wild where
  nodup_docs := by
    refine Nodup.map_on ?_ (Workspace.nodup_entries_byPath.filter _)
    rintro ⟨p, d⟩ he ⟨p', d'⟩ he' rfl
    have hp := (Workspace.mem_entries_byPath.1 (mem_filter.1 he).1).2
    have hp' := (Workspace.mem_entries_byPath.1 (mem_filter.1 he').1).2
    rw [Option.some.inj (hp.symm.trans hp')]
  nodup_sorted := nodup_nil
  disjoint := by simp [Workspace.startSorting]
  passes d := by
    simp only [Workspace.startSorting, not_mem_nil, false_or, mem_map_filter,
      Workspace.mem_entries_byPath, Workspace.Passes, and_assoc, exists_and_left]
  wild d := by simp [Workspace.startSorting]

lemma Workspace.mem_wild_startSorting :
    d ∈ (w.startSorting o sr filter).wild ↔ d ∈ sr.wild ∧ ¬w.Fails sr filter d := by
  have hfails : d ∈ (((w.byPath o sr).entries.map fun e => (e.1, e.2)).filter
      fun e => !filter e.1).map Prod.snd ↔ w.Fails sr filter d := by
    rw [mem_map_filter (f := fun p => !filter p)]
    simp only [Workspace.mem_entries_byPath, Workspace.Fails, and_assoc, exists_and_left,
      Bool.not_eq_true', Bool.not_eq_true]
  rw [← hfails]
  simp only [Workspace.startSorting, Finset.mem_filter]

namespace Sorting.Ok

variable {passes : DocId → Prop} {wild : Finset DocId} {s : Sorting}

lemma move (h : s.Ok passes wild) {f : List (RelPath × DocId) → List (RelPath × DocId)}
    (hf : ∀ l, (f l).Perm l) (p : RelPath → Bool) : (s.move f p).Ok passes wild := by
  have hperm := (hf (s.docs.filter fun e => p e.1)).map Prod.snd
  have hmoved : ∀ d, d ∈ (f (s.docs.filter fun e => p e.1)).map Prod.snd ↔
      ∃ q, (q, d) ∈ s.docs ∧ p q := fun d => hperm.mem_iff.trans mem_map_filter
  have hleft : ∀ d, d ∈ (s.docs.filter fun e => !p e.1).map Prod.snd ↔
      ∃ q, (q, d) ∈ s.docs ∧ !p q := fun d => mem_map_filter (f := fun q => !p q)
  have hdocs : ∀ d, d ∈ s.docs.map Prod.snd ↔ ∃ q, (q, d) ∈ s.docs := fun d => by
    simp [mem_map]
  constructor
  case nodup_docs => exact (filter_sublist.map _).nodup h.nodup_docs
  case nodup_sorted =>
    refine nodup_append.2 ⟨h.nodup_sorted, hperm.nodup_iff.2
      ((filter_sublist.map _).nodup h.nodup_docs), ?_⟩
    rintro d hd _ hd' rfl
    obtain ⟨q, hq, -⟩ := (hmoved d).1 hd'
    exact h.disjoint d hd ((hdocs d).2 ⟨q, hq⟩)
  case disjoint =>
    intro d hd hd'
    obtain ⟨q, hq, hpq⟩ := (hleft d).1 hd'
    obtain hd | hd := mem_append.1 hd
    · exact h.disjoint d hd ((hdocs d).2 ⟨q, hq⟩)
    · obtain ⟨q', hq', hpq'⟩ := (hmoved d).1 hd
      have heq := inj_on_of_nodup_map h.nodup_docs hq hq' rfl
      simp [(Prod.mk.inj heq).1, hpq'] at hpq
  case passes =>
    intro d
    change passes d ↔ d ∈ s.sorted ++ _ ∨ d ∈ (s.docs.filter fun e => !p e.1).map Prod.snd
    rw [h.passes, mem_append, hmoved, hleft, hdocs, or_assoc, ← exists_or]
    refine or_congr_right (exists_congr fun q => ?_)
    cases p q <;> simp
  case wild =>
    intro d
    change d ∈ s.wild.filter _ ↔ d ∈ wild ∧ d ∉ s.sorted ++ _
    rw [Finset.mem_filter, h.wild, mem_append, hmoved, mem_map_filter, not_or, and_assoc]

lemma moveAll (h : s.Ok passes wild) (hints : List (RelPath → Bool)) :
    (s.moveAll o hints).Ok passes wild := by
  unfold Sorting.moveAll
  induction hints.zipIdx generalizing s with
  | nil => exact h
  | cons hint hints ih => exact ih (h.move (o.perm_files _) _)

/-- The list at the end holds what passes the filter and the wildcard documents, each once. -/
lemma finish (h : s.Ok passes wild) (n : ℕ) : (s.finish o n).Nodup ∧
    ∀ d, d ∈ s.finish o n ↔ passes d ∨ d ∈ wild := by
  have hperm := (o.perm_files n s.docs).map Prod.snd
  constructor
  · refine nodup_append.2 ⟨nodup_append.2 ⟨h.nodup_sorted, o.nodup_ids 1 _, ?_⟩,
      (hperm.nodup_iff.2 h.nodup_docs).filter _, ?_⟩
    · rintro d hd _ hd' rfl
      exact ((h.wild d).1 ((o.mem_ids 1 _ d).1 hd')).2 hd
    · rintro d hd _ hd' rfl
      obtain ⟨hmem, hwild⟩ := mem_filter.1 hd'
      obtain hd | hd := mem_append.1 hd
      · exact h.disjoint d hd (hperm.mem_iff.1 hmem)
      · simp [(o.mem_ids 1 _ d).1 hd] at hwild
  · intro d
    simp only [Sorting.finish, mem_append, mem_filter, o.mem_ids, hperm.mem_iff, h.wild,
      h.passes, decide_eq_true_eq]
    tauto

end Sorting.Ok

theorem Workspace.nodup_sortDocuments (editor : Option Editor) :
    (w.sortDocuments o editor sr filter).Nodup :=
  ((Workspace.startSorting_ok.moveAll _).finish _).1

/-- The sorted documents: those that pass the filter, and the wildcard documents unless they are
documents of the result with a path that fails. -/
theorem Workspace.mem_sortDocuments :
    d ∈ w.sortDocuments o editor sr filter ↔
      w.Passes sr filter d ∨ d ∈ sr.wild ∧ ¬w.Fails sr filter d := by
  rw [Workspace.sortDocuments, ((Workspace.startSorting_ok.moveAll _).finish _).2,
    Workspace.mem_wild_startSorting]

end Order

/-! ### Where results come from -/

section Results

variable (caps : Caps) (limit : Option SearchLimit) (isLineMatch : Bytes → List (ℕ × ℕ)) (n : ℕ)

variable {isLineMatch} in
lemma content_of_mem_hits {o : ScanOptions} {lines : List Bytes} {k f t : ℕ} {h : Line}
    (hmem : h ∈ (scanLines isLineMatch o k f t lines).hits) :
    h.content ∈ lines ∧ isLineMatch h.content ≠ [] := by
  induction lines generalizing k f t with
  | nil => simp [scanLines] at hmem
  | cons line lines ih =>
    have hline : h ∈ (takeMatches o f (isLineMatch line)).map (fun m => Line.mk k line (some m)) →
        h.content ∈ line :: lines ∧ isLineMatch h.content ≠ [] := by
      intro hh
      obtain ⟨m, hm, rfl⟩ := mem_map.1 hh
      refine ⟨mem_cons_self, fun hnil => ?_⟩
      rw [hnil] at hm
      simp [takeMatches] at hm
    rw [scanLines] at hmem
    dsimp only at hmem
    split at hmem
    · exact hline hmem
    · obtain hmem | hmem := mem_append.1 hmem
      · exact hline hmem
      · exact ⟨mem_cons_of_mem _ (ih hmem).1, (ih hmem).2⟩

/-- The result comes from the file: it has its cleaned name, and its hits are lines of it. -/
def ComesFrom (isLineMatch : Bytes → List (ℕ × ℕ)) (m : ContentMatch) (file : RelPath × Reader) :
    Prop :=
  m.file = clean file.1 ∧ m.lines ≠ [] ∧
    ∀ lm ∈ m.lines, lm.line.content ∈ file.2.lines ∧ isLineMatch lm.line.content ≠ []

/-- A file adds at most one result, which comes from it. -/
lemma Progress.searchFile_results (s : Progress) (file : RelPath × Reader) :
    let s' := s.searchFile caps limit isLineMatch n file
    s'.results = s.results ∨ ∃ m, s'.results = s.results ++ [m] ∧ ComesFrom isLineMatch m file := by
  unfold Progress.searchFile scanContent
  dsimp only
  split
  case h_1 => exact .inl rfl
  case h_2 m t heq =>
    obtain ⟨-, hm⟩ := Option.ite_none_left_eq_some.1 (Prod.mk.inj heq).1
    cases hm
    dsimp only
    split
    case isTrue => exact .inl rfl
    case isFalse hne =>
      refine .inr ⟨_, rfl, rfl, hne, fun lm hlm => ?_⟩
      obtain ⟨h, hh, rfl⟩ := mem_map.1 hlm
      exact content_of_mem_hits hh

/-- The new results of a search come from some of the files, in their order. -/
lemma Progress.searchFiles_results (s : Progress) (files : List (RelPath × Reader)) :
    ∃ origins new, origins.Sublist files ∧
      (s.searchFiles caps limit isLineMatch n files).results = s.results ++ new ∧
      List.Forall₂ (ComesFrom isLineMatch) new origins := by
  induction files generalizing s with
  | nil => exact ⟨[], [], .slnil, by simp [Progress.searchFiles], .nil⟩
  | cons file files ih =>
    rw [Progress.searchFiles]
    split
    case isTrue => exact ⟨[], [], nil_sublist _, by simp, .nil⟩
    case isFalse =>
      obtain ⟨origins, new, hsub, hres, hfrom⟩ := ih (s.searchFile caps limit isLineMatch n file)
      obtain hsame | ⟨m, hm, hcomes⟩ := searchFile_results caps limit isLineMatch n s file
      · exact ⟨origins, new, hsub.cons file, by rw [hres, hsame], hfrom⟩
      · exact ⟨file :: origins, m :: new, hsub.cons_cons file, by rw [hres, hm]; simp,
          .cons hcomes hfrom⟩

/-- A result of a search: each file comes from an unsaved file or, after those, from a candidate. -/
lemma Workspace.searchContent_results {w : Workspace} {env : Env} {q : Query} {req : Request}
    (hr : w.searchContent env req (some q) = some r) :
    ∃ docs origins, (docs = [] ∨ ∃ sr ∈ q.candidates, docs = w.docTargets env req sr) ∧
      origins.Sublist (w.unsavedTargets env req ++ docs) ∧
      List.Forall₂ (ComesFrom q.isLineMatch) r.1 origins := by
  obtain ⟨origins, new, hsub, hres, hfrom⟩ := Progress.searchFiles_results env.caps req.limit
    q.isLineMatch req.context ⟨[], 0, false⟩ (w.unsavedTargets env req)
  rw [nil_append] at hres
  rw [Workspace.searchContent] at hr
  dsimp only at hr
  have hshort : r.1 = new → ∃ docs origins,
      (docs = [] ∨ ∃ sr ∈ q.candidates, docs = w.docTargets env req sr) ∧
      origins.Sublist (w.unsavedTargets env req ++ docs) ∧
      Forall₂ (ComesFrom q.isLineMatch) r.1 origins :=
    fun h => ⟨[], origins, .inl rfl, by simpa using hsub, h ▸ hfrom⟩
  split_ifs at hr
  · exact hshort (by rw [← Option.some.inj hr, hres])
  · exact hshort (by rw [← Option.some.inj hr, hres])
  · obtain ⟨sr, hsr, rfl⟩ := Option.map_eq_some_iff.1 hr
    obtain ⟨origins', new', hsub', hres', hfrom'⟩ := Progress.searchFiles_results env.caps req.limit
      q.isLineMatch req.context (Progress.searchFiles env.caps req.limit q.isLineMatch req.context
        ⟨[], 0, false⟩ (w.unsavedTargets env req)) (w.docTargets env req sr)
    refine ⟨_, origins ++ origins', .inr ⟨sr, hsr, rfl⟩, hsub.append hsub', ?_⟩
    dsimp only
    rw [hres', hres]
    exact rel_append hfrom hfrom'

end Results

/-! ### Sound searches -/

variable (w : Workspace) (q : Query)

/-- The filters as they are meant: the path filter accepts the named file and what is inside the
named directory, without regard to case. -/
def Workspace.Accepts (filters : Option Filters) (file : RelPath) : Prop :=
  ∀ f ∈ filters, (comps (join w.path f.path)).map lower <+: (comps (join w.path file)).map lower ∧
    (∀ g ∈ f.excluded, ¬g file) ∧ ∀ g ∈ f.included, g file

/-- What should hold of the files of a result. -/
structure Sound (req : Request) (results : List ContentMatch) : Prop where
  accepted : ∀ m ∈ results, w.Accepts req.filters m.file
  distinct : (results.map fun m => m.file).Nodup
  unsaved : ∀ m ∈ results, ∀ u ∈ req.unsavedFiles, m.file = clean u.path →
    ∃ u' ∈ req.unsavedFiles, m.file = clean u'.path ∧
      ∀ lm ∈ m.lines, lm.line.content ∈ u'.content.lines

/-- The names in a request. -/
structure Names where
  editor : Option Editor
  filters : Option Filters
  unsaved : List RelPath

def Request.names (req : Request) : Names :=
  ⟨req.editor, req.filters, req.unsavedFiles.map fun u => u.path⟩

/-- Every search with these names is sound, and the sorted candidates are the documents that pass
the filter, each one once. -/
def SearchSound (names : Names) : Prop :=
  (∀ (env : Env) (req : Request) (r : List ContentMatch × Bool), req.names = names →
    w.searchContent env req (some q) = some r → Sound w req r.1) ∧
  ∀ sr ∈ q.candidates, ∀ order : MapOrder,
    (w.sortDocuments order names.editor sr (w.wantFile names.filters)).Nodup ∧
    ∀ d, d ∈ w.sortDocuments order names.editor sr (w.wantFile names.filters) ↔
      w.Passes sr (w.wantFile names.filters) d

/-- The stored path `p` of the document `d` is searched. -/
def Workspace.Searched (names : Names) (sr : SearchResult) (d : DocId) (p : RelPath) : Prop :=
  d ∈ sr.docs ∧ w.docs.lookup d = some p ∧ w.wantFile names.filters p ∧ p ∉ names.unsaved

/-- What is asked of the names: wildcard documents are documents with a path; and if the query
matches any line at all, every path that passes the code's filter is accepted when it is cleaned,
and no two paths that are searched are the same file. -/
structure NamesOk (names : Names) : Prop where
  wild : ∀ sr ∈ q.candidates, ∀ d ∈ sr.wild, d ∈ sr.docs ∧ ∃ p, w.docs.lookup d = some p
  paths : (∀ line, q.isLineMatch line = []) ∨
    (∀ p ∈ names.unsaved, w.wantFile names.filters p → w.Accepts names.filters (clean p)) ∧
    ((names.unsaved.filter fun p => w.wantFile names.filters p).map clean).Nodup ∧
    ∀ sr ∈ q.candidates, ∀ d p, w.Searched names sr d p →
      w.Accepts names.filters (clean p) ∧ (∀ p' ∈ names.unsaved, clean p ≠ clean p') ∧
      ∀ d' p', w.Searched names sr d' p' → clean p = clean p' → d = d'

section

variable {w q} {names : Names} {sr : SearchResult} {isLineMatch : Bytes → List (ℕ × ℕ)}
  {results : List ContentMatch}

/-- The sorted candidates are those that pass the filter, if wildcard documents are documents with a
path, and only then. -/
lemma sortDocuments_exact_iff {order : MapOrder} {filter : RelPath → Bool} :
    (∀ d, d ∈ w.sortDocuments order editor sr filter ↔ w.Passes sr filter d) ↔
      ∀ d ∈ sr.wild, d ∈ sr.docs ∧ ∃ p, w.docs.lookup d = some p := by
  constructor
  · intro h d hd
    by_cases hfails : w.Fails sr filter d
    · exact ⟨hfails.1, hfails.2.imp fun p hp => hp.1⟩
    · have hpasses := (h d).1 (Workspace.mem_sortDocuments.2 (.inr ⟨hd, hfails⟩))
      exact ⟨hpasses.1, hpasses.2.imp fun p hp => hp.1⟩
  · intro h d
    rw [Workspace.mem_sortDocuments]
    refine ⟨fun hd => hd.elim id fun ⟨hwild, hfails⟩ => ?_, .inl⟩
    obtain ⟨hdocs, p, hp⟩ := h d hwild
    exact ⟨hdocs, p, hp, not_not.1 fun hno => hfails ⟨hdocs, p, hp, hno⟩⟩

lemma map_file_eq {origins : List (RelPath × Reader)}
    (h : List.Forall₂ (ComesFrom isLineMatch) results origins) :
    results.map (fun m => m.file) = origins.map fun file => clean file.1 := by
  induction h with
  | nil => rfl
  | cons hm _ ih => rw [map_cons, map_cons, hm.1, ih]

variable {env : Env} {req : Request} {file : RelPath × Reader} {line : Bytes}
  {files : List (RelPath × Reader)}

lemma mem_unsavedTargets (h : file ∈ w.unsavedTargets env req) :
    ∃ u ∈ req.unsavedFiles, w.wantFile req.filters u.path ∧ file = (u.path, u.content) := by
  obtain ⟨u, hu, rfl⟩ := mem_map.1 h
  obtain ⟨hu, hwant⟩ := mem_filter.1 hu
  exact ⟨u, mem_of_mem_take hu, hwant, rfl⟩

/-- A candidate is searched only when all unsaved files have been looked at. -/
lemma mem_docTargets (h : file ∈ w.docTargets env req sr) :
    ∃ d ∈ w.sortDocuments env.order req.editor sr (w.wantFile req.filters),
      w.docs.lookup d = some file.1 ∧
      ∀ u ∈ req.unsavedFiles, w.wantFile req.filters u.path → file.1 ≠ u.path := by
  obtain ⟨d, hd, hfile⟩ := mem_filterMap.1 h
  obtain ⟨rel, hrel, hfile⟩ := Option.bind_eq_some_iff.1 hfile
  obtain ⟨hno, hfile⟩ := Option.ite_none_left_eq_some.1 hfile
  obtain ⟨content, -, rfl⟩ := Option.map_eq_some_iff.1 hfile
  have hall : d ∈ w.sortDocuments env.order req.editor sr (w.wantFile req.filters) ∧
      req.unsavedFiles.take (env.timeout.getD req.unsavedFiles.length) = req.unsavedFiles := by
    cases htime : env.timeout with
    | none => exact ⟨by simpa only [htime] using hd, take_length⟩
    | some k =>
      simp only [htime] at hd
      refine ⟨mem_of_mem_take hd, take_of_length_le ?_⟩
      by_contra hlt
      rw [Option.getD_some, not_le] at hlt
      simp [Nat.sub_eq_zero_of_le hlt.le] at hd
  refine ⟨d, hall.1, hrel, fun u hu hwant heq => hno ?_⟩
  refine mem_map.2 ⟨(u.path, u.content), mem_map.2 ⟨u, mem_filter.2 ⟨?_, hwant⟩, rfl⟩,
    heq.symm⟩
  rwa [hall.2]

lemma NamesOk.searched (h : NamesOk w q names) (hnames : req.names = names)
    (hsr : sr ∈ q.candidates) (hfile : file ∈ w.docTargets env req sr) :
    ∃ d, w.Searched names sr d file.1 := by
  subst hnames
  obtain ⟨d, hd, hlookup, hno⟩ := mem_docTargets hfile
  obtain ⟨hdocs, p, hp, hwant⟩ := (sortDocuments_exact_iff.2 (h.wild sr hsr) d).1 hd
  obtain rfl := Option.some.inj (hp.symm.trans hlookup)
  refine ⟨d, hdocs, hp, hwant, fun hmem => ?_⟩
  obtain ⟨u, hu, hpath⟩ := mem_map.1 hmem
  exact hno u hu (hpath.symm ▸ hwant) hpath.symm

lemma nodup_docTargets : ((w.docTargets env req sr).map Prod.fst).Nodup := by
  have hids := @Workspace.nodup_sortDocuments w env.order sr (w.wantFile req.filters) req.editor
  rw [Nodup, pairwise_map, Workspace.docTargets]
  refine Pairwise.filterMap _ (R := (· ≠ ·)) ?_ ?_
  · intro d d' hne b hb b' hb' heq
    obtain ⟨p, hp, hb⟩ := Option.bind_eq_some_iff.1 hb
    obtain ⟨p', hp', hb'⟩ := Option.bind_eq_some_iff.1 hb'
    obtain ⟨c, -, rfl⟩ := Option.map_eq_some_iff.1 (Option.ite_none_left_eq_some.1 hb).2
    obtain ⟨c', -, rfl⟩ := Option.map_eq_some_iff.1 (Option.ite_none_left_eq_some.1 hb').2
    obtain rfl : p = p' := heq
    exact hne (w.inj hp hp')
  · split
    · exact (take_sublist _ _).nodup hids
    · exact hids

lemma sublist_unsavedTargets : ((w.unsavedTargets env req).map fun file => clean file.1).Sublist
    ((req.names.unsaved.filter fun p => w.wantFile req.filters p).map clean) := by
  have hfull : (req.names.unsaved.filter fun p => w.wantFile req.filters p).map clean =
      (req.unsavedFiles.filter fun u => w.wantFile req.filters u.path).map
        fun u => clean u.path := by
    rw [Request.names, filter_map, map_map]
    rfl
  rw [hfull, Workspace.unsavedTargets, map_map]
  exact ((take_sublist _ _).filter _).map _

lemma NamesOk.sound (h : NamesOk w q names) (hnames : req.names = names)
    (hr : w.searchContent env req (some q) = some r) : Sound w req r.1 := by
  obtain ⟨docs, origins, hdocs, hsub, hfrom⟩ := Workspace.searchContent_results hr
  obtain hno | ⟨haccept, hnodup, hsearched⟩ := h.paths
  · have hnil : r.1 = [] := by
      refine eq_nil_iff_forall_not_mem.2 fun m hm => ?_
      obtain ⟨file, -, hcomes⟩ := StepSystem.Forall₂.exists_right hfrom hm
      obtain ⟨lm, hlm⟩ := exists_mem_of_ne_nil _ hcomes.2.1
      exact (hcomes.2.2 lm hlm).2 (hno _)
    rw [hnil]
    exact ⟨by simp, by simp, by simp⟩
  -- a candidate that is searched
  have hdoc : ∀ file ∈ docs, ∃ sr ∈ q.candidates, ∃ d, w.Searched names sr d file.1 := by
    intro file hfile
    obtain rfl | ⟨sr, hsr, rfl⟩ := hdocs
    · cases hfile
    · exact ⟨sr, hsr, h.searched hnames hsr hfile⟩
  have hunsaved : ∀ file ∈ w.unsavedTargets env req, file.1 ∈ names.unsaved ∧
      w.wantFile names.filters file.1 := by
    intro file hfile
    obtain ⟨u, hu, hwant, rfl⟩ := mem_unsavedTargets hfile
    subst hnames
    exact ⟨mem_map_of_mem hu, hwant⟩
  have hfiles : req.filters = names.filters := hnames ▸ rfl
  constructor
  case accepted =>
    intro m hm
    obtain ⟨file, hfile, hcomes⟩ := StepSystem.Forall₂.exists_right hfrom hm
    rw [hcomes.1, hfiles]
    obtain hfile | hfile := mem_append.1 (hsub.subset hfile)
    · exact haccept _ (hunsaved file hfile).1 (hunsaved file hfile).2
    · obtain ⟨sr, hsr, d, hd⟩ := hdoc file hfile
      exact (hsearched sr hsr d _ hd).1
  case distinct =>
    rw [map_file_eq hfrom]
    refine (hsub.map _).nodup ?_
    rw [map_append]
    refine nodup_append.2 ⟨?_, ?_, ?_⟩
    · subst hnames
      exact sublist_unsavedTargets.nodup hnodup
    · obtain rfl | ⟨sr, hsr, rfl⟩ := hdocs
      · simp
      · have heq : (w.docTargets env req sr).map (fun file => clean file.1) =
            ((w.docTargets env req sr).map Prod.fst).map clean := by
          rw [map_map]
          rfl
        rw [heq]
        refine Nodup.map_on (fun p hp p' hp' hclean => ?_) nodup_docTargets
        obtain ⟨file, hfile, rfl⟩ := mem_map.1 hp
        obtain ⟨file', hfile', rfl⟩ := mem_map.1 hp'
        obtain ⟨d, hd⟩ := h.searched hnames hsr hfile
        obtain ⟨d', hd'⟩ := h.searched hnames hsr hfile'
        obtain rfl := (hsearched sr hsr d _ hd).2.2 d' _ hd' hclean
        exact Option.some.inj (hd.2.1.symm.trans hd'.2.1)
    · rintro p hp _ hp' rfl
      obtain ⟨file, hfile, rfl⟩ := mem_map.1 hp
      obtain ⟨file', hfile', heq⟩ := mem_map.1 hp'
      obtain ⟨sr, hsr, d, hd⟩ := hdoc file' hfile'
      exact (hsearched sr hsr d _ hd).2.1 _ (hunsaved file hfile).1 heq
  case unsaved =>
    intro m hm u hu hfile
    obtain ⟨file, hmem, hcomes⟩ := StepSystem.Forall₂.exists_right hfrom hm
    obtain hmem | hmem := mem_append.1 (hsub.subset hmem)
    · obtain ⟨u', hu', -, rfl⟩ := mem_unsavedTargets hmem
      exact ⟨u', hu', hcomes.1, fun lm hlm => (hcomes.2.2 lm hlm).1⟩
    · obtain ⟨sr, hsr, d, hd⟩ := hdoc file hmem
      have hpath : u.path ∈ names.unsaved := hnames ▸ mem_map_of_mem hu
      exact absurd (hcomes.1.symm.trans hfile) ((hsearched sr hsr d _ hd).2.1 _ hpath)

/-! ### Searches that return every file -/

/-- Caps with room for `n` files of one line with `k` matches. -/
def roomyCaps (n k : ℕ) : Caps := ⟨n * k + 1, k + 1, Nat.succ_pos _, Nat.succ_pos _⟩

/-- If every file has the same matching line and there is room, every file is in the result. -/
lemma Progress.searchFiles_all (hline : isLineMatch line ≠ []) {n c : ℕ} {s : Progress}
    (hgo : s.stopped = false) (hfiles : ∀ file ∈ files, file.2 = ⟨[line], false⟩)
    (hroom : s.total + files.length * (isLineMatch line).length ≤
      n * (isLineMatch line).length) :
    (s.searchFiles (roomyCaps n (isLineMatch line).length) none isLineMatch c files).results.map
        (fun m => m.file) = s.results.map (fun m => m.file) ++ files.map fun file => clean file.1 := by
  induction files generalizing s with
  | nil => simp [Progress.searchFiles]
  | cons file files ih =>
    obtain ⟨rel, content⟩ := file
    obtain rfl : content = _ := hfiles _ mem_cons_self
    rw [length_cons, Nat.add_mul, Nat.one_mul] at hroom
    have htotal : ¬n * (isLineMatch line).length + 1 ≤ s.total + (isLineMatch line).length := by
      omega
    have hscan : ∃ lms, s.searchFile (roomyCaps n (isLineMatch line).length) none
        isLineMatch c (rel, ⟨[line], false⟩) =
          ⟨s.results ++ [⟨clean rel, lms, false⟩], s.total + (isLineMatch line).length, false⟩ := by
      refine ⟨((isLineMatch line).map fun m => Line.mk 1 line (some m)).map
        (withContext (scanOptions (roomyCaps n (isLineMatch line).length) none c) [line]), ?_⟩
      simp [Progress.searchFile, scanContent, scanLines, takeMatches_eq_take, scanOptions, roomyCaps,
        requested, totalCap, htotal, hline]
    obtain ⟨lms, hstep⟩ := hscan
    rw [Progress.searchFiles, if_neg (by simp [hgo]), hstep,
      ih rfl (fun f hf => hfiles f (mem_cons_of_mem _ hf)) (by dsimp only; omega)]
    simp

/-- Empty files change nothing. -/
lemma Progress.searchFiles_empty {caps : Caps} {c : ℕ}
    (hfiles : ∀ file ∈ files, file.2 = ⟨[], false⟩) :
    (Progress.mk results 0 false).searchFiles caps none isLineMatch c files =
      ⟨results, 0, false⟩ := by
  induction files with
  | nil => rfl
  | cons file files ih =>
    obtain ⟨rel, content⟩ := file
    obtain rfl : content = _ := hfiles _ mem_cons_self
    have hcap : ¬totalCap caps none ≤ 0 := by
      have := caps.maxResults_pos
      simp only [totalCap, requested, Option.map_none, min_self]
      omega
    have hstep : Progress.searchFile caps none isLineMatch c ⟨results, 0, false⟩
        (rel, ⟨[], false⟩) = ⟨results, 0, false⟩ := by
      simp [Progress.searchFile, scanContent, scanLines, hcap]
    rw [Progress.searchFiles, if_neg (by simp), hstep]
    exact ih fun f hf => hfiles f (mem_cons_of_mem _ hf)

/-- A request with the given names. -/
def Names.request (names : Names) (content : Reader) (only : Bool) : Request :=
  ⟨names.editor, names.filters, none, 0, names.unsaved.map fun p => ⟨p, content⟩, only⟩

@[simp] lemma Names.names_request (names : Names) (content : Reader) (only : Bool) :
    (names.request content only).names = names := by
  simp [Names.request, Request.names, map_map, Function.comp_def]

lemma content_of_mem_unsavedTargets {content : Reader} {only : Bool}
    (h : file ∈ w.unsavedTargets env (names.request content only)) : file.2 = content := by
  obtain ⟨u, hu, -, rfl⟩ := mem_unsavedTargets h
  obtain ⟨p, -, rfl⟩ := mem_map.1 hu
  rfl

/-- The names of the unsaved files that are searched. -/
lemma fst_unsavedTargets (w : Workspace) (names : Names) (content : Reader) (only : Bool)
    (htime : env.timeout = none) :
    (w.unsavedTargets env (names.request content only)).map Prod.fst =
      names.unsaved.filter fun p => w.wantFile names.filters p := by
  rw [Workspace.unsavedTargets, htime, Option.getD_none, take_length, Names.request,
    filter_map, map_map, map_map]
  exact map_id _

/-- The unsaved files of a sound search, each with one matching line. -/
lemma SearchSound.unsaved (h : SearchSound w q names) (hline : q.isLineMatch line ≠ []) :
    (∀ p ∈ names.unsaved, w.wantFile names.filters p → w.Accepts names.filters (clean p)) ∧
      ((names.unsaved.filter fun p => w.wantFile names.filters p).map clean).Nodup := by
  let env : Env := ⟨roomyCaps names.unsaved.length (q.isLineMatch line).length, fun _ => none,
    .numeric, none⟩
  let req := names.request ⟨[line], false⟩ true
  let s := Progress.searchFiles env.caps none q.isLineMatch req.context ⟨[], 0, false⟩
    (w.unsavedTargets env req)
  obtain ⟨r, hr, hres⟩ : ∃ r, w.searchContent env req (some q) = some r ∧ r.1 = s.results := by
    rw [Workspace.searchContent]
    dsimp only
    split
    · exact ⟨_, rfl, rfl⟩
    · exact ⟨_, rfl, rfl⟩
  have hfst : (w.unsavedTargets env req).map Prod.fst = _ := fst_unsavedTargets w names _ _ rfl
  have hfiles : s.results.map (fun m => m.file) =
      (names.unsaved.filter fun p => w.wantFile names.filters p).map clean := by
    have hlen := congrArg length hfst
    rw [length_map] at hlen
    have hle := length_filter_le (fun p => w.wantFile names.filters p) names.unsaved
    rw [← hfst, map_map]
    refine (Progress.searchFiles_all hline rfl
      (fun file hfile => content_of_mem_unsavedTargets hfile) ?_).trans (nil_append _)
    rw [Nat.zero_add]
    exact Nat.mul_le_mul_right _ (hlen ▸ hle)
  have hsound := h.1 env req r (names.names_request _ _) hr
  constructor
  · intro p hp hwant
    have hmem : clean p ∈ s.results.map fun m => m.file :=
      hfiles ▸ mem_map_of_mem (mem_filter.2 ⟨hp, hwant⟩)
    obtain ⟨m, hm, hfile⟩ := mem_map.1 hmem
    exact hfile ▸ hsound.accepted m (hres ▸ hm)
  · exact hfiles ▸ hres ▸ hsound.distinct

/-- A document that is searched and is on the disk is a target. -/
lemma Workspace.Searched.mem_docTargets {content c : Reader} {only : Bool}
    (hd : w.Searched names sr d p) (htime : env.timeout = none)
    (hdisk : env.disk (join w.path p) = some c) :
    (p, c) ∈ w.docTargets env (names.request content only) sr := by
  obtain ⟨hdocs, hlookup, hwant, hno⟩ := hd
  have hmarked : p ∉ (w.unsavedTargets env (names.request content only)).map Prod.fst := by
    rw [fst_unsavedTargets w names content only htime]
    exact fun hp => hno (mem_filter.1 hp).1
  rw [Workspace.docTargets, htime]
  refine mem_filterMap.2 ⟨d, Workspace.mem_sortDocuments.2 (.inl ⟨hdocs, p, hlookup, hwant⟩), ?_⟩
  simp [hlookup, hmarked, hdisk]

lemma snd_of_mem_docTargets {c : Reader} (hdisk : ∀ p, env.disk p = some c)
    (h : file ∈ w.docTargets env req sr) : file.2 = c := by
  obtain ⟨d, -, hfile⟩ := mem_filterMap.1 h
  obtain ⟨rel, -, hfile⟩ := Option.bind_eq_some_iff.1 hfile
  obtain ⟨content, hcontent, rfl⟩ :=
    Option.map_eq_some_iff.1 (Option.ite_none_left_eq_some.1 hfile).2
  exact Option.some.inj (hcontent.symm.trans (hdisk _))

/-- The candidates of a sound search, each with one matching line, while unsaved files are empty. -/
lemma SearchSound.searched (h : SearchSound w q names) (hline : q.isLineMatch line ≠ [])
    (hsr : sr ∈ q.candidates) (hd : w.Searched names sr d p) :
    w.Accepts names.filters (clean p) ∧ (∀ p' ∈ names.unsaved, clean p ≠ clean p') ∧
      ∀ d' p', w.Searched names sr d' p' → clean p = clean p' → d = d' := by
  let req := names.request ⟨[], false⟩ false
  let envOf : ℕ → Env := fun n => ⟨roomyCaps n (q.isLineMatch line).length,
    fun _ => some ⟨[line], false⟩, .numeric, none⟩
  let env := envOf (w.docTargets (envOf 0) req sr).length
  have htargets : w.docTargets env req sr = w.docTargets (envOf 0) req sr := rfl
  let s := Progress.searchFiles env.caps none q.isLineMatch req.context ⟨[], 0, false⟩
    (w.docTargets env req sr)
  obtain ⟨r, hr, hres⟩ : ∃ r, w.searchContent env req (some q) = some r ∧ r.1 = s.results := by
    have hfirst : Progress.searchFiles env.caps none q.isLineMatch req.context ⟨[], 0, false⟩
        (w.unsavedTargets env req) = ⟨[], 0, false⟩ :=
      Progress.searchFiles_empty fun file hfile => content_of_mem_unsavedTargets hfile
    refine ⟨(s.results, decide (totalCap env.caps none ≤ s.total)), ?_, rfl⟩
    rw [Workspace.searchContent]
    simp only [show req.limit = none from rfl, hfirst, show req.unsavedFilesOnly = false from rfl,
      Bool.false_eq_true, if_false, Option.mem_def.1 hsr, Option.map_some]
    rfl
  have hfiles : s.results.map (fun m => m.file) =
      (w.docTargets env req sr).map fun file => clean file.1 :=
    (Progress.searchFiles_all hline rfl (fun file hfile => snd_of_mem_docTargets (fun _ => rfl) hfile)
      (by rw [Nat.zero_add, htargets])).trans (nil_append _)
  have hsound := h.1 env req r (names.names_request _ _) hr
  have hmem : ∀ {d p}, w.Searched names sr d p →
      (p, Reader.mk [line] false) ∈ w.docTargets env req sr := fun hd => hd.mem_docTargets rfl rfl
  obtain ⟨m, hm, hfile⟩ : ∃ m ∈ r.1, m.file = clean p := by
    have : clean p ∈ s.results.map fun m => m.file := hfiles ▸ mem_map_of_mem (hmem hd)
    exact hres ▸ mem_map.1 this
  refine ⟨hfile ▸ hsound.accepted m hm, fun p' hp' heq => ?_, fun d' p' hd' heq => ?_⟩
  · -- the result would have to be made of lines of an empty file
    obtain ⟨u', hu', -, hlines⟩ := hsound.unsaved m hm ⟨p', ⟨[], false⟩⟩
      (mem_map_of_mem hp') (hfile.trans heq)
    obtain ⟨_, -, rfl⟩ := mem_map.1 hu'
    obtain ⟨docs, origins, -, -, hfrom⟩ := Workspace.searchContent_results hr
    obtain ⟨file, -, hcomes⟩ := StepSystem.Forall₂.exists_right hfrom hm
    obtain ⟨lm, hlm⟩ := exists_mem_of_ne_nil _ hcomes.2.1
    exact absurd (hlines lm hlm) (by simp)
  · have hnodup := hsound.distinct
    rw [hres, hfiles] at hnodup
    have hsame := inj_on_of_nodup_map hnodup (hmem hd) (hmem hd') heq
    exact w.inj hd.2.1 ((Prod.mk.inj hsame).1 ▸ hd'.2.1)

end

/-- One stored document, 5, with the path `a`. -/
private def docA : GoMap DocId RelPath := AList.insert 5 [97] ∅

private lemma lookup_docA : docA.lookup d = some p ↔ d = 5 ∧ p = [97] := by
  rw [docA, GoMap.lookup_insert_if, AList.lookup_empty]
  split <;> simp_all [eq_comm]

private def workspaceW : Workspace where
  path := Bytes.ofAscii "/w"
  rooted := rfl
  docs := docA
  named h := by simp [lookup_docA.1 h]
  inj h h' := (lookup_docA.1 h).1.trans (lookup_docA.1 h').1.symm

/-- A table in which the document has the keyword `abc`. -/
private def keywordAbc : InvertedIndex.Store :=
  AList.insert (InvertedIndex.encodeInvertedKey 1 (Bytes.ofAscii "abc") 1 7 1)
    (InvertedIndex.encodeInvertedValueCounted [5]).1 ∅

/-- The query `abc`; the file `a` on the disk and every unsaved file have the line `abc`. -/
private def findAbc (filters : Option Filters) (unsaved : List RelPath) :
    Option (List ContentMatch × Bool) :=
  (Engine.compile Tokenizer.tokenizeForSearch ⟨⟨24, 32, false⟩, some keywordAbc, some 1, []⟩
    (Bytes.ofAscii "abc") false).toOption.bind fun e =>
      workspaceW.searchContent
        ⟨⟨9, 9, by decide, by decide⟩, fun _ => some ⟨[Bytes.ofAscii "abc"], false⟩, .numeric, none⟩
        (Names.request ⟨none, filters, unsaved⟩ ⟨[Bytes.ofAscii "abc"], false⟩ false)
        (some (Query.ofEngine e))

end Haystack.Searcher
