import Haystack.Engine.Scan

/-!
# Searching the content of a workspace

`SearchContent` first searches the unsaved files of the request and then the files of the candidate
documents, which are ordered by the hints of the editor. All files share one counter of hits. The
loops over Go maps run in any order, which is a parameter here.
-/

namespace Haystack.Searcher

open InvertedIndex (DocId)
open ContentEngine SlashPath
open Tokenizer (lower)

abbrev RelPath := Bytes

/-- What a compiled query offers: the matches of a line, and the candidates, if collecting them does
not panic. -/
structure Query where
  isLineMatch : Bytes → List (ℕ × ℕ)
  candidates : Option SearchResult

def Query.ofEngine (e : Engine) : Query := ⟨e.isLineMatch, e.collectDocuments⟩

structure SearchLimit where
  maxResults : ℤ
  maxResultsPerFile : ℤ

/-- The caps of the configuration, which are positive. -/
structure Caps where
  maxResults : ℕ
  maxResultsPerFile : ℕ
  maxResults_pos : 0 < maxResults
  maxResultsPerFile_pos : 0 < maxResultsPerFile

/-- The filters of a request. The include and exclude patterns are predicates on paths; there are
none for an empty text. -/
structure Filters where
  path : RelPath
  included : Option (RelPath → Bool)
  excluded : Option (RelPath → Bool)

structure Editor where
  openFiles : List RelPath
  activeFile : RelPath

structure UnsavedFile where
  path : RelPath
  content : Reader

structure Request where
  editor : Option Editor
  filters : Option Filters
  limit : Option SearchLimit
  beforeAfter : ℤ
  unsavedFiles : List UnsavedFile
  unsavedFilesOnly : Bool

/-- A workspace: its directory, and the paths of its stored documents. The id of a document comes
from its path, which is not empty. -/
structure Workspace where
  path : Bytes
  rooted : isRooted path
  docs : GoMap DocId RelPath
  named : ∀ {d p}, docs.lookup d = some p → p ≠ []
  inj : ∀ {d d' p}, docs.lookup d = some p → docs.lookup d' = some p → d = d'

/-- The orders in which the loops over maps run: over a set of documents, and over documents with
their paths; the number tells one loop from the other. -/
structure MapOrder where
  ids : ℕ → Finset DocId → List DocId
  files : ℕ → List (RelPath × DocId) → List (RelPath × DocId)
  nodup_ids : ∀ n s, (ids n s).Nodup
  mem_ids : ∀ n s d, d ∈ ids n s ↔ d ∈ s
  perm_files : ∀ n l, (files n l).Perm l

/-- Sets in their numeric order, lists as they are. -/
def MapOrder.numeric : MapOrder where
  ids _ s := s.sort (· ≤ ·)
  files _ l := l
  nodup_ids _ s := Finset.sort_nodup s (· ≤ ·)
  mem_ids _ _ _ := Finset.mem_sort (· ≤ ·)
  perm_files _ l := .refl l

/-! ### Filters -/

/-- The directory of a path, as `filepath.Dir`. -/
def dir (p : Bytes) : Bytes :=
  clean (p.reverse.dropWhile (· ≠ slash)).reverse

variable (w : Workspace)

/-- The path filter: the lower case of the full path of the named file or directory. -/
def Workspace.pathFilter (f : Filters) : Bytes :=
  lower (clean (join w.path f.path))

def Workspace.wantFile (filters : Option Filters) (rel : RelPath) : Bool :=
  match filters with
  | none => true
  | some f =>
    (w.pathFilter f).isPrefixOf (lower (join w.path rel)) && !f.excluded.any (· rel) &&
      f.included.all (· rel)

/-! ### The order of the candidates -/

/-- What `sortDocuments` works on: the documents left with their paths, the wildcard documents left,
and the list so far. -/
structure Sorting where
  docs : List (RelPath × DocId)
  wild : Finset DocId
  sorted : List DocId

/-- The documents whose path meets `p` move to the list. -/
def Sorting.move (order : List (RelPath × DocId) → List (RelPath × DocId)) (p : RelPath → Bool)
    (s : Sorting) : Sorting where
  docs := s.docs.filter fun e => !p e.1
  wild := s.wild.filter fun d => d ∉ (s.docs.filter fun e => p e.1).map Prod.snd
  sorted := s.sorted ++ (order (s.docs.filter fun e => p e.1)).map Prod.snd

/-- The hints of the editor, in the order in which they count: the active file, the open files, the
directory of the active file, those of the open files, and the parent of the first. -/
def Editor.hints (e : Editor) : List (RelPath → Bool) :=
  let active := if e.activeFile = [] then [] else [e.activeFile]
  (active ++ e.openFiles).map (fun f p => p == clean f) ++
    (active.map dir ++ e.openFiles.map dir ++ active.map (dir ∘ dir)).map
      fun d p => d != [] && d.isPrefixOf p

/-- The documents of the result that have a path. Above 10000 documents all stored paths are
scanned, else each document is looked up. -/
def Workspace.withPaths (order : MapOrder) (sr : SearchResult) : List (RelPath × DocId) :=
  if 10000 < sr.docs.card then
    (w.docs.entries.filter fun e => e.1 ∈ sr.docs).map fun e => (e.2, e.1)
  else
    (order.ids 0 sr.docs).filterMap fun d =>
      (w.docs.lookup d).bind fun p => if p = [] then none else some (p, d)

/-- The map from paths to documents. -/
def Workspace.byPath (order : MapOrder) (sr : SearchResult) : GoMap RelPath DocId :=
  (w.withPaths order sr).foldl (fun m e => m.insert e.1 e.2) ∅

/-- The documents with their paths after the filter was applied to both sets. -/
def Workspace.startSorting (order : MapOrder) (sr : SearchResult) (filter : RelPath → Bool) :
    Sorting :=
  let docs := (w.byPath order sr).entries.map fun e => (e.1, e.2)
  { docs := docs.filter fun e => filter e.1
    wild := sr.wild.filter fun d => d ∉ (docs.filter fun e => !filter e.1).map Prod.snd
    sorted := [] }

/-- One hint after the other. -/
def Sorting.moveAll (order : MapOrder) (s : Sorting) (hints : List (RelPath → Bool)) : Sorting :=
  hints.zipIdx.foldl (fun s h => s.move (order.files h.2) h.1) s

/-- The list, then the wildcard documents, then the rest. -/
def Sorting.finish (order : MapOrder) (n : ℕ) (s : Sorting) : List DocId :=
  s.sorted ++ order.ids 1 s.wild ++
    ((order.files n s.docs).map Prod.snd).filter fun d => d ∉ s.wild

def Workspace.sortDocuments (order : MapOrder) (editor : Option Editor) (sr : SearchResult)
    (filter : RelPath → Bool) : List DocId :=
  let hints := (editor.map Editor.hints).getD []
  ((w.startSorting order sr filter).moveAll order hints).finish order hints.length

/-! ### The search -/

/-- A value of the request counts if it is positive. -/
def requested (cap : ℕ) (value : Option ℤ) : ℕ :=
  match value with
  | some v => if 0 < v then v.toNat else cap
  | none => cap

section

variable (caps : Caps) (limit : Option SearchLimit)

/-- The cap after which `SearchContent` stops: the smaller one of the two values. -/
def totalCap : ℕ :=
  min caps.maxResults (requested caps.maxResults (limit.map (·.maxResults)))

/-- The caps that `searchInContent` passes on: the value of the request, if it is positive. -/
def scanOptions (beforeAfter : ℕ) : ScanOptions where
  beforeAfter := beforeAfter
  maxResultsPerFile := requested caps.maxResultsPerFile (limit.map (·.maxResultsPerFile))
  maxResults := requested caps.maxResults (limit.map (·.maxResults))

/-- The results so far, the counter of hits, and whether the search has stopped. -/
structure Progress where
  results : List ContentMatch
  total : ℕ
  stopped : Bool

variable (isLineMatch : Bytes → List (ℕ × ℕ)) (beforeAfter : ℕ)

/-- One file. If it cannot be read to the end, the next one follows at once. -/
def Progress.searchFile (s : Progress) (file : RelPath × Reader) : Progress :=
  match scanContent isLineMatch (scanOptions caps limit beforeAfter) file.1 file.2 s.total with
  | (none, total) => { s with total := total }
  | (some m, total) =>
    { results := if m.lines = [] then s.results else s.results ++ [m]
      total := total
      stopped := totalCap caps limit ≤ total }

def Progress.searchFiles (s : Progress) : List (RelPath × Reader) → Progress
  | [] => s
  | file :: files =>
    if s.stopped then s
    else (s.searchFile caps limit isLineMatch beforeAfter file).searchFiles files

end

/-- Everything around a request: the caps of the configuration, the files of the disk, the orders of
the maps, and the number of files that are looked at before the timeout. -/
structure Env where
  caps : Caps
  disk : Bytes → Option Reader
  order : MapOrder
  timeout : Option ℕ

variable (env : Env) (q : Query) (req : Request)

/-- The unsaved files that pass the filters. -/
def Workspace.unsavedTargets : List (RelPath × Reader) :=
  ((req.unsavedFiles.take (env.timeout.getD req.unsavedFiles.length)).filter
    fun u => w.wantFile req.filters u.path).map fun u => (u.path, u.content)

/-- The candidates that are not among the unsaved files and that are on the disk. -/
def Workspace.docTargets (sr : SearchResult) : List (RelPath × Reader) :=
  let ids := w.sortDocuments env.order req.editor sr (w.wantFile req.filters)
  let ids := match env.timeout with
    | some n => ids.take (n - req.unsavedFiles.length)
    | none => ids
  ids.filterMap fun d =>
    (w.docs.lookup d).bind fun rel =>
      if rel ∈ (w.unsavedTargets env req).map Prod.fst then none
      else (env.disk (join w.path rel)).map fun content => (rel, content)

/-- Between 0 and 5 lines of context. -/
def Request.context : ℕ := (min (max req.beforeAfter 0) 5).toNat

/-- `SearchContent` with the compiled query, if there is one; the outcome is none for a panic. -/
def Workspace.searchContent (q : Option Query) : Option (List ContentMatch × Bool) :=
  match q with
  | none => some ([], false)
  | some q =>
    let search := fun (s : Progress) files =>
      s.searchFiles env.caps req.limit q.isLineMatch req.context files
    let cap := totalCap env.caps req.limit
    let s := search ⟨[], 0, false⟩ (w.unsavedTargets env req)
    if s.stopped then some (s.results, true)
    else if req.unsavedFilesOnly then some (s.results, cap ≤ s.total)
    else
      q.candidates.map fun sr =>
        let s := search s (w.docTargets env req sr)
        (s.results, cap ≤ s.total)

end Haystack.Searcher
