import Haystack.Searcher.SearchContent

/-!
# Searching files by name

`SearchFiles` scores the stored paths, sorts them and keeps the first ones that are still files. The
answer is right unless the loop gets to a path whose state cannot be read: `stat.IsDir()` is then
called on nil.
-/

namespace Haystack.Searcher

open List

/-- What `os.Stat` says about a path. With an error there is no file info. -/
inductive Stat
  | file
  | directory
  | notExist
  | otherError
  deriving DecidableEq

structure MatchResult where
  relPath : RelPath
  score : ℤ

namespace MatchResult

/-- The comparison of the sort. -/
def less (m m' : MatchResult) : Prop :=
  if m.score = m'.score then m.relPath.length < m'.relPath.length else m.score > m'.score

/-- A candidate that the loop does not pass over. -/
def considered (stat : RelPath → Stat) (m : MatchResult) : Bool :=
  50 < m.score && (stat m.relPath = .file || stat m.relPath = .otherError)

end MatchResult

/-- The stored paths that match, in the order that `sort.Slice` leaves. The sort is not stable. -/
structure Ranking (score : RelPath → Option ℤ) (stored : List RelPath) where
  results : List MatchResult
  perm : results.Perm (stored.filterMap fun p => (score p).map (MatchResult.mk p))
  sorted : results.Pairwise fun m m' => ¬ m'.less m

structure FilesRequest where
  limit : ℤ
  limit_pos : 1 ≤ limit

structure FilesResult where
  files : List RelPath
  removedFiles : List RelPath

variable (stat : RelPath → Stat)

/-- The loop over the candidates; `none` is a panic. -/
def collectFiles (limit : ℤ) : List MatchResult → FilesResult → Option FilesResult
  | [], r => some r
  | m :: ms, r =>
    if m.score ≤ 50 then collectFiles limit ms r
    else
      match stat m.relPath with
      | .otherError => none
      | .notExist | .directory =>
        collectFiles limit ms { r with removedFiles := r.removedFiles ++ [m.relPath] }
      | .file =>
        let r := { r with files := r.files ++ [m.relPath] }
        if r.files.length ≥ limit then some r else collectFiles limit ms r

variable {stat} {score : RelPath → Option ℤ} {stored : List RelPath}

def searchFiles (stat : RelPath → Stat) (rank : Ranking score stored) (req : FilesRequest) :
    Option FilesResult :=
  collectFiles stat req.limit rank.results ⟨[], []⟩

/-! ### The loop -/

/-- The candidates that the loop gets to, with room for `n` files. -/
def reached (stat : RelPath → Stat) (n : ℕ) (ms : List MatchResult) : List MatchResult :=
  (ms.filter (MatchResult.considered stat)).take n

/-- The loop panics at the first candidate whose state cannot be read; otherwise it returns all that
it gets to. -/
lemma collectFiles_spec {limit : ℤ} {ms : List MatchResult} {files removed : List RelPath} {n : ℕ}
    (hn : limit = files.length + (n + 1)) :
    collectFiles stat limit ms ⟨files, removed⟩ = none ∧
        (∃ m ∈ reached stat (n + 1) ms, stat m.relPath = .otherError) ∨
      (∃ removed', collectFiles stat limit ms ⟨files, removed⟩ =
          some ⟨files ++ (reached stat (n + 1) ms).map MatchResult.relPath, removed'⟩) ∧
        ∀ m ∈ reached stat (n + 1) ms, stat m.relPath = .file := by
  induction ms generalizing files removed n with
  | nil => exact .inr ⟨⟨removed, by simp [collectFiles, reached]⟩, by simp [reached]⟩
  | cons m ms ih =>
    by_cases hscore : m.score ≤ 50
    · simpa [collectFiles, reached, MatchResult.considered, hscore, hscore.not_gt] using ih hn
    · cases hstat : stat m.relPath with
      | otherError =>
        refine .inl ⟨by rw [collectFiles, if_neg hscore, hstat], m, ?_, hstat⟩
        simp [reached, MatchResult.considered, not_le.1 hscore, hstat]
      | notExist | directory =>
        simpa [collectFiles, reached, MatchResult.considered, hscore, hstat] using ih hn
      | file =>
        have hreached : reached stat (n + 1) (m :: ms) = m :: reached stat n ms := by
          simp [reached, MatchResult.considered, not_le.1 hscore, hstat]
        simp only [hreached, collectFiles, if_neg hscore, hstat]
        cases n with
        | zero =>
          have hfull : ((files ++ [m.relPath]).length : ℤ) ≥ limit := by simp [hn]
          rw [if_pos hfull]
          exact .inr ⟨⟨removed, by simp [reached]⟩, by simp [reached, hstat]⟩
        | succ n =>
          have hroom : limit = (files ++ [m.relPath]).length + (n + 1) := by
            rw [hn, length_append, length_singleton]
            push_cast
            ring
          rw [if_neg (by omega)]
          simpa [hstat] using @ih (files ++ [m.relPath]) removed n hroom

/-! ### The answer -/

/-- Higher scores come first, then shorter paths. -/
def Precedes (score : RelPath → Option ℤ) (p q : RelPath) : Prop :=
  ∀ s ∈ score p, ∀ s' ∈ score q, s > s' ∨ s = s' ∧ p.length ≤ q.length

/-- What the caller may rely on. -/
structure FilesOk (score : RelPath → Option ℤ) (stored : List RelPath) (stat : RelPath → Stat)
    (limit : ℤ) (files : List RelPath) : Prop where
  length_le : files.length ≤ limit
  subperm : files.Subperm stored
  found : ∀ p ∈ files, stat p = .file ∧ ∃ s ∈ score p, s > 50
  ordered : files.Pairwise (Precedes score)
  dropped : ∀ p ∈ stored, stat p = .file → (∃ s ∈ score p, s > 50) → p ∉ files →
    files.length = limit ∧ ∀ q ∈ files, Precedes score q p

namespace Ranking

variable (rank : Ranking score stored)

lemma score_of_mem {m : MatchResult} (hm : m ∈ rank.results) : score m.relPath = some m.score := by
  obtain ⟨p, -, hp⟩ := mem_filterMap.1 (rank.perm.mem_iff.1 hm)
  obtain ⟨s, hs, rfl⟩ := Option.map_eq_some_iff.1 hp
  exact hs

lemma precedes {m m' : MatchResult} (hm : m ∈ rank.results) (hm' : m' ∈ rank.results)
    (h : ¬ m'.less m) : Precedes score m.relPath m'.relPath := by
  intro s hs s' hs'
  obtain rfl := Option.some.inj ((rank.score_of_mem hm).symm.trans hs)
  obtain rfl := Option.some.inj ((rank.score_of_mem hm').symm.trans hs')
  unfold MatchResult.less at h
  split at h <;> omega

/-- The paths of the candidates are stored paths. -/
lemma subperm_stored : (rank.results.map MatchResult.relPath).Subperm stored := by
  have hsub : ∀ l : List RelPath, ((l.filterMap fun p => (score p).map (MatchResult.mk p)).map
      MatchResult.relPath).Sublist l := by
    intro l
    induction l with
    | nil => simp
    | cons p l ih =>
      rw [filterMap_cons]
      cases score p with
      | none => exact ih.cons p
      | some s => exact ih.cons_cons p
  exact (rank.perm.map _).subperm.trans (hsub stored).subperm

/-- What the loop gets to is a right answer if all of it are files. -/
lemma filesOk {n : ℕ} (h : ∀ m ∈ reached stat n rank.results, stat m.relPath = .file) :
    FilesOk score stored stat n ((reached stat n rank.results).map MatchResult.relPath) := by
  unfold reached at h ⊢
  set l := rank.results.filter (MatchResult.considered stat)
  have hmem : ∀ {m}, m ∈ l → m ∈ rank.results := mem_of_mem_filter
  have hsorted : l.Pairwise fun m m' => Precedes score m.relPath m'.relPath :=
    (rank.sorted.filter _).imp_of_mem fun hm hm' => rank.precedes (hmem hm) (hmem hm')
  constructor
  · simp
  · exact (((take_sublist _ _).trans filter_sublist).map _).subperm.trans
      rank.subperm_stored
  · intro p hp
    obtain ⟨m, hm, rfl⟩ := mem_map.1 hp
    have hl := mem_of_mem_take hm
    have hscore := (Bool.and_eq_true _ _ ▸ of_mem_filter hl).1
    exact ⟨h m hm, m.score, rank.score_of_mem (hmem hl), of_decide_eq_true hscore⟩
  · exact pairwise_map.2 (hsorted.sublist (take_sublist _ _))
  · rintro p hp hfile ⟨s, hs, h50⟩ hnot
    have hm : ⟨p, s⟩ ∈ l := by
      refine mem_filter.2 ⟨rank.perm.mem_iff.2 (mem_filterMap.2 ⟨p, hp, ?_⟩), ?_⟩
      · rw [Option.mem_def.1 hs, Option.map_some]
      · simpa [MatchResult.considered, hfile] using h50
    have hdrop : ⟨p, s⟩ ∈ l.drop n := by
      rw [← take_append_drop n l, mem_append] at hm
      exact hm.resolve_left fun h => hnot (mem_map_of_mem h)
    have hlen : n < l.length := by simpa using length_pos_of_mem hdrop
    rw [← take_append_drop n l, pairwise_append] at hsorted
    refine ⟨by simp [hlen.le], fun q hq => ?_⟩
    obtain ⟨m, hm, rfl⟩ := mem_map.1 hq
    exact hsorted.2.2 m hm _ hdrop

end Ranking

/-- **Searching files.** `SearchFiles` returns, with a right answer, exactly if each of the first
candidates, as many as are asked for, is a file; those that are gone or directories do not count. -/
theorem searchFiles_ok_iff (score : RelPath → Option ℤ) (stored : List RelPath)
    (stat : RelPath → Stat) (rank : Ranking score stored) (req : FilesRequest) :
    (∃ r, searchFiles stat rank req = some r ∧ FilesOk score stored stat req.limit r.files) ↔
      ∀ m ∈ reached stat req.limit.toNat rank.results, stat m.relPath ≠ .otherError := by
  obtain ⟨n, hn⟩ : ∃ n : ℕ, req.limit = n + 1 :=
    ⟨(req.limit - 1).toNat, by have := req.limit_pos; omega⟩
  have hnat : req.limit.toNat = n + 1 := by omega
  rw [hnat, searchFiles]
  obtain ⟨hnone, m, hm, hstat⟩ | ⟨⟨removed, hr⟩, hfiles⟩ :=
    @collectFiles_spec stat req.limit rank.results [] [] n (by simpa)
  · rw [hnone]
    exact ⟨fun ⟨_, h, _⟩ => absurd h (by simp), fun h => absurd hstat (h m hm)⟩
  · rw [hr, hn]
    exact ⟨fun _ m hm => by simp [hfiles m hm], fun _ => ⟨_, rfl, rank.filesOk hfiles⟩⟩

/-- **A panic.** The state of the only candidate cannot be read. -/
theorem searchFiles_panics : ∃ (score : RelPath → Option ℤ) (stored : List RelPath)
    (stat : RelPath → Stat) (rank : Ranking score stored) (req : FilesRequest),
    searchFiles stat rank req = none :=
  ⟨fun _ => some 60, [[97]], fun _ => .otherError, ⟨[⟨[97], 60⟩], .refl _, by simp⟩, ⟨1, le_rfl⟩,
    rfl⟩

end Haystack.Searcher
