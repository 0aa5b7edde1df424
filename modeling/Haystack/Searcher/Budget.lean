import Haystack.Engine.ScanContract
import Haystack.Searcher.SearchContent

/-!
# The hit budget

The caps are resolved twice. The search as a whole stops at the smaller one of the configured and
the requested value, but each file is scanned with the requested value alone; a line is emitted
without a look at the total; and the hits of a file that cannot be read to its end are counted
although they are not in the result.
-/

namespace Haystack.Searcher

open ContentEngine List

/-! ### What a scan does to the counter -/

section Scan

variable {isLineMatch : Bytes → List (ℕ × ℕ)} {o : ScanOptions}

lemma length_hits_singleton {line : Bytes} {n fileHits t : ℕ} :
    (scanLines isLineMatch o n fileHits t [line]).hits.length =
      (takeMatches o fileHits (isLineMatch line)).length := by
  rw [scanLines]
  dsimp only
  split <;> simp [scanLines]

/-- `n` lines with one match each, if there is room for them. -/
lemma scanLines_singles (hone : (isLineMatch [0]).length = 1) {n k t : ℕ} (hn : 0 < n)
    (hfile : n ≤ o.maxResultsPerFile) (htotal : t + n ≤ o.maxResults) :
    let s := scanLines isLineMatch o k 0 t (List.replicate n [0])
    s.hits.length = n ∧ s.total = t + n ∧
      (n < o.maxResultsPerFile → t + n < o.maxResults → s.stopped = false) := by
  have hcount (j : ℕ) : countMatches isLineMatch (replicate j [0]) = j := by
    simp [countMatches, hone]
  rcases @scanLines_cases isLineMatch o k 0 t (by omega) (by omega) (replicate n [0]) with
    ⟨-, -, hscan⟩ | ⟨pre, line, post, hlines, hstop, hscan⟩
  · simp [hscan, length_allHits, hcount]
  · have hall := eq_replicate_iff.1 hlines.symm
    have hpre : pre ++ [line] = replicate (pre.length + 1) [0] :=
      eq_replicate_iff.2 ⟨by simp, fun l hl => hall.2 l (by simp at hl ⊢; tauto)⟩
    have hlen := hall.1
    have hreached := hstop.reached
    have hhits := hstop.length_hits (n := k) (m := k + pre.length)
    simp only [hpre, hcount, Nat.zero_add, length_append, length_cons] at *
    simp only [hscan, length_append, hhits]
    omega

end Scan

/-! ### Sufficient room -/

/-- The hits of a result. -/
def hits (results : List ContentMatch) : ℕ :=
  (results.map fun m => m.lines.length).sum

/-- The cap that a file should have: the smaller one of the two values. -/
def perFileCap (caps : Caps) (limit : Option SearchLimit) : ℕ :=
  min caps.maxResultsPerFile (requested caps.maxResultsPerFile (limit.map (·.maxResultsPerFile)))

/-- The result keeps to the caps, and the flag says whether the total cap was reached. -/
structure WithinBudget (caps : Caps) (limit : Option SearchLimit)
    (r : List ContentMatch × Bool) : Prop where
  file : ∀ m ∈ r.1, m.lines.length ≤ perFileCap caps limit
  total : hits r.1 ≤ totalCap caps limit
  flag : r.2 = true ↔ totalCap caps limit ≤ hits r.1

/-- The content has at most `k` matches in a line, and reading it fails only if `mayFail`. -/
def Modest (q : Query) (k : ℕ) (mayFail : Bool) (content : Reader) : Prop :=
  (∀ line ∈ content.lines, (q.isLineMatch line).length ≤ k) ∧ (content.fails → mayFail)

/-- The caps are safe for contents with at most `k` matches in a line: there is no match at all, or
files are scanned for one hit only; or lines have one match at most, the requested caps are not
above the configured ones where this matters, and no file fails or one hit is all there can be. -/
def CapsSafe (caps : Caps) (limit : Option SearchLimit) (k : ℕ) (mayFail : Bool) : Prop :=
  let o := scanOptions caps limit 0
  k = 0 ∨ o.maxResultsPerFile = 1 ∨
    k = 1 ∧ o.maxResults ≤ totalCap caps limit ∧
      min o.maxResultsPerFile o.maxResults ≤ perFileCap caps limit ∧
      (mayFail = false ∨ o.maxResults = 1)

section

variable {caps : Caps} {limit : Option SearchLimit} {k : ℕ} {mayFail : Bool} {q : Query}
  {s : Progress} {n : ℕ} {isLineMatch : Bytes → List (ℕ × ℕ)}

lemma requested_pos {cap : ℕ} (h : 0 < cap) (v : Option ℤ) : 0 < requested cap v := by
  unfold requested
  split
  · split <;> omega
  · exact h

lemma totalCap_pos (c : Caps) (l : Option SearchLimit) : 0 < totalCap c l :=
  lt_min c.maxResults_pos (requested_pos c.maxResults_pos _)

lemma perFileCap_pos (c : Caps) (l : Option SearchLimit) : 0 < perFileCap c l :=
  lt_min c.maxResultsPerFile_pos (requested_pos c.maxResultsPerFile_pos _)

lemma totalCap_le (c : Caps) (l : Option SearchLimit) (n : ℕ) :
    totalCap c l ≤ (scanOptions c l n).maxResults :=
  min_le_right _ _

/-- One scan of a modest content from a counter below the total cap, with safe caps. -/
lemma scan_fits (hsafe : CapsSafe caps limit k mayFail) {content : Reader}
    (hcontent : Modest q k mayFail content) {n total : ℕ} (htotal : total < totalCap caps limit)
    (s : ScanState)
    (hs : s = scanLines q.isLineMatch (scanOptions caps limit n) 1 0 total content.lines) :
    s.total = total + s.hits.length ∧ s.hits.length ≤ perFileCap caps limit ∧
      s.total ≤ totalCap caps limit ∧
      (s.stopped = false → content.fails → s.hits = []) := by
  set o := scanOptions caps limit n
  have hpos : 0 < o.maxResultsPerFile := requested_pos caps.maxResultsPerFile_pos _
  have hle : totalCap caps limit ≤ o.maxResults := totalCap_le caps limit n
  have hfilepos := perFileCap_pos caps limit
  replace hsafe : k = 0 ∨ o.maxResultsPerFile = 1 ∨ k = 1 ∧ o.maxResults ≤ totalCap caps limit ∧
    min o.maxResultsPerFile o.maxResults ≤ perFileCap caps limit ∧
      (mayFail = false ∨ o.maxResults = 1) := hsafe
  rcases @scanLines_cases q.isLineMatch o 1 0 total hpos (htotal.trans_le hle) content.lines with
    ⟨hfile, hbudget, hscan⟩ | ⟨pre, line, post, hlines, hstop, hscan⟩
  · have hlen := @length_allHits q.isLineMatch 1 content.lines
    have hzero : k = 0 → countMatches q.isLineMatch content.lines = 0 := by
      rintro rfl
      exact sum_eq_zero (by simpa using hcontent.1)
    rw [hs, hscan]
    dsimp only
    rw [← length_eq_zero_iff, hlen]
    refine ⟨rfl, by omega, by omega, fun _ hfails => ?_⟩
    have hmay := hcontent.2 hfails
    simp only [hmay, Bool.true_eq_false, false_or] at hsafe
    omega
  · have hline : (q.isLineMatch line).length ≤ k := hcontent.1 line (by simp [hlines])
    have hmatch := length_pos_of_ne_nil hstop.nonempty
    have hfile := hstop.file
    have hbudget := hstop.budget
    have hlen := hstop.length_hits (n := 1) (m := 1 + pre.length)
    rw [countMatches_append, countMatches_cons, countMatches_nil] at hlen
    rw [hs, hscan]
    simp only [Nat.zero_add, hlen]
    exact ⟨trivial, by omega, by omega, fun h => by simp at h⟩

/-- What holds between two files of a search with safe caps. -/
structure OnBudget (caps : Caps) (limit : Option SearchLimit) (s : Progress) : Prop where
  file : ∀ m ∈ s.results, m.lines.length ≤ perFileCap caps limit
  counted : hits s.results = s.total
  total : s.total ≤ totalCap caps limit
  stopped : s.stopped ↔ totalCap caps limit ≤ s.total

lemma OnBudget.searchFile (hsafe : CapsSafe caps limit k mayFail) {file : RelPath × Reader}
    (h : OnBudget caps limit s) (hgo : s.stopped = false) (hfile : Modest q k mayFail file.2) :
    OnBudget caps limit (s.searchFile caps limit q.isLineMatch n file) := by
  have htotal : s.total < totalCap caps limit :=
    not_le.1 fun hle => by simp [h.stopped.2 hle] at hgo
  obtain ⟨hcounted, hcap, htot, hlost⟩ := scan_fits hsafe hfile htotal _ rfl (n := n)
  unfold Progress.searchFile scanContent
  dsimp only
  split
  case h_1 t heq =>
    obtain ⟨hnone, rfl⟩ := Prod.mk.inj heq
    have hfail := (ite_eq_left_iff.1 hnone).mt (by simp)
    simp only [Bool.and_eq_true, Bool.not_eq_true', not_not] at hfail
    rw [hcounted, hlost hfail.1 hfail.2]
    exact ⟨h.file, h.counted, h.total, h.stopped⟩
  case h_2 m t heq =>
    obtain ⟨hsome, rfl⟩ := Prod.mk.inj heq
    obtain ⟨-, hm⟩ := Option.ite_none_left_eq_some.1 hsome
    have hlen := congrArg (fun m => m.lines.length) (Option.some.inj hm)
    simp only [length_map] at hlen
    constructor
    case file =>
      intro m' hm'
      dsimp only at hm'
      split at hm'
      · exact h.file m' hm'
      · obtain hm' | rfl := mem_append.1 hm' |>.imp_right mem_singleton.1
        · exact h.file m' hm'
        · exact hlen ▸ hcap
    case counted =>
      have hadd : hits s.results + m.lines.length = s.total + m.lines.length := by rw [h.counted]
      rw [hcounted, hlen, ← hadd]
      dsimp only
      split
      case isTrue hnil => simp [hnil]
      case isFalse => simp [hits]
    case total => exact htot
    case stopped => simp

lemma OnBudget.searchFiles (hsafe : CapsSafe caps limit k mayFail) {files : List (RelPath × Reader)}
    (h : OnBudget caps limit s) (hfiles : ∀ file ∈ files, Modest q k mayFail file.2) :
    OnBudget caps limit (s.searchFiles caps limit q.isLineMatch n files) := by
  induction files generalizing s with
  | nil => exact h
  | cons file files ih =>
    rw [Progress.searchFiles]
    split
    · exact h
    case isFalse hgo =>
      refine ih ?_ fun f hf => hfiles f (mem_cons_of_mem _ hf)
      exact h.searchFile hsafe (by simpa using hgo) (hfiles file mem_cons_self)

lemma OnBudget.within (h : OnBudget caps limit s) {flag : Bool}
    (hflag : flag = true ↔ totalCap caps limit ≤ s.total) :
    WithinBudget caps limit (s.results, flag) :=
  ⟨h.file, h.counted ▸ h.total, by rw [hflag, h.counted]⟩

/-- With safe caps every search of modest contents keeps to the budget. -/
lemma withinBudget_of_capsSafe (hsafe : CapsSafe caps limit k mayFail) {w : Workspace} {env : Env}
    {req : Request} (hcaps : env.caps = caps) (hlimit : req.limit = limit)
    (hunsaved : ∀ u ∈ req.unsavedFiles, Modest q k mayFail u.content)
    (hdisk : ∀ p, ∀ content ∈ env.disk p, Modest q k mayFail content)
    {r : List ContentMatch × Bool} (hr : w.searchContent env req (some q) = some r) :
    WithinBudget caps limit r := by
  subst hcaps hlimit
  have hfirst : ∀ file ∈ w.unsavedTargets env req, Modest q k mayFail file.2 := by
    intro file hfile
    obtain ⟨u, hu, rfl⟩ := mem_map.1 hfile
    exact hunsaved u (mem_of_mem_take (mem_filter.1 hu).1)
  have hstart : OnBudget env.caps req.limit ⟨[], 0, false⟩ :=
    ⟨by simp, rfl, Nat.zero_le _, by simpa using (totalCap_pos _ _).ne'⟩
  have h := hstart.searchFiles hsafe hfirst (n := req.context)
  rw [Workspace.searchContent] at hr
  dsimp only at hr
  split_ifs at hr with hstop honly
  · cases hr
    exact h.within (iff_of_true rfl (h.stopped.1 hstop))
  · cases hr
    exact h.within (by simp)
  · obtain ⟨sr, -, rfl⟩ := Option.map_eq_some_iff.1 hr
    refine (h.searchFiles hsafe fun file hfile => ?_).within (by simp)
    obtain ⟨d, -, hd⟩ := mem_filterMap.1 hfile
    obtain ⟨rel, -, hrel⟩ := Option.bind_eq_some_iff.1 hd
    obtain ⟨-, hrel⟩ := Option.ite_none_left_eq_some.1 hrel
    obtain ⟨content, hcontent, rfl⟩ := Option.map_eq_some_iff.1 hrel
    exact hdisk _ content hcontent

/-! ### Searches over the budget -/

/-- A query that finds every byte. -/
private def everyByte : Query := ⟨fun line => line.map fun _ => (0, 0), none⟩

private def emptyWorkspace : Workspace where
  path := [SlashPath.slash]
  rooted := rfl
  docs := ∅
  named h := by simp at h
  inj h := by simp at h

/-- Search unsaved contents and nothing else. -/
private def unsavedOnly (limit : Option SearchLimit) (contents : List Reader) : Request :=
  ⟨none, none, limit, 0, contents.map fun c => ⟨[97], c⟩, true⟩

private def emptyDisk (caps : Caps) : Env := ⟨caps, fun _ => none, .numeric, none⟩

lemma Progress.searchFiles_append (s : Progress) (l l' : List (RelPath × Reader)) :
    s.searchFiles caps limit isLineMatch n (l ++ l') =
      (s.searchFiles caps limit isLineMatch n l).searchFiles caps limit isLineMatch n l' := by
  induction l generalizing s with
  | nil => rfl
  | cons file l ih =>
    rw [cons_append, searchFiles, searchFiles]
    split
    case isTrue hstop => cases l' <;> simp [searchFiles, hstop]
    case isFalse => exact ih _

/-- A file that is read to its end: its hits are added to the result and to the counter. -/
lemma Progress.searchFile_ok (caps : Caps) (limit : Option SearchLimit)
    (isLineMatch : Bytes → List (ℕ × ℕ)) (n : ℕ) (s : Progress) (rel : RelPath)
    (lines : List Bytes) :
    let scan := scanLines isLineMatch (scanOptions caps limit n) 1 0 s.total lines
    let s' := s.searchFile caps limit isLineMatch n (rel, ⟨lines, false⟩)
    hits s'.results = hits s.results + scan.hits.length ∧ s'.total = scan.total ∧
      s'.stopped = decide (totalCap caps limit ≤ scan.total) ∧
      (scan.hits ≠ [] → ∃ m ∈ s'.results, m.lines.length = scan.hits.length) := by
  intro scan s'
  have hs' : s' = s.searchFile caps limit isLineMatch n (rel, ⟨lines, false⟩) := rfl
  rw [Progress.searchFile, scanContent] at hs'
  simp only [Bool.and_false, Bool.false_eq_true, if_false] at hs'
  refine ⟨?_, by rw [hs'], by rw [hs'], fun hne => ?_⟩
  · rw [hs']
    dsimp only
    split
    case isTrue hnil =>
      have : scan.hits = [] := map_eq_nil_iff.1 hnil
      simp [this]
    case isFalse => simp [hits, scan]
  · rw [hs']
    dsimp only
    rw [if_neg (mt map_eq_nil_iff.1 hne)]
    exact ⟨_, mem_append_right _ mem_cons_self, length_map _⟩

/-- A file that fails after its lines, and whose scan has not stopped before: its hits are counted,
but they are not in the result. -/
lemma Progress.searchFile_failed (s : Progress) (rel : RelPath) {lines : List Bytes}
    (hgo : (scanLines isLineMatch (scanOptions caps limit n) 1 0 s.total lines).stopped = false) :
    s.searchFile caps limit isLineMatch n (rel, ⟨lines, true⟩) = { s with
      total := (scanLines isLineMatch (scanOptions caps limit n) 1 0 s.total lines).total } := by
  rw [Progress.searchFile, scanContent]
  simp [hgo]

/-- Files of one hit each that fit below the total cap. -/
lemma searchFiles_singles {m c : ℕ} (hcap : c + m < totalCap caps limit)
    (hfile : 1 < (scanOptions caps limit 0).maxResultsPerFile) (f : Bool)
    (results : List ContentMatch) : ∃ results',
      (Progress.mk results c false).searchFiles caps limit everyByte.isLineMatch 0
          (List.replicate m ([97], ⟨[[0]], f⟩)) = ⟨results', c + m, false⟩ ∧
        hits results' = hits results + if f then 0 else m := by
  induction m generalizing c results with
  | zero => exact ⟨results, rfl, by simp⟩
  | succ m ih =>
    have hle := totalCap_le caps limit 0
    obtain ⟨hlen, htotal, hstop⟩ := @scanLines_singles everyByte.isLineMatch
      (scanOptions caps limit 0) rfl 1 1 c one_pos hfile.le (by omega)
    rw [replicate_succ, Progress.searchFiles, if_neg (by simp), ← Nat.add_assoc,
      Nat.add_right_comm]
    cases f with
    | false =>
      obtain ⟨hhits, htot, hgo, -⟩ := Progress.searchFile_ok caps limit everyByte.isLineMatch 0
        ⟨results, c, false⟩ [97] [[0]]
      generalize Progress.searchFile caps limit everyByte.isLineMatch 0 ⟨results, c, false⟩
        ([97], ⟨[[0]], false⟩) = s' at hhits htot hgo ⊢
      obtain ⟨res, tot, stop⟩ := s'
      obtain rfl : tot = c + 1 := htot.trans htotal
      obtain rfl : stop = false := by
        rw [show stop = _ from hgo, htot.symm, decide_eq_false_iff_not]
        dsimp only
        omega
      obtain ⟨results', hrun, hhits'⟩ := ih (c := c + 1) (by omega) res
      refine ⟨results', hrun, ?_⟩
      rw [hhits', show hits res = hits results + 1 from hlen ▸ hhits]
      simp only [Bool.false_eq_true, if_false]
      omega
    | true =>
      rw [Progress.searchFile_failed _ _ (hstop hfile (by omega))]
      obtain ⟨results', hrun, hhits⟩ := ih (c := c + 1) (by omega) results
      refine ⟨results', ?_, hhits⟩
      rw [← hrun, ← htotal]
      rfl

/-- The outcome of a search of unsaved contents alone. -/
lemma searchContent_unsavedOnly (contents : List Reader) :
    let s := (Progress.mk [] 0 false).searchFiles caps limit everyByte.isLineMatch 0
      (contents.map fun c => ([97], c))
    emptyWorkspace.searchContent (emptyDisk caps) (unsavedOnly limit contents) (some everyByte) =
      some (s.results, s.stopped || decide (totalCap caps limit ≤ s.total)) := by
  intro s
  have htargets : emptyWorkspace.unsavedTargets (emptyDisk caps) (unsavedOnly limit contents) =
      contents.map fun c => ([97], c) := by
    simp only [Workspace.unsavedTargets, emptyDisk, unsavedOnly, Option.getD_none,
      take_length, filter_map, map_map]
    exact congrArg _ (filter_eq_self.2 fun _ _ => rfl)
  rw [Workspace.searchContent]
  simp only [htargets]
  have hs : (Progress.mk [] 0 false).searchFiles (emptyDisk caps).caps
      (unsavedOnly limit contents).limit everyByte.isLineMatch (unsavedOnly limit contents).context
      (contents.map fun c => ([97], c)) = s := rfl
  rw [hs]
  cases s.stopped <;> rfl

/-- As many files of one hit each as fit below the total cap, and one more file. -/
lemma searchFiles_singles_then (hfile : 1 < (scanOptions caps limit 0).maxResultsPerFile) (f : Bool)
    {l : List Bytes} :
    let contents := List.replicate (totalCap caps limit - 1) (Reader.mk [[0]] f) ++ [⟨l, false⟩]
    let s := (Progress.mk [] 0 false).searchFiles caps limit everyByte.isLineMatch 0
      (contents.map fun c => ([97], c))
    let scan := scanLines everyByte.isLineMatch (scanOptions caps limit 0) 1 0
      (totalCap caps limit - 1) l
    hits s.results = (if f then 0 else totalCap caps limit - 1) + scan.hits.length ∧
      s.total = scan.total := by
  have hpos := totalCap_pos caps limit
  obtain ⟨results, hrun, hhits⟩ := searchFiles_singles (m := totalCap caps limit - 1) (c := 0)
    (by omega) hfile f []
  obtain ⟨hadd, htotal, -⟩ := Progress.searchFile_ok caps limit everyByte.isLineMatch 0
    ⟨results, totalCap caps limit - 1, false⟩ [97] l
  intro contents s scan
  have hs : s = Progress.searchFile caps limit everyByte.isLineMatch 0
      ⟨results, totalCap caps limit - 1, false⟩ ([97], ⟨l, false⟩) := by
    simp only [s, contents, map_append, map_replicate, Progress.searchFiles_append, hrun,
      Nat.zero_add]
    rfl
  rw [hs, hadd, htotal, hhits]
  simp [hits, scan]

/-- Every search without a timeout keeps to the budget, if its contents have at most `k` matches in
a line and fail only if `mayFail`. -/
def BudgetKept (caps : Caps) (limit : Option SearchLimit) (k : ℕ) (mayFail : Bool) : Prop :=
  ∀ (w : Workspace) (env : Env) (q : Query) (req : Request), env.caps = caps →
    env.timeout = none → req.limit = limit →
    (∀ u ∈ req.unsavedFiles, Modest q k mayFail u.content) →
    (∀ p, ∀ content ∈ env.disk p, Modest q k mayFail content) →
    ∀ r, w.searchContent env req (some q) = some r → WithinBudget caps limit r

lemma BudgetKept.unsavedOnly (h : BudgetKept caps limit k mayFail) (contents : List Reader)
    (hmodest : ∀ c ∈ contents, Modest everyByte k mayFail c) :
    let s := (Progress.mk [] 0 false).searchFiles caps limit everyByte.isLineMatch 0
      (contents.map fun c => ([97], c))
    WithinBudget caps limit (s.results, s.stopped || decide (totalCap caps limit ≤ s.total)) := by
  refine h emptyWorkspace (emptyDisk caps) everyByte (Searcher.unsavedOnly limit contents) rfl rfl
    rfl (fun u hu => ?_) (fun _ _ h => by cases h) _ (searchContent_unsavedOnly contents)
  obtain ⟨c, hc, rfl⟩ := mem_map.1 hu
  exact hmodest c hc

lemma modest_single (hk : 0 < k) {f : Bool} (hf : f → mayFail) :
    Modest everyByte k mayFail ⟨[[0]], f⟩ :=
  ⟨by simpa [everyByte] using Nat.one_le_of_lt hk, hf⟩

/-- Single hits and then a file that brings two. -/
lemma BudgetKept.length_le_one (h : BudgetKept caps limit k mayFail)
    (hfile : 1 < (scanOptions caps limit 0).maxResultsPerFile) (hk : 0 < k) {l : List Bytes}
    (hlines : ∀ line ∈ l, line.length ≤ k) :
    (scanLines everyByte.isLineMatch (scanOptions caps limit 0) 1 0
      (totalCap caps limit - 1) l).hits.length ≤ 1 := by
  have hpos := totalCap_pos caps limit
  have hmodest : ∀ c ∈ replicate (totalCap caps limit - 1) (Reader.mk [[0]] false) ++
      [⟨l, false⟩], Modest everyByte k mayFail c := by
    intro c hc
    obtain hc | hc := mem_append.1 hc
    · obtain rfl := eq_of_mem_replicate hc
      exact modest_single hk (by simp)
    · obtain rfl := mem_singleton.1 hc
      exact ⟨by simpa [everyByte] using hlines, by simp⟩
  have htotal := (h.unsavedOnly _ hmodest).total
  rw [(searchFiles_singles_then hfile false).1] at htotal
  simp only [Bool.false_eq_true, if_false] at htotal
  omega

lemma BudgetKept.capsSafe (h : BudgetKept caps limit k mayFail) :
    CapsSafe caps limit k mayFail := by
  have hpos := totalCap_pos caps limit
  have hle := totalCap_le caps limit 0
  have hone : 0 < (scanOptions caps limit 0).maxResultsPerFile :=
    requested_pos caps.maxResultsPerFile_pos _
  by_cases hk : k = 0
  · exact .inl hk
  by_cases hfile : (scanOptions caps limit 0).maxResultsPerFile = 1
  · exact .inr (.inl hfile)
  replace hk : 0 < k := Nat.pos_of_ne_zero hk
  replace hfile : 1 < (scanOptions caps limit 0).maxResultsPerFile := by omega
  -- a line with two matches is emitted as a whole
  have hk1 : k = 1 := by
    by_contra hne
    have := h.length_le_one hfile hk (l := [[0, 0]]) (by simp; omega)
    rw [length_hits_singleton, takeMatches_eq_take (by omega), length_take] at this
    simp only [everyByte, map_cons, map_nil, length_cons, length_nil] at this
    omega
  -- a file is scanned up to the requested cap
  have htot : (scanOptions caps limit 0).maxResults ≤ totalCap caps limit := by
    by_contra hlt
    have := h.length_le_one hfile hk (l := replicate 2 [0]) (by simp; omega)
    rw [(@scanLines_singles everyByte.isLineMatch (scanOptions caps limit 0) rfl 2 1
      (totalCap caps limit - 1) two_pos hfile (by omega)).1] at this
    omega
  -- the requested cap of a file is reached
  have hcap : min (scanOptions caps limit 0).maxResultsPerFile
      (scanOptions caps limit 0).maxResults ≤ perFileCap caps limit := by
    by_contra hlt
    have hlen := (@scanLines_singles everyByte.isLineMatch (scanOptions caps limit 0) rfl
      (perFileCap caps limit + 1) 1 0 (Nat.succ_pos _) (by omega) (by omega)).1
    obtain ⟨-, -, -, hex⟩ := Progress.searchFile_ok caps limit everyByte.isLineMatch 0
      ⟨[], 0, false⟩ [97] (replicate (perFileCap caps limit + 1) [0])
    obtain ⟨m, hm, hmlen⟩ := hex (fun hnil => by simp [hnil] at hlen)
    have hmodest : ∀ c ∈ [Reader.mk (replicate (perFileCap caps limit + 1) [0]) false],
        Modest everyByte k mayFail c := by
      intro c hc
      obtain rfl := mem_singleton.1 hc
      exact ⟨fun line hline => by simp [eq_of_mem_replicate hline, everyByte, hk1], by simp⟩
    have hlong : m.lines.length = perFileCap caps limit + 1 := hmlen.trans hlen
    have := (h.unsavedOnly _ hmodest).file m hm
    omega
  refine .inr (.inr ⟨hk1, htot, hcap, ?_⟩)
  -- the hits of files that fail use up the budget
  cases mayFail with
  | false => exact .inl rfl
  | true =>
    right
    by_contra hne
    have hmodest : ∀ c ∈ replicate (totalCap caps limit - 1) (Reader.mk [[0]] true) ++
        [⟨[[0]], false⟩], Modest everyByte k true c := by
      intro c hc
      obtain hc | hc := mem_append.1 hc
      · exact eq_of_mem_replicate hc ▸ modest_single hk fun _ => rfl
      · exact mem_singleton.1 hc ▸ modest_single hk fun _ => rfl
    obtain ⟨hlen, htot', -⟩ := @scanLines_singles everyByte.isLineMatch
      (scanOptions caps limit 0) rfl 1 1 (totalCap caps limit - 1) one_pos hfile.le (by omega)
    obtain ⟨hhits, htotal⟩ := searchFiles_singles_then hfile true (l := [[0]])
    have hflag := (h.unsavedOnly _ hmodest).flag
    have hhits' : hits _ = 1 := hhits.trans (by simpa using hlen)
    have htotal' : _ = totalCap caps limit - 1 + 1 := htotal.trans htot'
    rw [hhits', htotal'] at hflag
    have := hflag.1 (by simp; omega)
    omega

end

/-- The query `abc`, compiled, over unsaved contents with caps of 2 hits and 1 hit per file. -/
private def searchAbc (limit : Option SearchLimit) (contents : List Reader) :
    Option (List ContentMatch × Bool) :=
  (Engine.compile Tokenizer.tokenizeForSearch ⟨⟨24, 32, false⟩, none, none, []⟩
    (Bytes.ofAscii "abc") false).toOption.bind fun e =>
      emptyWorkspace.searchContent (emptyDisk ⟨2, 1, Nat.two_pos, Nat.one_pos⟩)
        (unsavedOnly limit contents) (some (Query.ofEngine e))

end Haystack.Searcher
