import Haystack.Engine.Scan

/-!
# What a scan delivers

The hits of a scan are a prefix of all matches of the file, line by line. The total cap is only looked
at between two lines, so one line can exceed it; and the lines after a hit are taken from those that
were read, so a scan that stops early, or that meets a line which does not fit the buffer of the
reader, delivers hits without them.
-/

namespace Haystack.ContentEngine

open List

/-! ### Reading a file -/

/-- The pieces between line ends; there is no line after the last one. -/
def rawLines (content : Bytes) : List Bytes :=
  if (content.splitOn 10).getLast? = some [] then (content.splitOn 10).dropLast
  else content.splitOn 10

/-- The size of the buffer of `bufio.Scanner`, which has to hold a line with its end. -/
def maxScanTokenSize : ℕ := 64 * 1024

/-- The lines that `bufio.Scanner` delivers of a file, and whether it ends with an error. -/
def newScanner (content : Bytes) : Reader :=
  let fitting := (rawLines content).takeWhile fun line => line.length < maxScanTokenSize
  ⟨fitting.map dropCR, fitting.length < (rawLines content).length⟩

lemma textLines_eq (content : Bytes) : textLines content = (rawLines content).map dropCR := rfl

/-- The reader delivers the first lines of a file, and fails if these are not all. -/
structure Reader.Reads (r : Reader) (lines : List Bytes) : Prop where
  initial : r.lines <+: lines
  fails_iff : r.fails = true ↔ r.lines.length < lines.length

lemma reads_newScanner (content : Bytes) : (newScanner content).Reads (textLines content) where
  initial := (List.takeWhile_prefix _).map dropCR
  fails_iff := by simp [newScanner, textLines_eq]

lemma Reader.Reads.lines_eq {r : Reader} {lines : List Bytes} (h : r.Reads lines)
    (hfails : r.fails = false) : r.lines = lines :=
  h.initial.eq_of_length_le (not_lt.1 fun hlt => by simp [h.fails_iff.2 hlt] at hfails)

section

variable (isLineMatch : Bytes → List (ℕ × ℕ)) (o : ScanOptions)

/-- What `ScanContent` returns: the result, whether there is an error, and the running total. After
an error the hits have no context. -/
def scanReader (relPath : Bytes) (reader : Reader) (total : ℕ) : ContentMatch × Bool × ℕ :=
  let s := scanLines isLineMatch o 1 0 total reader.lines
  let failed := !s.stopped && reader.fails
  (⟨SlashPath.clean relPath,
    if failed then s.hits.map fun hit => ⟨[], hit, []⟩
    else s.hits.map (withContext o (reader.lines.take s.read)), s.truncate⟩, failed, s.total)

/-! ### All matches of a file -/

/-- The matches of a line. -/
def lineHits (n : ℕ) (line : Bytes) : List Line :=
  (isLineMatch line).map fun m => ⟨n, line, some m⟩

/-- The matches of the lines from number `n` on. -/
def allHits : ℕ → List Bytes → List Line
  | _, [] => []
  | n, line :: lines => lineHits isLineMatch n line ++ allHits (n + 1) lines

/-- The number of matches. -/
def countMatches (lines : List Bytes) : ℕ :=
  (lines.map fun line => (isLineMatch line).length).sum

variable {isLineMatch} {lines : List Bytes}

lemma allHits_append (n : ℕ) (lines lines' : List Bytes) :
    allHits isLineMatch n (lines ++ lines') =
      allHits isLineMatch n lines ++ allHits isLineMatch (n + lines.length) lines' := by
  induction lines generalizing n with
  | nil => rfl
  | cons line lines ih =>
    rw [cons_append, allHits, allHits, ih, append_assoc, length_cons]
    rw [show n + 1 + lines.length = n + (lines.length + 1) by omega]

lemma length_allHits (n : ℕ) (lines : List Bytes) :
    (allHits isLineMatch n lines).length = countMatches isLineMatch lines := by
  induction lines generalizing n with
  | nil => rfl
  | cons line lines ih =>
    rw [allHits, length_append, ih, lineHits, length_map]
    rfl

lemma lineNumber_of_mem_allHits {n : ℕ} {hit : Line} (h : hit ∈ allHits isLineMatch n lines) :
    n ≤ hit.lineNumber ∧ hit.lineNumber < n + lines.length := by
  induction lines generalizing n with
  | nil => simp [allHits] at h
  | cons line lines ih =>
    rw [length_cons]
    rcases mem_append.1 h with h | h
    · obtain ⟨m, -, rfl⟩ := mem_map.1 h
      dsimp only
      omega
    · have := ih h
      omega

@[simp] lemma countMatches_nil : countMatches isLineMatch [] = 0 := rfl

lemma countMatches_append (lines lines' : List Bytes) :
    countMatches isLineMatch (lines ++ lines') =
      countMatches isLineMatch lines + countMatches isLineMatch lines' := by
  simp [countMatches]

lemma countMatches_cons (line : Bytes) (lines : List Bytes) :
    countMatches isLineMatch (line :: lines) =
      (isLineMatch line).length + countMatches isLineMatch lines := rfl

lemma countMatches_le_countMatches {lines lines' : List Bytes} (h : lines <+: lines') :
    countMatches isLineMatch lines ≤ countMatches isLineMatch lines' := by
  obtain ⟨rest, rfl⟩ := h
  rw [countMatches_append]
  exact Nat.le_add_right _ _

/-! ### Where a scan ends -/

variable {o} {line : Bytes}

/-- A scan that stops: the lines before the last one do not reach a cap, and the last one has matches
and reaches one. -/
structure StopsAt (isLineMatch : Bytes → List (ℕ × ℕ)) (o : ScanOptions) (fileHits total : ℕ)
    (pre : List Bytes) (line : Bytes) : Prop where
  file : fileHits + countMatches isLineMatch pre < o.maxResultsPerFile
  budget : total + countMatches isLineMatch pre < o.maxResults
  nonempty : isLineMatch line ≠ []
  reached : o.maxResultsPerFile ≤ fileHits + countMatches isLineMatch (pre ++ [line]) ∨
    o.maxResults ≤ total + countMatches isLineMatch (pre ++ [line])

/-- The two ends of a scan: all lines are read and no cap is reached, or the scan stops. -/
theorem scanLines_cases {n fileHits total : ℕ} (hfile : fileHits < o.maxResultsPerFile)
    (htotal : total < o.maxResults) (lines : List Bytes) :
    (fileHits + countMatches isLineMatch lines < o.maxResultsPerFile ∧
      total + countMatches isLineMatch lines < o.maxResults ∧
      scanLines isLineMatch o n fileHits total lines =
        ⟨allHits isLineMatch n lines, total + countMatches isLineMatch lines, lines.length,
          false, false⟩) ∨
    ∃ pre line post, lines = pre ++ line :: post ∧ StopsAt isLineMatch o fileHits total pre line ∧
      let hits := allHits isLineMatch n pre ++
        (lineHits isLineMatch (n + pre.length) line).take
          (o.maxResultsPerFile - (fileHits + countMatches isLineMatch pre))
      scanLines isLineMatch o n fileHits total lines =
        ⟨hits, total + hits.length, pre.length + 1,
          o.maxResultsPerFile ≤ fileHits + hits.length, true⟩ := by
  induction lines generalizing n fileHits total with
  | nil => exact .inl ⟨hfile, htotal, rfl⟩
  | cons line lines ih =>
    have htake := takeMatches_eq_take hfile (isLineMatch line)
    have hlen := congrArg length htake
    rw [length_take] at hlen
    rw [scanLines]
    dsimp only
    split
    case isTrue hstop =>
      refine .inr ⟨[], line, lines, rfl, ⟨hfile, htotal, hstop.1, ?_⟩, ?_⟩
      · rw [nil_append, countMatches_cons, countMatches_nil]
        have := hstop.2
        omega
      · simp only [allHits, nil_append, length_nil, Nat.add_zero, countMatches_nil,
          lineHits, ← map_take, ← htake, length_map]
    case isFalse hgo =>
      have hroom : fileHits + (isLineMatch line).length < o.maxResultsPerFile ∧
          total + (isLineMatch line).length < o.maxResults := by
        by_cases hline : isLineMatch line = []
        · rw [hline]
          exact ⟨hfile, htotal⟩
        · have := not_or.1 (not_and.1 hgo hline)
          omega
      have hall : takeMatches o fileHits (isLineMatch line) = isLineMatch line := by
        rw [htake]
        exact take_of_length_le (by omega)
      simp only [hall]
      rcases @ih (n + 1) (fileHits + (isLineMatch line).length) (total + (isLineMatch line).length)
        hroom.1 hroom.2 with ⟨hf, ht, hscan⟩ | ⟨pre, line', post, rfl, hstop, hscan⟩
      · refine .inl ⟨?_, ?_, ?_⟩
        · rw [countMatches_cons]
          omega
        · rw [countMatches_cons]
          omega
        · rw [hscan, countMatches_cons, allHits, lineHits, length_cons, Nat.add_assoc]
      · refine .inr ⟨line :: pre, line', post, rfl, ⟨?_, ?_, hstop.nonempty, ?_⟩, ?_⟩
        · have := hstop.file
          rw [countMatches_cons]
          omega
        · have := hstop.budget
          rw [countMatches_cons]
          omega
        · have := hstop.reached
          rw [cons_append, countMatches_cons]
          omega
        · have hnum : n + 1 + pre.length = n + (line :: pre).length := by
            rw [length_cons]
            omega
          have hcount : fileHits + (isLineMatch line).length + countMatches isLineMatch pre =
              fileHits + countMatches isLineMatch (line :: pre) := by
            rw [countMatches_cons]
            omega
          have hhits : lineHits isLineMatch n line = (isLineMatch line).map fun m => ⟨n, line, some m⟩ :=
            rfl
          dsimp only at hscan ⊢
          rw [hscan, hnum, hcount, allHits, ← hhits]
          simp only [append_assoc, length_append, length_cons, ScanState.mk.injEq,
            true_and, and_true, decide_eq_decide, hhits, length_map]
          constructor
          · omega
          · omega

/-- The number of hits of a scan that stops. -/
lemma StopsAt.length_hits {total n m : ℕ} {pre : List Bytes}
    (h : StopsAt isLineMatch o 0 total pre line) :
    (allHits isLineMatch n pre ++ (lineHits isLineMatch m line).take
        (o.maxResultsPerFile - countMatches isLineMatch pre)).length =
      min (countMatches isLineMatch (pre ++ [line])) o.maxResultsPerFile := by
  have hfile := h.file
  rw [length_append, length_allHits, length_take, lineHits, length_map,
    countMatches_append, countMatches_cons, countMatches_nil]
  omega

/-- A scan that has stopped at one line does not get past it. -/
lemma StopsAt.not_lt {fileHits total : ℕ} {pre : List Bytes}
    (h : StopsAt isLineMatch o fileHits total pre line) (hpre : pre ++ [line] <+: lines) :
    o.maxResultsPerFile ≤ fileHits + countMatches isLineMatch lines ∨
      o.maxResults ≤ total + countMatches isLineMatch lines := by
  have hle := @countMatches_le_countMatches isLineMatch _ _ hpre
  have := h.reached
  omega

/-! ### Context -/

/-- The lines as context lines. -/
def numbered (lines : List Bytes) : List Line :=
  lines.mapIdx fun i line => ⟨i + 1, line, none⟩

lemma getElem?_numbered (lines : List Bytes) (i : ℕ) :
    (numbered lines)[i]? = lines[i]?.map fun content => ⟨i + 1, content, none⟩ :=
  getElem?_mapIdx

lemma numbered_take (lines : List Bytes) (n : ℕ) :
    numbered (lines.take n) = (numbered lines).take n := by
  refine ext_getElem? fun i => ?_
  rw [getElem?_numbered, getElem?_take, getElem?_take, getElem?_numbered]
  split <;> rfl

/-- The context lines from one number up to another. -/
lemma contextLines_eq (lines : List Bytes) (lo hi : ℕ) :
    contextLines lines lo hi = ((numbered lines).take (hi - 1)).drop (lo - 1) := by
  rw [contextLines]
  by_cases hle : lo ≤ hi
  · obtain ⟨k, rfl⟩ := Nat.exists_eq_add_of_le hle
    rw [Nat.add_sub_cancel_left]
    induction k with
    | zero => simp
    | succ k ih =>
      rw [range'_concat, filterMap_append, ih (Nat.le_add_right lo k), Nat.one_mul,
        filterMap_cons, filterMap_nil]
      cases hj : lo + k with
      | zero =>
        rw [if_pos rfl]
        simp [show lo + (k + 1) = 1 by omega]
      | succ j =>
        rw [if_neg (by omega), show lo + (k + 1) - 1 = j + 1 by omega, Nat.add_sub_cancel,
          take_add_one, drop_append, getElem?_numbered]
        cases hget : lines[j]? with
        | none => simp
        | some content =>
          have hlt := (List.getElem?_eq_some_iff.1 hget).1
          have hlen : ((numbered lines).take j).length = j := by
            rw [List.length_take, numbered, List.length_mapIdx]
            omega
          rw [hlen, show lo - 1 - j = 0 by omega]
          simp
  · rw [show hi - lo = 0 by omega]
    simp only [range'_zero, filterMap_nil]
    exact (drop_eq_nil_of_le (by rw [length_take]; omega)).symm

/-- The lines around a hit are those of the file. -/
structure InContext (o : ScanOptions) (lines : List Bytes) (h : LineMatch) : Prop where
  before : h.before =
    ((numbered lines).take (h.line.lineNumber - 1)).drop (h.line.lineNumber - 1 - o.beforeAfter)
  after : h.after = ((numbered lines).drop h.line.lineNumber).take o.beforeAfter

/-- With the lines up to some number, the context of a hit among them is right if no line is missing
after it. -/
lemma inContext_withContext_iff {read : ℕ} {hit : Line} (hpos : 1 ≤ hit.lineNumber)
    (hle : hit.lineNumber ≤ read) (hread : read ≤ lines.length) :
    InContext o lines (withContext o (lines.take read) hit) ↔
      min (hit.lineNumber + o.beforeAfter) lines.length ≤ read := by
  have hlen : (numbered lines).length = lines.length := length_mapIdx
  have hafter : (withContext o (lines.take read) hit).after =
      ((numbered lines).drop hit.lineNumber).take (min o.beforeAfter (read - hit.lineNumber)) := by
    rw [withContext]
    dsimp only
    rw [contextLines_eq, numbered_take, take_take, Nat.add_sub_cancel, Nat.add_sub_cancel,
      drop_take]
    congr 1
    omega
  constructor
  · intro h
    have := congrArg length (hafter.symm.trans h.after)
    dsimp only [withContext] at this
    rw [length_take, length_take, length_drop, hlen] at this
    omega
  · intro h
    constructor
    · rw [withContext]
      dsimp only
      rw [contextLines_eq, numbered_take, take_take]
      congr 1
      · omega
      · congr 1
        omega
    · rw [hafter]
      dsimp only [withContext]
      by_cases hmin : o.beforeAfter ≤ read - hit.lineNumber
      · rw [min_eq_left hmin]
      · rw [take_of_length_le, take_of_length_le]
        · rw [length_drop, hlen]
          omega
        · rw [length_drop, hlen]
          omega

/-! ### The contract -/

/-- What a scan of a file with the given total should deliver. -/
structure ScanContract (isLineMatch : Bytes → List (ℕ × ℕ)) (o : ScanOptions) (lines : List Bytes)
    (result : ContentMatch) (total : ℕ) : Prop where
  hits : result.lines.map LineMatch.line <+: allHits isLineMatch 1 lines
  file : result.lines.length ≤ o.maxResultsPerFile
  budget : total ≤ o.maxResults
  context : ∀ h ∈ result.lines, InContext o lines h

/-- No line that a scan gets to exceeds the total cap. -/
def FitsBudget (isLineMatch : Bytes → List (ℕ × ℕ)) (o : ScanOptions) (total : ℕ)
    (lines : List Bytes) : Prop :=
  ∀ pre line, pre ++ [line] <+: lines → countMatches isLineMatch pre < o.maxResultsPerFile →
    total + countMatches isLineMatch pre < o.maxResults →
      total + min (countMatches isLineMatch (pre ++ [line])) o.maxResultsPerFile ≤ o.maxResults

/-- There is nothing to show around a hit, or no hit, or the scan gets to the last line. -/
def SeesContext (isLineMatch : Bytes → List (ℕ × ℕ)) (o : ScanOptions) (total : ℕ)
    (reader : Reader) : Prop :=
  o.beforeAfter = 0 ∨ (∀ line ∈ reader.lines, isLineMatch line = []) ∨
    reader.fails = false ∧
      countMatches isLineMatch reader.lines.dropLast < o.maxResultsPerFile ∧
      total + countMatches isLineMatch reader.lines.dropLast < o.maxResults

lemma countMatches_eq_zero_iff :
    countMatches isLineMatch lines = 0 ↔ ∀ line ∈ lines, isLineMatch line = [] := by
  simp [countMatches, sum_eq_zero_iff]

lemma allHits_mono {lines lines' : List Bytes} (h : lines <+: lines') (n : ℕ) :
    allHits isLineMatch n lines <+: allHits isLineMatch n lines' := by
  obtain ⟨rest, rfl⟩ := h
  rw [allHits_append]
  exact prefix_append _ _

/-- A hit that a scan delivers without context, although another line follows. -/
lemma inContext_bare_iff {hit : Line} (hlt : hit.lineNumber < lines.length) :
    InContext o lines ⟨[], hit, []⟩ ↔ o.beforeAfter = 0 := by
  have hlen : (numbered lines).length = lines.length := length_mapIdx
  constructor
  · intro h
    have := congrArg length h.after
    dsimp only at this
    rw [length_take, length_drop, hlen, length_nil] at this
    omega
  · intro h
    constructor
    · rw [h, Nat.sub_zero]
      exact (drop_eq_nil_of_le (length_take_le _ _)).symm
    · rw [h, take_zero]

section Contract

variable {relPath : Bytes} {total : ℕ} {r : Reader} {lines : List Bytes}

/-- The contract for hits that are delivered with some lines around them. -/
lemma contract_map_iff {hits : List Line} {f : Line → LineMatch} (hf : ∀ hit, (f hit).line = hit)
    (hhits : hits <+: allHits isLineMatch 1 lines) (hfile : hits.length ≤ o.maxResultsPerFile)
    {truncate : Bool} :
    ScanContract isLineMatch o lines ⟨relPath, hits.map f, truncate⟩ total ↔
      total ≤ o.maxResults ∧ ∀ hit ∈ hits, InContext o lines (f hit) := by
  have hline : (hits.map f).map LineMatch.line = hits := by simp [Function.comp_def, hf]
  constructor
  · exact fun h => ⟨h.budget, fun hit hhit => h.context _ (mem_map_of_mem hhit)⟩
  · rintro ⟨hbudget, hcontext⟩
    exact ⟨by rwa [hline], by rwa [length_map], hbudget, forall_mem_map.2 hcontext⟩

variable (hr : r.Reads lines)

include hr

/-- A scan that reads every line that the reader delivers. -/
lemma contract_of_read (hfile : countMatches isLineMatch r.lines < o.maxResultsPerFile)
    (hbudget : total + countMatches isLineMatch r.lines < o.maxResults)
    (hscan : scanLines isLineMatch o 1 0 total r.lines = ⟨allHits isLineMatch 1 r.lines,
      total + countMatches isLineMatch r.lines, r.lines.length, false, false⟩) :
    ScanContract isLineMatch o lines (scanReader isLineMatch o relPath r total).1
        (scanReader isLineMatch o relPath r total).2.2 ↔
      SeesContext isLineMatch o total r := by
  have hnum : ∀ hit ∈ allHits isLineMatch 1 r.lines,
      1 ≤ hit.lineNumber ∧ hit.lineNumber ≤ r.lines.length := by
    intro hit hhit
    have := lineNumber_of_mem_allHits hhit
    omega
  have hhits := @allHits_mono isLineMatch _ _ hr.initial 1
  have hlen : (allHits isLineMatch 1 r.lines).length ≤ o.maxResultsPerFile := by
    rw [length_allHits]
    exact hfile.le
  rw [scanReader, hscan]
  simp only [Bool.not_false, Bool.true_and]
  cases hfails : r.fails with
  | true =>
    have hbare : ∀ hit ∈ allHits isLineMatch 1 r.lines,
        InContext o lines ⟨[], hit, []⟩ ↔ o.beforeAfter = 0 := fun hit hhit =>
      inContext_bare_iff ((hnum hit hhit).2.trans_lt (hr.fails_iff.1 hfails))
    simp only [if_true]
    rw [contract_map_iff (fun _ => rfl) hhits hlen, and_iff_right hbudget.le, SeesContext,
      ← countMatches_eq_zero_iff, ← length_allHits 1, length_eq_zero_iff]
    constructor
    · intro h
      rw [or_iff_not_imp_left]
      exact fun hctx => .inl (eq_nil_iff_forall_not_mem.2 fun hit hhit =>
        hctx ((hbare hit hhit).1 (h hit hhit)))
    · rintro (h | h | ⟨h, -⟩) hit hhit
      · exact (hbare hit hhit).2 h
      · simp [h] at hhit
      · cases hfails.symm.trans h
  | false =>
    have hdrop := @countMatches_le_countMatches isLineMatch _ _ (List.dropLast_prefix r.lines)
    simp only [Bool.false_eq_true, if_false]
    rw [contract_map_iff (fun _ => rfl) hhits hlen, and_iff_right hbudget.le]
    refine iff_of_true (fun hit hhit => ?_) (.inr (.inr ⟨hfails, by omega, by omega⟩))
    obtain ⟨hpos, hle⟩ := hnum hit hhit
    rw [hr.lines_eq hfails] at hle ⊢
    exact (inContext_withContext_iff hpos hle le_rfl).2 (min_le_right _ _)

/-- A scan that stops at a line. -/
lemma contract_of_stop {pre post : List Bytes} (hlines : r.lines = pre ++ line :: post)
    (hstop : StopsAt isLineMatch o 0 total pre line) {hits : List Line}
    (hhits : hits = allHits isLineMatch 1 pre ++ (lineHits isLineMatch (1 + pre.length) line).take
      (o.maxResultsPerFile - countMatches isLineMatch pre)) {truncate : Bool}
    (hscan : scanLines isLineMatch o 1 0 total r.lines =
      ⟨hits, total + hits.length, pre.length + 1, truncate, true⟩) :
    ScanContract isLineMatch o lines (scanReader isLineMatch o relPath r total).1
        (scanReader isLineMatch o relPath r total).2.2 ↔
      FitsBudget isLineMatch o total r.lines ∧ SeesContext isLineMatch o total r := by
  obtain ⟨rest, hrest⟩ := hr.initial
  have hfile := hstop.file
  have hbudget := hstop.budget
  have hconcat : countMatches isLineMatch (pre ++ [line]) =
      countMatches isLineMatch pre + (isLineMatch line).length := countMatches_append _ _
  have hpos : 0 < (isLineMatch line).length := length_pos_of_ne_nil hstop.nonempty
  have hlen := hhits ▸ hstop.length_hits (n := 1) (m := 1 + pre.length)
  have hstopPre : pre ++ [line] <+: r.lines := ⟨post, by simp [hlines]⟩
  have hcontent : lines = pre ++ (line :: post ++ rest) := by
    rw [← hrest, hlines, append_assoc]
  have hread : r.lines.take (pre.length + 1) = lines.take (pre.length + 1) := by
    rw [hlines, hcontent, take_length_add_append, take_length_add_append]
    rfl
  have hinitial : hits <+: allHits isLineMatch 1 lines := by
    rw [hhits, hcontent, allHits_append]
    refine (prefix_append_right_inj _).2 ?_
    rw [cons_append, allHits]
    exact (List.take_prefix _ _).trans (prefix_append _ _)
  have hnum : ∀ hit ∈ hits, 1 ≤ hit.lineNumber ∧ hit.lineNumber ≤ pre.length + 1 := by
    intro hit hhit
    rw [hhits] at hhit
    rcases mem_append.1 hhit with hhit | hhit
    · have := lineNumber_of_mem_allHits hhit
      omega
    · obtain ⟨m, -, rfl⟩ := mem_map.1 (mem_of_mem_take hhit)
      dsimp only
      omega
  have hlast : ∃ hit ∈ hits, hit.lineNumber = pre.length + 1 := by
    obtain ⟨m, ms, hms⟩ := exists_cons_of_ne_nil hstop.nonempty
    obtain ⟨k, hk⟩ := Nat.exists_eq_succ_of_ne_zero
      (show o.maxResultsPerFile - countMatches isLineMatch pre ≠ 0 by omega)
    refine ⟨⟨1 + pre.length, line, some m⟩, ?_, Nat.add_comm _ _⟩
    rw [hhits, lineHits, hms, hk]
    simp
  have hsize : lines.length = pre.length + 1 + (post.length + rest.length) := by
    rw [hcontent, length_append, length_append, length_cons]
    omega
  have hcontext : (∀ hit ∈ hits, InContext o lines (withContext o (lines.take (pre.length + 1)) hit)) ↔
      SeesContext isLineMatch o total r := by
    have hiff := fun hit hhit => @inContext_withContext_iff o lines _ hit (hnum hit hhit).1
      (hnum hit hhit).2 (by omega)
    constructor
    · intro h
      obtain ⟨hit, hhit, hk⟩ := hlast
      have hmin := (hiff hit hhit).1 (h hit hhit)
      rw [SeesContext, or_iff_not_imp_left]
      intro hctx
      obtain rfl : post = [] := length_eq_zero_iff.1 (by omega)
      obtain rfl : rest = [] := length_eq_zero_iff.1 (by omega)
      refine .inr ⟨?_, ?_, ?_⟩
      · rw [← Bool.not_eq_true, hr.fails_iff, ← hrest, append_nil]
        exact lt_irrefl _
      · rw [hlines, dropLast_concat]
        omega
      · rw [hlines, dropLast_concat]
        exact hbudget
    · intro h hit hhit
      refine (hiff hit hhit).2 ?_
      rcases h with h | h | ⟨hfails, hf, ht⟩
      · have := (hnum hit hhit).2
        omega
      · exact absurd (h line (by rw [hlines]; simp)) hstop.nonempty
      · have hpost : post = [] := by
          by_contra hne
          have hprefix : pre ++ [line] <+: r.lines.dropLast := by
            rw [hlines, dropLast_append_of_ne_nil (cons_ne_nil _ _),
              dropLast_cons_of_ne_nil hne]
            exact (prefix_append_right_inj _).2 (cons_prefix_cons.2 ⟨rfl, List.nil_prefix⟩)
          have := hstop.not_lt hprefix
          omega
        rw [← hr.lines_eq hfails, hlines, hpost]
        simp
  have hbudget_iff : total + hits.length ≤ o.maxResults ↔
      FitsBudget isLineMatch o total r.lines := by
    rw [hlen]
    constructor
    · intro h pre' line' hpre' hf ht
      -- The scan stops at the longest prefix that it gets to.
      rcases List.prefix_or_prefix_of_prefix hpre' hstopPre with hshort | hlong
      · have := @countMatches_le_countMatches isLineMatch _ _ hshort
        omega
      · rcases prefix_concat_iff.1 hlong with heq | hlong
        · rwa [← heq]
        · have := hstop.not_lt hlong
          omega
    · exact fun h => h pre line hstopPre (by omega) hbudget
  rw [scanReader, hscan]
  simp only [Bool.not_true, Bool.false_and, Bool.false_eq_true, if_false]
  rw [contract_map_iff (fun _ => rfl) hinitial (by omega), hbudget_iff, hread, hcontext]

end Contract

/-- **Caps and context of a scan.** The hits are a prefix of all matches, within both caps, and with
the lines around them, exactly if no line that the scan gets to exceeds the total cap, and there is
no context to show, no hit, or nothing that keeps the scan from the last line. -/
theorem scan_contract_iff (isLineMatch : Bytes → List (ℕ × ℕ)) (o : ScanOptions)
    (relPath content : Bytes) (total : ℕ) (hfile : 0 < o.maxResultsPerFile)
    (htotal : total < o.maxResults) :
    ScanContract isLineMatch o (textLines content)
        (scanReader isLineMatch o relPath (newScanner content) total).1
        (scanReader isLineMatch o relPath (newScanner content) total).2.2 ↔
      FitsBudget isLineMatch o total (newScanner content).lines ∧
        SeesContext isLineMatch o total (newScanner content) := by
  rcases @scanLines_cases isLineMatch o 1 0 total hfile htotal (newScanner content).lines with
    ⟨hf, ht, hscan⟩ | ⟨pre, line, post, hlines, hstop, hscan⟩
  · rw [Nat.zero_add] at hf
    rw [contract_of_read (reads_newScanner content) hf ht hscan]
    refine (and_iff_right ?_).symm
    intro pre line hpre _ _
    have := @countMatches_le_countMatches isLineMatch _ _ hpre
    omega
  · simp only [Nat.zero_add] at hscan
    exact contract_of_stop (reads_newScanner content) hlines hstop rfl hscan

end

/-- A query with one literal byte. -/
def literalEngine (c : UInt8) : Engine :=
  ⟨⟨0, 0, false⟩, none, none, [⟨⟨false, [[.lit c]]⟩, [⟨[c], [.lit c], [], []⟩]⟩]⟩

/-- Two lines, with a match in the last one. -/
theorem scan_contract_last_line :
    ScanContract (literalEngine 97).isLineMatch ⟨1, 5, 5⟩ [[98], [97]]
      (scanReader (literalEngine 97).isLineMatch ⟨1, 5, 5⟩ [102] (newScanner [98, 10, 97, 10]) 0).1
      1 := by
  refine (scan_contract_iff (literalEngine 97).isLineMatch ⟨1, 5, 5⟩ [102] [98, 10, 97, 10] 0
    (by decide) (by decide)).2 ⟨?_, .inr (.inr ⟨by decide, by decide, by decide⟩)⟩
  intro pre line hpre _ _
  have hle := @countMatches_le_countMatches (literalEngine 97).isLineMatch _ _ hpre
  have hone : countMatches (literalEngine 97).isLineMatch (newScanner [98, 10, 97, 10]).lines = 1 := by
    decide
  dsimp only
  omega

/-- With a total of one, a scan stops at its first hit and does not see the next line; with two
matches in that line it exceeds the total. -/
theorem scan_contract_fails :
    ¬ ScanContract (literalEngine 97).isLineMatch ⟨1, 5, 1⟩ (textLines [97, 10, 98, 10])
        (scanReader (literalEngine 97).isLineMatch ⟨1, 5, 1⟩ [102] (newScanner [97, 10, 98, 10]) 0).1
        (scanReader (literalEngine 97).isLineMatch ⟨1, 5, 1⟩ [102] (newScanner [97, 10, 98, 10]) 0).2.2 ∧
      (scanReader (literalEngine 97).isLineMatch ⟨0, 5, 1⟩ [102] (newScanner [97, 97, 10]) 0).2.2 =
        2 := by
  refine ⟨fun h => ?_, by decide⟩
  have hafter := (h.context ⟨[], ⟨1, [97], some (0, 1)⟩, []⟩ (by decide)).after
  exact absurd hafter (by decide)

end Haystack.ContentEngine
