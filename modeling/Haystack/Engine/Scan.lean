import Haystack.Engine.Collect
import Haystack.Lib.SlashPath

/-!
# Scanning a file

`ScanContent` reads a file line by line and emits a hit for each match of a line. It stops when the
file has reached its own cap or all files together have reached the total one; within a line only
the cap of the file counts. A scan that stops does not see an error further down in the file.
-/

namespace Haystack.ContentEngine

/-- A carriage return at the end of a line is dropped. -/
def dropCR (line : Bytes) : Bytes :=
  if line.getLast? = some 13 then line.dropLast else line

/-- The lines of a text, as a `bufio.Scanner` delivers them: an empty last line does not count. -/
def textLines (s : Bytes) : List Bytes :=
  (if (s.splitOn 10).getLast? = some [] then (s.splitOn 10).dropLast else s.splitOn 10).map dropCR

/-- What a reader delivers: lines, and then the end of the file or an error. -/
structure Reader where
  lines : List Bytes
  fails : Bool
  deriving DecidableEq

structure ScanOptions where
  beforeAfter : ℕ
  maxResultsPerFile : ℕ
  maxResults : ℕ

/-- A line of a result; a context line has no match. -/
structure Line where
  lineNumber : ℕ
  content : Bytes
  hit : Option (ℕ × ℕ)
  deriving DecidableEq

structure LineMatch where
  before : List Line
  line : Line
  after : List Line
  deriving DecidableEq

structure ContentMatch where
  file : Bytes
  lines : List LineMatch
  truncate : Bool
  deriving DecidableEq

/-- What the first pass over the lines gives: the hits, the running total of all files, the number
of lines read, and whether the file has reached its cap and whether the scan has stopped. -/
structure ScanState where
  hits : List Line
  total : ℕ
  read : ℕ
  truncate : Bool
  stopped : Bool
  deriving DecidableEq

section

variable (isLineMatch : Bytes → List (ℕ × ℕ)) (o : ScanOptions)

/-- The matches of a line that are emitted; the cap of the file is looked at after each one. -/
def takeMatches (fileHits : ℕ) : List (ℕ × ℕ) → List (ℕ × ℕ)
  | [] => []
  | m :: ms =>
    m :: if o.maxResultsPerFile ≤ fileHits + 1 then [] else takeMatches (fileHits + 1) ms

variable {o} in
/-- The matches of a line that still fit the file are emitted. -/
lemma takeMatches_eq_take {fileHits : ℕ} (h : fileHits < o.maxResultsPerFile)
    (ms : List (ℕ × ℕ)) :
    takeMatches o fileHits ms = ms.take (o.maxResultsPerFile - fileHits) := by
  induction ms generalizing fileHits with
  | nil => simp [takeMatches]
  | cons m ms ih =>
    obtain ⟨k, hk⟩ := Nat.exists_eq_succ_of_ne_zero (Nat.sub_ne_zero_of_lt h)
    rw [takeMatches, hk, List.take_succ_cons]
    split
    case isTrue hcap => rw [show k = 0 by omega, List.take_zero]
    case isFalse hcap => rw [ih (by omega), show o.maxResultsPerFile - (fileHits + 1) = k by omega]

/-- The first pass, from the line with the given number on. -/
def scanLines (lineNumber fileHits total : ℕ) : List Bytes → ScanState
  | [] => ⟨[], total, 0, false, false⟩
  | line :: lines =>
    let taken := takeMatches o fileHits (isLineMatch line)
    let hits := taken.map fun m => ⟨lineNumber, line, some m⟩
    let fileHits := fileHits + taken.length
    let total := total + taken.length
    if isLineMatch line ≠ [] ∧ (o.maxResultsPerFile ≤ fileHits ∨ o.maxResults ≤ total) then
      ⟨hits, total, 1, o.maxResultsPerFile ≤ fileHits, true⟩
    else
      let rest := scanLines (lineNumber + 1) fileHits total lines
      { rest with hits := hits ++ rest.hits, read := rest.read + 1 }

/-- The lines read with numbers from `lo` up to, not including, `hi`. -/
def contextLines (lines : List Bytes) (lo hi : ℕ) : List Line :=
  (List.range' lo (hi - lo)).filterMap fun j =>
    if j = 0 then none else lines[j - 1]?.map fun content => ⟨j, content, none⟩

/-- A hit with the lines around it. -/
def withContext (lines : List Bytes) (hit : Line) : LineMatch where
  before := contextLines lines (hit.lineNumber - o.beforeAfter) hit.lineNumber
  line := hit
  after := contextLines lines (hit.lineNumber + 1) (hit.lineNumber + o.beforeAfter + 1)

/-- `ScanContent`, with the running total: there is no result if reading fails. -/
def scanContent (relPath : Bytes) (reader : Reader) (total : ℕ) : Option ContentMatch × ℕ :=
  let s := scanLines isLineMatch o 1 0 total reader.lines
  (if !s.stopped && reader.fails then none
    else some ⟨SlashPath.clean relPath,
      s.hits.map (withContext o (reader.lines.take s.read)), s.truncate⟩, s.total)

end

end Haystack.ContentEngine
