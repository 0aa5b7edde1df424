import Haystack.Lib.Bytes
import Haystack.Lib.Sorting

/-!
# The ASCII tokenizer

A scanner cuts a text into tokens, from left to right: an identifier of 3 to 80 letters, digits and
underscores or, where there is none, a dotted chain of short parts. The index keeps every token with
the parts that begin at a camel hump or after a separator, in lower case; of two words that follow
each other in the sorted list the first is dropped if it is a prefix of the second.
-/

namespace Haystack.Tokenizer

/-! ### Bytes -/

def isDigit (c : UInt8) : Bool := 48 ≤ c && c ≤ 57
def isUpper (c : UInt8) : Bool := 65 ≤ c && c ≤ 90
def isLower (c : UInt8) : Bool := 97 ≤ c && c ≤ 122
def isAlnum (c : UInt8) : Bool := isLower c || isUpper c || isDigit c

def dot : UInt8 := 46
def dash : UInt8 := 45
def underscore : UInt8 := 95
def star : UInt8 := 42

def isAlnumU (c : UInt8) : Bool := isAlnum c || c == underscore

lemma isAlnumU_of_isAlnum {c : UInt8} (h : isAlnum c) : isAlnumU c := by
  simp [isAlnumU, h]

lemma isAlnum_of_isDigit {c : UInt8} (h : isDigit c) : isAlnum c := by
  simp [isAlnum, h]

def toLower (c : UInt8) : UInt8 := if isUpper c then c + 32 else c

def lower (s : Bytes) : Bytes := s.map toLower

/-! ### The scanner -/

/-- The longest length from `n` down to 3 at which `s` has a letter or digit as its last byte. -/
def backToAlnum (s : Bytes) : ℕ → ℕ
  | 0 => 0
  | n + 1 =>
    if n + 1 < 3 then 0
    else if s[n]?.any isAlnum then n + 1
    else backToAlnum s n

/-- The length of the identifier at the start of `s`, or 0. -/
def scanAlt1 (s : Bytes) : ℕ :=
  if s.head?.any isAlnum then backToAlnum s (min (s.takeWhile isAlnumU).length 80) else 0

/-- The number of digits at the start, at most 8. -/
def digitRun (s : Bytes) : ℕ :=
  ((s.take 8).takeWhile isDigit).length

/-- The length of one part with its dot: up to 8 digits, or one or two letters and digits. -/
def scanSegment (s : Bytes) : ℕ :=
  if 0 < digitRun s ∧ s[digitRun s]? = some dot then digitRun s + 1
  else if s.head?.any isAlnum then
    if s[1]?.any isAlnum ∧ s[2]? = some dot then 3
    else if s[1]? = some dot then 2
    else 0
  else 0

/-- The length of the last part of a chain. -/
def scanFinal (s : Bytes) : ℕ :=
  if s.head?.any isDigit then digitRun s
  else if s.head?.any isAlnum then if s[1]?.any isAlnum then 2 else 1
  else 0

/-- The parts with a dot, from offset `q` on: where they end and where the last one starts. -/
def scanSegments (s : Bytes) : ℕ → ℕ → Option ℕ → ℕ × Option ℕ
  | 0, q, last => (q, last)
  | fuel + 1, q, last =>
    if scanSegment (s.drop q) = 0 then (q, last)
    else scanSegments s fuel (q + scanSegment (s.drop q)) (some q)

/-- The length of the dotted chain at the start of `s`, or 0. If no last part follows, the last
dotted part is given back and matched as the last part. -/
def scanAlt2 (s : Bytes) : ℕ :=
  let (q, last) := scanSegments s s.length 0 none
  match last with
  | none => 0
  | some l =>
    if 0 < scanFinal (s.drop q) then q + scanFinal (s.drop q)
    else if 0 < l ∧ 0 < scanFinal (s.drop l) then l + scanFinal (s.drop l)
    else 0

def tokenLength (s : Bytes) : ℕ :=
  if 0 < scanAlt1 s then scanAlt1 s else scanAlt2 s

/-- The tokens with their positions. The first argument is the position of the text, the second one
says how many bytes of it belong to the last token. -/
def scanTokens : ℕ → ℕ → Bytes → List (ℕ × Bytes)
  | _, _, [] => []
  | p, skip + 1, _ :: s => scanTokens (p + 1) skip s
  | p, 0, c :: s =>
    match tokenLength (c :: s) with
    | 0 => scanTokens (p + 1) 0 s
    | n + 1 => (p, (c :: s).take (n + 1)) :: scanTokens (p + 1) n s

/-- `findASCIITokenSpansInto`, with the text of each span. -/
def findASCIITokenSpans (s : Bytes) : List (ℕ × Bytes) :=
  scanTokens 0 0 s

/-- `findASCIITokensInto` -/
def findASCIITokens (s : Bytes) : List Bytes :=
  (findASCIITokenSpans s).map Prod.snd

/-! ### Camel and snake case -/

def isSeparator (c : UInt8) : Bool := c == dash || c == underscore || c == dot

/-- A part begins at `c`, with `last` before it and the rest `s` after it. -/
def isBoundary (last c : UInt8) (s : Bytes) : Bool :=
  (isSeparator last && !isSeparator c) ||
    (isUpper c && (!isUpper last || s.head?.any isLower))

/-- The parts after the first byte; the first part that is shorter than 3 ends the search. -/
def splitAfter : UInt8 → Bytes → List Bytes
  | _, [] => []
  | last, c :: s =>
    if isBoundary last c s then
      if s.length + 1 < 3 then [] else (c :: s) :: splitAfter c s
    else splitAfter c s

/-- `strings.Trim(s, ".-_")` -/
def trimSeparators (s : Bytes) : Bytes :=
  ((s.dropWhile isSeparator).reverse.dropWhile isSeparator).reverse

def camelSnakeSplit (s : Bytes) : List Bytes :=
  match trimSeparators s with
  | [] => []
  | c :: s => (c :: s) :: splitAfter c s

/-! ### Index and search words -/

/-- NUL, the control bytes other than tab and the two line ends, and DEL. -/
def isStrippedControl (c : UInt8) : Bool :=
  (c < 32 && c != 9 && c != 10 && c != 13) || c == 127

def normalizeForSegmentation (s : Bytes) : Bytes :=
  s.filter fun c => !isStrippedControl c

/-- A word is dropped if it is a prefix of the next one. -/
def dropPrefixes : List Bytes → List Bytes
  | [] => []
  | [w] => [w]
  | w :: w' :: ws => if w.isPrefixOf w' then dropPrefixes (w' :: ws) else w :: dropPrefixes (w' :: ws)

/-- The words of a text before they are sorted. -/
def indexWords (s : Bytes) : List Bytes :=
  (((findASCIITokens s).flatMap camelSnakeSplit).filter
    fun w => 3 ≤ w.length && w.length ≤ 80).map lower

/-- `TokenizeForIndex` of a text without CJK characters. -/
def tokenizeForIndex (s : Bytes) : List Bytes :=
  dropPrefixes (StableSort.sortBy id (indexWords (normalizeForSegmentation s)).dedup)

/-- What one token of a query adds to the keywords and to the wildcard keywords: after a star the
first part may not be the start of a word. -/
def searchWords (s : Bytes) (t : ℕ × Bytes) : List Bytes × List Bytes :=
  if 0 < t.1 ∧ s[t.1 - 1]? = some star then
    (((camelSnakeSplit t.2).drop 1).take 1, (camelSnakeSplit t.2).take 1)
  else ([t.2], [])

/-- `TokenizeForSearch` of a text without CJK characters: keywords and wildcard keywords. -/
def tokenizeForSearch (str : Bytes) (exactMatching : Bool) : List Bytes × List Bytes :=
  let s := normalizeForSegmentation str
  if exactMatching then ((findASCIITokens s).eraseDups, [])
  else
    ((((findASCIITokenSpans s).map (searchWords s)).flatMap Prod.fst).eraseDups,
      ((findASCIITokenSpans s).map (searchWords s)).flatMap Prod.snd)

example : tokenizeForIndex (Bytes.ofAscii "x.handleUpdate_doc") =
    [Bytes.ofAscii "doc", Bytes.ofAscii "ndleupdate_doc", Bytes.ofAscii "update_doc",
      Bytes.ofAscii "x.ha"] := by
  decide

end Haystack.Tokenizer
