import Haystack.InvertedIndex.Search

/-!
# Compiling a query and matching lines

A query is cut at spaces and bars outside of quotes. The tokens between two bars are the terms of
one clause; each has keywords for the index, and together they make one regular expression for the
lines: the terms in their order with a bounded gap between them. Stars are gaps too. Texts are
bytes; spaces and letter case are those of ASCII.
-/

namespace Haystack.ContentEngine

open InvertedIndex (DocId TableId Keyword Store)
open Tokenizer (isAlnumU toLower)

/-- The options of an engine. -/
structure Options where
  maxWildcardLength : ℕ
  maxKeywordDistance : ℕ
  wholeWord : Bool

/-! ### Regular expressions -/

/-- The parts of the regular expressions that queries give: a literal byte, up to `n` bytes of any
kind, a word boundary, and the bar between two alternatives. -/
inductive Atom
  | lit (c : UInt8)
  | gap (n : ℕ)
  | wordBoundary
  | alternative
  deriving DecidableEq

/-- A compiled regular expression `(…)`, with or without regard to case. -/
structure Regex where
  fold : Bool
  alternatives : List (List Atom)
  deriving DecidableEq

/-- `regexp.Compile`: a repetition of more than 1000 is refused. -/
def Regex.compile (fold : Bool) (pattern : List Atom) : Option Regex :=
  if pattern.all (fun | .gap n => n ≤ 1000 | _ => true) then
    some ⟨fold, pattern.splitOn .alternative⟩
  else none

/-- Matching at a place of a text: the byte before it and the bytes after it give the length of the
match, if there is one. -/
abbrev Matcher := Option UInt8 → Bytes → Option ℕ

namespace Matcher

/-- One more byte, which meets `p`. -/
def byte (p : UInt8 → Bool) (k : Matcher) : Matcher
  | _, [] => none
  | _, c :: s => if p c then (k (some c) s).map (· + 1) else none

/-- Up to `n` bytes other than a line end, as many as possible. -/
def gap : ℕ → Matcher → Matcher
  | 0, k => k
  | n + 1, k => fun prev s => (byte (· ≠ 10) (gap n k) prev s).or (k prev s)

def isWord (c : Option UInt8) : Bool := c.any isAlnumU

def boundary (k : Matcher) : Matcher := fun prev s =>
  if isWord prev = isWord s.head? then none else k prev s

def atom (fold : Bool) : Atom → Matcher → Matcher
  | .lit c => byte fun x => if fold then toLower x = toLower c else x = c
  | .gap n => gap n
  | .wordBoundary => boundary
  | .alternative => id

def ofAtoms (fold : Bool) (atoms : List Atom) : Matcher :=
  atoms.foldr (atom fold) fun _ _ => some 0

end Matcher

/-- The first alternative that matches counts. -/
def Regex.matcher (r : Regex) : Matcher := fun prev s =>
  r.alternatives.findSome? fun atoms => Matcher.ofAtoms r.fold atoms prev s

/-- `FindAllSubmatchIndex`, as start and end of each match: matches do not overlap, and an empty one
right after another match does not count. The arguments are the number of bytes that belong to the
last match, where it ended, the position and the byte before it. -/
def findAll (m : Matcher) : ℕ → Option ℕ → ℕ → Option UInt8 → Bytes → List (ℕ × ℕ)
  | skip + 1, last, i, _, c :: s => findAll m skip last (i + 1) (some c) s
  | _ + 1, _, _, _, [] => []
  | 0, last, i, prev, [] =>
    match m prev [] with
    | some _ => if last = some i then [] else [(i, i)]
    | none => []
  | 0, last, i, prev, c :: s =>
    match m prev (c :: s) with
    | some 0 =>
      (if last = some i then [] else [(i, i)]) ++ findAll m 0 (some i) (i + 1) (some c) s
    | some (n + 1) => (i, i + n + 1) :: findAll m n (some (i + n + 1)) (i + 1) (some c) s
    | none => findAll m 0 last (i + 1) (some c) s

def Regex.findAll (r : Regex) (line : Bytes) : List (ℕ × ℕ) :=
  ContentEngine.findAll r.matcher 0 none 0 none line

/-! ### Tokens of a query -/

def backslash : UInt8 := 92
def quote : UInt8 := 34
def space : UInt8 := 32
def star : UInt8 := 42

def isSpace (c : UInt8) : Bool := (9 ≤ c && c ≤ 13) || c == space

/-- `strings.TrimSpace` -/
def trimSpace (s : Bytes) : Bytes :=
  ((s.dropWhile isSpace).reverse.dropWhile isSpace).reverse

/-- The token that ends here, if one has begun. -/
def flushToken (current : Bytes) : List Bytes :=
  if current = [] then [] else [trimSpace current]

/-- What one byte does: the tokens that end, whether a quote is open, and the current token. -/
def readByte (inQuotes : Bool) (current : Bytes) (c : UInt8) : List Bytes × Bool × Bytes :=
  if c = quote then ([], !inQuotes, current ++ [c])
  else if c = InvertedIndex.bar ∧ !inQuotes then
    (flushToken current ++ [[InvertedIndex.bar]], inQuotes, [])
  else if c = space ∧ !inQuotes then (flushToken current, inQuotes, [])
  else ([], inQuotes, current ++ [c])

/-- The tokens from here on; a quote after a backslash does not open or close anything. -/
def readTokens (inQuotes : Bool) (current : Bytes) : Bytes → List Bytes
  | [] => flushToken current
  | [c] =>
    (readByte inQuotes current c).1 ++ flushToken (readByte inQuotes current c).2.2
  | c :: c' :: s =>
    if c = backslash ∧ c' = quote then readTokens inQuotes (current ++ [backslash, quote]) s
    else
      (readByte inQuotes current c).1 ++
        readTokens (readByte inQuotes current c).2.1 (readByte inQuotes current c).2.2 (c' :: s)

def tokenizeWithQuotes (s : Bytes) : List Bytes :=
  (readTokens false [] s).filter (· ≠ [])

def isQuotedPhrase (token : Bytes) : Bool :=
  2 ≤ token.length && token.head? == some quote && token.getLast? == some quote

def unwrapQuotes (token : Bytes) : Bytes :=
  (token.drop 1).dropLast

/-- `\"` becomes `"`. -/
def unescapeQuotes : Bytes → Bytes
  | c :: c' :: s =>
    if c = backslash ∧ c' = quote then quote :: unescapeQuotes s
    else c :: unescapeQuotes (c' :: s)
  | s => s

/-! ### Compilation -/

/-- A term of a clause: its pattern for the lines and its keywords for the index. -/
structure Term where
  pattern : Bytes
  regPattern : List Atom
  keywords : List Keyword
  wildcards : List Keyword
  deriving DecidableEq

/-- The terms between two bars. -/
structure AndClause where
  regex : Regex
  andTerms : List Term
  deriving DecidableEq

inductive CompileError
  | emptyQuery
  | emptyClause
  | regexp
  deriving DecidableEq

/-- The engine before and after compilation: the options, the index table of the collection if there
is one, the index if there is one, and the clauses. -/
structure Engine where
  opts : Options
  idx : Option Store
  table : Option TableId
  orClauses : List AndClause

/-- `TokenizeForSearch`: keywords and wildcard keywords of a text. -/
abbrev SearchTokenizer := Bytes → Bool → List Keyword × List Keyword

variable (tok : SearchTokenizer) (opts : Options)

/-- The pattern of a token without quotes: special characters stand for themselves, a star for a
gap. A bar inside of quotes stays what it is in a regular expression. -/
def regPattern (token : Bytes) : List Atom :=
  token.map fun c =>
    if c = star then .gap opts.maxWildcardLength
    else if c = InvertedIndex.bar then .alternative
    else .lit c

def processToken (token : Bytes) : Option Term :=
  let token := trimSpace token
  if token = [] ∨ token = Bytes.ofAscii "AND" then none
  else if isQuotedPhrase token then
    let unwrapped := unwrapQuotes token
    some ⟨token, (unescapeQuotes unwrapped).map .lit, (tok unwrapped true).1,
      (tok unwrapped true).2⟩
  else some ⟨token, regPattern opts token, (tok token false).1, (tok token false).2⟩

/-- The pattern of a clause. -/
def clausePattern (andTerms : List Term) : List Atom :=
  [.gap opts.maxKeywordDistance].intercalate <| andTerms.map fun t =>
    if opts.wholeWord then .wordBoundary :: (t.regPattern ++ [.wordBoundary]) else t.regPattern

def finalizeOrClause (andTerms : List Term) (caseSensitive : Bool) :
    Except CompileError AndClause :=
  if andTerms = [] then .error .emptyClause
  else
    match Regex.compile (!caseSensitive) (clausePattern opts andTerms) with
    | some regex => .ok ⟨regex, andTerms⟩
    | none => .error .regexp

/-- The clauses of the tokens that are left; `current` are the terms of the clause that has begun. -/
def compileTokens (caseSensitive : Bool) (current : List Term) :
    List Bytes → Except CompileError (List AndClause)
  | [] =>
    if current = [] then .ok []
    else (finalizeOrClause opts current caseSensitive).map fun clause => [clause]
  | token :: tokens =>
    if token = [InvertedIndex.bar] then
      if current = [] then compileTokens caseSensitive [] tokens
      else
        (finalizeOrClause opts current caseSensitive).bind fun clause =>
          (compileTokens caseSensitive [] tokens).map fun clauses => clause :: clauses
    else compileTokens caseSensitive (current ++ (processToken tok opts token).toList) tokens

/-- `Compile`: the engine with the clauses of the query. -/
def Engine.compile (e : Engine) (query : Bytes) (caseSensitive : Bool) :
    Except CompileError Engine :=
  if trimSpace query = [] then .error .emptyQuery
  else if tokenizeWithQuotes (trimSpace query) = [] then .error .emptyQuery
  else
    (compileTokens tok e.opts caseSensitive [] (tokenizeWithQuotes (trimSpace query))).bind
      fun clauses => if clauses = [] then .error .emptyQuery else .ok { e with orClauses := clauses }

/-! ### Lines -/

def AndClause.isLineMatch (c : AndClause) (line : Bytes) : List (ℕ × ℕ) :=
  if c.andTerms = [] then [] else c.regex.findAll line

/-- The matches of the first clause that has any. -/
def Engine.isLineMatch (e : Engine) (line : Bytes) : List (ℕ × ℕ) :=
  (e.orClauses.findSome? fun c =>
    if c.isLineMatch line = [] then none else some (c.isLineMatch line)).getD []

end Haystack.ContentEngine
