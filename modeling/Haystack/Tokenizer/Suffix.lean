import Haystack.Lib.Utf8
import Haystack.Tokenizer.Words

/-!
# The suffix tokenizer

The index gets every suffix of every base token, from a minimal length on, so that a prefix query
finds each token that contains the query. Base tokens are the words of letters and numbers and the
segments of the CJK runs, in lower case and cut to pieces of at most 64 runes. A text is read as its
runes, and the keys are compared as bytes; the tables of characters, the stop words and the CJK
segmentation are parameters.
-/

namespace Haystack.Tokenizer

open List

/-- What the tokenizer looks up about characters and words. -/
structure Tables where
  isLetterOrNumber : Char → Bool
  isCJK : Char → Bool
  isSpace : Char → Bool
  isPunctOrSymbol : Char → Bool
  toLower : Char → Char
  isStopWord : List Char → Bool

/-- `SuffixTokenizer`; `cut` is the segmentation of a CJK run. -/
structure SuffixTokenizer extends Tables where
  dropShortTokens : Bool
  filterStopwords : Bool
  cut : List Char → List (List Char)

def minASCIISuffixLen : ℕ := 3
def minCJKSuffixLen : ℕ := 1
def maxBaseChunkRunes : ℕ := 64

structure TextRun where
  text : List Char
  isCJK : Bool

namespace Tables

variable (u : Tables)

/-- The runs of the text after `current`, all of whose runes are of the kind `isCJK`. -/
def splitRuns (isCJK : Bool) (current : List Char) : List Char → List TextRun
  | [] => if current.isEmpty then [] else [⟨current, isCJK⟩]
  | r :: rs =>
    if u.isCJK r != isCJK then ⟨current, isCJK⟩ :: splitRuns (u.isCJK r) [r] rs
    else splitRuns isCJK (current ++ [r]) rs

def splitIntoRuns : List Char → List TextRun
  | [] => []
  | r :: rs => u.splitRuns (u.isCJK r) [r] rs

def containsCJK (s : List Char) : Bool :=
  s.any u.isCJK

/-- `strings.TrimSpace` -/
def trimSpace (s : List Char) : List Char :=
  ((s.dropWhile u.isSpace).reverse.dropWhile u.isSpace).reverse

def isPunctOrSpace (s : List Char) : Bool :=
  s.all fun r => u.isSpace r || u.isPunctOrSymbol r

/-- The matches of `[\p{L}\p{N}]+`. -/
def words (run : List Char) : List (List Char) :=
  (run.splitOnP fun r => !u.isLetterOrNumber r).filter fun w => !w.isEmpty

/-- The words of a run in lower case. -/
def appendWordBase (run : List Char) : List (List Char) :=
  (u.words run).map (List.map u.toLower)

/-- The shortest suffix of a token that is a key. -/
def minLen (tok : List Char) : ℕ :=
  if u.containsCJK tok then minCJKSuffixLen else minASCIISuffixLen

def belowMin (tok : List Char) : Bool :=
  tok.length < u.minLen tok

/-- The keys of a token. -/
def appendSuffixes (tok : List Char) (dropShort : Bool) : List (List Char) :=
  if tok.length = 0 then []
  else if tok.length < u.minLen tok then if dropShort then [] else [tok]
  else (List.range (tok.length - u.minLen tok + 1)).map tok.drop

end Tables

/-- One token in pieces of at most `maxBaseChunkRunes` runes. -/
def chunks (runes : List Char) : List (List Char) :=
  if runes.length ≤ maxBaseChunkRunes then [runes]
  else
    (List.range ((runes.length + maxBaseChunkRunes - 1) / maxBaseChunkRunes)).map fun i =>
      (runes.drop (i * maxBaseChunkRunes)).take maxBaseChunkRunes

def chunkTokens (toks : List (List Char)) : List (List Char) :=
  toks.flatMap chunks

/-- A key is dropped if it is a prefix of the next one. -/
def dropPrefixRedundant (sorted : List Bytes) : List Bytes :=
  dropPrefixes sorted

namespace SuffixTokenizer

variable (t : SuffixTokenizer)

/-- The segments of a CJK run in lower case, without punctuation and stop words. -/
def appendCJKBase (run : List Char) : List (List Char) :=
  (((t.cut run).map t.trimSpace).filter fun seg =>
    !(seg.isEmpty || t.isPunctOrSpace seg || (t.filterStopwords && t.isStopWord seg))).map
      (List.map t.toLower)

def baseTokens (str : Bytes) : List (List Char) :=
  chunkTokens ((t.splitIntoRuns (Utf8.runes (normalizeForSegmentation str))).flatMap fun run =>
    if run.isCJK then t.appendCJKBase run.text else t.appendWordBase run.text)

/-- The keys of all tokens. -/
def suffixKeys (str : Bytes) : List Bytes :=
  ((t.baseTokens str).flatMap fun tok => t.appendSuffixes tok t.dropShortTokens).map Utf8.encode

def tokenizeForIndex (str : Bytes) : List Bytes :=
  dropPrefixRedundant (StableSort.sortBy id (t.suffixKeys str).dedup)

/-- Keywords and wildcards. The second argument makes no difference. -/
def tokenizeForSearch (s : Bytes) (_exactMatching : Bool) : List Bytes × List Bytes :=
  ((((t.baseTokens s).filter fun tok => !(t.dropShortTokens && t.belowMin tok)).map
    Utf8.encode).eraseDups, [])

end SuffixTokenizer

/-! ### Base tokens are not empty -/

lemma ne_nil_of_mem_chunks {tok piece : List Char} (hne : tok ≠ []) (h : piece ∈ chunks tok) :
    piece ≠ [] := by
  rw [chunks] at h
  split at h
  case isTrue => exact mem_singleton.1 h ▸ hne
  case isFalse =>
    obtain ⟨i, hi, rfl⟩ := mem_map.1 h
    rw [mem_range, maxBaseChunkRunes] at hi
    have hstart : i * 64 < tok.length := by omega
    rw [← length_pos_iff, length_take, length_drop, maxBaseChunkRunes]
    omega

namespace SuffixTokenizer

variable {t : SuffixTokenizer} {str : Bytes} {tok : List Char}

lemma ne_nil_of_mem_baseTokens (h : tok ∈ t.baseTokens str) : tok ≠ [] := by
  obtain ⟨whole, hwhole, hpiece⟩ := mem_flatMap.1 h
  refine ne_nil_of_mem_chunks ?_ hpiece
  obtain ⟨run, -, hrun⟩ := mem_flatMap.1 hwhole
  split at hrun
  · obtain ⟨seg, hseg, rfl⟩ := mem_map.1 hrun
    have hkept := (mem_filter.1 hseg).2
    simp only [Bool.not_or, Bool.and_eq_true, Bool.not_eq_true', isEmpty_eq_false_iff] at hkept
    simpa using hkept.1.1
  · obtain ⟨w, hw, rfl⟩ := mem_map.1 hrun
    have hkept := (mem_filter.1 hw).2
    rw [Bool.not_eq_true', isEmpty_eq_false_iff] at hkept
    simpa using hkept

end SuffixTokenizer

/-! ### Keys -/

/-- The keys have the same prefixes as before. -/
lemma exists_prefix_dropPrefixRedundant_iff (keys : List Bytes) (p : Bytes) :
    (∃ key ∈ dropPrefixRedundant keys, p <+: key) ↔ ∃ key ∈ keys, p <+: key := by
  constructor
  · rintro ⟨key, hkey, hp⟩
    exact ⟨key, dropPrefixes_subset hkey, hp⟩
  · rintro ⟨key, hkey, hp⟩
    obtain ⟨key', hkey', hpre⟩ := exists_mem_dropPrefixes hkey
    exact ⟨key', hkey', hp.trans hpre⟩

namespace Tables

variable {u : Tables} {tok : List Char}

lemma minLen_le (u : Tables) (tok : List Char) : u.minLen tok ≤ 3 := by
  rw [minLen]
  split <;> decide

lemma drop_mem_appendSuffixes {k : ℕ} {dropShort : Bool} (hk : k + u.minLen tok ≤ tok.length)
    (hlt : k < tok.length) : tok.drop k ∈ u.appendSuffixes tok dropShort := by
  rw [appendSuffixes, if_neg (by omega), if_neg (by omega)]
  exact mem_map.2 ⟨k, mem_range.2 (by omega), rfl⟩

/-- A token that is not too short is one of its keys, and so is a short one that is kept. -/
lemma self_mem_appendSuffixes {dropShort : Bool} (hne : tok ≠ [])
    (hkept : (dropShort && u.belowMin tok) = false) : tok ∈ u.appendSuffixes tok dropShort := by
  have hpos := length_pos_iff.2 hne
  by_cases hmin : u.minLen tok ≤ tok.length
  · exact drop_mem_appendSuffixes (k := 0) (by omega) hpos
  · rw [appendSuffixes, if_neg (by omega), if_pos (by omega)]
    have hbelow : u.belowMin tok = true := decide_eq_true (by omega)
    rw [hbelow, Bool.and_true] at hkept
    simp [hkept]

end Tables

namespace SuffixTokenizer

variable {t : SuffixTokenizer} {str : Bytes} {tok : List Char}

/-- The start of a key of a base token is the start of a key in the index. -/
lemma exists_mem_tokenizeForIndex {key p : List Char} (htok : tok ∈ t.baseTokens str)
    (hkey : key ∈ t.appendSuffixes tok t.dropShortTokens) (hp : p <+: key) :
    ∃ key ∈ t.tokenizeForIndex str, Utf8.encode p <+: key := by
  refine (exists_prefix_dropPrefixRedundant_iff _ _).2 ⟨Utf8.encode key, ?_, Utf8.encode_prefix hp⟩
  rw [StableSort.mem_sortBy, mem_dedup]
  exact mem_map_of_mem (mem_flatMap.2 ⟨tok, htok, hkey⟩)

/-- Every substring of at least three runes of a base token, of whatever script, is the start of a
key; every keyword of a text is the start of a key of the same text; and no start is lost with the
redundant keys. -/
theorem suffix_retrieval (t : SuffixTokenizer) (text : Bytes) :
    (∀ tok ∈ t.baseTokens text, ∀ X, X <:+: tok → 3 ≤ X.length →
      ∃ key ∈ t.tokenizeForIndex text, Utf8.encode X <+: key) ∧
    (∀ exactMatching, ∀ w ∈ (t.tokenizeForSearch text exactMatching).1,
      ∃ key ∈ t.tokenizeForIndex text, w <+: key) ∧
    ∀ keys p, (∃ key ∈ dropPrefixRedundant keys, p <+: key) ↔ ∃ key ∈ keys, p <+: key := by
  refine ⟨?_, ?_, exists_prefix_dropPrefixRedundant_iff⟩
  · rintro tok htok X ⟨before, after, rfl⟩ hX
    have hmin := t.minLen_le (before ++ X ++ after)
    have hlength : (before ++ X ++ after).length = before.length + X.length + after.length := by
      simp [Nat.add_assoc]
    refine exists_mem_tokenizeForIndex htok
      (Tables.drop_mem_appendSuffixes (k := before.length) (by omega) (by omega)) ?_
    rw [append_assoc, drop_left]
    exact prefix_append X after
  · intro exactMatching w hw
    rw [tokenizeForSearch, mem_eraseDups] at hw
    obtain ⟨tok, htok, rfl⟩ := mem_map.1 hw
    obtain ⟨htok, hkept⟩ := mem_filter.1 htok
    rw [Bool.not_eq_true'] at hkept
    exact exists_mem_tokenizeForIndex htok
      (Tables.self_mem_appendSuffixes (ne_nil_of_mem_baseTokens htok) hkept) prefix_rfl

/-- The tokenizer with the tables of ASCII. -/
def ascii : SuffixTokenizer where
  isLetterOrNumber := Char.isAlphanum
  isCJK _ := false
  isSpace := Char.isWhitespace
  isPunctOrSymbol _ := false
  toLower := Char.toLower
  isStopWord _ := false
  dropShortTokens := false
  filterStopwords := false
  cut _ := []

-- The suffixes `load` and `oad` of the first word are starts of suffixes of the second.
example : ascii.tokenizeForIndex (Bytes.ofAscii "upLoad loader.go") =
    ["ader", "der", "go", "loader", "oader", "pload", "upload"].map Bytes.ofAscii := by
  decide +kernel

end SuffixTokenizer

end Haystack.Tokenizer
