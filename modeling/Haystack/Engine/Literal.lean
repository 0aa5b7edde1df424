import Mathlib.Data.List.DropRight
import Haystack.Engine.TextCompiler

/-!
# Queries are matched as they are written

A token without quotes stands for the texts that it spells, with some characters for each star. That
is what its regular expression matches, unless the token has a bar in it: the bar is the one special
character that is not escaped.
-/

namespace Haystack.ContentEngine

open Bytes List

variable (opts : Options) {token : Bytes}

/-! ### What a token matches -/

/-- The texts that the parts match; the byte before is given for word boundaries. A gap is made of
characters other than a line end. -/
def matchesAtoms (fold : Bool) : List Atom → Option UInt8 → Bytes → Prop
  | [], _, s => s = []
  | .lit c :: atoms, _, s =>
    ∃ x rest, s = x :: rest ∧ (if fold then Tokenizer.toLower x = Tokenizer.toLower c else x = c) ∧
      matchesAtoms fold atoms (some x) rest
  | .gap n :: atoms, prev, s =>
    ∃ cs rest, s = Utf8.encode cs ++ rest ∧ cs.length ≤ n ∧ '\n' ∉ cs ∧
      matchesAtoms fold atoms ((Utf8.encode cs).getLast?.or prev) rest
  | .wordBoundary :: atoms, prev, s =>
    Matcher.isWord prev ≠ Matcher.isWord s.head? ∧ matchesAtoms fold atoms prev s
  | .alternative :: _, _, _ => False

/-- The regular expression matches the whole text. -/
def Regex.MatchesAll (r : Regex) (s : Bytes) : Prop :=
  ∃ atoms ∈ r.alternatives, matchesAtoms r.fold atoms none s

/-- The text comes from the token by putting up to `n` characters of a line for each star. -/
def Expands (n : ℕ) : Bytes → Bytes → Prop
  | [], s => s = []
  | c :: token, s =>
    if c = star then
      ∃ cs rest, s = Utf8.encode cs ++ rest ∧ cs.length ≤ n ∧ '\n' ∉ cs ∧ Expands n token rest
    else ∃ rest, s = c :: rest ∧ Expands n token rest

/-- The token with all special characters escaped and a repetition for each star. A colon is not
special; a backslash before it is allowed and means nothing. -/
def escapeToken (n : ℕ) (token : Bytes) : Bytes :=
  token.flatMap fun c =>
    if c = star then gapText n else if isMeta c ∨ c = 58 then [backslash, c] else [c]

/-- A token without quotes is matched as it is written. -/
def Literal (token : Bytes) : Prop :=
  termText opts token = some (escapeToken opts.maxWildcardLength token) ∧
    ∃ r, regexpCompile (Bytes.ofAscii "(" ++ escapeToken opts.maxWildcardLength token ++
        Bytes.ofAscii ")") = some r ∧
      ∀ line : List Char,
        r.MatchesAll (Utf8.encode line) ↔
          Expands opts.maxWildcardLength token (Utf8.encode line)

lemma matchesAtoms_regPattern_iff (hbar : InvertedIndex.bar ∉ token) (prev : Option UInt8)
    (s : Bytes) :
    matchesAtoms false (regPattern opts token) prev s ↔
      Expands opts.maxWildcardLength token s := by
  induction token generalizing prev s with
  | nil => rfl
  | cons c token ih =>
    obtain ⟨hc, hbar⟩ := not_or.1 (mt mem_cons.2 hbar)
    have ih := ih hbar
    rw [regPattern, map_cons, ← regPattern, Expands, if_neg (Ne.symm hc)]
    by_cases hstar : c = star
    · simp only [if_pos hstar, matchesAtoms, ih]
    · simp [hstar, matchesAtoms, ih]

lemma length_escapeToken (n : ℕ) (token : Bytes) :
    (escapeToken n token).length =
      (token.flatMap (tokenByte n)).length + token.count InvertedIndex.bar := by
  induction token with
  | nil => rfl
  | cons c token ih =>
    rw [escapeToken] at ih ⊢
    rw [flatMap_cons, flatMap_cons, length_append, length_append, ih,
      count_cons, tokenByte]
    by_cases hbar : c = InvertedIndex.bar
    · rw [hbar]
      simp only [show ¬ InvertedIndex.bar = star from by decide,
        show isMeta InvertedIndex.bar = true from by decide]
      simp
      omega
    · simp [hbar]
      omega

/-- Just the tokens without a bar have all their special characters escaped. -/
lemma flatMap_tokenByte_eq_iff (n : ℕ) (token : Bytes) :
    token.flatMap (tokenByte n) = escapeToken n token ↔ InvertedIndex.bar ∉ token := by
  constructor
  · intro h
    have hlength := length_escapeToken n token
    rw [h] at hlength
    exact count_eq_zero.1 (by omega)
  · intro h
    refine flatMap_congr fun c hc => ?_
    have hbar : c ≠ InvertedIndex.bar := by
      rintro rfl
      exact h hc
    simp [tokenByte, hbar]

lemma trimSpace_trimSpace (s : Bytes) : trimSpace (trimSpace s) = trimSpace s := by
  have hfirst : (trimSpace s).dropWhile isSpace = trimSpace s := by
    have hsub : trimSpace s <+: s.dropWhile isSpace := List.rdropWhile_prefix isSpace _
    cases htrim : trimSpace s with
    | nil => rfl
    | cons c t =>
      obtain ⟨rest, hrest⟩ := htrim ▸ hsub
      have hhead := head?_dropWhile_not isSpace s
      rw [← hrest] at hhead
      exact dropWhile_cons_of_neg (by simpa using hhead)
  rw [trimSpace, hfirst]
  exact rdropWhile_idempotent isSpace (s.dropWhile isSpace)

lemma trimSpace_of_mem_flushToken {current token : Bytes} (h : token ∈ flushToken current) :
    trimSpace token = token := by
  rw [flushToken] at h
  split_ifs at h
  · exact absurd h not_mem_nil
  · rw [mem_singleton.1 h, trimSpace_trimSpace]

lemma trimSpace_of_mem_readByte {inQuotes : Bool} {current token : Bytes} {c : UInt8}
    (h : token ∈ (readByte inQuotes current c).1) : trimSpace token = token := by
  rw [readByte] at h
  split_ifs at h
  · exact absurd h not_mem_nil
  · obtain h | h := mem_append.1 h
    · exact trimSpace_of_mem_flushToken h
    · rw [mem_singleton.1 h]
      rfl
  · exact trimSpace_of_mem_flushToken h
  · exact absurd h not_mem_nil

lemma trimSpace_of_mem_readTokens {inQuotes : Bool} {current s token : Bytes}
    (h : token ∈ readTokens inQuotes current s) : trimSpace token = token := by
  induction inQuotes, current, s using readTokens.induct with
  | case1 inQuotes current => exact trimSpace_of_mem_flushToken h
  | case2 inQuotes current c =>
    obtain h | h := mem_append.1 h
    · exact trimSpace_of_mem_readByte h
    · exact trimSpace_of_mem_flushToken h
  | case3 inQuotes current c c' s hquote ih =>
    rw [readTokens, if_pos hquote] at h
    exact ih h
  | case4 inQuotes current c c' s hquote ih =>
    rw [readTokens, if_neg hquote] at h
    obtain h | h := mem_append.1 h
    · exact trimSpace_of_mem_readByte h
    · exact ih h

theorem regexpCompile_token (token : Bytes) :
    regexpCompile (Bytes.ofAscii "(" ++ token.flatMap (tokenByte opts.maxWildcardLength) ++
        Bytes.ofAscii ")") =
      if Utf8.Valid token then Regex.compile false (regPattern opts token) else none := by
  have hread := (spells_regPattern opts token).readPattern_eq true
  rw [if_pos rfl, nil_append] at hread
  rw [regexpCompile, hread]
  refine if_congr ?_ rfl rfl
  rw [Utf8.valid_append_ascii_iff (all_iff_forall_prop.1 (by decide)),
    Utf8.valid_ascii_append_iff (all_iff_forall_prop.1 (by decide)), valid_flatMap_tokenByte_iff]

/-- Without a bar there is one alternative. -/
lemma splitOn_regPattern (hbar : InvertedIndex.bar ∉ token) :
    (regPattern opts token).splitOn .alternative = [regPattern opts token] := by
  refine splitOn_eq_singleton fun hmem => ?_
  obtain ⟨c, hc, h⟩ := mem_map.1 hmem
  split_ifs at h with hstar hbar'
  exact hbar (hbar' ▸ hc)

/-- A token is matched as it is written if it is not the operator `AND`, has no bar, is UTF-8, and
its stars are within the limit of repetitions. -/
lemma literal_iff (htrim : trimSpace token = token) (hne : token ≠ [])
    (hquoted : isQuotedPhrase token = false) :
    Literal opts token ↔
      token ≠ Bytes.ofAscii "AND" ∧ InvertedIndex.bar ∉ token ∧ Utf8.Valid token ∧
        (star ∈ token → opts.maxWildcardLength ≤ 1000) := by
  have htext : token ≠ ofAscii "AND" →
      termText opts token = some (token.flatMap (tokenByte opts.maxWildcardLength)) := by
    intro hand
    simp only [termText, htrim, hne, hand, or_self, if_false, hquoted, Bool.false_eq_true,
      passes_tokenPasses]
  have hlimit : (∀ n, .gap n ∈ regPattern opts token → n ≤ 1000) ↔
      (star ∈ token → opts.maxWildcardLength ≤ 1000) := by
    simp [gap_mem_regPattern_iff]
  constructor
  · rintro ⟨hterm, r, hr, -⟩
    have hand : token ≠ ofAscii "AND" := by
      rintro rfl
      exact absurd hterm (by simp [termText, htrim])
    rw [htext hand, Option.some_inj] at hterm
    have hbar := (flatMap_tokenByte_eq_iff _ _).1 hterm
    rw [← hterm, regexpCompile_token] at hr
    split_ifs at hr with hvalid
    refine ⟨hand, hbar, hvalid, hlimit.1 ?_⟩
    rw [← isSome_compile_iff false, hr]
    rfl
  · rintro ⟨hand, hbar, hvalid, hstar⟩
    have hescape := (flatMap_tokenByte_eq_iff opts.maxWildcardLength token).2 hbar
    refine ⟨(htext hand).trans (congrArg some hescape), ⟨false, [regPattern opts token]⟩, ?_, ?_⟩
    · have hsome := (isSome_compile_iff false (regPattern opts token)).2 (hlimit.2 hstar)
      rw [← hescape, regexpCompile_token, if_pos hvalid, ← splitOn_regPattern opts hbar]
      rw [Regex.compile] at hsome ⊢
      rw [if_pos (by simpa using hsome)]
    · intro line
      simp [Regex.MatchesAll, matchesAtoms_regPattern_iff opts hbar]

/-- The tokens without quotes that a query matches as they are written, and the queries whose
characters make the compilation fail. -/
theorem tokens_literal_iff (query : Bytes) (caseSensitive : Bool) :
    (∀ token ∈ tokenizeWithQuotes query, isQuotedPhrase token = false →
      (Literal opts token ↔
        token ≠ Bytes.ofAscii "AND" ∧ InvertedIndex.bar ∉ token ∧ Utf8.Valid token ∧
          (star ∈ token → opts.maxWildcardLength ≤ 1000))) ∧
    (opts.maxWildcardLength ≤ 1000 → opts.maxKeywordDistance ≤ 1000 →
      (compileText opts query caseSensitive ≠ .error .regexp ↔ Utf8.Valid query)) := by
  refine ⟨?_, ?_⟩
  · intro token htoken hquoted
    obtain ⟨hread, hne⟩ := mem_filter.1 htoken
    exact literal_iff opts (trimSpace_of_mem_readTokens hread) (by simpa using hne) hquoted
  · intro hwild hdist
    rw [Ne, compileText_eq_regexp_iff hwild hdist, not_not]

/-- A bar behind a quote that does not start the token makes two alternatives of it: the pattern
matches what stands before the bar. -/
theorem bar_not_literal :
    let opts : Options := ⟨24, 32, false⟩
    let token := ofAscii "x\"a|b\""
    tokenizeWithQuotes token = [token] ∧ isQuotedPhrase token = false ∧
      (∃ text r, termText opts token = some text ∧
        regexpCompile (ofAscii "(" ++ text ++ ofAscii ")") = some r ∧
        r.MatchesAll (ofAscii "x\"a") ∧ ¬ Expands 24 token (ofAscii "x\"a")) ∧
      compileText opts [0xff] true = .error .regexp := by
  refine ⟨by decide, by decide, ⟨ofAscii "x\"a|b\"",
    ⟨false, [(ofAscii "x\"a").map .lit, (ofAscii "b\"").map .lit]⟩,
    by decide, by decide, ?_, ?_⟩, by decide⟩
  · refine ⟨_, mem_cons_self, ?_⟩
    simp [matchesAtoms, ofAscii]
  · simp [Expands, ofAscii, star]

end Haystack.ContentEngine
