import Haystack.Engine.PatternText

/-!
# Compiling the text of a query

`Compile` with the patterns as texts. A text is in UTF-8 if and only if the token is that it comes
from, and all tokens are if the query is; so for a query in UTF-8 the regular expressions are those
of the engine's model, and for any other the library refuses a pattern.
-/

namespace Haystack.ContentEngine

open List

variable (opts : Options) {token : Bytes} {c : UInt8}

/-! ### Compilation -/

/-- `compileTokens` with the patterns as texts. -/
def compileTexts (caseSensitive : Bool) (current : List Bytes) :
    List Bytes → Except CompileError (List Regex)
  | [] =>
    if current = [] then .ok []
    else
      match regexpCompile (clauseText opts caseSensitive current) with
      | some regex => .ok [regex]
      | none => .error .regexp
  | token :: tokens =>
    if token = [InvertedIndex.bar] then
      if current = [] then compileTexts caseSensitive [] tokens
      else
        match regexpCompile (clauseText opts caseSensitive current) with
        | some regex => (compileTexts caseSensitive [] tokens).map (regex :: ·)
        | none => .error .regexp
    else compileTexts caseSensitive (current ++ (termText opts token).toList) tokens

/-- The regular expressions of `Compile`. -/
def compileText (query : Bytes) (caseSensitive : Bool) : Except CompileError (List Regex) :=
  if trimSpace query = [] then .error .emptyQuery
  else if tokenizeWithQuotes (trimSpace query) = [] then .error .emptyQuery
  else
    (compileTexts opts caseSensitive [] (tokenizeWithQuotes (trimSpace query))).bind
      fun regexes => if regexes = [] then .error .emptyQuery else .ok regexes

/-! ### UTF-8 -/

lemma lt_of_isMeta (h : isMeta c) : c < 128 := by
  exact (all_iff_forall_prop (p := fun c => c < 128)).1 (by decide) c (contains_iff_mem.1 h)

lemma lt_of_mem_gapText {n : ℕ} (h : c ∈ gapText n) : c < 128 := by
  obtain h | h := mem_gapText h
  · exact (all_iff_forall_prop (p := fun c => c < 128)).1 (by decide) c h
  · simp only [Decimal.isDigit, Bool.and_eq_true, decide_eq_true_eq] at h
    rw [UInt8.lt_iff_toNat_lt]
    exact Nat.lt_of_le_of_lt h.2 (by decide)

lemma gapText_ne_nil (n : ℕ) : gapText n ≠ [] := by
  simp [gapText, Bytes.ofAscii]

lemma lt_of_isSpace (h : isSpace c) : c < 128 := by
  simp only [isSpace, Bool.or_eq_true, Bool.and_eq_true, decide_eq_true_eq, beq_iff_eq] at h
  obtain ⟨-, h⟩ | rfl := h
  · exact lt_of_le_of_lt h (by decide)
  · decide

lemma valid_quoteMeta_iff (s : Bytes) : Utf8.Valid (quoteMeta s) ↔ Utf8.Valid s := by
  refine Utf8.valid_flatMap_iff (fun c hc => ?_) (fun c hc => ?_) [] s
  · split_ifs
    · simp [hc, show backslash < 128 from by decide]
    · simp [hc]
  · exact if_neg fun h => absurd (lt_of_isMeta h) (not_lt.2 hc)

lemma valid_flatMap_tokenByte_iff (n : ℕ) (s : Bytes) :
    Utf8.Valid (s.flatMap (tokenByte n)) ↔ Utf8.Valid s := by
  refine Utf8.valid_flatMap_iff (fun c hc => ?_) (fun c hc => ?_) [] s
  · rw [tokenByte]
    split_ifs
    · exact ⟨gapText_ne_nil n, fun y => lt_of_mem_gapText⟩
    · simp [hc, show backslash < 128 from by decide]
    · simp [hc]
  · have hne : ∀ d, d < 128 → c ≠ d := by
      rintro d hd rfl
      exact absurd hd (not_lt.2 hc)
    rw [tokenByte, if_neg (hne star (by decide)), if_neg]
    rintro ⟨-, h | h⟩
    · exact hne c (lt_of_isMeta h) rfl
    · exact hne 58 (by decide) h

lemma lt_of_mem_takeWhile_isSpace {s : Bytes} (h : c ∈ s.takeWhile isSpace) : c < 128 :=
  lt_of_isSpace (all_eq_true.1 all_takeWhile c h)

lemma valid_trimSpace_iff (s : Bytes) : Utf8.Valid (trimSpace s) ↔ Utf8.Valid s := by
  set t := s.dropWhile isSpace with ht
  have hleft : Utf8.Valid t ↔ Utf8.Valid s := by
    conv_rhs => rw [← @takeWhile_append_dropWhile _ isSpace s]
    exact (Utf8.valid_ascii_append_iff (fun _ => lt_of_mem_takeWhile_isSpace) t).symm
  have hright : t = trimSpace s ++ (t.reverse.takeWhile isSpace).reverse := by
    rw [trimSpace, ← ht, ← reverse_append, takeWhile_append_dropWhile,
      reverse_reverse]
  rw [← hleft]
  conv_rhs => rw [hright]
  refine (Utf8.valid_append_ascii_iff (fun c hc => ?_) _).symm
  exact lt_of_mem_takeWhile_isSpace (mem_reverse.1 hc)

lemma valid_unescapeQuotes_iff (a s : Bytes) :
    Utf8.Valid (a ++ unescapeQuotes s) ↔ Utf8.Valid (a ++ s) := by
  have hquote : quote < 128 := by decide
  induction s using unescapeQuotes.induct generalizing a with
  | case1 c c' s h ih =>
    have hrest : Utf8.Valid (unescapeQuotes s) ↔ Utf8.Valid s := ih []
    rw [unescapeQuotes, if_pos h, h.1, h.2, Utf8.valid_append_cons_iff hquote,
      Utf8.valid_append_cons_iff (by decide), ← nil_append (quote :: s),
      Utf8.valid_append_cons_iff hquote, hrest, and_iff_right Utf8.valid_nil]
  | case2 c c' s h ih =>
    have hrest := ih (a ++ [c])
    rw [append_assoc, append_assoc] at hrest
    rw [unescapeQuotes, if_neg h]
    exact hrest
  | case3 s h => rw [unescapeQuotes.eq_2 s h]

lemma valid_unwrapQuotes_iff (h : isQuotedPhrase token) :
    Utf8.Valid (unwrapQuotes token) ↔ Utf8.Valid token := by
  simp only [isQuotedPhrase, Bool.and_eq_true, decide_eq_true_eq, beq_iff_eq] at h
  obtain ⟨⟨hlen, hhead⟩, hlast⟩ := h
  cases token with
  | nil => simp at hlen
  | cons c rest =>
    have hne : rest ≠ [] := by
      rintro rfl
      simp at hlen
    obtain rfl : c = quote := by simpa using hhead
    have hsplit : rest = unwrapQuotes (quote :: rest) ++ [quote] := by
      conv_lhs => rw [← dropLast_append_getLast hne]
      rw [getLast?_cons_of_ne_nil hne, getLast?_eq_some_getLast hne] at hlast
      rw [Option.some.inj hlast]
      rfl
    have hquote : ∀ c ∈ [quote], c < 128 := all_iff_forall_prop.1 (by decide)
    have hleft := Utf8.valid_ascii_append_iff hquote rest
    rw [singleton_append] at hleft
    rw [hleft]
    conv_rhs => rw [hsplit]
    exact (Utf8.valid_append_ascii_iff hquote _).symm

lemma valid_of_termText {token text : Bytes} (h : termText opts token = some text) :
    Utf8.Valid text ↔ Utf8.Valid token := by
  rw [← valid_trimSpace_iff token]
  simp only [termText] at h
  split_ifs at h with hop hquoted
  · cases h
    rw [valid_quoteMeta_iff, ← nil_append (unescapeQuotes _), valid_unescapeQuotes_iff,
      nil_append, valid_unwrapQuotes_iff hquoted]
  · obtain rfl := Option.some.inj h
    rw [passes_tokenPasses, valid_flatMap_tokenByte_iff]

lemma valid_of_termText_eq_none (h : termText opts token = none) : Utf8.Valid token := by
  rw [← valid_trimSpace_iff token]
  simp only [termText] at h
  split_ifs at h with hop
  obtain hop | hop := hop
  · rw [hop]
    exact Utf8.valid_nil
  · rw [hop]
    decide

lemma valid_intercalate_iff {sep : Bytes} (hsep : ∀ c ∈ sep, c < 128) (hne : sep ≠ [])
    (texts : List Bytes) :
    Utf8.Valid (sep.intercalate texts) ↔ ∀ t ∈ texts, Utf8.Valid t := by
  induction texts with
  | nil => simpa using Utf8.valid_nil
  | cons t texts ih =>
    cases texts with
    | nil => simp
    | cons t' texts =>
      rw [intercalate_cons_cons, append_assoc,
        Utf8.valid_append_ascii_append_iff hsep hne, ih]
      simp

lemma valid_clauseText_iff (caseSensitive : Bool) (texts : List Bytes) :
    Utf8.Valid (clauseText opts caseSensitive texts) ↔ ∀ t ∈ texts, Utf8.Valid t := by
  have hstart : ∀ c ∈ (if caseSensitive then [] else Bytes.ofAscii "(?i)") ++ Bytes.ofAscii "(",
      c < 128 :=
    all_iff_forall_prop.1 (by cases caseSensitive <;> decide)
  have hword : ∀ c ∈ Bytes.ofAscii "\\b", c < 128 := all_iff_forall_prop.1 (by decide)
  rw [clauseText, Utf8.valid_append_ascii_iff (all_iff_forall_prop.1 (by decide)),
    Utf8.valid_ascii_append_iff hstart,
    valid_intercalate_iff (fun _ => lt_of_mem_gapText) (gapText_ne_nil _), forall_mem_map]
  refine forall₂_congr fun t _ => ?_
  split_ifs
  · rw [Utf8.valid_append_ascii_iff hword, Utf8.valid_ascii_append_iff hword]
  · rfl

lemma valid_flushToken_iff (current : Bytes) :
    (∀ t ∈ flushToken current, Utf8.Valid t) ↔ Utf8.Valid current := by
  rw [flushToken]
  split_ifs with h
  · simpa [h] using Utf8.valid_nil
  · simpa using valid_trimSpace_iff current

/-- What one byte does keeps the bytes that are not separators. -/
lemma valid_readByte_iff (inQuotes : Bool) (current : Bytes) (c : UInt8) (s : Bytes) :
    Utf8.Valid (current ++ c :: s) ↔
      (∀ t ∈ (readByte inQuotes current c).1, Utf8.Valid t) ∧
        Utf8.Valid ((readByte inQuotes current c).2.2 ++ s) := by
  rw [readByte]
  split_ifs with hquote hbar hspace
  · simp
  · rw [hbar.1, Utf8.valid_append_cons_iff (by decide), ← valid_flushToken_iff current]
    simp [or_imp, forall_and, show Utf8.Valid [InvertedIndex.bar] from by decide]
  · rw [hspace.1, Utf8.valid_append_cons_iff (by decide), ← valid_flushToken_iff current]
    rfl
  · simp

lemma valid_readTokens_iff (inQuotes : Bool) (current s : Bytes) :
    (∀ t ∈ readTokens inQuotes current s, Utf8.Valid t) ↔ Utf8.Valid (current ++ s) := by
  induction inQuotes, current, s using readTokens.induct with
  | case1 inQuotes current => rw [readTokens, valid_flushToken_iff, append_nil]
  | case2 inQuotes current c =>
    rw [readTokens, forall_mem_append, valid_flushToken_iff, valid_readByte_iff inQuotes,
      append_nil]
  | case3 inQuotes current c c' s h ih =>
    rw [readTokens, if_pos h, ih, h.1, h.2, append_assoc]
    rfl
  | case4 inQuotes current c c' s h ih =>
    rw [readTokens, if_neg h, forall_mem_append, ih, valid_readByte_iff inQuotes current]

/-- A query is UTF-8 if its tokens are. -/
theorem valid_tokenizeWithQuotes_iff (s : Bytes) :
    (∀ t ∈ tokenizeWithQuotes s, Utf8.Valid t) ↔ Utf8.Valid s := by
  have hread := valid_readTokens_iff false [] s
  rw [nil_append] at hread
  rw [← hread, tokenizeWithQuotes]
  constructor
  · intro h t ht
    by_cases hnil : t = []
    · rw [hnil]
      exact Utf8.valid_nil
    · exact h t (mem_filter.2 ⟨ht, by simpa using hnil⟩)
  · intro h t ht
    exact h t (mem_filter.1 ht).1

/-! ### The two compilers -/

section Compilers

variable (tok : SearchTokenizer) {opts} {texts : List Bytes} {terms : List Term}

/-- The texts of some terms. -/
def TextsOf (texts : List Bytes) (terms : List Term) : Prop :=
  List.Forall₂ (fun text t => Spells text t.regPattern) texts terms

lemma TextsOf.append_token (h : TextsOf texts terms) (token : Bytes) :
    TextsOf (texts ++ (termText opts token).toList)
      (terms ++ (processToken tok opts token).toList) := by
  refine rel_append h ?_
  have hrel := processToken_spells opts tok token
  generalize termText opts token = text at hrel ⊢
  generalize processToken tok opts token = t at hrel ⊢
  cases hrel with
  | none => exact .nil
  | some h => exact .cons h .nil

lemma TextsOf.eq_nil_iff (h : TextsOf texts terms) : texts = [] ↔ terms = [] := by
  cases h <;> simp

lemma regexpCompile_clauseText (h : TextsOf texts terms) (caseSensitive : Bool) :
    regexpCompile (clauseText opts caseSensitive texts) =
      if ∀ t ∈ texts, Utf8.Valid t then
        Regex.compile (!caseSensitive) (clausePattern opts terms)
      else none := by
  rw [regexpCompile, readPattern_clauseText opts h]
  exact if_congr (valid_clauseText_iff opts caseSensitive texts) rfl rfl

lemma forall_valid_append_termText :
    (∀ t ∈ texts ++ (termText opts token).toList, Utf8.Valid t) ↔
      (∀ t ∈ texts, Utf8.Valid t) ∧ Utf8.Valid token := by
  rw [forall_mem_append]
  refine and_congr_right fun _ => ?_
  cases h : termText opts token with
  | none => simpa using valid_of_termText_eq_none opts h
  | some text => simpa using valid_of_termText opts h

/-- For texts in UTF-8 the compiler of texts does what the compiler of patterns does. -/
theorem compileTexts_of_valid (caseSensitive : Bool) {tokens texts : List Bytes}
    (hterms : TextsOf texts terms) (htexts : ∀ t ∈ texts, Utf8.Valid t)
    (htokens : ∀ t ∈ tokens, Utf8.Valid t) :
    compileTexts opts caseSensitive texts tokens =
      (compileTokens tok opts caseSensitive terms tokens).map (·.map AndClause.regex) := by
  induction tokens generalizing texts terms with
  | nil =>
    rw [compileTexts, compileTokens]
    by_cases hnil : terms = []
    · rw [if_pos hnil, if_pos (hterms.eq_nil_iff.2 hnil)]
      rfl
    · rw [if_neg hnil, if_neg (mt hterms.eq_nil_iff.1 hnil), regexpCompile_clauseText hterms,
        if_pos htexts, finalizeOrClause, if_neg hnil]
      cases Regex.compile (!caseSensitive) (clausePattern opts terms) <;> rfl
  | cons token tokens ih =>
    obtain ⟨htoken, htokens⟩ := forall_mem_cons.1 htokens
    rw [compileTexts, compileTokens]
    by_cases hbar : token = [InvertedIndex.bar]
    · rw [if_pos hbar, if_pos hbar]
      have hrest := @ih [] [] .nil (by simp) htokens
      by_cases hnil : terms = []
      · rw [if_pos hnil, if_pos (hterms.eq_nil_iff.2 hnil), hrest]
      · rw [if_neg hnil, if_neg (mt hterms.eq_nil_iff.1 hnil), regexpCompile_clauseText hterms,
          if_pos htexts, finalizeOrClause, if_neg hnil, hrest]
        cases Regex.compile (!caseSensitive) (clausePattern opts terms) with
        | none => rfl
        | some regex => cases compileTokens tok opts caseSensitive [] tokens <;> rfl
    · rw [if_neg hbar, if_neg hbar]
      exact ih (hterms.append_token tok token)
        (forall_valid_append_termText.2 ⟨htexts, htoken⟩) htokens

/-- A text that is not UTF-8 makes the compilation fail. -/
theorem compileTexts_of_not_valid (caseSensitive : Bool) {tokens texts : List Bytes}
    (hterms : TextsOf texts terms)
    (h : ¬ ((∀ t ∈ texts, Utf8.Valid t) ∧ ∀ t ∈ tokens, Utf8.Valid t)) :
    compileTexts opts caseSensitive texts tokens = .error .regexp := by
  induction tokens generalizing texts terms with
  | nil =>
    have htexts : ¬ ∀ t ∈ texts, Utf8.Valid t := by simpa using h
    have hnil : texts ≠ [] := by
      rintro rfl
      exact htexts (by simp)
    rw [compileTexts, if_neg hnil, regexpCompile_clauseText hterms, if_neg htexts]
  | cons token tokens ih =>
    rw [compileTexts]
    by_cases hbar : token = [InvertedIndex.bar]
    · rw [if_pos hbar]
      have htoken : Utf8.Valid token := by
        rw [hbar]
        decide
      by_cases htexts : ∀ t ∈ texts, Utf8.Valid t
      · have hrest := @ih [] [] .nil fun hvalid =>
          h ⟨htexts, forall_mem_cons.2 ⟨htoken, hvalid.2⟩⟩
        rw [hrest]
        split_ifs
        · rfl
        · cases regexpCompile (clauseText opts caseSensitive texts) <;> rfl
      · have hnil : texts ≠ [] := by
          rintro rfl
          exact htexts (by simp)
        rw [if_neg hnil, regexpCompile_clauseText hterms, if_neg htexts]
    · rw [if_neg hbar]
      refine ih (hterms.append_token (fun _ _ => ([], [])) token) fun hvalid => h ?_
      rw [forall_valid_append_termText] at hvalid
      exact ⟨hvalid.1.1, forall_mem_cons.2 ⟨hvalid.1.2, hvalid.2⟩⟩

/-- For a query in UTF-8 the regular expressions are those of the compiled engine. -/
theorem compileText_of_valid (e : Engine) {query : Bytes} (hquery : Utf8.Valid query)
    (caseSensitive : Bool) :
    compileText e.opts query caseSensitive =
      (e.compile tok query caseSensitive).map (·.orClauses.map AndClause.regex) := by
  have htokens := (valid_tokenizeWithQuotes_iff (trimSpace query)).2
    ((valid_trimSpace_iff query).2 hquery)
  rw [compileText, Engine.compile,
    @compileTexts_of_valid e.opts tok [] caseSensitive _ [] .nil (by simp) htokens]
  split_ifs
  · rfl
  · rfl
  · cases compileTokens tok e.opts caseSensitive [] (tokenizeWithQuotes (trimSpace query)) with
    | error err => rfl
    | ok clauses => cases clauses <;> rfl

theorem compileText_of_valid_words :
    let e : Engine := ⟨⟨9, 9, true⟩, none, none, []⟩
    compileText e.opts [97, 32, 98] true =
      (e.compile (fun _ _ => ([], [])) [97, 32, 98] true).map (·.orClauses.map AndClause.regex) :=
  compileText_of_valid _ _ (by decide) true

end Compilers

/-! ### Repetitions within the limit -/

lemma isSome_compile_iff (fold : Bool) (atoms : List Atom) :
    (Regex.compile fold atoms).isSome ↔ ∀ n, .gap n ∈ atoms → n ≤ 1000 := by
  rw [Regex.compile, Option.isSome_ite, all_eq_true]
  constructor
  · intro h n hn
    simpa using h _ hn
  · intro h a ha
    cases a with
    | gap n => simpa using h n ha
    | _ => rfl

lemma gap_mem_regPattern_iff {n : ℕ} :
    .gap n ∈ regPattern opts token ↔ star ∈ token ∧ n = opts.maxWildcardLength := by
  rw [regPattern, mem_map]
  constructor
  · rintro ⟨c, hc, h⟩
    split_ifs at h with hstar
    exact ⟨hstar ▸ hc, (Atom.gap.inj h).symm⟩
  · rintro ⟨hstar, rfl⟩
    exact ⟨star, hstar, if_pos rfl⟩

lemma mem_intercalate {α : Type*} {x : α} {sep : List α} {l : List (List α)}
    (h : x ∈ sep.intercalate l) : x ∈ sep ∨ ∃ t ∈ l, x ∈ t := by
  induction l with
  | nil => simp at h
  | cons t l ih =>
    cases l with
    | nil => exact .inr ⟨t, mem_cons_self, by simpa using h⟩
    | cons t' l =>
      rw [intercalate_cons_cons, mem_append, mem_append] at h
      obtain (h | h) | h := h
      · exact .inr ⟨t, mem_cons_self, h⟩
      · exact .inl h
      · obtain h | ⟨u, hu, h⟩ := ih h
        · exact .inl h
        · exact .inr ⟨u, mem_cons_of_mem t hu, h⟩

section Limit

variable {tok : SearchTokenizer} {opts} (hwild : opts.maxWildcardLength ≤ 1000)
  (hdist : opts.maxKeywordDistance ≤ 1000)

/-- No repetition of the term is too long. -/
def WithinLimit (t : Term) : Prop := ∀ n, .gap n ∈ t.regPattern → n ≤ 1000

include hwild in
lemma withinLimit_of_processToken {t : Term} (h : t ∈ (processToken tok opts token).toList) :
    WithinLimit t := by
  intro n hn
  simp only [processToken] at h
  split_ifs at h
  · simp at h
  · obtain rfl : t = _ := by simpa using h
    simp at hn
  · obtain rfl : t = _ := by simpa using h
    exact (gap_mem_regPattern_iff opts).1 hn |>.2 ▸ hwild

include hdist in
lemma finalizeOrClause_ne_regexp {terms : List Term} (h : ∀ t ∈ terms, WithinLimit t)
    (caseSensitive : Bool) : finalizeOrClause opts terms caseSensitive ≠ .error .regexp := by
  have hsome : (Regex.compile (!caseSensitive) (clausePattern opts terms)).isSome := by
    rw [isSome_compile_iff]
    intro n hn
    obtain hn | ⟨part, hpart, hn⟩ := mem_intercalate hn
    · obtain rfl := Atom.gap.inj (mem_singleton.1 hn)
      exact hdist
    · obtain ⟨t, ht, rfl⟩ := mem_map.1 hpart
      refine h t ht n ?_
      split_ifs at hn
      · simpa using hn
      · exact hn
  obtain ⟨regex, hregex⟩ := Option.isSome_iff_exists.1 hsome
  rw [finalizeOrClause, hregex]
  split_ifs <;> simp

include hwild hdist in
lemma compileTokens_ne_regexp (caseSensitive : Bool) {terms : List Term}
    (h : ∀ t ∈ terms, WithinLimit t) (tokens : List Bytes) :
    compileTokens tok opts caseSensitive terms tokens ≠ .error .regexp := by
  have hclause := @finalizeOrClause_ne_regexp opts hdist terms h caseSensitive
  induction tokens generalizing terms with
  | nil =>
    rw [compileTokens]
    split_ifs
    · simp
    · cases hfin : finalizeOrClause opts terms caseSensitive with
      | error err => simpa [Except.map, hfin] using hclause
      | ok clause => simp [Except.map]
  | cons token tokens ih =>
    rw [compileTokens]
    have hrest := @ih [] (by simp) (finalizeOrClause_ne_regexp hdist (by simp) caseSensitive)
    split_ifs
    · exact hrest
    · cases hfin : finalizeOrClause opts terms caseSensitive with
      | error err => simpa [Except.bind, hfin] using hclause
      | ok clause =>
        cases htokens : compileTokens tok opts caseSensitive [] tokens with
        | error err => simpa [Except.bind, Except.map, htokens] using hrest
        | ok clauses => simp [Except.bind, Except.map]
    · have hterms : ∀ t ∈ terms ++ (processToken tok opts token).toList, WithinLimit t := by
        intro t ht
        obtain ht | ht := mem_append.1 ht
        · exact h t ht
        · exact withinLimit_of_processToken hwild ht
      exact ih hterms (finalizeOrClause_ne_regexp hdist hterms caseSensitive)

include hwild hdist in
/-- Compilation fails for the characters of the query just if they are not UTF-8. -/
lemma compileText_eq_regexp_iff (query : Bytes) (caseSensitive : Bool) :
    compileText opts query caseSensitive = .error .regexp ↔ ¬ Utf8.Valid query := by
  have hvalid : Utf8.Valid query ↔
      ∀ t ∈ tokenizeWithQuotes (trimSpace query), Utf8.Valid t := by
    rw [valid_tokenizeWithQuotes_iff, valid_trimSpace_iff]
  constructor
  · intro h hquery
    let tok : SearchTokenizer := fun _ _ => ([], [])
    have hne := @compileTokens_ne_regexp opts tok hwild hdist caseSensitive [] (by simp)
      (tokenizeWithQuotes (trimSpace query))
    rw [compileText, @compileTexts_of_valid opts tok [] caseSensitive _ [] .nil (by simp)
      (hvalid.1 hquery)] at h
    cases hcompile : compileTokens tok opts caseSensitive [] (tokenizeWithQuotes (trimSpace query))
    case error err =>
      rw [hcompile] at h hne
      split_ifs at h
      · simp at h
      · simp at h
      · exact hne (congrArg _ (Except.error.inj h))
    case ok clauses =>
      rw [hcompile] at h
      simp only [Except.map, Except.bind] at h
      split_ifs at h <;> simp at h
  · intro hquery
    have hne : trimSpace query ≠ [] := by
      intro hnil
      rw [← valid_trimSpace_iff, hnil] at hquery
      exact hquery Utf8.valid_nil
    have htokens : tokenizeWithQuotes (trimSpace query) ≠ [] := by
      intro hnil
      rw [hvalid, hnil] at hquery
      exact hquery (by simp)
    rw [compileText, if_neg hne, if_neg htokens,
      @compileTexts_of_not_valid opts [] caseSensitive _ [] .nil fun h => hquery (hvalid.2 h.2)]
    rfl

end Limit

end Haystack.ContentEngine
