import Haystack.Engine.Scan
import Haystack.Tokenizer.Words

/-!
# Whole-word search

A query that is one identifier matches the lines in which it stands by itself. Its documents come
from the index, by the parts of tokens that begin with it. The scanner of the index and the regular
expression do not always agree: in `x.foo` the word `foo` stands by itself, but the tokens are those
of the chain `x.fo`; and control bytes separate words in a line but are taken out before the scan.
-/

namespace Haystack.ContentEngine

open Bytes List

open InvertedIndex (DocId TableId Keyword Store search getDocs Stamped)
open Tokenizer (Identifier Begins isAlnumU lower tokenizeForIndex tokenizeForSearch)

/-! ### The regular expression of a word -/

/-- The pattern of a whole word. -/
def wordPattern (w : Bytes) : List Atom :=
  .wordBoundary :: (w.map .lit ++ [.wordBoundary])

/-! ### Compiling an identifier -/

/-- The clause of one word. -/
lemma finalizeOrClause_word {opts : Options} (q : Bytes) (hwhole : opts.wholeWord) (cs : Bool) :
    finalizeOrClause opts [⟨q, q.map .lit, [q], []⟩] cs =
      .ok ⟨⟨!cs, [wordPattern q]⟩, [⟨q, q.map .lit, [q], []⟩]⟩ := by
  have hpattern : clausePattern opts [⟨q, q.map .lit, [q], []⟩] = wordPattern q := by
    simp [clausePattern, hwhole, wordPattern, intercalate]
  have hcompile : Regex.compile (!cs) (wordPattern q) = some ⟨!cs, [wordPattern q]⟩ := by
    rw [Regex.compile, if_pos (by simp [wordPattern]),
      splitOn_eq_singleton (by simp [wordPattern])]
  rw [finalizeOrClause, if_neg (cons_ne_nil _ _), hpattern, hcompile]

section

variable {q : Bytes} (hq : Identifier q)

/-- The bytes of identifiers have no meaning of their own in a query. -/
lemma plain_of_isAlnumU {c : UInt8} (h : isAlnumU c) :
    c ≠ quote ∧ c ≠ InvertedIndex.bar ∧ c ≠ space ∧ c ≠ backslash ∧ c ≠ star ∧
      isSpace c = false := by
  have hc := Tokenizer.of_all_bytes (p := fun c => !(isAlnumU c && (c == quote ||
    c == InvertedIndex.bar || c == space || c == backslash || c == star || isSpace c)))
    (by decide +kernel) c
  simpa [h, and_assoc] using hc

include hq

lemma trimSpace_identifier : trimSpace q = q := by
  have htrim : ∀ {l : Bytes}, (∀ c ∈ l, isAlnumU c) → l.dropWhile isSpace = l := by
    intro l hl
    cases l with
    | nil => rfl
    | cons c l =>
      exact dropWhile_cons_of_neg (by simp [plain_of_isAlnumU (hl c mem_cons_self)])
  rw [trimSpace, htrim hq.bytes, htrim fun c hc => hq.bytes c (mem_reverse.1 hc),
    reverse_reverse]

omit hq in
lemma readTokens_plain {current s : Bytes} (hs : ∀ c ∈ s, isAlnumU c) :
    readTokens false current s = flushToken (current ++ s) := by
  have hbyte : ∀ {c : UInt8} (current : Bytes), isAlnumU c →
      readByte false current c = ([], false, current ++ [c]) := by
    intro c current hc
    obtain ⟨hquote, hbar, hspace, -⟩ := plain_of_isAlnumU hc
    simp [readByte, hquote, hbar, hspace]
  induction s generalizing current with
  | nil => simp [readTokens]
  | cons c s ih =>
    have hc := hs c mem_cons_self
    cases s with
    | nil => simp [readTokens, hbyte current hc]
    | cons c' s =>
      obtain ⟨-, -, -, hback, -⟩ := plain_of_isAlnumU hc
      rw [readTokens, if_neg (by simp [hback]), hbyte current hc, nil_append,
        ih fun x hx => hs x (mem_cons_of_mem _ hx), append_assoc, singleton_append]

lemma tokenizeWithQuotes_identifier : tokenizeWithQuotes q = [q] := by
  rw [tokenizeWithQuotes, readTokens_plain hq.bytes, nil_append, flushToken,
    if_neg hq.ne_nil, trimSpace_identifier hq]
  simp [hq.ne_nil]

lemma regPattern_identifier (opts : Options) : regPattern opts q = q.map .lit := by
  refine map_congr_left fun c hc => ?_
  obtain ⟨-, hbar, -, -, hstar, -⟩ := plain_of_isAlnumU (hq.bytes c hc)
  rw [if_neg hstar, if_neg hbar]

lemma not_isQuotedPhrase_identifier : isQuotedPhrase q = false := by
  cases q with
  | nil => rfl
  | cons c q =>
    obtain ⟨hquote, -⟩ := plain_of_isAlnumU (hq.bytes c mem_cons_self)
    simp [isQuotedPhrase, hquote]

/-- An identifier is compiled to one clause with one term, whose only keyword it is. -/
lemma Engine.compile_identifier {e e' : Engine} (hwhole : e.opts.wholeWord) {cs : Bool}
    (h : e.compile tokenizeForSearch q cs = .ok e') :
    e' = { e with orClauses :=
      [⟨⟨!cs, [wordPattern q]⟩, [⟨q, q.map .lit, [q], []⟩]⟩] } := by
  have hbar : q ≠ [InvertedIndex.bar] := by
    rintro rfl
    exact absurd hq.length_ge (by decide)
  rw [Engine.compile, trimSpace_identifier hq, if_neg hq.ne_nil, tokenizeWithQuotes_identifier hq,
    if_neg (cons_ne_nil _ _), compileTokens, if_neg hbar, compileTokens, nil_append,
    processToken, trimSpace_identifier hq] at h
  by_cases hand : q = ofAscii "AND"
  · -- the word `AND` is no term, so nothing is left to search for
    simp [hand] at h
    cases h
  · simp only [hq.ne_nil, hand, or_self, if_false, not_isQuotedPhrase_identifier hq,
      Bool.false_eq_true, hq.tokenizeForSearch_eq, regPattern_identifier hq, Option.toList_some,
      cons_ne_nil, finalizeOrClause_word q hwhole] at h
    exact (Except.ok.inj h).symm

end

/-! ### Whole-word search -/

section

variable {st : Store} {table : TableId} {d : DocId} {content q : Bytes} {cs : Bool} {e e' : Engine}

/-- The candidates of an identifier are the documents of the index words that begin with it. -/
lemma exists_mem_collectDocuments_iff (hq : Identifier q) (hwhole : e.opts.wholeWord)
    (hidx : e.idx = some st) (htable : e.table = some table)
    (he : e.compile tokenizeForSearch q cs = .ok e') :
    (∃ r ∈ e'.collectDocuments, d ∈ r.docs) ↔ d ∈ search st table q := by
  obtain rfl := Engine.compile_identifier hq hwhole he
  simp [Engine.collectDocuments, AndClause.mem_docs, Engine.Matches, AndClause.keyTerms,
    Engine.Finds, hidx, htable]

end

/-- A table in which the document 5 has the keywords of a text. -/
private def indexed (content : Bytes) : Store :=
  (tokenizeForIndex content).foldl (fun st w => st.insert
    (InvertedIndex.encodeInvertedKey 1 w 1 7 st.keys.length)
    (InvertedIndex.encodeInvertedValueCounted [5]).1) ∅

private def wholeWordOver (st : Store) : Engine :=
  ⟨⟨24, 32, true⟩, some st, some 1, []⟩

private lemma eq_ok_of_mem_toOption {ε α : Type} {x : Except ε α} {a : α} (h : a ∈ x.toOption) :
    x = .ok a := by
  cases x with
  | error => cases h
  | ok b => exact congrArg _ (Option.some.inj h)

/-- A document with the keywords of the text is no candidate for a word, although a line of the text
matches. -/
private def Missed (content q : Bytes) : Prop :=
  (∀ w ∈ tokenizeForIndex content, 5 ∈ getDocs (indexed content) 1 w) ∧ Identifier q ∧
  ∃ e', (wholeWordOver (indexed content)).compile tokenizeForSearch q false = .ok e' ∧
    (∃ line ∈ textLines content, e'.isLineMatch line ≠ []) ∧
    ∃ r ∈ e'.collectDocuments, 5 ∉ r.docs

private lemma missed_of_run {content q : Bytes} (hid : Identifier q)
    (hwords : ((tokenizeForIndex content).all fun w => 5 ∈ getDocs (indexed content) 1 w) = true)
    (hrun : ((wholeWordOver (indexed content)).compile tokenizeForSearch q false).toOption.any
      (fun e' => ((textLines content).any fun line => e'.isLineMatch line ≠ []) &&
        e'.collectDocuments.any fun r => 5 ∉ r.docs) = true) : Missed content q := by
  obtain ⟨e', he, hrun⟩ := (Option.any_eq_true _ _).1 hrun
  obtain ⟨hline, hcollect⟩ := Bool.and_eq_true_iff.1 hrun
  obtain ⟨line, hmem, hmatch⟩ := any_eq_true.1 hline
  obtain ⟨r, hr, hd⟩ := (Option.any_eq_true _ _).1 hcollect
  exact ⟨fun w hw => of_decide_eq_true (all_eq_true.1 hwords w hw), hid, e',
    eq_ok_of_mem_toOption he, ⟨line, hmem, of_decide_eq_true hmatch⟩, r, hr, of_decide_eq_true hd⟩

end Haystack.ContentEngine
