import Haystack.Engine.Query
import Haystack.Lib.Substitution
import Haystack.Lib.Utf8
import Mathlib.Data.Bool.AllAny

/-!
# The text of the regular expressions

The regular expression of a clause is put together as text. A token without quotes goes through
fourteen replacements, one after the other, that put backslashes before special characters and a
bounded repetition for each star; a phrase goes through `regexp.QuoteMeta`. The compiler of the
library reads the text back. This module has the text, and the part of the reader that such texts
need; for a query in UTF-8 the two give the patterns of `Haystack.Engine.Query`.

A bar in a token is not among the replaced characters. It gets into a token through a quote that is
not at both ends of it, and then the token is a choice between two texts.
-/

namespace Haystack.ContentEngine

open List Bytes

variable (opts : Options) {c : UInt8} (n : ℕ)

/-! ### Writing -/

/-- `.{0,n}` -/
def gapText (n : ℕ) : Bytes :=
  Bytes.ofAscii ".\x7b0," ++ Decimal.natText n ++ Bytes.ofAscii "\x7d"

/-- The replacements that put a backslash before a character, for one character after the other. -/
def escapePasses (cs : Bytes) : List (UInt8 × Bytes) :=
  cs.map fun c => (c, [backslash, c])

/-- The replacements of `processToken` in their order. -/
def tokenPasses (n : ℕ) : List (UInt8 × Bytes) :=
  escapePasses (Bytes.ofAscii "\\.\x7b\x7d") ++ (star, gapText n) ::
    escapePasses (Bytes.ofAscii "?()[]^$:+")

/-- The characters with a meaning in regular expressions. -/
def isMeta (c : UInt8) : Bool :=
  (Bytes.ofAscii "\\.+*?()|[]\x7b\x7d^$").contains c

/-- `regexp.QuoteMeta` -/
def quoteMeta (s : Bytes) : Bytes :=
  s.flatMap fun c => if isMeta c then [backslash, c] else [c]

/-- The `regPattern` of the term that `processToken` makes of a token. -/
def termText (token : Bytes) : Option Bytes :=
  let token := trimSpace token
  if token = [] ∨ token = Bytes.ofAscii "AND" then none
  else if isQuotedPhrase token then some (quoteMeta (unescapeQuotes (unwrapQuotes token)))
  else some (Substitution.passes (tokenPasses opts.maxWildcardLength) token)

/-- The pattern of `finalizeOrClause`. -/
def clauseText (caseSensitive : Bool) (regPatterns : List Bytes) : Bytes :=
  let casePrefix := if caseSensitive then [] else Bytes.ofAscii "(?i)"
  let finalPatterns := regPatterns.map fun p =>
    if opts.wholeWord then Bytes.ofAscii "\\b" ++ p ++ Bytes.ofAscii "\\b" else p
  casePrefix ++ Bytes.ofAscii "(" ++
    (gapText opts.maxKeywordDistance).intercalate finalPatterns ++ Bytes.ofAscii ")"

/-! ### Reading -/

/-- What may follow a backslash and then stands for itself. -/
def isPunctuation (c : UInt8) : Bool :=
  c < 128 && !Tokenizer.isAlnum c

/-- The rest of a repetition `.{0,n}`. -/
def readGap (s : Bytes) : Option (Atom × Bytes) :=
  let digits := (s.drop 3).takeWhile Decimal.isDigit
  let rest := (s.drop 3).dropWhile Decimal.isDigit
  if s.take 3 = Bytes.ofAscii "\x7b0," ∧ rest.head? = some 125 then
    (Decimal.parseDigits digits).map fun n => (.gap n, rest.tail)
  else none

/-- The part of a regular expression that comes next, as far as patterns of queries need it. The
bytes of a character outside of ASCII stand for themselves one after the other. -/
def readAtom : Bytes → Option (Atom × Bytes)
  | [] => none
  | c :: s =>
    if c = backslash then
      match s with
      | [] => none
      | d :: s =>
        if d = 98 then some (.wordBoundary, s)
        else if isPunctuation d then some (.lit d, s) else none
    else if c = 46 then readGap s
    else if c = InvertedIndex.bar then some (.alternative, s)
    else if isMeta c then none
    else some (.lit c, s)

/-- The parts up to the closing parenthesis, which is the end of the pattern. -/
def readAtoms : ℕ → Bytes → Option (List Atom)
  | 0, _ => none
  | fuel + 1, s =>
    if s = Bytes.ofAscii ")" then some []
    else (readAtom s).bind fun a => (readAtoms fuel a.2).map (a.1 :: ·)

/-- A group, after `(?i)` or not. -/
def readPattern (s : Bytes) : Option (Bool × List Atom) :=
  let fold := s.take 4 = Bytes.ofAscii "(?i)"
  let group := if fold then s.drop 4 else s
  if group.head? = some 40 then (readAtoms group.length group.tail).map fun atoms => (fold, atoms)
  else none

/-- `regexp.Compile`: a pattern that is not UTF-8 is refused. -/
def regexpCompile (s : Bytes) : Option Regex :=
  if Utf8.Valid s then (readPattern s).bind fun p => Regex.compile p.1 p.2 else none

/-! ### The passes are one substitution -/

/-- What a byte of a token becomes. -/
def tokenByte (n : ℕ) (c : UInt8) : Bytes :=
  if c = star then gapText n
  else if c ≠ InvertedIndex.bar ∧ (isMeta c ∨ c = 58) then [backslash, c]
  else [c]

lemma mem_gapText {n : ℕ} (h : c ∈ gapText n) :
    c ∈ Bytes.ofAscii ".\x7b,\x7d" ∨ Decimal.isDigit c := by
  have hends : ∀ c ∈ ofAscii ".\x7b0," ++ ofAscii "\x7d",
      c ∈ ofAscii ".\x7b,\x7d" ∨ Decimal.isDigit c :=
    all_iff_forall_prop.1 (by decide)
  rw [gapText, mem_append, mem_append] at h
  obtain (h | h) | h := h
  · exact hends c (mem_append_left _ h)
  · exact .inr (Decimal.isDigit_of_mem_natText h)
  · exact hends c (mem_append_right _ h)

lemma lookup_escapePasses (cs : Bytes) (c : UInt8) :
    (escapePasses cs).lookup c = if c ∈ cs then some [backslash, c] else none := by
  induction cs with
  | nil => rfl
  | cons d cs ih =>
    change lookup c ((d, [backslash, d]) :: escapePasses cs) = _
    rw [lookup_cons, ih]
    by_cases hc : c = d
    · simp [hc]
    · simp [hc, beq_eq_false_iff_ne.2 hc]

lemma pairwise_tokenPasses : (tokenPasses n).Pairwise fun p q => q.1 ∉ p.2 := by
  have hlater : ∀ q ∈ escapePasses (ofAscii "?()[]^$:+"),
      q.1 ∉ ofAscii ".\x7b,\x7d" ∧ Decimal.isDigit q.1 = false ∧
        ∀ p ∈ escapePasses (ofAscii "\\.\x7b\x7d"), q.1 ∉ p.2 := by
    decide
  have hstar : ∀ p ∈ escapePasses (ofAscii "\\.\x7b\x7d"), star ∉ p.2 := by
    decide
  rw [tokenPasses, pairwise_append, pairwise_cons]
  refine ⟨by decide, ⟨?_, by decide⟩, ?_⟩
  · -- no later pass touches the repetition that stands for a star
    intro q hq hmem
    obtain h | h := mem_gapText hmem
    · exact (hlater q hq).1 h
    · exact Bool.false_ne_true ((hlater q hq).2.1.symm.trans h)
  · intro p hp q hq
    obtain rfl | hq := mem_cons.1 hq
    · exact hstar p hp
    · exact (hlater q hq).2.2 p hp

lemma escaped_iff (hc : c ≠ star) :
    c ∈ Bytes.ofAscii "\\.\x7b\x7d" ∨ c ∈ Bytes.ofAscii "?()[]^$:+" ↔
      c ≠ InvertedIndex.bar ∧ (isMeta c ∨ c = 58) := by
  have hfirst : ∀ c ∈ ofAscii "\\.\x7b\x7d" ++ ofAscii "?()[]^$:+",
      c ≠ InvertedIndex.bar ∧ (isMeta c ∨ c = 58) := all_iff_forall_prop.1 (by decide)
  have hmeta : ∀ c ∈ ofAscii "\\.+*?()|[]\x7b\x7d^$", c ≠ star → c ≠ InvertedIndex.bar →
      c ∈ ofAscii "\\.\x7b\x7d" ∨ c ∈ ofAscii "?()[]^$:+" :=
    all_iff_forall_prop.1 (by decide)
  constructor
  · intro h
    exact hfirst c (mem_append.2 h)
  · rintro ⟨hbar, h | rfl⟩
    · exact hmeta c (contains_iff_mem.1 h) hc hbar
    · decide

lemma tokenPasses_lookup (c : UInt8) : ((tokenPasses n).lookup c).getD [c] = tokenByte n c := by
  rw [tokenPasses, lookup_append, lookup_cons, lookup_escapePasses, lookup_escapePasses]
  by_cases hc : c = star
  · rw [hc]
    rfl
  · have h := escaped_iff hc
    rw [tokenByte, if_neg hc, beq_eq_false_iff_ne.2 hc]
    by_cases hmem : c ∈ ofAscii "\\.\x7b\x7d"
    · rw [if_pos hmem, if_pos (h.1 (.inl hmem))]
      rfl
    · rw [if_neg hmem]
      by_cases hmem' : c ∈ ofAscii "?()[]^$:+"
      · rw [if_pos (h.1 (.inr hmem'))]
        simp [hmem']
      · rw [if_neg fun h' => (h.2 h').elim hmem hmem']
        simp [hmem']

/-- The passes for a token together. -/
theorem passes_tokenPasses (token : Bytes) :
    Substitution.passes (tokenPasses n) token = token.flatMap (tokenByte n) := by
  rw [Substitution.passes_eq_flatMap (pairwise_tokenPasses n)]
  exact flatMap_congr fun c _ => tokenPasses_lookup n c

/-! ### Reading back what was written -/

/-- The reader finds the parts in the text and goes on behind it. -/
structure Spells (text : Bytes) (atoms : List Atom) : Prop where
  length_le : atoms.length ≤ text.length
  read : ∀ fuel rest,
    readAtoms (atoms.length + fuel) (text ++ rest) = (readAtoms fuel rest).map (atoms ++ ·)

namespace Spells

variable {text text' : Bytes} {atoms atoms' : List Atom}

lemma nil : Spells [] [] where
  length_le := le_rfl
  read fuel rest := by simp

lemma append (h : Spells text atoms) (h' : Spells text' atoms') :
    Spells (text ++ text') (atoms ++ atoms') where
  length_le := by
    rw [length_append, length_append]
    exact Nat.add_le_add h.length_le h'.length_le
  read fuel rest := by
    rw [length_append, Nat.add_assoc, append_assoc, h.read, h'.read, Option.map_map]
    simp only [Function.comp_def, append_assoc]

/-- A text that is read as one part. -/
lemma singleton {a : Atom} (h : ∀ rest, readAtom (text ++ rest) = some (a, rest)) :
    Spells text [a] where
  length_le := by
    cases text with
    | nil => exact absurd (h []) (by simp [readAtom])
    | cons c text => simp
  read fuel rest := by
    have hend : text ++ rest ≠ ofAscii ")" := by
      intro hend
      have hread := h rest
      rw [hend] at hread
      exact absurd hread (by simp [show readAtom (ofAscii ")") = none from by decide])
    rw [length_singleton, Nat.add_comm, readAtoms, if_neg hend, h]
    rfl

lemma flatMap {f : UInt8 → Bytes} {g : UInt8 → Atom} (h : ∀ c, Spells (f c) [g c]) (s : Bytes) :
    Spells (s.flatMap f) (s.map g) := by
  induction s with
  | nil => exact nil
  | cons c s ih => exact (h c).append ih

lemma intercalate {texts : List Bytes} {parts : List (List Atom)} (hsep : Spells text atoms)
    (h : List.Forall₂ Spells texts parts) :
    Spells (text.intercalate texts) (atoms.intercalate parts) := by
  induction h with
  | nil => exact nil
  | @cons t a texts parts hhead htail ih =>
    cases htail with
    | nil => simpa using hhead
    | @cons t' a' texts parts hhead' htail =>
      rw [intercalate_cons_cons, intercalate_cons_cons]
      exact (hhead.append hsep).append ih

/-- The text in parentheses is read to its end. -/
lemma readAtoms_append (h : Spells text atoms) {fuel : ℕ} (hfuel : text.length < fuel) :
    readAtoms fuel (text ++ Bytes.ofAscii ")") = some atoms := by
  obtain ⟨k, rfl⟩ : ∃ k, fuel = atoms.length + (k + 1) :=
    ⟨fuel - atoms.length - 1, by have := h.length_le; omega⟩
  rw [h.read, readAtoms, if_pos rfl]
  simp

/-- Nothing that the reader accepts starts with a question mark. -/
lemma head?_append (h : Spells text atoms) : (text ++ Bytes.ofAscii ")").head? ≠ some 63 := by
  intro hhead
  have hread := h.readAtoms_append (Nat.lt_succ_self _)
  cases htext : text ++ ofAscii ")" with
  | nil => simp [htext] at hhead
  | cons c s =>
    rw [htext, head?_cons, Option.some_inj] at hhead
    rw [htext, hhead, readAtoms, if_neg (by simp [ofAscii]),
      show readAtom (63 :: s) = none from rfl] at hread
    exact absurd hread (by simp)

/-- The whole pattern is read to its end. -/
lemma readPattern_eq (h : Spells text atoms) (caseSensitive : Bool) :
    readPattern ((if caseSensitive then [] else Bytes.ofAscii "(?i)") ++ Bytes.ofAscii "(" ++
      text ++ Bytes.ofAscii ")") = some (!caseSensitive, atoms) := by
  set group := 40 :: (text ++ ofAscii ")") with hgroup
  have hread : readAtoms group.length group.tail = some atoms :=
    h.readAtoms_append (by simp [hgroup])
  cases caseSensitive with
  | false =>
    change readPattern (ofAscii "(?i)" ++ group) = _
    rw [readPattern, show (ofAscii "(?i)" ++ group).take 4 = ofAscii "(?i)" from rfl,
      show (ofAscii "(?i)" ++ group).drop 4 = group from rfl, if_pos rfl, if_pos (by rfl),
      hread]
    rfl
  | true =>
    change readPattern group = _
    have hfold : group.take 4 ≠ ofAscii "(?i)" := by
      intro hfold
      have hhead : (group.take 4).tail.head? = some 63 := by rw [hfold]; rfl
      refine h.head?_append ?_
      simpa [hgroup, take_cons, head?_take] using hhead
    rw [readPattern, if_neg hfold, if_pos (by rfl), hread]
    simp [hfold]

end Spells

lemma readGap_append (rest : Bytes) :
    readGap (Bytes.ofAscii "\x7b0," ++ (Decimal.natText n ++ 125 :: rest)) =
      some (.gap n, rest) := by
  have hdigits : ∀ c ∈ Decimal.natText n, Decimal.isDigit c = true := fun _ =>
    Decimal.isDigit_of_mem_natText
  have hstop : Decimal.isDigit 125 = false := by decide
  have hdrop : (ofAscii "\x7b0," ++ (Decimal.natText n ++ 125 :: rest)).drop 3 =
      Decimal.natText n ++ 125 :: rest := rfl
  have htake : (ofAscii "\x7b0," ++ (Decimal.natText n ++ 125 :: rest)).take 3 =
      ofAscii "\x7b0," := rfl
  simp only [readGap, hdrop, htake, takeWhile_append_of_pos hdigits,
    dropWhile_append_of_pos hdigits]
  simp [hstop]

lemma spells_gapText : Spells (gapText n) [.gap n] := by
  refine Spells.singleton fun rest => ?_
  rw [← readGap_append n rest]
  simp only [gapText, append_assoc]
  rfl

lemma readAtom_of_not_isMeta (hc : isMeta c = false) (rest : Bytes) :
    readAtom (c :: rest) = some (.lit c, rest) := by
  have hne : ∀ d, isMeta d = true → c ≠ d := by
    rintro d hd rfl
    exact Bool.false_ne_true (hc.symm.trans hd)
  simp only [readAtom]
  rw [if_neg (hne backslash (by decide)), if_neg (hne 46 (by decide)),
    if_neg (hne InvertedIndex.bar (by decide)), if_neg (by simp [hc])]

lemma readAtom_escaped (hc : isMeta c ∨ c = 58) (rest : Bytes) :
    readAtom (backslash :: c :: rest) = some (.lit c, rest) := by
  have hpunct : ∀ d ∈ 58 :: ofAscii "\\.+*?()|[]\x7b\x7d^$", d ≠ 98 ∧ isPunctuation d :=
    all_iff_forall_prop.1 (by decide)
  have hmem : c ∈ 58 :: ofAscii "\\.+*?()|[]\x7b\x7d^$" := by
    obtain h | rfl := hc
    · exact mem_cons_of_mem _ (contains_iff_mem.1 h)
    · exact mem_cons_self
  simp only [readAtom, if_true]
  rw [if_neg (hpunct c hmem).1, if_pos (hpunct c hmem).2]

lemma spells_quoteMeta (s : Bytes) : Spells (quoteMeta s) (s.map .lit) := by
  refine Spells.flatMap (fun c => Spells.singleton fun rest => ?_) s
  split
  case isTrue h => exact readAtom_escaped (.inl h) rest
  case isFalse h => exact readAtom_of_not_isMeta (Bool.eq_false_iff.2 h) rest

/-- The passes for a token spell its pattern. -/
lemma spells_regPattern (token : Bytes) :
    Spells (token.flatMap (tokenByte opts.maxWildcardLength)) (regPattern opts token) := by
  refine Spells.flatMap (fun c => ?_) token
  rw [tokenByte]
  split_ifs with hstar hescape hbar hbar
  · exact spells_gapText _
  · exact absurd hbar hescape.1
  · exact Spells.singleton fun rest => readAtom_escaped hescape.2 rest
  · rw [hbar]
    exact Spells.singleton fun rest => rfl
  · refine Spells.singleton fun rest => readAtom_of_not_isMeta ?_ rest
    by_contra h
    exact hescape ⟨hbar, .inl (Bool.eq_true_of_not_eq_false h)⟩

/-- A term of the atom model has the pattern that its text spells. -/
lemma processToken_spells (tok : SearchTokenizer) (token : Bytes) :
    Option.Rel (fun text t => Spells text t.regPattern) (termText opts token)
      (processToken tok opts token) := by
  simp only [termText, processToken]
  split_ifs
  · exact .none
  · exact .some (spells_quoteMeta _)
  · refine .some ?_
    rw [passes_tokenPasses]
    exact spells_regPattern opts _

lemma spells_wordBoundary : Spells (Bytes.ofAscii "\\b") [.wordBoundary] :=
  Spells.singleton fun _ => rfl

/-- The text of a clause is read as its pattern. -/
theorem readPattern_clauseText {texts : List Bytes} {terms : List Term}
    (h : List.Forall₂ (fun text t => Spells text t.regPattern) texts terms) (caseSensitive : Bool) :
    readPattern (clauseText opts caseSensitive texts) =
      some (!caseSensitive, clausePattern opts terms) := by
  refine Spells.readPattern_eq (Spells.intercalate (spells_gapText _) ?_) caseSensitive
  rw [forall₂_map_left_iff, forall₂_map_right_iff]
  refine h.imp fun text t ht => ?_
  split_ifs
  · rw [append_assoc]
    exact spells_wordBoundary.append (ht.append spells_wordBoundary)
  · exact ht

end Haystack.ContentEngine
