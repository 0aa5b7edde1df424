import Haystack.Tokenizer.Ascii

/-!
# Identifiers in a text

An identifier that stands by itself is one token of the scanner, unless the scanner arrives at it in
the middle of a token. A token has only letters, digits, underscores and dots, so this needs such a
byte right before the identifier. Dropping prefixes takes no start of a word out of the index.
-/

namespace Haystack.Tokenizer

open List

/-! ### Bytes -/

/-- What a check of the 256 bytes shows. -/
lemma of_all_bytes {p : UInt8 → Bool} (h : (List.range 256).all (fun n => p (.ofNat n)) = true)
    (c : UInt8) : p c = true := by
  have hc := all_eq_true.1 h c.toNat (mem_range.2 (UInt8.toNat_lt c))
  rwa [UInt8.ofNat_toNat] at hc

lemma isAlnumU_toLower (c : UInt8) : isAlnumU (toLower c) = isAlnumU c :=
  eq_of_beq (of_all_bytes (p := fun c => isAlnumU (toLower c) == isAlnumU c) (by decide +kernel) c)

lemma isStrippedControl_of_isAlnumU {c : UInt8} (h : isAlnumU c) :
    isStrippedControl c = false := by
  have hc := of_all_bytes (p := fun c => !(isAlnumU c && isStrippedControl c)) (by decide +kernel) c
  simpa [h] using hc

/-! ### Identifiers -/

/-- Letters, digits and underscores, of which the first and the last one are no underscores. -/
structure Identifier (w : Bytes) : Prop where
  bytes : ∀ c ∈ w, isAlnumU c
  head : w.head?.any isAlnum
  last : w.getLast?.any isAlnum
  length_ge : 3 ≤ w.length
  length_le : w.length ≤ 80

instance (w : Bytes) : Decidable (Identifier w) :=
  decidable_of_iff (w.all isAlnumU = true ∧ w.head?.any isAlnum = true ∧
      w.getLast?.any isAlnum = true ∧ 3 ≤ w.length ∧ w.length ≤ 80)
    ⟨fun h => ⟨List.all_eq_true.1 h.1, h.2.1, h.2.2.1, h.2.2.2.1, h.2.2.2.2⟩, fun h =>
      ⟨List.all_eq_true.2 h.bytes, h.head, h.last, h.length_ge, h.length_le⟩⟩

namespace Identifier

variable {w w' : Bytes}

lemma ne_nil (h : Identifier w) : w ≠ [] := by
  rintro rfl
  exact absurd h.length_ge (by decide)

lemma normalizeForSegmentation_eq (h : Identifier w) : normalizeForSegmentation w = w :=
  filter_eq_self.2 fun c hc => by simp [isStrippedControl_of_isAlnumU (h.bytes c hc)]

end Identifier

/-! ### Where the scanner begins a token -/

lemma Identifier.tokenLength_append {w rest : Bytes} (h : Identifier w)
    (hrest : ∀ c ∈ rest.head?, isAlnumU c = false) : tokenLength (w ++ rest) = w.length := by
  have hrun : (w ++ rest).takeWhile isAlnumU = w := by
    rw [takeWhile_append_of_pos h.bytes]
    cases rest with
    | nil => simp
    | cons c rest =>
      rw [takeWhile_cons_of_neg (by simp [hrest c rfl]), append_nil]
  have hhead : (w ++ rest).head?.any isAlnum := by
    rw [head?_append_of_ne_nil _ h.ne_nil]
    exact h.head
  have hback : backToAlnum (w ++ rest) w.length = w.length := by
    have hlen := h.length_ge
    obtain ⟨n, hn⟩ : ∃ n, w.length = n + 1 := ⟨w.length - 1, by omega⟩
    have hlast : (w ++ rest)[n]? = w.getLast? := by
      rw [getElem?_append_left (by omega), getLast?_eq_getElem?, hn, Nat.add_sub_cancel]
    rw [hn, backToAlnum, if_neg (by omega), hlast, if_pos h.last]
  have halt : scanAlt1 (w ++ rest) = w.length := by
    rw [scanAlt1, if_pos hhead, hrun, min_eq_left h.length_le, hback]
  have hlen := h.length_ge
  rw [tokenLength, halt, if_pos (by omega)]

lemma scanTokens_of_length_le {s : Bytes} {p skip : ℕ} (h : s.length ≤ skip) :
    scanTokens p skip s = [] := by
  induction s generalizing p skip with
  | nil => simp [scanTokens]
  | cons c s ih =>
    cases skip with
    | zero => cases h
    | succ skip => exact ih (Nat.le_of_succ_le_succ h)

variable {w : Bytes}

lemma Identifier.findASCIITokenSpans_eq (h : Identifier w) : findASCIITokenSpans w = [(0, w)] := by
  have htok := @Identifier.tokenLength_append w [] h (by simp)
  rw [append_nil] at htok
  cases w with
  | nil => exact absurd rfl h.ne_nil
  | cons c w =>
    rw [length_cons] at htok
    rw [findASCIITokenSpans, scanTokens, htok]
    exact congrArg₂ _ (by simp) (scanTokens_of_length_le le_rfl)

/-- The keyword of an identifier is the identifier. -/
lemma Identifier.tokenizeForSearch_eq (h : Identifier w) :
    tokenizeForSearch w false = ([w], []) := by
  simp [tokenizeForSearch, h.normalizeForSegmentation_eq, h.findASCIITokenSpans_eq, searchWords,
    eraseDups_cons]

/-! ### Starts of index words -/

/-- Every word is the start of one that is kept. -/
lemma exists_mem_dropPrefixes {l : List Bytes} (h : w ∈ l) : ∃ w' ∈ dropPrefixes l, w <+: w' := by
  induction l generalizing w with
  | nil => cases h
  | cons a l ih =>
    cases l with
    | nil =>
      obtain rfl := mem_singleton.1 h
      exact ⟨w, by simp [dropPrefixes], prefix_rfl⟩
    | cons b l =>
      rw [dropPrefixes]
      obtain rfl | h := mem_cons.1 h
      · split
        case isTrue hpre =>
          obtain ⟨w', hw', hb⟩ := ih mem_cons_self
          exact ⟨w', hw', (List.isPrefixOf_iff_prefix.1 hpre).trans hb⟩
        case isFalse => exact ⟨w, mem_cons_self, prefix_rfl⟩
      · obtain ⟨w', hw', hpre⟩ := ih h
        refine ⟨w', ?_, hpre⟩
        split
        · exact hw'
        · exact mem_cons_of_mem _ hw'

lemma dropPrefixes_subset {l : List Bytes} (h : w ∈ dropPrefixes l) : w ∈ l := by
  induction l with
  | nil => cases h
  | cons a l ih =>
    cases l with
    | nil => exact h
    | cons b l =>
      rw [dropPrefixes] at h
      split at h
      · exact mem_cons_of_mem _ (ih h)
      · obtain rfl | h := mem_cons.1 h
        · exact mem_cons_self
        · exact mem_cons_of_mem _ (ih h)

/-- A part of at most 80 bytes of a token begins with `w`, without regard to case. -/
def Begins (s w : Bytes) : Prop :=
  ∃ token ∈ findASCIITokens (normalizeForSegmentation s), ∃ part ∈ camelSnakeSplit token,
    part.length ≤ 80 ∧ lower w <+: lower part

/-- The index has a word that starts with `w` exactly if a part of a token does. -/
theorem exists_prefix_tokenizeForIndex_iff {s w : Bytes} (hw : 3 ≤ w.length) :
    (∃ word ∈ tokenizeForIndex s, lower w <+: word) ↔ Begins s w := by
  have hsorted : ∀ word, word ∈ StableSort.sortBy id
      (indexWords (normalizeForSegmentation s)).dedup ↔
        word ∈ indexWords (normalizeForSegmentation s) := by
    intro word
    rw [StableSort.mem_sortBy, mem_dedup]
  have hwords : ∀ word, word ∈ indexWords (normalizeForSegmentation s) ↔
      ∃ token ∈ findASCIITokens (normalizeForSegmentation s), ∃ part ∈ camelSnakeSplit token,
        (3 ≤ part.length ∧ part.length ≤ 80) ∧ lower part = word := by
    simp only [indexWords, mem_map, mem_filter, mem_flatMap, Bool.and_eq_true,
      decide_eq_true_eq]
    aesop
  constructor
  · rintro ⟨word, hword, hpre⟩
    obtain ⟨token, htoken, part, hpart, hlen, rfl⟩ :=
      (hwords word).1 ((hsorted word).1 (dropPrefixes_subset hword))
    exact ⟨token, htoken, part, hpart, hlen.2, hpre⟩
  · rintro ⟨token, htoken, part, hpart, hlen, hpre⟩
    have hlen' : w.length ≤ part.length := by simpa [lower] using hpre.length_le
    have hmem := (hwords (lower part)).2 ⟨token, htoken, part, hpart, ⟨by omega, hlen⟩, rfl⟩
    obtain ⟨word, hword, hpart'⟩ := exists_mem_dropPrefixes ((hsorted _).2 hmem)
    exact ⟨word, hword, hpre.trans hpart'⟩

end Haystack.Tokenizer
