import Haystack.Lib.Regex
import Haystack.Tokenizer.Ascii

/-!
# The grammar of the tokens

The scanner replaces a backtracking matcher for a regular expression. A dotted part has only one
length, whichever alternative matches it, so that a sequence of parts can only fail by its end; and
a part that is given back always starts with what a last part may be.
-/

namespace Haystack.Tokenizer

open Regex Option

/-- `[0-9]{1,8}\.|[a-zA-Z0-9]{1,2}\.` -/
def reSegment : Regex UInt8 :=
  alt (cat ((sat isDigit).range 1 8) (sat (· == dot))) (cat ((sat isAlnum).range 1 2) (sat (· == dot)))

/-- `[0-9]{1,8}|[a-zA-Z0-9]{1,2}` -/
def reFinal : Regex UInt8 :=
  alt ((sat isDigit).range 1 8) ((sat isAlnum).range 1 2)

/-- `[a-zA-Z0-9][a-zA-Z0-9_]{1,78}[a-zA-Z0-9]` -/
def reIdentifier : Regex UInt8 :=
  cat (sat isAlnum) (cat ((sat isAlnumU).range 1 78) (sat isAlnum))

def reASCII : Regex UInt8 :=
  alt reIdentifier (cat (plus reSegment) reFinal)

/-- A length of the scanner, which has 0 for no match. -/
def positive (n : ℕ) : Option ℕ :=
  if n = 0 then none else some n

variable {β : Type*} {s : Bytes} {q : ℕ}

/-! ### Runs of a class -/

lemma digitRun_eq (s : Bytes) : digitRun s = min 8 (s.takeWhile isDigit).length := by
  rw [digitRun, ← List.take_takeWhile]
  exact List.length_take

/-- One or two letters and digits at the start. -/
lemma alnumRun_eq (s : Bytes) :
    min 2 (s.takeWhile isAlnum).length =
      if s.head?.any isAlnum then if s[1]?.any isAlnum then 2 else 1 else 0 := by
  match s with
  | [] => rfl
  | [c] => cases hc : isAlnum c <;> simp [hc]
  | c :: c' :: s =>
    cases hc : isAlnum c
    · simp [hc]
    · cases hc' : isAlnum c' <;> simp [hc, hc']

lemma isDot_of_isAlnum {c : UInt8} (h : isAlnum c = true) : (c == dot) = false := by
  by_contra hdot
  rw [Bool.not_eq_false, beq_iff_eq] at hdot
  exact absurd (hdot ▸ h) (by decide)

lemma any_dot_iff (o : Option UInt8) : o.any (· == dot) = true ↔ o = some dot := by
  cases o <;> simp

/-! ### Dotted parts -/

lemma findSome?_digits (f : ℕ → Option β) :
    ((cat ((sat isDigit).range 1 8) (sat (· == dot))).ends s).findSome? f =
      if 0 < digitRun s ∧ s[digitRun s]? = some dot then f (digitRun s + 1) else none := by
  have h := findSome?_ends_range_one_sat (s := s) (p := isDigit) (q := (· == dot))
    (fun c hc => isDot_of_isAlnum (isAlnum_of_isDigit hc)) 7 f
  rw [h, ← digitRun_eq]
  simp only [any_dot_iff, Nat.pos_iff_ne_zero, ite_not, ite_and]

lemma findSome?_alnums (f : ℕ → Option β) :
    ((cat ((sat isAlnum).range 1 2) (sat (· == dot))).ends s).findSome? f =
      if s.head?.any isAlnum then
        if s[1]?.any isAlnum ∧ s[2]? = some dot then f 3
        else if s[1]? = some dot then f 2 else none
      else none := by
  have h := findSome?_ends_range_one_sat (s := s) (p := isAlnum) (q := (· == dot))
    (fun c hc => isDot_of_isAlnum hc) 1 f
  rw [h, alnumRun_eq]
  simp only [any_dot_iff]
  by_cases hhead : s.head?.any isAlnum
  · by_cases hone : s[1]?.any isAlnum
    · have hdot : s[1]? ≠ some dot := by
        intro hdot
        rw [hdot] at hone
        exact absurd hone (by decide)
      simp [hhead, hone, hdot]
    · simp [hhead, hone]
  · simp [hhead]

/-- A dotted part of digits has the same length as one of letters and digits. -/
lemma findSome?_alnums_of_digits (hrun : 0 < digitRun s) (hdot : s[digitRun s]? = some dot)
    (f : ℕ → Option β) :
    ((cat ((sat isAlnum).range 1 2) (sat (· == dot))).ends s).findSome? f = none ∨
      ((cat ((sat isAlnum).range 1 2) (sat (· == dot))).ends s).findSome? f =
        f (digitRun s + 1) := by
  have hdigit : ∀ k, k < digitRun s → s[k]?.any isAlnum = true := by
    intro k hk
    rw [digitRun_eq] at hk
    have h := any_getElem?_of_lt_run (s := s) (p := isDigit) (k := k) (by omega)
    rw [any_eq_true] at h ⊢
    obtain ⟨c, hc, hdigit⟩ := h
    exact ⟨c, hc, isAlnum_of_isDigit hdigit⟩
  have hne : ∀ k, k < digitRun s → s[k]? ≠ some dot := by
    intro k hk hdot
    have h := hdigit k hk
    rw [hdot] at h
    exact absurd h (by decide)
  rw [findSome?_alnums, List.head?_eq_getElem?, hdigit 0 hrun, if_pos rfl]
  rcases lt_trichotomy (digitRun s) 2 with hlt | htwo | hgt
  · have hone : digitRun s = 1 := by omega
    rw [hone] at hdot ⊢
    simp [hdot, show isAlnum dot = false from rfl]
  · rw [htwo] at hdot ⊢
    simp [hdigit 1 (by omega), hdot]
  · simp [hne 1 (by omega), hne 2 hgt]

/-- A dotted part has one length. -/
lemma findSome?_reSegment (f : ℕ → Option β) :
    (reSegment.ends s).findSome? f =
      if scanSegment s = 0 then none else f (scanSegment s) := by
  rw [reSegment, findSome?_ends_alt, findSome?_digits, scanSegment]
  by_cases hdigits : 0 < digitRun s ∧ s[digitRun s]? = some dot
  · rw [if_pos hdigits, if_pos hdigits, if_neg (Nat.succ_ne_zero _)]
    rcases findSome?_alnums_of_digits hdigits.1 hdigits.2 f with h | h
    · rw [h, Option.or_none]
    · rw [h, Option.or_self]
  · rw [if_neg hdigits, if_neg hdigits, none_or, findSome?_alnums]
    split
    · split
      · rfl
      · split <;> rfl
    · rfl

/-! ### Last parts -/

lemma findSome?_down (n : ℕ) : (down n).findSome? some = positive n := by
  cases n <;> rfl

lemma digitRun_pos_iff (s : Bytes) : 0 < digitRun s ↔ s.head?.any isDigit = true := by
  cases s with
  | nil => exact iff_of_false (Nat.lt_irrefl 0) Bool.false_ne_true
  | cons c s => cases hc : isDigit c <;> simp [digitRun, hc]

lemma any_isAlnum_of_isDigit {o : Option UInt8} (h : o.any isDigit = true) :
    o.any isAlnum = true := by
  rw [any_eq_true] at h ⊢
  obtain ⟨c, hc, h⟩ := h
  exact ⟨c, hc, isAlnum_of_isDigit h⟩

lemma first_reFinal (s : Bytes) : reFinal.first s = positive (scanFinal s) := by
  have hdigits := ends_range_one_sat isDigit 7 s
  have halnums := ends_range_one_sat isAlnum 1 s
  rw [first_eq, reFinal, findSome?_ends_alt, hdigits, halnums, ← digitRun_eq, alnumRun_eq,
    findSome?_down, findSome?_down, scanFinal]
  by_cases hhead : s.head?.any isDigit = true
  · have hrun := (digitRun_pos_iff s).2 hhead
    rw [if_pos hhead, positive, if_neg hrun.ne', some_or]
  · have hrun : digitRun s = 0 := Nat.eq_zero_of_not_pos (mt (digitRun_pos_iff s).1 hhead)
    rw [if_neg hhead, hrun]
    rfl

lemma scanFinal_pos_iff (s : Bytes) : 0 < scanFinal s ↔ s.head?.any isAlnum = true := by
  rw [scanFinal]
  by_cases hdigit : s.head?.any isDigit = true
  · rw [if_pos hdigit]
    exact iff_of_true ((digitRun_pos_iff s).2 hdigit) (any_isAlnum_of_isDigit hdigit)
  · rw [if_neg hdigit]
    cases hhead : s.head?.any isAlnum with
    | false => simp
    | true => cases h : s[1]?.any isAlnum <;> simp

/-- Where a dotted part matches, so does a last part. -/
lemma scanFinal_pos_of_scanSegment (h : scanSegment s ≠ 0) : 0 < scanFinal s := by
  rw [scanFinal_pos_iff]
  by_contra halnum
  have hrun : ¬ 0 < digitRun s :=
    fun hrun => halnum (any_isAlnum_of_isDigit ((digitRun_pos_iff s).1 hrun))
  exact h (by rw [scanSegment, if_neg fun hd => hrun hd.1, if_neg halnum])

/-! ### Chains of parts -/

lemma mem_reSegment {n : ℕ} (h : n ∈ reSegment.ends s) : n = scanSegment s := by
  by_contra hne
  have hfind := findSome?_reSegment (s := s) fun k => if k = scanSegment s then none else some k
  have hnone : (reSegment.ends s).findSome?
      (fun k => if k = scanSegment s then none else some k) = none := by
    rw [hfind]
    simp
  rw [List.findSome?_eq_none_iff] at hnone
  simpa [hne] using hnone n h

lemma reSegment_ends_eq_nil (h : scanSegment s = 0) : reSegment.ends s = [] := by
  have hfind := findSome?_reSegment (s := s) some
  rw [if_pos h] at hfind
  cases hends : reSegment.ends s with
  | nil => rfl
  | cons n ns => simp [hends] at hfind

lemma scanSegments_of_eq_zero (h : scanSegment (s.drop q) = 0) (fuel : ℕ) (last : Option ℕ) :
    scanSegments s fuel q last = (q, last) := by
  cases fuel with
  | zero => rfl
  | succ fuel => rw [scanSegments, if_pos h]

lemma lt_length_of_scanSegment (h : scanSegment (s.drop q) ≠ 0) : q < s.length := by
  by_contra hle
  rw [List.drop_of_length_le (by omega)] at h
  exact h rfl

/-- A chain has a last dotted part. -/
lemma exists_last_scanSegments (fuel : ℕ) (hfuel : s.length ≤ q + fuel)
    (h : scanSegment (s.drop q) ≠ 0) (last : Option ℕ) :
    ∃ l, (scanSegments s fuel q last).2 = some l ∧ q ≤ l ∧ scanSegment (s.drop l) ≠ 0 := by
  induction fuel generalizing q last with
  | zero => exact absurd (lt_length_of_scanSegment h) (by omega)
  | succ fuel ih =>
    rw [scanSegments, if_neg h]
    by_cases hnext : scanSegment (s.drop (q + scanSegment (s.drop q))) = 0
    · rw [scanSegments_of_eq_zero hnext]
      exact ⟨q, rfl, le_rfl, h⟩
    · obtain ⟨l, hl, hle, hseg⟩ := ih (by omega) hnext (some q)
      exact ⟨l, hl, by omega, hseg⟩

/-- The repetition of the parts from `q` on is left at its end or, if that fails, at the start of
its last part. -/
lemma findSome?_starEnds_reSegment {f : ℕ → Option β}
    (hf : ∀ q, scanSegment (s.drop q) ≠ 0 → (f q).isSome) (fuel rounds q : ℕ) (last : Option ℕ)
    (hfuel : s.length ≤ q + fuel) (hrounds : s.length ≤ q + rounds) :
    ((starEnds reSegment.ends rounds (s.drop q)).findSome? fun n => f (q + n)) =
      if scanSegment (s.drop q) = 0 then f q
      else (f (scanSegments s fuel q last).1).or ((scanSegments s fuel q last).2.bind f) := by
  induction fuel generalizing rounds q last with
  | zero =>
    have hzero : scanSegment (s.drop q) = 0 :=
      by_contra fun h => absurd (lt_length_of_scanSegment h) (by omega)
    rw [if_pos hzero, findSome?_starEnds_nil (reSegment_ends_eq_nil hzero), Nat.add_zero]
  | succ fuel ih =>
    by_cases hzero : scanSegment (s.drop q) = 0
    · rw [if_pos hzero, findSome?_starEnds_nil (reSegment_ends_eq_nil hzero), Nat.add_zero]
    · have hlt := lt_length_of_scanSegment hzero
      obtain ⟨rounds, rfl⟩ : ∃ r, rounds = r + 1 := ⟨rounds - 1, by omega⟩
      have hround := findSome?_starEnds_succ (Nat.pos_of_ne_zero hzero)
        (fun g => (findSome?_reSegment g).trans (if_neg hzero)) (fun k hk => mem_reSegment hk)
        rounds fun n => f (q + n)
      have hnext := ih rounds (q + scanSegment (s.drop q)) (some q) (by omega) (by omega)
      simp only [Nat.add_assoc] at hnext
      rw [hround, List.drop_drop, hnext, if_neg hzero, scanSegments, if_neg hzero, Nat.add_zero]
      split
      case isTrue hlast =>
        rw [scanSegments_of_eq_zero hlast]
        rfl
      case isFalse hmore =>
        -- the start of the last part is a match, so that no earlier one is tried
        obtain ⟨l, hl, -, hseg⟩ := exists_last_scanSegments fuel (by omega) hmore (some q)
        rw [hl, bind_some]
        obtain ⟨v, hv⟩ := isSome_iff_exists.1 (hf l hseg)
        rw [hv]
        cases f (scanSegments s fuel (q + scanSegment (s.drop q)) (some q)).1 <;> rfl

/-- A chain that ends after `q` bytes and a last part. -/
def finish (s : Bytes) (q : ℕ) : Option ℕ :=
  (positive (scanFinal (s.drop q))).map (q + ·)

lemma finish_eq (s : Bytes) (q : ℕ) :
    finish s q = positive (if 0 < scanFinal (s.drop q) then q + scanFinal (s.drop q) else 0) := by
  rw [finish]
  by_cases h : 0 < scanFinal (s.drop q)
  · rw [if_pos h, positive, positive, if_neg h.ne', if_neg (by omega), map_some]
  · rw [if_neg h, Nat.eq_zero_of_not_pos h]
    rfl

lemma findSome?_reFinal (s : Bytes) (q : ℕ) :
    ((reFinal.ends (s.drop q)).findSome? fun k => some (q + k)) = finish s q := by
  rw [finish, ← first_reFinal, first]
  cases reFinal.ends (s.drop q) <;> rfl

lemma first_chain (s : Bytes) : (cat (plus reSegment) reFinal).first s = positive (scanAlt2 s) := by
  rw [first_eq, findSome?_ends_cat]
  simp only [findSome?_reFinal]
  rw [plus, findSome?_ends_cat, findSome?_reSegment, scanAlt2]
  by_cases hzero : scanSegment s = 0
  · rw [if_pos hzero, scanSegments_of_eq_zero (q := 0) hzero]
    rfl
  · have hlt : 0 < s.length := lt_length_of_scanSegment (q := 0) hzero
    obtain ⟨fuel, hfuel⟩ : ∃ n, s.length = n + 1 := ⟨s.length - 1, by omega⟩
    have hf : ∀ q, scanSegment (s.drop q) ≠ 0 → (finish s q).isSome := by
      intro q hq
      rw [finish, positive, if_neg (scanFinal_pos_of_scanSegment hq).ne']
      rfl
    have hchain := findSome?_starEnds_reSegment hf fuel (s.drop (scanSegment s)).length
      (scanSegment s) (some 0) (by omega) (by rw [List.length_drop]; omega)
    rw [if_neg hzero, ends, hchain, hfuel, scanSegments, List.drop_zero, if_neg hzero, Nat.zero_add]
    by_cases hone : scanSegment (s.drop (scanSegment s)) = 0
    · rw [if_pos hone, scanSegments_of_eq_zero hone, finish_eq]
      simp
    · obtain ⟨l, hl, hle, hseg⟩ := exists_last_scanSegments fuel (by omega) hone (some 0)
      have hpos : 0 < l ∧ 0 < scanFinal (s.drop l) :=
        ⟨by omega, scanFinal_pos_of_scanSegment hseg⟩
      rw [if_neg hone, hl, bind_some, finish_eq, finish_eq]
      simp only [hl, if_pos hpos, if_pos hpos.2]
      split
      case isTrue h => rw [positive, if_neg (by omega), some_or]
      case isFalse => rfl

/-! ### Identifiers -/

/-- Going back over a run finds what the matcher finds by giving back elements. -/
lemma findSome?_down_backToAlnum (s : Bytes) (n : ℕ) :
    ((down n).findSome? fun k => if s[k + 1]?.any isAlnum then some (k + 2) else none) =
      positive (backToAlnum s (n + 2)) := by
  induction n with
  | zero => rfl
  | succ n ih =>
    have hback : backToAlnum s (n + 1 + 2) =
        if s[n + 1 + 1]?.any isAlnum then n + 1 + 2 else backToAlnum s (n + 2) := by
      rw [backToAlnum, if_neg (by omega)]
    rw [down, List.findSome?_cons, hback]
    by_cases h : s[n + 1 + 1]?.any isAlnum = true
    · rw [if_pos h, if_pos h]
      rfl
    · rw [if_neg h, if_neg h]
      exact ih

/-- The byte after a run ends it, so that giving back starts there. -/
lemma findSome?_down_run (c : UInt8) (s : Bytes) :
    ((down (min 78 (s.takeWhile isAlnumU).length)).findSome? fun k =>
        if (c :: s)[k + 1]?.any isAlnum then some (k + 2) else none) =
      positive (backToAlnum (c :: s) (min ((s.takeWhile isAlnumU).length + 1) 80)) := by
  have hend : ¬ (c :: s)[(s.takeWhile isAlnumU).length + 1]?.any isAlnum = true := by
    intro h
    have hrun := any_getElem?_run isAlnumU s
    rw [List.getElem?_cons_succ, any_eq_true] at h
    obtain ⟨c', hc', halnum⟩ := h
    rw [hc', any_some, isAlnumU_of_isAlnum halnum] at hrun
    cases hrun
  rcases Nat.lt_or_ge 78 (s.takeWhile isAlnumU).length with hlong | hshort
  · rw [Nat.min_eq_left hlong.le, Nat.min_eq_right (by omega), findSome?_down_backToAlnum]
  · rw [Nat.min_eq_right hshort, Nat.min_eq_left (by omega)]
    cases hlen : (s.takeWhile isAlnumU).length with
    | zero => rfl
    | succ n =>
      rw [hlen] at hend
      rw [down, List.findSome?_cons, if_neg hend]
      exact findSome?_down_backToAlnum (c :: s) n

lemma first_reIdentifier (s : Bytes) : reIdentifier.first s = positive (scanAlt1 s) := by
  rw [first_eq, reIdentifier, findSome?_ends_cat, findSome?_ends_sat, scanAlt1]
  by_cases hhead : s.head?.any isAlnum = true
  · obtain ⟨c, hc, halnum⟩ := (any_eq_true ..).1 hhead
    obtain ⟨rest, rfl⟩ := List.head?_eq_some_iff.1 hc
    have hrange := ends_range_one_sat isAlnumU 77 rest
    rw [if_pos hhead, if_pos hhead, findSome?_ends_cat_sat, List.drop_one, List.tail_cons, hrange,
      List.takeWhile_cons_of_pos (isAlnumU_of_isAlnum halnum), List.length_cons,
      ← findSome?_down_run]
    simp only [List.getElem?_cons_succ, Nat.add_comm 1]
  · rw [if_neg hhead, if_neg hhead]
    rfl

lemma first_reASCII (s : Bytes) : reASCII.first s = positive (tokenLength s) := by
  rw [first_eq, reASCII, findSome?_ends_alt, ← first_eq, ← first_eq, first_reIdentifier,
    first_chain, tokenLength]
  by_cases h : 0 < scanAlt1 s
  · rw [if_pos h, positive, if_neg h.ne', some_or]
  · rw [if_neg h, Nat.eq_zero_of_not_pos h]
    rfl

/-! ### All matches -/

lemma scanTokens_eq (s : Bytes) (p skip : ℕ) : scanTokens p skip s = reASCII.findAllFrom p skip s := by
  induction s generalizing p skip with
  | nil => rw [scanTokens, findAllFrom]
  | cons c s ih =>
    cases skip with
    | succ skip => rw [scanTokens, findAllFrom, ih]
    | zero =>
      rw [scanTokens, findAllFrom, first_reASCII]
      cases h : tokenLength (c :: s) with
      | zero => exact ih (p + 1) 0
      | succ n => exact congrArg (_ :: ·) (ih (p + 1) n)

/-- The tokens are the successive leftmost matches of the expression, which are not empty. -/
theorem findASCIITokens_eq_findAll (s : Bytes) :
    findASCIITokenSpans s = reASCII.findAll s ∧
      findASCIITokens s = (reASCII.findAll s).map Prod.snd ∧ ∀ t, reASCII.first t ≠ some 0 := by
  have hspans : findASCIITokenSpans s = reASCII.findAll s := scanTokens_eq s 0 0
  refine ⟨hspans, by rw [findASCIITokens, hspans], fun t h => ?_⟩
  rw [first_reASCII, positive] at h
  split at h
  · cases h
  · rename_i hne
    exact hne (some.inj h)

end Haystack.Tokenizer
