import Haystack.Lib.ListScan

/-!
# Regular expressions with priorities

A backtracking matcher tries the ways to match in an order: the first alternative before the second
one, one more repetition before none. `ends r s` lists the lengths of the starts of `s` that `r`
matches in the order in which they are tried, so that the match is the first of them. A repetition
does not go on after a round that has consumed nothing.
-/

inductive Regex (α : Type*)
  | eps
  | sat (p : α → Bool)
  | cat (r r' : Regex α)
  | alt (r r' : Regex α)
  | star (r : Regex α)

namespace Regex

open List

variable {α β : Type*}

/-- `r{n}` -/
def times (r : Regex α) : ℕ → Regex α
  | 0 => eps
  | n + 1 => cat r (times r n)

/-- `r{0,n}` -/
def upTo (r : Regex α) : ℕ → Regex α
  | 0 => eps
  | n + 1 => alt (cat r (upTo r n)) eps

/-- `r{m,n}` -/
def range (r : Regex α) (m n : ℕ) : Regex α :=
  cat (r.times m) (r.upTo (n - m))

/-- `r+` -/
def plus (r : Regex α) : Regex α :=
  cat r (star r)

/-- The lengths of the repetitions of at most so many rounds. -/
def starEnds (ends : List α → List ℕ) : ℕ → List α → List ℕ
  | 0, _ => [0]
  | rounds + 1, s =>
    (((ends s).filter (0 < ·)).flatMap fun n =>
      (starEnds ends rounds (s.drop n)).map (n + ·)) ++ [0]

/-- The lengths that match at the start of a list, in the order in which they are tried. -/
def ends : Regex α → List α → List ℕ
  | eps, _ => [0]
  | sat p, s => if s.head?.any p then [1] else []
  | cat r r', s => (r.ends s).flatMap fun n => (r'.ends (s.drop n)).map (n + ·)
  | alt r r', s => r.ends s ++ r'.ends s
  | star r, s => starEnds r.ends s.length s

/-- The length of the match at the start of a list. -/
def first (r : Regex α) (s : List α) : Option ℕ :=
  (r.ends s).head?

/-- The matches with their positions, from left to right. The first number is the position of the
list; the second one says how many of its elements belong to the last match. Empty matches are left
out. -/
def findAllFrom (r : Regex α) : ℕ → ℕ → List α → List (ℕ × List α)
  | _, _, [] => []
  | p, skip + 1, _ :: s => findAllFrom r (p + 1) skip s
  | p, 0, c :: s =>
    match (r.first (c :: s)).getD 0 with
    | 0 => findAllFrom r (p + 1) 0 s
    | n + 1 => (p, (c :: s).take (n + 1)) :: findAllFrom r (p + 1) n s

/-- The successive leftmost matches that do not overlap. -/
def findAll (r : Regex α) (s : List α) : List (ℕ × List α) :=
  findAllFrom r 0 0 s

/-! ### The first match that satisfies a test -/

variable {r r' : Regex α} {s : List α} {p : α → Bool} (f : ℕ → Option β)

lemma first_eq (r : Regex α) (s : List α) : r.first s = (r.ends s).findSome? some := by
  rw [first]
  cases r.ends s <;> rfl

lemma findSome?_ends_cat :
    ((cat r r').ends s).findSome? f =
      (r.ends s).findSome? fun n => (r'.ends (s.drop n)).findSome? fun k => f (n + k) := by
  rw [ends, ListScan.findSome?_flatMap]
  simp only [findSome?_map]
  rfl

lemma findSome?_ends_alt :
    ((alt r r').ends s).findSome? f = ((r.ends s).findSome? f).or ((r'.ends s).findSome? f) := by
  rw [ends, findSome?_append]

lemma findSome?_ends_sat : ((sat p).ends s).findSome? f = if s.head?.any p then f 1 else none := by
  rw [ends]
  split <;> simp

/-- A match followed by an element of a class. -/
lemma findSome?_ends_cat_sat :
    ((cat r (sat p)).ends s).findSome? f =
      (r.ends s).findSome? fun n => if s[n]?.any p then f (n + 1) else none := by
  rw [findSome?_ends_cat]
  simp only [findSome?_ends_sat, head?_drop]

lemma findSome?_starEnds_zero (ends : List α → List ℕ) (f : ℕ → Option β) :
    (starEnds ends 0 s).findSome? f = f 0 := by
  simp [starEnds]

/-- One round of a repetition whose rounds all have one length. -/
lemma findSome?_starEnds_succ {ends : List α → List ℕ} {n : ℕ} (hn : 0 < n)
    (hends : ∀ g : ℕ → Option β, (ends s).findSome? g = g n) (hall : ∀ k ∈ ends s, k = n)
    (rounds : ℕ) (f : ℕ → Option β) :
    (starEnds ends (rounds + 1) s).findSome? f =
      ((starEnds ends rounds (s.drop n)).findSome? fun k => f (n + k)).or (f 0) := by
  have hfilter : (ends s).filter (0 < ·) = ends s :=
    filter_eq_self.2 fun k hk => decide_eq_true (hall k hk ▸ hn)
  rw [starEnds, hfilter, findSome?_append, ListScan.findSome?_flatMap, hends]
  simp [findSome?_map, Function.comp_def]

lemma findSome?_starEnds_nil {ends : List α → List ℕ} (hends : ends s = []) (rounds : ℕ)
    (f : ℕ → Option β) : (starEnds ends rounds s).findSome? f = f 0 := by
  cases rounds with
  | zero => exact findSome?_starEnds_zero ends f
  | succ rounds => simp [starEnds, hends]

/-! ### Repetitions of one class -/

/-- The numbers from `n` down to 1. -/
def down : ℕ → List ℕ
  | 0 => []
  | n + 1 => (n + 1) :: down n

lemma map_down (n : ℕ) : (down n ++ [0]).map (1 + ·) = down (n + 1) := by
  induction n with
  | zero => rfl
  | succ n ih =>
    rw [down, cons_append, map_cons, ih, Nat.add_comm 1]
    rfl

lemma mem_down {n k : ℕ} : k ∈ down n ↔ 0 < k ∧ k ≤ n := by
  induction n with
  | zero =>
    rw [down]
    exact iff_of_false (not_mem_nil) (by omega)
  | succ n ih =>
    rw [down, mem_cons, ih]
    omega

/-- Only the longest can match. -/
lemma findSome?_down_of_none {n : ℕ} {f : ℕ → Option β} (h : ∀ k, k < n → f k = none) :
    (down n).findSome? f = if n = 0 then none else f n := by
  cases n with
  | zero => rfl
  | succ n =>
    have hrest : (down n).findSome? f = none := by
      rw [findSome?_eq_none_iff]
      intro k hk
      exact h k (Nat.lt_succ_of_le (mem_down.1 hk).2)
    rw [down, findSome?_cons, hrest, if_neg (Nat.succ_ne_zero n)]
    cases f (n + 1) <;> rfl

lemma any_getElem?_of_lt_run {k : ℕ} (h : k < (s.takeWhile p).length) : s[k]?.any p = true := by
  induction s generalizing k with
  | nil => exact absurd h (Nat.not_lt_zero k)
  | cons c s ih =>
    cases hc : p c with
    | false => simp [hc] at h
    | true =>
      rw [takeWhile_cons_of_pos hc, length_cons] at h
      cases k with
      | zero => simp [hc]
      | succ k => simpa using ih (Nat.lt_of_succ_lt_succ h)

lemma any_getElem?_run (p : α → Bool) (s : List α) :
    s[(s.takeWhile p).length]?.any p = false := by
  induction s with
  | nil => rfl
  | cons c s ih =>
    cases hc : p c with
    | false => simp [hc]
    | true => simpa [hc] using ih

lemma ends_cat_sat {n : ℕ}
    (h : ∀ s, r.ends s = down (min n (s.takeWhile p).length) ++ [0]) (s : List α) :
    (cat (sat p) r).ends s = down (min (n + 1) (s.takeWhile p).length) := by
  cases s with
  | nil => rfl
  | cons c s =>
    cases hc : p c with
    | false =>
      rw [takeWhile_cons_of_neg (by simp [hc])]
      simp [ends, hc, down]
    | true =>
      rw [takeWhile_cons_of_pos hc, length_cons, Nat.add_min_add_right, ← map_down, ← h]
      simp [ends, hc]

lemma ends_upTo_sat (p : α → Bool) (n : ℕ) (s : List α) :
    ((sat p).upTo n).ends s = down (min n (s.takeWhile p).length) ++ [0] := by
  induction n generalizing s with
  | zero =>
    rw [Nat.zero_min]
    rfl
  | succ n ih =>
    rw [upTo, ends, ends_cat_sat ih]
    rfl

/-- A class that is repeated once or more matches every length up to the run of its elements. -/
lemma ends_range_one_sat (p : α → Bool) (n : ℕ) (s : List α) :
    ((sat p).range 1 (n + 1)).ends s = down (min (n + 1) (s.takeWhile p).length) := by
  have hcat : ((sat p).range 1 (n + 1)).ends s = (cat (sat p) ((sat p).upTo n)).ends s := by
    simp [range, times, ends]
  rw [hcat, ends_cat_sat (ends_upTo_sat p n)]

/-- A class that is repeated, and an element that is not in the class: only the whole run counts. -/
lemma findSome?_ends_range_one_sat {q : α → Bool} (hpq : ∀ c, p c = true → q c = false) (n : ℕ)
    (f : ℕ → Option β) :
    ((cat ((sat p).range 1 (n + 1)) (sat q)).ends s).findSome? f =
      if min (n + 1) (s.takeWhile p).length = 0 then none
      else if s[min (n + 1) (s.takeWhile p).length]?.any q then
        f (min (n + 1) (s.takeWhile p).length + 1)
      else none := by
  rw [findSome?_ends_cat_sat, ends_range_one_sat, findSome?_down_of_none]
  intro k hk
  have hp := any_getElem?_of_lt_run (s := s) (p := p) (k := k) (by omega)
  rw [Option.any_eq_true] at hp
  obtain ⟨c, hc, hp⟩ := hp
  rw [hc, Option.any_some, hpq c hp, if_neg Bool.false_ne_true]

end Regex
