import Mathlib.Tactic

/-!
# Binary search

Bisection of `[0, n)` for the first index at which a predicate holds. The predicate is assumed to
be false up to some index and true from there on; the loop halves the interval between the two.
-/

namespace BinarySearch

/-- One run of the bisection loop on `[i, j)`; `fuel` bounds the number of rounds. -/
def loop (f : ℕ → Bool) : ℕ → ℕ → ℕ → ℕ
  | 0, i, _ => i
  | fuel + 1, i, j =>
    if i < j then
      let h := (i + j) / 2
      if f h then loop f fuel i h else loop f fuel (h + 1) j
    else i

/-- The least index below `n` at which `f` holds, `n` if there is none. -/
def search (n : ℕ) (f : ℕ → Bool) : ℕ :=
  loop f n 0 n

/-- What is known between two rounds: `f` is false below `i` and true from `j` on. -/
structure Bracket (f : ℕ → Bool) (n i j : ℕ) : Prop where
  le : i ≤ j
  le_top : j ≤ n
  below : ∀ k < i, f k = false
  above : ∀ k, j ≤ k → k < n → f k = true

lemma Bracket.loop {f : ℕ → Bool} {n : ℕ}
    (hmono : ∀ a b, a ≤ b → b < n → f a = true → f b = true) (fuel : ℕ) {i j : ℕ}
    (h : Bracket f n i j) (hfuel : j - i ≤ fuel) :
    Bracket f n (loop f fuel i j) (loop f fuel i j) := by
  induction fuel generalizing i j with
  | zero =>
    obtain rfl : i = j := le_antisymm h.le (by omega)
    exact h
  | succ fuel ih =>
    rw [BinarySearch.loop]
    have hle := h.le
    have htop := h.le_top
    split
    case isFalse hij =>
      obtain rfl : i = j := le_antisymm hle (by omega)
      exact h
    case isTrue hij =>
      dsimp only
      split
      case isTrue hf =>
        refine ih ⟨by omega, by omega, h.below, fun k hk hkn => ?_⟩ (by omega)
        exact hmono _ _ hk hkn hf
      case isFalse hf =>
        refine ih ⟨by omega, htop, fun k hk => ?_, h.above⟩ (by omega)
        -- a true value below the midpoint would make the midpoint true
        by_contra hk'
        exact hf (hmono k ((i + j) / 2) (by omega) (by omega) (by simpa using hk'))

/-- On a monotone predicate the search separates the false indices from the true ones. -/
theorem search_spec {f : ℕ → Bool} {n : ℕ}
    (hmono : ∀ a b, a ≤ b → b < n → f a = true → f b = true) :
    Bracket f n (search n f) (search n f) :=
  Bracket.loop hmono n
    ⟨Nat.zero_le _, le_rfl, fun _ h => absurd h (Nat.not_lt_zero _), fun _ h h' => by omega⟩
    (by omega)

lemma loop_le (f : ℕ → Bool) (fuel : ℕ) {i j : ℕ} (h : i ≤ j) : loop f fuel i j ≤ j := by
  induction fuel generalizing i j with
  | zero => exact h
  | succ fuel ih =>
    rw [loop]
    split
    case isFalse => exact h
    case isTrue hij =>
      dsimp only
      split
      · exact (ih (show i ≤ (i + j) / 2 by omega)).trans (by omega)
      · exact ih (by omega)

lemma search_le (n : ℕ) (f : ℕ → Bool) : search n f ≤ n :=
  loop_le f n (Nat.zero_le n)

end BinarySearch
