import Mathlib.Tactic

/-!
# Bits in words

A set of numbers as a list of words of 64 bits: `i` is bit `i % 64` of word `i / 64`. Words that are
not there count as zero.
-/

namespace BitWords

/-- The mask of a bit in its word. -/
def mask (i : ℕ) : UInt64 := 1 <<< UInt64.ofNat (i % 64)

/-- The bit of a number. -/
def get (words : List UInt64) (i : ℕ) : Bool :=
  ((words[i / 64]?).getD 0).toBitVec.getLsbD (i % 64)

lemma toBitVec_mask (i : ℕ) : (mask i).toBitVec = BitVec.twoPow 64 (i % 64) := by
  have hall : ∀ j < 64, (1 <<< UInt64.ofNat j : UInt64).toBitVec = BitVec.twoPow 64 j := by
    decide
  exact hall (i % 64) (Nat.mod_lt i (by norm_num))

/-- The test of a bit of a word. -/
lemma and_mask_ne_zero (w : UInt64) (i : ℕ) :
    decide (w &&& mask i ≠ 0) = w.toBitVec.getLsbD (i % 64) := by
  have hlt : i % 64 < 64 := Nat.mod_lt i (by norm_num)
  have hne : BitVec.twoPow 64 (i % 64) ≠ 0 := by
    intro h
    have := congrArg (BitVec.getLsbD · (i % 64)) h
    simp [hlt] at this
  rw [Bool.eq_iff_iff, decide_eq_true_iff, ne_eq, ← UInt64.toBitVec_inj, UInt64.toBitVec_and,
    toBitVec_mask, BitVec.and_twoPow]
  cases w.toBitVec.getLsbD (i % 64) with
  | true => simpa using hne
  | false => simp

/-- Zero words at the end do not matter. -/
lemma get_append_replicate (words : List UInt64) (n i : ℕ) :
    get (words ++ List.replicate n 0) i = get words i := by
  rw [get, get]
  congr 2
  by_cases hi : i / 64 < words.length
  · rw [List.getElem?_append_left hi]
  · rw [List.getElem?_append_right (by omega), List.getElem?_replicate,
      List.getElem?_eq_none (by omega)]
    split <;> rfl

/-- One bit is set. -/
lemma get_modify {words : List UInt64} {i : ℕ} (h : i / 64 < words.length) (j : ℕ) :
    get (words.modify (i / 64) (· ||| mask i)) j = (decide (j = i) || get words j) := by
  rw [get, get, List.getElem?_modify]
  by_cases hij : i / 64 = j / 64
  · have hlt : i % 64 < 64 := Nat.mod_lt i (by norm_num)
    rw [hij] at h
    simp only [hij, if_true, List.getElem?_eq_getElem h, Option.map_eq_map, Option.map_some,
      Option.getD_some, UInt64.toBitVec_or, BitVec.getLsbD_or, toBitVec_mask,
      BitVec.getLsbD_twoPow, hlt, decide_true, Bool.true_and]
    rw [Bool.or_comm]
    congr 1
    rw [decide_eq_decide]
    omega
  · have hne : j ≠ i := by
      rintro rfl
      exact hij rfl
    simp [hij, hne]

end BitWords
