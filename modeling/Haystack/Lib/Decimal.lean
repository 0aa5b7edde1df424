import Haystack.Lib.Bytes

/-!
# Decimal numerals

Decimal text of integers as byte strings, and the parser that reads an optional sign and a
non-empty run of digits within the range of 64-bit signed integers. Printing and parsing are
inverse to each other; a printed numeral has no byte other than digits and the sign.
-/

namespace Decimal

open List

/-- The decimal digits of `n`. -/
def natText (n : ℕ) : Bytes :=
  (Nat.toDigits 10 n).map fun c => UInt8.ofNat c.toNat

/-- The decimal text of `z`, with a minus sign when it is negative. -/
def itoa (z : ℤ) : Bytes :=
  if z < 0 then 45 :: natText z.natAbs else natText z.natAbs

def isDigit (b : UInt8) : Bool :=
  48 ≤ b.toNat && b.toNat ≤ 57

/-- The number that a run of digits denotes. -/
def ofDigits (s : Bytes) : ℕ :=
  s.foldl (fun n b => 10 * n + (b.toNat - 48)) 0

def parseDigits (s : Bytes) : Option ℕ :=
  if s ≠ [] ∧ s.all isDigit then some (ofDigits s) else none

/-- Read a decimal numeral with an optional sign; the value has to fit in 64 bits. -/
def atoi (s : Bytes) : Option ℤ :=
  if s.head? = some 45 then
    (parseDigits s.tail).bind fun n => if n ≤ 2 ^ 63 then some (-(n : ℤ)) else none
  else
    (parseDigits (if s.head? = some 43 then s.tail else s)).bind fun n =>
      if n < 2 ^ 63 then some (n : ℤ) else none

/-! ### Digits -/

variable (n : ℕ) {b : UInt8}

lemma natText_eq :
    natText n = (if n < 10 then [] else natText (n / 10)) ++ [UInt8.ofNat (48 + n % 10)] := by
  have hdigit : ∀ d, d < 10 → UInt8.ofNat (Nat.digitChar d).toNat = UInt8.ofNat (48 + d) := by
    intro d hd
    interval_cases d <;> rfl
  unfold natText
  rw [Nat.toDigits_eq_if (by decide)]
  split
  case isTrue h => simp [hdigit n h, Nat.mod_eq_of_lt h]
  case isFalse h => simp [hdigit (n % 10) (Nat.mod_lt _ (by decide))]

lemma toNat_digit : (UInt8.ofNat (48 + n % 10)).toNat = 48 + n % 10 := by
  simp only [UInt8.toNat_ofNat']
  omega

lemma natText_ne_nil : natText n ≠ [] := by
  rw [natText_eq]
  simp

lemma all_isDigit_natText : (natText n).all isDigit := by
  induction n using Nat.strongRecOn with
  | ind n ih =>
    rw [natText_eq, all_append, Bool.and_eq_true]
    constructor
    · split
      case isTrue => rfl
      case isFalse h => exact ih _ (by omega)
    · simp only [all_cons, all_nil, Bool.and_true, isDigit, toNat_digit]
      simp
      omega

lemma ofDigits_natText : ofDigits (natText n) = n := by
  induction n using Nat.strongRecOn with
  | ind n ih =>
    rw [natText_eq, ofDigits, foldl_append, foldl_cons, foldl_nil, toNat_digit]
    split
    case isTrue h => simp only [foldl_nil]; omega
    case isFalse h =>
      have := ih (n / 10) (by omega)
      rw [ofDigits] at this
      rw [this]
      omega

@[simp] lemma parseDigits_natText : parseDigits (natText n) = some n := by
  rw [parseDigits, if_pos ⟨natText_ne_nil n, all_isDigit_natText n⟩, ofDigits_natText]

/-- A digit is neither a sign nor a delimiter. -/
lemma isDigit_of_mem_natText {n : ℕ} (h : b ∈ natText n) : isDigit b :=
  all_eq_true.1 (all_isDigit_natText n) b h

lemma head?_natText_ne {n : ℕ} (hb : isDigit b = false) : (natText n).head? ≠ some b := by
  intro h
  have := isDigit_of_mem_natText (mem_of_mem_head? (Option.mem_def.2 h))
  simp [hb] at this

/-! ### Signed numerals -/

lemma itoa_ne_nil (z : ℤ) : itoa z ≠ [] := by
  unfold itoa
  split
  · simp
  · exact natText_ne_nil _

/-- A byte that is neither a digit nor the minus sign does not occur in a numeral. -/
lemma not_mem_itoa {z : ℤ} (hb : isDigit b = false) (hb' : b ≠ 45) : b ∉ itoa z := by
  intro h
  have hmem : b ∈ natText z.natAbs := by
    unfold itoa at h
    split at h
    · simpa [hb'] using h
    · exact h
  simp [isDigit_of_mem_natText hmem] at hb

/-- Parsing undoes printing. -/
theorem atoi_itoa {z : ℤ} (hlo : -2 ^ 63 ≤ z) (hhi : z < 2 ^ 63) : atoi (itoa z) = some z := by
  unfold itoa atoi
  split
  case isTrue hneg =>
    rw [head?_cons, if_pos rfl, tail_cons, parseDigits_natText, Option.bind_some,
      if_pos (by omega)]
    simp only [Option.some.injEq]
    omega
  case isFalse hneg =>
    rw [if_neg (head?_natText_ne rfl), if_neg (head?_natText_ne rfl), parseDigits_natText,
      Option.bind_some, if_pos (by omega)]
    simp only [Option.some.injEq]
    omega

lemma itoa_inj {y z : ℤ} (hy : -2 ^ 63 ≤ y ∧ y < 2 ^ 63) (hz : -2 ^ 63 ≤ z ∧ z < 2 ^ 63)
    (h : itoa y = itoa z) : y = z :=
  Option.some.inj (by rw [← atoi_itoa hy.1 hy.2, h, atoi_itoa hz.1 hz.2])

end Decimal
