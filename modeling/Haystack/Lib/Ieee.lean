import Mathlib.Tactic

/-!
# Comparing binary floating-point numbers

Floating-point numbers of 64 bits, given by their bits. All that is needed of them is how they
compare, that a number which is not a number compares with nothing, and how integers are converted.
-/

namespace Ieee

/-- Not a number: all bits of the exponent are set and the fraction is not zero. -/
def isNaN (x : UInt64) : Bool :=
  2047 * 2 ^ 52 < x.toNat % 2 ^ 63

/-- The place of a number in the order; both zeros have the same. -/
def rank (x : UInt64) : ℤ :=
  if x.toNat < 2 ^ 63 then x.toNat else 2 ^ 63 - x.toNat

def eq (x y : UInt64) : Bool :=
  ¬ isNaN x ∧ ¬ isNaN y ∧ rank x = rank y

def lt (x y : UInt64) : Bool :=
  ¬ isNaN x ∧ ¬ isNaN y ∧ rank x < rank y

def le (x y : UInt64) : Bool :=
  ¬ isNaN x ∧ ¬ isNaN y ∧ rank x ≤ rank y

variable {x y z : UInt64}

lemma eq_iff : eq x y = true ↔ isNaN x = false ∧ isNaN y = false ∧ rank x = rank y := by
  simp [eq]

@[simp] lemma eq_self_iff : eq x x = true ↔ isNaN x = false := by
  simp [eq]

lemma eq_symm (h : eq x y = true) : eq y x = true := by
  rw [eq_iff] at h ⊢
  exact ⟨h.2.1, h.1, h.2.2.symm⟩

lemma eq_trans (h : eq x y = true) (h' : eq y z = true) : eq x z = true := by
  rw [eq_iff] at h h' ⊢
  exact ⟨h.1, h'.2.1, h.2.2.trans h'.2.2⟩

/-! ### Integers -/

/-- The quotient by `2 ^ k`, rounded to the nearest integer, half-way cases to the even one. -/
def roundShift (a k : ℕ) : ℕ :=
  let q := a / 2 ^ k
  let r := a % 2 ^ k
  if 2 ^ k < 2 * r ∨ 2 ^ k = 2 * r ∧ q % 2 = 1 then q + 1 else q

/-- The bits of a natural number. A significand that is rounded up to the next power of two carries
into the exponent. -/
def bitsOfNat (a : ℕ) : ℕ :=
  if a = 0 then 0
  else
    let e := a.log2
    let m := if e ≤ 52 then a * 2 ^ (52 - e) else roundShift a (e - 52)
    (e + 1022) * 2 ^ 52 + m

/-- The conversion of an integer. -/
def ofInt (i : Int64) : UInt64 :=
  UInt64.ofNat ((if i < 0 then 2 ^ 63 else 0) + bitsOfNat i.toInt.natAbs)

end Ieee
