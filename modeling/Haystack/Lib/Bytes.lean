import Mathlib.Data.List.Lex
import Mathlib.Tactic

/-!
# Byte strings and machine integers

The orders of machine bytes and 64-bit signed integers, the lexicographic order on byte strings,
the upper end of the range of keys that extend a given prefix, and fixed-width big-endian numerals,
whose byte order is the order of the numbers.
-/

/-- Machine bytes in their numeric order. -/
instance UInt8.instLinearOrder : LinearOrder UInt8 where
  le_refl := UInt8.le_refl
  le_trans _ _ _ := UInt8.le_trans
  le_antisymm _ _ := UInt8.le_antisymm
  le_total := UInt8.le_total
  lt_iff_le_not_ge a b := by simp only [UInt8.le_iff_toNat_le, UInt8.lt_iff_toNat_lt]; omega
  toDecidableLE := inferInstance
  toDecidableEq := inferInstance
  toDecidableLT := inferInstance

/-- Signed 64-bit integers in their numeric order. -/
instance Int64.instLinearOrder : LinearOrder Int64 where
  le_refl := Int64.le_refl
  le_trans _ _ _ := Int64.le_trans
  le_antisymm _ _ := Int64.le_antisymm
  le_total := Int64.le_total
  lt_iff_le_not_ge a b := by simp only [Int64.le_iff_toInt_le, Int64.lt_iff_toInt_lt]; omega
  toDecidableLE := inferInstance
  toDecidableEq := inferInstance
  toDecidableLT := inferInstance

instance Int64.instLawfulBEq : LawfulBEq Int64 := inferInstance

instance UInt8.instLawfulBEqList : LawfulBEq (List UInt8) := inferInstance

/-- The two's complement bits of a non-negative integer are the integer. -/
lemma Int64.toNat_toUInt64_of_nonneg {a : Int64} (ha : 0 ≤ a) :
    (a.toUInt64.toNat : ℤ) = a.toInt := by
  have h : 0 ≤ a.toBitVec.toInt := by simpa [Int64.le_iff_toInt_le] using ha
  change (a.toBitVec.toNat : ℤ) = a.toBitVec.toInt
  rw [BitVec.toInt_eq_toNat_cond] at h ⊢
  have := a.toBitVec.isLt
  split at h <;> omega

lemma Int64.toNat_toUInt64_lt_of_lt {a b : Int64} (ha : 0 ≤ a) (hab : a < b) :
    a.toUInt64.toNat < b.toUInt64.toNat := by
  have ha' := toNat_toUInt64_of_nonneg ha
  have hb' := toNat_toUInt64_of_nonneg (ha.trans hab.le)
  rw [Int64.lt_iff_toInt_lt] at hab
  omega

lemma Int64.toNat_toUInt64_inj {a b : Int64} : a.toUInt64.toNat = b.toUInt64.toNat ↔ a = b := by
  rw [UInt64.toNat_inj]
  refine ⟨fun h => ?_, fun h => h ▸ rfl⟩
  simpa using congrArg UInt64.toInt64 h

/-- Byte strings, compared byte by byte with a proper prefix before its extensions. -/
abbrev Bytes := List UInt8

namespace Bytes

/-- The bytes of an ASCII text. -/
def ofAscii (s : String) : Bytes :=
  s.toList.map fun c => UInt8.ofNat c.toNat

/-! ### Prefix ranges -/

/-- The least byte string above every extension of `p`: the last byte of `p` that is not `0xff` is
incremented and what follows it is cut off. There is none when every byte of `p` is `0xff`. -/
def prefixUpper : Bytes → Option Bytes
  | [] => none
  | b :: p =>
    match prefixUpper p with
    | some u => some (b :: u)
    | none => if b ≠ 0xff then some [b + 1] else none

lemma lt_succ_iff_le {b c : UInt8} (hb : b ≠ 0xff) : c < b + 1 ↔ c ≤ b := by
  have hne : b.toNat ≠ 255 := fun h => hb (UInt8.toNat_inj.1 h)
  have hlt := b.toNat_lt
  simp only [UInt8.lt_iff_toNat_lt, UInt8.le_iff_toNat_le, UInt8.toNat_add]
  change c.toNat < (b.toNat + 1) % 256 ↔ _
  omega

lemma nil_le (k : Bytes) : [] ≤ k := not_lt.1 (List.not_lt_nil k)

lemma cons_le_cons_iff {b c : UInt8} {p k : Bytes} :
    b :: p ≤ c :: k ↔ b < c ∨ b = c ∧ p ≤ k := by
  rw [← not_lt, List.cons_lt_cons_iff, ← not_lt (a := k)]
  constructor
  · intro h
    rcases lt_trichotomy b c with hlt | rfl | hgt
    · exact .inl hlt
    · exact .inr ⟨rfl, fun hk => h (.inr ⟨rfl, hk⟩)⟩
    · exact absurd (.inl hgt) h
  · rintro (hlt | ⟨rfl, hk⟩) (h | ⟨h, h'⟩)
    · exact absurd h hlt.not_gt
    · exact absurd hlt (h ▸ lt_irrefl _)
    · exact absurd h (lt_irrefl _)
    · exact hk h'

/-- The extensions of `p` are the byte strings from `p` up to `prefixUpper p`. -/
theorem prefix_iff_range (p k : Bytes) :
    p <+: k ↔ p ≤ k ∧ ∀ u ∈ prefixUpper p, k < u := by
  induction p generalizing k with
  | nil => simp [prefixUpper, nil_le]
  | cons b p ih =>
    cases k with
    | nil => simp
    | cons c k =>
      rw [List.cons_prefix_cons, ih, cons_le_cons_iff, prefixUpper]
      cases hp : prefixUpper p with
      | some u =>
        simp only [Option.mem_def, Option.some.injEq, forall_eq', List.cons_lt_cons_iff]
        constructor
        · rintro ⟨rfl, hle, hlt⟩
          exact ⟨.inr ⟨rfl, hle⟩, .inr ⟨rfl, hlt⟩⟩
        · rintro ⟨h | ⟨rfl, hle⟩, h' | ⟨h', hlt⟩⟩
          · exact absurd h h'.not_gt
          · exact absurd h (h' ▸ lt_irrefl _)
          · exact absurd h' (lt_irrefl _)
          · exact ⟨rfl, hle, hlt⟩
      | none =>
        by_cases hb : b ≠ 0xff
        · simp only [hb, ne_eq, not_false_eq_true, if_true, Option.mem_def, Option.some.injEq,
            forall_eq', List.cons_lt_cons_iff, List.not_lt_nil, and_false, or_false,
            lt_succ_iff_le hb, reduceCtorEq, false_implies, implies_true, and_true]
          constructor
          · rintro ⟨rfl, hle⟩
            exact ⟨.inr ⟨rfl, hle⟩, le_rfl⟩
          · rintro ⟨h | ⟨rfl, hle⟩, h'⟩
            · exact absurd h h'.not_gt
            · exact ⟨rfl, hle⟩
        · obtain rfl : b = 0xff := not_not.1 hb
          have hc : ¬ (0xff : UInt8) < c := by
            have := c.toNat_lt
            rw [UInt8.lt_iff_toNat_lt]
            change ¬ 255 < c.toNat
            omega
          simp [hc]

/-! ### Big-endian numerals -/

/-- The `w` lowest base-256 digits of `n`, most significant first. -/
def bigEndian : ℕ → ℕ → Bytes
  | 0, _ => []
  | w + 1, n => UInt8.ofNat (n / 256 ^ w) :: bigEndian w n

@[simp] lemma length_bigEndian (w n : ℕ) : (bigEndian w n).length = w := by
  induction w with
  | zero => rfl
  | succ w ih => simp [bigEndian, ih]

lemma ofNat_digit_lt_iff (a b : ℕ) : UInt8.ofNat a < UInt8.ofNat b ↔ a % 256 < b % 256 := by
  simp [UInt8.lt_iff_toNat_lt]

lemma ofNat_digit_eq_iff (a b : ℕ) : UInt8.ofNat a = UInt8.ofNat b ↔ a % 256 = b % 256 := by
  simp [← UInt8.toNat_inj]

/-- The byte order of big-endian numerals of one width is the order of the numbers. -/
theorem bigEndian_lt_iff (w m n : ℕ) :
    bigEndian w m < bigEndian w n ↔ m % 256 ^ w < n % 256 ^ w := by
  induction w with
  | zero => simp [bigEndian, Nat.mod_one]
  | succ w ih =>
    rw [bigEndian, bigEndian, List.cons_lt_cons_iff, ih, ofNat_digit_lt_iff, ofNat_digit_eq_iff,
      pow_succ, Nat.mod_mul, Nat.mod_mul]
    have hm := Nat.mod_lt m (Nat.pow_pos (n := w) (show 0 < 256 by decide))
    have hn := Nat.mod_lt n (Nat.pow_pos (n := w) (show 0 < 256 by decide))
    -- a larger leading digit outweighs everything below it
    have hdigit : ∀ a b : ℕ, a < b → 256 ^ w * a + 256 ^ w ≤ 256 ^ w * b := fun a b h => by
      simpa [Nat.mul_succ] using Nat.mul_le_mul_left (256 ^ w) (Nat.succ_le_of_lt h)
    rcases lt_trichotomy (m / 256 ^ w % 256) (n / 256 ^ w % 256) with h | h | h
    · have := hdigit _ _ h
      simp only [h, true_or, true_iff]
      omega
    · simp [h]
    · have := hdigit _ _ h
      simp only [h.not_gt, h.ne', false_and, or_self, false_iff, not_lt]
      omega

lemma bigEndian_inj (w m n : ℕ) :
    bigEndian w m = bigEndian w n ↔ m % 256 ^ w = n % 256 ^ w := by
  have hmn := bigEndian_lt_iff w m n
  have hnm := bigEndian_lt_iff w n m
  constructor
  · intro h
    rw [h] at hmn hnm
    exact le_antisymm (not_lt.1 fun hlt => lt_irrefl _ (hnm.2 hlt))
      (not_lt.1 fun hlt => lt_irrefl _ (hmn.2 hlt))
  · intro h
    exact le_antisymm (not_lt.1 fun hlt => (hnm.1 hlt).ne h.symm)
      (not_lt.1 fun hlt => (hmn.1 hlt).ne h)

/-- The number whose base-256 digits are `s`, most significant first. -/
def ofBigEndian (s : Bytes) : ℕ :=
  s.foldl (fun n b => 256 * n + b.toNat) 0

/-- Reading a big-endian numeral gives back the number, up to its width. -/
theorem ofBigEndian_bigEndian (w n : ℕ) : ofBigEndian (bigEndian w n) = n % 256 ^ w := by
  have hfold : ∀ (w a : ℕ), (bigEndian w n).foldl (fun m b => 256 * m + b.toNat) a
      = 256 ^ w * a + n % 256 ^ w := by
    intro w
    induction w with
    | zero => simp [bigEndian, Nat.mod_one]
    | succ w ih =>
      intro a
      have hdigit : n % 256 ^ (w + 1) = n % 256 ^ w + 256 ^ w * (n / 256 ^ w % 256) := by
        rw [pow_succ, Nat.mod_mul]
      have hbyte : (UInt8.ofNat (n / 256 ^ w)).toNat = n / 256 ^ w % 256 := UInt8.toNat_ofNat'
      rw [bigEndian, List.foldl_cons, ih, hbyte, hdigit, pow_succ]
      ring
  simpa [ofBigEndian] using hfold w 0

/-! ### Concatenation -/

lemma append_lt_append_left_iff (p : Bytes) {a b : Bytes} : p ++ a < p ++ b ↔ a < b := by
  induction p with
  | nil => rfl
  | cons c p ih => simp [ih]

/-- Of two strings that do not extend each other, all extensions of the smaller one are below the
larger one. -/
lemma append_lt_of_not_prefix {p q a b : Bytes} (hpq : ¬ p <+: q) (hqp : ¬ q <+: p)
    (h : p ++ a < q ++ b) (s : Bytes) : p ++ s < q := by
  induction p generalizing q with
  | nil => exact absurd List.nil_prefix hpq
  | cons c p ih =>
    match q with
    | [] => exact absurd List.nil_prefix hqp
    | e :: q =>
      simp only [List.cons_append, List.cons_lt_cons_iff] at h ⊢
      rcases h with h | ⟨rfl, h⟩
      · exact .inl h
      · exact .inr ⟨rfl, ih (by simpa using hpq) (by simpa using hqp) h⟩

end Bytes
