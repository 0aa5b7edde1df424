import Haystack.Lib.Bytes

/-!
# Base-128 varints

Seven bits of the number in each byte, the lowest first, with the top bit set on every byte but the
last. The reader accepts at most ten bytes and a value below `2 ^ 64`.
-/

namespace Varint

def appendAux : ℕ → ℕ → Bytes
  | 0, n => [UInt8.ofNat n]
  | fuel + 1, n =>
    if n < 128 then [UInt8.ofNat n] else UInt8.ofNat (n % 128 + 128) :: appendAux fuel (n / 128)

/-- The varint of a number below `2 ^ 64`. -/
def appendUvarint (n : ℕ) : Bytes :=
  appendAux 10 n

def readAux (i x : ℕ) : Bytes → Option (ℕ × Bytes)
  | [] => none
  | b :: s =>
    if i = 10 then none
    else if b.toNat < 128 then
      if i = 9 ∧ 1 < b.toNat then none else some (x + b.toNat * 2 ^ (7 * i), s)
    else readAux (i + 1) (x + b.toNat % 128 * 2 ^ (7 * i)) s

/-- Read a varint: its value and the bytes after it. There is none when the buffer ends early or
the value does not fit. -/
def uvarint (s : Bytes) : Option (ℕ × Bytes) :=
  readAux 0 0 s

lemma readAux_appendAux (fuel i x n : ℕ) (s : Bytes) (hi : i ≤ 9) (hfuel : 10 ≤ fuel + i)
    (hn : n < 2 ^ (64 - 7 * i)) :
    readAux i x (appendAux fuel n ++ s) = some (x + n * 2 ^ (7 * i), s) := by
  induction fuel generalizing i x n with
  | zero => omega
  | succ fuel ih =>
    rw [appendAux]
    split
    case isTrue hlt =>
      have hb : (UInt8.ofNat n).toNat = n := by rw [UInt8.toNat_ofNat']; omega
      have hlast : ¬ (i = 9 ∧ 1 < n) := by
        rintro ⟨rfl, h1⟩
        have : n < 2 := by simpa using hn
        omega
      rw [List.singleton_append, readAux, if_neg (by omega), hb, if_pos hlt, if_neg hlast]
    case isFalse hge =>
      have hi9 : i ≠ 9 := by
        rintro rfl
        have : n < 2 := by simpa using hn
        omega
      have hb : (UInt8.ofNat (n % 128 + 128)).toNat = n % 128 + 128 := by
        rw [UInt8.toNat_ofNat']; omega
      have hn' : n / 128 < 2 ^ (64 - 7 * (i + 1)) := by
        rw [Nat.div_lt_iff_lt_mul (by decide)]
        have hpow : 2 ^ (64 - 7 * (i + 1)) * 128 = 2 ^ (64 - 7 * i) := by
          rw [show 64 - 7 * i = (64 - 7 * (i + 1)) + 7 by omega, pow_add]
          norm_num
        rw [hpow]
        exact hn
      rw [List.cons_append, readAux, if_neg (by omega), hb, if_neg (by omega),
        ih (i + 1) _ (n / 128) (by omega) (by omega) hn']
      have hmod : (n % 128 + 128) % 128 = n % 128 := by omega
      have hsplit : n = n % 128 + n / 128 * 128 := by omega
      have hpow : 2 ^ (7 * (i + 1)) = 128 * 2 ^ (7 * i) := by
        rw [show 7 * (i + 1) = 7 * i + 7 by omega, pow_add]
        ring
      rw [hmod, hpow]
      congr 2
      conv_rhs => rw [hsplit]
      ring

/-- Reading undoes writing, whatever follows. -/
theorem uvarint_appendUvarint {n : ℕ} (hn : n < 2 ^ 64) (s : Bytes) :
    uvarint (appendUvarint n ++ s) = some (n, s) := by
  simpa [uvarint, appendUvarint] using readAux_appendAux 10 0 0 n s (by decide) (by decide) hn

lemma appendUvarint_ne_nil (n : ℕ) : appendUvarint n ≠ [] := by
  rw [appendUvarint, appendAux]
  split <;> simp

lemma length_appendAux_le (fuel n : ℕ) : (appendAux fuel n).length ≤ fuel + 1 := by
  induction fuel generalizing n with
  | zero => simp [appendAux]
  | succ fuel ih =>
    rw [appendAux]
    split
    · simp
    · simpa using ih (n / 128)

lemma length_appendUvarint_le_eleven (n : ℕ) : (appendUvarint n).length ≤ 11 :=
  length_appendAux_le 10 n

lemma length_appendAux_le_of_lt (fuel : ℕ) {k n : ℕ} (hn : n < 128 ^ (k + 1)) :
    (appendAux fuel n).length ≤ k + 1 := by
  induction fuel generalizing k n with
  | zero => simp [appendAux]
  | succ fuel ih =>
    rw [appendAux]
    split
    case isTrue => simp
    case isFalse hge =>
      cases k with
      | zero => omega
      | succ k =>
        have hdiv : n / 128 < 128 ^ (k + 1) := by
          rw [Nat.div_lt_iff_lt_mul (by decide)]
          rwa [pow_succ] at hn
        simpa using ih hdiv

/-- A varint takes at most ten bytes. -/
lemma length_appendUvarint_le {n : ℕ} (hn : n < 2 ^ 64) : (appendUvarint n).length ≤ 10 :=
  length_appendAux_le_of_lt 10 (hn.trans (by norm_num))

end Varint
