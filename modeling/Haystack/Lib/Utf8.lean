import Haystack.Lib.Bytes

/-!
# UTF-8

The runes of a byte string as a loop over it reads them: a byte that does not start an encoded
character counts as one replacement character. A string is valid if it is the encoding of its runes.
-/

namespace Utf8

open List

/-- The bytes of some characters. -/
def encode (cs : List Char) : Bytes :=
  cs.flatMap String.utf8EncodeChar

/-- What stands for a byte that is not part of a character. -/
def replacement : Char := '�'

/-- The character that a byte string starts with, if it does. -/
def decodeRune (b : Bytes) : Option Char :=
  b.toByteArray.utf8DecodeChar? 0

/-- The runes of a byte string; the first bytes belong to a rune that has been read. -/
def runesFrom : ℕ → Bytes → List Char
  | _, [] => []
  | skip + 1, _ :: b => runesFrom skip b
  | 0, x :: b =>
    match decodeRune (x :: b) with
    | some c => c :: runesFrom (c.utf8Size - 1) b
    | none => replacement :: runesFrom 0 b

/-- The runes of a byte string. -/
def runes (b : Bytes) : List Char :=
  runesFrom 0 b

/-- The string is an encoding of characters. -/
def Valid (b : Bytes) : Prop :=
  encode (runes b) = b

instance (b : Bytes) : Decidable (Valid b) :=
  inferInstanceAs (Decidable (_ = _))

@[simp]
lemma encode_nil : encode [] = [] := rfl

variable (c : Char)

@[simp]
lemma encode_cons (cs : List Char) :
    encode (c :: cs) = String.utf8EncodeChar c ++ encode cs := rfl

@[simp]
lemma encode_append (cs ds : List Char) : encode (cs ++ ds) = encode cs ++ encode ds :=
  flatMap_append

lemma encode_prefix {cs ds : List Char} (h : cs <+: ds) : encode cs <+: encode ds := by
  obtain ⟨rest, rfl⟩ := h
  exact ⟨encode rest, (encode_append cs rest).symm⟩

lemma decodeRune_encode (b : Bytes) : decodeRune (String.utf8EncodeChar c ++ b) = some c := by
  rw [decodeRune, toByteArray_append]
  exact ByteArray.utf8DecodeChar?_utf8EncodeChar_append

lemma runesFrom_append (b rest : Bytes) : runesFrom b.length (b ++ rest) = runesFrom 0 rest := by
  induction b with
  | nil => rfl
  | cons x b ih => exact ih

lemma runes_encode_append (b : Bytes) : runes (String.utf8EncodeChar c ++ b) = c :: runes b := by
  have hdecode := decodeRune_encode c b
  have hlength := String.length_utf8EncodeChar c
  cases hbytes : String.utf8EncodeChar c with
  | nil =>
    rw [hbytes] at hlength
    exact absurd hlength c.utf8Size_pos.ne
  | cons x rest =>
    rw [hbytes] at hdecode hlength
    rw [cons_append] at hdecode ⊢
    rw [runes, runesFrom, hdecode]
    change c :: runesFrom (c.utf8Size - 1) (rest ++ b) = c :: runes b
    rw [← hlength, length_cons, Nat.add_sub_cancel, runesFrom_append]
    rfl

/-- Decoding inverts encoding. -/
theorem runes_encode (cs : List Char) : runes (encode cs) = cs := by
  induction cs with
  | nil => rfl
  | cons c cs ih => rw [encode_cons, runes_encode_append, ih]

lemma valid_encode (cs : List Char) : Valid (encode cs) := by
  rw [Valid, runes_encode]

lemma encode_injective : Function.Injective encode := by
  intro cs ds h
  rw [← runes_encode cs, h, runes_encode]

/-! ### ASCII bytes -/

lemma le_or {b k : UInt8} (hk : 128 ≤ k) : 128 ≤ b ||| k := by
  rw [UInt8.le_iff_toNat_le] at hk ⊢
  rw [UInt8.toNat_or]
  exact hk.trans Nat.right_le_or

variable {x : UInt8} {t : Bytes}

/-- A character of more than one byte has no ASCII byte in it. -/
lemma le_of_mem_utf8EncodeChar {c : Char} (hc : c.utf8Size ≠ 1) (hx : x ∈ String.utf8EncodeChar c) :
    128 ≤ x := by
  obtain h | h | h | h := c.utf8Size_eq
  · exact absurd h hc
  · rw [String.utf8EncodeChar_eq_cons_cons h] at hx
    simp only [mem_cons, not_mem_nil, or_false] at hx
    obtain rfl | rfl := hx <;> exact le_or (by decide)
  · rw [String.utf8EncodeChar_eq_cons_cons_cons h] at hx
    simp only [mem_cons, not_mem_nil, or_false] at hx
    obtain rfl | rfl | rfl := hx <;> exact le_or (by decide)
  · rw [String.utf8EncodeChar_eq_cons_cons_cons_cons h] at hx
    simp only [mem_cons, not_mem_nil, or_false] at hx
    obtain rfl | rfl | rfl | rfl := hx <;> exact le_or (by decide)

/-- An ASCII byte is a character of its own. -/
lemma utf8EncodeChar_ofUInt8 (hx : x < 128) : String.utf8EncodeChar (Char.ofUInt8 x) = [x] := by
  have hsize : (Char.ofUInt8 x).utf8Size = 1 := by
    rw [Char.utf8Size_eq_one_iff, UInt32.le_iff_toNat_le]
    rw [UInt8.lt_iff_toNat_lt] at hx
    exact Nat.le_of_lt_succ hx
  rw [String.utf8EncodeChar_eq_singleton hsize]
  exact congrArg (fun y => [y]) (UInt8.toUInt8_toUInt32 x)

lemma valid_nil : Valid [] :=
  valid_encode []

lemma valid_iff {b : Bytes} : Valid b ↔ ∃ cs, encode cs = b := by
  constructor
  · intro h
    exact ⟨runes b, h⟩
  · rintro ⟨cs, rfl⟩
    exact valid_encode cs

/-- In an encoding, an ASCII byte stands between two encodings. -/
lemma exists_encode_of_append_cons (hx : x < 128) (cs : List Char) (a b : Bytes)
    (h : encode cs = a ++ x :: b) : (∃ ds, encode ds = a) ∧ ∃ ds, encode ds = b := by
  induction cs generalizing a with
  | nil => simp at h
  | cons c cs ih =>
    rw [encode_cons, append_eq_append_iff] at h
    obtain ⟨a', rfl, hrest⟩ | ⟨rest, hc, hrest⟩ := h
    · obtain ⟨⟨ds, hds⟩, hb⟩ := ih a' hrest
      exact ⟨⟨c :: ds, by rw [encode_cons, hds]⟩, hb⟩
    · -- the byte is in the character, or right after it
      cases rest with
      | nil =>
        obtain ⟨hnil, hb⟩ := ih [] (by simpa using hrest.symm)
        exact ⟨⟨[c], by simpa using hc⟩, hb⟩
      | cons y rest =>
        obtain rfl : x = y := (cons.inj hrest).1
        have hmem : x ∈ String.utf8EncodeChar c := by simp [hc]
        by_cases hone : c.utf8Size = 1
        · have hlen := congrArg length hc
          rw [String.length_utf8EncodeChar, hone] at hlen
          simp only [length_append, length_cons] at hlen
          obtain rfl : a = [] := eq_nil_of_length_eq_zero (by omega)
          obtain rfl : rest = [] := eq_nil_of_length_eq_zero (by omega)
          exact ⟨⟨[], rfl⟩, cs, (cons.inj hrest).2.symm⟩
        · exact absurd hx (not_lt.2 (le_of_mem_utf8EncodeChar hone hmem))

/-- Cutting at an ASCII byte does not change validity. -/
theorem valid_append_cons_iff (hx : x < 128) (a b : Bytes) :
    Valid (a ++ x :: b) ↔ Valid a ∧ Valid b := by
  simp only [valid_iff]
  constructor
  · rintro ⟨cs, h⟩
    exact exists_encode_of_append_cons hx cs a b h
  · rintro ⟨⟨cs, rfl⟩, ds, rfl⟩
    refine ⟨cs ++ Char.ofUInt8 x :: ds, ?_⟩
    rw [encode_append, encode_cons, utf8EncodeChar_ofUInt8 hx]
    rfl

lemma valid_append_ascii_append_iff (ht : ∀ x ∈ t, x < 128) (hne : t ≠ []) (a b : Bytes) :
    Valid (a ++ (t ++ b)) ↔ Valid a ∧ Valid b := by
  induction t generalizing a with
  | nil => exact absurd rfl hne
  | cons x t ih =>
    have hx := ht x mem_cons_self
    cases t with
    | nil => exact valid_append_cons_iff hx a b
    | cons y t =>
      rw [cons_append, valid_append_cons_iff hx, ← nil_append (y :: t ++ b),
        ih (fun z hz => ht z (mem_cons_of_mem _ hz)) (cons_ne_nil _ _)]
      exact and_congr_right fun _ => and_iff_right valid_nil

lemma valid_ascii_append_iff (ht : ∀ x ∈ t, x < 128) (b : Bytes) : Valid (t ++ b) ↔ Valid b := by
  by_cases hne : t = []
  · rw [hne, nil_append]
  · rw [← nil_append (t ++ b), valid_append_ascii_append_iff ht hne, and_iff_right valid_nil]

lemma valid_append_ascii_iff (ht : ∀ x ∈ t, x < 128) (a : Bytes) : Valid (a ++ t) ↔ Valid a := by
  by_cases hne : t = []
  · rw [hne, append_nil]
  · rw [← append_nil t, valid_append_ascii_append_iff ht hne, and_iff_left valid_nil]

/-- Writing ASCII text for ASCII bytes does not change validity. -/
theorem valid_flatMap_iff {f : UInt8 → Bytes}
    (hascii : ∀ x, x < 128 → f x ≠ [] ∧ ∀ y ∈ f x, y < 128) (hother : ∀ x, 128 ≤ x → f x = [x]) (a b : Bytes) :
    Valid (a ++ b.flatMap f) ↔ Valid (a ++ b) := by
  induction b generalizing a with
  | nil => rfl
  | cons x b ih =>
    rw [flatMap_cons]
    by_cases hx : x < 128
    · rw [valid_append_ascii_append_iff (hascii x hx).2 (hascii x hx).1,
        valid_append_cons_iff hx, ← nil_append (b.flatMap f), ih, nil_append]
    · rw [hother x (not_lt.1 hx), ← append_assoc, ih, append_assoc]
      rfl

end Utf8
