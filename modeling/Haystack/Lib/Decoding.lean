import Haystack.Lib.Framing

/-!
# Decoders with checked accesses

A decoder walks over a buffer by an offset and ends with a value, with an error, or with an access
outside of the buffer. Next to it stands a reader that consumes the buffer and only accepts or
rejects. The decoder follows the reader unless some condition on the unread bytes holds, under which
it leaves the buffer; this composes along sequences and loops.
-/

/-- How a decoder ends. -/
inductive Decoded (α : Type)
  | value (a : α)
  | error
  | outOfRange
  deriving DecidableEq

variable {off : ℕ}

namespace Decoded

variable {α β : Type} {l : List α}

/-- Go on with the value. -/
def bind (x : Decoded α) (f : α → Decoded β) : Decoded β :=
  match x with
  | value a => f a
  | error => error
  | outOfRange => outOfRange

instance : Monad Decoded where
  pure := value
  bind := bind

@[simp] lemma pure_eq (a : α) : (pure a : Decoded α) = value a := rfl

@[simp] lemma value_bind (a : α) (f : α → Decoded β) : (value a >>= f) = f a := rfl

@[simp] lemma error_bind (f : α → Decoded β) : ((error : Decoded α) >>= f) = error := rfl

@[simp] lemma outOfRange_bind (f : α → Decoded β) :
    ((outOfRange : Decoded α) >>= f) = outOfRange := rfl

/-- A sequence stays in range if its parts do. -/
lemma bind_ne_outOfRange {x : Decoded α} {f : α → Decoded β} (hx : x ≠ outOfRange)
    (hf : ∀ a, x = value a → f a ≠ outOfRange) : (x >>= f) ≠ outOfRange := by
  cases x with
  | value a => exact hf a rfl
  | error => simp
  | outOfRange => exact absurd rfl hx

/-- The decoder that accepts what a reader accepts. -/
def ofOption : Option α → Decoded α
  | some a => value a
  | none => error

@[simp] lemma ofOption_some (a : α) : ofOption (some a) = value a := rfl

@[simp] lemma ofOption_none : ofOption (none : Option α) = error := rfl

/-! ### Accesses -/

/-- The element at an index. -/
def getAt (l : List α) (i : ℕ) : Decoded α :=
  match l[i]? with
  | some a => value a
  | none => outOfRange

/-- The elements from an offset on. -/
def tail (l : List α) (off : ℕ) : Decoded (List α) :=
  if off ≤ l.length then value (l.drop off) else outOfRange

/-- The elements from `lo` up to `hi`. -/
def slice (l : List α) (lo hi : ℤ) : Decoded (List α) :=
  if 0 ≤ lo ∧ lo ≤ hi ∧ hi ≤ l.length then value ((l.drop lo.toNat).take (hi - lo).toNat)
  else outOfRange

lemma getAt_of_lt {i : ℕ} (h : i < l.length) : getAt l i = value l[i] := by
  rw [getAt, List.getElem?_eq_getElem h]

lemma tail_of_le (h : off ≤ l.length) : tail l off = value (l.drop off) :=
  if_pos h

lemma slice_of_le {lo n : ℕ} (h : lo + n ≤ l.length) :
    slice l lo (lo + n : ℕ) = value ((l.drop lo).take n) := by
  rw [slice, if_pos (by omega)]
  have hlen : (((lo + n : ℕ) : ℤ) - lo).toNat = n := by omega
  rw [hlen, Int.toNat_natCast]

lemma slice_of_lt {lo hi : ℤ} (h : hi < lo) : slice l lo hi = outOfRange :=
  if_neg (by omega)

end Decoded

namespace Decoding

open Varint Framing Decoded

variable {α β : Type} {go : Decoded (α × ℕ)} {rest : Bytes} {b : Bytes}

/-! ### Little-endian numbers -/

/-- The `w` lowest base-256 digits of `n`, least significant first. -/
def littleEndian : ℕ → ℕ → Bytes
  | 0, _ => []
  | w + 1, n => UInt8.ofNat n :: littleEndian w (n / 256)

def ofLittleEndian : Bytes → ℕ
  | [] => 0
  | b :: s => b.toNat + 256 * ofLittleEndian s

@[simp] lemma length_littleEndian (w n : ℕ) : (littleEndian w n).length = w := by
  induction w generalizing n with
  | zero => rfl
  | succ w ih => simp [littleEndian, ih]

@[simp] lemma ofLittleEndian_littleEndian (w n : ℕ) :
    ofLittleEndian (littleEndian w n) = n % 256 ^ w := by
  induction w generalizing n with
  | zero => simp [littleEndian, ofLittleEndian, Nat.mod_one]
  | succ w ih =>
    rw [littleEndian, ofLittleEndian, ih, pow_succ, Nat.mul_comm (256 ^ w), Nat.mod_mul]
    simp

/-- The number in the `w` bytes at an offset. -/
def uintAt (w : ℕ) (b : Bytes) (off : ℕ) : Decoded ℕ :=
  if off + w ≤ b.length then value (ofLittleEndian ((b.drop off).take w)) else outOfRange

lemma uintAt_of_le {w : ℕ} (h : off + w ≤ b.length) :
    uintAt w b off = value (ofLittleEndian ((b.drop off).take w)) :=
  if_pos h

/-- The number that has been written there. -/
lemma uintAt_of_at {w n : ℕ} (h : At b off (littleEndian w n)) (hw : 0 < w) :
    uintAt w b off = value (n % 256 ^ w) := by
  have hne : littleEndian w n ≠ [] := by
    intro hnil
    have := congrArg List.length hnil
    simp at this
    omega
  have hle := h.le_length hne
  rw [length_littleEndian] at hle
  have htake : (b.drop off).take w = littleEndian w n := by
    have := List.prefix_iff_eq_take.1 h
    rw [length_littleEndian] at this
    exact this.symm
  rw [uintAt_of_le hle, htake, ofLittleEndian_littleEndian]

/-! ### Decoders and readers -/

/-- The decoder and the reader agree: both reject, or both accept with one value and the decoder
stops where the reader's rest begins. -/
inductive Agrees (b : Bytes) : Decoded (α × ℕ) → Option (α × Bytes) → Prop
  | reject : Agrees b .error none
  | accept (a : α) {off : ℕ} (hoff : off ≤ b.length) :
    Agrees b (.value (a, off)) (some (a, b.drop off))

lemma Agrees.ne_outOfRange {ref : Option (α × Bytes)} (h : Agrees b go ref) : go ≠ .outOfRange := by
  cases h <;> simp

/-- What is read is decoded. -/
lemma Agrees.eq_value {a : α} (h : Agrees b go (some (a, rest))) :
    ∃ off ≤ b.length, go = .value (a, off) ∧ rest = b.drop off := by
  generalize hr : some (a, rest) = r at h
  cases h with
  | reject => cases hr
  | accept a' hoff =>
    cases hr
    exact ⟨_, hoff, rfl, rfl⟩

/-- The decoder leaves the buffer if the condition holds, and agrees with the reader otherwise. -/
structure Follows (b : Bytes) (bad : Prop) (go : Decoded (α × ℕ)) (ref : Option (α × Bytes)) :
    Prop where
  leaves : bad → go = .outOfRange
  agrees : ¬ bad → Agrees b go ref

variable {b : Bytes} {ref : Bytes → Option (α × Bytes)} {s : Bytes} {bad : Bytes → Prop} {n : ℕ}

lemma Agrees.follows {ref : Option (α × Bytes)} (h : Agrees b go ref) : Follows b False go ref :=
  ⟨False.elim, fun _ => h⟩

lemma Follows.congr {bad bad' : Prop} {ref : Option (α × Bytes)} (h : Follows b bad go ref)
    (hbad : bad' ↔ bad) : Follows b bad' go ref :=
  ⟨fun hb => h.leaves (hbad.1 hb), fun hb => h.agrees fun hb' => hb (hbad.2 hb')⟩

/-- One decoder after another. -/
lemma Follows.bind {bad : Prop} {ref : Option (α × Bytes)} {f : α × ℕ → Decoded (β × ℕ)}
    {g : α × Bytes → Option (β × Bytes)} (h : Follows b bad go ref) (bad' : α → Bytes → Prop)
    (hf : ∀ a off, off ≤ b.length → Follows b (bad' a (b.drop off)) (f (a, off)) (g (a, b.drop off)))
    (hbad : bad → ref = none) :
    Follows b (bad ∨ ∃ a rest, ref = some (a, rest) ∧ bad' a rest) (go >>= f) (ref.bind g) := by
  constructor
  · rintro (hb | ⟨a, rest, href, hb⟩)
    · rw [h.leaves hb]
      rfl
    · have hnot : ¬ bad := fun hb => by simp [hbad hb] at href
      have hagrees := h.agrees hnot
      rw [href] at hagrees
      cases hagrees with
      | accept _ hoff => exact (hf _ _ hoff).leaves hb
  · intro hb
    rw [not_or] at hb
    cases h.agrees hb.1 with
    | reject => exact .reject
    | accept a hoff => exact (hf a _ hoff).agrees fun hb' => hb.2 ⟨a, _, rfl, hb'⟩

/-- Change the value. -/
lemma Follows.map {bad : Prop} {ref : Option (α × Bytes)} (φ : α → β) (h : Follows b bad go ref) :
    Follows b bad (go >>= fun x => .value (φ x.1, x.2)) (ref.map fun x => (φ x.1, x.2)) := by
  constructor
  · intro hb
    rw [h.leaves hb]
    rfl
  · intro hb
    cases h.agrees hb with
    | reject => exact .reject
    | accept a hoff => exact .accept (φ a) hoff

/-! ### Loops -/

/-- Decode a number of items. -/
def items (go : ℕ → Decoded (α × ℕ)) : ℕ → ℕ → Decoded (List α × ℕ)
  | 0, off => .value ([], off)
  | n + 1, off => go off >>= fun x => items go n x.2 >>= fun y => .value (x.1 :: y.1, y.2)

/-- Read a number of items. -/
def readItems (ref : Bytes → Option (α × Bytes)) : ℕ → Bytes → Option (List α × Bytes)
  | 0, s => some ([], s)
  | n + 1, s => (ref s).bind fun x => (readItems ref n x.2).map fun y => (x.1 :: y.1, y.2)

/-- The items of a concatenation of encodings. -/
lemma readItems_flatMap {γ : Type*} {enc : γ → Bytes} {φ : γ → α} {l : List γ}
    (h : ∀ e ∈ l, ∀ s, ref (enc e ++ s) = some (φ e, s)) (s : Bytes) :
    readItems ref l.length (l.flatMap enc ++ s) = some (l.map φ, s) := by
  induction l with
  | nil => rfl
  | cons e l ih =>
    rw [List.length_cons, readItems, List.flatMap_cons, List.append_assoc,
      h e List.mem_cons_self, Option.bind_some, ih fun e' he' => h e' (List.mem_cons_of_mem _ he')]
    rfl

/-- After fewer than `n` items a condition on the unread bytes holds. -/
def Meets (ref : Bytes → Option (α × Bytes)) (bad : Bytes → Prop) (n : ℕ) (s : Bytes) : Prop :=
  ∃ k < n, ∃ l rest, readItems ref k s = some (l, rest) ∧ bad rest

lemma meets_zero : ¬ Meets ref bad 0 s := by
  rintro ⟨k, hk, -⟩
  omega

lemma meets_succ :
    Meets ref bad (n + 1) s ↔ bad s ∨ ∃ a rest, ref s = some (a, rest) ∧ Meets ref bad n rest := by
  constructor
  · rintro ⟨k, hk, l, rest, hread, hbad⟩
    cases k with
    | zero =>
      cases hread
      exact .inl hbad
    | succ k =>
      obtain ⟨x, hx, hread⟩ := Option.bind_eq_some_iff.1 hread
      obtain ⟨y, hy, heq⟩ := Option.map_eq_some_iff.1 hread
      obtain ⟨rfl, rfl⟩ := Prod.mk.inj heq
      exact .inr ⟨x.1, x.2, hx, k, by omega, y.1, y.2, hy, hbad⟩
  · rintro (hbad | ⟨a, rest, hread, k, hk, l, rest', hread', hbad⟩)
    · exact ⟨0, by omega, [], s, rfl, hbad⟩
    · refine ⟨k + 1, by omega, a :: l, rest', ?_, hbad⟩
      rw [readItems, hread, Option.bind_some, hread', Option.map_some]

/-- A reader that rejects at the condition rejects the items. -/
lemma readItems_eq_none_of_meets (hbad : ∀ s, bad s → ref s = none) (h : Meets ref bad n s) :
    readItems ref n s = none := by
  induction n generalizing s with
  | zero => exact absurd h meets_zero
  | succ n ih =>
    rw [readItems]
    rcases meets_succ.1 h with h | ⟨a, rest, hread, h⟩
    · rw [hbad s h, Option.bind_none]
    · rw [hread, Option.bind_some, ih h, Option.map_none]

/-- The loop leaves the buffer at the first item that does. -/
theorem follows_items {go : ℕ → Decoded (α × ℕ)}
    (h : ∀ off, off ≤ b.length → Follows b (bad (b.drop off)) (go off) (ref (b.drop off)))
    (hbad : ∀ s, bad s → ref s = none) (n : ℕ) (hoff : off ≤ b.length) :
    Follows b (Meets ref bad n (b.drop off)) (items go n off) (readItems ref n (b.drop off)) := by
  induction n generalizing off with
  | zero => exact ⟨fun hmeets => absurd hmeets meets_zero, fun _ => .accept [] hoff⟩
  | succ n ih =>
    rw [items, readItems]
    refine ((h off hoff).bind (fun _ => Meets ref bad n) ?_ (hbad _)).congr meets_succ
    exact fun a off hoff => (ih hoff).map (a :: ·)

/-! ### Readers of fixed and of prefixed size -/

/-- A number of `w` bytes. -/
def readUint (w : ℕ) (s : Bytes) : Option (ℕ × Bytes) :=
  (takeBytes w s).map fun x => (ofLittleEndian x.1, x.2)

lemma readUint_append (w n : ℕ) (s : Bytes) :
    readUint w (littleEndian w n ++ s) = some (n % 256 ^ w, s) := by
  have h := takeBytes_append (littleEndian w n) s
  rw [length_littleEndian] at h
  rw [readUint, h, Option.map_some, ofLittleEndian_littleEndian]

/-- A check that the number is there, and the access. -/
lemma agrees_uint (w : ℕ) (hoff : off ≤ b.length) :
    Agrees b (if off + w > b.length then .error
      else uintAt w b off >>= fun x => .value (x, off + w)) (readUint w (b.drop off)) := by
  rw [readUint, takeBytes, List.length_drop]
  by_cases h : off + w > b.length
  · rw [if_pos h, if_neg (by omega)]
    exact .reject
  · rw [if_neg h, if_pos (by omega), uintAt_of_le (by omega)]
    have hrest : (b.drop off).drop w = b.drop (off + w) := List.drop_drop
    rw [hrest]
    exact .accept _ (by omega)

lemma readUint_drop (w : ℕ) (hoff : off ≤ b.length) :
    readUint w (b.drop off) =
      if off + w ≤ b.length then some (ofLittleEndian ((b.drop off).take w), b.drop (off + w))
      else none := by
  rw [readUint, takeBytes, List.length_drop, List.drop_drop]
  by_cases h : off + w ≤ b.length
  · rw [if_pos h, if_pos (by omega)]
    rfl
  · rw [if_neg h, if_neg (by omega)]
    rfl

lemma takeBytes_drop (n : ℕ) (hoff : off ≤ b.length) :
    takeBytes n (b.drop off) =
      if off + n ≤ b.length then some ((b.drop off).take n, b.drop (off + n)) else none := by
  rw [takeBytes, List.length_drop, List.drop_drop]
  exact if_congr (by omega) rfl rfl

section Checked

variable {off : ℕ} (hoff : off ≤ b.length)
include hoff

/-- A number that is checked to be there, and what follows. -/
lemma follows_uint (w : ℕ) {f : ℕ → Decoded (β × ℕ)} {g : ℕ × Bytes → Option (β × Bytes)}
    (bad : ℕ → Bytes → Prop)
    (h : ∀ x, off + w ≤ b.length →
      Follows b (bad x (b.drop (off + w))) (f x) (g (x, b.drop (off + w)))) :
    Follows b (∃ x rest, readUint w (b.drop off) = some (x, rest) ∧ bad x rest)
      (if off + w > b.length then .error else uintAt w b off >>= f)
      ((readUint w (b.drop off)).bind g) := by
  rw [readUint_drop w hoff]
  by_cases hw : off + w > b.length
  · rw [if_pos hw, if_neg (by omega)]
    refine ⟨?_, fun _ => .reject⟩
    rintro ⟨_, _, hnone, _⟩
    cases hnone
  · rw [if_neg hw, if_pos (by omega), uintAt_of_le (by omega)]
    refine (h _ (by omega)).congr ⟨?_, fun hbad => ⟨_, _, rfl, hbad⟩⟩
    rintro ⟨x, rest, heq, hbad⟩
    cases heq
    exact hbad

/-- Bytes that are checked to be there, and what follows. -/
lemma follows_slice (n : ℕ) {f : Bytes → Decoded (β × ℕ)} {g : Bytes × Bytes → Option (β × Bytes)}
    (bad : Bytes → Bytes → Prop)
    (h : ∀ x, off + n ≤ b.length →
      Follows b (bad x (b.drop (off + n))) (f x) (g (x, b.drop (off + n)))) :
    Follows b (∃ x rest, takeBytes n (b.drop off) = some (x, rest) ∧ bad x rest)
      (if off + n > b.length then .error else slice b off (off + n : ℕ) >>= f)
      ((takeBytes n (b.drop off)).bind g) := by
  rw [takeBytes_drop n hoff]
  by_cases hn : off + n > b.length
  · rw [if_pos hn, if_neg (by omega)]
    refine ⟨?_, fun _ => .reject⟩
    rintro ⟨_, _, hnone, _⟩
    cases hnone
  · rw [if_neg hn, if_pos (by omega), slice_of_le (by omega)]
    refine (h _ (by omega)).congr ⟨?_, fun hbad => ⟨_, _, rfl, hbad⟩⟩
    rintro ⟨x, rest, heq, hbad⟩
    cases heq
    exact hbad

end Checked

/-- The first `n` numbers of `w` bytes. -/
def words (w : ℕ) : ℕ → Bytes → List ℕ
  | 0, _ => []
  | n + 1, s => ofLittleEndian (s.take w) :: words w n (s.drop w)

/-- The loop over an array that is there. -/
lemma items_uintAt (w n : ℕ) (h : off + n * w ≤ b.length) :
    items (fun off => uintAt w b off >>= fun x => .value (x, off + w)) n off =
      .value (words w n (b.drop off), off + n * w) := by
  induction n generalizing off with
  | zero => simp [items, words]
  | succ n ih =>
    rw [Nat.succ_mul] at h
    rw [items, uintAt_of_le (by omega), value_bind, value_bind, ih (by omega), value_bind, words,
      List.drop_drop, Nat.succ_mul]
    congr 2
    omega

lemma readItems_readUint (w n : ℕ) (hoff : off ≤ b.length) :
    readItems (readUint w) n (b.drop off) =
      if off + n * w ≤ b.length then some (words w n (b.drop off), b.drop (off + n * w))
      else none := by
  induction n generalizing off with
  | zero => simp [readItems, words, hoff]
  | succ n ih =>
    rw [readItems, readUint_drop w hoff, Nat.succ_mul]
    by_cases h : off + w ≤ b.length
    · have hassoc : off + w + n * w = off + (n * w + w) := by omega
      rw [if_pos h, Option.bind_some, ih h, words, List.drop_drop, hassoc]
      by_cases h' : off + (n * w + w) ≤ b.length
      · rw [if_pos h', if_pos h', Option.map_some]
      · rw [if_neg h', if_neg h', Option.map_none]
    · rw [if_neg h, if_neg (by omega), Option.bind_none]

/-- The end `s` of a buffer begins with the length of a string that is so large that the end of the
string does not fit 63 bits. -/
def HugeLength (size : ℕ) (s : Bytes) : Prop :=
  s.length ≤ size ∧ ∃ n rest, uvarint s = some (n, rest) ∧ 2 ^ 63 ≤ size - rest.length + n

/-- A signed 64-bit integer. -/
def wrap (n : ℤ) : ℤ :=
  n.bmod (2 ^ 64)

lemma wrap_of_lt {n : ℤ} (h : -2 ^ 63 ≤ n) (h' : n < 2 ^ 63) : wrap n = n :=
  Int.bmod_eq_of_le (by norm_num; omega) (by norm_num; omega)

/-- A sum past the largest integer. -/
lemma wrap_add_of_le {p n : ℕ} (hp : p < 2 ^ 63) (hn : n < 2 ^ 64) (h : 2 ^ 63 ≤ p + n) :
    wrap (p + wrap n) = p + n - 2 ^ 64 := by
  have hbmod : ∀ m : ℤ, 2 ^ 63 ≤ m → m < 2 ^ 64 → wrap m = m - 2 ^ 64 := by
    intro m hm hm'
    have := wrap_of_lt (show -2 ^ 63 ≤ m - 2 ^ 64 by omega) (by omega)
    rw [← this, wrap, wrap]
    exact (Int.sub_bmod_right m (2 ^ 64)).symm
  by_cases hlarge : n < 2 ^ 63
  · rw [wrap_of_lt (by omega) (by omega : (n : ℤ) < 2 ^ 63), hbmod _ (by omega) (by omega)]
  · rw [hbmod n (by omega) (by omega), wrap_of_lt (by omega) (by omega)]
    ring

/-- A string with its length in front. The end of the string is computed in 64 bits. -/
def prefixed (b : Bytes) (off : ℕ) : Decoded (Bytes × ℕ) :=
  tail b off >>= fun s =>
    match uvarint s with
    | none => .error
    | some (n, rest) =>
      let start := off + (s.length - rest.length)
      let stop := wrap (start + wrap n)
      if stop > b.length then .error
      else slice b start stop >>= fun x => .value (x, stop.toNat)

lemma readAux_suffix {i x : ℕ} (h : readAux i x s = some (n, rest)) : rest <:+ s := by
  induction s generalizing i x with
  | nil => simp [readAux] at h
  | cons c s ih =>
    rw [readAux] at h
    split at h
    · cases h
    · split at h
      · split at h
        · cases h
        · obtain ⟨-, rfl⟩ := Prod.mk.inj (Option.some.inj h)
          exact List.suffix_cons c s
      · exact (ih h).trans (List.suffix_cons c s)

lemma readAux_lt {i x : ℕ} (hi : i ≤ 9) (hx : x < 2 ^ (7 * i))
    (h : readAux i x s = some (n, rest)) : n < 2 ^ 64 := by
  induction s generalizing i x with
  | nil => simp [readAux] at h
  | cons c s ih =>
    have hpow : 2 ^ (7 * (i + 1)) = 128 * 2 ^ (7 * i) := by
      rw [show 7 * (i + 1) = 7 * i + 7 by omega, pow_add]
      ring
    rw [readAux, if_neg (by omega)] at h
    split at h
    case isTrue hc =>
      split at h
      case isTrue => cases h
      case isFalse hlast =>
        obtain ⟨rfl, -⟩ := Prod.mk.inj (Option.some.inj h)
        by_cases h9 : i = 9
        · subst h9
          have hc1 : c.toNat ≤ 1 := by omega
          have : c.toNat * 2 ^ (7 * 9) ≤ 1 * 2 ^ (7 * 9) := Nat.mul_le_mul_right _ hc1
          omega
        · have hle : 2 ^ (7 * (i + 1)) ≤ 2 ^ 63 := Nat.pow_le_pow_right (by norm_num) (by omega)
          have : c.toNat * 2 ^ (7 * i) ≤ 127 * 2 ^ (7 * i) := Nat.mul_le_mul_right _ (by omega)
          omega
    case isFalse hc =>
      by_cases h9 : i = 9
      · subst h9
        cases s with
        | nil => simp [readAux] at h
        | cons c' s => simp [readAux] at h
      · refine ih (by omega) ?_ h
        have hmod : c.toNat % 128 ≤ 127 := by omega
        have : c.toNat % 128 * 2 ^ (7 * i) ≤ 127 * 2 ^ (7 * i) := Nat.mul_le_mul_right _ hmod
        omega

lemma uvarint_suffix (h : uvarint s = some (n, rest)) : rest <:+ s :=
  readAux_suffix h

lemma uvarint_lt (h : uvarint s = some (n, rest)) : n < 2 ^ 64 :=
  readAux_lt (by norm_num) (by norm_num) h

/-- A huge length exceeds every buffer. -/
lemma readString_of_hugeLength {size : ℕ} (hsize : size < 2 ^ 63) (h : HugeLength size s) :
    readString s = none := by
  obtain ⟨hs, n, rest, hread, hn⟩ := h
  have hrest := (uvarint_suffix hread).length_le
  rw [readString, hread, Option.bind_some]
  exact if_neg (by dsimp only; omega)

/-- The decoder of strings leaves the buffer exactly at huge lengths. -/
theorem follows_prefixed (hb : b.length < 2 ^ 63) (hoff : off ≤ b.length) :
    Follows b (HugeLength b.length (b.drop off)) (prefixed b off) (readString (b.drop off)) := by
  rw [prefixed, tail_of_le hoff, value_bind, readString]
  cases hread : uvarint (b.drop off) with
  | none =>
    refine ⟨?_, fun _ => .reject⟩
    rintro ⟨-, n, rest, h, -⟩
    simp [hread] at h
  | some x =>
    obtain ⟨n, rest⟩ := x
    have hsuffix := uvarint_suffix hread
    have hlt := uvarint_lt hread
    have hlen := hsuffix.length_le
    have hstart : off + ((b.drop off).length - rest.length) = b.length - rest.length := by
      rw [List.length_drop] at hlen ⊢
      omega
    have hrest : b.drop (b.length - rest.length) = rest :=
      (List.suffix_iff_eq_drop.1 (hsuffix.trans (List.drop_suffix off b))).symm
    have hle : rest.length ≤ b.length := (hsuffix.trans (List.drop_suffix off b)).length_le
    dsimp only
    rw [hstart]
    obtain ⟨p, hp⟩ : ∃ p, p = b.length - rest.length := ⟨_, rfl⟩
    have hhuge : HugeLength b.length (b.drop off) ↔ 2 ^ 63 ≤ p + n := by
      rw [hp]
      constructor
      · rintro ⟨-, n', rest', h, hn⟩
        obtain ⟨rfl, rfl⟩ := Prod.mk.inj (Option.some.inj (hread.symm.trans h))
        exact hn
      · exact fun hn => ⟨by simp, n, rest, hread, hn⟩
    rw [← hp] at hrest ⊢
    refine Follows.congr ⟨fun hbad => ?_, fun hgood => ?_⟩ hhuge
    · -- the end of the string is before its beginning
      have hstop : wrap (p + wrap n) = p + n - 2 ^ 64 := wrap_add_of_le (by omega) hlt hbad
      rw [hstop, if_neg (by omega), slice_of_lt (by omega)]
      rfl
    · have hstop : wrap (p + wrap n) = (p + n : ℕ) := by
        have hn : wrap n = n := wrap_of_lt (by omega) (by omega)
        rw [hn, wrap_of_lt (by omega) (by omega), Nat.cast_add]
      rw [hstop, Option.bind_some, takeBytes]
      dsimp only
      by_cases hfit : n ≤ rest.length
      · rw [if_neg (by omega), if_pos hfit, slice_of_le (by omega), hrest, Int.toNat_natCast]
        have hdrop : rest.drop n = b.drop (p + n) := by rw [← hrest, List.drop_drop]
        rw [hdrop]
        exact .accept _ (by omega)
      · rw [if_pos (by omega), if_neg hfit]
        exact .reject

end Decoding
