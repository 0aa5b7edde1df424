import Haystack.Lib.Varint

/-!
# Reading files of framed data

Bytes at an offset of a file, strings with their length in front, and the loop that parses one item
after the other until the buffer is used up. If the buffer is the concatenation of encoded items, the
loop is a fold over the items.
-/

namespace Framing

open Varint List

/-! ### Offsets -/

/-- The bytes `b` stand in the file at the offset. -/
def At (file : Bytes) (off : ℕ) (b : Bytes) : Prop :=
  b <+: file.drop off

/-- Exactly `n` bytes at an offset. -/
def readAt (file : Bytes) (n off : ℕ) : Option Bytes :=
  if n ≤ (file.drop off).length then some ((file.drop off).take n) else none

variable {file a b : Bytes} {off : ℕ}

lemma at_append (pre b post : Bytes) : At (pre ++ (b ++ post)) pre.length b := by
  simp [At]

lemma At.readAt (h : At file off b) : readAt file b.length off = some b := by
  rw [Framing.readAt, if_pos h.length_le, ← prefix_iff_eq_take.1 h]

/-- What has been written stays where it is when the file grows. -/
lemma At.grow (h : At file off b) (x : Bytes) : At (file ++ x) off b := by
  rw [At, drop_append]
  exact h.trans (prefix_append _ _)

lemma At.left (h : At file off (a ++ b)) : At file off a :=
  (prefix_append a b).trans h

lemma At.right (h : At file off (a ++ b)) : At file (off + a.length) b := by
  obtain ⟨t, ht⟩ := h
  rw [At, ← drop_drop, ← ht, append_assoc, drop_left]
  exact prefix_append b t

lemma At.le_length (h : At file off b) (hb : b ≠ []) :
    off + b.length ≤ file.length := by
  have hlen := h.length_le
  have hpos := length_pos_of_ne_nil hb
  rw [length_drop] at hlen
  omega

/-- A read of more bytes than stand at the offset begins with them. -/
lemma At.take {n : ℕ} (h : At file off b) (hn : b.length ≤ n) :
    ∃ rest, (file.drop off).take n = b ++ rest := by
  obtain ⟨t, ht⟩ := h
  refine ⟨t.take (n - b.length), ?_⟩
  rw [← ht, take_append, take_of_length_le hn]

/-! ### Strings -/

/-- The first `n` bytes and the rest. -/
def takeBytes (n : ℕ) (s : Bytes) : Option (Bytes × Bytes) :=
  if n ≤ s.length then some (s.take n, s.drop n) else none

lemma takeBytes_append (b s : Bytes) : takeBytes b.length (b ++ s) = some (b, s) := by
  simp [takeBytes]

/-- A string with its length in front. -/
def appendString (b : Bytes) : Bytes :=
  appendUvarint b.length ++ b

def readString (s : Bytes) : Option (Bytes × Bytes) :=
  (uvarint s).bind fun x => takeBytes x.1 x.2

lemma readString_appendString (hb : b.length < 2 ^ 64) (s : Bytes) :
    readString (appendString b ++ s) = some (b, s) := by
  rw [appendString, append_assoc, readString, uvarint_appendUvarint hb, Option.bind_some,
    takeBytes_append]

/-! ### Loops -/

section Loop

variable {α σ : Type*} (parse : Bytes → Option (α × Bytes)) (f : σ → α → Option (σ × Bool))

/-- Parse items and hand them to `f`, which says whether to go on, until the buffer is used up. -/
def loop : ℕ → σ → Bytes → Option σ
  | _, s, [] => some s
  | 0, _, _ :: _ => none
  | fuel + 1, s, b :: buf =>
    (parse (b :: buf)).bind fun x => (f s x.1).bind fun y =>
      if y.2 then loop fuel y.1 x.2 else some y.1

/-- The fold that the loop computes. -/
def foldUntil : σ → List α → Option σ
  | s, [] => some s
  | s, a :: l => (f s a).bind fun y => if y.2 then foldUntil y.1 l else some y.1

variable {parse} {enc : α → Bytes}

/-- On a concatenation of items the loop is the fold over them. -/
theorem loop_flatMap {l : List α} (henc : ∀ a ∈ l, ∀ rest, parse (enc a ++ rest) = some (a, rest))
    (hne : ∀ a ∈ l, enc a ≠ []) {fuel : ℕ} (hfuel : (l.flatMap enc).length ≤ fuel) (s : σ) :
    loop parse f fuel s (l.flatMap enc) = foldUntil f s l := by
  induction l generalizing fuel s with
  | nil =>
    rw [flatMap_nil, loop]
    rfl
  | cons a l ih =>
    obtain ⟨b, buf, hb⟩ := exists_cons_of_ne_nil (hne a (by simp))
    rw [flatMap_cons] at hfuel ⊢
    have hparse := henc a (by simp) (l.flatMap enc)
    rw [hb, cons_append] at hparse hfuel ⊢
    cases fuel with
    | zero => simp at hfuel
    | succ fuel =>
      have hrest : (l.flatMap enc).length ≤ fuel := by
        simp only [length_cons, length_append] at hfuel
        omega
      rw [loop, hparse, Option.bind_some, foldUntil]
      refine Option.bind_congr fun y _ => ?_
      dsimp only
      split
      · exact ih (fun a' ha' => henc a' (by simp [ha'])) (fun a' ha' => hne a' (by simp [ha'])) hrest _
      · rfl

end Loop

end Framing
