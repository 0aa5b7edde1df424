import Haystack.Lib.Sorting

/-!
# Reused buffers

A slice is the beginning of a backing array. Cutting it down to length zero keeps the array, and
what is appended then overwrites the earlier contents as long as there is room.
-/

/-- A slice with its backing array. -/
structure Buffer (α : Type*) where
  array : List α
  len : ℕ
  len_le : len ≤ array.length

namespace Buffer

variable {α : Type*} (b : Buffer α)

/-- The elements that a reader of the slice sees. -/
def slice : List α :=
  b.array.take b.len

/-- `b[:0]`. -/
def reset : Buffer α :=
  ⟨b.array, 0, Nat.zero_le _⟩

/-- `append(b, xs...)`: in place, or in a new array when there is no room. -/
def append (xs : List α) : Buffer α :=
  ⟨b.slice ++ xs ++ b.array.drop (b.len + xs.length), b.len + xs.length, by
    simp [slice, b.len_le]⟩

/-- `sort.Slice(b, ..)` by a key, in place. -/
def sortBy {κ : Type*} [LinearOrder κ] (f : α → κ) : Buffer α :=
  ⟨StableSort.sortBy f b.slice ++ b.array.drop b.len, b.len, by
    rw [List.length_append, (StableSort.perm_sortBy f b.slice).length_eq, ← List.length_append,
      slice, List.take_append_drop]
    exact b.len_le⟩

@[simp] lemma slice_reset : b.reset.slice = [] := rfl

lemma length_slice : b.slice.length = b.len := by
  simp [slice, b.len_le]

@[simp] lemma slice_append (xs : List α) : (b.append xs).slice = b.slice ++ xs := by
  have hlen : (b.slice ++ xs).length = b.len + xs.length := by
    rw [List.length_append, length_slice]
  rw [append, slice, List.take_left' hlen]

@[simp] lemma slice_sortBy {κ : Type*} [LinearOrder κ] (f : α → κ) :
    (b.sortBy f).slice = StableSort.sortBy f b.slice := by
  have hlen : (StableSort.sortBy f b.slice).length = b.len := by
    rw [(StableSort.perm_sortBy f b.slice).length_eq, length_slice]
  rw [sortBy, slice, List.take_left' hlen]

end Buffer
