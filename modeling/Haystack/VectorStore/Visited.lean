import Haystack.Lib.StepSystem

/-!
# Visited sets

A search marks the nodes it has seen in an array of stamps; a node is marked if its stamp is the
current epoch. A new search goes to the next epoch instead of clearing the array, which is cleared
only when the 32 bits of the epoch are used up.
-/

namespace Haystack.VectorStore

open List

structure VisitedSet where
  versions : List UInt32
  epoch : UInt32

namespace VisitedSet

variable {v v' : VisitedSet} {id : UInt64} {versions : List UInt32} {uses : List Use}

/-- A new set of the pool. -/
def new : VisitedSet :=
  ⟨[], 0⟩

def begin (v : VisitedSet) : VisitedSet :=
  if v.epoch = 0xffffffff then ⟨v.versions.map fun _ => 0, 1⟩ else ⟨v.versions, v.epoch + 1⟩

def seen (v : VisitedSet) (id : UInt64) : Bool :=
  v.versions[id.toNat]? == some v.epoch

/-- The length of an array with room for `id`, computed in 64 bits. -/
def newLen (len : ℕ) (id : UInt64) : ℕ :=
  max (id + 1).toNat (UInt64.ofNat len * 2).toNat

def grow (versions : List UInt32) (id : UInt64) : List UInt32 :=
  if id.toNat < versions.length then versions
  else
    versions.take (newLen versions.length id) ++
      List.replicate (newLen versions.length id - versions.length) 0

/-- `mark`; an index out of range panics. -/
def mark (v : VisitedSet) (id : UInt64) : Option VisitedSet :=
  if id.toNat < (grow v.versions id).length then
    some ⟨(grow v.versions id).set id.toNat v.epoch, v.epoch⟩
  else none

/-- What the searches do with a set of the pool. -/
inductive Use
  | begin
  | mark (id : UInt64)
  deriving DecidableEq

def use (v : VisitedSet) : Use → Option VisitedSet
  | .begin => some v.begin
  | .mark id => v.mark id

def run (uses : List Use) : Option VisitedSet :=
  uses.foldlM use new

/-- No stamp is of a later epoch. -/
def Stamped (v : VisitedSet) : Prop :=
  ∀ x ∈ v.versions, x ≤ v.epoch

lemma lt_length_grow (hid : id + 1 ≠ 0) : id.toNat < (grow versions id).length := by
  rw [grow]
  split
  case isTrue h => exact h
  case isFalse h =>
    have hle : (id + 1).toNat ≤ newLen versions.length id := le_max_left _ _
    have hne : (id + 1).toNat ≠ 0 := fun h0 => hid (UInt64.toNat_inj.1 h0)
    have hsucc : (id + 1).toNat = (id.toNat + 1) % 2 ^ 64 := UInt64.toNat_add id 1
    have hlt := id.toNat_lt
    simp only [length_append, length_take, length_replicate]
    omega

/-- Growing keeps the stamps; the new ones are 0. -/
lemma getElem?_grow (h : id.toNat < (grow versions id).length) (i : ℕ) :
    (grow versions id)[i]? = versions[i]? ∨
      versions[i]? = none ∧ (grow versions id)[i]? = some 0 := by
  rw [grow] at h ⊢
  split at h
  case isTrue hlt => exact .inl (by rw [if_pos hlt])
  case isFalse hlt =>
    simp only [length_append, length_take, length_replicate] at h
    rw [if_neg hlt, take_of_length_le (by omega), getElem?_append]
    split
    case isTrue => exact .inl rfl
    case isFalse hi =>
      rw [getElem?_replicate, getElem?_eq_none (not_lt.1 hi)]
      split
      · exact .inr ⟨rfl, rfl⟩
      · exact .inl rfl

lemma exists_mark (hid : id + 1 ≠ 0) : ∃ v', v.mark id = some v' :=
  ⟨_, if_pos (lt_length_grow hid)⟩

/-- What a mark does to the stamps. -/
lemma getElem?_mark (h : v.mark id = some v') :
    v'.epoch = v.epoch ∧ v'.versions[id.toNat]? = some v.epoch ∧
      ∀ i ≠ id.toNat, v'.versions[i]? = v.versions[i]? ∨
        v.versions[i]? = none ∧ v'.versions[i]? = some 0 := by
  rw [mark] at h
  split at h
  case isFalse => simp at h
  case isTrue hlt =>
    cases h
    refine ⟨rfl, getElem?_set_self hlt, fun i hi => ?_⟩
    rw [getElem?_set_ne hi.symm]
    exact getElem?_grow hlt i

/-- The stamps of earlier searches are older than the new epoch. -/
lemma lt_epoch_begin (hv : v.Stamped) : ∀ x ∈ v.begin.versions, x < v.begin.epoch := by
  intro x hx
  rw [begin] at hx ⊢
  split at hx
  case isTrue hmax =>
    obtain ⟨y, -, rfl⟩ := mem_map.1 hx
    rw [if_pos hmax]
    exact UInt32.lt_iff_toNat_lt.2 Nat.one_pos
  case isFalse hmax =>
    rw [if_neg hmax]
    exact UInt32.lt_of_le_of_lt (hv x hx) (UInt32.lt_add_one hmax)

lemma stamped_use {u : Use} (hv : v.Stamped) (h : v.use u = some v') : v'.Stamped := by
  intro x hx
  cases u with
  | begin =>
    cases h
    exact UInt32.le_of_lt (lt_epoch_begin hv x hx)
  | mark id =>
    obtain ⟨hepoch, hself, hother⟩ := getElem?_mark h
    obtain ⟨i, hi⟩ := mem_iff_getElem?.1 hx
    rw [hepoch]
    by_cases heq : i = id.toNat
    · rw [heq, hself] at hi
      exact Option.some.inj hi ▸ UInt32.le_refl _
    · obtain h' | ⟨-, h'⟩ := hother i heq
      · exact hv x (mem_iff_getElem?.2 ⟨i, h' ▸ hi⟩)
      · rw [h'] at hi
        exact Option.some.inj hi ▸ UInt32.zero_le

lemma seen_mark (hepoch : v.epoch ≠ 0) (h : v.mark id = some v') (id' : UInt64) :
    v'.seen id' = true ↔ v.seen id' = true ∨ id' = id := by
  obtain ⟨heq, hself, hother⟩ := getElem?_mark h
  simp only [seen, beq_iff_eq, heq]
  by_cases hid : id' = id
  · simp [hid, hself]
  · have hne : id'.toNat ≠ id.toNat := fun h' => hid (UInt64.toNat_inj.1 h')
    obtain h' | ⟨hnone, hzero⟩ := hother id'.toNat hne
    · simp [h', hid]
    · simp [hnone, hzero, hid, hepoch.symm]

lemma stamped_run (h : run uses = some v) : v.Stamped :=
  StepSystem.foldlM_preserves stamped_use (fun _ hx => absurd hx not_mem_nil) h

/-- After a begin the marks of the search are seen and no others. -/
lemma seen_of_begin (hv : v.Stamped) (hnew : Use.begin ∉ uses)
    (h : uses.foldlM use v.begin = some v') : v'.seen id = true ↔ Use.mark id ∈ uses := by
  have hstart : ∀ id, v.begin.seen id = false := fun id => by
    rw [seen, beq_eq_false_iff_ne]
    exact fun h => UInt32.lt_irrefl _ (lt_epoch_begin hv _ (mem_of_getElem? h))
  have hpos : v.begin.epoch ≠ 0 := by
    rw [begin]
    split
    case isTrue => exact (show (1 : UInt32) ≠ 0 by decide)
    case isFalse hmax =>
      intro h0
      have hlt : v.epoch < v.epoch + 1 := UInt32.lt_add_one hmax
      rw [show v.epoch + 1 = 0 from h0] at hlt
      exact UInt32.not_lt_zero hlt
  refine (StepSystem.foldlM_consumes (P := fun pre w => Use.begin ∉ pre →
    w.epoch = v.begin.epoch ∧ ∀ id, w.seen id = true ↔ Use.mark id ∈ pre)
    (fun _ => ⟨rfl, fun id => by simp [hstart]⟩) ?_ h hnew).2 id
  intro pre u w w' hw hu hmem
  rw [mem_append, mem_singleton, not_or] at hmem
  obtain ⟨hepoch, hseen⟩ := hw hmem.1
  cases u with
  | begin => exact absurd rfl hmem.2
  | mark id =>
    refine ⟨(getElem?_mark hu).1.trans hepoch, fun id' => ?_⟩
    rw [seen_mark (hepoch ▸ hpos) hu, hseen, mem_append, mem_singleton, Use.mark.injEq]

/-- **Visited sets do not leak.** Whatever was done with a set before, a search sees exactly the
nodes that it marked itself. Only the id whose successor is no 64-bit number cannot be marked. -/
theorem seen_iff_marked (before after : List Use) (hafter : Use.begin ∉ after) :
    (∀ v, run (before ++ .begin :: after) = some v →
      ∀ id, v.seen id = true ↔ Use.mark id ∈ after) ∧
    ((∀ id, Use.mark id ∈ before ++ after → id + 1 ≠ 0) →
      ∃ v, run (before ++ .begin :: after) = some v) := by
  constructor
  · intro v h id
    rw [run, foldlM_append] at h
    obtain ⟨v₁, h₁, h⟩ := Option.bind_eq_some_iff.1 h
    exact seen_of_begin (stamped_run h₁) hafter h
  · intro hids
    obtain ⟨v, hv, -⟩ := StepSystem.foldlM_invariant (f := use) (P := fun _ _ => True) (b := new)
      (l := before ++ .begin :: after) trivial fun {pre u v} hu _ => by
        cases u with
        | begin => exact ⟨_, rfl, trivial⟩
        | mark id =>
          obtain ⟨v', hv'⟩ := exists_mark (v := v) (hids id (by simpa using hu))
          exact ⟨v', hv', trivial⟩
    exact ⟨v, hv⟩

/-- Node 3 was marked by the search before. -/
theorem seen_iff_marked_two : ∃ v, run [.begin, .mark 3, .begin, .mark 5] = some v ∧
    v.seen 5 = true ∧ v.seen 3 = false := by
  obtain ⟨hseen, hrun⟩ := seen_iff_marked [.begin, .mark 3] [.mark 5] (by decide)
  obtain ⟨v, hv⟩ := hrun (by simp +contextual)
  have h := hseen v hv
  exact ⟨v, hv, (h 5).2 (by simp), by simpa using (h 3).not⟩

end VisitedSet

end Haystack.VectorStore
