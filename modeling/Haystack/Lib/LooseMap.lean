import Mathlib.Data.List.Basic
import Mathlib.Tactic

/-!
# Maps with a partial comparison of keys

A map whose keys are compared by a symmetric and transitive relation that need not be reflexive. A
key that is not equal to itself is never found, and each assignment to it adds an entry.
-/

namespace LooseMap

open List

variable {K V : Type*} (eq : K → K → Bool)

/-- The value of the first entry with an equal key. -/
def find (l : List (K × V)) (k : K) : Option V :=
  (l.find? fun e => eq e.1 k).map Prod.snd

/-- Change the value of the first entry with an equal key, or add an entry. -/
def alter (l : List (K × V)) (k : K) (f : Option V → V) : List (K × V) :=
  match l with
  | [] => [(k, f none)]
  | e :: l => if eq e.1 k then (e.1, f (some e.2)) :: l else e :: alter l k f

/-- Assign a value. -/
def assign (l : List (K × V)) (k : K) (v : V) : List (K × V) :=
  alter eq l k fun _ => v

/-- A comparison of keys. -/
structure Comparison : Prop where
  symm : ∀ a b, eq a b = true → eq b a = true
  trans : ∀ a b c, eq a b = true → eq b c = true → eq a c = true

variable {eq} {l : List (K × V)} {k k' : K}

@[simp] lemma find_nil : find eq ([] : List (K × V)) k = none := rfl

lemma find_cons (e : K × V) : find eq (e :: l) k = if eq e.1 k then some e.2 else find eq l k := by
  rw [find, find?_cons]
  split
  case h_1 h => simp [h]
  case h_2 h => simp [h, find]

lemma Comparison.eq_congr (h : Comparison eq) (hk : eq k k' = true) (a : K) : eq a k = eq a k' := by
  rw [Bool.eq_iff_iff]
  exact ⟨fun ha => h.trans a k k' ha hk, fun ha => h.trans a k' k ha (h.symm k k' hk)⟩

/-- What is found after a change. -/
lemma find_alter (h : Comparison eq) (f : Option V → V) :
    find eq (alter eq l k f) k' =
      if eq k k' then some (f (find eq l k)) else find eq l k' := by
  induction l with
  | nil =>
    rw [alter, find_cons]
    rfl
  | cons e l ih =>
    rw [alter]
    by_cases hek : eq e.1 k = true
    · have hiff : eq e.1 k' = eq k k' := by
        rw [Bool.eq_iff_iff]
        exact ⟨h.trans _ _ _ (h.symm _ _ hek), h.trans _ _ _ hek⟩
      rw [if_pos hek, find_cons, find_cons, find_cons, if_pos hek]
      dsimp only
      rw [hiff]
      split <;> rfl
    · rw [if_neg hek, find_cons, ih, find_cons, find_cons, if_neg hek]
      by_cases hkk : eq k k' = true
      · rw [← h.eq_congr hkk e.1, if_neg hek, if_pos hkk, if_pos hkk]
      · rw [if_neg hkk, if_neg hkk]

lemma mem_alter {f : Option V → V} {e : K × V} (he : e ∈ alter eq l k f) :
    e ∈ l ∨ (∃ e' ∈ l, e = (e'.1, f (some e'.2))) ∨ e = (k, f none) := by
  induction l with
  | nil => exact .inr (.inr (mem_singleton.1 he))
  | cons a l ih =>
    rw [alter] at he
    split at he
    · rcases mem_cons.1 he with rfl | he
      · exact .inr (.inl ⟨a, mem_cons_self, rfl⟩)
      · exact .inl (mem_cons_of_mem _ he)
    · rcases mem_cons.1 he with rfl | he
      · exact .inl mem_cons_self
      · rcases ih he with he | ⟨e', he', rfl⟩ | rfl
        · exact .inl (mem_cons_of_mem _ he)
        · exact .inr (.inl ⟨e', mem_cons_of_mem _ he', rfl⟩)
        · exact .inr (.inr rfl)

lemma length_alter_le (f : Option V → V) : (alter eq l k f).length ≤ l.length + 1 := by
  induction l with
  | nil => simp [alter]
  | cons a l ih =>
    rw [alter]
    split
    · simp
    · simpa using ih

/-- The keys that were there stay, and the key is there or an equal one. -/
lemma mem_keys_alter (f : Option V → V) {a : K} (ha : a ∈ l.map Prod.fst) :
    a ∈ (alter eq l k f).map Prod.fst := by
  induction l with
  | nil => simp at ha
  | cons e l ih =>
    rw [alter]
    rw [map_cons, mem_cons] at ha
    split
    · simpa using ha
    · rw [map_cons, mem_cons]
      exact ha.imp_right ih

lemma exists_mem_keys_alter (f : Option V → V) :
    ∃ a ∈ (alter eq l k f).map Prod.fst, a = k ∨ eq a k = true := by
  induction l with
  | nil => exact ⟨k, by simp [alter], .inl rfl⟩
  | cons e l ih =>
    rw [alter]
    split
    case isTrue h => exact ⟨e.1, by simp, .inr h⟩
    case isFalse =>
      obtain ⟨a, ha, hak⟩ := ih
      exact ⟨a, by simpa using .inr (by simpa using ha), hak⟩

/-- A key is found if an equal one is there. -/
lemma find_isSome_iff : (find eq l k).isSome ↔ ∃ a ∈ l.map Prod.fst, eq a k = true := by
  simp [find, find?_isSome]

lemma exists_mem_of_find {v : V} (h : find eq l k = some v) : ∃ a, (a, v) ∈ l := by
  obtain ⟨e, he, rfl⟩ := Option.map_eq_some_iff.1 h
  exact ⟨e.1, mem_of_find?_eq_some he⟩

lemma find_congr (h : Comparison eq) (hk : eq k k' = true) : find eq l k = find eq l k' := by
  induction l with
  | nil => rfl
  | cons e l ih => rw [find_cons, find_cons, h.eq_congr hk, ih]

/-- What is found after several assignments: the last one, if all assign what belongs to the key. -/
lemma find_foldl_assign (h : Comparison eq) {es : List (K × V)} {v : V}
    (hv : ∀ e ∈ es, eq e.1 k = true → e.2 = v) :
    find eq (es.foldl (fun m e => assign eq m e.1 e.2) l) k =
      if ∃ e ∈ es, eq e.1 k = true then some v else find eq l k := by
  induction es generalizing l with
  | nil => simp
  | cons e es ih =>
    rw [foldl_cons, ih fun e' he' => hv e' (mem_cons_of_mem _ he'), assign, find_alter h]
    by_cases hrest : ∃ e' ∈ es, eq e'.1 k = true
    · rw [if_pos hrest, if_pos]
      obtain ⟨e', he', hk⟩ := hrest
      exact ⟨e', mem_cons_of_mem _ he', hk⟩
    · rw [if_neg hrest]
      by_cases hk : eq e.1 k = true
      · rw [if_pos hk, if_pos ⟨e, mem_cons_self, hk⟩, hv e mem_cons_self hk]
      · rw [if_neg hk, if_neg]
        rintro ⟨e', he', hk'⟩
        rcases mem_cons.1 he' with rfl | he'
        · exact hk hk'
        · exact hrest ⟨e', he', hk'⟩

end LooseMap
