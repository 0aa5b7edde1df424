import Mathlib.Data.List.Sort
import Mathlib.Tactic

/-!
# Stable sorting by a key

Insertion sort on a key keeps the order of elements with equal keys. After it, the last element of
each run of equal keys is the last one with that key in the original list.
-/

namespace StableSort

open List

variable {α κ : Type*} [LinearOrder κ] (f : α → κ) {l : List α}

/-- Sort by the key `f`, keeping the order of elements with equal keys. -/
def sortBy (l : List α) : List α :=
  l.insertionSort fun a b => f a ≤ f b

lemma pairwise_sortBy (l : List α) : (sortBy f l).Pairwise fun a b => f a ≤ f b :=
  haveI : Std.Total fun a b => f a ≤ f b := ⟨fun a b => le_total (f a) (f b)⟩
  haveI : IsTrans α fun a b => f a ≤ f b := ⟨fun _ _ _ => le_trans⟩
  pairwise_insertionSort _ l

lemma perm_sortBy (l : List α) : (sortBy f l).Perm l :=
  perm_insertionSort _ l

@[simp] lemma mem_sortBy {a : α} : a ∈ sortBy f l ↔ a ∈ l :=
  (perm_sortBy f l).mem_iff

/-- On distinct keys the result is strictly sorted. -/
lemma pairwise_lt_sortBy (h : (l.map f).Nodup) : (sortBy f l).Pairwise fun a b => f a < f b := by
  have hnodup : ((sortBy f l).map f).Nodup := ((perm_sortBy f l).map f).nodup_iff.2 h
  exact (pairwise_sortBy f l).imp₂ (fun _ _ hle hne => lt_of_le_of_ne hle hne)
    (pairwise_map.1 hnodup)

/-- A strictly sorted rearrangement of a list is its sorted version. -/
lemma sortBy_eq_of_perm {l l' : List α} (hperm : l.Perm l') (h : l'.Pairwise fun a b => f a < f b) :
    sortBy f l = l' := by
  have hnodup : (l.map f).Nodup :=
    (hperm.map f).nodup_iff.2 (pairwise_map.2 (h.imp fun hlt => hlt.ne))
  have : Std.Antisymm fun a b => f a < f b := ⟨fun a b h h' => absurd h' h.asymm⟩
  exact ((perm_sortBy f l).trans hperm).eq_of_pairwise' (pairwise_lt_sortBy f hnodup) h

/-- A sorted rearrangement of a list is its sorted version, if different elements have different
keys. -/
lemma eq_sortBy {f : α → κ} (hf : Function.Injective f) {l l' : List α} (hperm : l.Perm l')
    (h : l.Pairwise fun a b => f a ≤ f b) : l = sortBy f l' := by
  have : Std.Antisymm fun a b => f a ≤ f b := ⟨fun a b h h' => hf (le_antisymm h h')⟩
  exact (hperm.trans (perm_sortBy f l').symm).eq_of_pairwise' h (pairwise_sortBy f l')

lemma filter_orderedInsert (k : κ) (a : α) (h : l.Pairwise fun a b => f a ≤ f b) :
    (l.orderedInsert (fun a b => f a ≤ f b) a).filter (fun x => f x = k) =
      (a :: l).filter (fun x => f x = k) := by
  induction l with
  | nil => simp
  | cons b l ih =>
    rw [orderedInsert_cons]
    split
    case isTrue => rfl
    case isFalse hab =>
      obtain ⟨hb, hl⟩ := pairwise_cons.1 h
      -- `a` is moved past `b`, whose key is smaller
      have hlt : f b < f a := not_le.1 hab
      rw [filter_cons, ih hl]
      by_cases hbk : f b = k
      · have hak : f a ≠ k := fun hak => hlt.ne (hbk.trans hak.symm)
        simp [hbk, hak]
      · simp [hbk, filter_cons]

/-- Stability: the elements with a given key keep their order. -/
theorem filter_sortBy (k : κ) (l : List α) :
    (sortBy f l).filter (fun x => f x = k) = l.filter (fun x => f x = k) := by
  induction l with
  | nil => rfl
  | cons a l ih =>
    change ((sortBy f l).orderedInsert _ a).filter _ = _
    rw [filter_orderedInsert f k a (pairwise_sortBy f l), filter_cons, filter_cons, ih]

/-- The ends of a sorted list bound its keys. -/
lemma head_le_and_le_getLast (h : l.Pairwise fun a b => f a ≤ f b) (hne : l ≠ []) {x : α}
    (hx : x ∈ l) : f (l.head hne) ≤ f x ∧ f x ≤ f (l.getLast hne) := by
  constructor
  · have hcons := cons_head_tail hne
    rw [← hcons] at h hx
    rcases mem_cons.1 hx with rfl | hx
    · exact le_rfl
    · exact (pairwise_cons.1 h).1 x hx
  · have happ := dropLast_append_getLast hne
    rw [← happ] at h hx
    rcases mem_append.1 hx with hx | hx
    · exact (pairwise_append.1 h).2.2 x hx _ (by simp)
    · rw [mem_singleton.1 hx]

/-- The last element of each run of equal keys. -/
def lastOfRuns : List α → List α
  | [] => []
  | [a] => [a]
  | a :: b :: l => if f a = f b then lastOfRuns (b :: l) else a :: lastOfRuns (b :: l)

lemma lastOfRuns_sublist (l : List α) : (lastOfRuns f l).Sublist l := by
  induction l using lastOfRuns.induct f with
  | case1 => exact .slnil
  | case2 a => exact Sublist.refl _
  | case3 a b l h ih => rw [lastOfRuns, if_pos h]; exact ih.cons a
  | case4 a b l h ih => rw [lastOfRuns, if_neg h]; exact ih.cons_cons a

/-- The first run and the others. -/
lemma lastOfRuns_cons (a : α) (l : List α) : lastOfRuns f (a :: l) =
    (l.takeWhile fun x => f x = f a).getLast?.getD a ::
      lastOfRuns f (l.dropWhile fun x => f x = f a) := by
  induction l generalizing a with
  | nil => rfl
  | cons b l ih =>
    rw [lastOfRuns]
    by_cases hab : f a = f b
    · rw [if_pos hab, ih b, hab]
      simp [getLast?_cons]
    · simp [hab, Ne.symm hab]

/-- In a sorted list, the last element of a run is the last element with its key. -/
lemma pairwise_lastOfRuns (h : l.Pairwise fun a b => f a ≤ f b) :
    (lastOfRuns f l).Pairwise fun a b => f a < f b := by
  induction l using lastOfRuns.induct f with
  | case1 => exact .nil
  | case2 a => exact pairwise_singleton _ a
  | case3 a b l heq ih =>
    rw [lastOfRuns, if_pos heq]
    exact ih h.of_cons
  | case4 a b l hne ih =>
    obtain ⟨ha, hl⟩ := pairwise_cons.1 h
    rw [lastOfRuns, if_neg hne]
    refine pairwise_cons.2 ⟨fun x hx => ?_, ih hl⟩
    have hlt : f a < f b := lt_of_le_of_ne (ha b mem_cons_self) hne
    rcases mem_cons.1 ((lastOfRuns_sublist f (b :: l)).subset hx) with rfl | hx
    · exact hlt
    · exact hlt.trans_le ((pairwise_cons.1 hl).1 x hx)

lemma mem_lastOfRuns_iff (h : l.Pairwise fun a b => f a ≤ f b) {x : α} :
    x ∈ lastOfRuns f l ↔ (l.filter fun y => f y = f x).getLast? = some x := by
  induction l using lastOfRuns.induct f with
  | case1 => simp [lastOfRuns]
  | case2 a =>
    by_cases ha : f a = f x
    · simp [lastOfRuns, ha, eq_comm]
    · simp only [lastOfRuns, mem_singleton, ha, decide_false, Bool.false_eq_true,
        not_false_eq_true, filter_cons_of_neg, filter_nil, getLast?_nil,
        reduceCtorEq, iff_false]
      exact fun hx => ha (hx ▸ rfl)
  | case3 a b l hab ih =>
    rw [lastOfRuns, if_pos hab, ih (pairwise_cons.1 h).2]
    by_cases ha : f a = f x
    · have hb : f b = f x := hab ▸ ha
      simp [ha, hb]
    · simp [ha]
  | case4 a b l hab ih =>
    obtain ⟨hle, hl⟩ := pairwise_cons.1 h
    rw [lastOfRuns, if_neg hab, mem_cons, ih hl]
    by_cases ha : f a = f x
    · -- the run of `a` is `a` alone: every later key is larger
      have hnil : (b :: l).filter (fun y => f y = f x) = [] := by
        refine filter_eq_nil_iff.2 fun y hy => ?_
        have hlt : f a < f b := lt_of_le_of_ne (hle b (by simp)) hab
        have hby : f b ≤ f y := by
          rcases mem_cons.1 hy with rfl | hy
          · exact le_rfl
          · exact (pairwise_cons.1 hl).1 y hy
        simpa using (hlt.trans_le hby).ne'.symm ∘ fun hyx => ha.trans hyx.symm
      rw [filter_cons_of_pos (a := a) (by simpa using ha), hnil]
      simp [eq_comm]
    · rw [filter_cons_of_neg (a := a) (by simpa using ha), or_iff_right_iff_imp]
      exact fun hx => absurd (hx ▸ rfl) ha

/-- The last elements of the runs of the sorted list are the last elements for their keys in the
list itself. -/
theorem mem_lastOfRuns_sortBy_iff {x : α} :
    x ∈ lastOfRuns f (sortBy f l) ↔ (l.filter fun y => f y = f x).getLast? = some x := by
  rw [mem_lastOfRuns_iff f (pairwise_sortBy f l), filter_sortBy]

end StableSort
