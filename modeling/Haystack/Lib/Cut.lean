import Mathlib.Tactic

/-!
# Cutting a string at a delimiter

The first and the last occurrence of a delimiter cut a string in two. The part on the far side of
the cut has no delimiter, which makes the cut of a concatenation known.
-/

namespace Cut

variable {α : Type*} [DecidableEq α]

/-- What stands before and after the first `c`. -/
def first (c : α) : List α → Option (List α × List α)
  | [] => none
  | b :: s => if b = c then some ([], s) else (first c s).map fun p => (b :: p.1, p.2)

/-- What stands before and after the last `c`. -/
def last (c : α) (s : List α) : Option (List α × List α) :=
  (first c s.reverse).map fun p => (p.2.reverse, p.1.reverse)

variable {c : α} {s u v : List α}

theorem first_eq_some_iff : first c s = some (u, v) ↔ s = u ++ c :: v ∧ c ∉ u := by
  induction s generalizing u with
  | nil => simp [first]
  | cons b s ih =>
    rw [first]
    split
    case isTrue hb =>
      subst hb
      cases u with
      | nil => simp [eq_comm]
      | cons d u =>
        simp only [Option.some.injEq, Prod.mk.injEq, List.cons_append, List.cons.injEq,
          List.mem_cons, not_or]
        constructor
        · rintro ⟨h, -⟩
          cases h
        · rintro ⟨⟨h, -⟩, h', -⟩
          exact absurd h h'
    case isFalse hb =>
      cases u with
      | nil => simp [hb]
      | cons d u =>
        simp only [Option.map_eq_some_iff, Prod.mk.injEq, List.cons.injEq, Prod.exists,
          List.cons_append, List.mem_cons, not_or]
        constructor
        · rintro ⟨u', v', h, ⟨rfl, rfl⟩, rfl⟩
          obtain ⟨rfl, hu⟩ := ih.1 h
          exact ⟨⟨rfl, rfl⟩, Ne.symm hb, hu⟩
        · rintro ⟨⟨rfl, rfl⟩, -, hu⟩
          exact ⟨u, v, ih.2 ⟨rfl, hu⟩, ⟨rfl, rfl⟩, rfl⟩

theorem last_eq_some_iff : last c s = some (u, v) ↔ s = u ++ c :: v ∧ c ∉ v := by
  simp only [last, Option.map_eq_some_iff, Prod.exists, Prod.mk.injEq, first_eq_some_iff]
  constructor
  · rintro ⟨u', v', ⟨h, hu'⟩, rfl, rfl⟩
    exact ⟨by simpa using congrArg List.reverse h, by simpa using hu'⟩
  · rintro ⟨rfl, hv⟩
    exact ⟨v.reverse, u.reverse, ⟨by simp, by simpa using hv⟩, by simp, by simp⟩

lemma first_append (hu : c ∉ u) : first c (u ++ c :: v) = some (u, v) :=
  first_eq_some_iff.2 ⟨rfl, hu⟩

lemma last_append (hv : c ∉ v) : last c (u ++ c :: v) = some (u, v) :=
  last_eq_some_iff.2 ⟨rfl, hv⟩

/-- The part after the last delimiter is determined. -/
lemma append_inj_right {u' v' : List α} (hv : c ∉ v) (hv' : c ∉ v')
    (h : u ++ c :: v = u' ++ c :: v') : u = u' ∧ v = v' := by
  have := (last_append (u := u) hv).symm.trans (h ▸ last_append hv')
  exact Prod.mk.inj (Option.some.inj this)

/-- The part before the first delimiter is determined. -/
lemma append_inj_left {u' v' : List α} (hu : c ∉ u) (hu' : c ∉ u')
    (h : u ++ c :: v = u' ++ c :: v') : u = u' ∧ v = v' := by
  have := (first_append (v := v) hu).symm.trans (h ▸ first_append hu')
  exact Prod.mk.inj (Option.some.inj this)

end Cut
