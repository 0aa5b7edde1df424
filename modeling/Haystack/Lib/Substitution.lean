import Mathlib.Data.List.Basic

/-!
# Replacing single elements by lists

Replacing the occurrences of several elements one after the other is the same as replacing them all
at once, as long as no pass inserts an element that a later pass replaces.
-/

namespace Substitution

open List

variable {α : Type*} [DecidableEq α] {ps : List (α × List α)}

/-- Every occurrence of `old` becomes `new`. -/
def replaceAll (old : α) (new s : List α) : List α :=
  s.flatMap fun c => if c = old then new else [c]

/-- One replacement after the other. -/
def passes (ps : List (α × List α)) (s : List α) : List α :=
  ps.foldl (fun s p => replaceAll p.1 p.2 s) s

lemma passes_cons (p : α × List α) (ps : List (α × List α)) (s : List α) :
    passes (p :: ps) s = passes ps (replaceAll p.1 p.2 s) := rfl

lemma passes_flatMap {β : Type*} (ps : List (α × List α)) (f : β → List α) (s : List β) :
    passes ps (s.flatMap f) = s.flatMap fun c => passes ps (f c) := by
  induction ps generalizing f with
  | nil => rfl
  | cons p ps ih => rw [passes_cons, replaceAll, flatMap_assoc, ih]; rfl

lemma passes_eq_self {s : List α} (h : ∀ p ∈ ps, p.1 ∉ s) : passes ps s = s := by
  induction ps with
  | nil => rfl
  | cons p ps ih =>
    have hself : replaceAll p.1 p.2 s = s := by
      conv_rhs => rw [← flatMap_singleton' s]
      refine flatMap_congr fun c hc => if_neg ?_
      rintro rfl
      exact h p mem_cons_self hc
    rw [passes_cons, hself]
    exact ih fun q hq => h q (mem_cons_of_mem p hq)

lemma passes_singleton (h : ps.Pairwise fun p q => q.1 ∉ p.2) (c : α) :
    passes ps [c] = (ps.lookup c).getD [c] := by
  induction ps with
  | nil => rfl
  | cons p ps ih =>
    obtain ⟨hp, hps⟩ := pairwise_cons.1 h
    rw [passes_cons, replaceAll, flatMap_singleton, lookup_cons]
    by_cases hc : c = p.1
    · rw [if_pos hc, passes_eq_self hp, beq_iff_eq.2 hc]
      rfl
    · rw [if_neg hc, ih hps, beq_eq_false_iff_ne.2 hc]

/-- The passes make one substitution. -/
theorem passes_eq_flatMap (h : ps.Pairwise fun p q => q.1 ∉ p.2) (s : List α) :
    passes ps s = s.flatMap fun c => (ps.lookup c).getD [c] := by
  conv_lhs => rw [← flatMap_singleton' s]
  rw [passes_flatMap]
  exact flatMap_congr fun c _ => passes_singleton h c

end Substitution
