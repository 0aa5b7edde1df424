import Mathlib.Data.List.Basic
import Mathlib.Tactic

/-!
# Scanning lists

Rules for the first result of a scan, and for a list of partial results in which the elements of one
kind precede those of another.
-/

namespace ListScan

open List

variable {α β γ : Type*} {f : α → Option β} {l : List α}

lemma findSome?_congr {f g : α → Option β} (h : ∀ a ∈ l, f a = g a) :
    l.findSome? f = l.findSome? g := by
  induction l with
  | nil => rfl
  | cons a l ih =>
    have ih := ih fun a' ha' => h a' (mem_cons_of_mem _ ha')
    rw [findSome?_cons, findSome?_cons, h a (mem_cons_self ..), ih]

lemma findSome?_flatMap (l : List α) (f : α → List β) (g : β → Option γ) :
    (l.flatMap f).findSome? g = l.findSome? fun a => (f a).findSome? g := by
  induction l with
  | nil => rfl
  | cons a l ih =>
    rw [flatMap_cons, findSome?_append, ih, findSome?_cons]
    cases (f a).findSome? g <;> rfl

lemma findSome?_toList (o : Option α) (f : α → Option β) : o.toList.findSome? f = o.bind f := by
  cases o with
  | none => rfl
  | some a => cases h : f a <;> simp [h]

lemma findSome?_filter (l : List α) (p : α → Bool) (f : α → Option β) :
    (l.filter p).findSome? f = l.findSome? fun a => if p a then f a else none := by
  induction l with
  | nil => rfl
  | cons a l ih => cases hp : p a <;> simp [hp, ih, findSome?_cons]

lemma mapM_eq_filterMap (h : ∀ a ∈ l, (f a).isSome) : l.mapM f = some (l.filterMap f) := by
  induction l with
  | nil => rfl
  | cons a l ih =>
    obtain ⟨b, hb⟩ := Option.isSome_iff_exists.1 (h a (by simp))
    simp [mapM_cons, hb, ih fun a' ha' => h a' (by simp [ha'])]

/-- If among the elements with a result no element of the kind `p` stands behind one of the other
kind, the results of that kind come first. -/
lemma filterMap_eq_append {p : α → Bool}
    (h : l.Pairwise fun a b => (f a).isSome → (f b).isSome → p b → p a) :
    l.filterMap f = (l.filter p).filterMap f ++ (l.filter fun a => !p a).filterMap f := by
  induction l with
  | nil => rfl
  | cons a l ih =>
    obtain ⟨ha, hl⟩ := pairwise_cons.1 h
    cases hf : f a with
    | none => cases hp : p a <;> simp [hf, hp, ih hl]
    | some v =>
      cases hp : p a with
      | true => simp [hf, hp, ih hl]
      | false =>
        have hnil : (l.filter p).filterMap f = [] := by
          refine filterMap_eq_nil_iff.2 fun b hb => ?_
          obtain ⟨hb, hpb⟩ := mem_filter.1 hb
          by_contra hsome
          have := ha b hb (by simp [hf]) (Option.isSome_iff_ne_none.2 hsome) hpb
          simp [hp] at this
        have := ih hl
        simp [hf, hp, hnil, this]

/-- Keeping the first pair of each key that is not excluded from the start. -/
lemma foldl_firsts {K : Type*} [DecidableEq K] (xs : List (K × α)) (decided : Finset K) :
    let acc := xs.foldl (fun acc x =>
      if x.1 ∈ acc.1 then acc else (insert x.1 acc.1, acc.2 ++ [x])) (decided, [])
    (∀ k, k ∈ acc.1 ↔ k ∈ decided ∨ ∃ x ∈ xs, x.1 = k) ∧ (acc.2.map Prod.fst).Nodup ∧
      ∀ x, x ∈ acc.2 ↔ x.1 ∉ decided ∧ xs.find? (fun y => y.1 = x.1) = some x := by
  induction xs using reverseRecOn with
  | nil => simp
  | append_singleton xs y ih =>
    obtain ⟨hkeys, hnodup, hmem⟩ := ih
    rw [foldl_append, foldl_cons, foldl_nil]
    set acc := xs.foldl _ _
    by_cases hy : y.1 ∈ acc.1
    · rw [if_pos hy]
      refine ⟨fun k => ?_, hnodup, fun x => ?_⟩
      · rw [hkeys]
        have := (hkeys y.1).1 hy
        simp only [mem_append, mem_singleton, or_and_right, exists_or, exists_eq_left]
        constructor
        · exact Or.imp_right .inl
        · rintro (h | h | rfl)
          exacts [.inl h, .inr h, this]
      · rw [hmem, find?_append]
        refine and_congr_right fun hx => ?_
        cases hf : xs.find? (fun y => y.1 = x.1) with
        | some z => simp
        | none =>
          -- a first pair behind `xs` would be `y`, whose key is already taken
          have hne : y.1 ≠ x.1 := by
            intro heq
            rcases (hkeys y.1).1 hy with h | ⟨z, hz, hzk⟩
            · exact hx (heq ▸ h)
            · simpa [hzk, heq] using find?_eq_none.1 hf z hz
          simp [hne]
    · rw [if_neg hy]
      have hnot := mt (hkeys y.1).2 hy
      rw [not_or] at hnot
      refine ⟨fun k => ?_, ?_, fun x => ?_⟩
      · simp [hkeys, or_and_right, exists_or, eq_comm]
        tauto
      · rw [map_append, nodup_append']
        refine ⟨hnodup, by simp, ?_⟩
        simp only [map_cons, map_nil, disjoint_singleton, mem_map, not_exists,
          not_and]
        rintro z hz hzy
        exact hnot.2 ⟨z, mem_of_find?_eq_some ((hmem z).1 hz).2, hzy⟩
      · rw [mem_append, hmem, mem_singleton, find?_append]
        cases hf : xs.find? (fun y => y.1 = x.1) with
        | some z =>
          have hxy : x ≠ y := by
            rintro rfl
            exact hnot.2 ⟨z, mem_of_find?_eq_some hf, by simpa using find?_some hf⟩
          simp [hxy]
        | none =>
          constructor
          · rintro (⟨-, h⟩ | rfl)
            · simp at h
            · exact ⟨hnot.1, by simp⟩
          · rintro ⟨hx, h⟩
            by_cases hyx : y.1 = x.1
            · simp [hyx] at h
              exact .inr h.symm
            · simp [hyx] at h

/-- Rearranging the elements that yield nothing does not change the result. -/
theorem filterMap_eq_of_perm {κ : Type*} [LinearOrder κ] (key : α → κ) {l l' : List α}
    (hperm : l.Perm l') (h : l.Pairwise fun a b => (f a).isSome → (f b).isSome → key a < key b)
    (h' : l'.Pairwise fun a b => (f a).isSome → (f b).isSome → key a < key b) :
    l.filterMap f = l'.filterMap f := by
  have hkeep : ∀ l : List α, (l.filter fun a => (f a).isSome).filterMap f = l.filterMap f := by
    intro l
    rw [filterMap_filter]
    congr 1
    funext a
    cases f a <;> rfl
  have hpair : ∀ {l : List α},
      (l.Pairwise fun a b => (f a).isSome → (f b).isSome → key a < key b) →
        (l.filter fun a => (f a).isSome).Pairwise fun a b => key a < key b := by
    intro l hl
    refine (hl.filter _).imp_of_mem fun {a b} ha hb hab => ?_
    exact hab (mem_filter.1 ha).2 (mem_filter.1 hb).2
  have heq : (l.filter fun a => (f a).isSome) = l'.filter fun a => (f a).isSome :=
    (hperm.filter _).eq_of_pairwise (fun a b _ _ hab hba => absurd hba hab.asymm)
      (hpair h) (hpair h')
  rw [← hkeep l, ← hkeep l', heq]

end ListScan
