import Mathlib.Tactic

/-!
# Runs of a labelled step function

A system is a partial step function on states; a label carries whatever the step does not
determine by itself. `Run step ok s₀ ls s` says that the labels `ls` lead from `s₀` to `s` and that
each of them met the condition `ok` in the state it was taken from. The last section has the
corresponding rules for folds and traversals whose steps may fail.
-/

namespace StepSystem

open Option List

variable {σ ℓ : Type*}

/-- The runs from `s₀` all of whose steps meet the condition `ok`. -/
inductive Run (step : σ → ℓ → Option σ) (ok : σ → ℓ → Prop) (s₀ : σ) : List ℓ → σ → Prop
  | nil : Run step ok s₀ [] s₀
  | snoc {ls : List ℓ} {s s' : σ} {l : ℓ} (hrun : Run step ok s₀ ls s) (hok : ok s l)
      (hstep : step s l = some s') : Run step ok s₀ (ls ++ [l]) s'

variable {step : σ → ℓ → Option σ} {ok : σ → ℓ → Prop} {s₀ s s' : σ} {ls : List ℓ}

/-- What holds at the start and is kept by every step that meets the condition holds throughout. -/
theorem Run.invariant {I : List ℓ → σ → Prop} (hinit : I [] s₀)
    (hstep : ∀ {ls s l s'}, I ls s → ok s l → step s l = some s' → I (ls ++ [l]) s')
    (hrun : Run step ok s₀ ls s) : I ls s := by
  induction hrun with
  | nil => exact hinit
  | snoc _ hok h ih => exact hstep ih hok h

lemma Run.trans {ls' : List ℓ} (h : Run step ok s₀ ls s) (h' : Run step ok s ls' s') :
    Run step ok s₀ (ls ++ ls') s' := by
  induction h' with
  | nil => simpa using h
  | snoc _ hok hs ih => simpa using Run.snoc ih hok hs

variable (step ok)

/-- Take the steps of `ls` one by one, as long as each is possible and meets the condition. -/
def exec [∀ s l, Decidable (ok s l)] : σ → List ℓ → Option σ
  | s, [] => some s
  | s, l :: ls => if ok s l then (step s l).bind fun s' => exec s' ls else none

variable {step ok}

theorem Run.of_exec [∀ s l, Decidable (ok s l)] (h : exec step ok s₀ ls = some s) :
    Run step ok s₀ ls s := by
  induction ls generalizing s₀ with
  | nil => exact some.inj h ▸ .nil
  | cons l ls ih =>
    rw [exec] at h
    split at h
    case isFalse => simp at h
    case isTrue hok =>
      obtain ⟨s₁, h₁, h⟩ := bind_eq_some_iff.1 h
      exact Run.trans (.snoc .nil hok h₁) (ih h)

/-- A run can be found by taking its steps; what is decided at its end may imply more. -/
theorem Run.exists_of_exec_imp [∀ s l, Decidable (ok s l)] (Q : σ → Prop) [DecidablePred Q]
    {R : σ → Prop} (h : (exec step ok s₀ ls).any (fun s => Q s) = true)
    (hR : ∀ s, Run step ok s₀ ls s → Q s → R s) : ∃ s, Run step ok s₀ ls s ∧ R s := by
  obtain ⟨s, hs, hQ⟩ := (any_eq_true _ _).1 h
  exact ⟨s, .of_exec hs, hR s (.of_exec hs) (of_decide_eq_true hQ)⟩

theorem Run.exists_of_exec [∀ s l, Decidable (ok s l)] {Q : σ → Prop} [DecidablePred Q]
    (h : (exec step ok s₀ ls).any (fun s => Q s) = true) : ∃ s, Run step ok s₀ ls s ∧ Q s :=
  Run.exists_of_exec_imp Q h fun _ _ hQ => hQ

/-- If every step lowers a measure, no run goes on for ever. -/
theorem acc_of_lt {M : Type*} [LT M] [WellFoundedLT M] (μ : σ → M) {I : σ → Prop}
    (hstep : ∀ {s l s'}, I s → step s l = some s' → I s' ∧ μ s' < μ s) (h : I s) :
    Acc (fun s' s => ∃ l, step s l = some s') s := by
  induction hμ : μ s using WellFoundedLT.induction generalizing s with
  | ind m ih =>
    refine ⟨s, fun s' ⟨l, hl⟩ => ?_⟩
    obtain ⟨hI, hlt⟩ := hstep h hl
    exact ih (μ s') (hμ ▸ hlt) hI rfl

/-- One of several tasks and the others. -/
lemma perm_cons_eraseIdx {α : Type*} {l : List α} {i : ℕ} {a : α} (h : l[i]? = some a) :
    l.Perm (a :: l.eraseIdx i) := by
  obtain ⟨hi, rfl⟩ := List.getElem?_eq_some_iff.1 h
  exact (List.getElem_cons_eraseIdx_perm hi).symm

/-! ### Folds with a partial step -/

variable {α β : Type*} {f : α → Option β} {R : α → β → Prop} {l : List α} {l' : List β}

/-- A fold whose every step succeeds from a state described by the elements consumed so far. -/
theorem foldlM_invariant {f : β → α → Option β} {P : List α → β → Prop} {b : β} (hinit : P [] b)
    (hstep : ∀ {pre a b}, a ∈ l → P pre b → ∃ b', f b a = some b' ∧ P (pre ++ [a]) b') :
    ∃ b', l.foldlM f b = some b' ∧ P l b' := by
  induction l using reverseRecOn with
  | nil => exact ⟨b, rfl, hinit⟩
  | append_singleton l a ih =>
    obtain ⟨b₁, h₁, hP₁⟩ := ih fun ha => hstep (mem_append_left _ ha)
    obtain ⟨b₂, h₂, hP₂⟩ := hstep (mem_append_right _ (mem_singleton_self a)) hP₁
    exact ⟨b₂, by simp [foldlM_append, h₁, h₂], hP₂⟩

/-- A fold that ends: what each step adds to the description of the elements consumed so far. -/
theorem foldlM_consumes {f : β → α → Option β} {P : List α → β → Prop} {b b' : β} (hinit : P [] b)
    (hstep : ∀ {pre a b b'}, P pre b → f b a = some b' → P (pre ++ [a]) b')
    (h : l.foldlM f b = some b') : P l b' := by
  induction l using reverseRecOn generalizing b' with
  | nil => exact some.inj h ▸ hinit
  | append_singleton l a ih =>
    rw [foldlM_append] at h
    obtain ⟨b₁, h₁, h⟩ := bind_eq_some_iff.1 h
    rw [foldlM_cons] at h
    obtain ⟨b₂, h₂, h⟩ := bind_eq_some_iff.1 h
    exact some.inj h ▸ hstep (ih h₁) h₂

/-- What every step of a fold keeps holds at its end. -/
theorem foldlM_preserves {f : β → α → Option β} {P : β → Prop} {b b' : β}
    (hstep : ∀ {a b b'}, P b → f b a = some b' → P b') (hinit : P b) (h : l.foldlM f b = some b') :
    P b' :=
  foldlM_consumes (P := fun _ => P) hinit hstep h

/-- A traversal whose every call succeeds. -/
theorem exists_mapM_eq_some (h : ∀ a ∈ l, ∃ b, f a = some b ∧ R a b) :
    ∃ l', l.mapM f = some l' ∧ List.Forall₂ R l l' := by
  induction l with
  | nil => exact ⟨[], rfl, .nil⟩
  | cons a l ih =>
    obtain ⟨b, hb, hR⟩ := h a (by simp)
    obtain ⟨l', hl', hRs⟩ := ih fun a' ha' => h a' (by simp [ha'])
    exact ⟨b :: l', by simp [mapM_cons, hb, hl'], .cons hR hRs⟩

lemma mapM_congr {f f' : α → Option β} (h : ∀ a ∈ l, f a = f' a) : l.mapM f = l.mapM f' := by
  induction l with
  | nil => rfl
  | cons a l ih =>
    rw [mapM_cons, mapM_cons, h a mem_cons_self,
      ih fun a' ha' => h a' (mem_cons_of_mem _ ha')]

lemma forall₂_of_mapM (h : l.mapM f = some l') : List.Forall₂ (fun a b => f a = some b) l l' := by
  induction l generalizing l' with
  | nil =>
    cases h
    exact .nil
  | cons a l ih =>
    rw [mapM_cons] at h
    obtain ⟨b, hb, h⟩ := bind_eq_some_iff.1 h
    obtain ⟨l₀, hl₀, h⟩ := bind_eq_some_iff.1 h
    cases h
    exact .cons hb (ih hl₀)

lemma forall₂_filterMap_of_isSome (h : ∀ a ∈ l, (f a).isSome) :
    List.Forall₂ (fun a b => f a = some b) l (l.filterMap f) := by
  induction l with
  | nil => exact .nil
  | cons a l ih =>
    obtain ⟨b, hb⟩ := isSome_iff_exists.1 (h a (by simp))
    rw [filterMap_cons_some hb]
    exact .cons hb (ih fun a' ha' => h a' (by simp [ha']))

lemma Forall₂.exists_getElem? (h : List.Forall₂ R l l') {i : ℕ} {a : α} (ha : l[i]? = some a) :
    ∃ b, l'[i]? = some b ∧ R a b := by
  induction h generalizing i with
  | nil => simp at ha
  | cons hR _ ih =>
    cases i with
    | zero => exact ⟨_, rfl, some.inj ha ▸ hR⟩
    | succ i => exact ih ha

lemma Forall₂.exists_left (h : List.Forall₂ R l l') {b : β} (hb : b ∈ l') : ∃ a ∈ l, R a b := by
  induction h with
  | nil => cases hb
  | cons hR _ ih =>
    rcases mem_cons.1 hb with rfl | hb
    · exact ⟨_, mem_cons_self, hR⟩
    · obtain ⟨a, ha, hRa⟩ := ih hb
      exact ⟨a, mem_cons_of_mem _ ha, hRa⟩

lemma Forall₂.exists_right (h : List.Forall₂ R l l') {a : α} (ha : a ∈ l) : ∃ b ∈ l', R a b :=
  Forall₂.exists_left h.flip ha

lemma exists_of_mem_mapM (h : l.mapM f = some l') {b : β} (hb : b ∈ l') : ∃ a ∈ l, f a = some b :=
  Forall₂.exists_left (forall₂_of_mapM h) hb

/-- A traversal with a given set of results. -/
lemma exists_mapM_toFinset_iff [DecidableEq β] {bs : List β} :
    (∃ l', l.mapM f = some l' ∧ l'.toFinset = bs.toFinset) ↔
      (∀ a ∈ l, ∃ b ∈ bs, f a = some b) ∧ ∀ b ∈ bs, ∃ a ∈ l, f a = some b := by
  constructor
  · rintro ⟨l', hl', heq⟩
    have hmem : ∀ b, b ∈ l' ↔ b ∈ bs := fun b => by
      rw [← List.mem_toFinset, heq, List.mem_toFinset]
    refine ⟨fun a ha => ?_, fun b hb => exists_of_mem_mapM hl' ((hmem b).2 hb)⟩
    obtain ⟨b, hb, hab⟩ := Forall₂.exists_right (forall₂_of_mapM hl') ha
    exact ⟨b, (hmem b).1 hb, hab⟩
  · rintro ⟨hleft, hright⟩
    obtain ⟨l', hl', hR⟩ := exists_mapM_eq_some (R := fun a b => f a = some b ∧ b ∈ bs) (l := l)
      fun a ha => let ⟨b, hb, hab⟩ := hleft a ha; ⟨b, hab, hab, hb⟩
    refine ⟨l', hl', Finset.ext fun b => ?_⟩
    rw [List.mem_toFinset, List.mem_toFinset]
    constructor
    · intro hb
      obtain ⟨a, -, -, hbs⟩ := Forall₂.exists_left hR hb
      exact hbs
    · intro hb
      obtain ⟨a, ha, hab⟩ := hright b hb
      obtain ⟨b', hb', hab', -⟩ := Forall₂.exists_right hR ha
      rwa [some.inj (hab.symm.trans hab')]

end StepSystem
