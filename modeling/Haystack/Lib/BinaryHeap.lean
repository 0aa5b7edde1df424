import Mathlib.Data.List.Sort
import Mathlib.Tactic

/-!
# Binary heaps

The children of entry `i` of a vector are the entries `2 * i + 1` and `2 * i + 2`. In a heap no entry
has a larger key than its parent, so the first entry has the largest one. `up` and `down` move one
entry that may be in the wrong place.
-/

namespace BinaryHeap

variable {α κ : Type*} {m : ℕ} (worse : α → α → Bool)

/-- An entry changes places with its parent as long as it is worse. -/
def up (v : Vector α m) (j : ℕ) (hj : j < m) : Vector α m :=
  if (j - 1) / 2 = j ∨ worse v[j] v[(j - 1) / 2] = false then v
  else up (v.swap ((j - 1) / 2) j) ((j - 1) / 2) (by omega)
termination_by j
decreasing_by omega

/-- The worse one of the children of an entry that has some. -/
def worseChild (v : Vector α m) (i n : ℕ) (hn : n ≤ m ∧ 2 * i + 1 < n) : ℕ :=
  if h : 2 * i + 2 < n then
    if worse v[2 * i + 2] v[2 * i + 1] then 2 * i + 2 else 2 * i + 1
  else 2 * i + 1

lemma worseChild_mem (v : Vector α m) (i n : ℕ) (hn : n ≤ m ∧ 2 * i + 1 < n) :
    worseChild worse v i n hn < n ∧ i < worseChild worse v i n hn ∧
      (worseChild worse v i n hn - 1) / 2 = i := by
  unfold worseChild
  split_ifs <;> omega

/-- An entry changes places with the worse one of its children as long as this one is worse. -/
def down (v : Vector α m) (i n : ℕ) (hn : n ≤ m) : Vector α m :=
  if hi : 2 * i + 1 < n then
    let j := worseChild worse v i n ⟨hn, hi⟩
    have hj : j < n ∧ i < j ∧ (j - 1) / 2 = i := worseChild_mem worse v i n ⟨hn, hi⟩
    if worse v[j] v[i] then down (v.swap i j) j n hn else v
  else v
termination_by n - i
decreasing_by omega

/-- A new entry. -/
def push (v : Vector α m) (a : α) : Vector α (m + 1) :=
  up worse (v.push a) m (Nat.lt_succ_self m)

/-- The first entry, and the heap without it. -/
def pop (v : Vector α (m + 1)) : α × Vector α m :=
  let v := down worse (v.swap 0 m) 0 m (Nat.le_succ m)
  (v[m], v.pop)

/-- All entries, the worst one last. -/
def drain : {m : ℕ} → Vector α m → List α
  | 0, _ => []
  | _ + 1, v => drain (pop worse v).2 ++ [(pop worse v).1]

variable [LinearOrder κ] (key : α → κ)

/-- The first `n` entries are a heap. -/
def IsHeap (v : Vector α m) (n : ℕ) (hn : n ≤ m) : Prop :=
  ∀ x, 0 < x → ∀ h : x < n, key v[x] ≤ key v[(x - 1) / 2]

/-- The entries are a heap, but entry `j` may be worse than its parent. -/
structure UpOrder (v : Vector α m) (j : ℕ) (hj : j < m) : Prop where
  other : ∀ x, 0 < x → x ≠ j → ∀ h : x < m, key v[x] ≤ key v[(x - 1) / 2]
  grand : 0 < j → ∀ x, 0 < x → (x - 1) / 2 = j → ∀ h : x < m, key v[x] ≤ key v[(j - 1) / 2]

/-- The first `n` entries are a heap, but the children of entry `i` may be worse than it is. -/
structure DownOrder (v : Vector α m) (i n : ℕ) (hn : n ≤ m) : Prop where
  other : ∀ x, 0 < x → (x - 1) / 2 ≠ i → ∀ h : x < n, key v[x] ≤ key v[(x - 1) / 2]
  grand : 0 < i → ∀ x, 0 < x → ∀ (hi : (x - 1) / 2 = i) (h : x < n), key v[x] ≤ key v[(i - 1) / 2]

variable {worse key} {v : Vector α m}

lemma IsHeap.le_first (h : IsHeap key v m le_rfl) (hm : 0 < m) {a : α} (ha : a ∈ v.toList) :
    key a ≤ key v[0] := by
  obtain ⟨x, hx, rfl⟩ := Vector.mem_iff_getElem.1 (Vector.mem_toList_iff.1 ha)
  induction x using Nat.strong_induction_on with
  | _ x ih =>
    by_cases hpos : 0 < x
    · exact (h x hpos hx).trans (ih ((x - 1) / 2) (by omega) (by omega) (by simp))
    · obtain rfl : x = 0 := by omega
      exact le_rfl

/-- The first entry of a heap is replaced. -/
lemma IsHeap.downOrder {v w : Vector α m} {n : ℕ} (hn : n ≤ m) (h : IsHeap key v m le_rfl)
    (heq : ∀ x, 0 < x → ∀ h : x < n, w[x] = v[x]) : DownOrder key w 0 n hn where
  other x hx hp hxn := by
    rw [heq x hx hxn, heq ((x - 1) / 2) (by omega) (by omega)]
    exact h x hx (by omega)
  grand h := absurd h (lt_irrefl 0)

variable (hworse : ∀ a b, worse a b = true ↔ key b < key a)
include hworse

lemma up_spec {j : ℕ} {hj : j < m} (h : UpOrder key v j hj) :
    IsHeap key (up worse v j hj) m le_rfl ∧ (up worse v j hj).Perm v := by
  induction v, j, hj using up.induct worse with
  | case1 v j hj hstop =>
    rw [up, if_pos hstop]
    refine ⟨fun x hx hxm => ?_, .refl _⟩
    by_cases hxj : x = j
    · subst hxj
      obtain hstop | hstop := hstop
      · omega
      · rwa [Bool.eq_false_iff, ne_eq, hworse, not_lt] at hstop
    · exact h.other x hx hxj hxm
  | case2 v j hj hgo ih =>
    rw [up, if_neg hgo]
    obtain ⟨hroot, hlt⟩ := not_or.1 hgo
    rw [Bool.not_eq_false, hworse] at hlt
    have hnext : UpOrder key (v.swap ((j - 1) / 2) j) ((j - 1) / 2) (by omega) := by
      constructor
      · intro x hx hne hxm
        have := h.other x hx
        have := h.grand (by omega) x hx
        simp only [Vector.getElem_swap]
        split_ifs <;> grind
      · intro hpos x hx hparent hxm
        have := h.other x hx
        have := h.other ((j - 1) / 2) hpos
        simp only [Vector.getElem_swap]
        split_ifs <;> grind
    exact ⟨(ih hnext).1, (ih hnext).2.trans (Vector.swap_perm _ _)⟩

lemma le_worseChild {i n : ℕ} (hn : n ≤ m ∧ 2 * i + 1 < n) {x : ℕ} (hx : 0 < x)
    (hi : (x - 1) / 2 = i) (h : x < n) (hj : worseChild worse v i n hn < m) :
    key v[x] ≤ key v[worseChild worse v i n hn] := by
  have hcases : x = 2 * i + 1 ∨ x = 2 * i + 2 := by omega
  have := hworse
  unfold worseChild
  grind

lemma down_spec {i n : ℕ} {hn : n ≤ m} (h : DownOrder key v i n hn) :
    IsHeap key (down worse v i n hn) n hn ∧ (down worse v i n hn).Perm v ∧
      ∀ x (hx : x < m), n ≤ x → (down worse v i n hn)[x] = v[x] := by
  induction v, i using down.induct worse n hn with
  | case1 v i hi j hj hlt ih =>
    rw [down, dif_pos hi]
    dsimp only
    rw [if_pos hlt]
    rw [hworse] at hlt
    have hnext : DownOrder key (v.swap i j) j n hn := by
      constructor
      · intro x hx hne hxn
        have := h.other x hx
        have := fun hpos => h.grand hpos j (by omega)
        have := fun hp => le_worseChild hworse ⟨hn, hi⟩ hx hp hxn (v := v) (by omega)
        simp only [Vector.getElem_swap]
        split_ifs <;> grind
      · intro hpos x hx hp hxn
        have := h.other x hx
        simp only [Vector.getElem_swap]
        split_ifs <;> grind
    obtain ⟨hheap, hperm, hkeep⟩ := ih hnext
    refine ⟨hheap, hperm.trans (Vector.swap_perm _ _), fun x hx hnx => ?_⟩
    rw [hkeep x hx hnx, Vector.getElem_swap_of_ne (by omega) (by omega)]
  | case2 v i hi j hj hge =>
    rw [down, dif_pos hi]
    dsimp only
    rw [if_neg hge]
    rw [hworse, not_lt] at hge
    refine ⟨fun x hx hxn => ?_, .refl _, fun _ _ _ => rfl⟩
    by_cases hp : (x - 1) / 2 = i
    · subst hp
      exact (le_worseChild hworse ⟨hn, hi⟩ hx rfl hxn (by omega)).trans hge
    · exact h.other x hx hp hxn
  | case3 v i hi =>
    rw [down, dif_neg hi]
    exact ⟨fun x hx hxn => h.other x hx (by omega) hxn, .refl _, fun _ _ _ => rfl⟩

theorem push_spec (h : IsHeap key v m le_rfl) (a : α) :
    IsHeap key (push worse v a) (m + 1) le_rfl ∧
      (push worse v a).toList.Perm (v.toList ++ [a]) := by
  have horder : UpOrder key (v.push a) m (Nat.lt_succ_self m) := by
    refine ⟨fun x hx hne hxm => ?_, fun _ x hx hp hxm => by omega⟩
    rw [Vector.getElem_push_lt (show x < m by omega),
      Vector.getElem_push_lt (show (x - 1) / 2 < m by omega)]
    exact h x hx (by omega)
  obtain ⟨hheap, hperm⟩ := up_spec hworse horder
  rw [← Vector.toList_push]
  exact ⟨hheap, hperm.toList⟩

/-- Another first entry. -/
theorem down_set_spec (h : IsHeap key v m le_rfl) (hm : 0 < m) (a : α) :
    IsHeap key (down worse (v.set 0 a) 0 m le_rfl) m le_rfl ∧
      (v[0] :: (down worse (v.set 0 a) 0 m le_rfl).toList).Perm (v.toList ++ [a]) := by
  obtain ⟨hheap, hperm, -⟩ := down_spec hworse (h.downOrder le_rfl (w := v.set 0 a) fun x hx hxm =>
    Vector.getElem_set_ne _ _ hx.ne)
  refine ⟨hheap, (hperm.toList.cons _).trans ?_⟩
  have hlist : v.toList = v[0] :: v.toList.tail := by
    rw [← Vector.getElem_toList (by simpa using hm), List.getElem_zero, List.cons_head_tail]
  rw [Vector.toList_set, hlist, List.set_cons_zero]
  exact (List.Perm.swap _ _ _).trans (List.perm_append_singleton _ _).symm

theorem pop_spec {v : Vector α (m + 1)} (h : IsHeap key v (m + 1) le_rfl) :
    (pop worse v).1 = v[0] ∧ IsHeap key (pop worse v).2 m le_rfl ∧
      ((pop worse v).2.toList ++ [v[0]]).Perm v.toList := by
  obtain ⟨hheap, hperm, hkeep⟩ := down_spec hworse (h.downOrder (Nat.le_succ m) (w := v.swap 0 m)
    fun x hx hxm => Vector.getElem_swap_of_ne hx.ne' hxm.ne)
  have hlast := hkeep m (Nat.lt_succ_self m) le_rfl
  rw [Vector.getElem_swap_right] at hlast
  refine ⟨hlast, fun x hx hxm => ?_, ?_⟩
  · exact (congrArg key (Vector.getElem_pop hxm)).trans_le ((hheap x hx hxm).trans_eq
      (congrArg key (Vector.getElem_pop (show (x - 1) / 2 < m by omega)).symm))
  · have hsplit := congrArg Vector.toList
      (Vector.push_pop_back (down worse (v.swap 0 m) 0 m (Nat.le_succ m)))
    rw [Vector.toList_push] at hsplit
    rw [← hlast]
    exact (List.Perm.of_eq hsplit).trans (hperm.toList.trans (Vector.swap_perm _ _).toList)

theorem drain_spec (h : IsHeap key v m le_rfl) :
    (drain worse v).Pairwise (fun a b => key a ≤ key b) ∧ (drain worse v).Perm v.toList := by
  induction m with
  | zero => exact ⟨.nil, by simp [drain]⟩
  | succ m ih =>
    obtain ⟨hfirst, hheap, hperm⟩ := pop_spec hworse h
    obtain ⟨hsorted, hrest⟩ := ih hheap
    rw [drain, hfirst]
    refine ⟨List.pairwise_append.2 ⟨hsorted, List.pairwise_singleton _ _, fun a ha b hb => ?_⟩,
      (hrest.append_right _).trans hperm⟩
    obtain rfl := List.mem_singleton.1 hb
    exact h.le_first (Nat.succ_pos m) (hperm.subset (List.mem_append_left _ (hrest.subset ha)))

end BinaryHeap
