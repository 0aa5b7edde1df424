import Mathlib.Tactic

/-!
# K-way merging of keyed runs

A cursor stands at the front of each of several runs. Every round takes the least key under the
cursors, collects the *row* of records under the cursors that carry it (one optional record per
run, in the order of the runs), and moves exactly those cursors on. `rows` lists the rows of all
rounds.

Whatever the runs are, the rows restricted to one run are that run (`filterMap_rows`). If the runs
are strictly increasing, the rows come in strictly increasing key order and the row of a key is
what the runs hold for that key (`mem_rows_iff`).
-/

namespace KWay

open List

variable {α κ : Type*} [LinearOrder κ] (key : α → κ)

/-! ### Runs -/

/-- Strictly increasing keys. -/
def StrictRun (s : List α) : Prop :=
  s.Pairwise fun a b => key a < key b

/-- Keys with the property `p` are above all keys before them. -/
def StrictOn (p : κ → Prop) (s : List α) : Prop :=
  s.Pairwise fun a b => p (key b) → key a < key b

/-- The record a run holds for the key `k`. -/
def lookup (k : κ) (s : List α) : Option α :=
  s.find? fun a => decide (key a = k)

variable {key} {s : List α} {k : κ} {a : α} {p : κ → Prop}

lemma key_of_lookup (h : lookup key k s = some a) : key a = k := by
  simpa using find?_some h

lemma mem_of_lookup (h : lookup key k s = some a) : a ∈ s :=
  mem_of_find?_eq_some h

/-- If the keys are distinct, a lookup finds the one record with the key. -/
lemma lookup_eq_some_iff (hs : (s.map key).Nodup) :
    lookup key k s = some a ↔ a ∈ s ∧ key a = k := by
  refine ⟨fun h => ⟨mem_of_lookup h, key_of_lookup h⟩, ?_⟩
  rintro ⟨ha, rfl⟩
  cases h : lookup key (key a) s with
  | none => exact absurd (find?_eq_none.1 h a ha) (by simp)
  | some b => rw [inj_on_of_nodup_map hs (mem_of_lookup h) ha (key_of_lookup h)]

lemma StrictRun.nodup (hs : StrictRun key s) : (s.map key).Nodup :=
  pairwise_map.2 (hs.imp fun h => h.ne)

lemma StrictRun.eq_of_key_eq (hs : StrictRun key s) {a b : α} (ha : a ∈ s) (hb : b ∈ s)
    (hab : key a = key b) : a = b :=
  inj_on_of_nodup_map hs.nodup ha hb hab

lemma StrictRun.lookup_eq_some_iff (hs : StrictRun key s) :
    lookup key k s = some a ↔ a ∈ s ∧ key a = k :=
  KWay.lookup_eq_some_iff hs.nodup

lemma StrictRun.strictOn (hs : StrictRun key s) (p : κ → Prop) : StrictOn key p s := by
  refine Pairwise.imp ?_ hs
  exact fun hlt _ => hlt

/-- The records with a key that has the property: at most one. -/
lemma StrictOn.filter_key_eq (hs : StrictOn key p s) (hk : p k) :
    s.filter (fun a => key a = k) = (lookup key k s).toList := by
  induction s with
  | nil => rfl
  | cons a s ih =>
    obtain ⟨ha, hs⟩ := pairwise_cons.1 hs
    by_cases hka : key a = k
    · have hnil : s.filter (fun a => key a = k) = [] := by
        refine filter_eq_nil_iff.2 fun b hb => ?_
        have hne : key b ≠ k := fun hbk => (ha b hb (hbk ▸ hk)).ne (hka.trans hbk.symm)
        simpa using hne
      simp [lookup, hka, hnil]
    · have ih := ih hs
      simpa [lookup, hka] using ih

/-! ### One round -/

variable (key)

/-- The least key under the cursors, `none` once every run is drained. -/
def minKey : List (List α) → Option κ
  | [] => none
  | [] :: srcs => minKey srcs
  | (a :: _) :: srcs =>
    match minKey srcs with
    | none => some (key a)
    | some k => some (min (key a) k)

/-- The record under the cursor of a run, if its key is `k`. -/
def hit (k : κ) : List α → Option α
  | [] => none
  | a :: _ => if key a = k then some a else none

/-- Move the cursor of a run past a record with key `k`. -/
def advance (k : κ) : List α → List α
  | [] => []
  | a :: s => if key a = k then s else a :: s

/-- The rows of at most `fuel` rounds. -/
def rows : ℕ → List (List α) → List (List (Option α))
  | 0, _ => []
  | fuel + 1, srcs =>
    match minKey key srcs with
    | none => []
    | some k => srcs.map (hit key k) :: rows fuel (srcs.map (advance key k))

/-- The number of records in all runs, a bound on the number of rounds. -/
def size (srcs : List (List α)) : ℕ :=
  (srcs.map List.length).sum

variable {key} {srcs : List (List α)} {row : List (Option α)} {fuel : ℕ}

variable (key) in
lemma hit_append_advance (k : κ) (s : List α) : (hit key k s).toList ++ advance key k s = s := by
  cases s with
  | nil => rfl
  | cons a s => by_cases h : key a = k <;> simp [hit, advance, h]

lemma hit_eq_some (h : hit key k s = some a) : a ∈ s ∧ key a = k := by
  cases s with
  | nil => simp [hit] at h
  | cons b s =>
    by_cases hb : key b = k
    · simp only [hit, hb, if_true, Option.some.injEq] at h
      exact h ▸ ⟨mem_cons_self, hb⟩
    · simp [hit, hb] at h

lemma advance_sublist (k : κ) (s : List α) : (advance key k s).Sublist s := by
  cases s with
  | nil => exact Sublist.refl _
  | cons a s => by_cases h : key a = k <;> simp [advance, h]

variable (key) in
lemma length_advance (k : κ) (s : List α) :
    (advance key k s).length + (hit key k s).toList.length = s.length := by
  conv_rhs => rw [← hit_append_advance key k s]
  rw [length_append, add_comm]

lemma minKey_eq_none (h : minKey key srcs = none) : ∀ s ∈ srcs, s = [] := by
  induction srcs with
  | nil => simp
  | cons s srcs ih =>
    cases s with
    | nil => simpa using ih h
    | cons a s =>
      simp only [minKey] at h
      split at h <;> simp at h

/-- The least key is under some cursor and no cursor is at a smaller one. -/
lemma minKey_eq_some (h : minKey key srcs = some k) :
    (∃ s ∈ srcs, (hit key k s).isSome) ∧ ∀ s ∈ srcs, ∀ a ∈ s.head?, k ≤ key a := by
  induction srcs generalizing k with
  | nil => simp [minKey] at h
  | cons s srcs ih =>
    cases s with
    | nil =>
      obtain ⟨⟨s, hs, hhit⟩, hle⟩ := ih h
      exact ⟨⟨s, mem_cons_of_mem _ hs, hhit⟩, by simpa using hle⟩
    | cons a s =>
      cases hk : minKey key srcs with
      | none =>
        simp only [minKey, hk, Option.some.injEq] at h
        subst h
        refine ⟨⟨a :: s, by simp, by simp [hit]⟩, fun s' hs' b hb => ?_⟩
        rcases mem_cons.1 hs' with rfl | hs'
        · simp only [head?_cons, Option.mem_def, Option.some.injEq] at hb
          exact hb ▸ le_rfl
        · simp [minKey_eq_none hk s' hs'] at hb
      | some k' =>
        simp only [minKey, hk, Option.some.injEq] at h
        obtain ⟨⟨s', hs', hhit⟩, hle⟩ := ih hk
        refine ⟨?_, fun s'' hs'' b hb => ?_⟩
        · rcases min_choice (key a) k' with hm | hm
          · exact ⟨a :: s, by simp, by simp [hit, ← h, hm]⟩
          · exact ⟨s', mem_cons_of_mem _ hs', by rw [← h, hm]; exact hhit⟩
        · rcases mem_cons.1 hs'' with rfl | hs''
          · simp only [head?_cons, Option.mem_def, Option.some.injEq] at hb
            exact h ▸ hb ▸ min_le_left _ _
          · exact h ▸ (min_le_right _ _).trans (hle s'' hs'' b hb)

/-- A round that finds a key consumes a record. -/
lemma size_advance_lt (h : ∃ s ∈ srcs, (hit key k s).isSome) :
    size (srcs.map (advance key k)) < size srcs := by
  simp only [size, map_map]
  refine sum_lt_sum _ _ (fun s _ => (advance_sublist k s).length_le) ?_
  obtain ⟨s, hs, hhit⟩ := h
  refine ⟨s, hs, ?_⟩
  obtain ⟨a, ha⟩ := Option.isSome_iff_exists.1 hhit
  have := length_advance key k s
  simp only [ha, Option.toList_some, length_singleton, Function.comp_apply] at this ⊢
  omega

/-! ### All rounds -/

variable (key) in
/-- The rows, restricted to the run at position `i`, are that run. -/
theorem filterMap_rows (fuel : ℕ) (srcs : List (List α)) (hfuel : size srcs ≤ fuel) (i : ℕ) :
    (rows key fuel srcs).filterMap (fun row => row[i]?.join) = srcs[i]?.getD [] := by
  induction fuel generalizing srcs with
  | zero =>
    have hnil : ∀ s ∈ srcs, s = [] := by
      simpa [size, sum_eq_zero_iff] using hfuel
    cases hi : srcs[i]? with
    | none => rfl
    | some s => simp [rows, hnil s (mem_of_getElem? hi)]
  | succ fuel ih =>
    rw [rows]
    cases hk : minKey key srcs with
    | none =>
      cases hi : srcs[i]? with
      | none => rfl
      | some s => simp [minKey_eq_none hk s (mem_of_getElem? hi)]
    | some k =>
      have hlt := size_advance_lt (minKey_eq_some hk).1
      have htail := ih (srcs.map (advance key k)) (by omega)
      simp only [getElem?_map] at htail
      simp only [filterMap_cons, htail, getElem?_map]
      cases hi : srcs[i]? with
      | none => rfl
      | some s =>
        have := hit_append_advance key k s
        cases hh : hit key k s <;> simp_all

lemma mem_rows_length (h : row ∈ rows key fuel srcs) : row.length = srcs.length := by
  induction fuel generalizing srcs with
  | zero => simp [rows] at h
  | succ fuel ih =>
    rw [rows] at h
    split at h
    · simp at h
    · rcases mem_cons.1 h with rfl | h
      · simp
      · simpa using ih h

/-- A row is not empty and its records share one key. -/
lemma exists_key_of_mem_rows (h : row ∈ rows key fuel srcs) :
    ∃ k, (∃ a, some a ∈ row) ∧ ∀ a, some a ∈ row → key a = k := by
  induction fuel generalizing srcs with
  | zero => simp [rows] at h
  | succ fuel ih =>
    rw [rows] at h
    split at h
    · simp at h
    case h_2 k hk =>
      rcases mem_cons.1 h with rfl | h
      · obtain ⟨s, hs, hhit⟩ := (minKey_eq_some hk).1
        obtain ⟨a, ha⟩ := Option.isSome_iff_exists.1 hhit
        refine ⟨k, ⟨a, mem_map.2 ⟨s, hs, ha⟩⟩, fun b hb => ?_⟩
        obtain ⟨s', -, hb'⟩ := mem_map.1 hb
        exact (hit_eq_some hb').2
      · exact ih h

/-- A record of a row comes from the run at its position. -/
lemma mem_run_of_mem_rows (h : row ∈ rows key fuel srcs) {i : ℕ} (ha : row[i]? = some (some a)) :
    ∃ s, srcs[i]? = some s ∧ a ∈ s := by
  induction fuel generalizing srcs with
  | zero => simp [rows] at h
  | succ fuel ih =>
    rw [rows] at h
    split at h
    · simp at h
    case h_2 k hk =>
      rcases mem_cons.1 h with rfl | h
      · rw [getElem?_map, Option.map_eq_some_iff] at ha
        obtain ⟨s, hs, ha⟩ := ha
        exact ⟨s, hs, (hit_eq_some ha).1⟩
      · obtain ⟨s, hs, ha⟩ := ih h
        rw [getElem?_map, Option.map_eq_some_iff] at hs
        obtain ⟨s', hs', rfl⟩ := hs
        exact ⟨s', hs', (advance_sublist k s').subset ha⟩

/-! ### Strictly increasing runs -/

/-- Past a round at the least key `k` only larger keys with the property are left. -/
lemma lt_of_mem_advance (hs : StrictOn key p s) (hle : ∀ a ∈ s.head?, k ≤ key a) {b : α}
    (hb : b ∈ advance key k s) (hp : p (key b)) : k < key b := by
  cases s with
  | nil => simp [advance] at hb
  | cons a s =>
    have ha : k ≤ key a := hle a rfl
    have hrest := (pairwise_cons.1 hs).1
    by_cases hk : key a = k
    · simp only [advance, hk, if_true] at hb
      exact hk ▸ hrest b hb hp
    · simp only [advance, hk, if_false] at hb
      rcases mem_cons.1 hb with rfl | hb
      · exact lt_of_le_of_ne ha (Ne.symm hk)
      · exact ha.trans_lt (hrest b hb hp)

/-- The rows keep the order of the runs on the keys with the property. -/
theorem pairwise_rows_on (fuel : ℕ) (hs : ∀ s ∈ srcs, StrictOn key p s) :
    (rows key fuel srcs).Pairwise
      fun row row' => ∀ a, some a ∈ row → ∀ b, some b ∈ row' → p (key b) → key a < key b := by
  induction fuel generalizing srcs with
  | zero => simp [rows]
  | succ fuel ih =>
    rw [rows]
    split
    · simp
    case h_2 k hk =>
      have hadv : ∀ s ∈ srcs.map (advance key k), StrictOn key p s := by
        simp only [mem_map, forall_exists_index, and_imp, forall_apply_eq_imp_iff₂]
        exact fun s h => (hs s h).sublist (advance_sublist k s)
      refine pairwise_cons.2 ⟨fun row hrow a ha b hb hp => ?_, ih hadv⟩
      obtain ⟨s, -, ha⟩ := mem_map.1 ha
      obtain ⟨i, hi⟩ := getElem?_of_mem hb
      obtain ⟨s', hs', hb⟩ := mem_run_of_mem_rows hrow hi
      rw [getElem?_map, Option.map_eq_some_iff] at hs'
      obtain ⟨s', hs', rfl⟩ := hs'
      have hmem := mem_of_getElem? hs'
      rw [(hit_eq_some ha).2]
      exact lt_of_mem_advance (hs s' hmem) ((minKey_eq_some hk).2 s' hmem) hb hp

/-- The rows of strictly increasing runs come in strictly increasing key order. -/
theorem pairwise_rows (fuel : ℕ) (hs : ∀ s ∈ srcs, StrictRun key s) :
    (rows key fuel srcs).Pairwise
      fun row row' => ∀ a, some a ∈ row → ∀ b, some b ∈ row' → key a < key b := by
  have hon : ∀ s ∈ srcs, StrictOn key (fun _ => True) s := fun s h => (hs s h).strictOn _
  exact (pairwise_rows_on fuel hon).imp fun h a ha b hb => h a ha b hb trivial

/-- A list in which nothing with the property follows something without it splits in two. -/
lemma exists_append_of_pairwise {β : Type*} {p : β → Prop} {l : List β}
    (h : l.Pairwise fun x y => p y → p x) :
    ∃ a b, l = a ++ b ∧ (∀ x ∈ a, p x) ∧ ∀ x ∈ b, ¬ p x := by
  induction l with
  | nil => exact ⟨[], [], rfl, by simp, by simp⟩
  | cons x l ih =>
    obtain ⟨hx, hl⟩ := pairwise_cons.1 h
    by_cases hp : p x
    · obtain ⟨a, b, rfl, ha, hb⟩ := ih hl
      exact ⟨x :: a, b, rfl, by simpa using ⟨hp, ha⟩, hb⟩
    · exact ⟨[], x :: l, rfl, by simp, by simpa using ⟨hp, fun y hy => mt (hx y hy) hp⟩⟩

/-- The rows of strictly increasing runs are the lookups of the keys that occur in them. -/
theorem mem_rows_iff (hs : ∀ s ∈ srcs, StrictRun key s) (hfuel : size srcs ≤ fuel)
    (row : List (Option α)) :
    row ∈ rows key fuel srcs ↔
      ∃ k, row = srcs.map (lookup key k) ∧ ∃ a, some a ∈ row := by
  -- a record of a run is in some row, at the position of its run
  have hcover : ∀ {i : ℕ} {s : List α} {a : α}, srcs[i]? = some s → a ∈ s →
      ∃ row ∈ rows key fuel srcs, row[i]? = some (some a) := by
    intro i s a hi ha
    have hproj := filterMap_rows key fuel srcs hfuel i
    rw [hi, Option.getD_some] at hproj
    rw [← hproj, mem_filterMap] at ha
    obtain ⟨row, hrow, hra⟩ := ha
    exact ⟨row, hrow, Option.join_eq_some_iff.1 hra⟩
  -- rows with a common key coincide
  have huniq : ∀ row ∈ rows key fuel srcs, ∀ row' ∈ rows key fuel srcs, ∀ a b,
      some a ∈ row → some b ∈ row' → key a = key b → row = row' := by
    intro row hrow row' hrow' a b ha hb hab
    by_contra hne
    have hp := Pairwise.forall_of_forall_of_flip (R := fun row row' => row = row' ∨
      ∀ a, some a ∈ row → ∀ b, some b ∈ row' → key a ≠ key b) (fun _ _ => .inl rfl)
      ((pairwise_rows fuel hs).imp fun h => .inr fun a ha b hb => (h a ha b hb).ne)
      ((pairwise_rows fuel hs).imp fun h => .inr fun a ha b hb => (h b hb a ha).ne')
    rcases hp hrow hrow' with h | h
    · exact hne h
    · exact h a ha b hb hab
  -- a row is the lookup of its key at every position
  have heq : ∀ row ∈ rows key fuel srcs, ∀ a, some a ∈ row →
      row = srcs.map (lookup key (key a)) := by
    intro row hrow a ha
    refine ext_getElem? fun i => ?_
    obtain ⟨k, -, hk⟩ := exists_key_of_mem_rows hrow
    have hlen := mem_rows_length hrow
    rw [getElem?_map]
    cases hi : srcs[i]? with
    | none =>
      rw [getElem?_eq_none_iff] at hi
      simpa [hlen] using hi
    | some s =>
      have hsi := hs s (List.mem_of_getElem? hi)
      obtain ⟨hilt, -⟩ := List.getElem?_eq_some_iff.1 hi
      obtain ⟨o, ho⟩ : ∃ o, row[i]? = some o := ⟨_, getElem?_eq_getElem (hlen ▸ hilt)⟩
      rw [ho, Option.map_some, Option.some.injEq]
      cases o with
      | some b =>
        obtain ⟨s', hs', hb⟩ := mem_run_of_mem_rows hrow ho
        obtain rfl : s = s' := Option.some.inj (hi.symm.trans hs')
        refine (hsi.lookup_eq_some_iff.2 ⟨hb, ?_⟩).symm
        rw [hk a ha, hk b (mem_of_getElem? ho)]
      | none =>
        cases hl : lookup key (key a) s with
        | none => rfl
        | some b =>
          obtain ⟨row', hrow', hb⟩ := hcover hi (mem_of_lookup hl)
          have := huniq row hrow row' hrow' a b ha (mem_of_getElem? hb) (key_of_lookup hl).symm
          rw [this, hb] at ho
          simp at ho
  constructor
  · intro hrow
    obtain ⟨k, ⟨a, ha⟩, -⟩ := exists_key_of_mem_rows hrow
    exact ⟨key a, heq row hrow a ha, a, ha⟩
  · rintro ⟨k, rfl, a, ha⟩
    obtain ⟨s, hsmem, ha⟩ := mem_map.1 ha
    obtain ⟨i, hi⟩ := getElem?_of_mem hsmem
    obtain ⟨row, hrow, hra⟩ := hcover hi (mem_of_lookup ha)
    rw [← key_of_lookup ha, ← heq row hrow a (mem_of_getElem? hra)]
    exact hrow

end KWay
