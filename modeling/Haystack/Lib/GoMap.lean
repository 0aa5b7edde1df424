import Mathlib.Data.List.AList
import Mathlib.Tactic

/-!
# Finite maps with one value type

Association lists with distinct keys, used for maps whose iteration order is not specified. The
lookups after an update are stated as case distinctions on the key.
-/

/-- A finite map from `K` to `V`. -/
abbrev GoMap (K V : Type*) := AList fun _ : K => V

namespace GoMap

open List

variable {K V : Type*} [DecidableEq K] {k : K} {l : List (K × V)} {m : GoMap K V} {v : V}

lemma lookup_insert_if (m : GoMap K V) (k k' : K) (v : V) :
    (m.insert k' v).lookup k = if k = k' then some v else m.lookup k := by
  split
  case isTrue h => rw [h, AList.lookup_insert]
  case isFalse h => exact AList.lookup_insert_ne h

lemma lookup_erase_if (m : GoMap K V) (k k' : K) :
    (m.erase k').lookup k = if k = k' then none else m.lookup k := by
  split
  case isTrue h => rw [h, AList.lookup_erase]
  case isFalse h => exact AList.lookup_erase_ne h

lemma mem_iff_exists_lookup : k ∈ m ↔ ∃ v, m.lookup k = some v := by
  rw [← AList.lookup_isSome, Option.isSome_iff_exists]

/-- Filling a map by a function of the key. -/
lemma lookup_foldl_insert (f : K → V) (m : GoMap K V) {l : List K} (hk : k ∈ l) :
    (l.foldl (fun m k => m.insert k (f k)) m).lookup k = some (f k) := by
  induction l using reverseRecOn with
  | nil => simp at hk
  | append_singleton l k' ih =>
    rw [foldl_append, foldl_cons, foldl_nil, lookup_insert_if]
    split
    case isTrue h => rw [h]
    case isFalse h => exact ih (by simpa [h] using hk)

/-- Entering pairs with other keys. -/
lemma lookup_foldl_insert_of_ne (m : GoMap K V) (hk : ∀ x ∈ l, x.1 ≠ k) :
    (l.foldl (fun m x => m.insert x.1 x.2) m).lookup k = m.lookup k := by
  induction l generalizing m with
  | nil => rfl
  | cons x l ih =>
    rw [foldl_cons, ih _ fun y hy => hk y (mem_cons_of_mem _ hy), lookup_insert_if,
      if_neg (hk x mem_cons_self).symm]

/-- Filling a map from pairs that give each key one value. -/
lemma lookup_foldl_insert_iff (hl : ∀ {k v v'}, (k, v) ∈ l → (k, v') ∈ l → v = v') :
    (l.foldl (fun m x => m.insert x.1 x.2) (∅ : GoMap K V)).lookup k = some v ↔ (k, v) ∈ l := by
  induction l using reverseRecOn with
  | nil => simp
  | append_singleton l x ih =>
    obtain ⟨k', v'⟩ := x
    rw [foldl_append, foldl_cons, foldl_nil, lookup_insert_if, mem_append,
      mem_singleton, Prod.mk.injEq]
    split
    case isTrue hk =>
      subst hk
      rw [Option.some.injEq]
      refine ⟨fun hv => .inr ⟨rfl, hv.symm⟩, fun h => ?_⟩
      obtain h | ⟨-, rfl⟩ := h
      · exact hl (by simp) (mem_append_left _ h)
      · rfl
    case isFalse hk =>
      rw [ih fun h h' => hl (mem_append_left _ h) (mem_append_left _ h')]
      simp [hk]

/-- Filling a map from the graph of a function. -/
lemma lookup_foldl_insert_eq {f : K → Option V} (h : ∀ {k v}, (k, v) ∈ l ↔ f k = some v) (k : K) :
    (l.foldl (fun m x => m.insert x.1 x.2) (∅ : GoMap K V)).lookup k = f k :=
  Option.ext fun _ => (lookup_foldl_insert_iff fun hv hv' =>
    Option.some.inj ((h.1 hv).symm.trans (h.1 hv'))).trans h

/-- Erasing every key. -/
lemma foldl_erase_keys (m : GoMap K V) : m.keys.foldl (fun m k => m.erase k) m = ∅ := by
  have hkeys : ∀ (l : List K) (m : GoMap K V),
      (l.foldl (fun m k => m.erase k) m).keys = m.keys.diff l := by
    intro l
    induction l with
    | nil => exact fun m => (diff_nil _).symm
    | cons k l ih =>
      intro m
      rw [foldl_cons, ih, AList.keys_erase, diff_cons]
  have hnil : (m.keys.foldl (fun m k => m.erase k) m).keys = [] := by
    rw [hkeys]
    refine eq_nil_iff_forall_not_mem.2 fun k hk => ?_
    exact ((m.keys_nodup.mem_sdiff_iff).1 hk).2 (diff_subset _ _ hk)
  exact AList.ext (map_eq_nil_iff.1 hnil)

/-- Erasing other keys. -/
lemma lookup_foldl_erase (m : GoMap K V) {l : List K} (hk : k ∉ l) :
    (l.foldl (fun m k => m.erase k) m).lookup k = m.lookup k := by
  induction l generalizing m with
  | nil => rfl
  | cons k' l ih =>
    rw [mem_cons, not_or] at hk
    rw [foldl_cons, ih _ hk.2, AList.lookup_erase_ne hk.1]

/-- The map with every value replaced by a function of key and value. -/
def mapValues {W : Type*} (f : K → V → W) (m : GoMap K V) : GoMap K W where
  entries := m.entries.map fun e => ⟨e.1, f e.1 e.2⟩
  nodupKeys := by
    have hkeys : (m.entries.map fun e => (⟨e.1, f e.1 e.2⟩ : Sigma fun _ : K => W)).keys =
        m.entries.keys := by
      simp [List.keys]
    rw [List.NodupKeys, hkeys]
    exact m.nodupKeys

lemma lookup_mapValues {W : Type*} (f : K → V → W) (m : GoMap K V) (k : K) :
    (mapValues f m).lookup k = (m.lookup k).map (f k) := by
  have hentries : ∀ l : List (Sigma fun _ : K => V),
      (l.map fun e => (⟨e.1, f e.1 e.2⟩ : Sigma fun _ : K => W)).dlookup k =
        (l.dlookup k).map (f k) := by
    intro l
    induction l with
    | nil => rfl
    | cons e l ih =>
      obtain ⟨k', v⟩ := e
      by_cases h : k = k'
      · subst h
        simp
      · simp [dlookup_cons_ne _ (⟨k', v⟩ : Sigma fun _ : K => V) h,
          dlookup_cons_ne _ (⟨k', f k' v⟩ : Sigma fun _ : K => W) h, ih]
  exact hentries m.entries

/-- The entries that pass a test. -/
def filterEntries (p : K → V → Bool) (m : GoMap K V) : GoMap K V where
  entries := m.entries.filter fun e => p e.1 e.2
  nodupKeys := m.nodupKeys.sublist List.filter_sublist

lemma lookup_filterEntries (p : K → V → Bool) (m : GoMap K V) (k : K) :
    (filterEntries p m).lookup k = (m.lookup k).filter (p k) := by
  have hentries : ∀ l : List (Sigma fun _ : K => V), l.NodupKeys →
      (l.filter fun e => p e.1 e.2).dlookup k = (l.dlookup k).filter (p k) := by
    intro l hl
    induction l with
    | nil => rfl
    | cons e l ih =>
      obtain ⟨k', v⟩ := e
      obtain ⟨hk', htail⟩ := nodupKeys_cons.1 hl
      by_cases h : k = k'
      · subst h
        have hnone : l.dlookup k = none := dlookup_eq_none.2 hk'
        by_cases hp : p k v = true
        · simp [hp, Option.filter]
        · simp [hp, ih htail, hnone, Option.filter]
      · have hne := fun l => dlookup_cons_ne l (⟨k', v⟩ : Sigma fun _ : K => V) h
        by_cases hp : p k' v = true <;> simp [hp, ih htail, hne]
  exact hentries m.entries m.nodupKeys

/-- The entries whose key passes a test. -/
def filterKeys (p : K → Bool) (m : GoMap K V) : GoMap K V where
  entries := m.entries.filter fun e => p e.1
  nodupKeys := m.nodupKeys.sublist List.filter_sublist

lemma lookup_filterKeys (p : K → Bool) (m : GoMap K V) (k : K) :
    (filterKeys p m).lookup k = if p k then m.lookup k else none := by
  refine (lookup_filterEntries (fun k _ => p k) m k).trans ?_
  cases m.lookup k <;> simp [Option.filter]

/-- The values of a map. -/
def values (m : GoMap K V) : List V :=
  m.entries.map Sigma.snd

lemma mem_entries_iff : (⟨k, v⟩ : Sigma fun _ : K => V) ∈ m.entries ↔ m.lookup k = some v := by
  rw [← AList.mem_lookup_iff, Option.mem_def]

lemma mem_values_of_lookup (h : m.lookup k = some v) : v ∈ values m :=
  mem_map.2 ⟨⟨k, v⟩, mem_entries_iff.2 h, rfl⟩

/-- Searching the entries of one key. -/
lemma findSome?_entries {β : Type*} (m : GoMap K V) (k : K) (f : V → Option β) :
    m.entries.findSome? (fun e => if e.1 = k then f e.2 else none) = (m.lookup k).bind f := by
  have hnodup := m.nodupKeys
  change _ = (dlookup k m.entries).bind f
  generalize m.entries = l at hnodup ⊢
  induction l with
  | nil => rfl
  | cons e l ih =>
    obtain ⟨k', v⟩ := e
    obtain ⟨hk', hl⟩ := nodupKeys_cons.1 hnodup
    by_cases h : k' = k
    · subst h
      have hnone : l.findSome? (fun e => if e.1 = k' then f e.2 else none) = none := by
        refine findSome?_eq_none_iff.2 fun e he => ?_
        rw [if_neg]
        rintro rfl
        exact hk' (mem_map.2 ⟨e, he, rfl⟩)
      rw [findSome?_cons, hnone, dlookup_cons_eq]
      cases hf : f v <;> simp [hf]
    · rw [findSome?_cons, dlookup_cons_ne _ _ (Ne.symm h), if_neg h]
      exact ih hl

/-- The values of the keys with a property, added up. -/
lemma sum_filter_entries {M : Type*} [AddCommMonoid M] (m : GoMap K M) (p : K → Prop)
    [DecidablePred p] :
    ((m.entries.filter fun e => p e.1).map Sigma.snd).sum =
      ∑ k ∈ m.keys.toFinset.filter p, (m.lookup k).getD 0 := by
  have hnodup : (m.keys.filter fun k => p k).Nodup := m.nodupKeys.filter _
  have hkeys : m.keys.filter (fun k => p k) = (m.entries.filter fun e => p e.1).map Sigma.fst := by
    change (m.entries.map Sigma.fst).filter _ = _
    rw [filter_map]
    rfl
  have hfinset : m.keys.toFinset.filter p = (m.keys.filter fun k => p k).toFinset := by
    ext k
    simp
  rw [hfinset, sum_toFinset _ hnodup, hkeys, map_map]
  refine congrArg sum (map_congr_left fun e he => ?_)
  have : m.lookup e.1 = some e.2 := mem_entries_iff.1 (mem_of_mem_filter he)
  simp [this]

/-! ### Counting keys -/

/-- The number of keys with a property. -/
def countKeys (m : GoMap K V) (p : K → Bool) : ℕ :=
  m.keys.countP p

variable {m : GoMap K V} {p : K → Bool} {k : K} (f : V → ℕ)

lemma countKeys_insert_new (hk : m.lookup k = none) (v : V) :
    countKeys (m.insert k v) p = countKeys m p + if p k then 1 else 0 := by
  have hmem : k ∉ m.keys := fun h => by
    obtain ⟨v', hv'⟩ := mem_iff_exists_lookup.1 (AList.mem_keys.2 h)
    simp [hk] at hv'
  rw [countKeys, countKeys, AList.keys_insert, erase_of_not_mem hmem, countP_cons]

lemma countKeys_insert_old (hk : (m.lookup k).isSome) (v : V) :
    countKeys (m.insert k v) p = countKeys m p := by
  have hmem : k ∈ m.keys := AList.mem_keys.1 (AList.lookup_isSome.1 hk)
  rw [countKeys, countKeys, AList.keys_insert]
  exact ((perm_cons_erase hmem).symm).countP_eq p

lemma countKeys_erase (hk : (m.lookup k).isSome) :
    countKeys m p = countKeys (m.erase k) p + if p k then 1 else 0 := by
  have hmem : k ∈ m.keys := AList.mem_keys.1 (AList.lookup_isSome.1 hk)
  rw [countKeys, countKeys, AList.keys_erase, (perm_cons_erase hmem).countP_eq p,
    countP_cons]

/-! ### Adding up values -/

/-- The sum of a measure over the values. -/
def total (f : V → ℕ) (m : GoMap K V) : ℕ :=
  (m.entries.map fun e => f e.2).sum

omit [DecidableEq K] in
@[simp] lemma total_empty : total f (∅ : GoMap K V) = 0 := rfl

lemma total_erase (m : GoMap K V) (k : K) :
    total f (m.erase k) + ((m.lookup k).map f).getD 0 = total f m := by
  have hentries : (m.erase k).entries = m.entries.kerase k := rfl
  rw [total, total, hentries]
  by_cases hk : k ∈ m.entries.keys
  · obtain ⟨v, l₁, l₂, -, hsplit, herase⟩ := exists_of_kerase hk
    have hlookup : m.lookup k = some v := mem_entries_iff.1 (by rw [hsplit]; simp)
    rw [herase, hlookup, hsplit]
    simp [add_comm, add_left_comm]
  · have hlookup : m.lookup k = none := AList.lookup_eq_none.2 hk
    rw [kerase_of_notMem_keys hk, hlookup]
    rfl

lemma total_insert (m : GoMap K V) (k : K) (v : V) :
    total f (m.insert k v) + ((m.lookup k).map f).getD 0 = total f m + f v := by
  have hinsert : total f (m.insert k v) = f v + total f (m.erase k) := rfl
  have herase := total_erase f m k
  omega

end GoMap
