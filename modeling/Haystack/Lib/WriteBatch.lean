import Haystack.Lib.GoMap

/-!
# A key-value store written through a batch

A batch buffers operations in order and applies them together when it is committed. It counts its
operations and commits by itself when the count reaches a limit; a limit that is not positive
switches the counting off. A commit that fails leaves the store and the buffered operations as they
are, but the count has been reset by then. `Db.ahead` is the store as it will be once the buffered
operations are committed: neither commits nor their failures change it.
-/

namespace WriteBatch

open List

variable {K V : Type*}

inductive Op (K V : Type*)
  | put (k : K) (v : V)
  | delete (k : K)
  deriving DecidableEq, Repr

/-- The key that an operation writes. -/
def Op.key : Op K V → K
  | put k _ => k
  | delete k => k

variable [DecidableEq K] {ops : List (Op K V)} {k : K} (m : GoMap K V)

def Op.apply (m : GoMap K V) : Op K V → GoMap K V
  | put k v => m.insert k v
  | delete k => m.erase k

/-- Apply the operations of a batch in order. -/
def applyAll (m : GoMap K V) (ops : List (Op K V)) : GoMap K V :=
  ops.foldl Op.apply m

lemma applyAll_append (ops ops' : List (Op K V)) :
    applyAll m (ops ++ ops') = applyAll (applyAll m ops) ops' :=
  foldl_append

lemma Op.lookup_apply_of_ne {op : Op K V} (h : op.key ≠ k) :
    (op.apply m).lookup k = m.lookup k := by
  cases op with
  | put k' v => exact AList.lookup_insert_ne (Ne.symm h)
  | delete k' => exact AList.lookup_erase_ne (Ne.symm h)

/-- A key that no operation writes keeps its value. -/
lemma lookup_applyAll_of_forall_ne (h : ∀ op ∈ ops, op.key ≠ k) :
    (applyAll m ops).lookup k = m.lookup k := by
  induction ops generalizing m with
  | nil => rfl
  | cons op ops ih =>
    rw [applyAll, foldl_cons]
    exact (ih _ fun op' h' => h op' (mem_cons_of_mem _ h')).trans
      (Op.lookup_apply_of_ne m (h op mem_cons_self))

/-- A store and the batch that is open on it. `history` lists the states of the store after each
commit so far, oldest first. -/
structure Db (K V : Type*) where
  store : GoMap K V
  ops : List (Op K V)
  count : ℕ
  maxBatchSize : ℤ
  history : List (GoMap K V)

namespace Db

/-- A new batch on `store`. -/
def newBatch (store : GoMap K V) (maxBatchSize : ℤ) : Db K V where
  store := store
  ops := []
  count := 0
  maxBatchSize := maxBatchSize
  history := []

/-- Apply the buffered operations to the store. The count is reset before it is known whether this
fails, and the operations stay in the buffer. -/
def commit (fails : Bool) (d : Db K V) : Db K V :=
  if fails then { d with count := 0 }
  else
    { d with
      count := 0
      store := applyAll d.store d.ops
      history := d.history ++ [applyAll d.store d.ops] }

/-- Empty the buffer. -/
def reset (d : Db K V) : Db K V :=
  { d with count := 0, ops := [] }

/-- Commit and, on success, make the batch ready for reuse. -/
def commitReset (fails : Bool) (d : Db K V) : Db K V :=
  if fails then d.commit true else (d.commit false).reset

def increaseAndTryCommit (fails : Bool) (d : Db K V) : Db K V :=
  if d.maxBatchSize ≤ 0 then d
  else if (d.count + 1 : ℤ) ≥ d.maxBatchSize then
    ({ d with count := d.count + 1 } : Db K V).commitReset fails
  else { d with count := d.count + 1 }

/-- Buffer an operation; `fails` says whether a commit that this causes fails. -/
def add (fails : Bool) (d : Db K V) (op : Op K V) : Db K V :=
  ({ d with ops := d.ops ++ [op] } : Db K V).increaseAndTryCommit fails

/-- The store once the buffered operations are committed. -/
def ahead (d : Db K V) : GoMap K V :=
  applyAll d.store d.ops

/-! ### What an operation can do -/

variable (fails : Bool) (d : Db K V) (op : Op K V)

@[simp] lemma ahead_newBatch (store : GoMap K V) (n : ℤ) : (newBatch store n).ahead = store := rfl

@[simp] lemma ahead_commitReset : (d.commitReset fails).ahead = d.ahead := by
  cases fails <;> rfl

@[simp] lemma maxBatchSize_commitReset :
    (d.commitReset fails).maxBatchSize = d.maxBatchSize := by
  cases fails <;> rfl

/-- Buffering an operation, with or without a commit. -/
lemma add_cases :
    (∃ c, d.add fails op = { d with ops := d.ops ++ [op], count := c } ∧
      (c = 0 ∨ c = d.count + 1) ∧ (0 < d.maxBatchSize → fails = false → c = d.count + 1)) ∨
    0 < d.maxBatchSize ∧ d.add fails op = { d with
      ops := []
      count := 0
      store := applyAll d.store (d.ops ++ [op])
      history := d.history ++ [applyAll d.store (d.ops ++ [op])] } ∨
    d.maxBatchSize ≤ 0 ∧ d.add fails op = { d with ops := d.ops ++ [op] } := by
  unfold add increaseAndTryCommit
  dsimp only
  split
  case isTrue h => exact .inr (.inr ⟨h, rfl⟩)
  case isFalse h =>
    split
    case isFalse => exact .inl ⟨_, rfl, .inr rfl, fun _ _ => rfl⟩
    case isTrue =>
      cases fails with
      | true => exact .inl ⟨_, rfl, .inl rfl, fun _ h => by simp at h⟩
      | false => exact .inr (.inl ⟨by omega, rfl⟩)

@[simp] lemma ahead_add : (d.add fails op).ahead = op.apply d.ahead := by
  have happ : applyAll d.store (d.ops ++ [op]) = op.apply d.ahead := applyAll_append _ _ _
  obtain ⟨c, h, -⟩ | ⟨-, h⟩ | ⟨-, h⟩ := add_cases fails d op <;> rw [h]
  · exact happ
  · exact happ
  · exact happ

@[simp] lemma maxBatchSize_add : (d.add fails op).maxBatchSize = d.maxBatchSize := by
  obtain ⟨c, h, -⟩ | ⟨-, h⟩ | ⟨-, h⟩ := add_cases fails d op <;> rw [h]

/-- What is committed is either what was committed before, or everything buffered by then. -/
lemma store_add : (d.add fails op).store = d.store ∨ (d.add fails op).store = op.apply d.ahead := by
  obtain ⟨c, h, -⟩ | ⟨-, h⟩ | ⟨-, h⟩ := add_cases fails d op <;> rw [h]
  · exact .inl rfl
  · exact .inr (applyAll_append _ _ _)
  · exact .inl rfl

lemma store_commitReset :
    (d.commitReset fails).store = d.store ∨ (d.commitReset fails).store = d.ahead := by
  cases fails
  · exact .inr rfl
  · exact .inl rfl

/-- Buffered operations of the next state come from the buffer or are the new one. -/
lemma mem_ops_add {op' : Op K V} (h : op' ∈ (d.add fails op).ops) : op' ∈ d.ops ∨ op' = op := by
  obtain ⟨c, h', -⟩ | ⟨-, h'⟩ | ⟨-, h'⟩ := add_cases fails d op <;> rw [h'] at h
  · simpa using h
  · simp at h
  · simpa using h

/-! ### Runs of operations without failures -/

/-- Buffer the operations of a list one after the other. -/
def addAll (d : Db K V) (ops : List (Op K V)) : Db K V :=
  ops.foldl (fun d op => d.add false op) d

@[simp] lemma addAll_nil : d.addAll [] = d := rfl

@[simp] lemma addAll_cons (ops : List (Op K V)) :
    d.addAll (op :: ops) = (d.add false op).addAll ops := rfl

lemma addAll_append (ops ops' : List (Op K V)) :
    d.addAll (ops ++ ops') = (d.addAll ops).addAll ops' :=
  foldl_append

@[simp] lemma ahead_addAll (ops : List (Op K V)) : (d.addAll ops).ahead = applyAll d.ahead ops := by
  induction ops generalizing d with
  | nil => rfl
  | cons op ops ih => rw [addAll_cons, ih, ahead_add, applyAll, applyAll, foldl_cons]

@[simp] lemma maxBatchSize_addAll (ops : List (Op K V)) :
    (d.addAll ops).maxBatchSize = d.maxBatchSize := by
  induction ops generalizing d with
  | nil => rfl
  | cons op ops ih => rw [addAll_cons, ih, maxBatchSize_add]

lemma mem_history_add {h : GoMap K V} (hh : h ∈ (d.add fails op).history) :
    h ∈ d.history ∨ h = op.apply d.ahead := by
  obtain ⟨c, h', -⟩ | ⟨-, h'⟩ | ⟨-, h'⟩ := add_cases fails d op <;> rw [h'] at hh
  · exact .inl hh
  · rcases mem_append.1 hh with hh | hh
    · exact .inl hh
    · exact .inr ((mem_singleton.1 hh).trans (applyAll_append _ _ _))
  · exact .inl hh

/-- A commit in the middle of a run of operations stores what is ahead at that moment. -/
lemma mem_history_addAll {h : GoMap K V} (hh : h ∈ (d.addAll ops).history) :
    h ∈ d.history ∨ ∃ p, p <+: ops ∧ h = applyAll d.ahead p := by
  induction ops generalizing d with
  | nil => exact .inl hh
  | cons op ops ih =>
    rcases ih _ hh with hh | ⟨p, hp, rfl⟩
    · rcases mem_history_add _ _ _ hh with hh | rfl
      · exact .inl hh
      · exact .inr ⟨[op], by simp, rfl⟩
    · exact .inr ⟨op :: p, by simpa using hp, by rw [ahead_add]; rfl⟩

/-- As long as the count stays below the limit nothing is committed. -/
lemma addAll_of_count_lt {d : Db K V} (h : (d.count + ops.length : ℤ) < d.maxBatchSize) :
    d.addAll ops = { d with ops := d.ops ++ ops, count := d.count + ops.length } := by
  induction ops generalizing d with
  | nil => simp
  | cons op ops ih =>
    rw [length_cons] at h
    have hadd : d.add false op = { d with ops := d.ops ++ [op], count := d.count + 1 } := by
      rw [add, increaseAndTryCommit]
      dsimp only
      rw [if_neg (by omega), if_neg (by omega)]
    rw [addAll_cons, hadd, ih (by push_cast at h ⊢; omega)]
    simp [Nat.add_assoc, Nat.add_comm 1]

/-- The operation that brings the count to the limit commits everything buffered by then. -/
lemma addAll_of_count_eq {d : Db K V} (hne : ops ≠ [])
    (h : (d.count + ops.length : ℤ) = d.maxBatchSize) :
    applyAll d.ahead ops ∈ (d.addAll ops).history := by
  obtain ⟨init, op, rfl⟩ := ops.eq_nil_or_concat'.resolve_left hne
  have hlen : (init ++ [op]).length = init.length + 1 := by simp
  rw [hlen] at h
  push_cast at h
  have hinit : (d.count + init.length : ℤ) < d.maxBatchSize := by omega
  rw [addAll_append, addAll_of_count_lt hinit, addAll_cons, addAll_nil, add, increaseAndTryCommit]
  dsimp only
  rw [if_neg (by omega), if_pos (by push_cast; omega)]
  simp [commitReset, commit, reset, ahead, applyAll]

lemma history_subset_add : d.history ⊆ (d.add fails op).history := by
  obtain ⟨c, h, -⟩ | ⟨-, h⟩ | ⟨-, h⟩ := add_cases fails d op <;> rw [h]
  · exact fun _ h => h
  · exact subset_append_left _ _
  · exact fun _ h => h

/-- The buffered operations leave the value of `k` as it is. -/
def Settled (d : Db K V) (k : K) : Prop :=
  d.store.lookup k = d.ahead.lookup k

lemma Settled.add (h : d.Settled k) (hne : op.key ≠ k) : (d.add fails op).Settled k := by
  rw [Settled, ahead_add]
  rcases store_add fails d op with heq | heq <;> rw [heq]
  rw [Op.lookup_apply_of_ne _ hne]
  exact h

lemma Settled.addAll (h : d.Settled k) (hne : ∀ op ∈ ops, op.key ≠ k) :
    (d.addAll ops).Settled k := by
  induction ops generalizing d with
  | nil => exact h
  | cons op ops ih =>
    exact ih _ (Settled.add _ _ _ h (hne op mem_cons_self))
      fun op' hop' => hne op' (mem_cons_of_mem _ hop')

/-- The keys that are stored or written by a buffered operation. -/
def Mentions (d : Db K V) (k : K) : Prop :=
  k ∈ d.store ∨ ∃ op ∈ d.ops, op.key = k

omit [DecidableEq K] in
lemma mentions_newBatch {store : GoMap K V} {n : ℤ} :
    (newBatch store n).Mentions k ↔ k ∈ store := by
  simp [Mentions, newBatch]

lemma mem_applyAll {m : GoMap K V} (h : k ∈ applyAll m ops) : k ∈ m ∨ ∃ op ∈ ops, op.key = k := by
  by_contra hno
  rw [not_or, not_exists] at hno
  refine hno.1 (GoMap.mem_iff_exists_lookup.2 ?_)
  rw [← lookup_applyAll_of_forall_ne m fun op hop hkey => hno.2 op ⟨hop, hkey⟩]
  exact GoMap.mem_iff_exists_lookup.1 h

lemma mentions_of_mem_ahead {d : Db K V} (h : k ∈ d.ahead) : d.Mentions k :=
  mem_applyAll h

lemma mentions_add (h : (d.add fails op).Mentions k) : d.Mentions k ∨ k = op.key := by
  rcases h with h | ⟨op', hop', rfl⟩
  · rcases store_add fails d op with heq | heq <;> rw [heq] at h
    · exact .inl (.inl h)
    · have h : k ∈ applyAll d.ahead [op] := h
      rcases mem_applyAll h with h | ⟨op', hop', rfl⟩
      · exact .inl (mentions_of_mem_ahead h)
      · exact .inr (by rw [mem_singleton.1 hop'])
  · rcases mem_ops_add _ _ _ hop' with hop' | rfl
    · exact .inl (.inr ⟨op', hop', rfl⟩)
    · exact .inr rfl

lemma mentions_addAll (h : (d.addAll ops).Mentions k) : d.Mentions k ∨ ∃ op ∈ ops, op.key = k := by
  induction ops generalizing d with
  | nil => exact .inl h
  | cons op ops ih =>
    rcases ih _ h with h | ⟨op', hop', rfl⟩
    · rcases mentions_add _ _ _ h with h | rfl
      · exact .inl h
      · exact .inr ⟨op, mem_cons_self, rfl⟩
    · exact .inr ⟨op', mem_cons_of_mem _ hop', rfl⟩

/-- Without failures a counted batch counts exactly its buffered operations. -/
def Counted (d : Db K V) : Prop :=
  0 < d.maxBatchSize → d.count = d.ops.length

omit [DecidableEq K] in
lemma Counted.newBatch (store : GoMap K V) (n : ℤ) : Counted (newBatch store n) :=
  fun _ => rfl

lemma Counted.add {d : Db K V} (h : d.Counted) (op : Op K V) : (d.add false op).Counted := by
  intro hmax
  rw [maxBatchSize_add] at hmax
  obtain ⟨c, h', -, hc⟩ | ⟨-, h'⟩ | ⟨hle, -⟩ := add_cases false d op
  · rw [h']
    simp [hc hmax rfl, h hmax]
  · rw [h']
    rfl
  · omega

lemma Counted.commitReset (d : Db K V) : (d.commitReset false).Counted :=
  fun _ => rfl

end Db

end WriteBatch
