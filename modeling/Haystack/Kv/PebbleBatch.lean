import Haystack.Lib.Bytes
import Haystack.Lib.GoMap
import Haystack.Lib.Sorting
import Mathlib.Data.List.TakeWhile

/-!
# Batches and prefix scans of the key-value store

A batch buffers its operations and commits them silently when their number reaches a limit. The
operations on prefixes are operations on ranges that end at the successor of the prefix.
-/

namespace Haystack.Kv

open List

/-- The contents of a store, as an ordered map. -/
abbrev Store := GoMap Bytes Bytes

/-- `keyUpperBound`: the last byte other than `0xff` is incremented and ends the bound. -/
def keyUpperBound (pre : Bytes) : Option Bytes :=
  match pre.reverse.dropWhile (· = 0xff) with
  | [] => none
  | b :: rest => some ((b + 1) :: rest).reverse

inductive Op
  | put (key value : Bytes)
  | delete (key : Bytes)
  | deleteRange (start stop : Bytes)
  | deletePrefix (pre : Bytes)

def deleteRange (start stop : Bytes) (m : Store) : Store :=
  GoMap.filterKeys (fun k => ¬ (start ≤ k ∧ k < stop)) m

def Op.apply (m : Store) : Op → Store
  | put k v => m.insert k v
  | delete k => m.erase k
  | deleteRange start stop => Kv.deleteRange start stop m
  | deletePrefix pre => Kv.deleteRange pre ((keyUpperBound pre).getD (pre ++ [0xff])) m

/-- A batch and the store behind it. -/
structure PebbleBatch where
  store : Store
  ops : List Op
  maxBatchSize : ℤ
  count : ℤ

namespace PebbleBatch

def new (store : Store) (maxBatchSize : ℤ) : PebbleBatch :=
  ⟨store, [], maxBatchSize, 0⟩

def commit (b : PebbleBatch) : PebbleBatch :=
  { b with store := b.ops.foldl Op.apply b.store, count := 0 }

def reset (b : PebbleBatch) : PebbleBatch :=
  { b with ops := [], count := 0 }

def increaseAndTryCommit (b : PebbleBatch) : PebbleBatch :=
  if b.maxBatchSize ≤ 0 then b
  else if b.count + 1 ≥ b.maxBatchSize then b.commit.reset
  else { b with count := b.count + 1 }

/-- `Put`, `Delete`, `DeleteRange` and `DeletePrefix`. -/
def add (b : PebbleBatch) (op : Op) : PebbleBatch :=
  { b with ops := b.ops ++ [op] }.increaseAndTryCommit

lemma store_commit_increaseAndTryCommit (b : PebbleBatch) :
    b.increaseAndTryCommit.commit.store = b.commit.store := by
  rw [increaseAndTryCommit]
  split_ifs <;> rfl

lemma store_commit_addAll (b : PebbleBatch) (ops : List Op) :
    (ops.foldl add b).commit.store = ops.foldl Op.apply b.commit.store := by
  induction ops generalizing b with
  | nil => rfl
  | cons op ops ih =>
    rw [foldl_cons, foldl_cons, ih, add, store_commit_increaseAndTryCommit]
    simp [commit]

end PebbleBatch

/-! ### Prefixes -/

lemma keyUpperBound_eq (pre : Bytes) : keyUpperBound pre = Bytes.prefixUpper pre := by
  induction pre with
  | nil => rfl
  | cons b pre ih =>
    rw [Bytes.prefixUpper, ← ih, keyUpperBound, keyUpperBound, reverse_cons,
      dropWhile_append]
    cases pre.reverse.dropWhile (· = 0xff) with
    | nil => by_cases hb : b = 0xff <;> simp [hb]
    | cons c rest => simp

lemma prefixUpper_eq_none {pre : Bytes} (h : Bytes.prefixUpper pre = none) :
    ∀ b ∈ pre, b = 0xff := by
  rw [← keyUpperBound_eq, keyUpperBound] at h
  split at h
  case h_1 hnil => simpa [dropWhile_eq_nil_iff] using hnil
  case h_2 => simp at h

lemma lookup_deletePrefix (m : Store) {pre : Bytes} (hpre : ∃ b ∈ pre, b ≠ 0xff) (k : Bytes) :
    ((Op.deletePrefix pre).apply m).lookup k = if pre <+: k then none else m.lookup k := by
  obtain ⟨b, hb, hne⟩ := hpre
  obtain ⟨u, hu⟩ := Option.ne_none_iff_exists'.1 fun h => hne (prefixUpper_eq_none h b hb)
  have hrange : pre <+: k ↔ pre ≤ k ∧ k < u := by
    simpa [hu] using Bytes.prefix_iff_range pre k
  rw [Op.apply, deleteRange, GoMap.lookup_filterKeys, keyUpperBound_eq, hu]
  by_cases hk : pre <+: k
  · simp [hk, hrange.1 hk]
  · rw [if_neg hk]
    exact if_pos (decide_eq_true (mt hrange.2 hk))

/-- The entries in the order of their keys. -/
def sorted (m : Store) : List (Bytes × Bytes) :=
  StableSort.sortBy Prod.fst (m.entries.map fun e => (e.1, e.2))

/-- What `scanPrefix` visits: the entries between the bounds, up to the first without the prefix. -/
def scanPrefix (m : Store) (pre : Bytes) : List (Bytes × Bytes) :=
  ((sorted m).filter fun e => pre ≤ e.1 ∧ ∀ u ∈ keyUpperBound pre, e.1 < u).takeWhile
    fun e => pre <+: e.1

lemma scanPrefix_eq (m : Store) (pre : Bytes) :
    scanPrefix m pre = (sorted m).filter fun e => pre <+: e.1 := by
  have hfilter : ((sorted m).filter fun e => pre ≤ e.1 ∧ ∀ u ∈ keyUpperBound pre, e.1 < u) =
      (sorted m).filter fun e => pre <+: e.1 :=
    filter_congr fun e _ => by
      rw [decide_eq_decide, keyUpperBound_eq]
      exact (Bytes.prefix_iff_range pre e.1).symm
  rw [scanPrefix, hfilter, takeWhile_eq_self_iff]
  exact fun e he => (mem_filter.1 he).2

/-- **Batches replay in order.** Wherever the limit makes a batch commit, the store is in the end
what the operations make of it one after the other. `DeletePrefix` removes the keys with the prefix,
and a scan visits the keys with the prefix in their order. -/
theorem batch_replays (store : Store) (maxBatchSize : ℤ) (ops : List Op) :
    let result := (ops.foldl PebbleBatch.add (.new store maxBatchSize)).commit.store
    result = ops.foldl Op.apply store ∧
      (∀ (m : Store) (pre : Bytes), (∃ b ∈ pre, b ≠ 0xff) → ∀ k,
        ((Op.deletePrefix pre).apply m).lookup k = if pre <+: k then none else m.lookup k) ∧
      ∀ pre, (scanPrefix result pre).Pairwise (fun e e' => e.1 < e'.1) ∧
        ∀ e, e ∈ scanPrefix result pre ↔ pre <+: e.1 ∧ result.lookup e.1 = some e.2 := by
  intro result
  refine ⟨PebbleBatch.store_commit_addAll _ _, fun m pre hpre => lookup_deletePrefix m hpre,
    fun pre => ?_⟩
  rw [scanPrefix_eq]
  constructor
  · refine (StableSort.pairwise_lt_sortBy Prod.fst ?_).filter _
    rw [map_map]
    exact result.nodupKeys
  · intro e
    rw [mem_filter, sorted, StableSort.mem_sortBy, mem_map, decide_eq_true_eq, and_comm]
    refine and_congr_right fun _ => ⟨?_, fun h => ⟨⟨e.1, e.2⟩, GoMap.mem_entries_iff.2 h, rfl⟩⟩
    rintro ⟨x, hx, rfl⟩
    exact GoMap.mem_entries_iff.1 hx

end Haystack.Kv
