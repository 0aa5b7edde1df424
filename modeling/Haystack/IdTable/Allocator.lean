import Haystack.Lib.Decimal
import Haystack.Lib.WriteBatch

/-!
# The id allocator

`idtable` hands out 64-bit ids for byte keys. A mapping sits in an LRU cache, in a batch that is not
committed yet, or in the store; reads look in the cache and in the store only. The store keeps the
next free id under a key of its own.
-/

namespace Haystack.IdTable

open WriteBatch

/-! ### The LRU cache -/

/-- A cache of fixed capacity; `entries` lists the most recently used entry first. -/
structure LruCache where
  capacity : ℕ
  entries : List (Bytes × Int64)
  deriving DecidableEq

def newLRUCache (capacity : ℤ) : LruCache :=
  ⟨capacity.toNat, []⟩

namespace LruCache

/-- Move the entry of `key` to the front, with the given value. -/
def moveToFront (c : LruCache) (key : Bytes) (value : Int64) : LruCache :=
  { c with entries := (key, value) :: c.entries.filter (·.1 ≠ key) }

def get (c : LruCache) (key : Bytes) : Option Int64 × LruCache :=
  if c.capacity = 0 then (none, c)
  else
    match c.entries.find? (·.1 = key) with
    | some e => (some e.2, c.moveToFront key e.2)
    | none => (none, c)

def put (c : LruCache) (key : Bytes) (value : Int64) : LruCache :=
  if c.capacity = 0 then c
  else if (c.entries.find? (·.1 = key)).isSome then c.moveToFront key value
  else
    -- a full cache drops its least recently used entry
    { c with
      entries := (key, value) ::
        if c.entries.length ≥ c.capacity then c.entries.dropLast else c.entries }

def clear (c : LruCache) : LruCache :=
  { c with entries := [] }

variable {c : LruCache} {key : Bytes} {e : Bytes × Int64}

lemma mem_of_get_eq_some {v : Int64} (h : (c.get key).1 = some v) : (key, v) ∈ c.entries := by
  unfold get at h
  split at h
  · simp at h
  · split at h
    case h_2 => simp at h
    case h_1 e he =>
      have hkey : e.1 = key := by simpa using List.find?_some he
      obtain ⟨k, w⟩ := e
      obtain rfl : w = v := by simpa using h
      exact hkey ▸ List.mem_of_find?_eq_some he

lemma mem_moveToFront {value : Int64} (h : e ∈ (c.moveToFront key value).entries) :
    e = (key, value) ∨ e ∈ c.entries := by
  rcases List.mem_cons.1 h with h | h
  · exact .inl h
  · exact .inr (List.mem_of_mem_filter h)

/-- Reading brings nothing new into the cache. -/
lemma mem_entries_get (h : e ∈ (c.get key).2.entries) : e ∈ c.entries := by
  cases hget : (c.get key).1 with
  | some v =>
    have hmem := mem_of_get_eq_some hget
    unfold get at h hget
    split at h
    · exact h
    · split at h
      · rcases mem_moveToFront h with rfl | h
        · simp_all
        · exact h
      · exact h
  | none =>
    unfold get at h hget
    split at h
    · exact h
    · split at h
      · simp_all
      · exact h

lemma mem_entries_put {value : Int64} (h : e ∈ (c.put key value).entries) :
    e = (key, value) ∨ e ∈ c.entries := by
  unfold put at h
  split at h
  · exact .inr h
  · split at h
    · exact mem_moveToFront h
    · rcases List.mem_cons.1 h with h | h
      · exact .inl h
      · split at h
        · exact .inr (List.dropLast_subset _ h)
        · exact .inr h

end LruCache

/-! ### Encodings -/

def toBytes (v : Int64) : Bytes :=
  Bytes.bigEndian 8 v.toUInt64.toNat

/-- The id in the first eight bytes; a shorter string makes the decoder panic. -/
def fromBytes (buf : Bytes) : Option Int64 :=
  if buf.length < 8 then none
  else some (UInt64.ofNat (Bytes.ofBigEndian (buf.take 8))).toInt64

@[simp] lemma fromBytes_toBytes (v : Int64) : fromBytes (toBytes v) = some v := by
  have hlen : (toBytes v).length = 8 := Bytes.length_bigEndian _ _
  have hlt : v.toUInt64.toNat < 256 ^ 8 := v.toUInt64.toNat_lt
  rw [fromBytes, if_neg (by omega), List.take_of_length_le hlen.le, toBytes,
    Bytes.ofBigEndian_bigEndian, Nat.mod_eq_of_lt hlt, UInt64.ofNat_toNat]
  simp

lemma toBytes_inj {v w : Int64} (h : toBytes v = toBytes w) : v = w := by
  have := congrArg fromBytes h
  simpa using this

/-- A number that cannot be read counts as `-1`. -/
def parseId (id : Bytes) : Int64 :=
  match Decimal.atoi id with
  | some v => Int64.ofInt v
  | none => -1

def formatId (v : Int64) : Bytes :=
  Decimal.itoa v.toInt

@[simp] lemma parseId_formatId (v : Int64) : parseId (formatId v) = v := by
  have hlo : -2 ^ 63 ≤ v.toInt := Int64.le_toInt v
  have hhi : v.toInt < 2 ^ 63 := Int64.toInt_lt v
  rw [parseId, formatId, Decimal.atoi_itoa hlo hhi]
  simp

/-! ### The allocator -/

/-- An error with a text of its own, or one of the store that is passed on. -/
inductive Err
  | text (msg : String)
  | store
  deriving DecidableEq, Repr

def Err.closed : Err :=
  .text "database is closed"

structure Options where
  keyTypeNextId : UInt8 := 0
  keyTypeKey : UInt8 := 0
  lruCacheSize : ℤ := 0
  batchSize : ℤ := 0

/-- A field left at zero takes its default. -/
def Options.fillDefaults (opts : Options) : Options where
  keyTypeNextId := if opts.keyTypeNextId = 0 then 28 else opts.keyTypeNextId
  keyTypeKey := if opts.keyTypeKey = 0 then 29 else opts.keyTypeKey
  lruCacheSize := if opts.lruCacheSize = 0 then 200000 else opts.lruCacheSize
  batchSize := if opts.batchSize = 0 then 100 else opts.batchSize

structure Allocator where
  db : Db Bytes Bytes
  lru : LruCache
  nextId : Int64
  keyTypeNextId : UInt8
  keyTypeKey : UInt8
  /-- `Close` has detached the allocator from its store. -/
  closed : Bool

namespace Allocator

/-- The key of the counter. -/
def encodeIncrIdKey (a : Allocator) : Bytes :=
  [a.keyTypeNextId]

/-- The key of the id of `key`. -/
def encodeIdKey (a : Allocator) (key : Bytes) : Bytes :=
  a.keyTypeKey :: key

/-- The stored counter, or 1 on a fresh store. -/
def storedNextId (store : GoMap Bytes Bytes) (keyTypeNextId : UInt8) : Int64 :=
  match store.lookup [keyTypeNextId] with
  | none => 1
  | some v => parseId v

def new (store : GoMap Bytes Bytes) (opts : Options) : Except Err Allocator :=
  let opts := opts.fillDefaults
  let nextId := storedNextId store opts.keyTypeNextId
  if nextId < 0 then
    .error (.text ("invalid nextId value: " ++ toString nextId ++ ", database malformed"))
  else
    .ok {
      db := Db.newBatch store opts.batchSize
      lru := newLRUCache opts.lruCacheSize
      nextId := nextId
      keyTypeNextId := opts.keyTypeNextId
      keyTypeKey := opts.keyTypeKey
      closed := false }

/-- Allocate the next id for `key`. The counter is buffered before the mapping, and an error of
either `Put` is dropped: `f₁` and `f₂` say whether the commits these cause fail. -/
def allocate (a : Allocator) (key : Bytes) (f₁ f₂ : Bool) : Allocator :=
  { a with
    lru := a.lru.put key a.nextId
    nextId := a.nextId + 1
    db := (a.db.add f₁ (.put a.encodeIncrIdKey (formatId (a.nextId + 1)))).add f₂
      (.put (a.encodeIdKey key) (toBytes a.nextId)) }

/-- `GetId`; `none` is the panic of `fromBytes` on a malformed value. -/
def getId (a : Allocator) (key : Bytes) (f₁ f₂ : Bool) :
    Option (Allocator × Except Err Bytes) :=
  if a.closed then some (a, .error .closed)
  else
    match a.lru.get key with
    | (some v, lru) => some ({ a with lru := lru }, .ok (toBytes v))
    | (none, lru) =>
      match a.db.store.lookup (a.encodeIdKey key) with
      | some v =>
        (fromBytes v).map fun id => ({ a with lru := lru.put key id }, .ok v)
      | none => some (({ a with lru := lru } : Allocator).allocate key f₁ f₂,
          .ok (toBytes a.nextId))

/-- `Lookup`: the id of a key that has one. -/
def lookup (a : Allocator) (key : Bytes) : Option (Allocator × Except Err (Option Int64)) :=
  if a.closed then some (a, .error .closed)
  else
    match a.lru.get key with
    | (some v, lru) => some ({ a with lru := lru }, .ok (some v))
    | (none, lru) =>
      match a.db.store.lookup (a.encodeIdKey key) with
      | some v =>
        (fromBytes v).map fun id => ({ a with lru := lru.put key id }, .ok (some id))
      | none => some ({ a with lru := lru }, .ok none)

/-- Commit the batch unless its count says that it is empty. -/
def tryCommit (a : Allocator) (fails : Bool) : Allocator × Except Err Unit :=
  if a.closed then (a, .error .closed)
  else if a.db.count > 0 then
    ({ a with db := a.db.commitReset fails }, if fails then .error .store else .ok ())
  else (a, .ok ())

/-- `Commit`; the periodic tick calls `tryCommit` too and only logs an error. -/
def commit (a : Allocator) (fails : Bool) : Allocator × Except Err Unit :=
  if a.closed then (a, .error .closed) else a.tryCommit fails

def tick (a : Allocator) (fails : Bool) : Allocator :=
  (a.tryCommit fails).1

/-- `Close`: a last commit, whose error is only logged. -/
def close (a : Allocator) (fails : Bool) : Allocator :=
  { (a.tryCommit fails).1 with lru := a.lru.clear, closed := true }

end Allocator

/-! ### Runs -/

/-- A use of the table: the allocator and every id that `GetId` has returned, with its key. -/
structure Session where
  alloc : Allocator
  handedOut : List (Bytes × Bytes)

inductive Call
  | getId (key : Bytes) (f₁ f₂ : Bool)
  | lookup (key : Bytes)
  | commit (fails : Bool)
  | tick (fails : Bool)
  /-- `Close` followed by `New` on the same store. -/
  | reopen (fails : Bool)

namespace Session

/-- A table on a fresh store. -/
def fresh (opts : Options) : Session where
  alloc :=
    let opts := opts.fillDefaults
    { db := Db.newBatch ∅ opts.batchSize
      lru := newLRUCache opts.lruCacheSize
      nextId := 1
      keyTypeNextId := opts.keyTypeNextId
      keyTypeKey := opts.keyTypeKey
      closed := false }
  handedOut := []

/-- One call; `none` is a panic, or an error of `New`. -/
def step (opts : Options) (s : Session) : Call → Option Session
  | .getId key f₁ f₂ =>
    (s.alloc.getId key f₁ f₂).map fun r =>
      { alloc := r.1
        handedOut := match r.2 with
          | .ok id => s.handedOut ++ [(key, id)]
          | .error _ => s.handedOut }
  | .lookup key => (s.alloc.lookup key).map fun r => { s with alloc := r.1 }
  | .commit fails => some { s with alloc := (s.alloc.commit fails).1 }
  | .tick fails => some { s with alloc := s.alloc.tick fails }
  | .reopen fails =>
    match Allocator.new (s.alloc.close fails).db.store opts with
    | .ok a => some { s with alloc := a }
    | .error _ => none

end Session

end Haystack.IdTable
