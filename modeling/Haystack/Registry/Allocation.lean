import Haystack.Lib.StepSystem
import Haystack.Registry.Workspaces

/-!
# Ids are never shared

The ids of a counter are below its stored value, and nothing but `GetIncrementalId` writes a
counter. A table id is given to at most one record of the data store.
-/

namespace Haystack.Registry

open Faulty

/-! ### Counters -/

/-- The counter can be read and is above every id it has issued. -/
def PebbleDB.Counts (db : PebbleDB) (key : Bytes) : Prop :=
  ∃ n, db.nextId key = some n ∧ ∀ id, (key, id) ∈ db.issued → id < n

lemma atoi_formatId (id : Id) : (Value.bytes (formatId id)).atoi = some id := by
  rw [Value.atoi, formatId, Decimal.atoi_itoa (Int64.le_toInt id) (Int64.toInt_lt id),
    Option.map_some, Int64.ofInt_toInt]

variable {pre : Bytes} {table : Id}

namespace PebbleDB

variable {db : PebbleDB} {key key' : Bytes}

lemma nextId_congr {db' : PebbleDB} (h : db'.store.lookup key = db.store.lookup key) :
    db'.nextId key = db.nextId key := by
  rw [nextId, nextId, h]

lemma Counts.congr {db' : PebbleDB} (h : db.Counts key)
    (hlookup : db'.store.lookup key = db.store.lookup key) (hissued : db'.issued = db.issued) :
    db'.Counts key := by
  obtain ⟨n, hn, hlt⟩ := h
  exact ⟨n, (nextId_congr hlookup).trans hn, hissued ▸ hlt⟩

lemma lookup_put_of_ne (value : Value) (hne : key ≠ key') :
    (db.put key' value).store.lookup key = db.store.lookup key :=
  AList.lookup_insert_ne hne

lemma lookup_delete_of_ne (hne : key ≠ key') :
    (db.delete key').store.lookup key = db.store.lookup key :=
  AList.lookup_erase_ne hne

lemma lookup_deletePrefix_of_not (h : ¬ pre <+: key) :
    (db.deletePrefix pre).store.lookup key = db.store.lookup key :=
  GoMap.lookup_foldl_erase _ fun hmem =>
    h (List.isPrefixOf_iff_prefix.1 (List.mem_filter.1 hmem).2)

lemma lookup_delete_eq_some {v : Value} (h : (db.delete key').store.lookup key = some v) :
    db.store.lookup key = some v := by
  change (db.store.erase key').lookup key = some v at h
  rw [GoMap.lookup_erase_if] at h
  split at h
  · simp at h
  · exact h

lemma lookup_deletePrefix_eq_some {v : Value}
    (h : (db.deletePrefix pre).store.lookup key = some v) : db.store.lookup key = some v := by
  have hfold : ∀ (l : List Bytes) (m : GoMap Bytes Value),
      (l.foldl (fun m k => m.erase k) m).lookup key = some v → m.lookup key = some v := by
    intro l
    induction l with
    | nil => exact fun _ h => h
    | cons k l ih =>
      intro m h
      have h := ih _ h
      rw [GoMap.lookup_erase_if] at h
      split at h
      · simp at h
      · exact h
  exact hfold _ _ h

/-- A value that points to a table was there before a value that does not was put. -/
lemma lookup_of_put {value v : Value} (hvalue : value.invertedId? = none)
    (h : (db.put key' value).store.lookup key = some v) (hv : v.invertedId? = some table) :
    db.store.lookup key = some v := by
  change (db.store.insert key' value).lookup key = some v at h
  rw [GoMap.lookup_insert_if] at h
  split at h
  · cases h
    simp [hvalue] at hv
  · exact h

end PebbleDB

/-! ### The invariant -/

/-- Every id was issued once, both counters are above the ids they issued, and every table that a
record points to was issued and belongs to this record alone. -/
structure Allocated (data index : PebbleDB) : Prop where
  data_counts : data.Counts incrIdKey
  index_counts : index.Counts nextTableIdKey
  data_nodup : data.issued.Nodup
  index_nodup : index.issued.Nodup
  owned : ∀ {key v table}, data.store.lookup key = some v → v.invertedId? = some table →
    (nextTableIdKey, table) ∈ index.issued
  owner_unique : ∀ {key key' v v' table}, data.store.lookup key = some v →
    data.store.lookup key' = some v' → v.invertedId? = some table → v'.invertedId? = some table →
    key = key'

/-- An issued table that no record points to. -/
def Unowned (data index : PebbleDB) (table : Id) : Prop :=
  (nextTableIdKey, table) ∈ index.issued ∧
    ∀ key v, data.store.lookup key = some v → v.invertedId? ≠ some table

variable {key : Bytes} {value : Value}

namespace Allocated

variable {data index data' index' : PebbleDB}

/-- Changes that leave the counters alone and give no record a table. -/
lemma of_sub (h : Allocated data index)
    (hdata : data'.store.lookup incrIdKey = data.store.lookup incrIdKey)
    (hissued : data'.issued = data.issued)
    (hsub : ∀ {key v table}, data'.store.lookup key = some v → v.invertedId? = some table →
      ∃ v', data.store.lookup key = some v' ∧ v'.invertedId? = some table)
    (hindex : index'.store.lookup nextTableIdKey = index.store.lookup nextTableIdKey)
    (hissued' : index'.issued = index.issued) : Allocated data' index' where
  data_counts := h.data_counts.congr hdata hissued
  index_counts := h.index_counts.congr hindex hissued'
  data_nodup := hissued ▸ h.data_nodup
  index_nodup := hissued' ▸ h.index_nodup
  owned hl hv := by
    obtain ⟨v', hl', hv'⟩ := hsub hl hv
    exact hissued' ▸ h.owned hl' hv'
  owner_unique hl hl' hv hv' := by
    obtain ⟨w, hw, hwv⟩ := hsub hl hv
    obtain ⟨w', hw', hwv'⟩ := hsub hl' hv'
    exact h.owner_unique hw hw' hwv hwv'

/-- A plain record. -/
lemma put_data (h : Allocated data index) (hkey : key ≠ incrIdKey)
    (hvalue : value.invertedId? = none) : Allocated (data.put key value) index :=
  h.of_sub (PebbleDB.lookup_put_of_ne _ hkey.symm) rfl
    (fun hl hv => ⟨_, PebbleDB.lookup_of_put hvalue hl hv, hv⟩) rfl rfl

/-- A record that takes a table of its own. -/
lemma put_owner (h : Allocated data index) (hkey : key ≠ incrIdKey)
    (hvalue : value.invertedId? = some table) (hfree : Unowned data index table) :
    Allocated (data.put key value) index where
  data_counts := h.data_counts.congr (PebbleDB.lookup_put_of_ne _ hkey.symm) rfl
  index_counts := h.index_counts
  data_nodup := h.data_nodup
  index_nodup := h.index_nodup
  owned {key' v table'} hl hv := by
    change (data.store.insert key value).lookup key' = some v at hl
    rw [GoMap.lookup_insert_if] at hl
    split at hl
    · cases hl
      obtain rfl := Option.some.inj (hv.symm.trans hvalue)
      exact hfree.1
    · exact h.owned hl hv
  owner_unique {key₁ key₂ v₁ v₂ table'} hl₁ hl₂ hv₁ hv₂ := by
    change (data.store.insert key value).lookup key₁ = some v₁ at hl₁
    change (data.store.insert key value).lookup key₂ = some v₂ at hl₂
    rw [GoMap.lookup_insert_if] at hl₁ hl₂
    split at hl₁ <;> split at hl₂
    case isTrue.isTrue h₁ h₂ => exact h₁.trans h₂.symm
    case isTrue.isFalse =>
      cases hl₁
      obtain rfl := Option.some.inj (hv₁.symm.trans hvalue)
      exact absurd hv₂ (hfree.2 _ _ hl₂)
    case isFalse.isTrue =>
      cases hl₂
      obtain rfl := Option.some.inj (hv₂.symm.trans hvalue)
      exact absurd hv₁ (hfree.2 _ _ hl₁)
    case isFalse.isFalse => exact h.owner_unique hl₁ hl₂ hv₁ hv₂

lemma delete_data (h : Allocated data index) (hkey : key ≠ incrIdKey) :
    Allocated (data.delete key) index :=
  h.of_sub (PebbleDB.lookup_delete_of_ne hkey.symm) rfl
    (fun hl hv => ⟨_, PebbleDB.lookup_delete_eq_some hl, hv⟩) rfl rfl

lemma deletePrefix_data (h : Allocated data index) (hpre : ¬ pre <+: incrIdKey) :
    Allocated (data.deletePrefix pre) index :=
  h.of_sub (PebbleDB.lookup_deletePrefix_of_not hpre) rfl
    (fun hl hv => ⟨_, PebbleDB.lookup_deletePrefix_eq_some hl, hv⟩) rfl rfl

lemma of_index (h : Allocated data index)
    (hindex : index'.store.lookup nextTableIdKey = index.store.lookup nextTableIdKey)
    (hissued : index'.issued = index.issued) : Allocated data index' :=
  h.of_sub rfl rfl (fun hl hv => ⟨_, hl, hv⟩) hindex hissued

end Allocated

/-! ### Allocation -/

/-- The counter can be read and incremented `k` times. -/
def PebbleDB.Room (db : PebbleDB) (key : Bytes) (k : ℕ) : Prop :=
  ∀ n ∈ db.nextId key, n.toInt + k < 2 ^ 63

/-- The database after `GetIncrementalId` has returned `n`. -/
def PebbleDB.issue (db : PebbleDB) (key : Bytes) (n : Id) : PebbleDB :=
  { db.put key (.bytes (formatId (n + 1))) with issued := (key, n) :: db.issued }

namespace PebbleDB

variable {db : PebbleDB} {key : Bytes} {n : Id} {k : ℕ}

lemma nextId_issue : (db.issue key n).nextId key = some (n + 1) := by
  have hlookup : (db.issue key n).store.lookup key = some (.bytes (formatId (n + 1))) :=
    AList.lookup_insert _
  rw [nextId, hlookup]
  exact atoi_formatId (n + 1)

lemma toInt_add_one (h : n.toInt + (k + 1 : ℕ) < 2 ^ 63) : (n + 1).toInt = n.toInt + 1 := by
  have hlo := Int64.le_toInt n
  rw [Int64.toInt_add]
  change (n.toInt + 1).bmod (2 ^ 64) = _
  push_cast at h
  exact Int.bmod_eq_of_le_mul_two (by omega) (by omega)

lemma Room.issue (hn : db.nextId key = some n) (h : db.Room key (k + 1)) :
    (db.issue key n).Room key k := by
  intro m hm
  obtain rfl := Option.some.inj (nextId_issue.symm.trans hm)
  have hlt := h n hn
  rw [toInt_add_one hlt]
  push_cast at hlt
  omega

lemma Counts.issue (h : db.Counts key) (hn : db.nextId key = some n) (hroom : db.Room key (k + 1)) :
    (db.issue key n).Counts key ∧ (key, n) ∉ db.issued := by
  obtain ⟨m, hm, hlt⟩ := h
  obtain rfl := Option.some.inj (hm.symm.trans hn)
  have hsucc : m < m + 1 := by
    rw [Int64.lt_iff_toInt_lt, toInt_add_one (hroom m hn)]
    omega
  refine ⟨⟨m + 1, nextId_issue, fun id hid => ?_⟩, fun hmem => lt_irrefl _ (hlt m hmem)⟩
  rcases List.mem_cons.1 hid with heq | hid
  · exact (Prod.mk.inj heq).2 ▸ hsucc
  · exact (hlt id hid).trans hsucc

lemma Room.mono {k' : ℕ} (h : db.Room key k) (hle : k' ≤ k) : db.Room key k' := fun n hn => by
  have := h n hn
  omega

end PebbleDB

namespace Allocated

variable {data index : PebbleDB} {n : Id} {k : ℕ}

lemma issue_data (h : Allocated data index) (hn : data.nextId incrIdKey = some n)
    (hroom : data.Room incrIdKey (k + 1)) : Allocated (data.issue incrIdKey n) index := by
  obtain ⟨hcounts, hnew⟩ := h.data_counts.issue hn hroom
  exact ⟨hcounts, h.index_counts, List.nodup_cons.2 ⟨hnew, h.data_nodup⟩, h.index_nodup,
    fun hl hv => h.owned (PebbleDB.lookup_of_put rfl hl hv) hv,
    fun hl hl' hv hv' => h.owner_unique (PebbleDB.lookup_of_put rfl hl hv)
      (PebbleDB.lookup_of_put rfl hl' hv') hv hv'⟩

lemma issue_index (h : Allocated data index) (hn : index.nextId nextTableIdKey = some n)
    (hroom : index.Room nextTableIdKey (k + 1)) :
    Allocated data (index.issue nextTableIdKey n) ∧ Unowned data (index.issue nextTableIdKey n) n := by
  obtain ⟨hcounts, hnew⟩ := h.index_counts.issue hn hroom
  refine ⟨⟨h.data_counts, hcounts, h.data_nodup, List.nodup_cons.2 ⟨hnew, h.index_nodup⟩,
    fun hl hv => List.mem_cons_of_mem _ (h.owned hl hv), h.owner_unique⟩, List.mem_cons_self, ?_⟩
  intro key v hl hv
  exact hnew (h.owned hl hv)

end Allocated

/-! ### The programs -/

/-- The invariant, with room for `d` collections and `i` tables. -/
structure Ready (d i : ℕ) (s : Server) : Prop where
  allocated : Allocated s.data s.index
  data_room : s.data.Room incrIdKey d
  index_room : s.index.Room nextTableIdKey i

/-- Where a process that dies leaves the stores. -/
def Safe (s : Server) : Prop :=
  Allocated s.data s.index

variable {α : Type} {s : Server}

section Programs

variable {d i : ℕ} {c : CounterCalls}

/-- A write to the data store that keeps the counter. -/
lemma Ready.onData (h : Ready d i s) {f : PebbleDB → PebbleDB} (hf : Allocated (f s.data) s.index)
    (hcounter : (f s.data).store.lookup incrIdKey = s.data.store.lookup incrIdKey) :
    Ready d i (Server.onDb f .data s) :=
  ⟨hf, fun n hn => h.data_room n ((PebbleDB.nextId_congr hcounter).symm.trans hn), h.index_room⟩

lemma Ready.onIndex (h : Ready d i s) {f : PebbleDB → PebbleDB}
    (hcounter : (f s.index).store.lookup nextTableIdKey = s.index.store.lookup nextTableIdKey)
    (hissued : (f s.index).issued = s.index.issued) : Ready d i (Server.onDb f .index s) :=
  ⟨h.allocated.of_index hcounter hissued, h.data_room,
    fun n hn => h.index_room n ((PebbleDB.nextId_congr hcounter).symm.trans hn)⟩

lemma ends_reads (o : Outcome) : Ends (reads o) (Ready d i) (fun _ => Ready d i) Safe :=
  .attempt (fun _ _ h => h) (fun _ _ h => h) fun _ h => h.allocated

lemma ends_put_data (hkey : key ≠ incrIdKey) (hvalue : value.invertedId? = none) (o : Outcome) :
    Ends (put .data key value o) (Ready d i) (fun _ => Ready d i) Safe :=
  .attempt (fun _ _ h => h.onData (h.allocated.put_data hkey hvalue)
    (PebbleDB.lookup_put_of_ne _ hkey.symm)) (fun _ _ h => h) fun _ h => h.allocated

lemma ends_put_owner (hkey : key ≠ incrIdKey) (hvalue : value.invertedId? = some table)
    (o : Outcome) :
    Ends (put .data key value o) (fun s => Ready d i s ∧ Unowned s.data s.index table)
      (fun _ => Ready d i) Safe :=
  .attempt (fun _ _ h => h.1.onData (h.1.allocated.put_owner hkey hvalue h.2)
    (PebbleDB.lookup_put_of_ne _ hkey.symm)) (fun _ _ h => h.1) fun _ h => h.1.allocated

lemma ends_delete_data (hkey : key ≠ incrIdKey) (o : Outcome) :
    Ends (delete .data key o) (Ready d i) (fun _ => Ready d i) Safe :=
  .attempt (fun _ _ h => h.onData (h.allocated.delete_data hkey)
    (PebbleDB.lookup_delete_of_ne hkey.symm)) (fun _ _ h => h) fun _ h => h.allocated

lemma ends_deletePrefix_data (hpre : ¬ pre <+: incrIdKey) (o : Outcome) :
    Ends (commit .data (.deletePrefix pre) o) (Ready d i) (fun _ => Ready d i) Safe :=
  .attempt (fun _ _ h => h.onData (h.allocated.deletePrefix_data hpre)
    (PebbleDB.lookup_deletePrefix_of_not hpre)) (fun _ _ h => h) fun _ h => h.allocated

/-- A change of the memory, and what follows it. -/
lemma ends_modify_bind {f : Server → Server} {x : Unit → Prog Server α} {Q : α → Server → Prop}
    (hdata : ∀ s, (f s).data = s.data) (hindex : ∀ s, (f s).index = s.index)
    (hx : Ends (x ()) (Ready d i) Q Safe) : Ends (modify f >>= x) (Ready d i) Q Safe := by
  refine Ends.bind (Q := fun _ => Ready d i) (.modify fun s h => ⟨?_, ?_, ?_⟩) fun _ => hx
  · rw [hdata, hindex]
    exact h.allocated
  · rw [hdata]
    exact h.data_room
  · rw [hindex]
    exact h.index_room

lemma ends_read {f : Server → α} : Ends (read f) (Ready d i) (fun _ => Ready d i) Safe :=
  .read fun _ h => h

lemma ends_pure {a : α} : Ends (pure a) (Ready d i) (fun _ => Ready d i) Safe :=
  .pure fun _ h => h

/-- With no failing counter write `GetIncrementalId` fails, dies, or issues the next id. -/
lemma getIncrementalId_cases (db : Db) (key : Bytes) (hc : c.put ≠ .err) (s : Server) :
    getIncrementalId db key c s = .returned none s ∨ getIncrementalId db key c s = .died s ∨
      ∃ n, (s.db db).nextId key = some n ∧
        getIncrementalId db key c s = .returned (some n) (s.onDb (fun d => d.issue key n) db) := by
  obtain ⟨get, put⟩ := c
  cases get with
  | err => exact .inl rfl
  | crash => exact .inr (.inl rfl)
  | ok =>
    have hok : reads .ok s = .returned true s := rfl
    rw [getIncrementalId, run_bind_returned hok, if_pos rfl]
    cases hn : (s.db db).nextId key with
    | none =>
      have hread : read (fun s => (s.db db).nextId key) s = .returned none s :=
        congrArg (Ran.returned · s) hn
      rw [run_bind_returned hread]
      exact .inl rfl
    | some n =>
      have hread : read (fun s => (s.db db).nextId key) s = .returned (some n) s :=
        congrArg (Ran.returned · s) hn
      rw [run_bind_returned hread]
      cases put with
      | ok => exact .inr (.inr ⟨n, rfl, by cases db <;> rfl⟩)
      | err => exact absurd rfl hc
      | crash => exact .inr (.inl rfl)

/-- An allocation from the data store uses up one collection id. -/
lemma ends_getIncrementalId_data (hc : c.put ≠ .err) :
    Ends (getIncrementalId .data incrIdKey c) (Ready (d + 1) i) (fun _ => Ready d i) Safe := by
  intro s h
  obtain hr | hr | ⟨n, hn, hr⟩ := getIncrementalId_cases .data incrIdKey hc s
  · rw [hr]
    exact ⟨h.allocated, h.data_room.mono (Nat.le_succ d), h.index_room⟩
  · rw [hr]
    exact h.allocated
  · rw [hr]
    exact ⟨h.allocated.issue_data hn h.data_room, .issue hn h.data_room, h.index_room⟩

/-- An allocation from the index store uses up one table id, which no record points to. -/
lemma ends_getIncrementalId_index (hc : c.put ≠ .err) :
    Ends (getIncrementalId .index nextTableIdKey c) (Ready d (i + 1))
      (fun r s => Ready d i s ∧ ∀ table ∈ r, Unowned s.data s.index table) Safe := by
  intro s h
  obtain hr | hr | ⟨n, hn, hr⟩ := getIncrementalId_cases .index nextTableIdKey hc s
  · rw [hr]
    exact ⟨⟨h.allocated, h.data_room, h.index_room.mono (Nat.le_succ i)⟩, by simp⟩
  · rw [hr]
    exact h.allocated
  · rw [hr]
    obtain ⟨hall, hfree⟩ := h.allocated.issue_index hn h.index_room
    refine ⟨⟨hall, h.data_room, .issue hn h.index_room⟩, fun table ht => ?_⟩
    exact Option.some.inj ht ▸ hfree

/-- The calls of `CreateTable` with a counter write that does not fail. -/
def TableCalls.Ok (c : TableCalls) : Prop :=
  c.counter.put ≠ .err

lemma ends_createTable (description : Bytes) (now : Time) {c : TableCalls} (hc : c.Ok) :
    Ends (createTable description now c) (Ready d (i + 1))
      (fun r s => Ready d i s ∧ ∀ table ∈ r, Unowned s.data s.index table) Safe := by
  refine (ends_getIncrementalId_index hc).bind fun r => ?_
  cases r with
  | none => exact .pure fun s h => h
  | some id =>
    have hne : nextTableIdKey ≠ tableKey id := by simp [nextTableIdKey, tableKey]
    have hput : Ends (put .index (tableKey id) (.table ⟨id, now, description⟩) c.put)
        (fun s => Ready d i s ∧ ∀ table ∈ some id, Unowned s.data s.index table)
        (fun _ s => Ready d i s ∧ Unowned s.data s.index id) Safe := by
      refine .attempt (fun s _ h => ⟨h.1.onIndex (PebbleDB.lookup_put_of_ne _ hne) rfl, ?_⟩)
        (fun s _ h => ⟨h.1, h.2 id rfl⟩) fun s h => h.1.allocated
      exact h.2 id rfl
    refine hput.bind fun ok => .pure fun s h => ⟨h.1, fun table ht => ?_⟩
    cases ok with
    | true => exact Option.some.inj ht ▸ h.2
    | false => simp at ht

lemma ends_deleteTable (id : Id) (o : Outcome) :
    Ends (deleteTable id o) (Ready d i) (fun _ => Ready d i) Safe := by
  refine .attempt (fun s _ h => Ready.onIndex h ?_ rfl) (fun _ _ h => h) fun _ h => h.allocated
  rw [PebbleDB.lookup_delete_of_ne (by simp [nextTableIdKey, tableKey]),
    PebbleDB.lookup_deletePrefix_of_not (by simp [nextTableIdKey, forwardPrefix]),
    PebbleDB.lookup_deletePrefix_of_not (by simp [nextTableIdKey, invertedPrefix])]

lemma ends_docsCreate (id : Id) (desc : Bytes) (now : Time) {c : DocsCreateCalls} (hc : c.table.Ok) :
    Ends (docsCreate id desc now c) (Ready d (i + 1)) (fun _ => Ready d i) Safe := by
  refine (ends_createTable _ now hc).bind fun r => ?_
  cases r with
  | none => exact .pure fun s h => h.1
  | some table =>
    have hput : Ends (put .data (metaKey id) (.collection ⟨id, table, desc⟩) c.putMeta)
        (fun s => Ready d i s ∧ ∀ t ∈ some table, Unowned s.data s.index t)
        (fun _ => Ready d i) Safe :=
      (ends_put_owner (by simp [metaKey, incrIdKey]) rfl c.putMeta).mono
        (fun s h => ⟨h.1, h.2 table rfl⟩) fun _ _ h => h
    refine hput.bind fun ok => .ite (fun _ => ?_) fun _ => ends_pure
    exact ends_modify_bind (fun _ => rfl) (fun _ => rfl) ends_pure

lemma ends_getCollection (id : Id) (o : Outcome) :
    Ends (getCollection id o) (Ready d i) (fun _ => Ready d i) Safe := by
  refine ends_read.bind fun r => ?_
  split
  · exact ends_pure
  · refine (ends_reads o).bind fun ok => ?_
    split
    · exact ends_modify_bind (fun _ => rfl) (fun _ => rfl) ends_pure
    · exact ends_pure

lemma ends_docsDelete (id : Id) (c : DocsDeleteCalls) :
    Ends (docsDelete id c) (Ready d i) (fun _ => Ready d i) Safe := by
  refine (ends_getCollection id c.getMeta).bind fun info? => ?_
  split
  · exact ends_pure
  · refine ends_modify_bind (fun _ => rfl) (fun _ => rfl) ((ends_deleteTable _ _).bind fun _ => ?_)
    refine Ends.bind (ends_deletePrefix_data (by simp [documentMetaPrefix, incrIdKey]) _) fun ok =>
      .ite (fun _ => ?_) fun _ => ends_pure
    exact ends_modify_bind (fun _ => rfl) (fun _ => rfl) ends_pure

lemma ends_persistRecord (r : Record) (o : Outcome) :
    Ends (persistRecord r o) (Ready d i) (fun _ => Ready d i) Safe :=
  ends_put_data (by simp [recordKey, incrIdKey]) rfl o

/-- No counter write of `Catalog.Create` fails. -/
def CatalogCreateCalls.Ok (c : CatalogCreateCalls) : Prop :=
  c.counter.put ≠ .err ∧ c.docs.table.Ok

lemma Ready.mono {d' i' : ℕ} (h : Ready d i s) (hd : d' ≤ d) (hi : i' ≤ i) : Ready d' i' s :=
  ⟨h.allocated, h.data_room.mono hd, h.index_room.mono hi⟩

lemma ends_catalogCreate (name : Path) (now : Time) {c : CatalogCreateCalls} (hc : c.Ok) :
    Ends (catalogCreate name now c) (Ready (d + 1) (i + 1)) (fun _ => Ready d i) Safe := by
  have hfail : ∀ {α : Type} {a : α}, Ends (pure a) (Ready d (i + 1)) (fun _ => Ready d i) Safe :=
    .pure fun s h => h.mono le_rfl (Nat.le_succ i)
  refine ends_read.bind fun taken =>
    .ite (fun _ => .pure fun s h => h.mono (Nat.le_succ d) (Nat.le_succ i)) fun _ => ?_
  refine (ends_getIncrementalId_data hc.1).bind fun id? => ?_
  cases id? with
  | none => exact hfail
  | some id =>
    refine (ends_persistRecord _ _).bind fun ok => .ite (fun _ => ?_) fun _ => hfail
    refine (ends_docsCreate id name now hc.2).bind fun ok => .ite (fun _ => ?_) fun _ => ?_
    · exact ends_modify_bind (fun _ => rfl) (fun _ => rfl) ends_pure
    · exact (ends_delete_data (by simp [recordKey, incrIdKey]) _).bind fun _ => ends_pure

lemma ends_catalogSave (r : Record) (o : Outcome) :
    Ends (catalogSave r o) (Ready d i) (fun _ => Ready d i) Safe := by
  refine ends_read.bind fun found => ?_
  split
  · exact ends_pure
  · refine .ite (fun _ => ends_pure) fun _ => (ends_persistRecord r o).bind fun ok =>
      .ite (fun _ => ?_) fun _ => ends_pure
    exact ends_modify_bind (fun _ => rfl) (fun _ => rfl) ends_pure

lemma ends_catalogDelete (id : Id) (c : CatalogDeleteCalls) :
    Ends (catalogDelete id c) (Ready d i) (fun _ => Ready d i) Safe := by
  refine ends_read.bind fun r? => ?_
  split
  · exact ends_pure
  · refine (ends_delete_data (by simp [recordKey, incrIdKey]) _).bind fun ok =>
      .ite (fun _ => ?_) fun _ => ends_pure
    exact ends_modify_bind (fun _ => rfl) (fun _ => rfl) (ends_docsDelete id c.docs)

lemma ends_createSymbolTable (hkey : key ≠ incrIdKey) (id : Id) (desc : Bytes) (now : Time)
    {c : SymbolCreateCalls} (hc : c.table.Ok) :
    Ends (createSymbolTable key id desc now c) (Ready d (i + 1)) (fun _ => Ready d i) Safe := by
  refine (ends_createTable _ now hc).bind fun r => ?_
  cases r with
  | none => exact .pure fun s h => h.1
  | some table =>
    exact (ends_put_owner hkey rfl c.put).mono (fun s h => ⟨h.1, h.2 table rfl⟩) fun _ _ h => h

lemma ends_symbolsCreate (id : Id) (desc : Bytes) (now : Time) {symbols words : SymbolCreateCalls}
    (hs : symbols.table.Ok) (hw : words.table.Ok) :
    Ends (symbolsCreate id desc now symbols words) (Ready d 2) (fun _ => Ready d 0) Safe := by
  refine (ends_createSymbolTable (by simp [symbolTableKey, incrIdKey]) id desc now hs).bind
    fun ok => .ite (fun _ => ?_) fun _ => .pure fun s h => h.mono le_rfl (Nat.zero_le _)
  refine (ends_createSymbolTable (by simp [symbolWordsTableKey, incrIdKey]) id desc now hw).bind
    fun ok => .ite (fun _ => ends_pure) fun _ => ends_pure

lemma ends_deleteSymbolTable (key : Bytes) (id : Id) (c : SymbolDeleteCalls) :
    Ends (deleteSymbolTable key id c) (Ready d i) (fun _ => Ready d i) Safe := by
  refine ends_read.bind fun v? => (ends_reads c.get).bind fun ok => ?_
  split
  · exact (ends_deleteTable _ _).bind fun _ =>
      ends_deletePrefix_data (by simp [docFunctionsPrefix, incrIdKey]) _
  · exact ends_pure

lemma ends_symbolsDelete (enabled : Bool) (id : Id) (symbols words : SymbolDeleteCalls) :
    Ends (symbolsDelete enabled id symbols words) (Ready d i) (fun _ => Ready d i) Safe := by
  refine .ite (fun _ => ?_) fun _ => ends_pure
  refine (ends_deleteSymbolTable _ id symbols).bind fun ok => .ite (fun _ => ?_) fun _ => ends_pure
  exact (ends_deleteSymbolTable _ id words).bind fun ok =>
    .ite (fun _ => ends_pure) fun _ => ends_pure

/-- No counter write of `Create` fails. -/
def CreateCalls.Ok (c : CreateCalls) : Prop :=
  c.catalog.Ok ∧ c.symbols.table.Ok ∧ c.symbolWords.table.Ok

lemma ends_create (path : Path) {c : CreateCalls} (hc : c.Ok) :
    Ends (create path c) (Ready 1 3) (fun _ => Safe) Safe := by
  refine ends_read.bind fun taken => .ite (fun _ => .pure fun s h => h.allocated) fun _ => ?_
  refine (ends_catalogCreate path c.now hc.1).bind fun id? => ?_
  cases id? with
  | none => exact .pure fun s h => h.allocated
  | some id =>
    refine ends_read.bind fun r => (ends_catalogSave _ c.save).bind fun _ =>
      ends_modify_bind (fun _ => rfl) (fun _ => rfl) ?_
    exact (ends_symbolsCreate r.id path c.now hc.2.1 hc.2.2).bind fun _ => .pure fun s h => h.allocated

lemma Safe.ready (h : Safe s) : Ready 0 0 s :=
  ⟨h, fun n _ => by simpa using Int64.toInt_lt n, fun n _ => by simpa using Int64.toInt_lt n⟩

lemma ends_deleteWorkspace (id : Id) (c : DeleteCalls) :
    Ends (deleteWorkspace id c) (Ready 0 0) (fun _ => Ready 0 0) Safe := by
  refine ends_read.bind fun found => ?_
  split
  · exact ends_pure
  · refine (ends_catalogDelete id c.catalog).bind fun ok => .ite (fun _ => ?_) fun _ => ends_pure
    refine ends_modify_bind (fun _ => rfl) (fun _ => rfl) ?_
    exact (ends_symbolsDelete _ _ _ _).bind fun _ => ends_pure

end Programs

/-! ### Runs -/

lemma loadFromStore_stores (s : Server) :
    (loadFromStore s).data = s.data ∧ (loadFromStore s).index = s.index := by
  have hfold : ∀ (l : List (Bytes × Value)) (s : Server),
      (l.foldl loadRecord s).data = s.data ∧ (l.foldl loadRecord s).index = s.index := by
    intro l
    induction l with
    | nil => exact fun s => ⟨rfl, rfl⟩
    | cons e l ih =>
      intro s
      have he : (loadRecord s e).data = s.data ∧ (loadRecord s e).index = s.index := by
        unfold loadRecord
        split
        · split <;> exact ⟨rfl, rfl⟩
        · exact ⟨rfl, rfl⟩
      exact ⟨(ih _).1.trans he.1, (ih _).2.trans he.2⟩
  exact hfold _ _

lemma initWorkspaces_stores (s : Server) :
    (initWorkspaces s).data = s.data ∧ (initWorkspaces s).index = s.index := by
  have hfold : ∀ (l : List (Sigma fun _ : Id => Record)) (s : Server),
      (l.foldl (fun s e => initWorkspace s e.2) s).data = s.data ∧
        (l.foldl (fun s e => initWorkspace s e.2) s).index = s.index := by
    intro l
    induction l with
    | nil => exact fun s => ⟨rfl, rfl⟩
    | cons e l ih => exact fun s => ih _
  exact hfold _ _

/-- A restart leaves the stores as they are. -/
lemma Safe.restart (h : Safe s) : Safe (restart s) := by
  have hload := loadFromStore_stores { s with
    collections := ∅, deletedCollections := [], docCount := ∅ }
  have hinit := initWorkspaces_stores (loadFromStore { s with
    collections := ∅, deletedCollections := [], docCount := ∅ })
  unfold Safe Registry.restart
  rw [hinit.1, hinit.2, hload.1, hload.2]
  exact h

lemma Safe.settle {r : Ran Server α} (h : r.Meets (fun _ => Safe) Safe) : Safe (settle r) := by
  cases r with
  | returned a s => exact h
  | died s => exact Safe.restart h

/-- No counter write of the operation fails and the counters do not overflow. -/
def StepOk (s : Server) : Label → Prop
  | .create _ c => c.Ok ∧ s.data.Room incrIdKey 1 ∧ s.index.Room nextTableIdKey 3
  | _ => True

lemma safe_step {s s' : Server} {l : Label} (h : Safe s) (hok : StepOk s l)
    (hstep : step s l = some s') : Safe s' := by
  cases l with
  | create path c =>
    obtain ⟨hc, hdata, hindex⟩ := hok
    cases hstep
    exact Safe.settle (ends_create path hc s ⟨h, hdata, hindex⟩)
  | delete id c =>
    cases hstep
    exact Safe.settle (((ends_deleteWorkspace id c).mono (fun _ h => h) fun _ _ h => h.allocated) s
      h.ready)
  | restart =>
    cases hstep
    exact h.restart

lemma safe_fresh : Safe .fresh where
  data_counts := ⟨0, rfl, by simp [Server.fresh, PebbleDB.empty]⟩
  index_counts := ⟨0, rfl, by simp [Server.fresh, PebbleDB.empty]⟩
  data_nodup := List.nodup_nil
  index_nodup := List.nodup_nil
  owned h := by simp [Server.fresh, PebbleDB.empty] at h
  owner_unique h := by simp [Server.fresh, PebbleDB.empty] at h

/-- **Ids are never shared.** In every run of creating and deleting workspaces and of restarts, in
which every call of a store may fail or kill the process except that no write of a counter reports
an error: the collection ids returned by two allocations differ, and so do the table ids; and no two
records of collections or of their symbols, of workspaces that exist or were deleted, point to the
same table. -/
theorem ids_never_shared {ls : List Label} {s : Server}
    (hrun : StepSystem.Run step StepOk .fresh ls s) :
    s.data.issued.Nodup ∧ s.index.issued.Nodup ∧
    ∀ {key key' v v' table}, s.data.store.lookup key = some v → s.data.store.lookup key' = some v' →
      v.invertedId? = some table → v'.invertedId? = some table → key = key' := by
  have hsafe : Safe s := hrun.invariant (I := fun _ => Safe) safe_fresh fun h => safe_step h
  exact ⟨hsafe.data_nodup, hsafe.index_nodup, hsafe.owner_unique⟩

/-! ### Two runs -/

instance (c : TableCalls) : Decidable c.Ok :=
  inferInstanceAs (Decidable (_ ≠ _))

instance (c : CatalogCreateCalls) : Decidable c.Ok :=
  inferInstanceAs (Decidable (_ ∧ _))

instance (c : CreateCalls) : Decidable c.Ok :=
  inferInstanceAs (Decidable (_ ∧ _))

instance (db : PebbleDB) (key : Bytes) (k : ℕ) : Decidable (db.Room key k) :=
  decidable_of_iff ((db.nextId key).all (fun n => decide (n.toInt + (k : ℤ) < 2 ^ 63)) = true) (by
    rw [Option.all_eq_true]
    simp only [PebbleDB.Room, Option.mem_def, decide_eq_true_eq])

instance (s : Server) : DecidablePred (StepOk s) := fun l => by
  cases l <;> dsimp only [StepOk] <;> infer_instance

/-- Calls that succeed. -/
def CounterCalls.succeed : CounterCalls := ⟨.ok, .ok⟩

def TableCalls.succeed : TableCalls := ⟨.succeed, .ok⟩

def CreateCalls.succeed : CreateCalls where
  isAbs := true
  isDir := true
  now := 7
  catalog := ⟨.succeed, .ok, ⟨.succeed, .ok⟩, .ok⟩
  save := .ok
  symbols := ⟨.succeed, .ok⟩
  symbolWords := ⟨.succeed, .ok⟩

/-- A create whose record cannot be written, one that succeeds, one in which the process dies before
the second symbol table is recorded, the removal of the second workspace and one more create. -/
private def troubledRun : List Label :=
  [.create [47, 97] { CreateCalls.succeed with catalog := ⟨.succeed, .err, ⟨.succeed, .ok⟩, .ok⟩ },
    .create [47, 98] .succeed,
    .create [47, 99] { CreateCalls.succeed with symbolWords := ⟨.succeed, .crash⟩ },
    .delete 1 ⟨⟨.ok, ⟨.ok, .err, .ok⟩⟩, true, ⟨.ok, .ok, .err⟩, ⟨.ok, .ok, .ok⟩⟩,
    .create [47, 97] .succeed]

/-- The run issues four collection ids and nine table ids, all different. -/
theorem ids_never_shared_troubled : ∃ s, StepSystem.Run step StepOk .fresh troubledRun s ∧
    s.data.issued.length = 4 ∧ s.index.issued.length = 9 ∧
    s.data.issued.Nodup ∧ s.index.issued.Nodup := by
  refine StepSystem.Run.exists_of_exec_imp (fun s => s.data.issued.length = 4 ∧
    s.index.issued.length = 9) (by decide +kernel) fun s hrun h => ?_
  exact ⟨h.1, h.2, (ids_never_shared hrun).1, (ids_never_shared hrun).2.1⟩

/-- Two creates, of `/a` and `/b`; the first writes of both counters fail. -/
private def lostCounterRun : List Label :=
  [.create [47, 97] { CreateCalls.succeed with
      catalog := ⟨⟨.ok, .err⟩, .ok, ⟨⟨⟨.ok, .err⟩, .ok⟩, .ok⟩, .ok⟩ },
    .create [47, 98] .succeed]

/-- After a lost write of the counter two workspaces have the same collection id, and the documents
and the symbols of the first have the same table. -/
theorem ids_shared_after_lost_write : ∃ s,
    StepSystem.Run step (fun _ _ => True) .fresh lostCounterRun s ∧
    s.heap.map Workspace.path = [[47, 97], [47, 98]] ∧ s.heap.map Workspace.id = [0, 0] ∧
    ¬ s.data.issued.Nodup ∧ ¬ s.index.issued.Nodup :=
  StepSystem.Run.exists_of_exec (by decide +kernel)

end Haystack.Registry
