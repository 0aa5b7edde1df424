import Haystack.IdTable.Allocator

/-!
# Invariants of the id table

The calls keep two invariants. `Ordered` needs nothing of the cache: every id in use, handed
out or stored, is below the counter next to it, in the store as committed and in the store with the
buffered operations applied. `Faithful` says that the ids handed out are exactly the mappings of
the latter store, one id for one key; it lasts as long as a key whose mapping is only buffered is
still in the cache when it is asked for.
-/

namespace Haystack.IdTable

open WriteBatch List

/-! ### The counter -/

lemma toInt_add_one {n : Int64} (h : n < Int64.maxValue) : (n + 1).toInt = n.toInt + 1 := by
  have hlo := Int64.le_toInt n
  have hlt : n.toInt < 2 ^ 63 - 1 := by
    rw [← Int64.toInt_maxValue]
    exact Int64.lt_iff_toInt_lt.1 h
  rw [Int64.toInt_add]
  change (n.toInt + 1).bmod (2 ^ 64) = n.toInt + 1
  rw [Int.bmod_eq_of_le_mul_two] <;> omega

lemma lt_add_one {n : Int64} (h : n < Int64.maxValue) : n < n + 1 := by
  rw [Int64.lt_iff_toInt_lt, toInt_add_one h]
  omega

lemma pos_one : (0 : Int64) < 1 := by decide

namespace Allocator

/-! ### What a call can do -/

/-- The key of `key`'s id is not the key of the counter. -/
def KeyOk (a : Allocator) (key : Bytes) : Prop :=
  a.encodeIdKey key ≠ a.encodeIncrIdKey

instance (a : Allocator) (key : Bytes) : Decidable (a.KeyOk key) :=
  inferInstanceAs (Decidable (_ ≠ _))

/-- A key whose mapping is buffered and not committed is still in the cache. -/
def Cached (a : Allocator) (key : Bytes) : Prop :=
  (∃ op ∈ a.db.ops, op.key = a.encodeIdKey key) → (a.lru.get key).1.isSome

instance (a : Allocator) (key : Bytes) : Decidable (a.Cached key) :=
  inferInstanceAs (Decidable (_ → _))

variable {a a' : Allocator} {key : Bytes} {f₁ f₂ : Bool}

/-- Where the answer of a read comes from. -/
inductive Source (a : Allocator) (key : Bytes) : Option Int64 → Prop
  | cache {v : Int64} (h : (a.lru.get key).1 = some v) : Source a key (some v)
  | store {v : Int64} (hmiss : (a.lru.get key).1 = none)
      (h : a.db.store.lookup (a.encodeIdKey key) = some (toBytes v)) : Source a key (some v)
  | nowhere (hmiss : (a.lru.get key).1 = none)
      (h : a.db.store.lookup (a.encodeIdKey key) = none) : Source a key none

/-- A read changes the cache at most, by moving entries and learning the answer. -/
lemma lookup_spec (hopen : a.closed = false)
    (hval : ∀ b, a.db.store.lookup (a.encodeIdKey key) = some b → ∃ v, b = toBytes v) :
    ∃ l r, a.lookup key = some ({ a with lru := l }, .ok r) ∧ Source a key r ∧
      ∀ e ∈ l.entries, (∃ v ∈ r, e = (key, v)) ∨ e ∈ a.lru.entries := by
  unfold lookup
  rw [if_neg (by simp [hopen])]
  have hlru : ∀ e ∈ (a.lru.get key).2.entries, e ∈ a.lru.entries :=
    fun e => LruCache.mem_entries_get
  cases hget : a.lru.get key with
  | mk r lru =>
    rw [hget] at hlru
    cases r with
    | some v => exact ⟨_, _, rfl, .cache (by rw [hget]), fun e he => .inr (hlru e he)⟩
    | none =>
      dsimp only
      cases hst : a.db.store.lookup (a.encodeIdKey key) with
      | none => exact ⟨_, _, rfl, .nowhere (by rw [hget]) hst, fun e he => .inr (hlru e he)⟩
      | some b =>
        obtain ⟨v, rfl⟩ := hval b hst
        refine ⟨lru.put key v, some v, by simp, .store (by rw [hget]) hst, fun e he => ?_⟩
        rcases LruCache.mem_entries_put he with rfl | he
        · exact .inl ⟨v, rfl, rfl⟩
        · exact .inr (hlru e he)

variable (a : Allocator)

lemma allocate_db (key : Bytes) (f₁ f₂ : Bool) :
    (a.allocate key f₁ f₂).db
      = (a.db.add f₁ (.put a.encodeIncrIdKey (formatId (a.nextId + 1)))).add f₂
        (.put (a.encodeIdKey key) (toBytes a.nextId)) := rfl

lemma ahead_allocate (key : Bytes) (f₁ f₂ : Bool) :
    (a.allocate key f₁ f₂).db.ahead
      = (a.db.ahead.insert a.encodeIncrIdKey (formatId (a.nextId + 1))).insert
        (a.encodeIdKey key) (toBytes a.nextId) := by
  rw [allocate_db, Db.ahead_add, Db.ahead_add]
  rfl

/-- `GetId` is `Lookup`, followed by an allocation when that finds nothing. -/
lemma getId_eq (key : Bytes) (f₁ f₂ : Bool)
    (hval : ∀ b, a.db.store.lookup (a.encodeIdKey key) = some b → ∃ v, b = toBytes v) :
    a.getId key f₁ f₂ = (a.lookup key).map fun r =>
      match r.2 with
      | .error e => (r.1, .error e)
      | .ok (some v) => (r.1, .ok (toBytes v))
      | .ok none => (r.1.allocate key f₁ f₂, .ok (toBytes a.nextId)) := by
  unfold getId lookup
  split
  · rfl
  · split
    · rfl
    · split
      case h_1 b hst =>
        obtain ⟨v, rfl⟩ := hval b hst
        simp
      case h_2 => rfl

end Allocator

/-! ### Ids and the counter -/

/-- Every id in `st` is below the counter in `st`, which is at most `next`. -/
structure Below (a : Allocator) (st : GoMap Bytes Bytes) (next : Int64) : Prop where
  counter : ∀ c, st.lookup a.encodeIncrIdKey = some c → ∃ n, c = formatId n ∧ 0 < n ∧ n ≤ next
  ids : ∀ key b, a.KeyOk key → st.lookup (a.encodeIdKey key) = some b →
    ∃ v n, b = toBytes v ∧ st.lookup a.encodeIncrIdKey = some (formatId n) ∧ v < n

variable {key : Bytes} {r : Option Int64} {v : Int64}

namespace Below

variable {a : Allocator} {st : GoMap Bytes Bytes} {next : Int64}

lemma empty : Below a ∅ next :=
  ⟨by simp, by simp⟩

lemma mono {next' : Int64} (h : Below a st next) (hle : next ≤ next') : Below a st next' :=
  ⟨fun c hc => let ⟨n, hn, hpos, hn'⟩ := h.counter c hc; ⟨n, hn, hpos, hn'.trans hle⟩, h.ids⟩

lemma put_counter {n : Int64} (h : Below a st next) (hpos : 0 < n) (hle : next ≤ n) :
    Below a (st.insert a.encodeIncrIdKey (formatId n)) n := by
  constructor
  · intro c hc
    rw [AList.lookup_insert, Option.some.injEq] at hc
    exact ⟨n, hc.symm, hpos, le_rfl⟩
  · intro key b hkey hb
    rw [AList.lookup_insert_ne hkey] at hb
    obtain ⟨v, m, rfl, hm, hlt⟩ := h.ids key b hkey hb
    obtain ⟨m', hm', -, hle'⟩ := h.counter _ hm
    obtain rfl : m = m' := by simpa using congrArg parseId hm'
    exact ⟨v, n, rfl, AList.lookup_insert _, hlt.trans_le (hle'.trans hle)⟩

lemma put_id (h : Below a st next) (hkey : a.KeyOk key)
    (hcounter : st.lookup a.encodeIncrIdKey = some (formatId next)) (hlt : v < next) :
    Below a (st.insert (a.encodeIdKey key) (toBytes v)) next := by
  have hlookup : (st.insert (a.encodeIdKey key) (toBytes v)).lookup a.encodeIncrIdKey
      = st.lookup a.encodeIncrIdKey := AList.lookup_insert_ne (Ne.symm hkey)
  constructor
  · intro c hc
    exact h.counter c (hlookup ▸ hc)
  · intro key' b hkey' hb
    rw [hlookup]
    rw [GoMap.lookup_insert_if] at hb
    split at hb
    · exact ⟨v, next, (Option.some.inj hb).symm, hcounter, hlt⟩
    · exact h.ids key' b hkey' hb

/-- Values that a reader may meet decode. -/
lemma exists_toBytes (h : Below a st next) (hkey : a.KeyOk key) :
    ∀ b, st.lookup (a.encodeIdKey key) = some b → ∃ v, b = toBytes v :=
  fun b hb => let ⟨v, _, hv, _⟩ := h.ids key b hkey hb; ⟨v, hv⟩

end Below

/-! ### Everything in use is below the counter -/

structure Ordered (opts : Options) (s : Session) : Prop where
  opened : s.alloc.closed = false
  keyTypeNextId : s.alloc.keyTypeNextId = opts.fillDefaults.keyTypeNextId
  keyTypeKey : s.alloc.keyTypeKey = opts.fillDefaults.keyTypeKey
  maxBatchSize : s.alloc.db.maxBatchSize = opts.fillDefaults.batchSize
  pos : 0 < s.alloc.nextId
  handed : ∀ e ∈ s.handedOut, s.alloc.KeyOk e.1 ∧ ∃ v, e.2 = toBytes v ∧ v < s.alloc.nextId
  cache : ∀ e ∈ s.alloc.lru.entries, e.2 < s.alloc.nextId
  store : Below s.alloc s.alloc.db.store s.alloc.nextId
  ahead : Below s.alloc s.alloc.db.ahead s.alloc.nextId
  counter : s.alloc.db.ahead.lookup s.alloc.encodeIncrIdKey = some (formatId s.alloc.nextId) ∨
    s.alloc.db.ahead.lookup s.alloc.encodeIncrIdKey = none ∧ s.alloc.nextId = 1

namespace Ordered

variable {opts : Options} {s : Session}

lemma fresh (opts : Options) : Ordered opts (Session.fresh opts) where
  opened := rfl
  keyTypeNextId := rfl
  keyTypeKey := rfl
  maxBatchSize := rfl
  pos := pos_one
  handed := by simp [Session.fresh]
  cache := by simp [Session.fresh, newLRUCache]
  store := .empty
  ahead := .empty
  counter := .inr ⟨rfl, rfl⟩

/-- What a read finds is below the counter. -/
lemma lt_nextId (h : Ordered opts s) (hkey : s.alloc.KeyOk key)
    (hsrc : s.alloc.Source key (some v)) : v < s.alloc.nextId := by
  cases hsrc with
  | cache hget => exact h.cache (key, v) (LruCache.mem_of_get_eq_some hget)
  | store _ hst =>
    obtain ⟨w, n, hw, hn, hlt⟩ := h.store.ids key _ hkey hst
    obtain ⟨n', hn', -, hle⟩ := h.store.counter _ hn
    obtain rfl : n = n' := by simpa using congrArg parseId hn'
    obtain rfl : v = w := toBytes_inj hw
    exact hlt.trans_le hle

/-- A cache that has learned an id below the counter. -/
lemma read (h : Ordered opts s) {l : LruCache} (hr : ∀ v ∈ r, v < s.alloc.nextId)
    (hl : ∀ e ∈ l.entries, (∃ v ∈ r, e = (key, v)) ∨ e ∈ s.alloc.lru.entries) :
    Ordered opts { s with alloc := { s.alloc with lru := l } } := by
  refine { h with store := { h.store with }, ahead := { h.ahead with }, cache := fun e he => ?_ }
  rcases hl e he with ⟨v, hv, rfl⟩ | he
  · exact hr v hv
  · exact h.cache e he

lemma handOut (h : Ordered opts s) (hkey : s.alloc.KeyOk key) (hv : v < s.alloc.nextId) :
    Ordered opts { s with handedOut := s.handedOut ++ [(key, toBytes v)] } := by
  refine { h with handed := fun e he => ?_ }
  rcases mem_append.1 he with he | he
  · exact h.handed e he
  · rw [mem_singleton.1 he]
    exact ⟨hkey, v, rfl, hv⟩

lemma allocate (h : Ordered opts s) (hkey : s.alloc.KeyOk key)
    (hmax : s.alloc.nextId < Int64.maxValue) (f₁ f₂ : Bool) :
    Ordered opts { s with alloc := s.alloc.allocate key f₁ f₂ } := by
  have hlt := lt_add_one hmax
  -- the counter is written first, so the store is in order after either operation
  have hahead₁ := h.ahead.put_counter (h.pos.trans hlt) hlt.le
  have hahead₂ := hahead₁.put_id hkey (AList.lookup_insert _) hlt
  have hstore₁ : Below s.alloc (s.alloc.db.add f₁ (.put s.alloc.encodeIncrIdKey
      (formatId (s.alloc.nextId + 1)))).store (s.alloc.nextId + 1) := by
    rcases Db.store_add f₁ s.alloc.db
      (.put s.alloc.encodeIncrIdKey (formatId (s.alloc.nextId + 1))) with heq | heq <;> rw [heq]
    · exact h.store.mono hlt.le
    · exact hahead₁
  have hstore₂ : Below s.alloc (s.alloc.allocate key f₁ f₂).db.store (s.alloc.nextId + 1) := by
    rw [Allocator.allocate_db]
    rcases Db.store_add f₂ (s.alloc.db.add f₁ (.put s.alloc.encodeIncrIdKey
      (formatId (s.alloc.nextId + 1)))) (.put (s.alloc.encodeIdKey key)
      (toBytes s.alloc.nextId)) with heq | heq <;> rw [heq]
    · exact hstore₁
    · rw [Db.ahead_add]
      exact hahead₂
  have hahead := s.alloc.ahead_allocate key f₁ f₂
  refine
    { h with
      maxBatchSize := by simpa [Allocator.allocate] using h.maxBatchSize
      pos := h.pos.trans hlt
      handed := fun e he => ?_
      cache := fun e he => ?_
      store := ⟨hstore₂.counter, hstore₂.ids⟩
      ahead := ?_
      counter := .inl ?_ }
  · obtain ⟨hk, v, hv, hvlt⟩ := h.handed e he
    exact ⟨hk, v, hv, hvlt.trans hlt⟩
  · rcases LruCache.mem_entries_put he with rfl | he
    · exact hlt
    · exact (h.cache e he).trans hlt
  · rw [hahead]
    exact ⟨hahead₂.counter, hahead₂.ids⟩
  · rw [hahead]
    exact (AList.lookup_insert_ne (Ne.symm hkey)).trans (AList.lookup_insert _)

lemma tryCommit (h : Ordered opts s) (fails : Bool) :
    Ordered opts { s with alloc := (s.alloc.tryCommit fails).1 } := by
  unfold Allocator.tryCommit
  rw [if_neg (by simp [h.opened])]
  split
  case isFalse => exact h
  case isTrue =>
    have hahead : (s.alloc.db.commitReset fails).ahead = s.alloc.db.ahead := Db.ahead_commitReset _ _
    refine
      { opened := h.opened
        keyTypeNextId := h.keyTypeNextId
        keyTypeKey := h.keyTypeKey
        maxBatchSize := by simpa using h.maxBatchSize
        pos := h.pos
        handed := h.handed
        cache := h.cache
        store := ?_
        ahead := ?_
        counter := ?_ }
    · rcases Db.store_commitReset fails s.alloc.db with heq | heq <;> dsimp only <;> rw [heq]
      · exact ⟨h.store.counter, h.store.ids⟩
      · exact ⟨h.ahead.counter, h.ahead.ids⟩
    · dsimp only
      rw [hahead]
      exact ⟨h.ahead.counter, h.ahead.ids⟩
    · dsimp only
      rw [hahead]
      exact h.counter

/-- `GetId` either finds an id or allocates the next one. -/
lemma getId_cases (h : Ordered opts s) (hkey : s.alloc.KeyOk key) (f₁ f₂ : Bool) :
    ∃ l r, s.alloc.Source key r ∧
      (∀ e ∈ l.entries, (∃ v ∈ r, e = (key, v)) ∨ e ∈ s.alloc.lru.entries) ∧
      s.alloc.getId key f₁ f₂ = some (match r with
        | some v => ({ s.alloc with lru := l }, .ok (toBytes v))
        | none => (({ s.alloc with lru := l } : Allocator).allocate key f₁ f₂,
            .ok (toBytes s.alloc.nextId))) := by
  have hval := h.store.exists_toBytes hkey
  obtain ⟨l, r, hlook, hsrc, hl⟩ := Allocator.lookup_spec h.opened hval
  refine ⟨l, r, hsrc, hl, ?_⟩
  rw [Allocator.getId_eq _ _ _ _ hval, hlook]
  cases r <;> rfl

lemma lookup_step (h : Ordered opts s) (hkey : s.alloc.KeyOk key) :
    ∃ s', s.step opts (.lookup key) = some s' ∧ Ordered opts s' := by
  obtain ⟨l, r, hlook, hsrc, hl⟩ :=
    Allocator.lookup_spec h.opened (h.store.exists_toBytes hkey)
  refine ⟨_, by simp only [Session.step, hlook, Option.map_some], h.read (fun v hv => ?_) hl⟩
  obtain rfl := Option.mem_def.1 hv
  exact h.lt_nextId hkey hsrc

lemma getId_step (h : Ordered opts s) (hkey : s.alloc.KeyOk key)
    (hmax : s.alloc.nextId < Int64.maxValue) (f₁ f₂ : Bool) :
    ∃ s', s.step opts (.getId key f₁ f₂) = some s' ∧ Ordered opts s' := by
  obtain ⟨l, r, hsrc, hl, heq⟩ := h.getId_cases hkey f₁ f₂
  rw [Session.step, heq]
  cases r with
  | some v =>
    have hv := h.lt_nextId hkey hsrc
    exact ⟨_, rfl, (h.read (fun w hw => (Option.some.inj hw) ▸ hv) hl).handOut hkey hv⟩
  | none =>
    have hread := h.read (r := none) (by simp) hl
    exact ⟨_, rfl, (hread.allocate hkey hmax f₁ f₂).handOut hkey (lt_add_one hmax)⟩

end Ordered

/-! ### The ids handed out are the mappings -/

structure Faithful (s : Session) : Prop where
  mapped : ∀ e ∈ s.handedOut, s.alloc.db.ahead.lookup (s.alloc.encodeIdKey e.1) = some e.2
  only : ∀ key b, s.alloc.KeyOk key → s.alloc.db.ahead.lookup (s.alloc.encodeIdKey key) = some b →
    (key, b) ∈ s.handedOut
  inj : ∀ e ∈ s.handedOut, ∀ e' ∈ s.handedOut, e.2 = e'.2 → e.1 = e'.1
  cache : ∀ e ∈ s.alloc.lru.entries, (e.1, toBytes e.2) ∈ s.handedOut

namespace Faithful

variable {opts : Options} {s : Session} {key : Bytes}

lemma fresh (opts : Options) : Faithful (Session.fresh opts) where
  mapped := by simp [Session.fresh]
  only _ _ _ h := by simp [Session.fresh] at h
  inj := by simp [Session.fresh]
  cache := by simp [Session.fresh, newLRUCache]

/-- A key that is not in the cache has nothing buffered, so the store shows its mapping. -/
lemma lookup_store (hcached : s.alloc.Cached key) (hmiss : (s.alloc.lru.get key).1 = none) :
    s.alloc.db.ahead.lookup (s.alloc.encodeIdKey key)
      = s.alloc.db.store.lookup (s.alloc.encodeIdKey key) := by
  refine lookup_applyAll_of_forall_ne _ fun op hop hkey => ?_
  simpa [hmiss] using hcached ⟨op, hop, hkey⟩

/-- A read finds the id that was handed out for its key, and nothing for a new key. -/
lemma source_iff (h : Faithful s) (hkey : s.alloc.KeyOk key) (hcached : s.alloc.Cached key)
    (hsrc : s.alloc.Source key r) (v : Int64) : r = some v ↔ (key, toBytes v) ∈ s.handedOut := by
  have huniq : ∀ {w : Int64}, (key, toBytes w) ∈ s.handedOut →
      (key, toBytes v) ∈ s.handedOut → w = v := fun hw hv =>
    toBytes_inj (Option.some.inj ((h.mapped _ hw).symm.trans (h.mapped _ hv)))
  have hfound : ∀ {w : Int64}, (key, toBytes w) ∈ s.handedOut →
      (some w = some v ↔ (key, toBytes v) ∈ s.handedOut) := fun hw =>
    ⟨fun heq => Option.some.inj heq ▸ hw, fun hv => congrArg some (huniq hw hv)⟩
  cases hsrc with
  | cache hget => exact hfound (h.cache _ (LruCache.mem_of_get_eq_some hget))
  | store hmiss hst => exact hfound (h.only _ _ hkey ((lookup_store hcached hmiss).trans hst))
  | nowhere hmiss hst =>
    refine ⟨by simp, fun hv => ?_⟩
    have := (h.mapped _ hv).symm.trans ((lookup_store hcached hmiss).trans hst)
    simp at this

lemma read (h : Faithful s) {l : LruCache} (hr : ∀ v ∈ r, (key, toBytes v) ∈ s.handedOut)
    (hl : ∀ e ∈ l.entries, (∃ v ∈ r, e = (key, v)) ∨ e ∈ s.alloc.lru.entries) :
    Faithful { s with alloc := { s.alloc with lru := l } } := by
  refine { h with cache := fun e he => ?_ }
  rcases hl e he with ⟨v, hv, rfl⟩ | he
  · exact hr v hv
  · exact h.cache e he

/-- Handing out an id again. -/
lemma handOut (h : Faithful s) {id : Bytes} (hid : (key, id) ∈ s.handedOut) :
    Faithful { s with handedOut := s.handedOut ++ [(key, id)] } := by
  have hmem : ∀ e ∈ s.handedOut ++ [(key, id)], e ∈ s.handedOut := fun e he => by
    rcases mem_append.1 he with he | he
    · exact he
    · exact mem_singleton.1 he ▸ hid
  exact
    { mapped := fun e he => h.mapped e (hmem e he)
      only := fun key b hkey hb => mem_append_left _ (h.only key b hkey hb)
      inj := fun e he e' he' => h.inj e (hmem e he) e' (hmem e' he')
      cache := fun e he => mem_append_left _ (h.cache e he) }

/-- Handing out the next id for a key that has none. -/
lemma allocate (h : Faithful s) (ho : Ordered opts s) (hkey : s.alloc.KeyOk key)
    (hnew : ∀ id, (key, id) ∉ s.handedOut) (f₁ f₂ : Bool) :
    Faithful { alloc := s.alloc.allocate key f₁ f₂,
               handedOut := s.handedOut ++ [(key, toBytes s.alloc.nextId)] } := by
  have hahead := s.alloc.ahead_allocate key f₁ f₂
  have hother : ∀ {key'}, key' ≠ key → s.alloc.KeyOk key' →
      (s.alloc.allocate key f₁ f₂).db.ahead.lookup (s.alloc.encodeIdKey key')
        = s.alloc.db.ahead.lookup (s.alloc.encodeIdKey key') := fun hne hok => by
    rw [hahead, AList.lookup_insert_ne (by simpa [Allocator.encodeIdKey] using hne),
      AList.lookup_insert_ne hok]
  have hfresh : ∀ e ∈ s.handedOut, e.2 ≠ toBytes s.alloc.nextId := fun e he heq => by
    obtain ⟨-, v, hv, hlt⟩ := ho.handed e he
    exact absurd (toBytes_inj (hv.symm.trans heq)) hlt.ne
  constructor
  · intro e he
    rcases mem_append.1 he with he | he
    · have hne : e.1 ≠ key := fun heq => hnew e.2 (heq ▸ he)
      exact (hother hne (ho.handed e he).1).trans (h.mapped e he)
    · obtain rfl := mem_singleton.1 he
      exact (congrArg (AList.lookup _) hahead).trans (AList.lookup_insert _)
  · intro key' b hkey' hb
    by_cases hne : key' = key
    · subst hne
      have : toBytes s.alloc.nextId = b := by
        rw [← Option.some.injEq, ← hb]
        exact ((congrArg (AList.lookup _) hahead).trans (AList.lookup_insert _)).symm
      exact mem_append_right _ (by simp [this])
    · exact mem_append_left _ (h.only key' b hkey' ((hother hne hkey').symm.trans hb))
  · intro e he e' he' heq
    rcases mem_append.1 he with he | he <;> rcases mem_append.1 he' with he' | he'
    · exact h.inj e he e' he' heq
    · rw [mem_singleton.1 he'] at heq
      exact absurd heq (hfresh e he)
    · rw [mem_singleton.1 he] at heq
      exact absurd heq.symm (hfresh e' he')
    · rw [mem_singleton.1 he, mem_singleton.1 he']
  · intro e he
    rcases LruCache.mem_entries_put he with rfl | he
    · exact mem_append_right _ (mem_singleton_self _)
    · exact mem_append_left _ (h.cache e he)

lemma tryCommit (h : Faithful s) (fails : Bool) :
    Faithful { s with alloc := (s.alloc.tryCommit fails).1 } := by
  unfold Allocator.tryCommit
  split
  · exact h
  · split
    · have hahead := Db.ahead_commitReset fails s.alloc.db
      exact
        { h with
          mapped := fun e he => by dsimp only; rw [hahead]; exact h.mapped e he
          only := fun key b hkey hb => by dsimp only at hb; rw [hahead] at hb; exact h.only key b hkey hb }
    · exact h

lemma getId_step (h : Faithful s) (ho : Ordered opts s) (hkey : s.alloc.KeyOk key)
    (hcached : s.alloc.Cached key) {f₁ f₂ : Bool} {s' : Session}
    (hstep : s.step opts (.getId key f₁ f₂) = some s') : Faithful s' := by
  obtain ⟨l, r, hsrc, hl, heq⟩ := ho.getId_cases hkey f₁ f₂
  have hiff := h.source_iff hkey hcached hsrc
  have hread := h.read (fun v hv => (hiff v).1 hv) hl
  rw [Session.step, heq] at hstep
  cases r with
  | some v =>
    cases hstep
    exact hread.handOut ((hiff v).1 rfl)
  | none =>
    have hnew : ∀ id, (key, id) ∉ s.handedOut := fun id hid => by
      obtain ⟨-, v, rfl, -⟩ := ho.handed _ hid
      simpa using (hiff v).2 hid
    cases hstep
    exact hread.allocate (ho.read (r := none) (by simp) hl) hkey hnew f₁ f₂

lemma lookup_step (h : Faithful s) (ho : Ordered opts s) (hkey : s.alloc.KeyOk key)
    (hcached : s.alloc.Cached key) {s' : Session}
    (hstep : s.step opts (.lookup key) = some s') : Faithful s' := by
  obtain ⟨l, r, hlook, hsrc, hl⟩ :=
    Allocator.lookup_spec ho.opened (ho.store.exists_toBytes hkey)
  rw [Session.step, hlook] at hstep
  cases hstep
  exact h.read (fun v hv => (h.source_iff hkey hcached hsrc v).1 hv) hl

end Faithful

end Haystack.IdTable
