import Haystack.IdTable.Invariant
import Haystack.Lib.StepSystem

/-!
# Stability and durability of ids

The conditions under which a call keeps the invariants, and what follows for runs: ids are stable
and unique as long as no uncommitted mapping is asked for after it left the cache, and a commit
that returns without an error has stored every id as long as the batch's count has not lost track
of its operations. A committed counter is above every committed id in any case.
-/

namespace Haystack.IdTable

open WriteBatch StepSystem

variable {opts : Options} {s s' : Session} {calls : List Call} {call : Call} {key : Bytes}

/-! ### Reopening -/

/-- A batch that is empty or counts its operations is committed by `tryCommit`. -/
lemma store_close (ho : Ordered opts s)
    (hbatch : s.alloc.db.ops = [] ∨ s.alloc.db.count = s.alloc.db.ops.length) :
    (s.alloc.close false).db.store = s.alloc.db.ahead := by
  unfold Allocator.close Allocator.tryCommit
  rw [if_neg (by simp [ho.opened])]
  split
  case isTrue => rfl
  case isFalse hcount =>
    have hops : s.alloc.db.ops = [] := by
      rcases hbatch with h | h
      · exact h
      · exact List.eq_nil_of_length_eq_zero (by omega)
    simp [Db.ahead, hops, applyAll]

lemma reopen_step (ho : Ordered opts s) (hf : Faithful s)
    (hbatch : s.alloc.db.ops = [] ∨ s.alloc.db.count = s.alloc.db.ops.length) :
    ∃ s', s.step opts (.reopen false) = some s' ∧ Ordered opts s' ∧ Faithful s' ∧
      s'.alloc.db.Counted := by
  obtain ⟨⟨db, lru, nextId, kN, kK, closed⟩, out⟩ := s
  obtain rfl : kN = _ := ho.keyTypeNextId
  obtain rfl : kK = _ := ho.keyTypeKey
  have hnext : Allocator.storedNextId db.ahead opts.fillDefaults.keyTypeNextId = nextId := by
    rcases ho.counter with h | ⟨h, h'⟩
    · simp only [Allocator.encodeIncrIdKey] at h
      simp [Allocator.storedNextId, h]
    · simp only [Allocator.encodeIncrIdKey] at h
      simpa [Allocator.storedNextId, h] using h'.symm
  have hnew : Allocator.new db.ahead opts = .ok
      { db := Db.newBatch db.ahead opts.fillDefaults.batchSize
        lru := newLRUCache opts.fillDefaults.lruCacheSize
        nextId := nextId
        keyTypeNextId := opts.fillDefaults.keyTypeNextId
        keyTypeKey := opts.fillDefaults.keyTypeKey
        closed := false } := by
    unfold Allocator.new
    dsimp only
    rw [hnext, if_neg (not_lt.2 ho.pos.le)]
  have hstore := store_close ho hbatch
  dsimp only at hstore
  refine ⟨_, by rw [Session.step, hstore, hnew], ?_, ?_, Db.Counted.newBatch _ _⟩
  · exact
      { opened := rfl
        keyTypeNextId := rfl
        keyTypeKey := rfl
        maxBatchSize := rfl
        pos := ho.pos
        handed := ho.handed
        cache := by simp [newLRUCache]
        store := ⟨ho.ahead.counter, ho.ahead.ids⟩
        ahead := ⟨ho.ahead.counter, ho.ahead.ids⟩
        counter := ho.counter }
  · exact
      { mapped := hf.mapped
        only := hf.only
        inj := hf.inj
        cache := by simp [newLRUCache] }

/-! ### Runs without failures -/

/-- No commit that the call makes fails. -/
def Call.Clean : Call → Prop
  | .getId _ f₁ f₂ => f₁ = false ∧ f₂ = false
  | .lookup _ => True
  | .commit fails | .tick fails | .reopen fails => fails = false

instance : DecidablePred Call.Clean := fun call => by
  cases call <;> dsimp only [Call.Clean] <;> infer_instance

/-- The state in which a call may be made: the key is not the counter's, a key with an uncommitted
mapping is in the cache, the counter does not overflow, and the allocator is closed only when its
batch is empty or counts its operations. -/
def Steady (s : Session) : Call → Prop
  | .getId key _ _ =>
    s.alloc.KeyOk key ∧ s.alloc.Cached key ∧ s.alloc.nextId < Int64.maxValue
  | .lookup key => s.alloc.KeyOk key ∧ s.alloc.Cached key
  | .commit _ | .tick _ => True
  | .reopen _ => s.alloc.db.ops = [] ∨ 0 < s.alloc.db.maxBatchSize

instance (s : Session) : DecidablePred (Steady s) := fun call => by
  cases call <;> dsimp only [Steady] <;> infer_instance

lemma Counted.getId (h : s.alloc.db.Counted) (ho : Ordered opts s) (hkey : s.alloc.KeyOk key)
    (hstep : s.step opts (.getId key false false) = some s') : s'.alloc.db.Counted := by
  obtain ⟨l, r, -, -, heq⟩ := ho.getId_cases hkey false false
  rw [Session.step, heq] at hstep
  cases r with
  | some v => exact Option.some.inj hstep ▸ h
  | none => exact Option.some.inj hstep ▸ (h.add _).add _

lemma Counted.lookup (h : s.alloc.db.Counted) (ho : Ordered opts s) (hkey : s.alloc.KeyOk key)
    (hstep : s.step opts (.lookup key) = some s') : s'.alloc.db.Counted := by
  obtain ⟨l, r, heq, -⟩ := Allocator.lookup_spec ho.opened (ho.store.exists_toBytes hkey)
  rw [Session.step, heq] at hstep
  exact Option.some.inj hstep ▸ h

lemma Counted.tryCommit (h : s.alloc.db.Counted) :
    (s.alloc.tryCommit false).1.db.Counted := by
  unfold Allocator.tryCommit
  split
  · exact h
  · split
    · exact Db.Counted.commitReset _
    · exact h

lemma commit_eq (ho : Ordered opts s) (fails : Bool) :
    s.alloc.commit fails = s.alloc.tryCommit fails := by
  rw [Allocator.commit, if_neg (by simp [ho.opened])]

/-- A call without failures, made in a state that allows it, succeeds and keeps the invariants. -/
lemma steady_step (ho : Ordered opts s) (hf : Faithful s) (hc : s.alloc.db.Counted)
    (hclean : call.Clean) (hok : Steady s call) :
    ∃ s', s.step opts call = some s' ∧ Ordered opts s' ∧ Faithful s' ∧ s'.alloc.db.Counted := by
  cases call with
  | getId key f₁ f₂ =>
    obtain ⟨rfl, rfl⟩ := hclean
    obtain ⟨hkey, hcached, hmax⟩ := hok
    obtain ⟨s', hs', ho'⟩ := ho.getId_step hkey hmax false false
    exact ⟨s', hs', ho', hf.getId_step ho hkey hcached hs', Counted.getId hc ho hkey hs'⟩
  | lookup key =>
    obtain ⟨hkey, hcached⟩ := hok
    obtain ⟨s', hs', ho'⟩ := ho.lookup_step hkey
    exact ⟨s', hs', ho', hf.lookup_step ho hkey hcached hs', Counted.lookup hc ho hkey hs'⟩
  | commit fails =>
    obtain rfl : fails = false := hclean
    refine ⟨_, by rw [Session.step, commit_eq ho], ho.tryCommit false, hf.tryCommit false, ?_⟩
    exact Counted.tryCommit hc
  | tick fails =>
    obtain rfl : fails = false := hclean
    exact ⟨_, rfl, ho.tryCommit false, hf.tryCommit false, Counted.tryCommit hc⟩
  | reopen fails =>
    obtain rfl : fails = false := hclean
    exact reopen_step ho hf (hok.imp_right fun h => hc h)

lemma steady_run (hrun : Run (Session.step opts) (fun s call => call.Clean ∧ Steady s call)
      (Session.fresh opts) calls s) : Ordered opts s ∧ Faithful s ∧ s.alloc.db.Counted := by
  refine hrun.invariant (I := fun _ s => Ordered opts s ∧ Faithful s ∧ s.alloc.db.Counted)
    ⟨.fresh opts, .fresh opts, Db.Counted.newBatch _ _⟩ ?_
  rintro ls s call s' ⟨ho, hf, hc⟩ ⟨hclean, hok⟩ hstep
  obtain ⟨s₁, hs₁, h⟩ := steady_step ho hf hc hclean hok
  rw [hstep] at hs₁
  exact Option.some.inj hs₁ ▸ h

/-- **Ids are stable and unique.** For all options, after every run of calls that meet `Steady`,
`GetId` succeeds and returns the id handed out for its key before, if there is one, and an id that
no other key has; `Lookup` succeeds and finds exactly the id handed out for its key; and every
further call that meets `Steady` goes through. -/
theorem ids_stable_unique (opts : Options) {calls : List Call} {s : Session}
    (hrun : Run (Session.step opts) (fun s call => call.Clean ∧ Steady s call)
      (Session.fresh opts) calls s) :
    (∀ key id id', (key, id) ∈ s.handedOut → (key, id') ∈ s.handedOut → id = id') ∧
    (∀ key key' id, (key, id) ∈ s.handedOut → (key', id) ∈ s.handedOut → key = key') ∧
    (∀ key, Steady s (.getId key false false) →
      ∃ a id, s.alloc.getId key false false = some (a, .ok id) ∧
        (∀ id', (key, id') ∈ s.handedOut → id' = id) ∧
        ∀ key', (key', id) ∈ s.handedOut → key' = key) ∧
    (∀ key, Steady s (.lookup key) →
      ∃ a r, s.alloc.lookup key = some (a, .ok r) ∧
        ∀ v, r = some v ↔ (key, toBytes v) ∈ s.handedOut) ∧
    ∀ call, call.Clean → Steady s call → ∃ s', s.step opts call = some s' := by
  obtain ⟨ho, hf, hc⟩ := steady_run hrun
  have hone : ∀ {s : Session}, Faithful s → ∀ key id id', (key, id) ∈ s.handedOut →
      (key, id') ∈ s.handedOut → id = id' := fun hf key id id' h h' =>
    Option.some.inj ((hf.mapped _ h).symm.trans (hf.mapped _ h'))
  refine ⟨hone hf, fun key key' id h h' => hf.inj _ h _ h' rfl, fun key hok => ?_,
    fun key hok => ?_, fun call hclean hok => ?_⟩
  · have hclean : (Call.getId key false false).Clean := ⟨rfl, rfl⟩
    obtain ⟨s', hs', -, hf', -⟩ := steady_step ho hf hc hclean hok
    obtain ⟨l, r, -, -, heq⟩ := ho.getId_cases hok.1 false false
    obtain ⟨a, id, hget⟩ : ∃ a id, s.alloc.getId key false false = some (a, .ok id) := by
      cases r with
      | some v => exact ⟨_, _, heq⟩
      | none => exact ⟨_, _, heq⟩
    -- the state after the call has the id among those handed out
    rw [Session.step, hget] at hs'
    cases hs'
    have hlast : (key, id) ∈ s.handedOut ++ [(key, id)] := by simp
    exact ⟨a, id, hget, fun id' h' => hone hf' _ _ _ (List.mem_append_left _ h') hlast,
      fun key' h' => hf'.inj _ (List.mem_append_left _ h') _ hlast rfl⟩
  · obtain ⟨l, r, hlook, hsrc, -⟩ :=
      Allocator.lookup_spec ho.opened (ho.store.exists_toBytes hok.1)
    exact ⟨_, r, hlook, hf.source_iff hok.1 hok.2 hsrc⟩
  · obtain ⟨s', hs', -⟩ := steady_step ho hf hc hclean hok
    exact ⟨s', hs'⟩

/-- A cache of two entries, a batch of three operations, and a restart. -/
def steadyRun : List Call :=
  [.getId [97] false false, .getId [98] false false, .lookup [97], .tick false, .reopen false,
    .getId [97] false false, .getId [] false false]

theorem ids_stable_unique_reopened : ∃ s,
    Run (Session.step { lruCacheSize := 2, batchSize := 3 })
      (fun s call => call.Clean ∧ Steady s call)
      (Session.fresh { lruCacheSize := 2, batchSize := 3 }) steadyRun s ∧
    s.handedOut = [([97], toBytes 1), ([98], toBytes 2), ([97], toBytes 1), ([], toBytes 3)] ∧
    ∃ a r, s.alloc.lookup [98] = some (a, .ok r) ∧ ∀ v, r = some v ↔ ([98], toBytes v) ∈ s.handedOut := by
  refine Run.exists_of_exec_imp (fun s =>
    s.handedOut = [([97], toBytes 1), ([98], toBytes 2), ([97], toBytes 1), ([], toBytes 3)] ∧
      Steady s (.lookup [98])) (by decide +kernel) fun s hrun h => ⟨h.1, ?_⟩
  exact (ids_stable_unique _ hrun).2.2.2.1 _ h.2

/-- With a cache of one entry the second key evicts the first, whose mapping is not committed yet:
the first key gets a second id. -/
theorem id_reallocated : ∃ s,
    Run (Session.step { lruCacheSize := 1 }) (fun _ call => call.Clean)
      (Session.fresh { lruCacheSize := 1 })
      [.getId [97] false false, .getId [98] false false, .getId [97] false false] s ∧
    ([97], toBytes 1) ∈ s.handedOut ∧ ([97], toBytes 3) ∈ s.handedOut ∧ toBytes 1 ≠ toBytes 3 :=
  Run.exists_of_exec (by decide +kernel)

/-! ### Runs with failing commits -/

/-- What a call needs for the order of ids and counters: its key is not the counter's, and the
counter does not overflow. -/
def Fits (s : Session) : Call → Prop
  | .getId key _ _ => s.alloc.KeyOk key ∧ s.alloc.nextId < Int64.maxValue
  | .lookup key => s.alloc.KeyOk key
  | .commit _ | .tick _ => True
  | .reopen _ => False

/-- A key with an uncommitted mapping is asked for only while it is in the cache. -/
def Kept (s : Session) (call : Call) : Prop :=
  Fits s call ∧ Steady s call

instance (s : Session) : DecidablePred (Fits s) := fun call => by
  cases call <;> dsimp only [Fits] <;> infer_instance

instance (s : Session) (call : Call) : Decidable (Kept s call) :=
  inferInstanceAs (Decidable (_ ∧ _))

lemma Ordered.step_of_fits (ho : Ordered opts s) (hok : Fits s call) :
    ∃ s', s.step opts call = some s' ∧ Ordered opts s' := by
  cases call with
  | getId key f₁ f₂ => exact ho.getId_step hok.1 hok.2 f₁ f₂
  | lookup key => exact ho.lookup_step hok
  | commit fails => exact ⟨_, by rw [Session.step, commit_eq ho], ho.tryCommit fails⟩
  | tick fails => exact ⟨_, rfl, ho.tryCommit fails⟩
  | reopen fails => exact absurd hok id

lemma Faithful.step_of_kept (hf : Faithful s) (ho : Ordered opts s) (hok : Kept s call)
    (hstep : s.step opts call = some s') : Faithful s' := by
  cases call with
  | getId key f₁ f₂ => exact hf.getId_step ho hok.1.1 hok.2.2.1 hstep
  | lookup key => exact hf.lookup_step ho hok.1 hok.2.2 hstep
  | commit fails =>
    rw [Session.step, commit_eq ho] at hstep
    exact Option.some.inj hstep ▸ hf.tryCommit fails
  | tick fails => exact Option.some.inj hstep ▸ hf.tryCommit fails
  | reopen fails => exact absurd hok.1 id

lemma ordered_run (hrun : Run (Session.step opts) Fits (Session.fresh opts) calls s) :
    Ordered opts s := by
  refine hrun.invariant (I := fun _ s => Ordered opts s) (.fresh opts) ?_
  intro ls s call s' ho hok hstep
  obtain ⟨s₁, hs₁, ho₁⟩ := ho.step_of_fits hok
  rw [hstep] at hs₁
  exact Option.some.inj hs₁ ▸ ho₁

lemma faithful_run (hrun : Run (Session.step opts) Kept (Session.fresh opts) calls s) :
    Ordered opts s ∧ Faithful s := by
  refine hrun.invariant (I := fun _ s => Ordered opts s ∧ Faithful s) ⟨.fresh opts, .fresh opts⟩ ?_
  rintro ls s call s' ⟨ho, hf⟩ hok hstep
  obtain ⟨s₁, hs₁, ho₁⟩ := ho.step_of_fits hok.1
  rw [hstep] at hs₁
  exact ⟨Option.some.inj hs₁ ▸ ho₁, hf.step_of_kept ho hok hstep⟩

/-- A store that is in order can be opened again, and the counter goes on above every id in it. -/
lemma Below.exists_new {a : Allocator} {st : GoMap Bytes Bytes} {next : Int64} (h : Below a st next)
    (hN : a.keyTypeNextId = opts.fillDefaults.keyTypeNextId) :
    ∃ a', Allocator.new st opts = .ok a' ∧
      ∀ key v, a.KeyOk key → st.lookup (a.encodeIdKey key) = some (toBytes v) → v < a'.nextId := by
  have hkey : a.encodeIncrIdKey = [opts.fillDefaults.keyTypeNextId] := by
    rw [Allocator.encodeIncrIdKey, hN]
  have hpos : ¬ Allocator.storedNextId st opts.fillDefaults.keyTypeNextId < 0 := by
    unfold Allocator.storedNextId
    rw [← hkey]
    cases hc : st.lookup a.encodeIncrIdKey with
    | none => decide
    | some c =>
      obtain ⟨n, rfl, hn, -⟩ := h.counter c hc
      simpa using hn.le
  refine ⟨_, by unfold Allocator.new; dsimp only; rw [if_neg hpos], fun key v hok hv => ?_⟩
  obtain ⟨w, n, hw, hn, hlt⟩ := h.ids key _ hok hv
  dsimp only
  rw [Allocator.storedNextId, ← hkey, hn]
  simpa [toBytes_inj hw] using hlt

/-- A commit that reports success has applied the whole batch, unless the count has lost track of
buffered operations. -/
lemma store_commit (ho : Ordered opts s) {fails : Bool}
    (hcount : s.alloc.db.count = 0 → s.alloc.db.ops = [])
    (hok : (s.alloc.commit fails).2 = .ok ()) :
    (s.alloc.commit fails).1.db.store = s.alloc.db.ahead := by
  rw [commit_eq ho] at hok ⊢
  unfold Allocator.tryCommit at hok ⊢
  rw [if_neg (by simp [ho.opened])] at hok ⊢
  split at hok
  case isTrue h =>
    rw [if_pos h]
    cases fails with
    | false => rfl
    | true => simp at hok
  case isFalse h =>
    rw [if_neg h]
    simp [Db.ahead, hcount (by omega), applyAll]

/-- **Durability of ids.** For all options and every run of calls in which any commit may fail:
in every state the run reaches, each id in the store is below the counter in the store, and opening
the store again continues above all of them; and when `Commit` returns without an error, every id
handed out so far is in the store under its key, below the stored counter. The second part asks
that the count of the batch is not zero while operations are buffered, and that no uncommitted
mapping is asked for after it left the cache. -/
theorem ids_durable (opts : Options) :
    (∀ calls s, Run (Session.step opts) Fits (Session.fresh opts) calls s →
      (∀ key b, s.alloc.KeyOk key → s.alloc.db.store.lookup (s.alloc.encodeIdKey key) = some b →
        ∃ v n, b = toBytes v ∧
          s.alloc.db.store.lookup s.alloc.encodeIncrIdKey = some (formatId n) ∧ v < n) ∧
      ∃ a, Allocator.new s.alloc.db.store opts = .ok a ∧
        ∀ key v, s.alloc.KeyOk key →
          s.alloc.db.store.lookup (s.alloc.encodeIdKey key) = some (toBytes v) → v < a.nextId) ∧
    ∀ calls s, Run (Session.step opts) Kept (Session.fresh opts) calls s →
      (s.alloc.db.count = 0 → s.alloc.db.ops = []) →
      ∀ fails, (s.alloc.commit fails).2 = .ok () → ∀ e ∈ s.handedOut,
        (s.alloc.commit fails).1.db.store.lookup (s.alloc.encodeIdKey e.1) = some e.2 ∧
        ∃ v n, e.2 = toBytes v ∧
          (s.alloc.commit fails).1.db.store.lookup s.alloc.encodeIncrIdKey = some (formatId n) ∧
          v < n := by
  constructor
  · intro calls s hrun
    have ho := ordered_run hrun
    exact ⟨ho.store.ids, ho.store.exists_new ho.keyTypeNextId⟩
  · intro calls s hrun hcount fails hok e he
    obtain ⟨ho, hf⟩ := faithful_run hrun
    rw [store_commit ho hcount hok]
    exact ⟨hf.mapped e he, ho.ahead.ids _ _ (ho.handed e he).1 (hf.mapped e he)⟩

/-- A commit fails, but a later operation is counted, so the next commit writes the whole batch. -/
theorem ids_durable_retried : ∃ s,
    Run (Session.step {}) Kept (Session.fresh {})
      [.getId [97] false false, .commit true, .getId [98] false false] s ∧
    (s.alloc.commit false).2 = .ok () ∧
    (s.alloc.commit false).1.db.store.lookup (s.alloc.encodeIdKey [97]) = some (toBytes 1) := by
  refine Run.exists_of_exec_imp (fun s => s.alloc.db.count = 2 ∧ s.alloc.closed = false ∧
    ([97], toBytes 1) ∈ s.handedOut) (by decide +kernel) fun s hrun h => ?_
  obtain ⟨hcount, hopen, hmem⟩ := h
  have hok : (s.alloc.commit false).2 = .ok () := by
    simp [Allocator.commit, Allocator.tryCommit, hopen, hcount]
  exact ⟨hok, ((ids_durable {}).2 _ s hrun (by omega) false hok _ hmem).1⟩

/-- The count of the batch is reset before its commit fails. The next commit sees an empty batch
and reports success, and the id handed out is not in the store. -/
theorem commit_forgets : ∃ s,
    Run (Session.step {}) (fun _ _ => True) (Session.fresh {})
      [.getId [97] false false, .commit true] s ∧
    ([97], toBytes 1) ∈ s.handedOut ∧ (s.alloc.commit false).2.toBool = true ∧
    (s.alloc.commit false).1.db.store.lookup (s.alloc.encodeIdKey [97]) = none :=
  Run.exists_of_exec (by decide +kernel)

end Haystack.IdTable
