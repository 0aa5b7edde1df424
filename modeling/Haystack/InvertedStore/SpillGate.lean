import Haystack.InvertedStore.Steps

/-!
# At most one spill in flight, and the producer gate

Between two tasks of the worker a store is either idle, with no detached head, no head over the cap
and the gate open, or it has exactly one detached head whose install is pending. Producers are
therefore only ever parked while an install is pending, and that install opens the gate.
-/

namespace Haystack.InvertedStore

open Option

variable {next : Option TableId} {i : ℕ} {e : SpillEntry}

namespace Store

variable (opts : Options)

/-- Nothing is detached and no head is over the cap. -/
structure Idle (s : Store) : Prop where
  spilling : s.spilling = []
  dispatches : s.dispatches = []
  inFlight : s.spillInFlight = false
  gate : s.blockProducer = false
  under : ∀ {t h}, s.head.lookup t = some h → overCap opts h = false

/-- One head is detached, and its install has failed `n` times. -/
structure Busy (s : Store) (e : SpillEntry) (n : ℕ) : Prop where
  spilling : s.spilling = [e]
  dispatches : s.dispatches = [(e, n)]
  inFlight : s.spillInFlight = true
  attempts : n ≤ opts.maxInstallRetries

/-- The states between two worker tasks. -/
inductive Gate (s : Store) : Prop
  | idle (h : Idle opts s)
  | busy {e : SpillEntry} {n : ℕ} (h : Busy opts s e n)

variable {opts} {s s' : Store}

lemma Gate.idle_of_dispatches (h : Gate opts s) (hd : s.dispatches = []) : Idle opts s := by
  cases h with
  | idle h => exact h
  | busy h => simp [h.dispatches] at hd

lemma Gate.busy_of_dispatch (h : Gate opts s) {n : ℕ} (hd : s.dispatches[i]? = some (e, n)) :
    i = 0 ∧ Busy opts s e n := by
  cases h with
  | idle h => simp [h.dispatches] at hd
  | busy h =>
    rw [h.dispatches, List.getElem?_singleton] at hd
    split at hd
    case isTrue hi =>
      obtain ⟨rfl, rfl⟩ : _ ∧ _ := by simpa using hd
      exact ⟨hi, h⟩
    case isFalse => simp at hd

lemma gate_opened (man : Manifest) (segs : List Segment) (live : GoMap TableId ℤ) :
    Gate opts (opened man segs live) :=
  .idle ⟨rfl, rfl, rfl, rfl, by simp [opened]⟩

/-! ### Applying -/

lemma busy_detachHead (hs : s.spilling = []) (hd : s.dispatches = []) (t : TableId) :
    Busy opts (s.detachHead t) ⟨t, (s.head.lookup t).getD newHeadTable, s.spillTempCtr + 1⟩ 0 :=
  ⟨by simp [detachHead, hs], by simp [detachHead, hd], rfl, Nat.zero_le _⟩

/-- Only the head of the operation's table can have grown over the cap, and it is relieved at
once. -/
lemma Gate.applyOneOp (h : Gate opts s) (op : UpdateOp) (old : List Keyword) :
    Gate opts (s.applyOneOp opts op old) := by
  unfold Store.applyOneOp relieve
  cases h with
  | busy h =>
    rw [if_pos (show (s.post op old).spillInFlight = true from h.inFlight)]
    split
    · exact .busy ⟨h.spilling, h.dispatches, h.inFlight, h.attempts⟩
    · exact .busy ⟨h.spilling, h.dispatches, h.inFlight, h.attempts⟩
  | idle h =>
    split
    case isTrue =>
      rw [if_neg (by simp [Store.post, h.inFlight])]
      exact .busy (busy_detachHead (s := s.post op old) h.spilling h.dispatches _)
    case isFalse hunder =>
      refine .idle ⟨h.spilling, h.dispatches, h.inFlight, h.gate, fun {t head} hl => ?_⟩
      by_cases ht : t = op.tableId
      · subst ht
        simpa [hl] using hunder
      · rw [Store.post, AList.lookup_insert_ne ht] at hl
        exact h.under hl

/-- A batch of one operation takes a shorter path with the same result. -/
lemma applyBatch_eq (s : Store) (ops : List UpdateOp) :
    s.applyBatch opts ops = Store.applyOps opts s ∅ ops := by
  match ops with
  | [] => rfl
  | [op] =>
    cases h : s.forwardKeywords op.tableId op.docid <;>
      simp [applyBatch, Store.applyOps, oldKeywords, h]
  | _ :: _ :: _ => rfl

/-- What every operation keeps is kept by a batch. -/
lemma applyBatch_preserves {P : Store → Prop}
    (hstep : ∀ {s} op old, P s → P (s.applyOneOp opts op old)) {ops : List UpdateOp} (h : P s)
    (hs : s.applyBatch opts ops = some s') : P s' := by
  rw [applyBatch_eq] at hs
  generalize (∅ : GoMap (TableId × DocId) (List Keyword)) = inBatch at hs
  induction ops generalizing s inBatch with
  | nil => exact some.inj hs ▸ h
  | cons op ops ih =>
    obtain ⟨old, -, hs⟩ := bind_eq_some_iff.1 hs
    exact ih (hstep op old h) _ hs

/-! ### Ending a spill -/

/-- The state of an ended spill before the search for an over-cap head. -/
def ended (s : Store) : Store :=
  { s with spilling := [], spillInFlight := false, blockProducer := false, dispatches := [] }

/-- Ending the only spill in flight leaves no over-cap head, or detaches one. -/
lemma endSpill_cases (hsp : s.spilling = [e]) (hd : s.dispatches.eraseIdx i = [])
    (hs : s.endSpill opts i e next = some s') :
    (s' = s.ended ∧ ∀ {t h}, s.head.lookup t = some h → overCap opts h = false) ∨
      ∃ t h, s.head.lookup t = some h ∧ overCap opts h = true ∧ s' = s.ended.detachHead t := by
  have hend : s.endSpill opts i e next = s.ended.findOverCapHead opts next := by
    simp [Store.endSpill, ended, removeSpilling, hsp, hd]
  rw [hend] at hs
  unfold Store.findOverCapHead at hs
  rw [if_neg (by simp [ended])] at hs
  cases next with
  | some t =>
    rw [ite_none_right_eq_some] at hs
    obtain ⟨hover, hs⟩ := hs
    obtain ⟨h, hl, hover⟩ := (any_eq_true _ _).1 hover
    exact .inr ⟨t, h, hl, hover, (some.inj hs).symm⟩
  | none =>
    rw [ite_none_left_eq_some] at hs
    obtain ⟨hunder, hs⟩ := hs
    refine .inl ⟨(some.inj hs).symm, fun {t h} hl => ?_⟩
    refine eq_false_of_ne_true fun hover => hunder (List.any_eq_true.2 ⟨h, ?_, hover⟩)
    exact GoMap.mem_values_of_lookup hl

lemma gate_endSpill (hsp : s.spilling = [e]) (hd : s.dispatches.eraseIdx i = [])
    (hs : s.endSpill opts i e next = some s') : Gate opts s' ∧ s'.blockProducer = false := by
  obtain ⟨rfl, hunder⟩ | ⟨t, h, -, -, rfl⟩ := endSpill_cases hsp hd hs
  · exact ⟨.idle ⟨rfl, rfl, rfl, rfl, hunder⟩, rfl⟩
  · exact ⟨.busy (busy_detachHead rfl rfl t), rfl⟩

/-- What a successful install does: it publishes the detached head and ends the spill. -/
lemma installSpill_cases (hs : s.installSpill opts i next = some s') :
    ∃ e n, s.dispatches[i]? = some (e, n) ∧ n < opts.maxInstallRetries ∧
      (s.publishSpill opts e).endSpill opts i e next = some s' := by
  unfold Store.installSpill at hs
  split at hs
  case h_1 e n hd => exact ⟨e, n, hd, ite_none_right_eq_some.1 hs⟩
  case h_2 => simp at hs

lemma failInstall_cases (hs : s.failInstall opts i = some s') :
    ∃ e n, s.dispatches[i]? = some (e, n) ∧ n < opts.maxInstallRetries ∧
      s' = { s with dispatches := s.dispatches.set i (e, n + 1) } := by
  unfold Store.failInstall at hs
  split at hs
  case h_1 e n hd =>
    obtain ⟨hn, hs⟩ := ite_none_right_eq_some.1 hs
    exact ⟨e, n, hd, hn, (some.inj hs).symm⟩
  case h_2 => simp at hs

lemma giveUpSpill_cases (hs : s.giveUpSpill opts i next = some s') :
    ∃ e n, s.dispatches[i]? = some (e, n) ∧ opts.maxInstallRetries ≤ n ∧
      s.endSpill opts i e next = some s' := by
  unfold Store.giveUpSpill at hs
  split at hs
  case h_1 e n hd => exact ⟨e, n, hd, ite_none_right_eq_some.1 hs⟩
  case h_2 => simp at hs

end Store

/-! ### Steps -/

namespace Store

variable {opts : Options} {s s' : Store}

/-- A step that touches neither the spills nor, except by emptying them, the heads. -/
lemma Gate.of_unchanged (h : Gate opts s) (hsp : s'.spilling = s.spilling)
    (hd : s'.dispatches = s.dispatches) (hf : s'.spillInFlight = s.spillInFlight)
    (hb : s'.blockProducer = s.blockProducer)
    (hh : ∀ {t h'}, s'.head.lookup t = some h' → s.head.lookup t = some h' ∨ h' = newHeadTable) :
    Gate opts s' := by
  cases h with
  | busy h => exact .busy ⟨hsp ▸ h.spilling, hd ▸ h.dispatches, hf ▸ h.inFlight, h.attempts⟩
  | idle h =>
    refine .idle ⟨hsp ▸ h.spilling, hd ▸ h.dispatches, hf ▸ h.inFlight, hb ▸ h.gate,
      fun {t h'} hl => ?_⟩
    rcases hh hl with hl | rfl
    · exact h.under hl
    · simpa [overCap, newHeadTable] using opts.capBytes_pos.ne'

lemma gate_spill (h : Gate opts s) (t : TableId) : Gate opts (s.spill opts t) := by
  simp only [Store.spill]
  split
  · exact h
  · refine h.of_unchanged rfl rfl rfl rfl fun {t' h'} hl => ?_
    rw [GoMap.lookup_insert_if] at hl
    split at hl
    · exact .inr (some.inj hl).symm
    · exact .inl hl

lemma selectTiered_cases (hs : s.selectTieredMergePlan opts = some s') :
    s.plan = none ∧ ∃ l ids, s.pickLowestQualifyingLevel opts = some (l, ids) ∧
      s' = s.reserve ids (l + 1) false none := by
  unfold Store.selectTieredMergePlan at hs
  split at hs
  case isTrue => simp at hs
  case isFalse hp =>
    obtain ⟨⟨l, ids⟩, hpick, rfl⟩ := map_eq_some_iff.1 hs
    exact ⟨by simpa using hp, l, ids, hpick, rfl⟩

lemma selectCovering_cases {force dead : Bool}
    (hs : s.selectCoveringMergePlan force dead = some s') :
    s.plan = none ∧ ∃ level, s' =
      s.reserve (s.man.segments.map SegMeta.id) level true (some s.man.tables) := by
  unfold Store.selectCoveringMergePlan at hs
  split at hs
  case isTrue => simp at hs
  case isFalse hp =>
    obtain ⟨-, hs⟩ := ite_none_left_eq_some.1 hs
    exact ⟨by simpa using (not_or.1 hp).1, _, (some.inj hs).symm⟩

lemma installMerge_cases (hs : s.installMerge opts = some s') :
    ∃ p res, s.plan = some p ∧
      mergeSegments opts p.segs p.outId p.level p.covering p.liveTables = some res ∧
      s' = s.swapMerged p.inputIds res := by
  obtain ⟨p, hp, hs⟩ := bind_eq_some_iff.1 hs
  obtain ⟨res, hres, rfl⟩ := map_eq_some_iff.1 hs
  exact ⟨p, res, hp, hres, rfl⟩

lemma Busy.erase {n : ℕ} (h : Busy opts s e n) : s.dispatches.eraseIdx 0 = [] := by
  simp [h.dispatches]

theorem gate_step (h : Gate opts s) {l : Label} (hs : step opts s l = some s') : Gate opts s' := by
  cases l with
  | apply ops => exact applyBatch_preserves (fun op old h => Gate.applyOneOp h op old) h hs
  | installSpill i next =>
    obtain ⟨e, n, hd, -, hs⟩ := installSpill_cases hs
    obtain ⟨rfl, hb⟩ := h.busy_of_dispatch hd
    exact (gate_endSpill (s := s.publishSpill opts e) hb.spilling hb.erase hs).1
  | failInstall i =>
    obtain ⟨e, n, hd, hn, rfl⟩ := failInstall_cases hs
    obtain ⟨rfl, hb⟩ := h.busy_of_dispatch hd
    exact .busy ⟨hb.spilling, by simp [hb.dispatches], hb.inFlight, hn⟩
  | giveUpSpill i next =>
    obtain ⟨e, n, hd, -, hs⟩ := giveUpSpill_cases hs
    obtain ⟨rfl, hb⟩ := h.busy_of_dispatch hd
    exact (gate_endSpill hb.spilling hb.erase hs).1
  | spill t => exact some.inj hs ▸ gate_spill h t
  | selectTiered =>
    obtain ⟨-, l, ids, -, rfl⟩ := selectTiered_cases hs
    exact h.of_unchanged rfl rfl rfl rfl .inl
  | selectCovering force dead =>
    obtain ⟨-, level, rfl⟩ := selectCovering_cases hs
    exact h.of_unchanged rfl rfl rfl rfl .inl
  | installMerge =>
    obtain ⟨p, res, -, -, rfl⟩ := installMerge_cases hs
    exact h.of_unchanged rfl rfl rfl rfl .inl
  | createTable => exact some.inj hs ▸ h.of_unchanged rfl rfl rfl rfl .inl
  | deleteTable t =>
    refine some.inj hs ▸ h.of_unchanged rfl rfl rfl rfl fun {t' h'} hl => .inl ?_
    rw [Store.deleteTable, GoMap.lookup_erase_if] at hl
    exact (ite_none_left_eq_some.1 hl).2
  | releaseGate =>
    cases hs
    cases h with
    | idle h => exact .idle ⟨h.spilling, h.dispatches, h.inFlight, rfl, h.under⟩
    | busy h => exact .busy ⟨h.spilling, h.dispatches, h.inFlight, h.attempts⟩

/-- The gate invariant holds in every state a store reaches. -/
theorem gate_run {man : Manifest} {segs : List Segment} {live : GoMap TableId ℤ} {ls : List Label}
    {ok : Store → Label → Prop} (hrun : StepSystem.Run (step opts) ok (opened man segs live) ls s) :
    Gate opts s :=
  hrun.invariant (I := fun _ s => Gate opts s) (gate_opened man segs live)
    fun h _ hs => gate_step h hs

/-- What an install does between two tasks: the only detached head becomes a segment, and a head over
the cap may take its place. -/
lemma Gate.install_cases (h : Gate opts s) (hs : s.installSpill opts i next = some s') :
    ∃ e n, Busy opts s e n ∧
      (s' = (s.publishSpill opts e).ended ∨ ∃ t x, s.head.lookup t = some x ∧
        overCap opts x = true ∧ s' = (s.publishSpill opts e).ended.detachHead t) := by
  obtain ⟨e, n, hd, -, hend⟩ := installSpill_cases hs
  obtain ⟨rfl, hb⟩ := h.busy_of_dispatch hd
  obtain ⟨rfl, -⟩ | h := endSpill_cases (s := s.publishSpill opts e) hb.spilling hb.erase hend
  exacts [⟨e, n, hb, .inl rfl⟩, ⟨e, n, hb, .inr h⟩]

/-! ### No producer waits for nothing -/

/-- The search for an over-cap head succeeds for some table, or finds none. -/
lemma exists_findOverCapHead (hf : s.spillInFlight = false) :
    ∃ next s', s.findOverCapHead opts next = some s' := by
  unfold Store.findOverCapHead
  simp only [hf, Bool.false_eq_true, if_false]
  by_cases hover : (GoMap.values s.head).any (overCap opts) = true
  · obtain ⟨h, hmem, hh⟩ := List.any_eq_true.1 hover
    obtain ⟨⟨t, _⟩, he, rfl⟩ := List.mem_map.1 hmem
    exact ⟨some t, s.detachHead t, by simp [GoMap.mem_entries_iff.1 he, hh]⟩
  · exact ⟨none, s, by simp [hover]⟩

lemma exists_endSpill (opts : Options) (s : Store) (i : ℕ) (e : SpillEntry) :
    ∃ next s', s.endSpill opts i e next = some s' :=
  exists_findOverCapHead rfl

/-- The steps by which the `i`-th spill in progress ends. -/
def Completes (opts : Options) (s : Store) (i : ℕ) (s' : Store) : Prop :=
  ∃ next, step opts s (.installSpill i next) = some s' ∨ step opts s (.giveUpSpill i next) = some s'

lemma Busy.exists_completes {n : ℕ} (h : Busy opts s e n) : ∃ s', Completes opts s 0 s' := by
  by_cases hn : n < opts.maxInstallRetries
  · obtain ⟨next, s', hs'⟩ := exists_endSpill opts (s.publishSpill opts e) 0 e
    exact ⟨s', next, .inl (by simpa [step, Store.installSpill, h.dispatches, hn] using hs')⟩
  · obtain ⟨next, s', hs'⟩ := exists_endSpill opts s 0 e
    have hn' : opts.maxInstallRetries ≤ n := not_lt.1 hn
    exact ⟨s', next, .inr (by simpa [step, Store.giveUpSpill, h.dispatches, hn'] using hs')⟩

lemma Gate.gate_of_completes (h : Gate opts s) (hc : Completes opts s i s') :
    s'.blockProducer = false := by
  obtain ⟨next, hs | hs⟩ := hc
  · obtain ⟨e, n, hd, -, hs⟩ := installSpill_cases hs
    obtain ⟨rfl, hb⟩ := h.busy_of_dispatch hd
    exact (gate_endSpill (s := s.publishSpill opts e) hb.spilling hb.erase hs).2
  · obtain ⟨e, n, hd, -, hs⟩ := giveUpSpill_cases hs
    obtain ⟨rfl, hb⟩ := h.busy_of_dispatch hd
    exact (gate_endSpill hb.spilling hb.erase hs).2

/-- In every state between two tasks: a spill is in flight exactly if one head is detached, a head
over the cap or a closed gate occur only then, a closed gate has a pending install that opens it,
and no table has two spills in flight. -/
theorem spill_gate {man : Manifest} {segs : List Segment} {live : GoMap TableId ℤ}
    {ls : List Label}
    (hrun : StepSystem.Run (step opts) (fun _ _ => True) (opened man segs live) ls s) :
    (s.spillInFlight = true ↔ s.spilling.length = 1) ∧
      (∀ t h, s.head.lookup t = some h → opts.capBytes ≤ h.bytes → s.spillInFlight = true) ∧
      (s.blockProducer = true → s.spillInFlight = true) ∧
      (s.blockProducer = true → ∃ i e n, s.dispatches[i]? = some (e, n) ∧ e ∈ s.spilling ∧
        (∃ s', Completes opts s i s') ∧ ∀ s', Completes opts s i s' → s'.blockProducer = false) ∧
      s.spilling.Pairwise (fun e e' => e.tableId ≠ e'.tableId) ∧
      s.dispatches.Pairwise (fun x x' => x.1.tableId ≠ x'.1.tableId) := by
  have hgate : Gate opts s := gate_run hrun
  cases hgate with
  | idle h =>
    refine ⟨by simp [h.inFlight, h.spilling], fun t h' hl hover => ?_, by simp [h.gate],
      by simp [h.gate], by simp [h.spilling], by simp [h.dispatches]⟩
    have := h.under hl
    simp [overCap] at this
    omega
  | @busy e n h =>
    refine ⟨by simp [h.inFlight, h.spilling], fun _ _ _ _ => h.inFlight, fun _ => h.inFlight,
      fun _ => ⟨0, e, n, by simp [h.dispatches], by simp [h.spilling], h.exists_completes, ?_⟩,
      by simp [h.spilling], by simp [h.dispatches]⟩
    exact fun s' hc => (Gate.busy h).gate_of_completes hc

/-- Two tables outgrow the cap while the install of the first keeps failing. -/
theorem spill_gate_parked : ∃ s,
    StepSystem.Run (step (.singleBlock 40 2 (by decide) (by decide))) (fun _ _ => True)
      (opened ⟨[], [1, 2], 3, 1⟩ [] ∅)
      [.apply [⟨1, 1, [[97]]⟩], .apply [⟨2, 5, [[98]]⟩], .failInstall 0] s ∧
    s.blockProducer = true ∧ s.spilling.length = 1 := by
  refine StepSystem.Run.exists_of_exec_imp (fun s => s.blockProducer = true)
    (by decide +kernel) fun s hrun h => ?_
  have hgate := spill_gate hrun
  exact ⟨h, hgate.1.1 (hgate.2.2.1 h)⟩

end Store

end Haystack.InvertedStore
