import Haystack.InvertedStore.Refinement

/-!
# Closing a store

`CloseAndWait` releases the producer gate, waits for the spills in flight, spills the remaining
heads and lets the merge loop finish. If no write has failed, it gets there from every state: each
install relieves a head that is over the cap or leaves none.
-/

namespace Haystack.InvertedStore

/-- The steps of the worker during `CloseAndWait`: the producer gate is released, detached heads are
installed, the remaining heads are spilled and the merge loop finishes. -/
def Label.Closing : Label → Prop
  | .releaseGate | .installSpill _ _ | .spill _ => True
  | .selectTiered | .selectCovering _ _ | .installMerge => True
  | _ => False

instance : DecidablePred Label.Closing
  | .releaseGate | .installSpill _ _ | .spill _ => .isTrue trivial
  | .selectTiered | .selectCovering _ _ | .installMerge => .isTrue trivial
  | .apply _ | .failInstall _ | .giveUpSpill _ _ | .createTable | .deleteTable _ => .isFalse id

/-- Every write succeeds. -/
def Label.Succeeds : Label → Prop
  | .failInstall _ | .giveUpSpill _ _ => False
  | _ => True

instance : DecidablePred Label.Succeeds
  | .failInstall _ | .giveUpSpill _ _ => .isFalse id
  | .apply _ | .installSpill _ _ | .spill _ | .selectTiered | .selectCovering _ _ => .isTrue trivial
  | .installMerge | .createTable | .deleteTable _ | .releaseGate => .isTrue trivial

namespace Store

/-- What `CloseAndWait` waits for. -/
def Quiet (s : Store) : Prop :=
  s.AllSpilled ∧ s.dispatches.isEmpty ∧ s.plan.isNone

instance (s : Store) : Decidable s.Quiet :=
  inferInstanceAs (Decidable (_ ∧ _ ∧ _))

variable {opts : Options} {s s' : Store}

/-! ### Attempts -/

/-- No install has failed. -/
def Fresh (s : Store) : Prop :=
  ∀ x ∈ s.dispatches, x.2 = 0

lemma Fresh.detachHead (h : Fresh s) (t : TableId) : Fresh (s.detachHead t) := by
  intro x hx
  rcases List.mem_append.1 hx with hx | hx
  · exact h x hx
  · rw [List.mem_singleton.1 hx]

lemma fresh_step (h : Fresh s) (hsound : Sound opts s) {l : Label} (hok : StepOk opts s l)
    (hl : l.Succeeds) (hs : step opts s l = some s') : Fresh s' := by
  cases l with
  | apply ops =>
    refine (sound_applyBatch (fun _ => Fresh) (fun {_ s₁ op old} _ _ _ h₁ => ?_) hsound hok h hs).2
    unfold Store.applyOneOp
    obtain heq | heq | ⟨-, heq⟩ := relieve_cases opts (s₁.post op old) op.tableId <;> rw [heq]
    exacts [h₁, h₁, Fresh.detachHead (s := s₁.post op old) h₁ _]
  | installSpill i next =>
    obtain ⟨e, n, -, hcases⟩ := hsound.gate.install_cases hs
    have hended : Fresh (s.publishSpill opts e).ended := by simp [Fresh, ended]
    obtain rfl | ⟨t, x, -, -, rfl⟩ := hcases
    exacts [hended, hended.detachHead t]
  | failInstall i => exact hl.elim
  | giveUpSpill i next => exact hl.elim
  | spill t =>
    cases hs
    obtain heq | ⟨x, -, heq⟩ := spill_cases opts s t <;> rw [heq] <;> exact h
  | selectTiered =>
    obtain ⟨-, l, ids, -, rfl⟩ := selectTiered_cases hs
    exact h
  | selectCovering force dead =>
    obtain ⟨-, level, rfl⟩ := selectCovering_cases hs
    exact h
  | installMerge =>
    obtain ⟨p, res, -, -, rfl⟩ := installMerge_cases hs
    exact h
  | createTable => exact Option.some.inj hs ▸ h
  | deleteTable t => exact Option.some.inj hs ▸ h
  | releaseGate => exact Option.some.inj hs ▸ h

/-! ### Completion -/

/-- Steps of `CloseAndWait` lead to a sound store in which no install has failed and no merge is in
progress. -/
def Reaches (opts : Options) (s s' : Store) : Prop :=
  (∃ ls, StepSystem.Run (step opts) (fun s l => l.Closing ∧ StepOk opts s l) s ls s') ∧
    Sound opts s' ∧ Fresh s' ∧ s'.plan = none

lemma Reaches.snoc {s₁ s₂ : Store} (h : Reaches opts s s₁) {l : Label} (hl : l.Closing)
    (hok : StepOk opts s₁ l) (hs : step opts s₁ l = some s₂) (hplan : s₂.plan = s₁.plan) :
    Reaches opts s s₂ := by
  obtain ⟨⟨ls, hrun⟩, hsound, hfresh, hnone⟩ := h
  have hsucceeds : l.Succeeds := by cases l <;> trivial
  exact ⟨⟨_, hrun.snoc ⟨hl, hok⟩ hs⟩, (sound_step hsound hok hs).1,
    fresh_step hfresh hsound hok hsucceeds hs, hplan.trans hnone⟩

/-- The merge loop finishes the merge in progress. -/
lemma exists_reaches (h : Sound opts s) (hf : Fresh s) : ∃ s', Reaches opts s s' := by
  cases hplan : s.plan with
  | none => exact ⟨s, ⟨[], .nil⟩, h, hf, hplan⟩
  | some p =>
    have hwf : ∀ seg ∈ p.segs, seg.WF := fun seg hseg =>
      h.segs.wf seg (List.mem_of_mem_filter ((h.segs.plan p hplan).segs ▸ hseg))
    obtain ⟨res, hres⟩ : ∃ res, mergeSegments opts p.segs p.outId p.level p.covering p.liveTables =
        some res := exists_mergeSegments hwf
    have hs : step opts s .installMerge = some (s.swapMerged p.inputIds res) := by
      simp [step, installMerge, hplan, hres]
    have hok : Label.installMerge.Closing ∧ StepOk opts s .installMerge := ⟨trivial, trivial⟩
    exact ⟨_, ⟨_, .snoc .nil hok hs⟩, (sound_step h hok.2 hs).1, hf, rfl⟩

/-- The tables whose heads are over the cap. -/
def overCapTables (opts : Options) (s : Store) : Finset TableId :=
  s.head.keys.toFinset.filter fun t => (s.head.lookup t).any (overCap opts) = true

lemma mem_overCapTables {t : TableId} :
    t ∈ s.overCapTables opts ↔ ∃ h, s.head.lookup t = some h ∧ overCap opts h = true := by
  rw [overCapTables, Finset.mem_filter, List.mem_toFinset, ← AList.mem_keys, Option.any_eq_true]
  exact ⟨And.right, fun h => ⟨GoMap.mem_iff_exists_lookup.2 ⟨h.choose, h.choose_spec.1⟩, h⟩⟩

lemma overCap_new (opts : Options) : overCap opts newHeadTable = false := by
  simpa [overCap, newHeadTable] using opts.capBytes_pos.ne'

lemma overCapTables_detachHead (opts : Options) (s : Store) (t : TableId) :
    (s.detachHead t).overCapTables opts ⊆ (s.overCapTables opts).erase t := by
  intro t' ht'
  obtain ⟨x, hl, hover⟩ := mem_overCapTables.1 ht'
  rw [Store.detachHead, GoMap.lookup_insert_if] at hl
  split at hl
  case isTrue => simp [← Option.some.inj hl, overCap_new] at hover
  case isFalse hne => exact Finset.mem_erase.2 ⟨hne, mem_overCapTables.2 ⟨x, hl, hover⟩⟩

/-- The spills in flight end, one after the other. -/
lemma Reaches.drain {s₁ : Store} (h : Reaches opts s s₁) :
    ∃ s₂, Reaches opts s s₂ ∧ s₂.dispatches = [] := by
  -- every install that detaches another head leaves one head less over the cap
  induction hn : (s₁.overCapTables opts).card using Nat.strong_induction_on generalizing s₁ with
  | _ n ih =>
    obtain ⟨-, hsound, hfresh, -⟩ := id h
    cases hsound.gate with
    | idle hidle => exact ⟨s₁, h, hidle.dispatches⟩
    | @busy e k hb =>
      have hk : k = 0 := hfresh (e, k) (by simp [hb.dispatches])
      obtain ⟨next, s₂, hend⟩ := exists_endSpill opts (s₁.publishSpill opts e) 0 e
      have hs : step opts s₁ (.installSpill 0 next) = some s₂ := by
        simpa [step, Store.installSpill, hb.dispatches, hk, opts.maxInstallRetries_pos] using hend
      have hnext := fun hplan => h.snoc (l := .installSpill 0 next) trivial trivial hs hplan
      obtain ⟨e', k', -, rfl | ⟨t, x, hl, hover, rfl⟩⟩ := hsound.gate.install_cases hs
      · exact ⟨_, hnext rfl, rfl⟩
      · refine ih _ ?_ (hnext rfl) rfl
        rw [← hn]
        refine (Finset.card_le_card (overCapTables_detachHead opts _ t)).trans_lt ?_
        exact Finset.card_erase_lt_of_mem (mem_overCapTables.2 ⟨x, hl, hover⟩)

/-- A synchronous spill leaves the head of its table empty and the other heads alone. -/
lemma lookup_spill {t t' : TableId} {x : HeadTable}
    (hl : (s.spill opts t).head.lookup t' = some x) :
    x.isEmpty = true ∨ t' ≠ t ∧ s.head.lookup t' = some x := by
  by_cases ht : t' = t
  · subst ht
    refine .inl ?_
    simp only [Store.spill] at hl
    split at hl
    case isTrue hempty => simpa [hl] using hempty
    case isFalse =>
      rw [AList.lookup_insert] at hl
      exact Option.some.inj hl ▸ rfl
  · refine .inr ⟨ht, ?_⟩
    obtain heq | ⟨y, -, heq⟩ := spill_cases opts s t <;> rw [heq] at hl
    · exact hl
    · rwa [spilled, AList.lookup_insert_ne ht] at hl

/-- The heads are spilled. -/
lemma Reaches.flush {s₁ : Store} (h : Reaches opts s s₁) (hd : s₁.dispatches = [])
    (ts : List TableId) : ∃ s₂, Reaches opts s s₂ ∧ s₂.dispatches = [] ∧
      ∀ {t x}, s₂.head.lookup t = some x → x.isEmpty = true ∨ t ∉ ts ∧ s₁.head.lookup t = some x := by
  induction ts using List.reverseRecOn with
  | nil => exact ⟨s₁, h, hd, fun hl => .inr ⟨by simp, hl⟩⟩
  | append_singleton ts t ih =>
    obtain ⟨s₂, h₂, hd₂, hheads⟩ := ih
    have hord : s₂.SpillOrdered t := by
      simp [SpillOrdered, (h₂.2.1.gate.idle_of_dispatches hd₂).spilling]
    have h₃ := fun hplan => h₂.snoc (l := .spill t) trivial hord rfl hplan
    refine ⟨s₂.spill opts t, h₃ ?_, ?_, fun {t' x} hl => ?_⟩
    · obtain heq | ⟨y, -, heq⟩ := spill_cases opts s₂ t <;> rw [heq]
      rfl
    · obtain heq | ⟨y, -, heq⟩ := spill_cases opts s₂ t <;> rw [heq] <;> exact hd₂
    · obtain hempty | ⟨hne, hl⟩ := lookup_spill hl
      · exact .inl hempty
      · exact (hheads hl).imp_right fun hold => ⟨by simp [hne, hold.1], hold.2⟩

/-- `CloseAndWait` completes. -/
theorem exists_close (h : Sound opts s) (hf : Fresh s) : ∃ ls s',
    StepSystem.Run (step opts) (fun s l => l.Closing ∧ StepOk opts s l) s ls s' ∧ s'.Quiet := by
  obtain ⟨s₁, h₁⟩ := exists_reaches h hf
  obtain ⟨s₂, h₂, hd₂⟩ := h₁.drain
  obtain ⟨s₃, h₃, hd₃, hheads⟩ := h₂.flush hd₂ s₂.head.keys
  obtain ⟨⟨ls, hrun⟩, hsound, -, hplan⟩ := h₃
  have hidle := hsound.gate.idle_of_dispatches hd₃
  refine ⟨ls, s₃, hrun, ⟨hidle.spilling, fun x hx => ?_⟩, by simp [hd₃], by simp [hplan]⟩
  obtain ⟨⟨t, _⟩, he, rfl⟩ := List.mem_map.1 hx
  refine (hheads (GoMap.mem_entries_iff.1 he)).resolve_right ?_
  rintro ⟨hnot, hl⟩
  exact hnot (AList.mem_keys.1 (GoMap.mem_iff_exists_lookup.2 ⟨_, hl⟩))

end Store

end Haystack.InvertedStore
