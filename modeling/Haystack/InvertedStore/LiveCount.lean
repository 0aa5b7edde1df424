import Mathlib.Data.FinEnum
import Mathlib.Data.List.Destutter
import Haystack.InvertedStore.Preservation

/-!
# The live-pair counter

`liveByTable` is kept by differences: an operation adds the distinct keywords it posts and takes off
those the document carried. In a run whose steps keep the chains in order it is the number of live
pairs of the forward map, and `recomputeLive` finds the same number in the segments once the heads
are spilled.
-/

namespace Haystack.InvertedStore

open List

namespace Store

variable {opts : Options} {s s' : Store}

/-- The counter of a table; a Go map reads as zero where it has no entry. -/
def liveCount (s : Store) (t : TableId) : ℤ :=
  (s.liveByTable.lookup t).getD 0

/-- The number of distinct keywords in `forwardKeywords`. -/
def livePairs (s : Store) (t : TableId) (d : DocId) : ℕ :=
  distinctStrings (((s.forwardKeywords t d).map Prod.fst).getD [])

lemma distinctStrings_eq_card (ss : List Keyword) : distinctStrings ss = ss.toFinset.card :=
  (card_toFinset ss).symm

lemma Sound.livePairs_eq (h : Sound opts s) (t : TableId) (d : DocId) :
    s.livePairs t d = (s.words t d).card := by
  obtain ⟨words, del, hf, hw⟩ := h.readable.exists_forwardKeywords t d
  rw [livePairs, hf, ← hw]
  exact distinctStrings_eq_card words

/-! ### Steps -/

/-- The counter of every catalog table is the number of its live pairs. -/
def Counted (s : Store) : Prop :=
  ∀ t ∈ s.man.tables, s.liveCount t = ∑ᶠ d : DocId, ((s.words t d).card : ℤ)

lemma liveCount_applyOneOp (op : UpdateOp) (old : List Keyword) (t : TableId) :
    (s.applyOneOp opts op old).liveCount t = s.liveCount t +
      if op.tableId = t then (distinctStrings op.keywords - distinctStrings old : ℤ) else 0 := by
  obtain ⟨-, -, hlive⟩ := applyOneOp_frame opts s op old
  rw [liveCount, hlive, post, GoMap.lookup_insert_if]
  by_cases ht : op.tableId = t
  · subst ht
    simp [liveCount]
  · simp [ht, Ne.symm ht, liveCount]

/-- One summand changes, by the difference the counter changes by. -/
lemma finsum_card_update (ws : DocId → Finset Keyword) (d : DocId) (new : Finset Keyword) :
    ∑ᶠ d', (((if d = d' then new else ws d').card : ℕ) : ℤ) =
      ∑ᶠ d', ((ws d').card : ℤ) + (new.card - (ws d).card) := by
  have hdiff : ∀ d', (((if d = d' then new else ws d').card : ℕ) : ℤ) =
      (ws d').card + if d' = d then (new.card - (ws d').card : ℤ) else 0 := by
    intro d'
    by_cases h : d = d' <;> simp [h, eq_comm]
  rw [finsum_congr hdiff, finsum_add_distrib (Set.toFinite _) (Set.toFinite _)]
  congr 1
  rw [finsum_eq_single _ d fun d' hne => if_neg hne, if_pos rfl]

lemma Counted.applyOneOp (hc : Counted s) (h : Sound opts s) {op : UpdateOp} (hop : op.Valid)
    {old : List Keyword} (hold : old.toFinset = s.words op.tableId op.docid) :
    Counted (s.applyOneOp opts op old) := by
  obtain ⟨-, hman, hafter⟩ := sound_applyOneOp h hop hold
  intro t ht
  rw [hman] at ht
  simp only [liveCount_applyOneOp, hc t ht, hafter (h.tables t ht)]
  by_cases heq : op.tableId = t
  · subst heq
    simp only [true_and, if_true, finsum_card_update, distinctStrings_eq_card, hold]
  · simp [heq]

lemma Counted.of_eq (hc : Counted s) (htables : ∀ t ∈ s'.man.tables, t ∈ s.man.tables)
    (hwords : ∀ t ∈ s'.man.tables, ∀ d, s'.words t d = s.words t d)
    (hlive : ∀ t ∈ s'.man.tables, s'.liveCount t = s.liveCount t) : Counted s' := by
  intro t ht
  simp only [hlive t ht, hwords t ht]
  exact hc t (htables t ht)

/-- Installing a head touches no counter. -/
lemma liveByTable_installSpill {i : ℕ} {next : Option TableId} (h : Gate opts s)
    (hs : s.installSpill opts i next = some s') : s'.liveByTable = s.liveByTable := by
  obtain ⟨e, n, -, rfl | ⟨t, x, -, -, rfl⟩⟩ := h.install_cases hs <;> rfl

theorem counted_step (hc : Counted s) (h : Sound opts s) {l : Label} (hok : StepOk opts s l)
    (hs : step opts s l = some s') : Counted s' := by
  obtain ⟨-, htables, hwords⟩ := sound_step h hok hs
  cases l with
  | apply ops =>
    exact (sound_applyBatch (fun _ => Counted) (fun h hop hold hc => hc.applyOneOp h hop hold)
      h hok hc hs).2
  | installSpill i next =>
    exact hc.of_eq htables hwords fun _ _ => by rw [liveCount, liveByTable_installSpill h.gate hs]; rfl
  | failInstall i =>
    obtain ⟨e, n, -, -, rfl⟩ := failInstall_cases hs
    exact hc.of_eq htables hwords fun _ _ => rfl
  | giveUpSpill i next => exact hok.elim
  | spill t =>
    cases hs
    refine hc.of_eq htables hwords fun _ _ => ?_
    obtain heq | ⟨x, -, heq⟩ := spill_cases opts s t <;> rw [heq]
    rfl
  | selectTiered =>
    obtain ⟨-, l, ids, -, rfl⟩ := selectTiered_cases hs
    exact hc.of_eq htables hwords fun _ _ => rfl
  | selectCovering force dead =>
    obtain ⟨-, level, rfl⟩ := selectCovering_cases hs
    exact hc.of_eq htables hwords fun _ _ => rfl
  | installMerge =>
    obtain ⟨p, res, -, -, rfl⟩ := installMerge_cases hs
    exact hc.of_eq htables hwords fun _ _ => rfl
  | createTable => exact hok.elim
  | deleteTable t =>
    cases hs
    refine hc.of_eq htables hwords fun t' ht' => ?_
    have hne : t' ≠ t := by simpa using (mem_filter.1 ht').2
    rw [liveCount, Store.deleteTable, AList.lookup_erase_ne hne, liveCount]
  | releaseGate =>
    cases hs
    exact hc.of_eq htables hwords fun _ _ => rfl

/-! ### Recomputation -/

lemma nodup_invKeys {seg : Segment} (hwf : seg.WF) : seg.invKeys.Nodup := by
  refine Pairwise.filterMap _ (fun a b hlt k ha k' hb => ?_) hwf.sorted
  rintro rfl
  rw [Rec.key_eq_invertedKey.2 ha, Rec.key_eq_invertedKey.2 hb] at hlt
  exact lt_irrefl _ hlt

/-- Distinct ordinals are distinct words. -/
lemma length_distinctOrds {seg : Segment} (hwf : seg.WF) {t : UInt32} {d : DocId} {ords : List ℕ}
    (hr : Rec.fwd t d ords ∈ seg.recs) : (distinctOrds ords).length = (seg.words ords).card := by
  rw [distinctOrds, (hwf.ords_sorted hr).destutter_eq_dedup, ← card_toFinset]
  have hres : ∀ o ∈ ords.toFinset, ∃ w, seg.invKeys[o]? = some (t, w) := fun o ho =>
    hwf.ords_ok hr o (mem_toFinset.1 ho)
  refine Finset.card_bij (fun o ho => (hres o ho).choose) (fun o ho => ?_) (fun o ho o' ho' heq => ?_)
    fun w hw => ?_
  · exact (hwf.mem_words_iff hr).2 ⟨o, mem_toFinset.1 ho, (hres o ho).choose_spec⟩
  · have h := (hres o ho).choose_spec
    have h' := (hres o' ho').choose_spec
    rw [← heq] at h'
    exact (List.getElem?_inj (List.getElem?_eq_some_iff.1 h).1 (nodup_invKeys hwf)).1
      (h.trans h'.symm)
  · obtain ⟨o, ho, hk⟩ := (hwf.mem_words_iff hr).1 hw
    have ho' := List.mem_toFinset.2 ho
    exact ⟨o, ho', congrArg Prod.snd (Option.some.inj ((hres o ho').choose_spec.symm.trans hk))⟩

/-- `recomputeLive` counts the words of the newest records in the segments. -/
theorem lookup_recomputeLive (hwf : ∀ seg ∈ s.segs, seg.WF) {t : TableId} (ht : t ∈ s.man.tables) :
    s.recomputeLive.lookup t =
      some (∑ᶠ d : DocId, (((newestFwd s.segs (tid t) d).getD ∅).card : ℤ)) := by
  obtain ⟨hnodup, hmem⟩ := liveSegmentForward_spec hwf (tid t) ∅
  set l := liveSegmentForward (tid t) ∅ s.segs
  set ws := fun d => (newestFwd s.segs (tid t) d).getD ∅
  have hcard : ∀ x ∈ l, ((distinctOrds x.2).length : ℤ) = (ws x.1).card := by
    intro x hx
    obtain ⟨seg, hseg, hr, hfwd⟩ := newestOrds_eq_some hwf ((hmem x.1 x.2).1 hx).2
    rw [length_distinctOrds (hwf seg hseg) hr]
    simp only [ws, newestFwd, hfwd, Option.getD_some]
  have hzero : ∀ d, d ∉ (l.map Prod.fst).toFinset → ws d = ∅ := by
    intro d hd
    have hnone : newestOrds s.segs (tid t) d = none := by
      refine Option.eq_none_iff_forall_ne_some.2 fun ords ho => hd ?_
      exact mem_toFinset.2 (mem_map.2 ⟨(d, ords), (hmem d ords).2 ⟨by simp, ho⟩, rfl⟩)
    simp only [ws, newestFwd, newestOrds_eq_none.1 hnone, Option.getD_none]
  rw [Store.recomputeLive, GoMap.lookup_foldl_insert _ _ ht, map_congr_left hcard]
  congr 1
  calc (l.map fun x => ((ws x.1).card : ℤ)).sum
      = ((l.map Prod.fst).map fun d => ((ws d).card : ℤ)).sum := by rw [map_map]; rfl
    _ = ∑ d ∈ (l.map Prod.fst).toFinset, ((ws d).card : ℤ) := by rw [sum_toFinset _ hnodup]
    _ = ∑ᶠ d : DocId, ((ws d).card : ℤ) := by
        refine (finsum_eq_sum_of_support_subset _ fun d hd => ?_).symm
        by_contra hnot
        exact hd (by simp [hzero d hnot])

/-- Without heads the words of a document are those of its newest record in the segments. -/
lemma AllSpilled.words_eq (hsp : s.AllSpilled) (t : TableId) (d : DocId) :
    s.words t d = (newestFwd s.segs (tid t) d).getD ∅ := by
  rw [words, hsp.chain_eq, newestFwd_eq]
  cases segChain s.segs (tid t) d <;> rfl

theorem AllSpilled.recomputeLive (hsp : s.AllSpilled) (h : Sound opts s) {t : TableId}
    (ht : t ∈ s.man.tables) :
    (s.recomputeLive.lookup t).getD 0 = ∑ᶠ d : DocId, ((s.words t d).card : ℤ) := by
  rw [lookup_recomputeLive h.segs.wf ht, Option.getD_some]
  simp only [hsp.words_eq]

/-! ### Runs -/

section Run

variable {tables : List TableId} {next : TableId} {ls : List Label}

/-- In a run whose steps keep the chains in order the counter of a catalog table is the number of
its live pairs, and `recomputeLive` agrees once all heads are spilled. -/
theorem liveByTable_run (htables : ∀ t ∈ tables, Fits t)
    (hrun : StepSystem.Run (step opts) (StepOk opts) (empty tables next) ls s) {t : TableId}
    (ht : t ∈ s.man.tables) :
    s.liveCount t = ∑ᶠ d : DocId, (s.livePairs t d : ℤ) ∧
      (s.AllSpilled → (s.recomputeLive.lookup t).getD 0 = s.liveCount t) := by
  have hinv : Sound opts s ∧ Counted s := by
    refine hrun.invariant (I := fun _ s => Sound opts s ∧ Counted s)
      ⟨sound_empty htables next, fun t _ => ?_⟩ fun ⟨h, hc⟩ hok hs =>
        ⟨(sound_step h hok hs).1, counted_step hc h hok hs⟩
    exact (finsum_eq_zero_of_forall_eq_zero fun _ => rfl).symm
  obtain ⟨hsound, hc⟩ := hinv
  simp only [hsound.livePairs_eq]
  exact ⟨hc t ht, fun hsp => (hsp.recomputeLive hsound ht).trans (hc t ht).symm⟩

end Run

/-- Keywords repeated in an operation, a document posted twice in a batch, a delete of an unknown
document, a covering merge and a dropped table. -/
def countedRun : List Label :=
  [.apply [⟨1, 1, [[97], [98], [97]]⟩, ⟨1, 1, [[98], [99]]⟩, ⟨1, 2, []⟩, ⟨2, 1, [[97]]⟩], .spill 1,
    .spill 2, .deleteTable 2, .selectCovering true false, .apply [⟨1, 3, [[97]]⟩], .installMerge,
    .spill 1]

theorem liveByTable_run_counted : ∃ s,
    StepSystem.Run (step (.singleBlock 1000 2 (by decide) (by decide)))
      (StepOk (.singleBlock 1000 2 (by decide) (by decide))) (empty [1, 2] 3) countedRun s ∧
    s.liveCount 1 = 3 ∧ ∑ᶠ d : DocId, (s.livePairs 1 d : ℤ) = 3 ∧
      (s.recomputeLive.lookup 1).getD 0 = 3 := by
  refine StepSystem.Run.exists_of_exec_imp (fun s => 1 ∈ s.man.tables ∧ s.AllSpilled ∧
    s.liveCount 1 = 3) (by decide +kernel) fun s hrun h => ?_
  obtain ⟨ht, hsp, hlive⟩ := h
  obtain ⟨hsum, hrecompute⟩ := liveByTable_run (by decide) hrun ht
  exact ⟨hlive, hsum.symm.trans hlive, (hrecompute hsp).trans hlive⟩

end Store

lemma sum_le_finsum {α : Type*} [Finite α] (f : α → ℕ) (D : Finset α) :
    ∑ d ∈ D, (f d : ℤ) ≤ ∑ᶠ d, (f d : ℤ) := by
  cases nonempty_fintype α
  rw [finsum_eq_sum_of_fintype]
  exact Finset.sum_le_univ_sum_of_nonneg fun d => Int.natCast_nonneg (f d)

/-- The second operation on document 1 is spilled as segment 1 while the detached head with the
first one is being encoded, which then becomes segment 2. -/
def overtakenRun : List Label :=
  [.apply [⟨1, 2, [[102], [103], [104], [105]]⟩, ⟨1, 1, [[97], [98]]⟩], .apply [⟨1, 1, [[99]]⟩],
    .spill 1, .installSpill 0 none]

theorem liveByTable_overtaken : ∃ s,
    StepSystem.Run (step (.singleBlock 200 2 (by decide) (by decide))) (fun _ l => l.Plain)
      (Store.empty [1] 2) overtakenRun s ∧
    1 ∈ s.man.tables ∧ s.AllSpilled ∧ s.liveCount 1 ≠ ∑ᶠ d : DocId, (s.livePairs 1 d : ℤ) ∧
      (s.recomputeLive.lookup 1).getD 0 ≠ s.liveCount 1 := by
  refine StepSystem.Run.exists_of_exec_imp (fun s => 1 ∈ s.man.tables ∧ s.AllSpilled ∧
    s.liveCount 1 = 5 ∧ s.livePairs 1 1 = 2 ∧ s.livePairs 1 2 = 4 ∧
    (s.recomputeLive.lookup 1).getD 0 = 6) (by decide +kernel) fun s _ h => ?_
  obtain ⟨ht, hsp, hlive, h₁, h₂, hrecompute⟩ := h
  have hsum := sum_le_finsum (s.livePairs 1) {1, 2}
  rw [Finset.sum_pair (by decide), h₁, h₂] at hsum
  exact ⟨ht, hsp, by omega, by omega⟩

end Haystack.InvertedStore
