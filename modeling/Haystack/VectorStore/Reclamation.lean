import Haystack.VectorStore.MergePolicy

/-!
# Reclamation comes to an end

A merge gives way to graph builds of its outputs, and a finished build starts a reclamation round,
which may start merges. Without writes this stops. A merge whose inputs are all there either drops
rows or makes one segment out of several. A merge may also be installed when one of its inputs is
gone, if a late build has entered a graph for it; this uses up such a graph, and there are only as
many as there were builds to begin with.
-/

namespace Haystack.VectorStore

open List StepSystem

variable {ρ : Type} {p : MergePlan ρ} {docToSeg : GoMap DocId SegId}

def tombTotal (sealed : List (Sealed ρ)) : ℕ := (sealed.map Sealed.tombCount).sum

def rowTotal (sealed : List (Sealed ρ)) : ℕ := (sealed.map Sealed.count).sum

/-- A document with a live row in a segment is routed to it and has no other live row there. -/
structure Routed (sealed : List (Sealed ρ)) (docToSeg : GoMap DocId SegId) : Prop where
  owner : ∀ ss ∈ sealed, ∀ r ∈ ss.live, docToSeg.lookup r.1 = some ss.id
  nodup : ∀ ss ∈ sealed, (ss.live.map Prod.fst).Nodup

/-- The segments and the routing after the swap of a merge. -/
def MergePlan.install (p : MergePlan ρ) (st : List (Sealed ρ) × GoMap DocId SegId) :
    List (Sealed ρ) × GoMap DocId SegId :=
  (p.swapSealed st.2 st.1, p.rehome st.2)

def installAll (qs : List (MergePlan ρ)) (st : List (Sealed ρ) × GoMap DocId SegId) :
    List (Sealed ρ) × GoMap DocId SegId :=
  qs.foldl (fun st q => q.install st) st

/-! ### The plans of a round -/

namespace Reclaims

variable {sealed : List (Sealed ρ)} {docToSeg : GoMap DocId SegId} {p q : MergePlan ρ}
  {segs : List (Sealed ρ)}

/-- The rows of the outputs are the live rows of the inputs. -/
lemma mem_flatten (h : Reclaims sealed p segs) {r : DocId × ρ} :
    r ∈ p.buckets.flatten ↔ ∃ ss ∈ sealed, ss.id ∈ p.inputs ∧ r ∈ ss.live := by
  rw [h.flatten, mem_flatMap]
  simp only [h.perm.mem_iff, mem_filter, decide_eq_true_eq, and_assoc]

/-- No document is in two rows of the outputs. -/
lemma nodup_docs (h : Reclaims sealed p segs) (hrouted : Routed sealed docToSeg) :
    (p.buckets.flatten.map Prod.fst).Nodup := by
  have hmem : ∀ ss ∈ segs, ss ∈ sealed := fun ss hss =>
    (mem_filter.1 (h.perm.mem_iff.1 hss)).1
  rw [h.flatten, map_flatMap, nodup_flatMap]
  refine ⟨fun ss hss => hrouted.nodup ss (hmem ss hss), ?_⟩
  have hids : segs.Pairwise fun a b => a.id ≠ b.id := pairwise_map.1 (h.map_id ▸ h.nodup)
  refine hids.imp_of_mem fun {a b} ha hb hne doc hdoc hdoc' => ?_
  obtain ⟨r, hr, rfl⟩ := mem_map.1 hdoc
  obtain ⟨r', hr', heq⟩ := mem_map.1 hdoc'
  have hb := hrouted.owner b (hmem b hb) r' hr'
  rw [heq, hrouted.owner a (hmem a ha) r hr] at hb
  exact hne (Option.some.inj hb)

lemma owned (h : Reclaims sealed p segs) (hrouted : Routed sealed docToSeg) :
    ∀ r ∈ p.buckets.flatten, p.Owned docToSeg r.1 := by
  intro r hr
  obtain ⟨ss, hss, hid, hr⟩ := h.mem_flatten.1 hr
  exact ⟨ss.id, hid, hrouted.owner ss hss r hr⟩

lemma sum_inputs (h : Reclaims sealed p segs) (f : Sealed ρ → ℕ) :
    ((sealed.filter fun ss => ss.id ∈ p.inputs).map f).sum = (segs.map f).sum :=
  ((h.perm.map f).sum_eq).symm

lemma length_inputs (h : Reclaims sealed p segs) :
    (sealed.filter fun ss => ss.id ∈ p.inputs).length = p.inputs.length := by
  rw [← h.perm.length_eq, ← h.map_id, length_map]

/-- An installation takes away tombstones, or segments. -/
lemma lt_of_owned (h : Reclaims sealed p segs)
    (howned : ∀ r ∈ p.buckets.flatten, p.Owned docToSeg r.1) :
    toLex (tombTotal (p.swapSealed docToSeg sealed), (p.swapSealed docToSeg sealed).length) <
      toLex (tombTotal sealed, sealed.length) := by
  have htombs := p.sum_map_swapSealed docToSeg sealed Sealed.tombCount
  have hsegs := p.length_swapSealed docToSeg sealed
  rw [MergePlan.sum_tombCount_outputs howned, h.sum_inputs] at htombs
  rw [MergePlan.length_outputs h.length_outIDs, h.length_inputs] at hsegs
  rw [Prod.Lex.toLex_lt_toLex', tombTotal, tombTotal]
  dsimp only
  refine ⟨by omega, fun heq => ?_⟩
  rcases h.progress with ⟨ss, hss, hpos⟩ | hgrowth
  · have := single_le_sum (by simp) _ (mem_map_of_mem (f := Sealed.tombCount) hss)
    omega
  · omega

/-- The installation of a plan with other inputs. -/
lemma swapSealed (h : Reclaims sealed p segs) (hin : q.inputs.Disjoint p.inputs)
    (hlen : q.outIDs.length = q.buckets.length) (hout : q.outIDs.Disjoint p.inputs) :
    Reclaims (q.swapSealed docToSeg sealed) p segs :=
  { h with perm := h.perm.trans (Perm.of_eq (q.filter_swapSealed hin hlen hout).symm) }

end Reclaims

/-- A document of one plan is not moved by another plan. -/
lemma MergePlan.Owned.rehome {p q : MergePlan ρ} {doc : DocId} (h : p.Owned docToSeg doc)
    (hin : q.inputs.Disjoint p.inputs) : p.Owned (q.rehome docToSeg) doc := by
  obtain ⟨id, hid, hlookup⟩ := h
  refine ⟨id, hid, ?_⟩
  rw [MergePlan.lookup_rehome, hlookup]
  rintro ⟨id', hid', hlookup'⟩
  rw [hlookup] at hlookup'
  exact hin hid' (Option.some.inj hlookup' ▸ hid)

/-- The plans of a round can be installed in any order, and each installation takes away tombstones
or segments. -/
lemma installAll_lt {qs : List (MergePlan ρ)} {segs : List (Sealed ρ)}
    {st : List (Sealed ρ) × GoMap DocId SegId} (h : Reclaims st.1 p segs)
    (howned : ∀ r ∈ p.buckets.flatten, p.Owned st.2 r.1)
    (hqs : ∀ q ∈ qs, q.inputs.Disjoint p.inputs ∧ q.outIDs.length = q.buckets.length ∧
      q.outIDs.Disjoint p.inputs) :
    toLex (tombTotal (p.install (installAll qs st)).1, (p.install (installAll qs st)).1.length) <
      toLex (tombTotal (installAll qs st).1, (installAll qs st).1.length) := by
  induction qs generalizing st with
  | nil => exact h.lt_of_owned howned
  | cons q qs ih =>
    obtain ⟨hin, hlen, hout⟩ := hqs q mem_cons_self
    exact ih (h.swapSealed hin hlen hout)
      (fun r hr => (howned r hr).rehome hin) fun q' hq' => hqs q' (mem_cons_of_mem _ hq')

/-- What a merge in flight promises: if its inputs are still there, it drops rows or segments. -/
structure MergePlan.Promises (p : MergePlan ρ) (sealed : List (Sealed ρ)) : Prop where
  nodup : p.inputs.Nodup
  length_outIDs : p.outIDs.length = p.buckets.length
  shrinks : p.inputs ⊆ sealed.map Sealed.id →
    p.buckets.flatten.length ≤ rowTotal (sealed.filter fun ss => ss.id ∈ p.inputs) ∧
      (p.buckets.flatten.length < rowTotal (sealed.filter fun ss => ss.id ∈ p.inputs) ∨
        p.buckets.length < p.inputs.length)

lemma Reclaims.promises {sealed : List (Sealed ρ)} {segs : List (Sealed ρ)}
    (h : Reclaims sealed p segs) : p.Promises sealed := by
  refine ⟨h.nodup, h.length_outIDs, fun _ => ?_⟩
  have hrows : p.buckets.flatten.length + tombTotal segs = rowTotal segs := by
    rw [h.flatten]
    clear h
    induction segs with
    | nil => rfl
    | cons ss segs ih =>
      have := ss.length_live_add_tombCount
      simp only [tombTotal, rowTotal, flatMap_cons, length_append, map_cons,
        sum_cons] at ih ⊢
      omega
  rw [rowTotal, h.sum_inputs, ← rowTotal]
  refine ⟨by omega, ?_⟩
  rcases h.progress with ⟨ss, hss, hpos⟩ | hgrowth
  · have := single_le_sum (by simp) _ (mem_map_of_mem (f := Sealed.tombCount) hss)
    rw [← tombTotal] at this
    omega
  · omega

/-- A promise is not broken by the installation of another plan. -/
lemma MergePlan.Promises.swapSealed {sealed : List (Sealed ρ)} {p q : MergePlan ρ}
    (h : p.Promises sealed) (hlen : q.outIDs.length = q.buckets.length)
    (hout : q.outIDs.Disjoint p.inputs) : p.Promises (q.swapSealed docToSeg sealed) := by
  refine { h with shrinks := fun hpresent => ?_ }
  have hkept : ∀ id ∈ p.inputs, id ∉ q.inputs ∧ id ∈ sealed.map Sealed.id := by
    intro id hid
    rw [MergePlan.swapSealed, map_append, map_id_outputs hlen] at hpresent
    rcases mem_append.1 (hpresent hid) with hmem | hmem
    · obtain ⟨ss, hss, rfl⟩ := mem_map.1 hmem
      obtain ⟨hss, hin⟩ := mem_filter.1 hss
      exact ⟨by simpa using hin, mem_map_of_mem hss⟩
    · exact absurd hid (hout hmem)
  rw [q.filter_swapSealed (fun id hq hp => (hkept id hp).1 hq) hlen hout]
  exact h.shrinks fun id hid => (hkept id hid).2

/-! ### Builds and merges in the background -/

/-- The segments with the builds and merges in flight. `graphs` are the installed graphs. -/
structure Background (ρ : Type) where
  sealed : List (Sealed ρ)
  docToSeg : GoMap DocId SegId
  nextSeg : ℕ
  closing : Bool
  indexes : List IndexName
  graphs : List (IndexName × SegId)
  builds : List (IndexName × SegId)
  merges : List (MergePlan ρ)

namespace Background

variable (cfg : MergeConfig) (readable : ρ → Bool) (s : Background ρ)

def ids : List SegId := s.sealed.map Sealed.id

/-- `fullyIndexedLocked` -/
def fullyIndexed (id : SegId) : Bool :=
  s.indexes.all fun n => (n, id) ∈ s.graphs

/-- The plans of a round in this state. -/
def plans : List (MergePlan ρ) :=
  planReclamation cfg s.sealed s.fullyIndexed readable s.nextSeg

/-- `maybeMergeLocked` -/
def maybeMerge : Background ρ :=
  if s.closing then s
  else
    let plans := s.plans cfg readable
    { s with
      nextSeg := s.nextSeg + (plans.map fun p => p.outIDs.length).sum
      merges := s.merges ++ plans }

def installGraph (b : IndexName × SegId) : Background ρ :=
  { s with graphs := if b ∈ s.graphs then s.graphs else s.graphs ++ [b] }

/-- The builds for the outputs of a merge; there are none if its commit fails. -/
def outBuilds (p : MergePlan ρ) (committed : Bool) : List (IndexName × SegId) :=
  if committed then p.outIDs.flatMap fun id => s.indexes.map fun n => (n, id) else []

/-- The swap of `mergeAndPublish`. -/
def swap (p : MergePlan ρ) (committed : Bool) : Background ρ :=
  { s with
    sealed := p.swapSealed s.docToSeg s.sealed
    docToSeg := p.rehome s.docToSeg
    graphs := s.graphs.filter fun g => g.2 ∉ p.inputs
    builds := s.builds ++ s.outBuilds p committed }

/-- What a goroutine in flight does last. -/
inductive Event
  /-- `buildAndPublish`, with a graph or without. -/
  | build (i : ℕ) (built : Bool)
  /-- `mergeAndPublish`, with the outputs written or not. -/
  | merge (j : ℕ) (written committed : Bool)

def step (s : Background ρ) : Event → Option (Background ρ)
  | .build i built => do
    let b ← s.builds[i]?
    let s := { s with builds := s.builds.eraseIdx i }
    if built ∧ b.1 ∈ s.indexes then some ((s.installGraph b).maybeMerge cfg readable) else some s
  | .merge j written committed => do
    let p ← s.merges[j]?
    let s := { s with merges := s.merges.eraseIdx j }
    if written ∧ ∀ id ∈ p.inputs, s.fullyIndexed id then some (s.swap p committed) else some s

/-! ### States -/

/-- The states between steps: ids are not used twice. -/
structure Valid : Prop where
  nodup_ids : s.ids.Nodup
  nodup_indexes : s.indexes.Nodup
  indexes_ne : s.indexes ≠ []
  ids_lt : ∀ id ∈ s.ids, id < s.nextSeg
  promises : ∀ p ∈ s.merges, p.Promises s.sealed
  inputs_lt : ∀ p ∈ s.merges, ∀ id ∈ p.inputs, id < s.nextSeg
  outs : OutsBetween 0 s.nextSeg s.merges
  fresh : ∀ p ∈ s.merges, p.outIDs.Disjoint s.ids ∧ ∀ q ∈ s.merges, p.outIDs.Disjoint q.inputs

variable {cfg readable s}

lemma OutsBetween.sublist {lo hi : ℕ} {plans plans' : List (MergePlan ρ)}
    (h : OutsBetween lo hi plans) (hsub : plans'.Sublist plans) : OutsBetween lo hi plans' :=
  ⟨fun p hp => h.1 p (hsub.subset hp), h.2.sublist hsub⟩

lemma Valid.withMerges {merges : List (MergePlan ρ)} (h : s.Valid)
    (hsub : merges.Sublist s.merges) : Valid { s with merges } where
  nodup_ids := h.nodup_ids
  nodup_indexes := h.nodup_indexes
  indexes_ne := h.indexes_ne
  ids_lt := h.ids_lt
  promises p hp := h.promises p (hsub.subset hp)
  inputs_lt p hp := h.inputs_lt p (hsub.subset hp)
  outs := OutsBetween.sublist h.outs hsub
  fresh p hp := ⟨(h.fresh p (hsub.subset hp)).1, fun q hq =>
    (h.fresh p (hsub.subset hp)).2 q (hsub.subset hq)⟩

lemma Valid.withGraphs {graphs builds : List (IndexName × SegId)} (h : s.Valid) :
    Valid { s with graphs, builds } :=
  ⟨h.nodup_ids, h.nodup_indexes, h.indexes_ne, h.ids_lt, h.promises, h.inputs_lt, h.outs, h.fresh⟩

lemma mem_ids_of_mem_plans (h : s.Valid) (hp : p ∈ s.plans cfg readable) : p.inputs ⊆ s.ids := by
  obtain ⟨segs, hsegs⟩ := reclaims_of_mem_planReclamation h.nodup_ids hp
  intro id hid
  rw [← hsegs.map_id] at hid
  obtain ⟨ss, hss, rfl⟩ := mem_map.1 hid
  exact mem_map_of_mem (mem_filter.1 (hsegs.perm.mem_iff.1 hss)).1

/-- A round plans merges with new ids. -/
lemma Valid.maybeMerge (h : s.Valid) : (s.maybeMerge cfg readable).Valid := by
  unfold Background.maybeMerge
  split
  · exact h
  have houts : OutsBetween s.nextSeg (s.nextSeg + ((s.plans cfg readable).map fun p =>
      p.outIDs.length).sum) (s.plans cfg readable) := outs_planReclamation s.nextSeg
  have hinputs : ∀ p ∈ s.plans cfg readable, p.inputs ⊆ s.ids := fun p hp =>
    mem_ids_of_mem_plans h hp
  dsimp only
  generalize hnext : s.nextSeg + _ = next at houts
  have hle : s.nextSeg ≤ next := hnext ▸ Nat.le_add_right _ _
  refine ⟨h.nodup_ids, h.nodup_indexes, h.indexes_ne, fun id hid => (h.ids_lt id hid).trans_le hle,
    ?_, ?_, ⟨?_, ?_⟩, ?_⟩
  · intro p hp
    rcases mem_append.1 hp with hp | hp
    · exact h.promises p hp
    · obtain ⟨segs, hsegs⟩ := reclaims_of_mem_planReclamation h.nodup_ids hp
      exact hsegs.promises
  · intro p hp id hid
    rcases mem_append.1 hp with hp | hp
    · exact (h.inputs_lt p hp id hid).trans_le hle
    · exact (h.ids_lt id (hinputs p hp hid)).trans_le hle
  · intro p hp
    rcases mem_append.1 hp with hp | hp
    · exact ⟨(h.outs.1 p hp).1, fun id hid =>
        ⟨Nat.zero_le _, ((h.outs.1 p hp).2 id hid).2.trans_le hle⟩⟩
    · exact ⟨(houts.1 p hp).1, fun id hid => ⟨Nat.zero_le _, ((houts.1 p hp).2 id hid).2⟩⟩
  · refine pairwise_append.2 ⟨h.outs.2, houts.2, fun p hp q hq id hid hid' => ?_⟩
    exact absurd ((h.outs.1 p hp).2 id hid).2 (not_lt.2 ((houts.1 q hq).2 id hid').1)
  · -- the new outputs come after every id in use, and the new inputs are segments
    intro p hp
    rcases mem_append.1 hp with hp | hp
    · refine ⟨(h.fresh p hp).1, fun q hq => ?_⟩
      rcases mem_append.1 hq with hq | hq
      · exact (h.fresh p hp).2 q hq
      · exact fun id hid hid' => (h.fresh p hp).1 hid (hinputs q hq hid')
    · have hnew : ∀ id ∈ p.outIDs, ¬ id < s.nextSeg := fun id hid =>
        not_lt.2 ((houts.1 p hp).2 id hid).1
      refine ⟨fun id hid hid' => hnew id hid (h.ids_lt id hid'), fun q hq id hid hid' => ?_⟩
      rcases mem_append.1 hq with hq | hq
      · exact hnew id hid (h.inputs_lt q hq id hid')
      · exact hnew id hid (h.ids_lt id (hinputs q hq hid'))

/-- The state of a merge taken out of those in flight. -/
structure Taken (s : Background ρ) (p : MergePlan ρ) : Prop where
  promises : p.Promises s.sealed
  outs : p.outIDs.Nodup ∧ ∀ id ∈ p.outIDs, id < s.nextSeg
  fresh : p.outIDs.Disjoint s.ids
  others : ∀ q ∈ s.merges, p.outIDs.Disjoint q.inputs ∧ q.outIDs.Disjoint p.outIDs

lemma Valid.taken (h : s.Valid) {j : ℕ} (hp : s.merges[j]? = some p) :
    Taken { s with merges := s.merges.eraseIdx j } p := by
  have hmem := mem_of_getElem? hp
  refine ⟨h.promises p hmem, ⟨(h.outs.1 p hmem).1, fun id hid => ((h.outs.1 p hmem).2 id hid).2⟩,
    (h.fresh p hmem).1, fun q hq => ⟨(h.fresh p hmem).2 q (List.mem_of_mem_eraseIdx hq), ?_⟩⟩
  have hothers := (perm_cons_eraseIdx hp).pairwise h.outs.2 List.Disjoint.symm
  exact ((pairwise_cons.1 hothers).1 q hq).symm

lemma ids_swap (hlen : p.outIDs.length = p.buckets.length) (committed : Bool) :
    (s.swap p committed).ids = (s.ids.filter fun id => id ∉ p.inputs) ++ p.outIDs := by
  rw [ids, swap]
  dsimp only
  rw [MergePlan.swapSealed, map_append, MergePlan.map_id_outputs hlen, ids, filter_map]
  rfl

lemma Valid.swap (h : s.Valid) (hp : s.Taken p) (committed : Bool) :
    (s.swap p committed).Valid := by
  have hlen := hp.promises.length_outIDs
  have hids := ids_swap (s := s) hlen committed
  have hkept : ∀ id ∈ s.ids.filter fun id => id ∉ p.inputs, id ∈ s.ids := fun id hid =>
    (mem_filter.1 hid).1
  refine ⟨?_, h.nodup_indexes, h.indexes_ne, ?_, ?_, h.inputs_lt, h.outs, ?_⟩
  · rw [hids]
    exact (h.nodup_ids.filter _).append hp.outs.1 fun id hid hid' => hp.fresh hid' (hkept id hid)
  · rw [hids]
    intro id hid
    rcases mem_append.1 hid with hid | hid
    · exact h.ids_lt id (hkept id hid)
    · exact hp.outs.2 id hid
  · exact fun q hq => (h.promises q hq).swapSealed hlen (hp.others q hq).1
  · intro q hq
    refine ⟨?_, (h.fresh q hq).2⟩
    rw [hids, disjoint_append_right]
    exact ⟨fun id hid hid' => (h.fresh q hq).1 hid (hkept id hid'), (hp.others q hq).2⟩

/-! ### What decreases -/

/-- The pairs of an index and a segment that have a graph or a build. -/
def covered (s : Background ρ) : Finset (IndexName × SegId) :=
  (s.indexes.toFinset ×ˢ s.ids.toFinset) ∩ (s.builds ++ s.graphs).toFinset

lemma mem_covered {x : IndexName × SegId} :
    x ∈ s.covered ↔ (x.1 ∈ s.indexes ∧ x.2 ∈ s.ids) ∧ x ∈ s.builds ++ s.graphs := by
  simp only [covered, Finset.mem_inter, Finset.mem_product, mem_toFinset]

/-- The graphs and builds beyond one for each index and segment. -/
def surplus (s : Background ρ) : ℕ := (s.builds ++ s.graphs).length - s.covered.card

lemma surplus_add_card (s : Background ρ) :
    s.surplus + s.covered.card = (s.builds ++ s.graphs).length := by
  refine Nat.sub_add_cancel (le_trans ?_ (toFinset_card_le _))
  exact Finset.card_le_card Finset.inter_subset_right

/-- A build that ends without a graph. -/
lemma surplus_eraseIdx_le {i : ℕ} {b : IndexName × SegId} (hb : s.builds[i]? = some b) :
    surplus { s with builds := s.builds.eraseIdx i } ≤ s.surplus := by
  have hperm : (s.builds ++ s.graphs).Perm (b :: (s.builds.eraseIdx i ++ s.graphs)) :=
    (perm_cons_eraseIdx hb).append_right _
  have hold := s.surplus_add_card
  have hnew := surplus_add_card { s with builds := s.builds.eraseIdx i }
  have hcard : s.covered.card ≤ (covered { s with builds := s.builds.eraseIdx i }).card + 1 := by
    refine le_trans (Finset.card_le_card fun x hx => ?_) (Finset.card_insert_le b _)
    rw [mem_covered, hperm.mem_iff, mem_cons] at hx
    rw [Finset.mem_insert, mem_covered]
    exact hx.2.imp_right fun hmem => ⟨hx.1, hmem⟩
  rw [hperm.length_eq, length_cons] at hold
  dsimp only at hnew
  omega

/-- A build that ends with a graph. -/
lemma surplus_installGraph_le {i : ℕ} {b : IndexName × SegId} (hb : s.builds[i]? = some b) :
    (installGraph { s with builds := s.builds.eraseIdx i } b).surplus ≤ s.surplus := by
  have hperm : (s.builds ++ s.graphs).Perm (b :: (s.builds.eraseIdx i ++ s.graphs)) :=
    (perm_cons_eraseIdx hb).append_right _
  have hold := s.surplus_add_card
  generalize hs' : installGraph { s with builds := s.builds.eraseIdx i } b = s'
  have hnew := s'.surplus_add_card
  have hcovered : s'.covered = s.covered := by
    rw [covered, covered, toFinset_eq_of_perm _ _ hperm, ← hs']
    congr 1
    ext x
    by_cases hmem : b ∈ s.graphs <;> simp [installGraph, hmem]
  have hlen : (s'.builds ++ s'.graphs).length ≤ (s.builds ++ s.graphs).length := by
    rw [hperm.length_eq, ← hs', installGraph]
    dsimp only
    split
    · simp
    · simp [add_assoc]
  rw [hcovered] at hnew
  omega

lemma mem_outBuilds {committed : Bool} {x : IndexName × SegId} (hx : x ∈ s.outBuilds p committed) :
    x.1 ∈ s.indexes ∧ x.2 ∈ p.outIDs := by
  unfold outBuilds at hx
  split at hx
  · obtain ⟨id, hid, hx⟩ := mem_flatMap.1 hx
    obtain ⟨n, hn, rfl⟩ := mem_map.1 hx
    exact ⟨hn, hid⟩
  · cases hx

lemma nodup_outBuilds {committed : Bool} (hindexes : s.indexes.Nodup) (houts : p.outIDs.Nodup) :
    (s.outBuilds p committed).Nodup := by
  unfold outBuilds
  split
  · refine nodup_flatMap.2 ⟨fun id _ => hindexes.map fun a b hab => (Prod.mk.inj hab).1, ?_⟩
    refine houts.imp fun {a b} hne x hx hx' => ?_
    obtain ⟨n, -, rfl⟩ := mem_map.1 hx
    obtain ⟨n', -, heq⟩ := mem_map.1 hx'
    exact hne (Prod.mk.inj heq).2.symm
  · exact nodup_nil

/-- The swap of a merge keeps the surplus, apart from the graphs of inputs that are gone. -/
lemma surplus_swap_add_le (h : s.Valid) (hp : s.Taken p)
    (hindexed : ∀ id ∈ p.inputs, s.fullyIndexed id) (committed : Bool) :
    (s.swap p committed).surplus + s.indexes.length * (p.inputs.toFinset \ s.ids.toFinset).card ≤
      s.surplus := by
  have hold := s.surplus_add_card
  have hnew := (s.swap p committed).surplus_add_card
  have hids := ids_swap (s := s) hp.promises.length_outIDs committed
  have hN : s.indexes.toFinset.card = s.indexes.length :=
    toFinset_card_of_nodup h.nodup_indexes
  set N := s.indexes.toFinset
  set I := s.ids.toFinset
  set In := p.inputs.toFinset
  -- the pairs of the segments that stay
  set K := (N ×ˢ (I \ In)) ∩ (s.builds ++ s.graphs).toFinset
  have hgone : s.indexes.length * In.card ≤ (s.graphs.filter fun g => g.2 ∈ p.inputs).length := by
    rw [← hN, ← Finset.card_product]
    refine le_trans (Finset.card_le_card fun x hx => ?_) (toFinset_card_le _)
    obtain ⟨hn, hid⟩ := Finset.mem_product.1 hx
    have hall := all_eq_true.1 (hindexed x.2 (mem_toFinset.1 hid)) x.1
      (mem_toFinset.1 hn)
    exact mem_toFinset.2 (mem_filter.2
      ⟨by simpa using hall, by simpa using mem_toFinset.1 hid⟩)
  have hcovered : s.covered.card ≤ K.card + s.indexes.length * (I ∩ In).card := by
    rw [← hN, ← Finset.card_product]
    refine le_trans (Finset.card_le_card fun x hx => ?_) (Finset.card_union_le _ _)
    rw [mem_covered, ← mem_toFinset, ← mem_toFinset, ← mem_toFinset] at hx
    simp only [K, Finset.mem_union, Finset.mem_inter, Finset.mem_product, Finset.mem_sdiff]
    tauto
  have hsplit : In.card = (I ∩ In).card + (In \ I).card := by
    rw [Finset.inter_comm, Finset.card_inter_add_card_sdiff]
  have hgraphs : s.graphs.length = (s.graphs.filter fun g => g.2 ∈ p.inputs).length +
      (s.graphs.filter fun g => g.2 ∉ p.inputs).length := by
    simpa [countP_eq_length_filter] using
      length_eq_countP_add_countP (fun g : IndexName × SegId => g.2 ∈ p.inputs)
  -- what stays is still covered, and so are the outputs that are built
  have hstays : K ⊆ (s.swap p committed).covered := by
    intro x hx
    simp only [K, N, I, In, Finset.mem_inter, Finset.mem_product, Finset.mem_sdiff,
      mem_toFinset] at hx
    obtain ⟨⟨hn, hid, hin⟩, hP⟩ := hx
    refine mem_covered.2 ⟨⟨hn, ?_⟩, ?_⟩
    · rw [hids]
      exact mem_append_left _ (mem_filter.2 ⟨hid, by simpa using hin⟩)
    · rcases mem_append.1 hP with hP | hP
      · exact mem_append_left _ (mem_append_left _ hP)
      · exact mem_append_right _ (mem_filter.2 ⟨hP, by simpa using hin⟩)
  have hbuilt : (s.outBuilds p committed).toFinset ⊆ (s.swap p committed).covered := by
    intro x hx
    rw [mem_toFinset] at hx
    obtain ⟨hn, hid⟩ := mem_outBuilds hx
    refine mem_covered.2 ⟨⟨hn, ?_⟩, mem_append_left _ (mem_append_right _ hx)⟩
    rw [hids]
    exact mem_append_right _ hid
  have hdisjoint : Disjoint K (s.outBuilds p committed).toFinset := by
    refine Finset.disjoint_left.2 fun x hx hx' => ?_
    have hid := (Finset.mem_product.1 (Finset.mem_inter.1 hx).1).2
    exact hp.fresh (mem_outBuilds (mem_toFinset.1 hx')).2
      (mem_toFinset.1 (Finset.mem_sdiff.1 hid).1)
  have hcard := Finset.card_le_card (Finset.union_subset hstays hbuilt)
  rw [Finset.card_union_of_disjoint hdisjoint,
    toFinset_card_of_nodup (nodup_outBuilds h.nodup_indexes hp.outs.1)] at hcard
  have hlen : ((s.swap p committed).builds ++ (s.swap p committed).graphs).length =
      s.builds.length + (s.outBuilds p committed).length +
        (s.graphs.filter fun g => g.2 ∉ p.inputs).length := by
    rw [swap, length_append, length_append]
  rw [hlen] at hnew
  rw [length_append] at hold
  rw [hsplit, Nat.mul_add] at hgone
  omega

/-- If an input is gone, the swap uses up graphs for it. -/
lemma surplus_swap_lt (h : s.Valid) (hp : s.Taken p) (hindexed : ∀ id ∈ p.inputs, s.fullyIndexed id)
    (hgone : ¬ p.inputs ⊆ s.ids) (committed : Bool) : (s.swap p committed).surplus < s.surplus := by
  obtain ⟨id, hid, hnot⟩ : ∃ id ∈ p.inputs, id ∉ s.ids := by
    simpa [subset_def] using hgone
  have hcard : 0 < (p.inputs.toFinset \ s.ids.toFinset).card :=
    Finset.card_pos.2 ⟨id, by simp [hid, hnot]⟩
  have hindexes := length_pos_of_ne_nil h.indexes_ne
  have := surplus_swap_add_le h hp hindexed committed
  have := Nat.mul_pos hindexes hcard
  omega

/-- If the inputs are there, the swap drops rows or segments. -/
lemma swap_lt (hp : p.Promises s.sealed) (hpresent : p.inputs ⊆ s.ids) (committed : Bool) :
    rowTotal (s.swap p committed).sealed ≤ rowTotal s.sealed ∧
      (rowTotal (s.swap p committed).sealed = rowTotal s.sealed →
        (s.swap p committed).sealed.length < s.sealed.length) := by
  have hrows := p.sum_map_swapSealed s.docToSeg s.sealed Sealed.count
  have hsegs := p.length_swapSealed s.docToSeg s.sealed
  rw [MergePlan.sum_count_outputs hp.length_outIDs] at hrows
  rw [MergePlan.length_outputs hp.length_outIDs] at hsegs
  have hinputs : p.inputs.length ≤ (s.sealed.filter fun ss => ss.id ∈ p.inputs).length := by
    rw [← length_map (f := Sealed.id)]
    refine (subperm_of_subset hp.nodup fun id hid => ?_).length_le
    obtain ⟨ss, hss, rfl⟩ := mem_map.1 (hpresent hid)
    exact mem_map_of_mem (mem_filter.2 ⟨hss, by simpa using hid⟩)
  obtain ⟨hle, hlt⟩ := hp.shrinks hpresent
  simp only [rowTotal] at hle hlt ⊢
  simp only [swap]
  omega

/-- The order in which the background work decreases. -/
def rank (s : Background ρ) : ℕ ×ₗ ℕ ×ₗ ℕ ×ₗ ℕ ×ₗ ℕ :=
  toLex (s.surplus, toLex (rowTotal s.sealed, toLex (s.sealed.length,
    toLex (s.builds.length, s.merges.length))))

lemma toLex_lt_of_le {α β : Type*} [PartialOrder α] [Preorder β] {a a' : α} {b b' : β}
    (ha : a ≤ a') (hb : b < b') : toLex (a, b) < toLex (a', b') :=
  Prod.Lex.toLex_lt_toLex'.2 ⟨ha, fun _ => hb⟩

@[simp]
lemma surplus_maybeMerge : (s.maybeMerge cfg readable).surplus = s.surplus := by
  unfold maybeMerge
  split <;> rfl

@[simp]
lemma sealed_maybeMerge : (s.maybeMerge cfg readable).sealed = s.sealed := by
  unfold maybeMerge
  split <;> rfl

@[simp]
lemma builds_maybeMerge : (s.maybeMerge cfg readable).builds = s.builds := by
  unfold maybeMerge
  split <;> rfl

/-- Every step keeps the ids apart and lowers the rank. -/
lemma step_rank {e : Event} {s' : Background ρ} (h : s.Valid)
    (hstep : step cfg readable s e = some s') : s'.Valid ∧ s'.rank < s.rank := by
  cases e with
  | build i built =>
    obtain ⟨b, hb, hstep⟩ := Option.bind_eq_some_iff.1 hstep
    have hlen : (s.builds.eraseIdx i).length < s.builds.length := by
      rw [(perm_cons_eraseIdx hb).length_eq, length_cons]
      exact Nat.lt_succ_self _
    dsimp only at hstep
    split at hstep
    · cases hstep
      refine ⟨(Valid.withGraphs h).maybeMerge, ?_⟩
      refine toLex_lt_of_le ?_ (toLex_lt_of_le ?_ (toLex_lt_of_le ?_
        (Prod.Lex.toLex_lt_toLex.2 (.inl ?_))))
      · rw [surplus_maybeMerge]
        exact surplus_installGraph_le hb
      · rw [sealed_maybeMerge, installGraph]
      · rw [sealed_maybeMerge, installGraph]
      · rw [builds_maybeMerge]
        exact hlen
    · cases hstep
      exact ⟨Valid.withGraphs h, toLex_lt_of_le (surplus_eraseIdx_le hb) (toLex_lt_of_le le_rfl
        (toLex_lt_of_le le_rfl (Prod.Lex.toLex_lt_toLex.2 (.inl hlen))))⟩
  | merge j written committed =>
    obtain ⟨p, hp, hstep⟩ := Option.bind_eq_some_iff.1 hstep
    have hvalid := h.withMerges (eraseIdx_sublist s.merges j)
    have htaken := h.taken hp
    dsimp only at hstep
    split at hstep
    case isTrue hcond =>
      cases hstep
      refine ⟨hvalid.swap htaken committed, ?_⟩
      by_cases hpresent : p.inputs ⊆ s.ids
      · obtain ⟨hrows, hsegs⟩ := swap_lt htaken.promises hpresent committed
        have hsurplus := surplus_swap_add_le hvalid htaken hcond.2 committed
        refine toLex_lt_of_le ((Nat.le_add_right _ _).trans hsurplus) ?_
        exact Prod.Lex.toLex_lt_toLex'.2 ⟨hrows, fun heq =>
          Prod.Lex.toLex_lt_toLex.2 (.inl (hsegs heq))⟩
      · exact Prod.Lex.toLex_lt_toLex.2
          (.inl (surplus_swap_lt hvalid htaken hcond.2 hpresent committed))
    case isFalse =>
      cases hstep
      have hlen : (s.merges.eraseIdx j).length < s.merges.length := by
        rw [(perm_cons_eraseIdx hp).length_eq, length_cons]
        exact Nat.lt_succ_self _
      exact ⟨hvalid, toLex_lt_of_le le_rfl (toLex_lt_of_le le_rfl (toLex_lt_of_le le_rfl
        (toLex_lt_of_le le_rfl hlen)))⟩

variable (cfg readable) in
/-- Reclamation reaches a fixpoint. The plans of a round have no input in common; a roll-up makes at
most one segment of bounded size out of two or more; the live rows of the inputs are the rows of the
outputs, with every document in one row only; in whatever order the plans are installed, each
installation lowers the number of tombstones or keeps it and lowers the number of segments. If
nothing is written, the builds and merges in the background come to an end. -/
theorem reclamation_reaches_fixpoint (s : Background ρ) (h : s.Valid) :
    ((s.plans cfg readable).Pairwise fun p q => p.inputs.Disjoint q.inputs) ∧
    (∀ p, growthPlan cfg s.sealed s.fullyIndexed readable s.nextSeg = some p →
      2 ≤ p.inputs.length ∧ p.buckets.length ≤ 1 ∧ ∀ b ∈ p.buckets, b.length ≤ cfg.maxMergedSize) ∧
    (Routed s.sealed s.docToSeg →
      (∀ p ∈ s.plans cfg readable, (p.buckets.flatten.map Prod.fst).Nodup ∧
        ∀ r, r ∈ p.buckets.flatten ↔ ∃ ss ∈ s.sealed, ss.id ∈ p.inputs ∧ r ∈ ss.live) ∧
      ∀ qs p, (qs ++ [p]).Subperm (s.plans cfg readable) →
        let st := installAll qs (s.sealed, s.docToSeg)
        let st' := p.install st
        toLex (tombTotal st'.1, st'.1.length) < toLex (tombTotal st.1, st.1.length)) ∧
    Acc (fun t' t => ∃ e, step cfg readable t e = some t') s := by
  have hdisjoint : (s.plans cfg readable).Pairwise fun p q => p.inputs.Disjoint q.inputs :=
    disjoint_planReclamation h.nodup_ids s.nextSeg
  refine ⟨hdisjoint, fun p hp => growthPlan_buckets h.nodup_ids hp, fun hrouted => ⟨?_, ?_⟩,
    acc_of_lt rank (fun h hstep => step_rank h hstep) h⟩
  · intro p hp
    obtain ⟨segs, hsegs⟩ := reclaims_of_mem_planReclamation h.nodup_ids hp
    exact ⟨hsegs.nodup_docs hrouted, fun r => hsegs.mem_flatten⟩
  · intro qs p hsub
    have hpmem : p ∈ s.plans cfg readable := hsub.subset (by simp)
    obtain ⟨segs, hsegs⟩ := reclaims_of_mem_planReclamation h.nodup_ids hpmem
    refine installAll_lt hsegs (hsegs.owned hrouted) fun q hq => ?_
    have hqmem : q ∈ s.plans cfg readable := hsub.subset (mem_append_left _ hq)
    obtain ⟨segs', hsegs'⟩ := reclaims_of_mem_planReclamation h.nodup_ids hqmem
    refine ⟨?_, hsegs'.length_outIDs, fun id hid hid' => ?_⟩
    · obtain ⟨l, hperm, hsublist⟩ := hsub
      have hpairwise := hperm.pairwise (hdisjoint.sublist hsublist) List.Disjoint.symm
      exact (List.pairwise_append.1 hpairwise).2.2 q hq p (List.mem_singleton_self p)
    · have hnew := ((outs_planReclamation s.nextSeg).1 q hqmem).2 id hid
      exact absurd (h.ids_lt id (mem_ids_of_mem_plans h hpmem hid')) (not_lt.2 hnew.1)

/-- A deflated segment and two small ones, all of them indexed. -/
def deflated : Background Unit where
  sealed := [⟨1, [⟨1, (), false⟩, ⟨2, (), true⟩, ⟨3, (), true⟩]⟩, ⟨2, [⟨2, (), false⟩]⟩,
    ⟨3, [⟨3, (), false⟩]⟩]
  docToSeg := ((∅ : GoMap DocId SegId).insert 1 1 |>.insert 2 2).insert 3 3
  nextSeg := 4
  closing := false
  indexes := [Bytes.ofAscii "default"]
  graphs := [1, 2, 3].map fun id => (Bytes.ofAscii "default", id)
  builds := []
  merges := []

def smallConfig : MergeConfig where
  mergeFloor := 1 / 2
  fanout := 2
  maxMergedSize := 10
  targetSegCount := 8
  maxSegSize := 10
  mergeFloor_le := by norm_num
  two_le_fanout := le_rfl
  maxMergedSize_pos := by norm_num
  maxSegSize_pos := by norm_num

lemma valid_deflated : deflated.Valid where
  nodup_ids := by decide
  nodup_indexes := by decide
  indexes_ne := by decide
  ids_lt := by decide
  promises := by simp [deflated]
  inputs_lt := by simp [deflated]
  outs := by simp [deflated, OutsBetween]
  fresh := by simp [deflated]

lemma routed_deflated : Routed deflated.sealed deflated.docToSeg where
  owner := by
    simp only [deflated, forall_mem_cons, Sealed.live, liveRows]
    simp
    decide
  nodup := by simp [deflated, Sealed.live, liveRows]

theorem reclamation_reaches_fixpoint_deflated :
    ((deflated.plans smallConfig fun _ => true).map MergePlan.inputs) = [[1], [2, 3]] ∧
    (∀ p ∈ deflated.plans smallConfig fun _ => true, ∀ r, r ∈ p.buckets.flatten ↔
      ∃ ss ∈ deflated.sealed, ss.id ∈ p.inputs ∧ r ∈ ss.live) ∧
    Acc (fun t' t => ∃ e, step smallConfig (fun _ => true) t e = some t') deflated := by
  obtain ⟨-, -, hrouted, hacc⟩ :=
    reclamation_reaches_fixpoint smallConfig (fun _ => true) deflated valid_deflated
  exact ⟨by decide +kernel, fun p hp => ((hrouted routed_deflated).1 p hp).2, hacc⟩

end Background

end Haystack.VectorStore
