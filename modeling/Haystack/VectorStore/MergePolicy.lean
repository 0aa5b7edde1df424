import Haystack.Lib.Rounding
import Haystack.Lib.Sorting
import Haystack.VectorStore.Segments

/-!
# Which segments are merged

A reclamation round looks at the row counts of the sealed segments. A segment with too few live
rows is packed anew on its own. In addition one group of segments is rolled up into one: the lowest
size tier that has enough segments, or, if there are more segments than wanted, the smallest ones. A
group is taken only if its live rows fit one segment.
-/

namespace Haystack.VectorStore

open List Option

/-- `mergeConfig` and the bound on the rows of a segment. The bounds are those for which a round
makes progress. -/
structure MergeConfig where
  mergeFloor : ℚ
  fanout : ℕ
  maxMergedSize : ℕ
  targetSegCount : ℤ
  maxSegSize : ℕ
  mergeFloor_le : mergeFloor ≤ 1
  two_le_fanout : 2 ≤ fanout
  maxMergedSize_pos : 0 < maxMergedSize
  maxSegSize_pos : 0 < maxSegSize

structure SegLiveStats where
  id : SegId
  count : ℕ
  live : ℕ
  deriving DecidableEq

variable {ρ : Type} (cfg : MergeConfig)

/-- The quotient as `float32`. -/
def SegLiveStats.liveRatio (st : SegLiveStats) : ℚ :=
  if st.count = 0 then 1
  else Rounding.round 23 (Rounding.round 23 st.live / Rounding.round 23 st.count)

/-- `segStatsLocked` -/
def segStats (sealed : List (Sealed ρ)) : List SegLiveStats :=
  sealed.map fun ss => ⟨ss.id, ss.count, ss.count - ss.tombCount⟩

def pickDeleteDriven (stats : List SegLiveStats) : List SegId :=
  (stats.filter fun st => st.count ≠ 0 ∧ st.liveRatio < cfg.mergeFloor).map SegLiveStats.id

def sizeTier (count : ℕ) : ℕ :=
  if count < 2 then 0 else Nat.log2 count

/-- The sum of the live rows. -/
def liveSum (stats : List SegLiveStats) : ℕ :=
  (stats.map SegLiveStats.live).sum

def pickGrowthTiered (stats : List SegLiveStats) : Option (List SegId) :=
  (StableSort.sortBy id (stats.map fun st => sizeTier st.count).dedup).findSome? fun t =>
    let group := stats.filter fun st => sizeTier st.count = t
    if group.length < cfg.fanout then none
    else if cfg.maxMergedSize < liveSum group then none
    else some (group.map SegLiveStats.id)

/-- The first segments whose live rows, added to `sum`, fit the bound. -/
def takeFitting (sum : ℕ) : List SegLiveStats → List SegLiveStats
  | [] => []
  | st :: stats =>
    if cfg.maxMergedSize < sum + st.live then [] else st :: takeFitting (sum + st.live) stats

def pickGrowthMerge (stats : List SegLiveStats) : Option (List SegId) :=
  match pickGrowthTiered cfg stats with
  | some g => some g
  | none =>
    if (stats.length : ℤ) ≤ cfg.targetSegCount then none
    else
      let order := StableSort.sortBy SegLiveStats.count stats
      let ids := (takeFitting cfg 0 order).map SegLiveStats.id
      if ids.length < 2 then none else some ids

/-! ### Plans -/

section Plans

variable (sealed : List (Sealed ρ)) (usable : SegId → Bool) (readable : ρ → Bool)

def sealedByID (id : SegId) : Option (Sealed ρ) :=
  sealed.find? fun ss => ss.id = id

/-- `planMergeWithCapLocked`: there is no plan if an input is gone, has no graph in some index, or
has a live row whose payload cannot be read. `next` is the next free segment id. -/
def planMergeWithCap (inputIDs : List SegId) (bucketCap : ℕ) (next : SegId) :
    Option (MergePlan ρ) := do
  let inputs ← inputIDs.mapM fun id => (sealedByID sealed id).filter fun _ => usable id
  let rows := inputs.flatMap Sealed.live
  if rows.any fun r => !readable r.2 then none
  else
    let buckets := packLiveDocs bucketCap rows
    some ⟨inputIDs, buckets, (List.range buckets.length).map (next + ·)⟩

/-- The plans for the deflated segments, with the next free segment id after them. -/
def deletePlans (ids : List SegId) (next : SegId) : List (MergePlan ρ) × SegId :=
  ids.foldl (fun s id =>
    match planMergeWithCap sealed usable readable [id] cfg.maxSegSize s.2 with
    | none => s
    | some p => (s.1 ++ [p], s.2 + p.outIDs.length)) ([], next)

/-- `statsExcludingLocked` -/
def statsExcluding (stats : List SegLiveStats) (plans : List (MergePlan ρ)) : List SegLiveStats :=
  stats.filter fun st => ∀ p ∈ plans, st.id ∉ p.inputs

/-- The plan that rolls up a group, if there is one. -/
def growthPlan (next : SegId) : Option (MergePlan ρ) :=
  let stats := segStats sealed
  let plans := deletePlans cfg sealed usable readable (pickDeleteDriven cfg stats) next
  (pickGrowthMerge cfg (statsExcluding stats plans.1)).bind fun g =>
    planMergeWithCap sealed usable readable g cfg.maxMergedSize plans.2

/-- `planReclamationLocked` -/
def planReclamation (next : SegId) : List (MergePlan ρ) :=
  (deletePlans cfg sealed usable readable (pickDeleteDriven cfg (segStats sealed)) next).1 ++
    (growthPlan cfg sealed usable readable next).toList

end Plans

/-! ### What is picked -/

/-- A segment without tombstones is not below any floor. -/
lemma liveRatio_eq_one {st : SegLiveStats} (h : st.live = st.count) : st.liveRatio = 1 := by
  unfold SegLiveStats.liveRatio
  split
  · rfl
  case isFalse hne =>
    have hpos : (0 : ℚ) < st.count := by exact_mod_cast Nat.pos_of_ne_zero hne
    rw [h, div_self (Rounding.round_pos 23 hpos).ne', Rounding.round_one]

variable {cfg}

/-- A segment that is packed on its own has tombstones. -/
lemma tombCount_pos_of_mem_pickDeleteDriven {sealed : List (Sealed ρ)} {id : SegId}
    (h : id ∈ pickDeleteDriven cfg (segStats sealed)) :
    ∃ ss ∈ sealed, ss.id = id ∧ 0 < ss.tombCount := by
  obtain ⟨st, hst, rfl⟩ := mem_map.1 h
  obtain ⟨hmem, hpick⟩ := mem_filter.1 hst
  obtain ⟨ss, hss, rfl⟩ := mem_map.1 hmem
  refine ⟨ss, hss, rfl, Nat.pos_of_ne_zero fun hzero => ?_⟩
  have hratio : (⟨ss.id, ss.count, ss.count - ss.tombCount⟩ : SegLiveStats).liveRatio = 1 :=
    liveRatio_eq_one (by simp [hzero])
  simp only [decide_eq_true_eq, hratio] at hpick
  exact absurd hpick.2 (not_lt.2 cfg.mergeFloor_le)

lemma takeFitting_sublist (sum : ℕ) (stats : List SegLiveStats) :
    (takeFitting cfg sum stats).Sublist stats := by
  induction stats generalizing sum with
  | nil => exact .slnil
  | cons st stats ih =>
    rw [takeFitting]
    split
    · exact nil_sublist _
    · exact (ih _).cons_cons st

lemma liveSum_takeFitting_le {sum : ℕ} (hsum : sum ≤ cfg.maxMergedSize)
    (stats : List SegLiveStats) :
    sum + liveSum (takeFitting cfg sum stats) ≤ cfg.maxMergedSize := by
  induction stats generalizing sum with
  | nil => simpa [takeFitting, liveSum] using hsum
  | cons st stats ih =>
    rw [takeFitting]
    split
    · simpa [liveSum] using hsum
    case isFalse hfit =>
      have := ih (not_lt.1 hfit)
      simp only [liveSum, map_cons, sum_cons] at this ⊢
      omega

/-- A group that is rolled up: at least two of the segments, up to their order, whose live rows fit
the bound. -/
lemma pickGrowthMerge_spec {stats : List SegLiveStats} {g : List SegId}
    (h : pickGrowthMerge cfg stats = some g) :
    ∃ group : List SegLiveStats, group.Subperm stats ∧ g = group.map SegLiveStats.id ∧
      2 ≤ group.length ∧ liveSum group ≤ cfg.maxMergedSize := by
  unfold pickGrowthMerge at h
  split at h
  case h_1 g' htier =>
    cases h
    obtain ⟨t, -, ht⟩ := exists_of_findSome?_eq_some htier
    dsimp only at ht
    split at ht
    · cases ht
    case isFalse hlen =>
      split at ht
      · cases ht
      case isFalse hsum =>
        refine ⟨_, filter_sublist.subperm, (some.inj ht).symm, ?_, not_lt.1 hsum⟩
        exact cfg.two_le_fanout.trans (not_lt.1 hlen)
  case h_2 =>
    split at h
    · cases h
    · dsimp only at h
      split at h
      · cases h
      case isFalse hlen =>
        rw [length_map] at hlen
        refine ⟨_, ?_, (some.inj h).symm, not_lt.1 hlen, ?_⟩
        · exact (takeFitting_sublist 0 _).subperm.trans
            (StableSort.perm_sortBy SegLiveStats.count stats).subperm
        · simpa using liveSum_takeFitting_le (Nat.zero_le cfg.maxMergedSize)
            (StableSort.sortBy SegLiveStats.count stats)

/-! ### What is planned -/

section Plans

variable {sealed : List (Sealed ρ)} {usable : SegId → Bool} {readable : ρ → Bool} {p : MergePlan ρ}
  {segs : List (Sealed ρ)} {bucketCap next : ℕ}

lemma sealedByID_eq_some {id : SegId} {ss : Sealed ρ} (h : sealedByID sealed id = some ss) :
    ss ∈ sealed ∧ ss.id = id :=
  ⟨mem_of_find?_eq_some h, by simpa using find?_some h⟩

lemma sealedByID_of_mem (hnodup : (sealed.map Sealed.id).Nodup) {ss : Sealed ρ} (h : ss ∈ sealed) :
    sealedByID sealed ss.id = some ss := by
  obtain ⟨ss', hss'⟩ : ∃ ss', sealedByID sealed ss.id = some ss' := by
    rw [← isSome_iff_exists, sealedByID, find?_isSome]
    exact ⟨ss, h, by simp⟩
  obtain ⟨hmem, hid⟩ := sealedByID_eq_some hss'
  rw [hss', inj_on_of_nodup_map hnodup hmem h hid]

/-- The buckets of a plan hold the live rows of its inputs. -/
structure PlannedFrom (sealed : List (Sealed ρ)) (bucketCap next : ℕ) (p : MergePlan ρ)
    (segs : List (Sealed ρ)) : Prop where
  inputs : List.Forall₂ (fun id ss => sealedByID sealed id = some ss) p.inputs segs
  buckets : p.buckets = packLiveDocs bucketCap (segs.flatMap Sealed.live)
  outIDs : p.outIDs = (List.range p.buckets.length).map (next + ·)

lemma planMergeWithCap_spec {inputIDs : List SegId}
    (h : planMergeWithCap sealed usable readable inputIDs bucketCap next = some p) :
    p.inputs = inputIDs ∧ ∃ segs, PlannedFrom sealed bucketCap next p segs := by
  obtain ⟨segs, hsegs, h⟩ := bind_eq_some_iff.1 h
  dsimp only at h
  split at h
  · cases h
  · cases h
    refine ⟨rfl, segs, ⟨?_, rfl, rfl⟩⟩
    refine (StepSystem.forall₂_of_mapM hsegs).imp fun id ss hss => ?_
    exact (filter_eq_some_iff.1 hss).1

/-- The ids of outputs that were allocated between two values of the counter. -/
def OutsBetween (lo hi : ℕ) (plans : List (MergePlan ρ)) : Prop :=
  (∀ p ∈ plans, p.outIDs.Nodup ∧ ∀ id ∈ p.outIDs, lo ≤ id ∧ id < hi) ∧
    plans.Pairwise fun p q => p.outIDs.Disjoint q.outIDs

lemma PlannedFrom.outs (h : PlannedFrom sealed bucketCap next p segs) :
    p.outIDs.Nodup ∧
      ∀ id ∈ p.outIDs, next ≤ id ∧ id < next + p.outIDs.length := by
  have hlen : p.outIDs.length = p.buckets.length := by rw [h.outIDs]; simp
  rw [hlen, h.outIDs]
  refine ⟨nodup_range.map fun a b hab => by simpa using hab, fun id hid => ?_⟩
  obtain ⟨i, hi, rfl⟩ := mem_map.1 hid
  exact ⟨Nat.le_add_right _ _, Nat.add_lt_add_left (mem_range.1 hi) _⟩

/-- One more plan, with the next ids. -/
lemma OutsBetween.snoc {lo hi : ℕ} {plans : List (MergePlan ρ)} (h : OutsBetween lo hi plans)
    (hle : lo ≤ hi) {bucketCap : ℕ} (hp : PlannedFrom sealed bucketCap hi p segs) :
    OutsBetween lo (hi + p.outIDs.length) (plans ++ [p]) := by
  obtain ⟨hnodup, hrange⟩ := hp.outs
  refine ⟨fun q hq => ?_, pairwise_append.2 ⟨h.2, pairwise_singleton _ _, ?_⟩⟩
  · rcases mem_append.1 hq with hq | hq
    · exact ⟨(h.1 q hq).1, fun id hid => ⟨((h.1 q hq).2 id hid).1,
        ((h.1 q hq).2 id hid).2.trans_le (Nat.le_add_right _ _)⟩⟩
    · obtain rfl := mem_singleton.1 hq
      exact ⟨hnodup, fun id hid => ⟨hle.trans (hrange id hid).1, (hrange id hid).2⟩⟩
  · intro q hq p' hp' id hid hid'
    obtain rfl := mem_singleton.1 hp'
    exact absurd ((h.1 q hq).2 id hid).2 (not_lt.2 (hrange id hid').1)

/-- The plans for the deflated segments: one for each of some of them. -/
structure DeletePlanned (cfg : MergeConfig) (sealed : List (Sealed ρ)) (ids : List SegId)
    (next : ℕ) (s : List (MergePlan ρ) × ℕ) : Prop where
  inputs : ∃ picked : List SegId, picked.Sublist ids ∧
    s.1.map MergePlan.inputs = picked.map fun id => [id]
  planned : ∀ p ∈ s.1, ∃ n segs, PlannedFrom sealed cfg.maxSegSize n p segs
  next_eq : s.2 = next + (s.1.map fun p => p.outIDs.length).sum
  outs : OutsBetween next s.2 s.1

variable (cfg sealed usable readable) in
lemma deletePlans_spec (ids : List SegId) (next : ℕ) :
    DeletePlanned cfg sealed ids next (deletePlans cfg sealed usable readable ids next) := by
  induction ids using reverseRecOn with
  | nil =>
    exact ⟨⟨[], Sublist.refl _, rfl⟩, by simp [deletePlans], rfl,
      by simp [deletePlans, OutsBetween]⟩
  | append_singleton ids id ih =>
    obtain ⟨⟨picked, hsub, hpicked⟩, hplanned, hnext, houts⟩ := ih
    have hle := hnext.ge.trans' (Nat.le_add_right next _)
    rw [deletePlans, foldl_append]
    change DeletePlanned cfg sealed (ids ++ [id]) next
      (match planMergeWithCap sealed usable readable [id] cfg.maxSegSize
        (deletePlans cfg sealed usable readable ids next).2 with
      | none => deletePlans cfg sealed usable readable ids next
      | some p => ((deletePlans cfg sealed usable readable ids next).1 ++ [p],
          (deletePlans cfg sealed usable readable ids next).2 + p.outIDs.length))
    split
    · exact ⟨⟨picked, hsub.trans (sublist_append_left _ _), hpicked⟩, hplanned, hnext, houts⟩
    case h_2 p hp =>
      obtain ⟨hinputs, segs, hfrom⟩ := planMergeWithCap_spec hp
      refine ⟨⟨picked ++ [id], hsub.append (Sublist.refl _), by simp [hpicked, hinputs]⟩, ?_,
        by simp [hnext, add_assoc], houts.snoc hle hfrom⟩
      intro q hq
      rcases mem_append.1 hq with hq | hq
      · exact hplanned q hq
      · exact ⟨_, segs, mem_singleton.1 hq ▸ hfrom⟩

/-! ### A round -/

lemma map_id_segStats (sealed : List (Sealed ρ)) :
    (segStats sealed).map SegLiveStats.id = sealed.map Sealed.id := by
  simp [segStats, Function.comp_def]

lemma nodup_pickDeleteDriven (hnodup : (sealed.map Sealed.id).Nodup) :
    (pickDeleteDriven cfg (segStats sealed)).Nodup := by
  rw [← map_id_segStats] at hnodup
  exact hnodup.sublist (filter_sublist.map _)

/-- The plan that rolls up a group: its inputs are some of the segments, at least two, which are in
no other plan, and their live rows fit the bound. -/
lemma growthPlan_spec {next : ℕ} (h : growthPlan cfg sealed usable readable next = some p) :
    ∃ group segs : List _, group.Subperm (segStats sealed) ∧ p.inputs = group.map SegLiveStats.id ∧
      2 ≤ group.length ∧ liveSum group ≤ cfg.maxMergedSize ∧
      PlannedFrom sealed cfg.maxMergedSize (deletePlans cfg sealed usable readable
        (pickDeleteDriven cfg (segStats sealed)) next).2 p segs ∧
      ∀ q ∈ (deletePlans cfg sealed usable readable
        (pickDeleteDriven cfg (segStats sealed)) next).1, q.inputs.Disjoint p.inputs := by
  obtain ⟨g, hg, hplan⟩ := bind_eq_some_iff.1 h
  obtain ⟨group, hsub, rfl, hlen, hsum⟩ := pickGrowthMerge_spec hg
  obtain ⟨hinputs, segs, hfrom⟩ := planMergeWithCap_spec hplan
  refine ⟨group, segs, hsub.trans filter_sublist.subperm, hinputs, hlen, hsum, hfrom, ?_⟩
  intro q hq id hid hid'
  rw [hinputs] at hid'
  obtain ⟨st, hst, rfl⟩ := mem_map.1 hid'
  have hexcl := (mem_filter.1 (hsub.subset hst)).2
  simp only [decide_eq_true_eq] at hexcl
  exact hexcl q hq hid

/-- The plans of a round have no input in common. -/
theorem disjoint_planReclamation (hnodup : (sealed.map Sealed.id).Nodup) (next : ℕ) :
    (planReclamation cfg sealed usable readable next).Pairwise fun p q =>
      p.inputs.Disjoint q.inputs := by
  have hdel := deletePlans_spec cfg sealed usable readable
    (pickDeleteDriven cfg (segStats sealed)) next
  refine pairwise_append.2 ⟨?_, ?_, ?_⟩
  · -- the deflated segments are distinct
    obtain ⟨picked, hsub, hpicked⟩ := hdel.inputs
    have hpairwise : (picked.map fun id => [id]).Pairwise Disjoint := by
      refine pairwise_map.2 (((nodup_pickDeleteDriven hnodup).sublist hsub).imp ?_)
      intro a b hne
      simpa using hne.symm
    rw [← hpicked] at hpairwise
    exact pairwise_map.1 hpairwise
  · cases growthPlan cfg sealed usable readable next <;> simp
  · intro p hp q hq
    obtain ⟨group, segs, -, -, -, -, -, hdisj⟩ := growthPlan_spec (mem_toList.1 hq)
    exact hdisj p hp

/-- The sum of the live rows of some segments. -/
lemma liveSum_eq {group : List SegLiveStats} (hsub : ∀ st ∈ group, st ∈ segStats sealed)
    (hnodup : (sealed.map Sealed.id).Nodup)
    (hsegs : List.Forall₂ (fun id ss => sealedByID sealed id = some ss) (group.map SegLiveStats.id)
      segs) : liveSum group = (segs.flatMap Sealed.live).length := by
  induction group generalizing segs with
  | nil =>
    cases hsegs
    rfl
  | cons st group ih =>
    obtain ⟨ss, segs, hss, hrest, rfl⟩ := forall₂_cons_left_iff.1 hsegs
    obtain ⟨ss', hss', heq⟩ := mem_map.1 (hsub st mem_cons_self)
    have hfound := sealedByID_of_mem hnodup hss'
    have hid : ss'.id = st.id := by rw [← heq]
    rw [hid, hss] at hfound
    cases hfound
    have hlive : st.live = ss.live.length := by
      have := ss.length_live_add_tombCount
      rw [← heq]
      dsimp only
      omega
    have := ih (fun st hst => hsub st (mem_cons_of_mem _ hst)) hrest
    rw [liveSum] at this ⊢
    rw [map_cons, sum_cons, this, flatMap_cons, length_append, hlive]

/-- A group is rolled up into at most one segment, of bounded size. -/
theorem growthPlan_buckets (hnodup : (sealed.map Sealed.id).Nodup) {next : ℕ}
    (h : growthPlan cfg sealed usable readable next = some p) :
    2 ≤ p.inputs.length ∧ p.buckets.length ≤ 1 ∧ ∀ b ∈ p.buckets, b.length ≤ cfg.maxMergedSize := by
  obtain ⟨group, segs, hsub, hinputs, hlen, hsum, hfrom, -⟩ := growthPlan_spec h
  have hrows : (segs.flatMap Sealed.live).length ≤ cfg.maxMergedSize := by
    rwa [← liveSum_eq (fun st hst => hsub.subset hst) hnodup (hinputs ▸ hfrom.inputs)]
  rw [hfrom.buckets, hinputs, length_map]
  exact ⟨hlen, length_packLiveDocs_le_one cfg.maxMergedSize_pos hrows,
    fun b hb => length_le_of_mem_packLiveDocs cfg.maxMergedSize_pos hb⟩

lemma PlannedFrom.map_id (h : PlannedFrom sealed bucketCap next p segs) :
    segs.map Sealed.id = p.inputs := by
  have hids : Forall₂ (fun id ss => Sealed.id ss = id) p.inputs segs :=
    h.inputs.imp fun _ _ hss => (sealedByID_eq_some hss).2
  generalize p.inputs = ids at hids
  clear h
  induction hids with
  | nil => rfl
  | cons hid _ ih => rw [map_cons, hid, ih]

/-- The inputs of a plan are the segments with their ids. -/
lemma PlannedFrom.perm (h : PlannedFrom sealed bucketCap next p segs)
    (hnodup : (sealed.map Sealed.id).Nodup) (hinputs : p.inputs.Nodup) :
    segs.Perm (sealed.filter fun ss => ss.id ∈ p.inputs) := by
  have hsegs : segs.Nodup := Nodup.of_map Sealed.id (h.map_id ▸ hinputs)
  refine (perm_ext_iff_of_nodup hsegs ((hnodup.of_map _).filter _)).2 fun ss => ?_
  rw [mem_filter, decide_eq_true_eq]
  constructor
  · intro hss
    obtain ⟨id, hid, hfound⟩ := StepSystem.Forall₂.exists_left h.inputs hss
    obtain ⟨hmem, rfl⟩ := sealedByID_eq_some hfound
    exact ⟨hmem, hid⟩
  · rintro ⟨hmem, hid⟩
    obtain ⟨ss', hss', hfound⟩ := StepSystem.Forall₂.exists_right h.inputs hid
    rw [sealedByID_of_mem hnodup hmem] at hfound
    rwa [some.inj hfound]

/-- What is known of a plan of a round. Either one of its inputs has a tombstone, or it makes one
segment out of several. -/
structure Reclaims (sealed : List (Sealed ρ)) (p : MergePlan ρ) (segs : List (Sealed ρ)) :
    Prop where
  perm : segs.Perm (sealed.filter fun ss => ss.id ∈ p.inputs)
  map_id : segs.map Sealed.id = p.inputs
  flatten : p.buckets.flatten = segs.flatMap Sealed.live
  length_outIDs : p.outIDs.length = p.buckets.length
  nodup : p.inputs.Nodup
  progress : (∃ ss ∈ segs, 0 < ss.tombCount) ∨ 2 ≤ p.inputs.length ∧ p.buckets.length ≤ 1

lemma PlannedFrom.reclaims (h : PlannedFrom sealed bucketCap next p segs) (hcap : 0 < bucketCap)
    (hnodup : (sealed.map Sealed.id).Nodup) (hinputs : p.inputs.Nodup)
    (hprogress : (∃ ss ∈ segs, 0 < ss.tombCount) ∨ 2 ≤ p.inputs.length ∧ p.buckets.length ≤ 1) :
    Reclaims sealed p segs where
  perm := h.perm hnodup hinputs
  map_id := h.map_id
  flatten := by rw [h.buckets, flatten_packLiveDocs hcap]
  length_outIDs := by rw [h.outIDs, length_map, length_range]
  nodup := hinputs
  progress := hprogress

theorem reclaims_of_mem_planReclamation (hnodup : (sealed.map Sealed.id).Nodup) {next : ℕ}
    (h : p ∈ planReclamation cfg sealed usable readable next) : ∃ segs, Reclaims sealed p segs := by
  rcases mem_append.1 h with h | h
  · obtain ⟨⟨picked, hsub, hpicked⟩, hplanned, -, -⟩ := deletePlans_spec cfg sealed usable readable
      (pickDeleteDriven cfg (segStats sealed)) next
    obtain ⟨n, segs, hfrom⟩ := hplanned p h
    obtain ⟨id, hid, hinputs⟩ := mem_map.1 (hpicked ▸ mem_map_of_mem h)
    obtain ⟨ss, hss, rfl, htomb⟩ := tombCount_pos_of_mem_pickDeleteDriven (hsub.subset hid)
    have hone : p.inputs.Nodup := hinputs ▸ nodup_singleton _
    refine ⟨segs, hfrom.reclaims cfg.maxSegSize_pos hnodup hone (.inl ⟨ss, ?_, htomb⟩)⟩
    rw [(hfrom.perm hnodup hone).mem_iff, ← hinputs]
    simpa using hss
  · obtain ⟨group, segs, hsub, hinputs, -, -, hfrom, -⟩ := growthPlan_spec (mem_toList.1 h)
    have hgroup : p.inputs.Nodup := by
      obtain ⟨group', hperm, hsublist⟩ := hsub
      rw [← map_id_segStats] at hnodup
      exact hinputs ▸ (hperm.map _).nodup_iff.1 (hnodup.sublist (hsublist.map _))
    obtain ⟨htwo, hone, -⟩ := growthPlan_buckets hnodup (mem_toList.1 h)
    exact ⟨segs, hfrom.reclaims cfg.maxMergedSize_pos hnodup hgroup (.inr ⟨htwo, hone⟩)⟩

/-- The outputs of a round get the next ids. -/
theorem outs_planReclamation (next : ℕ) :
    OutsBetween next (next + ((planReclamation cfg sealed usable readable next).map fun p =>
      p.outIDs.length).sum) (planReclamation cfg sealed usable readable next) := by
  have hdel := deletePlans_spec cfg sealed usable readable
    (pickDeleteDriven cfg (segStats sealed)) next
  have hle := hdel.next_eq.ge.trans' (Nat.le_add_right next _)
  rw [planReclamation]
  cases hgrowth : growthPlan cfg sealed usable readable next with
  | none =>
    rw [toList_none, append_nil, ← hdel.next_eq]
    exact hdel.outs
  | some p =>
    obtain ⟨-, segs, -, -, -, -, hfrom, -⟩ := growthPlan_spec hgrowth
    rw [toList_some, map_append, sum_append, ← add_assoc, ← hdel.next_eq,
      map_singleton, sum_singleton]
    exact hdel.outs.snoc hle hfrom

end Plans

end Haystack.VectorStore
