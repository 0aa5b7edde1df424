import Haystack.VectorStore.Catalog

/-!
# Builds and the segments they read

A merge unmaps its inputs if every registered index has a graph for them. This keeps the segment of
a build mapped as long as the index of the build is registered, has no graph for the segment, and
nobody else is about to install one; that is so if an index is dropped or rebuilt only while none of
its builds is on its way.
-/

namespace Haystack.VectorStore

open List GoMap

/-! ### The part of a catalog that merges and builds work on -/

structure Core where
  indexes : GoMap IndexName VIndex
  sealed : List SegId
  unmapped : List SegId
  nextSeg : SegId
  builds : List Build
  merges : List Merge

def Catalog.core (s : Catalog) : Core :=
  ⟨s.indexes, s.sealed, s.unmapped, s.nextSeg, s.builds, s.merges⟩

/-- The build has not read its segment to the end. -/
def Build.Reading (b : Build) : Prop :=
  match b.phase with
  | .queued => True
  | .reading .. => True
  | _ => False

instance : DecidablePred Build.Reading := fun ⟨_, _, phase⟩ => by
  cases phase <;> dsimp only [Build.Reading] <;> infer_instance

/-- The build may still install a graph. -/
def Build.active (b : Build) : Bool := b.phase ≠ .ended

lemma Build.Reading.active {b : Build} (h : b.Reading) : b.active := by
  unfold Build.Reading at h
  unfold Build.active
  split at h <;> simp_all

variable {indexes : GoMap IndexName VIndex} {segs : List SegId}

namespace Core

variable (c : Core)

/-- The graph of an index for a segment. -/
def graph (n : IndexName) (id : SegId) : Option BuiltIndex :=
  (c.indexes.lookup n).bind fun vx => vx.graphs.lookup id

/-- Index and segment of each build that may still install a graph. -/
def tasks : List (IndexName × SegId) :=
  (c.builds.filter Build.active).map fun b => (b.name, b.seg)

/-- The segments that merges are about to bring. -/
def pendingOuts : List SegId :=
  c.merges.flatMap fun m => if m.phase = .planned ∨ m.phase = .written then m.outs else []

def spawn (names : List IndexName) (segs : List SegId) : Core where
  __ := c
  builds := c.builds ++ segs.flatMap fun id => names.map fun n => ⟨n, id, .queued⟩

def withIndexes (indexes : GoMap IndexName VIndex) : Core where
  __ := c
  indexes := indexes

def withBuilds (builds : List Build) : Core where
  __ := c
  builds := builds

def withMerges (merges : List Merge) : Core where
  __ := c
  merges := merges

/-- The outputs of a merge take the place of its inputs. -/
def swapSegments (m : Merge) : Core where
  __ := c
  unmapped := c.unmapped ++ c.sealed.filter (· ∈ m.inputs)
  sealed := c.sealed.filter (· ∉ m.inputs) ++ m.outs
  indexes := GoMap.mapValues (fun _ vx => { vx with
    graphs := GoMap.filterKeys (fun id => !m.inputs.contains id) vx.graphs }) c.indexes

/-- Every segment is in one place, a graph belongs to a sealed segment, and a build that may still
install a graph works on a sealed segment for which its index, a registered one, has none. -/
structure Orderly : Prop where
  nodup : (c.unmapped ++ (c.sealed ++ c.pendingOuts)).Nodup
  fresh : ∀ id ∈ c.unmapped ++ (c.sealed ++ c.pendingOuts), id < c.nextSeg
  graphs : ∀ n id, c.graph n id ≠ none → id ∈ c.sealed
  tasks_nodup : c.tasks.Nodup
  task : ∀ t ∈ c.tasks, t.1 ∈ c.indexes ∧ t.2 ∈ c.sealed ∧ c.graph t.1 t.2 = none

variable {c}

lemma Orderly.mapped (h : c.Orderly) {b : Build} (hb : b ∈ c.builds) (hactive : b.active) :
    b.seg ∉ c.unmapped := by
  have htask : (b.name, b.seg) ∈ c.tasks :=
    mem_map.2 ⟨b, mem_filter.2 ⟨hb, hactive⟩, rfl⟩
  intro hmem
  exact disjoint_of_nodup_append h.nodup hmem
    (mem_append_left _ (h.task _ htask).2.1)

/-! ### Steps that keep the order -/

/-- A new sealed segment. -/
lemma Orderly.addSeg (h : c.Orderly) :
    ({ c with sealed := c.sealed ++ [c.nextSeg], nextSeg := c.nextSeg + 1 } : Core).Orderly := by
  have hnew : c.nextSeg ∉ c.unmapped ++ (c.sealed ++ c.pendingOuts) := fun hmem =>
    lt_irrefl _ (h.fresh _ hmem)
  have hperm : (c.unmapped ++ (c.sealed ++ [c.nextSeg] ++ c.pendingOuts)).Perm
      (c.nextSeg :: (c.unmapped ++ (c.sealed ++ c.pendingOuts))) := by
    rw [append_assoc, ← append_assoc, ← append_assoc c.unmapped]
    exact perm_middle
  refine ⟨?_, ?_, ?_, h.tasks_nodup, ?_⟩
  · exact hperm.nodup_iff.2 (nodup_cons.2 ⟨hnew, h.nodup⟩)
  · intro id hid
    obtain rfl | hid := mem_cons.1 (hperm.mem_iff.1 hid)
    · exact Nat.lt_succ_self _
    · exact (h.fresh id hid).trans (Nat.lt_succ_self _)
  · exact fun n id hg => mem_append_left _ (h.graphs n id hg)
  · exact fun t ht => ⟨(h.task t ht).1, mem_append_left _ (h.task t ht).2.1, (h.task t ht).2.2⟩

/-- New builds of registered indexes for segments without a graph. -/
lemma Orderly.spawn (h : c.Orderly) {names : List IndexName} (hnames : names.Nodup)
    (hsegs : segs.Nodup) (hreg : ∀ n ∈ names, n ∈ c.indexes) (hseal : ∀ id ∈ segs, id ∈ c.sealed)
    (hnew : ∀ n ∈ names, ∀ id ∈ segs, c.graph n id = none ∧ (n, id) ∉ c.tasks) :
    (c.spawn names segs).Orderly := by
  have htasks : (c.spawn names segs).tasks =
      c.tasks ++ segs.flatMap fun id => names.map fun n => (n, id) := by
    have hactive : ∀ id, (names.map fun n => (⟨n, id, .queued⟩ : Build)).filter Build.active =
        names.map fun n => ⟨n, id, .queued⟩ := fun id =>
      filter_eq_self.2 fun b hb => by
        obtain ⟨n, -, rfl⟩ := mem_map.1 hb
        rfl
    simp [tasks, Core.spawn, filter_flatMap, map_flatMap, hactive, Function.comp_def]
  have hmem : ∀ {t : IndexName × SegId}, t ∈ (segs.flatMap fun id => names.map fun n => (n, id)) →
      t.1 ∈ names ∧ t.2 ∈ segs := by
    intro t ht
    obtain ⟨id, hid, ht⟩ := mem_flatMap.1 ht
    obtain ⟨n, hn, rfl⟩ := mem_map.1 ht
    exact ⟨hn, hid⟩
  refine ⟨h.nodup, h.fresh, h.graphs, ?_, ?_⟩
  · rw [htasks, nodup_append']
    refine ⟨h.tasks_nodup, ?_, fun t ht ht' => ?_⟩
    · refine nodup_flatMap.2 ⟨fun id _ => hnames.map fun a b hab => (Prod.mk.inj hab).1, ?_⟩
      refine hsegs.imp fun {a b} hab => ?_
      intro t ht ht'
      obtain ⟨n, -, rfl⟩ := mem_map.1 ht
      obtain ⟨n', -, heq⟩ := mem_map.1 ht'
      exact hab (Prod.mk.inj heq).2.symm
    · exact (hnew _ (hmem ht').1 _ (hmem ht').2).2 ht
  · intro t ht
    rw [htasks] at ht
    obtain ht | ht := mem_append.1 ht
    · exact h.task t ht
    · exact ⟨hreg _ (hmem ht).1, hseal _ (hmem ht).2, (hnew _ (hmem ht).1 _ (hmem ht).2).1⟩

/-- A change of the entry of one index, of which no build is active. -/
lemma Orderly.withIndexes (h : c.Orderly) {name : IndexName} (hname : ∀ t ∈ c.tasks, t.1 ≠ name)
    (hother : ∀ n, n ≠ name → indexes.lookup n = c.indexes.lookup n)
    (hown : ∀ id, (c.withIndexes indexes).graph name id = none) :
    (c.withIndexes indexes).Orderly := by
  have hgraph : ∀ n id, n ≠ name → (c.withIndexes indexes).graph n id = c.graph n id :=
    fun n id hn => congrArg (Option.bind · _) (hother n hn)
  refine ⟨h.nodup, h.fresh, fun n id hg => ?_, h.tasks_nodup, fun t ht => ?_⟩
  · by_cases hn : n = name
    · subst hn
      exact absurd (hown id) hg
    · exact h.graphs n id (hgraph n id hn ▸ hg)
  · obtain ⟨hreg, hseal, hnone⟩ := h.task t ht
    refine ⟨?_, hseal, (hgraph _ _ (hname t ht)).trans hnone⟩
    rw [← AList.lookup_isSome] at hreg ⊢
    rwa [Core.withIndexes, hother _ (hname t ht)]

lemma nodup_of_subperm {α : Type*} {l l' : List α} (h : l.Subperm l') (hl : l'.Nodup) :
    l.Nodup := by
  obtain ⟨l₀, hperm, hsub⟩ := h
  exact hperm.nodup_iff.1 (hl.sublist hsub)

/-- Some builds become inactive. -/
lemma Orderly.withBuilds (h : c.Orderly) {builds : List Build}
    (hsub : (c.withBuilds builds).tasks.Subperm c.tasks) : (c.withBuilds builds).Orderly :=
  ⟨h.nodup, h.fresh, h.graphs, nodup_of_subperm hsub h.tasks_nodup, fun t ht => h.task t (hsub.subset ht)⟩

/-- Some merges do not bring their outputs. -/
lemma Orderly.withMerges (h : c.Orderly) {merges : List Merge}
    (hsub : (c.withMerges merges).pendingOuts.Subperm c.pendingOuts) :
    (c.withMerges merges).Orderly := by
  have hall : (c.unmapped ++ (c.sealed ++ (c.withMerges merges).pendingOuts)).Subperm
      (c.unmapped ++ (c.sealed ++ c.pendingOuts)) :=
    (subperm_append_left _).2 ((subperm_append_left _).2 hsub)
  exact ⟨nodup_of_subperm hall h.nodup, fun id hid => h.fresh id (hall.subset hid), h.graphs, h.tasks_nodup,
    h.task⟩

/-! ### One build takes a step -/

section Build

variable {i : ℕ} {b : Build} (hi : c.builds[i]? = some b)

/-- The tasks of the other builds. -/
def otherTasks (c : Core) (i : ℕ) : List (IndexName × SegId) :=
  ((c.builds.eraseIdx i).filter Build.active).map fun b => (b.name, b.seg)

include hi

lemma tasks_perm : c.tasks.Perm ((if b.active then [(b.name, b.seg)] else []) ++ c.otherTasks i) := by
  obtain ⟨hlt, rfl⟩ := List.getElem?_eq_some_iff.1 hi
  have hperm := ((List.getElem_cons_eraseIdx_perm hlt).symm.filter Build.active).map
    fun b => (b.name, b.seg)
  refine hperm.trans (.of_eq ?_)
  rw [filter_cons]
  split <;> rfl

lemma tasks_set_perm (b' : Build) : (c.withBuilds (c.builds.set i b')).tasks.Perm
    ((if b'.active then [(b'.name, b'.seg)] else []) ++ c.otherTasks i) := by
  obtain ⟨hlt, -⟩ := List.getElem?_eq_some_iff.1 hi
  have hperm := ((List.set_perm_cons_eraseIdx hlt b').filter Build.active).map
    fun b => (b.name, b.seg)
  refine hperm.trans (.of_eq ?_)
  rw [filter_cons]
  split <;> rfl

lemma otherTasks_subperm : (c.otherTasks i).Subperm c.tasks :=
  (sublist_append_right _ _).subperm.trans (tasks_perm hi).symm.subperm

/-- The build goes on, or ends without a graph. -/
lemma Orderly.setBuild (h : c.Orderly) {b' : Build} (hname : b'.name = b.name)
    (hseg : b'.seg = b.seg) (hactive : b'.active → b.active) :
    (c.withBuilds (c.builds.set i b')).Orderly := by
  refine h.withBuilds ((tasks_set_perm hi b').subperm.trans ?_)
  split
  case isFalse => exact otherTasks_subperm hi
  case isTrue hb' =>
    have hperm := tasks_perm hi
    rw [if_pos (hactive hb')] at hperm
    rw [hname, hseg]
    exact hperm.symm.subperm

lemma Orderly.eraseBuild (h : c.Orderly) : (c.withBuilds (c.builds.eraseIdx i)).Orderly :=
  h.withBuilds (otherTasks_subperm hi)

/-- The build installs its graph. -/
lemma Orderly.install (h : c.Orderly) (hactive : b.active) {vx : VIndex}
    (hvx : c.indexes.lookup b.name = some vx) (bi : BuiltIndex) {b' : Build}
    (hended : b'.active = false) :
    ((c.withBuilds (c.builds.set i b')).withIndexes (c.indexes.insert b.name
      { vx with graphs := vx.graphs.insert b.seg bi })).Orderly := by
  have hperm := tasks_perm hi
  rw [if_pos hactive] at hperm
  have htasks := tasks_set_perm hi b'
  rw [hended] at htasks
  have hsub := otherTasks_subperm hi
  have hnot : (b.name, b.seg) ∉ c.otherTasks i :=
    (nodup_cons.1 (hperm.nodup_iff.1 h.tasks_nodup)).1
  have hseal := (h.task _ (hperm.mem_iff.2 mem_cons_self)).2.1
  have hgraph : ∀ n id, ((c.withBuilds (c.builds.set i b')).withIndexes (c.indexes.insert b.name
      { vx with graphs := vx.graphs.insert b.seg bi })).graph n id =
        if (n, id) = (b.name, b.seg) then some bi else c.graph n id := by
    intro n id
    by_cases hn : n = b.name
    · subst hn
      simp [graph, Core.withIndexes, Core.withBuilds, lookup_insert_if, hvx]
    · simp [graph, Core.withIndexes, Core.withBuilds, hn]
  refine ⟨h.nodup, h.fresh, fun n id hg => ?_, htasks.nodup_iff.2 (nodup_of_subperm hsub h.tasks_nodup),
    fun t ht => ?_⟩
  · rw [hgraph] at hg
    split at hg
    case isTrue heq => exact (Prod.mk.inj heq).2 ▸ hseal
    case isFalse => exact h.graphs n id hg
  · have ht := htasks.mem_iff.1 ht
    obtain ⟨hreg, hseg, hnone⟩ := h.task t (hsub.subset ht)
    refine ⟨(AList.mem_insert _).2 (.inr hreg), hseg, ?_⟩
    rw [hgraph, if_neg]
    · exact hnone
    · exact fun heq => hnot (heq ▸ ht)

end Build

/-! ### One merge takes a step -/

section Merge

/-- The outputs that a merge is about to bring. -/
def pending (m : Merge) : List SegId :=
  if m.phase = .planned ∨ m.phase = .written then m.outs else []

lemma graph_swapSegments (c : Core) (m : Merge) (n : IndexName) (id : SegId) :
    (c.swapSegments m).graph n id = if id ∈ m.inputs then none else c.graph n id := by
  rw [graph, swapSegments, lookup_mapValues, graph]
  cases c.indexes.lookup n with
  | none => simp
  | some vx => simp [lookup_filterKeys]

lemma mem_indexes_swapSegments (c : Core) (m : Merge) (n : IndexName) :
    n ∈ (c.swapSegments m).indexes ↔ n ∈ c.indexes := by
  rw [← AList.lookup_isSome, swapSegments, lookup_mapValues, Option.isSome_map,
    AList.lookup_isSome]

/-- A new plan. -/
lemma Orderly.plan (h : c.Orderly) (inputs : List SegId) (n : ℕ) :
    ({ c with
        nextSeg := c.nextSeg + n
        merges := c.merges ++ [⟨inputs, (range n).map (c.nextSeg + ·), .planned⟩] } :
      Core).Orderly := by
  have houts : ∀ id ∈ (range n).map (c.nextSeg + ·), c.nextSeg ≤ id ∧ id < c.nextSeg + n := by
    intro id hid
    obtain ⟨k, hk, rfl⟩ := mem_map.1 hid
    exact ⟨Nat.le_add_right _ _, Nat.add_lt_add_left (mem_range.1 hk) _⟩
  have hpending : ({ c with
      nextSeg := c.nextSeg + n
      merges := c.merges ++ [⟨inputs, (range n).map (c.nextSeg + ·), .planned⟩] } :
        Core).pendingOuts = c.pendingOuts ++ (range n).map (c.nextSeg + ·) := by
    simp [pendingOuts]
  have hall : c.unmapped ++ (c.sealed ++ (c.pendingOuts ++ (range n).map (c.nextSeg + ·))) =
      (c.unmapped ++ (c.sealed ++ c.pendingOuts)) ++ (range n).map (c.nextSeg + ·) := by
    simp
  refine ⟨?_, ?_, h.graphs, h.tasks_nodup, h.task⟩
  · rw [hpending, hall, nodup_append']
    refine ⟨h.nodup, nodup_range.map fun a b hab => Nat.add_left_cancel hab, fun id hid hid' => ?_⟩
    exact absurd (h.fresh id hid) (not_lt.2 (houts id hid').1)
  · intro id hid
    rw [hpending, hall] at hid
    obtain hid | hid := mem_append.1 hid
    · exact (h.fresh id hid).trans_le (Nat.le_add_right _ _)
    · exact (houts id hid).2

variable {j : ℕ} {m : Merge} (hj : c.merges[j]? = some m)

/-- What the other merges are about to bring. -/
def otherOuts (c : Core) (j : ℕ) : List SegId :=
  (c.merges.eraseIdx j).flatMap pending

include hj

lemma pendingOuts_perm : c.pendingOuts.Perm (pending m ++ c.otherOuts j) := by
  obtain ⟨hlt, rfl⟩ := List.getElem?_eq_some_iff.1 hj
  exact (List.getElem_cons_eraseIdx_perm hlt).symm.flatMap_right _

lemma pendingOuts_set_perm (m' : Merge) : (c.withMerges (c.merges.set j m')).pendingOuts.Perm
    (pending m' ++ c.otherOuts j) := by
  obtain ⟨hlt, -⟩ := List.getElem?_eq_some_iff.1 hj
  exact (List.set_perm_cons_eraseIdx hlt m').flatMap_right _

lemma otherOuts_subperm : (c.otherOuts j).Subperm c.pendingOuts :=
  (sublist_append_right _ _).subperm.trans (pendingOuts_perm hj).symm.subperm

lemma Orderly.setMerge (h : c.Orderly) {m' : Merge}
    (hpending : pending m' = pending m ∨ pending m' = []) :
    (c.withMerges (c.merges.set j m')).Orderly := by
  refine h.withMerges ((pendingOuts_set_perm hj m').subperm.trans ?_)
  obtain heq | heq := hpending
  · rw [heq]
    exact (pendingOuts_perm hj).symm.subperm
  · rw [heq]
    exact otherOuts_subperm hj

lemma Orderly.eraseMerge (h : c.Orderly) : (c.withMerges (c.merges.eraseIdx j)).Orderly :=
  h.withMerges (otherOuts_subperm hj)

/-- The swap: the outputs take the place of the inputs, for which every index has a graph. -/
lemma Orderly.swap (h : c.Orderly) (hpending : pending m = m.outs) {m' : Merge}
    (hdone : pending m' = [])
    (hfull : ∀ id ∈ m.inputs, ∀ n ∈ c.indexes, c.graph n id ≠ none) :
    ((c.swapSegments m).withMerges (c.merges.set j m')).Orderly := by
  have hset := pendingOuts_set_perm hj m'
  rw [hdone, nil_append] at hset
  have hold := pendingOuts_perm hj
  rw [hpending] at hold
  have hsplit : (c.sealed.filter (· ∈ m.inputs) ++ c.sealed.filter (· ∉ m.inputs)).Perm c.sealed := by
    have hperm := filter_append_perm (fun id => decide (id ∈ m.inputs)) c.sealed
    refine (Perm.of_eq ?_).trans hperm
    simp
  -- every segment stays in one place
  have hperm : (c.unmapped ++ c.sealed.filter (· ∈ m.inputs) ++
      (c.sealed.filter (· ∉ m.inputs) ++ m.outs ++
        (c.withMerges (c.merges.set j m')).pendingOuts)).Perm
      (c.unmapped ++ (c.sealed ++ c.pendingOuts)) := by
    rw [append_assoc, append_assoc, ← append_assoc (c.sealed.filter _)]
    exact (hsplit.append ((Perm.refl _).append hset |>.trans hold.symm)).append_left _
  have hgraph := c.graph_swapSegments m
  have hkept : ∀ {id}, id ∈ c.sealed → id ∉ m.inputs →
      id ∈ c.sealed.filter (· ∉ m.inputs) ++ m.outs := fun hid hnot =>
    mem_append_left _ (mem_filter.2 ⟨hid, by simpa using hnot⟩)
  refine ⟨hperm.nodup_iff.2 h.nodup, fun id hid => h.fresh id (hperm.mem_iff.1 hid),
    fun n id hg => ?_, h.tasks_nodup, fun t ht => ?_⟩
  · change (c.swapSegments m).graph n id ≠ none at hg
    rw [hgraph] at hg
    split at hg
    case isTrue => exact absurd rfl hg
    case isFalse hnot => exact hkept (h.graphs n id hg) hnot
  · obtain ⟨hreg, hseal, hnone⟩ := h.task t ht
    have hnot : t.2 ∉ m.inputs := fun hmem => hfull _ hmem _ hreg hnone
    refine ⟨(c.mem_indexes_swapSegments m _).2 hreg, hkept hseal hnot, ?_⟩
    exact (hgraph _ _).trans ((if_neg hnot).trans hnone)

end Merge

end Core

/-! ### Steps of the catalog -/

namespace Catalog

open Core

variable {dir : Bytes} {metric : Metric} {s s' : Catalog}

/-- An index is dropped or rebuilt only when none of its builds can install a graph any more. -/
def Quiet (s : Catalog) : Label → Prop
  | .drop name _ _ => ∀ b ∈ s.builds, b.name = name → b.phase = .ended
  | .rebuild name _ _ => ∀ b ∈ s.builds, b.name = name → b.phase = .ended
  | _ => True

instance (s : Catalog) : DecidablePred s.Quiet := fun l => by
  cases l <;> dsimp only [Quiet] <;> infer_instance

@[simp] lemma core_commit (ok : Bool) : (s.commit ok).core = s.core := by
  unfold commit
  split <;> rfl

/-- A loop that changes the files alone. -/
lemma exists_foldl_eq {α : Type*} {f : Catalog → α → Catalog}
    (hf : ∀ s a, ∃ files, f s a = { s with files := files }) (l : List α) (s : Catalog) :
    ∃ files, l.foldl f s = { s with files := files } := by
  induction l generalizing s with
  | nil => exact ⟨s.files, rfl⟩
  | cons a l ih =>
    obtain ⟨files, ha⟩ := hf s a
    rw [foldl_cons, ha]
    exact ih _

variable (dir) in
lemma exists_dropGraphFiles_eq (name : IndexName) (upTo : Option ℕ) (s : Catalog) :
    ∃ files, s.dropGraphFiles dir name upTo = { s with files := files } :=
  exists_foldl_eq (fun _ _ => ⟨_, rfl⟩) _ s

variable (dir) in
lemma exists_writeAll_eq (attr : Bool) (ids : List SegId) (s : Catalog) :
    ∃ files, ids.foldl (fun s id => s.writeRecords dir attr id) s = { s with files := files } :=
  exists_foldl_eq (fun _ _ => ⟨_, rfl⟩) ids s

lemma core_spawn (names : List IndexName) (segs : List SegId) :
    (s.spawn names segs).core = s.core.spawn names segs := rfl

lemma graph_ne_none_of_fullyIndexed {id : SegId} (h : s.fullyIndexed id) {n : IndexName}
    (hn : n ∈ s.indexes) : s.core.graph n id ≠ none := by
  have hall := all_eq_true.1 h n hn
  obtain ⟨vx, hvx⟩ := mem_iff_exists_lookup.1 hn
  rw [hvx, Option.all_some] at hall
  change (s.indexes.lookup n).bind _ ≠ none
  rw [hvx]
  exact Option.isSome_iff_ne_none.1 hall

/-- The store stays open or closed, and the control state is the old one or that of the new
segments. -/
def Recorded (s s' : Catalog) : Prop :=
  s'.closed = s.closed ∧
    (s'.manifest = s.manifest ∨ ∃ m, s'.manifest = some m ∧ m.segs = s'.sealed)

lemma Recorded.same (hclosed : s'.closed = s.closed) (hmanifest : s'.manifest = s.manifest) :
    s.Recorded s' :=
  ⟨hclosed, .inl hmanifest⟩

lemma Recorded.commit (h : s.Recorded s') (hsame : s'.manifest = s.manifest) (ok : Bool) :
    s.Recorded (s'.commit ok) := by
  cases ok with
  | false => exact .same h.1 hsame
  | true => exact ⟨h.1, .inr ⟨s'.snapshot, rfl, rfl⟩⟩

lemma orderly_sealLocked (h : s.core.Orderly) (attr written ok : Bool) :
    (s.sealLocked dir attr written ok).core.Orderly ∧
      s.Recorded (s.sealLocked dir attr written ok) := by
  unfold sealLocked
  split
  · exact ⟨h, .same rfl rfl⟩
  · have hadd := h.addSeg
    dsimp only
    split
    · exact ⟨hadd, .same rfl rfl⟩
    · refine ⟨?_, by split <;> exact ⟨rfl, .inr ⟨_, rfl, rfl⟩⟩⟩
      split
      · rw [core_commit]
        exact hadd
      · rw [core_spawn, core_commit]
        have hnot : s.nextSeg ∉ s.sealed := fun hmem =>
          lt_irrefl _ (h.fresh _ (mem_append_right _ (mem_append_left _ hmem)))
        refine hadd.spawn s.indexes.nodupKeys (nodup_singleton _) (fun n hn => hn) ?_ ?_
        · intro id hid
          exact mem_append_right _ hid
        · intro n hn id hid
          obtain rfl := mem_singleton.1 hid
          refine ⟨?_, fun ht => hnot (h.task _ ht).2.1⟩
          by_contra hg
          exact hnot (h.graphs n _ hg)

lemma nodup_sealed (h : s.core.Orderly) : s.sealed.Nodup :=
  (nodup_append'.1 h.nodup).2.1.sublist (sublist_append_left _ _)

variable {name : IndexName}

/-- An index of which no build is active is entered without graphs, and its builds start. -/
lemma orderly_setIndex (h : s.core.Orderly) (hname : ∀ t ∈ s.core.tasks, t.1 ≠ name) {vx : VIndex}
    (hvx : vx.graphs = ∅) :
    (s.setIndex name vx).core.Orderly ∧
      ((s.setIndex name vx).core.spawn [name] s.sealed).Orderly := by
  have hgraph : ∀ id, (s.setIndex name vx).core.graph name id = none := by
    intro id
    simp [graph, core, setIndex, hvx]
  have hset : (s.setIndex name vx).core.Orderly :=
    h.withIndexes hname (fun n hn => AList.lookup_insert_ne hn) hgraph
  refine ⟨hset, hset.spawn (nodup_singleton _) (nodup_sealed h) ?_ (fun id hid => hid) ?_⟩
  · intro n hn
    obtain rfl := mem_singleton.1 hn
    exact (AList.mem_insert _).2 (.inl rfl)
  · intro n hn id hid
    obtain rfl := mem_singleton.1 hn
    exact ⟨hgraph id, fun ht => hname _ ht rfl⟩

lemma orderly_createVectorIndex (h : s.core.Orderly) (name : IndexName) (cfg : VectorIndexConfig)
    (ok : Bool) : (s.createVectorIndex name cfg ok).core.Orderly ∧
      s.Recorded (s.createVectorIndex name cfg ok) := by
  unfold createVectorIndex
  split
  · exact ⟨h, .same rfl rfl⟩
  · split
    · exact ⟨h, .same rfl rfl⟩
    case isFalse hnew =>
      split
      · exact ⟨h, .same rfl rfl⟩
      · have hname : ∀ t ∈ s.core.tasks, t.1 ≠ name := by
          rintro t ht rfl
          exact hnew (.inl (h.task t ht).1)
        exact ⟨(orderly_setIndex h hname rfl).2, rfl, .inr ⟨_, rfl, rfl⟩⟩

/-- No task of an index is left if its builds have ended. -/
lemma ne_of_mem_tasks (hquiet : ∀ b ∈ s.builds, b.name = name → b.phase = .ended) :
    ∀ t ∈ s.core.tasks, t.1 ≠ name := by
  rintro t ht rfl
  obtain ⟨b, hb, rfl⟩ := mem_map.1 ht
  obtain ⟨hb, hactive⟩ := mem_filter.1 hb
  simp [Build.active, hquiet b hb rfl] at hactive

lemma orderly_dropVectorIndex (h : s.core.Orderly)
    (hquiet : ∀ b ∈ s.builds, b.name = name → b.phase = .ended) (upTo : Option ℕ) (ok : Bool) :
    (s.dropVectorIndex dir name upTo ok).core.Orderly ∧
      s.Recorded (s.dropVectorIndex dir name upTo ok) := by
  unfold dropVectorIndex
  split
  · exact ⟨h, .same rfl rfl⟩
  · dsimp only
    obtain ⟨files, hfiles⟩ := exists_dropGraphFiles_eq dir name upTo
      { s with indexes := s.indexes.erase name }
    rw [core_commit, hfiles]
    refine ⟨?_, Recorded.commit (.same rfl rfl) rfl _⟩
    refine h.withIndexes (ne_of_mem_tasks hquiet) (fun n hn => AList.lookup_erase_ne hn) fun id => ?_
    simp [graph, withIndexes]

lemma orderly_rebuildVectorIndex (h : s.core.Orderly)
    (hquiet : ∀ b ∈ s.builds, b.name = name → b.phase = .ended) (upTo : Option ℕ) (ok : Bool) :
    (s.rebuildVectorIndex dir name upTo ok).core.Orderly ∧
      s.Recorded (s.rebuildVectorIndex dir name upTo ok) := by
  have hname := ne_of_mem_tasks hquiet
  unfold rebuildVectorIndex
  split
  · exact ⟨h, .same rfl rfl⟩
  case h_2 vx hvx =>
    split
    · exact ⟨h, .same rfl rfl⟩
    · obtain ⟨hset, hspawn⟩ := @orderly_setIndex s name h hname { vx with graphs := ∅ } rfl
      obtain ⟨files, hfiles⟩ := exists_dropGraphFiles_eq dir name upTo
        (s.setIndex name { vx with graphs := ∅ })
      dsimp only
      rw [hfiles]
      split
      · exact ⟨hspawn, rfl, .inr ⟨_, rfl, rfl⟩⟩
      · exact ⟨hset, .same rfl rfl⟩

/-- What one step of a build does to its phase, its index and the core. -/
lemma core_stepBuild {i : ℕ} {ok : Bool} (h : s.stepBuild dir i ok = some s') :
    s.Recorded s' ∧ ∃ b, s.builds[i]? = some b ∧
      ((∃ phase, (phase ≠ .ended → b.active) ∧
        s'.core = s.core.withBuilds (s.builds.set i { b with phase := phase })) ∨
      (∃ vx bi, b.active ∧ s.indexes.lookup b.name = some vx ∧
        s'.core = (s.core.withBuilds (s.builds.set i { b with phase := .ended })).withIndexes
          (s.indexes.insert b.name { vx with graphs := vx.graphs.insert b.seg bi })) ∨
      s'.core = s.core.withBuilds (s.builds.eraseIdx i)) := by
  unfold stepBuild at h
  obtain ⟨b, hb, h⟩ := Option.bind_eq_some_iff.1 h
  have hactive : ∀ {phase}, b.phase = phase → phase ≠ .ended → b.active := by
    rintro _ rfl hne
    exact decide_eq_true hne
  dsimp only at h
  split at h
  case h_1 hphase | h_2 hphase | h_3 hphase | h_4 hphase =>
    split at h <;> obtain rfl := Option.some.inj h <;>
      exact ⟨.same rfl rfl, b, hb, .inl ⟨_, fun _ => hactive hphase (by simp), rfl⟩⟩
  case h_5 bi hphase =>
    split at h
    case h_1 =>
      split at h <;> obtain rfl := Option.some.inj h <;>
        exact ⟨.same rfl rfl, b, hb, .inl ⟨.ended, fun _ => hactive hphase (by simp), rfl⟩⟩
    case h_2 vx hvx =>
      cases h
      exact ⟨Recorded.commit (.same rfl rfl) rfl ok, b, hb,
        .inr (.inl ⟨vx, bi, hactive hphase (by simp), hvx, core_commit _⟩)⟩
  case h_6 =>
    cases h
    exact ⟨.same rfl rfl, b, hb, .inr (.inr rfl)⟩

lemma orderly_stepBuild (h : s.core.Orderly) {i : ℕ} {ok : Bool}
    (hstep : s.stepBuild dir i ok = some s') : s'.core.Orderly ∧ s.Recorded s' := by
  obtain ⟨hrec, b, hb, ⟨phase, hphase, hcore⟩ | ⟨vx, bi, hactive, hvx, hcore⟩ | hcore⟩ :=
    core_stepBuild hstep
  all_goals refine ⟨?_, hrec⟩
  · rw [hcore]
    exact Orderly.setBuild (b := b) hb h rfl rfl fun hb' => hphase (of_decide_eq_true hb')
  · rw [hcore]
    exact h.install hb hactive hvx bi rfl
  · rw [hcore]
    exact h.eraseBuild hb

/-- What one step of a merge does to the core. -/
lemma core_stepMerge {j : ℕ} {attr ok : Bool} (h : s.stepMerge dir j attr ok = some s') :
    s.Recorded s' ∧ ∃ m, s.merges[j]? = some m ∧
      ((∃ m', (pending m' = pending m ∨ pending m' = []) ∧
        s'.core = s.core.withMerges (s.merges.set j m')) ∨
      (∃ m', pending m = m.outs ∧ pending m' = [] ∧ m.inputs.all s.fullyIndexed ∧
        (s'.core = (s.core.swapSegments m).withMerges (s.merges.set j m') ∨
        s'.core = ((s.core.swapSegments m).withMerges (s.merges.set j m')).spawn
          (s.core.swapSegments m).indexes.keys m.outs)) ∨
      s'.core = s.core.withMerges (s.merges.eraseIdx j)) := by
  unfold stepMerge at h
  obtain ⟨m, hm, h⟩ := Option.bind_eq_some_iff.1 h
  dsimp only at h
  split at h
  case h_1 hphase =>
    split at h <;> obtain rfl := Option.some.inj h
    · obtain ⟨files, hfiles⟩ := exists_writeAll_eq dir attr m.outs s
      rw [hfiles]
      exact ⟨.same rfl rfl, m, hm,
        .inl ⟨{ m with phase := .written }, .inl (by simp [pending, hphase]), rfl⟩⟩
    · exact ⟨.same rfl rfl, m, hm, .inl ⟨_, .inr rfl, rfl⟩⟩
  case h_2 hphase =>
    split at h
    case isTrue hfull =>
      split at h <;> obtain rfl := Option.some.inj h
      · exact ⟨⟨rfl, .inr ⟨_, rfl, rfl⟩⟩, m, hm, .inr (.inl
          ⟨{ m with phase := .swapped }, by simp [pending, hphase], rfl, hfull, .inr rfl⟩)⟩
      · exact ⟨.same rfl rfl, m, hm, .inr (.inl
          ⟨{ m with phase := .ended }, by simp [pending, hphase], rfl, hfull, .inl rfl⟩)⟩
    case isFalse =>
      cases h
      exact ⟨.same rfl rfl, m, hm, .inl ⟨_, .inr rfl, rfl⟩⟩
  case h_3 =>
    cases h
    exact ⟨.same rfl rfl, m, hm, .inl ⟨_, .inr rfl, rfl⟩⟩
  case h_4 =>
    cases h
    exact ⟨.same rfl rfl, m, hm, .inr (.inr rfl)⟩

lemma orderly_stepMerge (h : s.core.Orderly) {j : ℕ} {attr ok : Bool}
    (hstep : s.stepMerge dir j attr ok = some s') : s'.core.Orderly ∧ s.Recorded s' := by
  obtain ⟨hrec, m, hm, ⟨m', hpending, hcore⟩ | ⟨m', houts, hdone, hfull, hcore⟩ | hcore⟩ :=
    core_stepMerge hstep
  all_goals refine ⟨?_, hrec⟩
  · rw [hcore]
    exact h.setMerge hm hpending
  · have hswap := h.swap hm houts hdone fun id hid n hn =>
      graph_ne_none_of_fullyIndexed (all_eq_true.1 hfull id hid) hn
    obtain hcore | hcore := hcore
    · rw [hcore]
      exact hswap
    · rw [hcore]
      -- the outputs were in no place before
      have hpending : ∀ id ∈ m.outs, id ∈ s.core.pendingOuts := fun id hid =>
        (pendingOuts_perm hm).mem_iff.2 (mem_append_left _ (houts ▸ hid))
      have hdisj := disjoint_of_nodup_append (nodup_append'.1 h.nodup).2.1
      have hnodup : m.outs.Nodup := by
        have hnodup := (nodup_append'.1 (nodup_append'.1 h.nodup).2.1).2.1
        rw [(pendingOuts_perm hm).nodup_iff, houts] at hnodup
        exact (nodup_append'.1 hnodup).1
      refine hswap.spawn (AList.nodupKeys _) hnodup (fun n hn => hn)
        (fun id hid => mem_append_right _ hid) fun n hn id hid => ⟨?_, fun ht => ?_⟩
      · change (s.core.swapSegments m).graph n id = none
        rw [graph_swapSegments]
        split
        · rfl
        · by_contra hg
          exact hdisj (h.graphs n id hg) (hpending id hid)
      · exact hdisj (h.task _ ht).2.1 (hpending id hid)
  · rw [hcore]
    exact h.eraseMerge hm

/-! ### Recovery -/

lemma lt_nextSeg {segs : List ℕ} {next : ℕ} :
    (∀ id ∈ segs, id < segs.foldl (fun next id => if next ≤ id then id + 1 else next) next) ∧
      next ≤ segs.foldl (fun next id => if next ≤ id then id + 1 else next) next := by
  induction segs generalizing next with
  | nil => simp
  | cons id segs ih =>
    obtain ⟨hsegs, hnext⟩ := @ih (if next ≤ id then id + 1 else next)
    rw [foldl_cons, forall_mem_cons]
    have hid : id < (if next ≤ id then id + 1 else next) ∧
        next ≤ if next ≤ id then id + 1 else next := by
      split <;> omega
    exact ⟨⟨hid.1.trans_le hnext, hsegs⟩, hid.2.trans hnext⟩

lemma orderly_init (files : Files) : (Catalog.init metric files).core.Orderly := by
  refine ⟨nodup_nil, by simp [core, Catalog.init, pendingOuts], fun n id hg => ?_,
    nodup_nil, by simp [core, Catalog.init, tasks]⟩
  refine absurd ?_ hg
  change ((defaultIndexes metric).lookup n).bind _ = none
  rw [defaultIndexes, lookup_insert_if]
  split <;> rfl

/-- The graphs that recovery opens are graphs of the segments it has opened. -/
lemma mem_of_lookup_reopenIndex {files : Files} {readable : IndexName → SegId → Bool}
    {n : IndexName} {e : IndexEntry} {id : SegId} {bi : BuiltIndex}
    (h : (reopenIndex dir files segs readable n e).graphs.lookup id = some bi) :
    id ∈ segs ∧ reopenGraph dir files (readable n id) n e id = some bi := by
  unfold reopenIndex at h
  dsimp only at h
  induction segs using reverseRecOn with
  | nil => cases h
  | append_singleton segs id' ih =>
    rw [foldl_append, foldl_cons, foldl_nil] at h
    split at h
    case h_1 bi' hbi =>
      rw [lookup_insert_if] at h
      split at h
      case isTrue heq =>
        subst heq
        exact ⟨by simp, hbi.trans h⟩
      case isFalse =>
        obtain ⟨hmem, hopen⟩ := ih h
        exact ⟨mem_append_left _ hmem, hopen⟩
    case h_2 =>
      obtain ⟨hmem, hopen⟩ := ih h
      exact ⟨mem_append_left _ hmem, hopen⟩

lemma mem_pendingBuilds {t : IndexName × SegId} :
    t ∈ pendingBuilds indexes segs ↔
      t.1 ∈ indexes ∧ t.2 ∈ segs ∧
        ((indexes.lookup t.1).bind fun vx => vx.graphs.lookup t.2) = none := by
  have hall : ∀ n id, ((indexes.lookup n).all fun vx => (vx.graphs.lookup id).isNone) = true ↔
      ((indexes.lookup n).bind fun vx => vx.graphs.lookup id) = none := by
    intro n id
    cases indexes.lookup n <;> simp
  obtain ⟨n, id⟩ := t
  simp only [pendingBuilds, mem_flatMap, mem_map, mem_filter, hall, Prod.mk.injEq]
  constructor
  · rintro ⟨n, hn, id, ⟨hid, hnone⟩, rfl, rfl⟩
    exact ⟨hn, hid, hnone⟩
  · rintro ⟨hn, hid, hnone⟩
    exact ⟨n, hn, id, ⟨hid, hnone⟩, rfl, rfl⟩

lemma nodup_pendingBuilds (hsegs : segs.Nodup) : (pendingBuilds indexes segs).Nodup := by
  refine nodup_flatMap.2 ⟨fun n _ => ?_, indexes.nodupKeys.imp fun {n n'} hne => ?_⟩
  · exact (hsegs.filter _).map fun a b hab => (Prod.mk.inj hab).2
  · intro t ht ht'
    obtain ⟨id, -, rfl⟩ := mem_map.1 ht
    obtain ⟨id', -, heq⟩ := mem_map.1 ht'
    exact hne (Prod.mk.inj heq).1.symm

lemma orderly_recover (hmanifest : ∀ m ∈ s.manifest, m.segs.Nodup)
    (readable : IndexName → SegId → Bool) : (s.recover dir metric readable).core.Orderly := by
  unfold recover
  split
  · exact orderly_init _
  case h_2 m hm =>
    have hsegs := hmanifest m hm
    dsimp only
    generalize hindexes : reopenIndexes dir metric m (sweepOrphans dir m s.files) readable = indexes
    have htasks : ((((pendingBuilds indexes m.segs).map fun p =>
        (⟨p.1, p.2, .queued⟩ : Build)).filter Build.active).map fun b => (b.name, b.seg)) =
          pendingBuilds indexes m.segs := by
      rw [filter_eq_self.2, map_map]
      · exact map_id _
      · intro b hb
        obtain ⟨p, -, rfl⟩ := mem_map.1 hb
        rfl
    refine ⟨?_, ?_, ?_, ?_, ?_⟩
    · simpa [core, pendingOuts] using hsegs
    · intro id hid
      exact lt_nextSeg.1 id (by simpa [core, pendingOuts] using hid)
    · intro n id hg
      obtain ⟨bi, hbi⟩ := Option.ne_none_iff_exists'.1 hg
      obtain ⟨vx, hvx, hbi⟩ := Option.bind_eq_some_iff.1 hbi
      change indexes.lookup n = some vx at hvx
      rw [← hindexes, reopenIndexes] at hvx
      split at hvx
      · rw [defaultIndexes, lookup_insert_if] at hvx
        split at hvx
        · cases hvx
          cases hbi
        · cases hvx
      · rw [lookup_mapValues] at hvx
        obtain ⟨e, -, rfl⟩ := Option.map_eq_some_iff.1 hvx
        exact (mem_of_lookup_reopenIndex hbi).1
    · rw [tasks, core, htasks]
      exact nodup_pendingBuilds hsegs
    · intro t ht
      rw [tasks, core, htasks] at ht
      exact mem_pendingBuilds.1 ht

/-! ### Runs -/

/-- What holds in every state of a quiet run. -/
structure Sound (s : Catalog) : Prop where
  orderly : s.closed = false → s.core.Orderly
  idle : s.closed = true → s.builds = []
  segs : ∀ m ∈ s.manifest, m.segs.Nodup

/-- A step of an open store keeps the order and, unless it closes the store, leaves a record. -/
lemma stepOpen_orderly (h : s.core.Orderly) {l : Label} (hquiet : s.Quiet l)
    (hstep : s.stepOpen dir l = some s') :
    s'.core.Orderly ∧ s.Recorded s' ∨ s'.closed ∧ s'.builds = [] ∧ s'.manifest = s.manifest := by
  cases l with
  | sealHead attr written ok =>
    exact .inl (Option.some.inj hstep ▸ orderly_sealLocked h attr written ok)
  | create name cfg ok =>
    exact .inl (Option.some.inj hstep ▸ orderly_createVectorIndex h name cfg ok)
  | drop name upTo ok =>
    exact .inl (Option.some.inj hstep ▸ orderly_dropVectorIndex h hquiet upTo ok)
  | rebuild name upTo ok =>
    exact .inl (Option.some.inj hstep ▸ orderly_rebuildVectorIndex h hquiet upTo ok)
  | build i ok => exact .inl (orderly_stepBuild h hstep)
  | plan inputs n =>
    change s.planMerge inputs n = some s' at hstep
    unfold planMerge at hstep
    split at hstep
    · exact .inl (Option.some.inj hstep ▸ ⟨h.plan inputs n, .same rfl rfl⟩)
    · cases hstep
  | merge j attr ok => exact .inl (orderly_stepMerge h hstep)
  | beginClose => exact .inl (Option.some.inj hstep ▸ ⟨h, .same rfl rfl⟩)
  | finishClose =>
    change s.finishClose = some s' at hstep
    unfold finishClose at hstep
    split at hstep
    case isFalse => cases hstep
    case isTrue hidle => exact .inr (Option.some.inj hstep ▸ ⟨rfl, hidle.2.1, rfl⟩)
  | restart readable => cases hstep

lemma Sound.step (h : s.Sound) {l : Label} (hquiet : s.Quiet l)
    (hstep : s.step dir metric l = some s') : s'.Sound := by
  obtain ⟨readable, rfl, rfl⟩ | ⟨hclosed, hstep⟩ := step_cases hstep
  · have horderly := @orderly_recover dir metric s h.segs readable
    refine ⟨fun _ => horderly, fun hc => ?_, fun m hm => ?_⟩
    · unfold recover at hc
      split at hc <;> cases hc
    · unfold recover at hm
      split at hm
      · cases hm
      case h_2 m' hm' => exact h.segs m (Option.some.inj hm ▸ hm')
  · obtain ⟨horderly, hsame, hrec⟩ | ⟨hclosed', hbuilds, hmanifest⟩ :=
      stepOpen_orderly (h.orderly hclosed) hquiet hstep
    · refine ⟨fun _ => horderly, fun hc => ?_, fun m hm => ?_⟩
      · rw [hsame, hclosed] at hc
        cases hc
      · obtain hrec | ⟨m', hrec, hsegs⟩ := hrec
        · exact h.segs m (hrec ▸ hm)
        · obtain rfl := Option.some.inj (hrec.symm.trans hm)
          rw [hsegs]
          exact nodup_sealed horderly
    · exact ⟨fun hc => absurd hclosed' (by simp [hc]), fun _ => hbuilds, hmanifest ▸ h.segs⟩

/-- **Builds never outlive their segment.** In every run in which an index is dropped or rebuilt
only while none of its builds is on its way, no segment is unmapped that a build has still to read. -/
theorem reading_mapped {files : Files} {ls : List Label}
    (hrun : StepSystem.Run (Catalog.step dir metric) Quiet (.init metric files) ls s) :
    ∀ b ∈ s.builds, b.Reading → b.seg ∉ s.unmapped := by
  have hsound : s.Sound := StepSystem.Run.invariant (I := fun _ s => s.Sound)
    ⟨fun _ => orderly_init files, fun hc => (by cases hc), fun m hm => (by cases hm)⟩
    (fun h hok hstep => h.step hok hstep) hrun
  intro b hb hreading
  cases hclosed : s.closed with
  | true =>
    rw [hsound.idle hclosed] at hb
    cases hb
  | false => exact (hsound.orderly hclosed).mapped hb hreading.active

/-- The five steps of the first build of the list, up to the graph it installs. -/
private def buildToEnd (i : ℕ) : List Label := List.replicate 5 (.build i true)

private def sideIndex : VectorIndexConfig := ⟨hnsw, .euclidean, 0, 0, 0⟩

private def store : Catalog := .init .cosine ∅

/-- A segment gets its graphs in two indexes, one of them is dropped, and a merge replaces the
segment. -/
private def dropThenMerge : List Label :=
  [.sealHead false true true, .create (Bytes.ofAscii "x") sideIndex true] ++ buildToEnd 0 ++
    buildToEnd 1 ++ [.drop (Bytes.ofAscii "x") none true, .plan [1] 1, .merge 0 false true,
      .merge 0 false true]

theorem reading_mapped_dropThenMerge : ∃ s,
    StepSystem.Run (Catalog.step (Bytes.ofAscii "s") .cosine) Quiet store dropThenMerge s ∧
      s.unmapped = [1] ∧ (∃ b ∈ s.builds, b.Reading) ∧
      ∀ b ∈ s.builds, b.Reading → b.seg ∉ s.unmapped := by
  refine StepSystem.Run.exists_of_exec_imp (fun s => s.unmapped = [1] ∧
    ∃ b ∈ s.builds, b.Reading) (by decide +kernel) fun s hrun h => ?_
  exact ⟨h.1, h.2, reading_mapped hrun⟩

/-- The index is dropped while its build reads the segment, and the merge does not wait for it. -/
private def dropWhileReading : List Label :=
  [.sealHead false true true, .create (Bytes.ofAscii "x") sideIndex true] ++ buildToEnd 0 ++
    [.build 1 true, .drop (Bytes.ofAscii "x") none true, .plan [1] 1, .merge 0 false true,
      .merge 0 false true]

theorem reading_unmapped : ∃ s,
    StepSystem.Run (Catalog.step (Bytes.ofAscii "s") .cosine) (fun _ _ => True) store
        dropWhileReading s ∧
      ∃ b ∈ s.builds, b.Reading ∧ b.seg ∈ s.unmapped :=
  StepSystem.Run.exists_of_exec (by decide +kernel)

/-- **Segments, graphs and builds stay in order** in every such run while the store is open. -/
theorem orderly_run {files : Files} {ls : List Label}
    (hrun : StepSystem.Run (Catalog.step dir metric) Quiet (.init metric files) ls s)
    (hopen : s.closed = false) : s.core.Orderly := by
  have hsound : s.Sound := hrun.invariant (I := fun _ s => s.Sound)
    ⟨fun _ => orderly_init files, fun hc => (by cases hc), fun m hm => (by cases hm)⟩
    fun h hok hstep => h.step hok hstep
  exact hsound.orderly hopen

theorem orderly_run_dropThenMerge : ∃ s,
    StepSystem.Run (Catalog.step (Bytes.ofAscii "s") .cosine) Quiet store dropThenMerge s ∧
      s.unmapped = [1] ∧ s.core.Orderly :=
  StepSystem.Run.exists_of_exec_imp (fun s => s.unmapped = [1] ∧ s.closed = false)
    (by decide +kernel) fun _ hrun h => ⟨h.1, orderly_run hrun h.2⟩

end Catalog

end Haystack.VectorStore
