import Haystack.InvertedStore.Crash

/-!
# Runs with crashes and failed writes

A store and its directory, through any sequence of tasks, deaths of the process and reopens, in
which no failure is of the kind that is not handled. The directory always holds the live set, so
that every writer is safe in every state reached, exactly if its own failure is handled.
-/

namespace Haystack.InvertedStore

open Faulty Option

variable {opts : Options} {s s' : Store} {d d' : Disk} {path : SegPath} {f : Faults} {l : Label}
  {e : SpillEntry}

/-! ### Temporary files -/

section Temps

variable {f : Faults} {P : Disk → Prop}

lemma returns_writeManifestBytes {man : Manifest}
    (hP : ∀ d m m', P d → P { d with manifest := m, manifestTmp := m' }) :
    Returns (writeManifestBytes f man) P fun _ => P := by
  refine Returns.untilError fun x hx => ?_
  simp only [List.mem_cons, List.not_mem_nil, or_false] at hx
  rcases hx with rfl | rfl | rfl | rfl | rfl | rfl
  all_goals exact Returns.attempt (fun d h => hP d _ _ h) fun d h => h

lemma returns_writeSegment {put : Option SegFile → Disk → Disk} {x : SegFile}
    (hP : ∀ d, P d → P (put none d)) (hP' : ∀ d, P d → P (put (some x) d)) :
    Returns (writeSegment f put x) P fun _ => P := by
  refine Returns.bind (Returns.attempt (Q := fun _ => P) hP fun _ => id) fun ok => ?_
  split
  · exact Returns.bind (Returns.attempt (Q := fun _ => P) hP' fun _ => id)
      fun _ => Returns.pure fun _ => id
  · exact Returns.die

lemma returns_unlinkInputs (hP : ∀ d i, P d → P (d.removeSeg i)) (ids : List ℕ) :
    Returns (unlinkInputs f ids) P fun _ => P := by
  induction ids with
  | nil => exact Returns.pure fun _ => id
  | cons i ids ih =>
    exact Returns.bind (Returns.attempt (Q := fun _ => P) (fun d => hP d i) fun _ => id) fun _ => ih

variable {files : GoMap ℕ (Option SegFile)}

lemma tempFiles_spillFiles (t : TableId) :
    Returns (s.spillFiles opts f t) (fun d => d.tempFiles = files)
      fun _ d => d.tempFiles = files := by
  unfold Store.spillFiles
  dsimp only
  split
  · exact Returns.pure fun _ => id
  · refine Returns.bind (returns_writeSegment (fun _ => id) fun _ => id) fun _ => ?_
    refine Returns.bind (returns_writeManifestBytes fun _ _ _ => id) fun ok => ?_
    split <;> exact Returns.pure fun _ => id

lemma tempFiles_installMergeFiles (p : MergePlan) :
    Returns (s.installMergeFiles opts f p) (fun d => d.tempFiles = files)
      fun _ d => d.tempFiles = files := by
  unfold Store.installMergeFiles
  split
  · exact Returns.die
  · refine Returns.bind (returns_writeSegment (fun _ => id) fun _ => id) fun _ => ?_
    refine Returns.bind (returns_writeManifestBytes fun _ _ _ => id) fun ok => ?_
    split
    · exact Returns.bind (returns_unlinkInputs (fun _ _ => id) _) fun _ => Returns.pure fun _ => id
    · exact Returns.bind (Returns.attempt (Q := fun _ d => d.tempFiles = files) (fun _ => id)
        fun _ => id) fun _ => Returns.pure fun _ => id

section Install

variable {e : SpillEntry}

lemma spillFile_putTemp {y : Option SegFile}
    (hy : ∀ x ∈ y, x = (encodeHeadToFile opts e.head e.tableId 0).file) (d : Disk) :
    SpillFile opts e (d.putTemp e.tempN y) := by
  intro x hx
  rw [Disk.putTemp, AList.lookup_insert] at hx
  exact hy x (some.inj hx)

/-- The temporary file and the file with the final name, if complete, are the encoding. -/
def SpillMoved (opts : Options) (e : SpillEntry) (id : ℕ) (d : Disk) : Prop :=
  SpillFile opts e d ∧ ∀ x, d.segFiles.lookup id = some (some x) →
    x = (encodeHeadToFile opts e.head e.tableId 0).file

lemma returns_encodeSpillFiles (n : ℕ) :
    Returns (Store.encodeSpillFiles opts f e n) (fun d => n ≠ 0 → SpillFile opts e d)
      fun _ => SpillFile opts e := by
  unfold Store.encodeSpillFiles
  split
  case isTrue hn =>
    intro d u d' _ hrun
    obtain ⟨-, hw⟩ | ⟨-, hw | hw⟩ := writeSegment_cases f d (fun x d => d.putTemp e.tempN x)
      (encodeHeadToFile opts e.head e.tableId 0).file
    · cases hw.symm.trans hrun
      split
      · exact spillFile_putTemp (by simp) d
      · exact spillFile_putTemp (by simp) _
    · cases hw.symm.trans hrun
    · cases hw.symm.trans hrun
  case isFalse hn => exact Returns.pure fun _ hd => hd hn

lemma returns_renameSegmentFile (id : ℕ) :
    Returns (renameSegmentFile f e.tempN id) (SpillFile opts e)
      fun ok d => if ok then SpillMoved opts e id d else SpillFile opts e d := by
  intro d ok d' hd hrun
  by_cases hr : d.tempFiles.lookup e.tempN ≠ none ∧ f .segRename = .ok
  · rw [Store.renameSegmentFile_ok hr.1 hr.2] at hrun
    cases hrun
    obtain ⟨y, hy⟩ := ne_none_iff_exists'.1 hr.1
    simp only [if_true, Disk.moveToFinal, hy]
    refine ⟨fun x hx => ?_, fun x hx => ?_⟩
    · simp at hx
    · rw [AList.lookup_insert] at hx
      exact hd x (hy.trans hx)
  · obtain hm | hm := Store.renameSegmentFile_of_not id hr
    · cases hm.symm.trans hrun
      exact hd
    · cases hm.symm.trans hrun

lemma returns_renameBack (id : ℕ) :
    Returns (attempt (f .renameBack) (fun d => d.moveToTemp id e.tempN) fun d => d)
      (SpillMoved opts e id) fun _ => SpillFile opts e := by
  refine Returns.attempt (fun d hd => ?_) fun d hd => hd.1
  unfold Disk.moveToTemp
  split
  case h_1 y hy => exact spillFile_putTemp (fun x hx => hd.2 x (by rw [hy, hx])) d
  case h_2 => exact hd.1

/-- A failed install leaves a temporary file that is complete only if it is the encoding. -/
lemma spillFile_installSpillFiles (n : ℕ) :
    Returns (s.installSpillFiles opts f e n) (fun d => n ≠ 0 → SpillFile opts e d)
      fun w d => w.ok = false → SpillFile opts e d := by
  refine Returns.bind (returns_encodeSpillFiles n) fun _ =>
    Returns.bind (returns_renameSegmentFile _) fun ok => ?_
  cases ok with
  | false => exact Returns.pure fun _ hd _ => hd
  | true =>
    refine Returns.bind (returns_writeManifestBytes fun _ _ _ hd => hd) fun ok => ?_
    cases ok with
    | true => exact Returns.pure fun _ _ => by simp
    | false => exact Returns.bind (returns_renameBack _) fun _ => Returns.pure fun _ hd _ => hd

end Install

end Temps

/-! ### Tasks -/

/-- Steps that leave the segments and their ids alone. -/
lemma PlanFits.congr {p : MergePlan} (h : PlanFits s p) (hsegs : s'.segs = s.segs)
    (hnext : s.man.nextSegId ≤ s'.man.nextSegId) : PlanFits s' p :=
  ⟨h.inputs_lt, h.out_lt.trans_le hnext, hsegs ▸ h.out_new, h.wf⟩

/-- A new segment with the next id lies above the id reserved for a merge. -/
lemma PlanFits.append {p : MergePlan} (h : PlanFits s p) (seg : Segment)
    (hsegs : ∀ x ∈ s'.segs, x ∈ s.segs ∨ x = seg) (hid : seg.id = s.man.nextSegId)
    (hnext : s.man.nextSegId ≤ s'.man.nextSegId) : PlanFits s' p := by
  refine ⟨h.inputs_lt, h.out_lt.trans_le hnext, fun x hx => ?_, h.wf⟩
  rcases hsegs x hx with hx | rfl
  exacts [h.out_new x hx, hid ▸ h.out_lt.ne']

namespace Running

lemma spill (h : Running opts s) (t : TableId) : Running opts (s.spill opts t) := by
  have hgate := Store.gate_spill h.gate t
  obtain heq | ⟨x, hl, heq⟩ := Store.spill_cases opts s t
  · rwa [heq]
  · rw [heq] at hgate ⊢
    exact ⟨hgate, h.heads.spilled hl, fun p hp => (h.plan p hp).append
      (encodeHeadToFile opts x t s.man.nextSegId) (by simp [Store.spilled]) rfl
      (Nat.le_succ _)⟩

lemma publishSpill (h : Running opts s) (e : SpillEntry) : Running opts (s.publishSpill opts e) := by
  refine ⟨h.gate.of_unchanged rfl rfl rfl rfl .inl, ⟨h.heads.head, h.heads.spilling⟩,
    fun p hp => (h.plan p hp).append
      (encodeHeadToFile opts e.head e.tableId s.man.nextSegId) (fun x hx => ?_) rfl
      (Nat.le_succ _)⟩
  simpa [Store.publishSpill, Store.sortSegmentsById, StableSort.mem_sortBy] using hx

lemma swapMerged (h : Running opts s) (ids : List ℕ) (res : MergeResult) :
    Running opts (s.swapMerged ids res) :=
  ⟨h.gate.of_unchanged rfl rfl rfl rfl .inl, ⟨h.heads.head, h.heads.spilling⟩,
    by simp [Store.swapMerged]⟩

lemma dropPlan (h : Running opts s) : Running opts { s with plan := none } :=
  ⟨h.gate.of_unchanged rfl rfl rfl rfl .inl, ⟨h.heads.head, h.heads.spilling⟩, by simp⟩

/-- The end of a spill: nothing is in flight, or a head that is yet to be encoded. -/
lemma endSpill (h : Running opts s) {i : ℕ} {n : ℕ} (hd : s.dispatches[i]? = some (e, n))
    {next : Option TableId} (hs : s.endSpill opts i e next = some s') (d : Disk) :
    Working opts s' d ∧ s'.segs = s.segs ∧ s'.man = s.man := by
  obtain ⟨rfl, hb⟩ := h.gate.busy_of_dispatch hd
  have hgate := (Store.gate_endSpill hb.spilling hb.erase hs).1
  obtain ⟨rfl, -⟩ | ⟨t, x, hl, -, rfl⟩ := Store.endSpill_cases hb.spilling hb.erase hs
  · exact ⟨⟨⟨hgate, ⟨h.heads.head, by simp [Store.ended]⟩,
      fun p hp => (h.plan p hp).congr rfl le_rfl⟩, by simp [Store.ended]⟩, rfl, rfl⟩
  · have hheads : Store.HeadsOk s.ended := ⟨h.heads.head, by simp [Store.ended]⟩
    exact ⟨⟨⟨hgate, hheads.detachHead (h.heads.head hl).1,
      fun p hp => (h.plan p hp).congr rfl le_rfl⟩,
      by simp [Store.ended, Store.detachHead]⟩, rfl, rfl⟩

end Running

/-- The steps of a process that touch neither the segments nor the files. -/
structure Keeps (opts : Options) (s s' : Store) (d : Disk) : Prop where
  working : Working opts s' d
  segs : s'.segs = s.segs
  metas : s'.man.segments = s.man.segments
  next : s.man.nextSegId ≤ s'.man.nextSegId

/-- A failed attempt leaves the head detached. -/
lemma Running.failInstall (h : Running opts s) {i : ℕ} {n : ℕ} (hd : s.dispatches[i]? = some (e, n))
    (hs : s.failInstall opts i = some s') (hfile : SpillFile opts e d) : Keeps opts s s' d := by
  have hgate := Store.gate_step h.gate (l := .failInstall i) hs
  obtain ⟨rfl, hb⟩ := h.gate.busy_of_dispatch hd
  obtain ⟨e', n', hd', -, rfl⟩ := Store.failInstall_cases hs
  obtain ⟨rfl, rfl⟩ : e = e' ∧ n = n' := by simpa using hd.symm.trans hd'
  refine ⟨⟨⟨hgate, ⟨h.heads.head, h.heads.spilling⟩, fun p hp => (h.plan p hp).congr rfl le_rfl⟩,
    fun {e₁ n₁} he _ => ?_⟩, rfl, rfl, le_rfl⟩
  obtain ⟨rfl, -⟩ : e₁ = e ∧ n₁ = n + 1 := by simpa [hb.dispatches] using he
  exact hfile

namespace Working

lemma applyOneOp (h : Working opts s d) {op : UpdateOp} (hop : op.Valid) (old : List Keyword) :
    Working opts (s.applyOneOp opts op old) d := by
  have hgate := h.gate.applyOneOp op old
  have hheads := h.heads.post hop old
  unfold Store.applyOneOp at hgate ⊢
  obtain heq | heq | ⟨hf, heq⟩ := Store.relieve_cases opts (s.post op old) op.tableId <;>
    rw [heq] at hgate ⊢
  · exact ⟨⟨hgate, hheads, fun p hp => (h.plan p hp).congr rfl le_rfl⟩, h.temps⟩
  · exact ⟨⟨hgate, ⟨hheads.head, hheads.spilling⟩, fun p hp => (h.plan p hp).congr rfl le_rfl⟩,
      h.temps⟩
  · refine ⟨⟨hgate, hheads.detachHead hop.2, fun p hp => (h.plan p hp).congr rfl le_rfl⟩,
      fun {e n} he hn => h.temps ?_ hn⟩
    -- the detached head has not been encoded yet
    simp only [Store.detachHead, List.mem_append, List.mem_singleton, Prod.mk.injEq] at he
    exact he.resolve_right fun heq => hn heq.2

lemma applyOps (h : Working opts s d) {inBatch : GoMap (TableId × DocId) (List Keyword)}
    {ops : List UpdateOp} (hops : ∀ op ∈ ops, op.Valid)
    (hs : Store.applyOps opts s inBatch ops = some s') : Keeps opts s s' d := by
  induction ops generalizing s inBatch with
  | nil =>
    cases hs
    exact ⟨h, rfl, rfl, le_rfl⟩
  | cons op ops ih =>
    obtain ⟨old, -, hs⟩ := bind_eq_some_iff.1 hs
    obtain ⟨hman, hsegs, -⟩ := Store.applyOneOp_frame opts s op old
    have hk := ih (h.applyOneOp (hops op (by simp)) old) (fun op' h' => hops op' (by simp [h'])) hs
    exact ⟨hk.working, hk.segs.trans hsegs, hman ▸ hk.metas, hman ▸ hk.next⟩

lemma reserve (h : Working opts s d) (hsealed : Sealed s) {ids : List ℕ}
    (hids : ∀ i ∈ ids, ∃ sm ∈ s.man.segments, sm.id = i) (level : ℕ) (covering : Bool)
    (liveTables : Option (List TableId)) :
    Keeps opts s (s.reserve ids level covering liveTables) d := by
  refine ⟨⟨⟨h.gate.of_unchanged rfl rfl rfl rfl .inl, ⟨h.heads.head, h.heads.spilling⟩,
    fun p hp => ?_⟩, h.temps⟩, rfl, rfl, Nat.le_succ _⟩
  cases hp
  refine ⟨fun i hi => ?_, Nat.lt_succ_self _, fun seg hseg => (hsealed.id_lt seg hseg).ne,
    fun seg hseg => ?_⟩
  · obtain ⟨sm, hsm, rfl⟩ := hids i hi
    obtain ⟨seg, hseg, heq⟩ := hsealed.exists_seg hsm
    have hid : seg.id = sm.id := congrArg Prod.fst heq
    exact hid ▸ hsealed.id_lt seg hseg
  · exact hsealed.wf seg (Store.mem_of_mem_segsByIds hseg)

lemma createTable (h : Working opts s d) : Keeps opts s s.createTable d :=
  ⟨⟨⟨h.gate.of_unchanged rfl rfl rfl rfl .inl, ⟨h.heads.head, h.heads.spilling⟩,
    fun p hp => (h.plan p hp).congr rfl le_rfl⟩, h.temps⟩, rfl, rfl, le_rfl⟩

lemma deleteTable (h : Working opts s d) (t : TableId) : Keeps opts s (s.deleteTable t) d := by
  have hhead : ∀ {t' x}, (s.deleteTable t).head.lookup t' = some x → s.head.lookup t' = some x := by
    intro t' x hl
    rw [Store.deleteTable, GoMap.lookup_erase_if] at hl
    exact (ite_none_left_eq_some.1 hl).2
  exact ⟨⟨⟨h.gate.of_unchanged rfl rfl rfl rfl fun hl => .inl (hhead hl),
    ⟨fun hl => h.heads.head (hhead hl), h.heads.spilling⟩,
    fun p hp => (h.plan p hp).congr rfl le_rfl⟩, h.temps⟩, rfl, rfl, le_rfl⟩

lemma releaseGate (h : Working opts s d) : Keeps opts s s.releaseGate d :=
  ⟨⟨⟨Store.gate_step h.gate (l := .releaseGate) rfl, ⟨h.heads.head, h.heads.spilling⟩,
    fun p hp => (h.plan p hp).congr rfl le_rfl⟩, h.temps⟩, rfl, rfl, le_rfl⟩

/-- Only the temporary files of detached heads matter. -/
lemma of_tempFiles (h : Working opts s d) (htemps : d'.tempFiles = d.tempFiles) :
    Working opts s d' :=
  ⟨h.toRunning, fun he hn x hx => h.temps he hn x (htemps ▸ hx)⟩

end Working

/-! ### Runs -/

/-- The file of the detached head does not lie under an id that has been given out again. -/
def SegPath.Unused (s : Store) : SegPath → Prop
  | temp => True
  | final id => s.man.nextSegId ≤ id

instance : (path : SegPath) → Decidable (path.Unused s)
  | .temp => inferInstanceAs (Decidable True)
  | .final id => inferInstanceAs (Decidable (s.man.nextSegId ≤ id))

/-- The tasks whose failures are handled. -/
def TaskOk (opts : Options) (s : Store) (d : Disk) (path : SegPath) (f : Faults) : Label → Prop
  | .apply ops => ∀ op ∈ ops, op.Valid
  | .giveUpSpill _ _ => path.Unused s
  | l => ∀ w ∈ s.writer opts l, ¬ w.Exposed s d f

instance (opts : Options) (s : Store) (d : Disk) (path : SegPath) (f : Faults) :
    DecidablePred (TaskOk opts s d path f)
  | .apply ops => inferInstanceAs (Decidable (∀ op ∈ ops, op.Valid))
  | .giveUpSpill _ _ => inferInstanceAs (Decidable (path.Unused s))
  | .installSpill _ _ | .failInstall _ | .spill _ | .selectTiered | .selectCovering _ _
  | .installMerge | .createTable | .deleteTable _ | .releaseGate =>
    inferInstanceAs (Decidable (∀ w ∈ s.writer opts _, ¬ w.Exposed s d f))

/-- The steps whose failures are handled. -/
def FileOk (opts : Options) (σ : System) : FileLabel → Prop
  | .load => True
  | .task l f => ∀ s ∈ σ.mem, TaskOk opts s σ.disk σ.path f l

instance (opts : Options) (σ : System) : DecidablePred (FileOk opts σ)
  | .load => inferInstanceAs (Decidable True)
  | .task l f => inferInstanceAs (Decidable (∀ s ∈ σ.mem, TaskOk opts s σ.disk σ.path f l))

/-- The directory holds a live set, which is that of the process if there is one. -/
def System.Inv (opts : Options) (σ : System) : Prop :=
  ∃ s, OnDisk s σ.disk ∧ (σ.mem = none ∨ σ.mem = some s ∧ Working opts s σ.disk)

lemma Keeps.inv (hk : Keeps opts s s' d') (h : OnDisk s d') : System.Inv opts ⟨some s', d', path⟩ :=
  ⟨s', h.congr hk.segs hk.metas hk.next, .inr ⟨rfl, hk.working⟩⟩

/-- The store of a writer that has succeeded. -/
lemma Running.after (h : Running opts s) {w : Writer} (hafter : w.after opts s = some s') :
    Running opts s' ∧ s'.dispatches = s.dispatches := by
  cases w with
  | spill t =>
    cases hafter
    refine ⟨h.spill t, ?_⟩
    obtain heq | ⟨x, -, heq⟩ := Store.spill_cases opts s t <;> rw [heq]
    rfl
  | installSpill e n =>
    cases hafter
    exact ⟨h.publishSpill e, rfl⟩
  | installMerge p =>
    obtain ⟨res, -, rfl⟩ := map_eq_some_iff.1 hafter
    exact ⟨h.swapMerged _ res, rfl⟩

section Writer

variable {x : SegFile} {f : Faults} {w : Writer} {r : Ran Disk Written}

/-- After a failure that is handled the directory holds the set before or after the task. -/
lemma Ends.onDisk (he : Ends s s' x d f w r) (h : OnDisk s d) (hexp : ¬ w.Exposed s d f) :
    OnDisk s r.state ∨ OnDisk s' r.state := by
  by_cases hpub : w.Publishes s d f
  · exact .inr (he.onDisk_published h hpub (fun hback => hexp ⟨hpub, .inr hback⟩)
      fun htorn => hexp ⟨hpub, .inl htorn⟩).1
  · exact .inl (he.onDisk_untouched h hpub)

/-- A writer that returns leaves a process that agrees with the directory. -/
lemma Ends.returned {w' : Written} (he : Ends s s' x d f w (.returned w' d')) (h : OnDisk s d)
    (hrun : Running opts s) (hafter : w.after opts s = some s') (hexp : ¬ w.Exposed s d f) :
    OnDisk w'.store d' ∧ Running opts w'.store ∧ w'.store.dispatches = s.dispatches := by
  by_cases hpub : w.Publishes s d f
  · have hback : ¬ w.GoesBack f := fun hback => hexp ⟨hpub, .inr hback⟩
    have hdisk := (he.onDisk_published h hpub hback fun htorn => hexp ⟨hpub, .inl htorn⟩).1
    rw [((he.published hpub hback).store rfl).1]
    exact ⟨hdisk, hrun.after hafter⟩
  · have hdisk := he.onDisk_untouched h hpub
    obtain hw | hw := (he.untouched hpub).store rfl <;> rw [hw]
    · exact ⟨hdisk, hrun, rfl⟩
    · exact ⟨hdisk.congr rfl rfl le_rfl, hrun.dropPlan, rfl⟩

end Writer

lemma inv_writer (h : OnDisk s d) (hw : Working opts s d) {w : Writer}
    (hl : s.writer opts l = some w) (hexp : ¬ w.Exposed s d f) {w' : Written}
    (hrun : w.run opts s f d = .returned w' d') (hs : w'.finish opts l = some s') :
    System.Inv opts ⟨some s', d', path⟩ := by
  obtain ⟨s₁, x, hafter, he⟩ := exists_ends h.toSealed hw hl f
  rw [hrun] at he
  obtain ⟨hdisk, hrunning, hdisp⟩ := he.returned h hw.toRunning hafter hexp
  obtain ⟨t, rfl, rfl⟩ | ⟨i, next, e, n, rfl, rfl, hd, hn⟩ | ⟨p, rfl, rfl, hp⟩ := writer_cases hl
  · cases hs
    have htemps := tempFiles_spillFiles t d w' d' rfl hrun
    refine ⟨w'.store, hdisk, .inr ⟨rfl, hrunning, fun he hn => ?_⟩⟩
    rw [hdisp] at he
    exact fun x hx => hw.temps he hn x (htemps ▸ hx)
  · have hd' : w'.store.dispatches[i]? = some (e, n) := hdisp ▸ hd
    simp only [Written.finish, hd'] at hs
    split at hs
    case isTrue =>
      obtain ⟨hwork, hsegs, hman⟩ := hrunning.endSpill hd' hs d'
      exact ⟨s', hdisk.congr hsegs (by rw [hman]) (by rw [hman]), .inr ⟨rfl, hwork⟩⟩
    case isFalse hok =>
      have hfile : SpillFile opts e d' := spillFile_installSpillFiles n d w' d'
        (hw.temps (List.mem_of_getElem? hd)) hrun (by simpa using hok)
      exact (hrunning.failInstall hd' hs hfile).inv hdisk
  · cases hs
    have htemps := tempFiles_installMergeFiles p d w' d' rfl hrun
    refine ⟨w'.store, hdisk, .inr ⟨rfl, hrunning, fun he hn => ?_⟩⟩
    rw [hdisp] at he
    exact fun x hx => hw.temps he hn x (htemps ▸ hx)

/-- Writing a catalog changes the MANIFEST to one with the same segments, or not at all. -/
lemma onDisk_writeManifestBytes (h : OnDisk s d) {man : Manifest}
    (hsegments : man.segments = s.man.segments) (hnext : man.nextSegId = s.man.nextSegId) :
    OnDisk s (writeManifestBytes f man d).state ∧
      (writeManifestBytes f man d).state.tempFiles = d.tempFiles := by
  by_cases hren : f.Renames
  · have hstate : (writeManifestBytes f man d).state = d.renamed man := by
      rw [writeManifestBytes_of_renames f d man hren]
      cases f .dirSync <;> rfl
    rw [hstate]
    exact ⟨⟨h.toSealed, ⟨man, rfl, hsegments, hnext ▸ h.id_lt⟩, h.files⟩, rfl⟩
  · obtain ⟨tmp, hm | hm⟩ := writeManifestBytes_of_not f d man hren <;> rw [hm] <;>
      exact ⟨⟨h.toSealed, h.manifest, h.files⟩, rfl⟩

/-- Giving up a spill removes no live file. -/
lemma onDisk_removeSpillFile (h : OnDisk s d) (hpath : path.Unused s) (f : Faults) (i : ℕ) :
    OnDisk s (s.removeSpillFile f path i d).state := by
  unfold Store.removeSpillFile
  cases f .remove with
  | ok =>
    cases path with
    | final id =>
      refine h.beside (fun seg hseg => ?_) (Disk.Beside.refl id d).removeSeg
      exact ((h.id_lt seg hseg).trans_le hpath).ne
    | temp =>
      cases s.dispatches[i]? with
      | none => exact h
      | some e => exact ⟨h.toSealed, h.manifest, h.files⟩
  | err => exact h
  | crash => exact h

/-- What a task that does not change the segment set leaves, whether it returned or died. -/
def Leaves (opts : Options) (s : Store) : Ran Disk (Option Store) → Prop
  | .died d => OnDisk s d
  | .returned s' d => ∀ s₁ ∈ s', ∀ path, System.Inv opts ⟨some s₁, d, path⟩

lemma leaves_catalog (h : OnDisk s d) (hkeeps : ∀ {d' : Disk}, d'.tempFiles = d.tempFiles →
      Keeps opts s s' d') (hsegments : s'.man.segments = s.man.segments)
    (hnext : s'.man.nextSegId = s.man.nextSegId) (f : Faults) :
    Leaves opts s ((do let _ ← writeManifestBytes f s'.man; return some s') d) := by
  obtain ⟨hdisk, htemps⟩ := onDisk_writeManifestBytes h (f := f) hsegments hnext
  cases hrun : writeManifestBytes f s'.man d with
  | returned ok d₁ =>
    rw [hrun] at hdisk htemps
    rw [run_bind_returned hrun]
    rintro s₁ ⟨⟩ path
    exact (hkeeps htemps).inv hdisk
  | died d₁ =>
    rw [hrun] at hdisk
    rw [run_bind_died hrun]
    exact hdisk

theorem leaves_otherTask (h : OnDisk s d) (hw : Working opts s d) (hok : TaskOk opts s d path f l) :
    Leaves opts s (s.otherTask opts f path l d) := by
  cases l with
  | apply ops =>
    intro s₁ hs₁ path
    exact (hw.applyOps hok ((Store.applyBatch_eq s ops).symm.trans hs₁)).inv h
  | giveUpSpill i next =>
    have hdisk := onDisk_removeSpillFile h hok f i
    cases hrun : s.removeSpillFile f path i d with
    | returned b d₁ =>
      rw [hrun] at hdisk
      change Leaves opts s ((s.removeSpillFile f path i >>= fun _ => _) d)
      rw [run_bind_returned hrun]
      intro s₁ hs₁ path
      obtain ⟨e, n, hd, -, hend⟩ := Store.giveUpSpill_cases hs₁
      obtain ⟨hwork, hsegs, hman⟩ := hw.endSpill hd hend d₁
      exact ⟨s₁, hdisk.congr hsegs (by rw [hman]) (by rw [hman]), .inr ⟨rfl, hwork⟩⟩
    | died d₁ =>
      rw [hrun] at hdisk
      change Leaves opts s ((s.removeSpillFile f path i >>= fun _ => _) d)
      rw [run_bind_died hrun]
      exact hdisk
  | selectTiered =>
    intro s₁ hs₁ path
    obtain ⟨-, l, ids, hpick, rfl⟩ := Store.selectTiered_cases hs₁
    exact (hw.reserve h.toSealed (Store.exists_of_pick hpick) _ _ _).inv h
  | selectCovering force dead =>
    intro s₁ hs₁ path
    obtain ⟨-, level, rfl⟩ := Store.selectCovering_cases hs₁
    refine (hw.reserve h.toSealed (fun i hi => ?_) _ _ _).inv h
    obtain ⟨sm, hsm, rfl⟩ := List.mem_map.1 hi
    exact ⟨sm, hsm, rfl⟩
  | createTable =>
    exact leaves_catalog h (fun htemps => (hw.of_tempFiles htemps).createTable) rfl rfl f
  | deleteTable t =>
    exact leaves_catalog h (fun htemps => (hw.of_tempFiles htemps).deleteTable t) rfl rfl f
  | releaseGate =>
    rintro s₁ ⟨⟩ path
    exact hw.releaseGate.inv h
  | _ => exact fun s₁ hs₁ => absurd hs₁ (by simp)

/-- One task of a process keeps the invariant. -/
theorem inv_task (h : OnDisk s d) (hw : Working opts s d) (hok : TaskOk opts s d path f l)
    {σ : System} (hs : System.task opts s d path f l = some σ) : σ.Inv opts := by
  unfold System.task at hs
  split at hs
  case h_1 w hl =>
    have hexp : ¬ w.Exposed s d f := by
      obtain ⟨t, rfl, -⟩ | ⟨i, next, e, n, rfl, -⟩ | ⟨p, rfl, -⟩ := writer_cases hl <;>
        exact hok w hl
    split at hs
    case h_1 d₁ hrun =>
      cases hs
      obtain ⟨s₁, x, -, he⟩ := exists_ends h.toSealed hw hl f
      rw [hrun] at he
      obtain hdisk | hdisk := he.onDisk h hexp
      exacts [⟨s, hdisk, .inl rfl⟩, ⟨s₁, hdisk, .inl rfl⟩]
    case h_2 w' d₁ hrun =>
      obtain ⟨s₁, hs₁, rfl⟩ := map_eq_some_iff.1 hs
      exact inv_writer h hw hl hexp hrun hs₁
  case h_2 =>
    have hleaves := leaves_otherTask h hw hok
    split at hs
    case h_1 d₁ hrun =>
      cases hs
      rw [hrun] at hleaves
      exact ⟨s, hleaves, .inl rfl⟩
    case h_2 s₁ d₁ hrun =>
      obtain ⟨s₂, rfl, rfl⟩ := map_eq_some_iff.1 hs
      rw [hrun] at hleaves
      exact hleaves s₂ rfl _

/-- `Open` succeeds and finds the live set. -/
theorem inv_load (opts : Options) (h : OnDisk s d) : ∃ σ, System.load d = some σ ∧ σ.Inv opts := by
  obtain ⟨man, hman, hsegments, hnext⟩ := h.manifest
  have hsweep := h.sweep hsegments
  obtain ⟨segs, hdisk, -, hhandles, hmem⟩ := hsweep.exists_opened
  have hload : System.load d = some ⟨some (.opened man segs
      (Store.opened man segs ∅).recomputeLive), d.sweepOrphanSegments man, .temp⟩ := by
    rw [System.load, hman, bind_some]
    dsimp only
    rw [hsegments, hdisk, map_some]
  refine ⟨_, hload, _, ?_, .inr ⟨rfl, ?_⟩⟩
  · have hnodup : (segs.map Segment.id).Nodup := by
      have hids : segs.map Segment.id = (s.man.segments.map SegMeta.handle).map Prod.fst := by
        rw [← hhandles, List.map_map]
        rfl
      rw [hids, (h.metas.map Prod.fst).nodup_iff, List.map_map]
      exact h.nodup
    refine ⟨⟨fun seg hseg => h.wf seg (hmem seg hseg), hnodup, ?_,
      fun seg hseg => hnext seg (hmem seg hseg)⟩, ⟨man, hman, rfl,
      fun seg hseg => hnext seg (hmem seg hseg)⟩, fun seg hseg => hsweep.files seg (hmem seg hseg)⟩
    change (man.segments.map SegMeta.handle).Perm (segs.map Segment.handle)
    rw [hsegments, hhandles]
  · exact ⟨⟨Store.gate_opened .., Store.headsOk_of_empty rfl rfl, by simp [Store.opened]⟩,
      by simp [Store.opened]⟩

/-- Whatever happens, as long as the failures are handled, the directory holds a live set. -/
theorem inv_run {ls : List FileLabel} {σ : System}
    (hrun : StepSystem.Run (fileStep opts) (FileOk opts) .init ls σ) : σ.Inv opts := by
  refine hrun.invariant (I := fun _ σ => σ.Inv opts) ?_ ?_
  · refine ⟨.empty [] 1, ⟨⟨?_, ?_, ?_, ?_⟩, ⟨_, rfl, rfl, ?_⟩, ?_⟩, .inl rfl⟩ <;>
      simp [Store.empty, Store.opened]
  · rintro _ σ l σ' ⟨s, hdisk, hmem⟩ hok hs
    cases l with
    | load =>
      obtain ⟨σ₁, hload, hinv⟩ := inv_load opts hdisk
      obtain rfl := some.inj (hload.symm.trans hs)
      exact hinv
    | task l f =>
      obtain ⟨s₁, hs₁, hs⟩ := bind_eq_some_iff.1 hs
      obtain hnone | ⟨hsome, hw⟩ := hmem
      · simp [hnone] at hs₁
      · obtain rfl := some.inj (hsome.symm.trans hs₁)
        exact inv_task hdisk hw (hok s hsome) hs

/-- In every state reached, a writer is safe at every point of failure except those of `Exposed`. -/
theorem crash_safety {ls : List FileLabel} {σ : System}
    (hrun : StepSystem.Run (fileStep opts) (FileOk opts) .init ls σ) (hmem : σ.mem = some s)
    {l : Label} {w : Writer} (hl : s.writer opts l = some w) (f : Faults) :
    ∃ s', w.after opts s = some s' ∧
      (Safe opts s s' σ.disk (w.run opts s f σ.disk) ↔ ¬ w.Exposed s σ.disk f) := by
  obtain ⟨s₁, hdisk, hnone | ⟨hsome, hw⟩⟩ := inv_run hrun
  · simp [hnone] at hmem
  · obtain rfl := some.inj (hsome.symm.trans hmem)
    obtain ⟨s', x, hafter, he⟩ := exists_ends hdisk.toSealed hw hl f
    exact ⟨s', hafter, he.safe_iff hdisk⟩

/-- The process dies while it renames the MANIFEST of a spill and is started again; the install of a
detached head has failed once. -/
def faultyRun : List FileLabel :=
  [.load, .task .createTable .allOk, .task (.apply [⟨1, 1, [[97]]⟩]) .allOk,
    .task (.installSpill 0 none) (.at .manRename .crash), .load,
    .task (.apply [⟨1, 1, [[97]]⟩]) .allOk, .task (.installSpill 0 none) (.at .segRename .err)]

theorem crash_safety_faulty : ∃ σ s w s',
    StepSystem.Run (fileStep (.singleBlock 40 2 (by decide) (by decide)))
      (FileOk (.singleBlock 40 2 (by decide) (by decide))) .init faultyRun σ ∧
    σ.mem = some s ∧
    s.writer (.singleBlock 40 2 (by decide) (by decide)) (.installSpill 0 none) = some w ∧
    Safe (.singleBlock 40 2 (by decide) (by decide)) s s' σ.disk
      (w.run (.singleBlock 40 2 (by decide) (by decide)) s (.at .tmpSync .err) σ.disk) := by
  set opts : Options := .singleBlock 40 2 (by decide) (by decide)
  have hexec : (StepSystem.exec (fileStep opts) (FileOk opts) .init faultyRun).any (fun σ =>
      σ.mem.any fun s => (s.writer opts (.installSpill 0 none)).any fun w =>
        ¬ w.Exposed s σ.disk (.at .tmpSync .err)) = true := by
    decide +kernel
  obtain ⟨σ, hσ, hmem⟩ := (any_eq_true _ _).1 hexec
  obtain ⟨s, hs, hw⟩ := (any_eq_true _ _).1 hmem
  obtain ⟨w, hw, hexp⟩ := (any_eq_true _ _).1 hw
  have hrun := StepSystem.Run.of_exec hσ
  obtain ⟨s', -, hsafe⟩ := crash_safety hrun hs hw (.at .tmpSync .err)
  exact ⟨σ, s, w, s', hrun, hs, hw, hsafe.2 (of_decide_eq_true hexp)⟩

/-- The directory cannot be synced after the MANIFEST of an install has been renamed: the install
reports an error and takes the file back that the MANIFEST names, and `Open` fails. -/
theorem crash_unsynced : ∃ σ s w w' d',
    StepSystem.Run (fileStep (.singleBlock 40 2 (by decide) (by decide)))
      (FileOk (.singleBlock 40 2 (by decide) (by decide))) .init
      [.load, .task .createTable .allOk, .task (.apply [⟨1, 1, [[97]]⟩]) .allOk] σ ∧
    σ.mem = some s ∧
    s.writer (.singleBlock 40 2 (by decide) (by decide)) (.installSpill 0 none) = some w ∧
    w.run (.singleBlock 40 2 (by decide) (by decide)) s (.at .dirSync .err) σ.disk =
      .returned w' d' ∧
    w'.ok = false ∧ w'.store.man.segments = [] ∧
    (∃ man, d'.readManifest = some man ∧ ∃ sm ∈ man.segments, d'.file sm.id = none) ∧
    d'.openDir (.singleBlock 40 2 (by decide) (by decide)) = none := by
  set opts : Options := .singleBlock 40 2 (by decide) (by decide)
  let broken (w' : Written) (d' : Disk) : Bool := w'.ok = false ∧ w'.store.man.segments = [] ∧
    (d'.readManifest.any fun man => man.segments.any fun sm => (d'.file sm.id).isNone) ∧
    (d'.openDir opts).isNone
  have hexec : (StepSystem.exec (fileStep opts) (FileOk opts) .init
      [.load, .task .createTable .allOk, .task (.apply [⟨1, 1, [[97]]⟩]) .allOk]).any (fun σ =>
      σ.mem.any fun s => (s.writer opts (.installSpill 0 none)).any fun w =>
        match w.run opts s (.at .dirSync .err) σ.disk with
        | .returned w' d' => broken w' d'
        | .died _ => false) = true := by
    decide +kernel
  obtain ⟨σ, hσ, hmem⟩ := (any_eq_true _ _).1 hexec
  obtain ⟨s, hs, hw⟩ := (any_eq_true _ _).1 hmem
  obtain ⟨w, hw, hbroken⟩ := (any_eq_true _ _).1 hw
  split at hbroken
  case h_1 w' d' hrun =>
    obtain ⟨hok, hsegments, hfile, hopen⟩ := of_decide_eq_true hbroken
    obtain ⟨man, hman, hsm⟩ := (any_eq_true _ _).1 hfile
    obtain ⟨sm, hsm, hnone⟩ := List.any_eq_true.1 hsm
    exact ⟨σ, s, w, w', d', StepSystem.Run.of_exec hσ, hs, hw, hrun, hok, hsegments,
      ⟨man, hman, sm, hsm, isNone_iff_eq_none.1 hnone⟩, isNone_iff_eq_none.1 hopen⟩
  case h_2 => simp at hbroken

end Haystack.InvertedStore
