import Haystack.InvertedStore.Files
import Haystack.InvertedStore.Preservation

/-!
# How the writers of the segment set can end

A writer puts its file in place, then exchanges the MANIFEST. Until the rename of the MANIFEST
nothing a later `Open` reads has changed; from then on it finds the new set. For each writer there
are three ways to end: the live set is untouched, the new one is published, or the writer goes back
although the new MANIFEST has taken effect.
-/

namespace Haystack.InvertedStore

open Faulty

/-! ### Outcomes -/

namespace Faults

/-- The new MANIFEST takes the place of the old one. -/
def Renames (f : Faults) : Prop :=
  ∀ x ∈ [FileStep.tmpCreate, .tmpWrite, .tmpSync, .tmpClose, .manRename], f x = .ok

/-- A segment writer comes to its end, perhaps with a file that is cut short. -/
def Writes (f : Faults) : Prop :=
  f .segCreate = .ok ∧ f .segWrite ≠ .crash

/-- The file that a segment writer leaves. -/
def content (f : Faults) (x : SegFile) : Option SegFile :=
  if f .segWrite = .err then none else some x

instance (f : Faults) : Decidable f.Renames :=
  inferInstanceAs (Decidable (∀ x ∈ [FileStep.tmpCreate, .tmpWrite, _, _, _], _))

instance (f : Faults) : Decidable f.Writes :=
  inferInstanceAs (Decidable (_ ∧ _))

end Faults

namespace Writer

variable (s : Store) (d : Disk) (f : Faults)

/-- The new MANIFEST takes effect. -/
def Publishes : Writer → Prop
  | spill t => ((s.head.lookup t).getD newHeadTable).isEmpty = false ∧ f.Writes ∧ f.Renames
  | installSpill e n => (if n = 0 then f.Writes else d.tempFiles.lookup e.tempN ≠ none) ∧
    f .segRename = .ok ∧ f.Renames
  | installMerge _ => f.Writes ∧ f.Renames

/-- The file that takes the final name is cut short. -/
def Torn : Writer → Prop
  | installSpill e n => if n = 0 then f .segWrite = .err else d.tempFiles.lookup e.tempN = some none
  | _ => f .segWrite = .err

/-- The writer goes back although the new MANIFEST has taken effect. -/
def GoesBack : Writer → Prop
  | spill _ => f .dirSync = .err
  | installSpill _ _ => f .dirSync = .err ∧ f .renameBack ≠ .crash
  | installMerge _ => f .dirSync = .err ∧ f .remove ≠ .crash

/-- The failures that are not handled. -/
def Exposed (w : Writer) : Prop :=
  w.Publishes s d f ∧ (w.Torn d f ∨ w.GoesBack f)

instance (w : Writer) : Decidable (w.Publishes s d f) := by
  cases w <;> dsimp only [Publishes] <;> infer_instance

instance (w : Writer) : Decidable (w.Torn d f) := by
  cases w <;> dsimp only [Torn] <;> infer_instance

instance (w : Writer) : Decidable (w.GoesBack f) := by
  cases w <;> dsimp only [GoesBack] <;> infer_instance

instance (w : Writer) : Decidable (w.Exposed s d f) :=
  inferInstanceAs (Decidable (_ ∧ (_ ∨ _)))

/-- The id of the segment a writer adds. -/
def newId : Writer → ℕ
  | installMerge p => p.outId
  | _ => s.man.nextSegId

end Writer

/-! ### File steps -/

namespace Disk

variable (d : Disk)

@[simp] lemma file_putSeg (id i : ℕ) (x : Option SegFile) :
    (d.putSeg id x).file i = if i = id then x else d.file i := by
  simp only [file, putSeg, GoMap.lookup_insert_if]
  split <;> rfl

@[simp] lemma file_removeSeg (id i : ℕ) :
    (d.removeSeg id).file i = if i = id then none else d.file i := by
  simp only [file, removeSeg, GoMap.lookup_erase_if]
  split <;> rfl

@[simp] lemma file_putTemp (n i : ℕ) (x : Option SegFile) : (d.putTemp n x).file i = d.file i := rfl

@[simp] lemma manifest_putSeg (id : ℕ) (x : Option SegFile) :
    (d.putSeg id x).manifest = d.manifest := rfl

@[simp] lemma manifest_removeSeg (id : ℕ) : (d.removeSeg id).manifest = d.manifest := rfl

@[simp] lemma manifest_putTemp (n : ℕ) (x : Option SegFile) :
    (d.putTemp n x).manifest = d.manifest := rfl

lemma readManifest_of_eq {d d' : Disk} (h : d'.manifest = d.manifest) :
    d'.readManifest = d.readManifest := by
  rw [readManifest, readManifest, h]

/-- The MANIFEST is that of `d`, and so are the files of all segments but one. -/
structure Beside (id : ℕ) (d d' : Disk) : Prop where
  manifest : d'.manifest = d.manifest
  files : ∀ i ≠ id, d'.file i = d.file i

namespace Beside

variable {d d₁ d₂ : Disk} {id : ℕ}

lemma refl (id : ℕ) (d : Disk) : Beside id d d :=
  ⟨rfl, fun _ _ => rfl⟩

lemma trans (h : Beside id d d₁) (h' : Beside id d₁ d₂) : Beside id d d₂ :=
  ⟨h'.manifest.trans h.manifest, fun i hi => (h'.files i hi).trans (h.files i hi)⟩

lemma putSeg (h : Beside id d d₁) (x : Option SegFile) : Beside id d (d₁.putSeg id x) :=
  h.trans ⟨rfl, fun i hi => by simp [hi]⟩

lemma removeSeg (h : Beside id d d₁) : Beside id d (d₁.removeSeg id) :=
  h.trans ⟨rfl, fun i hi => by simp [hi]⟩

lemma tmp (h : Beside id d d₁) (m : Option (Option Manifest)) :
    Beside id d { d₁ with manifestTmp := m } :=
  h.trans ⟨rfl, fun _ _ => rfl⟩

lemma moveToFinal (h : Beside id d d₁) (n : ℕ) : Beside id d (d₁.moveToFinal n id) := by
  unfold Disk.moveToFinal
  split
  · exact h.trans ⟨rfl, fun i hi => by simp [file, hi]⟩
  · exact h

lemma moveToTemp (h : Beside id d d₁) (n : ℕ) : Beside id d (d₁.moveToTemp id n) := by
  unfold Disk.moveToTemp
  split
  · exact h.trans ⟨rfl, fun i hi => by simp [file, hi]⟩
  · exact h

end Beside

end Disk

section Steps

variable (f : Faults) (d : Disk)

/-- What a segment writer leaves: a file, complete or cut short, or no file and no process. -/
lemma writeSegment_cases (put : Option SegFile → Disk → Disk) (x : SegFile) :
    (f.Writes ∧ writeSegment f put x d =
      .returned () (if f .segWrite = .err then put none d else put (some x) (put none d))) ∨
    ¬ f.Writes ∧ (writeSegment f put x d = .died d ∨ writeSegment f put x d = .died (put none d)) := by
  unfold writeSegment Faults.Writes
  cases hcreate : f .segCreate with
  | ok =>
    rw [run_bind_returned attempt_ok]
    cases hwrite : f .segWrite with
    | ok => exact .inl ⟨by simp, run_bind_returned attempt_ok _⟩
    | err => exact .inl ⟨by simp, run_bind_returned attempt_err _⟩
    | crash => exact .inr ⟨by simp, .inr (run_bind_died attempt_crash _)⟩
  | err =>
    rw [run_bind_returned attempt_err]
    exact .inr ⟨by simp, .inl rfl⟩
  | crash =>
    rw [run_bind_died attempt_crash]
    exact .inr ⟨by simp, .inl rfl⟩

/-- The writer of a file with a final name. -/
lemma writeSegment_putSeg (id : ℕ) (x : SegFile) :
    (f.Writes ∧ ∃ d₁, writeSegment f (fun x d => d.putSeg id x) x d = .returned () d₁ ∧
      d.Beside id d₁ ∧ d₁.tempFiles = d.tempFiles ∧ d₁.file id = f.content x) ∨
    ¬ f.Writes ∧ ∃ d₁, writeSegment f (fun x d => d.putSeg id x) x d = .died d₁ ∧
      d.Beside id d₁ := by
  have hrefl := Disk.Beside.refl id d
  obtain ⟨hw, hrun⟩ | ⟨hw, hrun | hrun⟩ := writeSegment_cases f d (fun x d => d.putSeg id x) x
  · refine .inl ⟨hw, _, hrun, ?_⟩
    unfold Faults.content
    split
    · exact ⟨hrefl.putSeg _, rfl, by simp⟩
    · exact ⟨(hrefl.putSeg _).putSeg _, rfl, by simp⟩
  · exact .inr ⟨hw, _, hrun, hrefl⟩
  · exact .inr ⟨hw, _, hrun, hrefl.putSeg _⟩

/-- Up to the rename only the temporary file changes. -/
lemma writeManifestBytes_of_not (man : Manifest) (h : ¬ f.Renames) : ∃ tmp,
    writeManifestBytes f man d = .returned false { d with manifestTmp := tmp } ∨
      writeManifestBytes f man d = .died { d with manifestTmp := tmp } := by
  unfold writeManifestBytes
  by_cases h₁ : f .tmpCreate = .ok
  swap; · exact ⟨d.manifestTmp, untilError_of_ne _ h₁⟩
  rw [untilError_ok _ h₁]
  by_cases h₂ : f .tmpWrite = .ok
  swap; · exact ⟨_, untilError_of_ne _ h₂⟩
  rw [untilError_ok _ h₂]
  by_cases h₃ : f .tmpSync = .ok
  swap; · exact ⟨_, untilError_of_ne _ h₃⟩
  rw [untilError_ok _ h₃]
  by_cases h₄ : f .tmpClose = .ok
  swap; · exact ⟨_, untilError_of_ne _ h₄⟩
  rw [untilError_ok _ h₄]
  by_cases h₅ : f .manRename = .ok
  swap; · exact ⟨_, untilError_of_ne _ h₅⟩
  exact absurd (by simp [Faults.Renames, h₁, h₂, h₃, h₄, h₅]) h

/-- Unlinking inputs touches no other file. -/
lemma unlinkInputs_cases (ids : List ℕ) : ∃ d', (unlinkInputs f ids d = .returned () d' ∨
    unlinkInputs f ids d = .died d') ∧ d'.manifest = d.manifest ∧ d'.tempFiles = d.tempFiles ∧
      ∀ i ∉ ids, d'.file i = d.file i := by
  induction ids generalizing d with
  | nil => exact ⟨d, .inl rfl, rfl, rfl, fun _ _ => rfl⟩
  | cons i ids ih =>
    rw [unlinkInputs]
    cases ho : f (.removeInput i) with
    | ok =>
      obtain ⟨d', hrun, hman, htemp, hfile⟩ := ih (d.removeSeg i)
      refine ⟨d', by rwa [run_bind_returned attempt_ok], hman, htemp, fun j hj => ?_⟩
      rw [List.mem_cons, not_or] at hj
      rw [hfile j hj.2, Disk.file_removeSeg, if_neg hj.1]
    | err =>
      obtain ⟨d', hrun, hman, htemp, hfile⟩ := ih d
      refine ⟨d', by rwa [run_bind_returned attempt_err], hman, htemp, fun j hj => hfile j ?_⟩
      exact fun hj' => hj (List.mem_cons_of_mem _ hj')
    | crash => exact ⟨d, .inr (run_bind_died attempt_crash _), rfl, rfl, fun _ _ => rfl⟩

/-- A directory in which the MANIFEST has just been renamed. -/
def Disk.renamed (d : Disk) (man : Manifest) : Disk :=
  { d with manifest := some (some man), manifestTmp := none }

/-- After the rename only the sync of the directory is left. -/
lemma writeManifestBytes_of_renames (man : Manifest) (h : f.Renames) :
    writeManifestBytes f man d = attempt (f .dirSync) id id (d.renamed man) := by
  simp only [Faults.Renames, List.forall_mem_cons] at h
  obtain ⟨h₁, h₂, h₃, h₄, h₅, -⟩ := h
  rw [writeManifestBytes, untilError_ok _ h₁, untilError_ok _ h₂, untilError_ok _ h₃,
    untilError_ok _ h₄, untilError_ok _ h₅, untilError_singleton]
  rfl

end Steps

/-! ### Runs of the writers -/

/-- A run that leaves the live set alone. -/
structure Untouched (s : Store) (id : ℕ) (d : Disk) (r : Ran Disk Written) : Prop where
  beside : d.Beside id r.state
  store : ∀ {w d'}, r = .returned w d' → w.store = s ∨ w.store = { s with plan := none }

/-- A run after which the live set is that of `s'`, with the file `x` for the new segment. -/
structure Published (s' : Store) (id : ℕ) (x : Option SegFile) (d : Disk) (r : Ran Disk Written) :
    Prop where
  manifest : r.state.manifest = some (some s'.man)
  files : ∀ seg ∈ s'.segs, seg.id ≠ id → r.state.file seg.id = d.file seg.id
  new : r.state.file id = x
  store : ∀ {w d'}, r = .returned w d' → w.store = s' ∧ w.ok = true

/-- A run that goes back to `s` after the MANIFEST of `s'` has taken effect. -/
def WentBack (s s' : Store) (r : Ran Disk Written) : Prop :=
  ∃ w d', r = .returned w d' ∧ w.ok = false ∧ w.store.man.segments = s.man.segments ∧
    d'.manifest = some (some s'.man)

namespace Store

variable {opts : Options} {s : Store} {d : Disk} {f : Faults}

@[simp] lemma unrecord_recordSpill (h : HeadTable) (t : TableId) :
    (s.recordSpill h t).unrecord = s.man := by
  simp [Manifest.unrecord, recordSpill]

section Spill

variable {t : TableId}

lemma spillFiles_untouched (h : ¬ (Writer.spill t).Publishes s d f) :
    Untouched s s.man.nextSegId d (s.spillFiles opts f t d) := by
  have hrefl := Disk.Beside.refl s.man.nextSegId d
  unfold spillFiles
  split
  case isTrue => exact ⟨hrefl, by rintro _ _ ⟨⟩; exact .inl rfl⟩
  case isFalse hne =>
    obtain ⟨hw, d₁, hrun, hb, -⟩ | ⟨hw, d₁, hrun, hb⟩ := writeSegment_putSeg f d s.man.nextSegId
      (encodeHeadToFile opts ((s.head.lookup t).getD newHeadTable) t s.man.nextSegId).file
    · have hren : ¬ f.Renames := fun hren => h ⟨by simpa using hne, hw, hren⟩
      rw [run_bind_returned hrun]
      obtain ⟨tmp, hm | hm⟩ := writeManifestBytes_of_not f d₁ (s.recordSpill _ t) hren
      · rw [run_bind_returned hm]
        exact ⟨hb.tmp _, by rintro _ _ ⟨⟩; simp⟩
      · rw [run_bind_died hm]
        exact ⟨hb.tmp _, by simp⟩
    · rw [run_bind_died hrun]
      exact ⟨hb, by simp⟩

/-- The steps of a spill up to the rename of the MANIFEST. -/
lemma spillFiles_renamed (opts : Options) (h : (Writer.spill t).Publishes s d f) : ∃ d₁,
    s.spillFiles opts f t d = (attempt (f .dirSync) id id >>= fun ok =>
      if ok then pure ⟨s.spill opts t, true, .temp⟩ else pure ⟨s, false, .temp⟩)
        (d₁.renamed (s.spill opts t).man) ∧
    d.Beside s.man.nextSegId d₁ ∧ d₁.tempFiles = d.tempFiles ∧ d₁.file s.man.nextSegId = f.content
      (encodeHeadToFile opts ((s.head.lookup t).getD newHeadTable) t s.man.nextSegId).file := by
  obtain ⟨hne, hw, hren⟩ := h
  obtain ⟨-, d₁, hrun, hb, htemp, hfile⟩ | ⟨hw', -⟩ := writeSegment_putSeg f d s.man.nextSegId
    (encodeHeadToFile opts ((s.head.lookup t).getD newHeadTable) t s.man.nextSegId).file
  · refine ⟨d₁, ?_, hb, htemp, hfile⟩
    have hman : (s.spill opts t).man = s.recordSpill ((s.head.lookup t).getD newHeadTable) t := by
      simp [Store.spill, hne]
    unfold spillFiles
    rw [if_neg (by simp [hne]), run_bind_returned hrun, hman]
    exact (run_bind_congr (writeManifestBytes_of_renames f d₁ _ hren) _).trans (by simp)
  · exact absurd hw hw'

lemma spillFiles_published (h : (Writer.spill t).Publishes s d f) (hsync : f .dirSync ≠ .err) :
    Published (s.spill opts t) s.man.nextSegId (f.content (encodeHeadToFile opts
      ((s.head.lookup t).getD newHeadTable) t s.man.nextSegId).file) d (s.spillFiles opts f t d) := by
  obtain ⟨d₁, hrun, hb, -, hfile⟩ := spillFiles_renamed opts h
  rw [hrun]
  cases ho : f .dirSync with
  | ok =>
    rw [run_bind_returned attempt_ok]
    exact ⟨rfl, fun seg _ hne => hb.files _ hne, hfile, by rintro _ _ ⟨⟩; exact ⟨rfl, rfl⟩⟩
  | err => exact absurd ho hsync
  | crash =>
    rw [run_bind_died attempt_crash]
    exact ⟨rfl, fun seg _ hne => hb.files _ hne, hfile, by simp⟩

lemma spillFiles_wentBack (h : (Writer.spill t).Publishes s d f) (hsync : f .dirSync = .err) :
    WentBack s (s.spill opts t) (s.spillFiles opts f t d) := by
  obtain ⟨d₁, hrun, -⟩ := spillFiles_renamed opts h
  rw [hrun, hsync, run_bind_returned attempt_err]
  exact ⟨_, _, rfl, rfl, rfl, rfl⟩

end Spill

section Merge

variable {p : MergePlan} {res : MergeResult}
  (hres : mergeSegments opts p.segs p.outId p.level p.covering p.liveTables = some res)

include hres

lemma installMergeFiles_eq : s.installMergeFiles opts f p = (do
    writeSegment f (fun x d => d.putSeg p.outId x) res.seg.file
    if ← writeManifestBytes f (s.swapMerged p.inputIds res).man then
      unlinkInputs f p.inputIds
      return ⟨s.swapMerged p.inputIds res, true, .temp⟩
    else
      let _ ← attempt (f .remove) (fun d => d.removeSeg p.outId) (fun d => d)
      return ⟨{ s with plan := none }, false, .temp⟩) := by
  rw [installMergeFiles, hres]

lemma installMergeFiles_untouched (h : ¬ (Writer.installMerge p).Publishes s d f) :
    Untouched s p.outId d (s.installMergeFiles opts f p d) := by
  rw [installMergeFiles_eq hres]
  obtain ⟨hw, d₁, hrun, hb, -⟩ | ⟨hw, d₁, hrun, hb⟩ :=
    writeSegment_putSeg f d p.outId res.seg.file
  · have hren : ¬ f.Renames := fun hren => h ⟨hw, hren⟩
    rw [run_bind_returned hrun]
    obtain ⟨tmp, hm | hm⟩ := writeManifestBytes_of_not f d₁ (s.swapMerged p.inputIds res).man hren
    · rw [run_bind_returned hm]
      cases ho : f .remove with
      | ok => exact ⟨(hb.tmp _).removeSeg, by rintro _ _ ⟨⟩; exact .inr rfl⟩
      | err => exact ⟨hb.tmp _, by rintro _ _ ⟨⟩; exact .inr rfl⟩
      | crash => exact ⟨hb.tmp _, by rintro _ _ ⟨⟩⟩
    · rw [run_bind_died hm]
      exact ⟨hb.tmp _, by simp⟩
  · rw [run_bind_died hrun]
    exact ⟨hb, by simp⟩

/-- The steps of a merge up to the rename of the MANIFEST. -/
lemma installMergeFiles_renamed (h : (Writer.installMerge p).Publishes s d f) : ∃ d₁,
    s.installMergeFiles opts f p d = (attempt (f .dirSync) id id >>= fun ok =>
      if ok then (do
        unlinkInputs f p.inputIds
        return ⟨s.swapMerged p.inputIds res, true, .temp⟩)
      else do
        let _ ← attempt (f .remove) (fun d => d.removeSeg p.outId) (fun d => d)
        return ⟨{ s with plan := none }, false, .temp⟩)
        (d₁.renamed (s.swapMerged p.inputIds res).man) ∧
    d.Beside p.outId d₁ ∧ d₁.tempFiles = d.tempFiles ∧
      d₁.file p.outId = f.content res.seg.file := by
  rw [installMergeFiles_eq hres]
  obtain ⟨-, d₁, hrun, hb⟩ | ⟨hw, -⟩ := writeSegment_putSeg f d p.outId res.seg.file
  · refine ⟨d₁, ?_, hb⟩
    rw [run_bind_returned hrun]
    exact run_bind_congr (writeManifestBytes_of_renames f d₁ _ h.2) _
  · exact absurd h.1 hw

lemma installMergeFiles_published (h : (Writer.installMerge p).Publishes s d f)
    (hback : ¬ (Writer.installMerge p).GoesBack f) (hinputs : ∀ i ∈ p.inputIds, i < p.outId) :
    Published (s.swapMerged p.inputIds res) p.outId (f.content res.seg.file) d
      (s.installMergeFiles opts f p d) := by
  obtain ⟨d₁, hrun, hb, -, hfile⟩ := installMergeFiles_renamed hres h
  have hout : p.outId ∉ p.inputIds := fun hin => lt_irrefl _ (hinputs _ hin)
  have hmem : ∀ seg ∈ (s.swapMerged p.inputIds res).segs, seg.id ≠ p.outId →
      seg.id ∉ p.inputIds := by
    intro seg hseg hne
    obtain ⟨-, hnot⟩ | rfl := mem_swapMerged.1 hseg
    exacts [hnot, absurd (id_mergeSegments hres).1 hne]
  rw [hrun]
  cases ho : f .dirSync with
  | ok =>
    rw [run_bind_returned attempt_ok]
    obtain ⟨d₂, hunlink, hman, -, hkept⟩ := unlinkInputs_cases f
      (d₁.renamed (s.swapMerged p.inputIds res).man) p.inputIds
    have hfiles : ∀ seg ∈ (s.swapMerged p.inputIds res).segs, seg.id ≠ p.outId →
        d₂.file seg.id = d.file seg.id := fun seg hseg hne =>
      (hkept _ (hmem seg hseg hne)).trans (hb.files _ hne)
    have hnew : d₂.file p.outId = f.content res.seg.file := (hkept _ hout).trans hfile
    rw [if_pos rfl, id_eq]
    obtain hunlink | hunlink := hunlink
    · rw [run_bind_returned hunlink]
      exact ⟨hman, hfiles, hnew, by rintro _ _ ⟨⟩; exact ⟨rfl, rfl⟩⟩
    · rw [run_bind_died hunlink]
      exact ⟨hman, hfiles, hnew, by simp⟩
  | err =>
    cases hr : f .remove with
    | crash =>
      rw [run_bind_returned attempt_err]
      exact ⟨rfl, fun seg _ hne => hb.files _ hne, hfile, by rintro _ _ ⟨⟩⟩
    | _ => exact absurd ⟨ho, by simp [hr]⟩ hback
  | crash =>
    rw [run_bind_died attempt_crash]
    exact ⟨rfl, fun seg _ hne => hb.files _ hne, hfile, by simp⟩

lemma installMergeFiles_wentBack (h : (Writer.installMerge p).Publishes s d f)
    (hback : (Writer.installMerge p).GoesBack f) :
    WentBack s (s.swapMerged p.inputIds res) (s.installMergeFiles opts f p d) := by
  obtain ⟨d₁, hrun, -⟩ := installMergeFiles_renamed hres h
  rw [hrun, hback.1, run_bind_returned attempt_err]
  cases hr : f .remove with
  | crash => exact absurd hr hback.2
  | _ => exact ⟨_, _, rfl, rfl, rfl, rfl⟩

end Merge

section Install

variable {e : SpillEntry} {n : ℕ}

/-- What the encoding of a detached head leaves: its temporary file, or no process. -/
lemma encodeSpillFiles_cases (opts : Options) (f : Faults) (d : Disk) (e : SpillEntry) (n id : ℕ) :
    ((n = 0 → f.Writes) ∧ ∃ d₁, encodeSpillFiles opts f e n d = .returned () d₁ ∧ d.Beside id d₁ ∧
      d₁.tempFiles.lookup e.tempN = if n = 0 then
        some (f.content (encodeHeadToFile opts e.head e.tableId 0).file)
        else d.tempFiles.lookup e.tempN) ∨
    ¬ (n = 0 → f.Writes) ∧ ∃ d₁, encodeSpillFiles opts f e n d = .died d₁ ∧ d.Beside id d₁ := by
  unfold encodeSpillFiles
  by_cases hn : n = 0
  · simp only [hn, if_true, true_imp_iff]
    obtain ⟨hw, hrun⟩ | ⟨hw, hrun | hrun⟩ := writeSegment_cases f d
      (fun x d => d.putTemp e.tempN x) (encodeHeadToFile opts e.head e.tableId 0).file
    · refine .inl ⟨hw, _, hrun, ?_⟩
      unfold Faults.content
      split
      · exact ⟨⟨rfl, fun _ _ => rfl⟩, by simp [Disk.putTemp]⟩
      · exact ⟨⟨rfl, fun _ _ => rfl⟩, by simp [Disk.putTemp]⟩
    · exact .inr ⟨hw, _, hrun, .refl id d⟩
    · exact .inr ⟨hw, _, hrun, ⟨rfl, fun _ _ => rfl⟩⟩
  · simp only [hn, if_false]
    exact .inl ⟨by simp, d, rfl, .refl id d, rfl⟩

lemma renameSegmentFile_ok {id : ℕ} (h : d.tempFiles.lookup e.tempN ≠ none)
    (ho : f .segRename = .ok) :
    renameSegmentFile f e.tempN id d = .returned true (d.moveToFinal e.tempN id) := by
  unfold renameSegmentFile
  rw [if_neg (by simp [h]), ho, attempt_ok]

lemma renameSegmentFile_of_not (id : ℕ)
    (h : ¬ (d.tempFiles.lookup e.tempN ≠ none ∧ f .segRename = .ok)) :
    renameSegmentFile f e.tempN id d = .returned false d ∨
      renameSegmentFile f e.tempN id d = .died d := by
  unfold renameSegmentFile
  refine attempt_cases _ _ _ ?_
  split
  · simp
  · tauto

lemma installSpillFiles_untouched (h : ¬ (Writer.installSpill e n).Publishes s d f) :
    Untouched s s.man.nextSegId d (s.installSpillFiles opts f e n d) := by
  unfold installSpillFiles
  obtain ⟨hw, d₁, hrun, hb, hl⟩ | ⟨hw, d₁, hrun, hb⟩ :=
    encodeSpillFiles_cases opts f d e n s.man.nextSegId
  · rw [run_bind_returned hrun]
    by_cases hr : d₁.tempFiles.lookup e.tempN ≠ none ∧ f .segRename = .ok
    · rw [run_bind_returned (renameSegmentFile_ok hr.1 hr.2), if_pos rfl]
      have hren : ¬ f.Renames := by
        refine fun hren => h ⟨?_, hr.2, hren⟩
        split
        case isTrue hn => exact hw hn
        case isFalse hn => simpa [hl, hn] using hr.1
      have hb := hb.moveToFinal e.tempN
      obtain ⟨tmp, hm | hm⟩ := writeManifestBytes_of_not f _ (s.recordSpill e.head e.tableId) hren
      · rw [run_bind_returned hm]
        cases ho : f .renameBack with
        | ok => exact ⟨(hb.tmp _).moveToTemp _, by rintro _ _ ⟨⟩; simp⟩
        | err => exact ⟨hb.tmp _, by rintro _ _ ⟨⟩; simp⟩
        | crash => exact ⟨hb.tmp _, by rintro _ _ ⟨⟩⟩
      · rw [run_bind_died hm]
        exact ⟨hb.tmp _, by simp⟩
    · obtain hm | hm := renameSegmentFile_of_not s.man.nextSegId hr
      · rw [run_bind_returned hm]
        exact ⟨hb, by rintro _ _ ⟨⟩; exact .inl rfl⟩
      · rw [run_bind_died hm]
        exact ⟨hb, by simp⟩
  · rw [run_bind_died hrun]
    exact ⟨hb, by simp⟩

variable (opts) in
/-- The file that takes the final name in an install. -/
def spillContent (d : Disk) (f : Faults) (e : SpillEntry)
    (n : ℕ) : Option SegFile :=
  if n = 0 then f.content (encodeHeadToFile opts e.head e.tableId 0).file
  else (d.tempFiles.lookup e.tempN).join

/-- The steps of an install up to the rename of the MANIFEST. -/
lemma installSpillFiles_renamed (opts : Options) (h : (Writer.installSpill e n).Publishes s d f) : ∃ d₁,
    s.installSpillFiles opts f e n d = (attempt (f .dirSync) id id >>= fun ok =>
      if ok then pure ⟨s.publishSpill opts e, true, .final s.man.nextSegId⟩
      else do
        let back ← attempt (f .renameBack) (fun d => d.moveToTemp s.man.nextSegId e.tempN)
          (fun d => d)
        return ⟨s, false, if back then .temp else .final s.man.nextSegId⟩)
        (d₁.renamed (s.publishSpill opts e).man) ∧
    d.Beside s.man.nextSegId d₁ ∧ d₁.file s.man.nextSegId = spillContent opts d f e n := by
  obtain ⟨hfirst, hrename, hren⟩ := h
  unfold installSpillFiles
  obtain ⟨hw, d₁, hrun, hb, hl⟩ | ⟨hw, -⟩ := encodeSpillFiles_cases opts f d e n s.man.nextSegId
  · obtain ⟨x, hx⟩ : ∃ x, d₁.tempFiles.lookup e.tempN = some x := by
      rw [hl]
      by_cases hn : n = 0
      · simp [hn]
      · simpa [hn, Option.ne_none_iff_exists'] using hfirst
    refine ⟨d₁.moveToFinal e.tempN s.man.nextSegId, ?_, hb.moveToFinal _, ?_⟩
    · rw [run_bind_returned hrun, run_bind_returned (renameSegmentFile_ok (by simp [hx]) hrename),
        if_pos rfl]
      exact (run_bind_congr (writeManifestBytes_of_renames f _ _ hren) _).trans (by simp; rfl)
    · have hfile : (d₁.moveToFinal e.tempN s.man.nextSegId).file s.man.nextSegId = x := by
        simp [Disk.moveToFinal, hx, Disk.file]
      rw [hfile, spillContent]
      rw [hx] at hl
      split at hl
      case isTrue hn => rw [if_pos hn, Option.some.inj hl]
      case isFalse hn => rw [if_neg hn, ← hl]; rfl
  · exact absurd (fun hn => by simpa [hn] using hfirst) hw

lemma installSpillFiles_published (h : (Writer.installSpill e n).Publishes s d f)
    (hback : ¬ (Writer.installSpill e n).GoesBack f) :
    Published (s.publishSpill opts e) s.man.nextSegId (spillContent opts d f e n) d
      (s.installSpillFiles opts f e n d) := by
  obtain ⟨d₁, hrun, hb, hfile⟩ := installSpillFiles_renamed opts h
  rw [hrun]
  cases ho : f .dirSync with
  | ok =>
    rw [run_bind_returned attempt_ok]
    exact ⟨rfl, fun seg _ hne => hb.files _ hne, hfile, by rintro _ _ ⟨⟩; exact ⟨rfl, rfl⟩⟩
  | err =>
    cases hr : f .renameBack with
    | crash =>
      rw [run_bind_returned attempt_err]
      exact ⟨rfl, fun seg _ hne => hb.files _ hne, hfile, by rintro _ _ ⟨⟩⟩
    | _ => exact absurd ⟨ho, by simp [hr]⟩ hback
  | crash =>
    rw [run_bind_died attempt_crash]
    exact ⟨rfl, fun seg _ hne => hb.files _ hne, hfile, by simp⟩

lemma installSpillFiles_wentBack (h : (Writer.installSpill e n).Publishes s d f)
    (hback : (Writer.installSpill e n).GoesBack f) :
    WentBack s (s.publishSpill opts e) (s.installSpillFiles opts f e n d) := by
  obtain ⟨d₁, hrun, -⟩ := installSpillFiles_renamed opts h
  rw [hrun, hback.1, run_bind_returned attempt_err]
  cases hr : f .renameBack with
  | crash => exact absurd hr hback.2
  | ok =>
    refine ⟨_, _, rfl, rfl, rfl, ?_⟩
    simp only [Disk.moveToTemp]
    split <;> rfl
  | err => exact ⟨_, _, rfl, rfl, rfl, rfl⟩

end Install

end Store

end Haystack.InvertedStore
