import Haystack.InvertedStore.Writers

/-!
# Table operations that fail

`CreateTable` and `DeleteTable` change the catalog, and the head and the live pairs of the table,
before they write the MANIFEST, and take nothing back if the write fails. The only failed call that
leaves no trace is a deletion of a table that the store knows nothing of.
-/

namespace Haystack.InvertedStore

open Faulty

/-- The calls that change the catalog. -/
inductive TableCall
  | createTable
  | deleteTable (t : TableId)

namespace TableCall

variable (s : Store) (f : Faults)

/-- The change in memory. -/
def apply : TableCall → Store
  | createTable => s.createTable
  | deleteTable t => s.deleteTable t

/-- The table of a call. -/
def table : TableCall → TableId
  | createTable => s.man.nextTableId
  | deleteTable t => t

/-- The call: the change in memory, then `writeManifest`, whose error is returned. -/
def run (c : TableCall) : Prog Disk (Store × Bool) := do
  let ok ← writeManifestBytes f (c.apply s).man
  return (c.apply s, ok)

/-- The catalog, the next table id, and the head and live pairs of a table are as before, and so is
the MANIFEST that the next `Open` reads. -/
structure Unchanged (s s' : Store) (d d' : Disk) (t : TableId) : Prop where
  tables : s'.man.tables = s.man.tables
  nextTableId : s'.man.nextTableId = s.man.nextTableId
  head : s'.head.lookup t = s.head.lookup t
  live : s'.liveByTable.lookup t = s.liveByTable.lookup t
  manifest : d'.manifest = d.manifest

/-- Whenever the call returns an error because the MANIFEST could not be written up to its rename,
nothing has changed. -/
def Atomic (c : TableCall) : Prop :=
  ∀ (f : Faults) (d : Disk) (s' : Store) (d' : Disk), ¬f.Renames →
    c.run s f d = .returned (s', false) d' → Unchanged s s' d d' (c.table s)

/-- The store has no catalog entry, no head and no live pairs of the table. -/
def Unknown (t : TableId) : Prop :=
  t ∉ s.man.tables ∧ t ∉ s.head ∧ t ∉ s.liveByTable

variable {s f}

/-- A call that fails before the rename leaves the change in memory and the old MANIFEST. -/
lemma run_of_not_renames (hf : ¬f.Renames) {c : TableCall} {d d' : Disk} {s' : Store} {ok : Bool}
    (h : c.run s f d = .returned (s', ok) d') : s' = c.apply s ∧ d'.manifest = d.manifest := by
  obtain ⟨tmp, hw | hw⟩ := writeManifestBytes_of_not f d (c.apply s).man hf
  · rw [run, run_bind_returned hw, run_pure] at h
    obtain ⟨heq, rfl⟩ := Ran.returned.inj h
    exact ⟨(Prod.mk.inj heq).1.symm, rfl⟩
  · rw [run, run_bind_died hw] at h
    cases h

/-- Deleting a table that the store knows nothing of changes nothing. -/
lemma deleteTable_of_unknown {t : TableId} (h : Unknown s t) : s.deleteTable t = s := by
  obtain ⟨htables, hhead, hlive⟩ := h
  have hfilter : (s.man.tables.filter fun t' => t' ≠ t) = s.man.tables :=
    by
    refine List.filter_eq_self.2 fun t' ht' => decide_eq_true ?_
    rintro rfl
    exact htables ht'
  have herase : ∀ {V : Type} (m : GoMap TableId V), t ∉ m → m.erase t = m := fun m hm =>
    AList.ext (List.kerase_of_notMem_keys hm)
  rw [Store.deleteTable, hfilter, herase _ hhead, herase _ hlive]

/-- **A failed table operation leaves the store as it was** exactly if it is the deletion of a table
that the store knows nothing of. -/
theorem atomic_iff (s : Store) (c : TableCall) :
    c.Atomic s ↔ ∃ t, c = .deleteTable t ∧ Unknown s t := by
  constructor
  · intro h
    -- the first file step fails
    have hfail : ¬(Faults.at .tmpCreate .err).Renames := by decide
    have hunchanged := h (.at .tmpCreate .err) .empty (c.apply s) .empty hfail rfl
    cases c with
    | createTable =>
      have hnext : s.man.nextTableId + 1 = s.man.nextTableId := hunchanged.nextTableId
      simp at hnext
    | deleteTable t =>
      refine ⟨t, rfl, fun hmem => ?_, fun hmem => ?_, fun hmem => ?_⟩
      · rw [← hunchanged.tables] at hmem
        simp [apply, Store.deleteTable] at hmem
      · obtain ⟨head, hhead⟩ := GoMap.mem_iff_exists_lookup.1 hmem
        have hnone : (s.head.erase t).lookup t = s.head.lookup t := hunchanged.head
        rw [AList.lookup_erase, hhead] at hnone
        cases hnone
      · obtain ⟨n, hn⟩ := GoMap.mem_iff_exists_lookup.1 hmem
        have hnone : (s.liveByTable.erase t).lookup t = s.liveByTable.lookup t := hunchanged.live
        rw [AList.lookup_erase, hn] at hnone
        cases hnone
  · rintro ⟨t, rfl, hunknown⟩ f d s' d' hf hrun
    obtain ⟨rfl, hmanifest⟩ := run_of_not_renames hf hrun
    have heq : (TableCall.deleteTable t).apply s = s := deleteTable_of_unknown hunknown
    rw [heq]
    exact ⟨rfl, rfl, rfl, rfl, hmanifest⟩

/-- A store with one table and one buffered document. -/
private def storeWithDoc : Store :=
  (Store.empty [1] 2).post ⟨1, 7, [Bytes.ofAscii "abc"]⟩ []

/-- After a failed `CreateTable` the table is in the catalog, and after a failed `DeleteTable` the
documents of the table are gone, although the MANIFEST says otherwise. -/
theorem tableCall_not_atomic :
    ¬TableCall.createTable.Atomic storeWithDoc ∧
      ((TableCall.createTable.run storeWithDoc (.at .tmpWrite .err) .empty =
        .returned (storeWithDoc.createTable, false) ⟨none, some none, ∅, ∅⟩) ∧
      storeWithDoc.createTable.man.tables = [1, 2]) ∧
    ¬(TableCall.deleteTable 1).Atomic storeWithDoc ∧
      storeWithDoc.getDocs 1 (Bytes.ofAscii "abc") = {7} ∧
      (storeWithDoc.deleteTable 1).getDocs 1 (Bytes.ofAscii "abc") = ∅ := by
  refine ⟨fun h => ?_, ⟨rfl, rfl⟩, fun h => ?_, by decide +kernel, rfl⟩
  · have hfail : ¬(Faults.at .tmpWrite .err).Renames := by decide
    have hunchanged := h (.at .tmpWrite .err) .empty _ _ hfail rfl
    exact absurd hunchanged.nextTableId (by decide +kernel)
  · have hfail : ¬(Faults.at .tmpWrite .err).Renames := by decide
    have hunchanged := h (.at .tmpWrite .err) .empty _ _ hfail rfl
    exact absurd hunchanged.tables (by decide +kernel)

end TableCall

end Haystack.InvertedStore
