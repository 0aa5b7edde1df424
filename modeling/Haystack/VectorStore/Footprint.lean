import Haystack.VectorStore.Catalog

/-!
# The files of an index

Creating, building, rebuilding and dropping a vector index write and remove files at the graph paths
of its name alone. For a name without a slash these are its own files. The graph path of another
name can be that of any file.
-/

namespace Haystack.VectorStore.Catalog

open SlashPath

/-- The label is a call that creates, rebuilds or drops the index, or a step of one of its
builds. -/
def Defines (s : Catalog) (n : IndexName) : Label → Prop
  | .create name _ _ => name = n
  | .drop name _ _ => name = n
  | .rebuild name _ _ => name = n
  | .build i _ => ∃ b, s.builds[i]? = some b ∧ b.name = n
  | _ => False

variable (dir : Bytes) (n : IndexName) (s s' : Catalog)

/-- Nothing changes but the index and the files at its graph paths. -/
structure Frame : Prop where
  files : ∀ {p}, (∀ id, p ≠ graphPath dir id n) → s'.files.lookup p = s.files.lookup p
  indexes : ∀ {n'}, n' ≠ n → s'.indexes.lookup n' = s.indexes.lookup n'
  sealed : s'.sealed = s.sealed
  unmapped : s'.unmapped = s.unmapped

/-- The step creates, overwrites or removes the file. -/
def Touches (p : Bytes) : Prop := s'.files.lookup p ≠ s.files.lookup p

/-- What `Get`, and `Search` on other indexes, go by is left alone: the segments, the other indexes,
every file outside the segment directories, and the records and other graph files in them. -/
structure Confined : Prop extends Frame dir n s s' where
  inside : ∀ {p}, Touches s s' p → ∃ id, Inside (segDir dir id) p
  ne_record : ∀ {p}, Touches s s' p → ∀ id, ∀ f ∈ recordFiles, p ≠ segFilePath dir id f
  ne_graph : ∀ {p}, Touches s s' p → ∀ {n'}, slash ∉ n' → ∀ id, p = graphPath dir id n' → n = n'

variable {dir n s s'}

namespace Frame

lemma refl : Frame dir n s s := ⟨fun _ => rfl, fun _ => rfl, rfl, rfl⟩

variable (h : Frame dir n s s')

include h

/-- Control state and builds are not part of it. -/
lemma other (manifest : Option Manifest) (builds : List Build) :
    Frame dir n s { s' with manifest := manifest, builds := builds } :=
  ⟨h.files, h.indexes, h.sealed, h.unmapped⟩

lemma commit (ok : Bool) : Frame dir n s (s'.commit ok) := by
  cases ok with
  | false => exact h
  | true => exact h.other _ _

lemma setIndex (vx : VIndex) : Frame dir n s (s'.setIndex n vx) :=
  ⟨h.files, fun hn => (AList.lookup_insert_ne hn).trans (h.indexes hn), h.sealed, h.unmapped⟩

lemma eraseIndex : Frame dir n s { s' with indexes := s'.indexes.erase n } :=
  ⟨h.files, fun hn => (AList.lookup_erase_ne hn).trans (h.indexes hn), h.sealed, h.unmapped⟩

lemma setFile (id : SegId) (f : File) : Frame dir n s (s'.setFile (graphPath dir id n) f) :=
  ⟨fun hp => (AList.lookup_insert_ne (hp id)).trans (h.files hp), h.indexes, h.sealed, h.unmapped⟩

lemma removeFile (id : SegId) : Frame dir n s (s'.removeFile (graphPath dir id n)) :=
  ⟨fun hp => (AList.lookup_erase_ne (hp id)).trans (h.files hp), h.indexes, h.sealed, h.unmapped⟩

lemma dropGraphFiles (upTo : Option ℕ) : Frame dir n s (s'.dropGraphFiles dir n upTo) :=
  List.foldlRecOn _ _ h fun _ h id _ => h.removeFile id

omit h

/-! ### Calls and builds -/

lemma createVectorIndex (cfg : VectorIndexConfig) (ok : Bool) :
    Frame dir n s (s.createVectorIndex n cfg ok) := by
  unfold Catalog.createVectorIndex
  split_ifs
  iterate 3 exact refl
  exact ((refl.setIndex _).commit true).other _ _

lemma dropVectorIndex (upTo : Option ℕ) (ok : Bool) :
    Frame dir n s (s.dropVectorIndex dir n upTo ok) := by
  unfold Catalog.dropVectorIndex
  split
  · exact refl
  · exact (refl.eraseIndex.dropGraphFiles upTo).commit _

lemma rebuildVectorIndex (upTo : Option ℕ) (ok : Bool) :
    Frame dir n s (s.rebuildVectorIndex dir n upTo ok) := by
  unfold Catalog.rebuildVectorIndex
  split
  · exact refl
  split
  · exact refl
  dsimp only
  split
  · exact (((refl.setIndex _).dropGraphFiles upTo).commit true).other _ _
  · exact (refl.setIndex _).dropGraphFiles upTo

lemma stepBuild {i : ℕ} {ok : Bool} {b : Build} (hb : s.builds[i]? = some b)
    (h : s.stepBuild dir i ok = some s') : Frame dir b.name s s' := by
  have hset : ∀ b', Frame dir b.name s (s.setBuild i b') := fun b' => refl.other _ _
  unfold Catalog.stepBuild at h
  rw [hb, Option.bind_eq_bind, Option.bind_some] at h
  dsimp only at h
  split at h
  case h_1 | h_4 => split at h <;> cases h <;> exact hset _
  case h_2 | h_3 =>
    split at h <;> cases h
    · exact (hset _).setFile _ _
    · exact hset _
  case h_5 =>
    split at h
    · split at h <;> cases h
      · exact (hset _).removeFile _
      · exact hset _
    · cases h
      exact ((hset _).setIndex _).commit _
  case h_6 =>
    cases h
    exact refl.other _ _

end Frame

/-- A step that defines an index keeps to its frame. -/
lemma Defines.frame {metric : Metric} {l : Label} (hl : s.Defines n l)
    (h : s.step dir metric l = some s') : Frame dir n s s' := by
  obtain ⟨readable, rfl, -⟩ | ⟨-, h⟩ := step_cases h
  · exact hl.elim
  cases l with
  | create =>
    cases hl
    cases h
    exact .createVectorIndex _ _
  | drop =>
    cases hl
    cases h
    exact .dropVectorIndex _ _
  | rebuild =>
    cases hl
    cases h
    exact .rebuildVectorIndex _ _
  | build =>
    obtain ⟨b, hb, rfl⟩ := hl
    exact .stepBuild hb h
  | _ => exact hl.elim

/-- **Index definitions leave other files alone** if the name of the index has no slash. -/
theorem Defines.confined {metric : Metric} {l : Label} (hdir : isRooted dir) (hn : slash ∉ n)
    (hl : s.Defines n l) (h : s.step dir metric l = some s') : Confined dir n s s' := by
  have hpath : ∀ {p}, Touches s s' p → ∃ id, p = graphPath dir id n := by
    intro p hp
    by_contra hne
    exact hp ((hl.frame h).files fun id heq => hne ⟨id, heq⟩)
  refine ⟨hl.frame h, fun hp => ?_, fun hp id' f hf => ?_, fun hp n' hn' id' => ?_⟩
  all_goals obtain ⟨id, rfl⟩ := hpath hp
  · exact ⟨id, inside_graphPath hdir hn id⟩
  · exact graphPath_ne_record hdir hn id id' hf
  · exact eq_of_graphPath_eq hdir hn id id' hn'

private def root : Bytes := Bytes.ofAscii "/s"

/-- A segment with a graph file of the default index. -/
private def indexed : Catalog where
  __ := Catalog.init .cosine (AList.insert (graphPath root 1 defaultIndexName) .torn ∅)
  sealed := [1]

theorem confined_rebuild : ∃ s',
    indexed.step root .cosine (.rebuild defaultIndexName none false) = some s' ∧
      Touches indexed s' (graphPath root 1 defaultIndexName) ∧
      Confined root defaultIndexName indexed s' :=
  ⟨_, rfl, by unfold Touches; decide +kernel,
    @Defines.confined _ _ _ _ .cosine (.rebuild defaultIndexName none false) (by decide) (by decide)
      rfl rfl⟩

-- the graph path of this name is that of the vectors
example : graphPath root 1 (Bytes.ofAscii "/../vectors") =
    segFilePath root 1 (Bytes.ofAscii "vectors.dat") := by
  decide +kernel

end Haystack.VectorStore.Catalog
