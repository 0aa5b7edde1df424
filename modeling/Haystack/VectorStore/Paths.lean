import Haystack.Lib.Decimal
import Haystack.Lib.SlashPath

/-!
# Files of a vector store

A sealed segment has a directory with its records files and one graph file for each vector index.
The name of a graph file is made of the name of its index, an arbitrary string, and joined to the
directory, which cleans it. Names with a slash can therefore lead to any other file; for names
without one the graph files of an index are its own.
-/

namespace Haystack.VectorStore

open SlashPath

abbrev SegId := ℕ
abbrev IndexName := Bytes

def segDirName (id : SegId) (gen : ℕ) : Bytes :=
  Bytes.ofAscii "seg-" ++ (Decimal.natText id ++ (Bytes.ofAscii "-" ++ Decimal.natText gen))

def graphFileName (name : IndexName) : Bytes :=
  Bytes.ofAscii "graph-" ++ (name ++ Bytes.ofAscii ".dat")

/-- The records files of a segment. -/
def recordFiles : List Bytes :=
  [Bytes.ofAscii "vectors.dat", Bytes.ofAscii "slotdoc.dat", Bytes.ofAscii "payload.dat",
    Bytes.ofAscii "attr.dat"]

variable (dir : Bytes)

/-- The directory of a segment; segments are always of generation 0. -/
def segDir (id : SegId) : Bytes := join dir (segDirName id 0)

/-- `segFilePath` -/
def segFilePath (id : SegId) (file : Bytes) : Bytes := join (segDir dir id) file

def graphPath (id : SegId) (name : IndexName) : Bytes := segFilePath dir id (graphFileName name)

/-! ### Components -/

lemma plain_of_head {b : UInt8} {s : Bytes} (hb : b ≠ 46) (hslash : slash ∉ b :: s) :
    Plain (b :: s) :=
  ⟨by simp, fun h => hb (List.cons.inj h).1, fun h => hb (List.cons.inj h).1, hslash⟩

lemma plain_segDirName (id gen : ℕ) : Plain (segDirName id gen) := by
  have hnat : ∀ n, slash ∉ Decimal.natText n := fun n h =>
    absurd (List.all_eq_true.1 (Decimal.all_isDigit_natText n) _ h) (by decide)
  refine plain_of_head (b := 115) (s := (segDirName id gen).tail) (by decide) ?_
  change slash ∉ segDirName id gen
  simp only [segDirName, List.mem_append, hnat, false_or, or_false]
  decide

lemma plain_graphFileName {name : IndexName} (h : slash ∉ name) : Plain (graphFileName name) := by
  refine plain_of_head (b := 103) (s := (graphFileName name).tail) (by decide) ?_
  change slash ∉ graphFileName name
  simp only [graphFileName, List.mem_append, h, false_or]
  decide

lemma plain_of_mem_recordFiles {f : Bytes} (h : f ∈ recordFiles) : Plain f := by
  have hall : ∀ f ∈ recordFiles, f ≠ [] ∧ f ≠ dot ∧ f ≠ dotdot ∧ slash ∉ f := by decide
  obtain ⟨hne, hdot, hdotdot, hslash⟩ := hall f h
  exact ⟨hne, hdot, hdotdot, hslash⟩

section Rooted

variable {dir} (hdir : isRooted dir)

include hdir

/-- A plain component is appended. -/
lemma comps_join_plain {c : Bytes} (hc : Plain c) : comps (join dir c) = comps dir ++ [c] := by
  rw [comps_join hdir, List.splitOn_eq_singleton hc.slash_not_mem,
    walk_of_plain (by simpa using hc)]
  simp

lemma comps_segDir (id : SegId) : comps (segDir dir id) = comps dir ++ [segDirName id 0] :=
  comps_join_plain hdir (plain_segDirName id 0)

lemma comps_segFilePath {id : SegId} {file : Bytes} (h : Plain file) :
    comps (segFilePath dir id file) = comps dir ++ [segDirName id 0, file] := by
  rw [segFilePath, @comps_join_plain (segDir dir id) (isRooted_join hdir _) file h,
    comps_segDir hdir, List.append_assoc, List.singleton_append]

/-! ### The graph files of names without a slash -/

variable {n n' : IndexName} (hn : slash ∉ n) (id id' : SegId)

include hn

lemma comps_graphPath :
    comps (graphPath dir id n) = comps dir ++ [segDirName id 0, graphFileName n] :=
  comps_segFilePath hdir (plain_graphFileName hn)

lemma inside_graphPath : Inside (segDir dir id) (graphPath dir id n) := by
  refine ⟨isRooted_join (isRooted_join hdir _) _, ?_⟩
  rw [comps_graphPath hdir hn, comps_segDir hdir]
  exact ⟨[graphFileName n], by simp⟩

lemma graphPath_ne_record {f : Bytes} (hf : f ∈ recordFiles) :
    graphPath dir id n ≠ segFilePath dir id' f := by
  intro heq
  have hfile := congrArg comps heq
  rw [comps_graphPath hdir hn, comps_segFilePath hdir (plain_of_mem_recordFiles hf)] at hfile
  obtain ⟨-, hname⟩ : _ ∧ graphFileName n = f := by simpa using hfile
  have hhead : ∀ f ∈ recordFiles, f.head? ≠ some 103 := by decide
  exact hhead f hf (hname ▸ rfl)

lemma eq_of_graphPath_eq (hn' : slash ∉ n') (heq : graphPath dir id n = graphPath dir id' n') :
    n = n' := by
  have hfile := congrArg comps heq
  rw [comps_graphPath hdir hn, comps_graphPath hdir hn'] at hfile
  obtain ⟨-, hname⟩ : _ ∧ graphFileName n = graphFileName n' := by simpa using hfile
  exact List.append_cancel_right (List.append_cancel_left hname)

end Rooted

end Haystack.VectorStore
