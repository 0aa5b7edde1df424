import Haystack.Lib.GoMap
import Haystack.Lib.StepSystem
import Haystack.VectorStore.Paths

/-!
# Segments and their rows

A segment is a list of rows in slots; a row whose document is deleted or has moved on is marked by a
tombstone and keeps its slot. A merge copies the live rows of its inputs, in order, into buckets of
bounded size. When the buckets are installed in place of the inputs, a row whose document is by then
owned by another segment gets a tombstone.
-/

namespace Haystack.VectorStore

open List

abbrev DocId := Int64

/-- A slot of a segment. -/
structure Row (ρ : Type) where
  doc : DocId
  data : ρ
  tomb : Bool
  deriving DecidableEq

/-- A sealed segment. -/
structure Sealed (ρ : Type) where
  id : SegId
  rows : List (Row ρ)
  deriving DecidableEq

variable {ρ : Type} {bucketCap : ℕ} {rows : List (DocId × ρ)}

/-- The live rows of a segment, without the marks. -/
def liveRows (rows : List (Row ρ)) : List (DocId × ρ) :=
  (rows.filter fun r => !r.tomb).map fun r => (r.doc, r.data)

namespace Sealed

variable (ss : Sealed ρ)

def count : ℕ := ss.rows.length

def tombCount : ℕ := ss.rows.countP fun r => r.tomb

/-- What `eachLive` visits. -/
def live : List (DocId × ρ) := liveRows ss.rows

lemma length_live_add_tombCount : ss.live.length + ss.tombCount = ss.count := by
  rw [live, liveRows, length_map, ← countP_eq_length_filter, tombCount, count,
    add_comm, length_eq_countP_add_countP (fun r : Row ρ => r.tomb)]
  simp

end Sealed

/-! ### Packing -/

/-- One more row: the closed buckets and the open one. -/
def packRow (bucketCap : ℕ) (s : List (List (DocId × ρ)) × List (DocId × ρ)) (r : DocId × ρ) :
    List (List (DocId × ρ)) × List (DocId × ρ) :=
  if bucketCap ≤ s.2.length then (s.1 ++ [s.2], [r]) else (s.1, s.2 ++ [r])

/-- `packLiveDocs` over the live rows of the inputs. A last bucket that is empty is dropped, and
`planMergeWithCapLocked` drops it also if it is the only one. -/
def packLiveDocs (bucketCap : ℕ) (rows : List (DocId × ρ)) : List (List (DocId × ρ)) :=
  let s := rows.foldl (packRow bucketCap) ([], [])
  if s.2 = [] then s.1 else s.1 ++ [s.2]

/-- What is known of the buckets after some rows. -/
lemma packRow_spec (hcap : 0 < bucketCap) (rows : List (DocId × ρ)) :
    let s := rows.foldl (packRow bucketCap) ([], [])
    s.1.flatten ++ s.2 = rows ∧ (∀ b ∈ s.1, b.length ≤ bucketCap ∧ b ≠ []) ∧
      s.2.length ≤ bucketCap ∧ (rows.length ≤ bucketCap → s.1 = []) := by
  induction rows using reverseRecOn with
  | nil => simp
  | append_singleton rows r ih =>
    obtain ⟨hflat, hclosed, hopen, hone⟩ := ih
    have hlen : (rows.foldl (packRow bucketCap) ([], [])).1.flatten.length +
        (rows.foldl (packRow bucketCap) ([], [])).2.length = rows.length := by
      rw [← length_append, hflat]
    dsimp only
    rw [foldl_append, foldl_cons, foldl_nil, packRow]
    generalize rows.foldl (packRow bucketCap) ([], []) = s at hflat hclosed hopen hone hlen ⊢
    split
    case isTrue hfull =>
      refine ⟨by simp [← hflat], ?_, Nat.succ_le_of_lt hcap, fun hle => ?_⟩
      · intro b hb
        rcases mem_append.1 hb with hb | hb
        · exact hclosed b hb
        · obtain rfl := mem_singleton.1 hb
          exact ⟨hopen, ne_nil_of_length_pos (by omega)⟩
      · -- a full bucket and one more row do not fit the bound
        rw [length_append, length_singleton] at hle
        omega
    case isFalse hroom =>
      refine ⟨by rw [← append_assoc, hflat], hclosed, ?_, fun hle => ?_⟩
      · rw [length_append, length_singleton]
        omega
      · rw [length_append, length_singleton] at hle
        exact hone (by omega)

/-- The buckets hold the rows in order, each row once. -/
lemma flatten_packLiveDocs (hcap : 0 < bucketCap) (rows : List (DocId × ρ)) :
    (packLiveDocs bucketCap rows).flatten = rows := by
  have hspec := (packRow_spec hcap rows).1
  unfold packLiveDocs
  dsimp only
  split
  case isTrue hnil => rwa [hnil, append_nil] at hspec
  case isFalse => simpa using hspec

lemma length_le_of_mem_packLiveDocs (hcap : 0 < bucketCap) {b : List (DocId × ρ)}
    (hb : b ∈ packLiveDocs bucketCap rows) : b.length ≤ bucketCap := by
  obtain ⟨-, hclosed, hopen, -⟩ := packRow_spec hcap rows
  unfold packLiveDocs at hb
  dsimp only at hb
  split at hb
  · exact (hclosed b hb).1
  · rcases mem_append.1 hb with hb | hb
    · exact (hclosed b hb).1
    · rwa [mem_singleton.1 hb]

/-- Rows that fit one bucket go to one bucket. -/
lemma length_packLiveDocs_le_one (hcap : 0 < bucketCap) (hrows : rows.length ≤ bucketCap) :
    (packLiveDocs bucketCap rows).length ≤ 1 := by
  have hone := (packRow_spec hcap rows).2.2.2 hrows
  unfold packLiveDocs
  dsimp only
  rw [hone]
  split <;> simp

/-! ### Merges -/

/-- `mergePlan`: what a merge takes from the state in which it is planned. -/
structure MergePlan (ρ : Type) where
  inputs : List SegId
  buckets : List (List (DocId × ρ))
  outIDs : List SegId

namespace MergePlan

variable (p : MergePlan ρ) (docToSeg : GoMap DocId SegId)

/-- The document is still owned by one of the inputs. -/
def Owned (doc : DocId) : Prop :=
  ∃ id ∈ p.inputs, docToSeg.lookup doc = some id

instance (doc : DocId) : Decidable (p.Owned docToSeg doc) :=
  inferInstanceAs (Decidable (∃ id ∈ p.inputs, docToSeg.lookup doc = some id))

/-- The rows of an output after it has been reconciled with what happened since the plan. -/
def outRows (bucket : List (DocId × ρ)) : List (Row ρ) :=
  bucket.map fun r => ⟨r.1, r.2, !decide (p.Owned docToSeg r.1)⟩

/-- The output segments. -/
def outputs : List (Sealed ρ) :=
  (p.outIDs.zip p.buckets).map fun x => ⟨x.1, p.outRows docToSeg x.2⟩

/-- The segments after the swap. -/
def swapSealed (sealed : List (Sealed ρ)) : List (Sealed ρ) :=
  sealed.filter (fun ss => ss.id ∉ p.inputs) ++ p.outputs docToSeg

/-- The routing after the swap: the live rows of the outputs belong to them. -/
def rehome : GoMap DocId SegId :=
  (p.outputs docToSeg).foldl (fun m ss => ss.live.foldl (fun m r => m.insert r.1 ss.id) m) docToSeg

/-! ### What an installation changes -/

variable {p} {docToSeg} {sealed : List (Sealed ρ)}

lemma map_id_outputs (h : p.outIDs.length = p.buckets.length) :
    (p.outputs docToSeg).map Sealed.id = p.outIDs := by
  rw [outputs, map_map]
  exact map_fst_zip h.le

lemma length_outputs (h : p.outIDs.length = p.buckets.length) :
    (p.outputs docToSeg).length = p.buckets.length := by
  rw [← length_map, map_id_outputs h, h]

/-- The rows of the outputs are those of the buckets. -/
lemma sum_map_outputs (h : p.outIDs.length = p.buckets.length) {f : Sealed ρ → ℕ}
    {g : List (DocId × ρ) → ℕ} (hfg : ∀ id b, f ⟨id, p.outRows docToSeg b⟩ = g b) :
    ((p.outputs docToSeg).map f).sum = (p.buckets.map g).sum := by
  have hmap : (p.outputs docToSeg).map f = ((p.outIDs.zip p.buckets).map Prod.snd).map g := by
    rw [outputs, map_map, map_map]
    exact map_congr_left fun x _ => hfg x.1 x.2
  rw [hmap, map_snd_zip h.ge]

lemma sum_count_outputs (h : p.outIDs.length = p.buckets.length) :
    ((p.outputs docToSeg).map Sealed.count).sum = p.buckets.flatten.length := by
  rw [sum_map_outputs h (g := length) fun _ b => by simp [Sealed.count, outRows],
    length_flatten]

/-- The outputs have no tombstones if every row still belongs to the inputs. -/
lemma sum_tombCount_outputs
    (howned : ∀ r ∈ p.buckets.flatten, p.Owned docToSeg r.1) :
    ((p.outputs docToSeg).map Sealed.tombCount).sum = 0 := by
  rw [sum_eq_zero_iff]
  intro n hn
  obtain ⟨ss, hss, rfl⟩ := mem_map.1 hn
  obtain ⟨x, hx, rfl⟩ := mem_map.1 hss
  refine countP_eq_zero.2 fun row hrow => ?_
  obtain ⟨r, hr, rfl⟩ := mem_map.1 hrow
  have := howned r (mem_flatten_of_mem (of_mem_zip hx).2 hr)
  simpa using this

variable (p docToSeg sealed) in
/-- The inputs are replaced by the outputs. -/
lemma sum_map_swapSealed (f : Sealed ρ → ℕ) :
    ((p.swapSealed docToSeg sealed).map f).sum +
        ((sealed.filter fun ss => ss.id ∈ p.inputs).map f).sum =
      (sealed.map f).sum + ((p.outputs docToSeg).map f).sum := by
  have hsplit : ((sealed.filter fun ss => ss.id ∈ p.inputs).map f).sum +
      ((sealed.filter fun ss => ss.id ∉ p.inputs).map f).sum = (sealed.map f).sum := by
    induction sealed with
    | nil => rfl
    | cons ss sealed ih =>
      by_cases hin : ss.id ∈ p.inputs <;> simp [hin] at ih ⊢ <;> omega
  rw [swapSealed, map_append, sum_append]
  omega

variable (p docToSeg sealed) in
lemma length_swapSealed :
    (p.swapSealed docToSeg sealed).length + (sealed.filter fun ss => ss.id ∈ p.inputs).length =
      sealed.length + (p.outputs docToSeg).length := by
  simpa using p.sum_map_swapSealed docToSeg sealed fun _ => 1

/-- The inputs of another plan are not touched. -/
lemma filter_swapSealed {ids : List SegId} (hin : p.inputs.Disjoint ids)
    (hlen : p.outIDs.length = p.buckets.length) (hout : p.outIDs.Disjoint ids) :
    (p.swapSealed docToSeg sealed).filter (fun ss => ss.id ∈ ids) =
      sealed.filter fun ss => ss.id ∈ ids := by
  have houts : (p.outputs docToSeg).filter (fun ss => ss.id ∈ ids) = [] := by
    refine filter_eq_nil_iff.2 fun ss hss hid => ?_
    have hss := mem_map_of_mem (f := Sealed.id) hss
    rw [map_id_outputs hlen] at hss
    exact hout hss (by simpa using hid)
  rw [swapSealed, filter_append, filter_filter, houts, append_nil]
  refine filter_congr fun ss _ => ?_
  by_cases hid : ss.id ∈ ids
  · have : ss.id ∉ p.inputs := fun hid' => hin hid' hid
    simp [hid, this]
  · simp [hid]

lemma rehome_eq : p.rehome docToSeg = ((p.outputs docToSeg).flatMap fun ss =>
    ss.live.map fun r => (r.1, ss.id)).foldl (fun m x => m.insert x.1 x.2) docToSeg := by
  rw [foldl_flatMap]
  simp only [rehome, foldl_map]

/-- The live rows of the outputs. -/
lemma mem_live_outputs {ss : Sealed ρ} {r : DocId × ρ} (hss : ss ∈ p.outputs docToSeg)
    (hr : r ∈ ss.live) : p.Owned docToSeg r.1 ∧ ∃ b, (ss.id, b) ∈ p.outIDs.zip p.buckets ∧ r ∈ b := by
  obtain ⟨x, hx, rfl⟩ := mem_map.1 hss
  obtain ⟨row, hrow, rfl⟩ := mem_map.1 hr
  obtain ⟨hmem, htomb⟩ := mem_filter.1 hrow
  obtain ⟨r', hr', rfl⟩ := mem_map.1 hmem
  exact ⟨by simpa using htomb, x.2, hx, hr'⟩

/-- An installation moves the documents of the inputs only. -/
lemma lookup_rehome {doc : DocId} (h : ¬ p.Owned docToSeg doc) :
    (p.rehome docToSeg).lookup doc = docToSeg.lookup doc := by
  rw [rehome_eq]
  refine GoMap.lookup_foldl_insert_of_ne _ fun x hx => ?_
  obtain ⟨ss, hss, hx⟩ := mem_flatMap.1 hx
  obtain ⟨r, hr, rfl⟩ := mem_map.1 hx
  rintro rfl
  exact h (mem_live_outputs hss hr).1

end MergePlan

end Haystack.VectorStore
