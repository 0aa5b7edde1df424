import Haystack.Lib.BinaryHeap
import Haystack.Lib.Sorting

/-!
# The best results of a search

`topK` keeps the results it is offered in a heap with the worst one first, so that a better one can
take its place when there is no more room.
-/

namespace Haystack.VectorStore

open BinaryHeap StableSort

structure SearchResult (δ : Type*) where
  docID : ℤ
  distance : δ
  deriving DecidableEq

variable {δ : Type*}

/-- The order of results. -/
def SearchResult.rank (r : SearchResult δ) : Lex (δ × ℤ) := toLex (r.distance, r.docID)

lemma rank_injective : Function.Injective (SearchResult.rank (δ := δ)) := by
  rintro ⟨d, x⟩ ⟨d', x'⟩ h
  simpa [SearchResult.rank, and_comm] using h

variable [LinearOrder δ]

/-- A result is worse if it is farther away, or equally far with a larger number. -/
def worse (a b : SearchResult δ) : Bool :=
  if a.distance ≠ b.distance then b.distance < a.distance else b.docID < a.docID

structure TopK (δ : Type*) where
  k : ℤ
  len : ℕ
  h : Vector (SearchResult δ) len

def newTopK (k : ℤ) : TopK δ := ⟨k, 0, #v[]⟩

namespace TopK

/-- `offer`: a full heap is not empty, so it has a worst result. -/
def offer (t : TopK δ) (r : SearchResult δ) : TopK δ :=
  if t.k ≤ 0 then t
  else if t.len < t.k then ⟨t.k, t.len + 1, push worse t.h r⟩
  else if hlen : 0 < t.len then
    if worse t.h[0] r then { t with h := down worse (t.h.set 0 r) 0 t.len le_rfl } else t
  else t

def sorted (t : TopK δ) : List (SearchResult δ) := drain worse t.h

end TopK

lemma worse_iff (a b : SearchResult δ) : worse a b = true ↔ b.rank < a.rank := by
  unfold worse SearchResult.rank
  rw [Prod.Lex.toLex_lt_toLex]
  split
  case isTrue hne => simp [Ne.symm hne]
  case isFalse heq => simp [not_not.1 heq]

/-- The heap holds the best ones of the offered results. -/
structure TopK.Keeps (k : ℤ) (offered : List (SearchResult δ)) (t : TopK δ) : Prop where
  k_eq : t.k = k
  heap : IsHeap SearchResult.rank t.h t.len le_rfl
  len : t.len = min k.toNat offered.length
  best : ∃ rest, (t.h.toList ++ rest).Perm offered ∧
    ∀ a ∈ t.h.toList, ∀ b ∈ rest, a.rank ≤ b.rank

lemma TopK.Keeps.offer {k : ℤ} {offered : List (SearchResult δ)} {t : TopK δ}
    (h : t.Keeps k offered) (r : SearchResult δ) : (t.offer r).Keeps k (offered ++ [r]) := by
  obtain ⟨rfl, hheap, hlen, rest, hperm, hbest⟩ := h
  have hcount : t.len + rest.length = offered.length := by simpa using hperm.length_eq
  -- the heap is full and has nothing worse
  have hstay (hfull : t.len = t.k.toNat) (hr : ∀ a ∈ t.h.toList, a.rank ≤ r.rank) :
      t.Keeps t.k (offered ++ [r]) := by
    refine ⟨rfl, hheap, by simp; omega, rest ++ [r], ?_, fun a ha b hb => ?_⟩
    · rw [← List.append_assoc]
      exact hperm.append_right _
    · obtain hb | hb := List.mem_append.1 hb
      · exact hbest a ha b hb
      · exact List.mem_singleton.1 hb ▸ hr a ha
  unfold TopK.offer
  split_ifs with hk hroom hpos hworse
  · have hnone : t.len = 0 := by omega
    refine hstay (by omega) fun a ha => ?_
    have hpos := List.length_pos_of_mem ha
    rw [Vector.length_toList] at hpos
    omega
  · obtain rfl : rest = [] := List.length_eq_zero_iff.1 (by omega)
    obtain ⟨hheap', hperm'⟩ := push_spec worse_iff hheap r
    rw [List.append_nil] at hperm
    refine ⟨rfl, hheap', by simp; omega, [], ?_, by simp⟩
    rw [List.append_nil]
    exact hperm'.trans (hperm.append_right _)
  · obtain ⟨hheap', hperm'⟩ := down_set_spec worse_iff hheap hpos r
    rw [worse_iff] at hworse
    refine ⟨rfl, hheap', by simp; omega, t.h[0] :: rest, ?_, fun a ha b hb => ?_⟩
    · refine List.perm_middle.trans ((hperm'.append_right rest).trans ?_)
      rw [List.append_assoc]
      refine (List.perm_append_comm.append_left _).trans ?_
      rw [← List.append_assoc]
      exact hperm.append_right _
    · have hle : a.rank ≤ t.h[0].rank := by
        obtain ha | ha := List.mem_append.1 (hperm'.subset (List.mem_cons_of_mem _ ha))
        · exact hheap.le_first hpos ha
        · exact List.mem_singleton.1 ha ▸ hworse.le
      obtain rfl | hb := List.mem_cons.1 hb
      · exact hle
      · exact hle.trans (hbest _ (Vector.mem_toList_iff.2 (Vector.getElem_mem hpos)) b hb)
  · rw [worse_iff, not_lt] at hworse
    exact hstay (by omega) fun a ha => (hheap.le_first hpos ha).trans hworse
  · omega

lemma keeps_foldl_offer (k : ℤ) (offered : List (SearchResult δ)) :
    (offered.foldl TopK.offer (newTopK k)).Keeps k offered := by
  induction offered using List.reverseRecOn with
  | nil => exact ⟨rfl, fun x _ hx => by simp [newTopK] at hx, by simp [newTopK], [], by simp [newTopK]⟩
  | append_singleton offered r ih =>
    rw [List.foldl_append]
    exact ih.offer r

/-- **The best results.** After any offers `sorted` returns the first `k` of them in the order of
distances and numbers, whatever the order in which they were offered. -/
theorem sorted_eq_best (k : ℤ) (offered : List (SearchResult δ)) :
    (offered.foldl TopK.offer (newTopK k)).sorted =
        (StableSort.sortBy SearchResult.rank offered).take k.toNat ∧
      ∀ offered' : List (SearchResult δ), offered'.Perm offered →
        (offered'.foldl TopK.offer (newTopK k)).sorted =
          (offered.foldl TopK.offer (newTopK k)).sorted := by
  have hbest (offered : List (SearchResult δ)) : (offered.foldl TopK.offer (newTopK k)).sorted =
      (sortBy SearchResult.rank offered).take k.toNat := by
    obtain ⟨-, hheap, hlen, rest, hperm, hbest⟩ := keeps_foldl_offer k offered
    set t := offered.foldl TopK.offer (newTopK k)
    obtain ⟨hsorted, hdrain⟩ := drain_spec worse_iff hheap
    have hsort : t.sorted ++ sortBy SearchResult.rank rest =
        sortBy SearchResult.rank offered := by
      refine eq_sortBy rank_injective
        ((hdrain.append (perm_sortBy _ rest)).trans hperm) (List.pairwise_append.2
          ⟨hsorted, pairwise_sortBy _ rest, fun a ha b hb => ?_⟩)
      exact hbest a (hdrain.subset ha) b ((mem_sortBy _).1 hb)
    have hlength := hperm.length_eq
    have hdrained : t.sorted.length = t.len := hdrain.length_eq.trans Vector.length_toList
    rw [List.length_append, Vector.length_toList] at hlength
    rw [← hsort]
    by_cases hfull : t.len = k.toNat
    · exact (List.take_left' (hdrained.trans hfull)).symm
    · obtain rfl : rest = [] := List.length_eq_zero_iff.1 (by omega)
      rw [List.take_of_length_le (by simp [sortBy]; omega)]
      simp [sortBy]
  refine ⟨hbest offered, fun offered' hperm => ?_⟩
  rw [hbest, hbest, eq_sortBy rank_injective ((perm_sortBy _ _).trans hperm)
    (pairwise_sortBy _ _)]

end Haystack.VectorStore
