import Haystack.Lib.Bytes
import Haystack.Lib.Search

/-!
# Prefix scans over blocks of records

Records with byte-string keys stand in blocks. A scan for a prefix bisects the first keys for the last
block whose first key is not above the prefix and reads on from there until it meets a key at or past
the end of the range. If the keys are ordered as far as the prefix is concerned (`Ordered`), the
records that it visits are those with the prefix.
-/

namespace PrefixScan

open List

variable {α : Type*} (key : α → Bytes)

/-- The first key of a block. -/
def firstKey (blk : List α) : Bytes :=
  (blk.head?.map key).getD []

/-- Whether a key is at or past the end of the range, which is open if there is no end. -/
def pastEnd (hi : Option Bytes) (k : Bytes) : Bool :=
  hi.any fun u => u ≤ k

/-- The records of a block with the prefix `lo`, and whether the scan ran past the range. -/
def scanBlock (lo : Bytes) (hi : Option Bytes) : List α → List α × Bool
  | [] => ([], false)
  | r :: blk =>
    if pastEnd hi (key r) then ([], true)
    else
      let (visited, stop) := scanBlock lo hi blk
      (if lo <+: key r then r :: visited else visited, stop)

def scanBlocks (lo : Bytes) (hi : Option Bytes) : List (List α) → List α
  | [] => []
  | blk :: blocks =>
    if pastEnd hi (firstKey key blk) then []
    else
      let (visited, stop) := scanBlock key lo hi blk
      if stop then visited else visited ++ scanBlocks lo hi blocks

/-- The block in which a scan starts. -/
def start (lo : Bytes) (blocks : List (List α)) : ℕ :=
  BinarySearch.search blocks.length (fun i => lo < firstKey key (blocks[i]?.getD [])) - 1

/-- The records visited by a scan, in order. -/
def scan (lo : Bytes) (hi : Option Bytes) (blocks : List (List α)) : List α :=
  scanBlocks key lo hi (blocks.drop (start key lo blocks))

/-- What a scan for a prefix relies on: once past the prefix the keys stay past it, and what stands
before a key below the prefix does not have the prefix. -/
def Ordered (lo : Bytes) (rs : List α) : Prop :=
  rs.Pairwise fun r r' => (lo < key r → lo < key r') ∧
    (pastEnd (Bytes.prefixUpper lo) (key r) = true → ¬ lo <+: key r') ∧
    (key r' ≤ lo → ¬ lo <+: key r)

variable {key} {lo : Bytes} {hi : Option Bytes} {r : α}

lemma pastEnd_eq_true {k : Bytes} : pastEnd hi k = true ↔ ∃ u ∈ hi, u ≤ k := by
  simp [pastEnd, Option.any_eq_true]

/-- No key at or past the end of the range of a prefix has the prefix. -/
lemma not_prefix_of_pastEnd {k k' : Bytes} (h : pastEnd (Bytes.prefixUpper lo) k = true)
    (hle : k ≤ k') : ¬ lo <+: k' := by
  obtain ⟨u, hu, huk⟩ := pastEnd_eq_true.1 h
  exact fun hpre => ((Bytes.prefix_iff_range lo k').1 hpre).2 u hu |>.not_ge (huk.trans hle)

lemma not_prefix_of_lt {k : Bytes} (h : k < lo) : ¬ lo <+: k :=
  fun hpre => ((Bytes.prefix_iff_range lo k).1 hpre).1.not_gt h

lemma Ordered.of_strict {rs : List α} (h : rs.Pairwise fun r r' => key r < key r') (lo : Bytes) :
    Ordered key lo rs :=
  h.imp fun hlt => ⟨fun hlo => hlo.trans hlt, fun hpast => not_prefix_of_pastEnd hpast hlt.le,
    fun hle => not_prefix_of_lt (hlt.trans_le hle)⟩

lemma Ordered.filter_eq_nil {rs : List α} (h : Ordered key lo (r :: rs))
    (hpast : pastEnd (Bytes.prefixUpper lo) (key r) = true) :
    (r :: rs).filter (fun r => lo <+: key r) = [] := by
  refine filter_eq_nil_iff.2 fun r' hr' => ?_
  rcases mem_cons.1 hr' with rfl | hr'
  · simpa using not_prefix_of_pastEnd hpast le_rfl
  · simpa using ((pairwise_cons.1 h).1 r' hr').2.1 hpast

/-- In front of ordered records, a block scan yields the matching records of the block, and if it
stops there is no match behind the block. -/
lemma scanBlock_spec (lo : Bytes) (blk rest : List α) (h : Ordered key lo (blk ++ rest)) :
    (scanBlock key lo (Bytes.prefixUpper lo) blk).1 = blk.filter (fun r => lo <+: key r) ∧
      ((scanBlock key lo (Bytes.prefixUpper lo) blk).2 = true →
        rest.filter (fun r => lo <+: key r) = []) := by
  induction blk with
  | nil => simp [scanBlock]
  | cons r blk ih =>
    rw [scanBlock]
    split
    case isTrue hpast =>
      have hall := h.filter_eq_nil hpast
      change ((r :: blk) ++ rest).filter (fun r => lo <+: key r) = [] at hall
      rw [filter_append, append_eq_nil_iff] at hall
      exact ⟨hall.1.symm, fun _ => hall.2⟩
    case isFalse =>
      obtain ⟨hvis, hstop⟩ := ih (pairwise_cons.1 h).2
      refine ⟨?_, hstop⟩
      by_cases hpre : lo <+: key r <;> simp [hpre, hvis]

lemma scanBlocks_spec (lo : Bytes) (blocks : List (List α)) (hne : ∀ blk ∈ blocks, blk ≠ [])
    (h : Ordered key lo blocks.flatten) :
    scanBlocks key lo (Bytes.prefixUpper lo) blocks =
      blocks.flatten.filter (fun r => lo <+: key r) := by
  induction blocks with
  | nil => rfl
  | cons blk blocks ih =>
    rw [flatten_cons] at h ⊢
    rw [scanBlocks]
    split
    case isTrue hpast =>
      obtain ⟨r, blk', rfl⟩ := exists_cons_of_ne_nil (hne blk (by simp))
      exact (Ordered.filter_eq_nil h hpast).symm
    case isFalse =>
      obtain ⟨hvis, hstop⟩ := scanBlock_spec lo blk blocks.flatten h
      have hrest := ih (fun b hb => hne b (by simp [hb])) (pairwise_append.1 h).2.1
      rw [filter_append, ← hvis]
      dsimp only
      split
      case isTrue hs => simp [hstop hs]
      case isFalse => rw [hrest]

variable (key) in
/-- The records of an earlier block and the first record of a later one. -/
lemma firstKey_of_lt {R : α → α → Prop} {blocks : List (List α)} (hne : ∀ blk ∈ blocks, blk ≠ [])
    (h : blocks.flatten.Pairwise R) {i j : ℕ} {bi bj : List α} (hij : i < j)
    (hi : blocks[i]? = some bi) (hj : blocks[j]? = some bj) (hr : r ∈ bi) :
    ∃ r', R r r' ∧ firstKey key bj = key r' := by
  obtain ⟨r', blk', rfl⟩ := exists_cons_of_ne_nil (hne bj (mem_of_getElem? hj))
  have hpw := (List.pairwise_flatten.1 h).2
  obtain ⟨hi', rfl⟩ := List.getElem?_eq_some_iff.1 hi
  obtain ⟨hj', hjeq⟩ := List.getElem?_eq_some_iff.1 hj
  exact ⟨r', List.pairwise_iff_getElem.1 hpw i j hi' hj' hij r hr r' (by simp [hjeq]), rfl⟩

section Scan

variable {blocks : List (List α)} (hne : ∀ blk ∈ blocks, blk ≠ [])
  (h : Ordered key lo blocks.flatten)

include hne h

/-- The blocks whose first key is above `lo` are the last ones. -/
lemma search_blocks_spec :
    let f := fun i => decide (lo < firstKey key (blocks[i]?.getD []))
    BinarySearch.Bracket f blocks.length (BinarySearch.search blocks.length f)
      (BinarySearch.search blocks.length f) := by
  refine BinarySearch.search_spec fun a b hab hb ha => ?_
  rcases hab.eq_or_lt with rfl | hab
  · exact ha
  · have ha' := getElem?_eq_getElem (hab.trans hb)
    have hb' := getElem?_eq_getElem hb
    obtain ⟨r, blk, hblk⟩ := exists_cons_of_ne_nil (hne _ (mem_of_getElem? ha'))
    obtain ⟨r', hr', hfirst⟩ := firstKey_of_lt key hne h hab ha' hb' (r := r)
      (by rw [hblk]; exact mem_cons_self)
    simp only [ha', hb', Option.getD_some, decide_eq_true_eq, hblk, hfirst] at ha ⊢
    exact hr'.1 (by simpa [firstKey] using ha)

/-- A scan visits exactly the records with the prefix. -/
theorem scan_eq_filter :
    scan key lo (Bytes.prefixUpper lo) blocks = blocks.flatten.filter (fun r => lo <+: key r) := by
  have hspec := search_blocks_spec hne h
  rw [scan]
  set n := start key lo blocks with hn
  rw [start] at hn
  have hsplit : blocks.flatten = (blocks.take n).flatten ++ (blocks.drop n).flatten := by
    rw [← flatten_append, take_append_drop]
  -- the blocks that are skipped lie below the prefix
  have hskip : (blocks.take n).flatten.filter (fun r => lo <+: key r) = [] := by
    refine filter_eq_nil_iff.2 fun r hr => ?_
    obtain ⟨blk, hblk, hr⟩ := mem_flatten.1 hr
    obtain ⟨i, hi⟩ := List.getElem?_of_mem hblk
    have hilt : i < n := (List.getElem?_eq_some_iff.1 hi).1.trans_le (by simp)
    rw [getElem?_take_of_lt hilt] at hi
    have hle := hspec.le_top
    have hst : n < blocks.length := by omega
    have hbelow := hspec.below n (by omega)
    have hst' := getElem?_eq_getElem hst
    obtain ⟨r', hr', hfirst⟩ := firstKey_of_lt key hne h hilt hi hst' hr
    simp only [hst', Option.getD_some, decide_eq_false_iff_not, not_lt, hfirst] at hbelow
    simpa using hr'.2.2 hbelow
  have hrest : Ordered key lo (blocks.drop n).flatten := by
    rw [Ordered, hsplit, pairwise_append] at h
    exact h.2.1
  rw [scanBlocks_spec lo _ (fun b hb => hne b (mem_of_mem_drop hb)) hrest, hsplit,
    filter_append, hskip, nil_append]

end Scan

/-! ### Without an order -/

lemma mem_scanBlock {blk : List α} (h : r ∈ (scanBlock key lo hi blk).1) :
    r ∈ blk ∧ lo <+: key r := by
  induction blk with
  | nil => cases h
  | cons r' blk ih =>
    rw [scanBlock] at h
    split at h
    case isTrue => cases h
    case isFalse =>
      dsimp only at h
      split at h
      case isTrue hpre =>
        rcases mem_cons.1 h with rfl | h
        · exact ⟨by simp, hpre⟩
        · exact ⟨by simp [(ih h).1], (ih h).2⟩
      case isFalse => exact ⟨by simp [(ih h).1], (ih h).2⟩

/-- Whatever the order of the records, a scan visits only records with the prefix. -/
lemma mem_scan {blocks : List (List α)} (h : r ∈ scan key lo hi blocks) :
    r ∈ blocks.flatten ∧ lo <+: key r := by
  have hblocks : ∀ {blocks : List (List α)}, r ∈ scanBlocks key lo hi blocks →
      r ∈ blocks.flatten ∧ lo <+: key r := by
    intro blocks hr
    induction blocks with
    | nil => cases hr
    | cons blk blocks ih =>
      rw [scanBlocks] at hr
      split at hr
      case isTrue => cases hr
      case isFalse =>
        dsimp only at hr
        rw [flatten_cons, mem_append]
        split at hr
        case isTrue => exact (mem_scanBlock hr).imp_left .inl
        case isFalse =>
          rcases mem_append.1 hr with hr | hr
          · exact (mem_scanBlock hr).imp_left .inl
          · exact (ih hr).imp_left .inr
  obtain ⟨hmem, hpre⟩ := hblocks h
  obtain ⟨blk, hblk, hr⟩ := mem_flatten.1 hmem
  exact ⟨mem_flatten.2 ⟨blk, mem_of_mem_drop hblk, hr⟩, hpre⟩

end PrefixScan
