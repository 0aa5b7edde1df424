import Haystack.InvertedStore.Head
import Haystack.Lib.BitWords
import Haystack.Lib.StepSystem

/-!
# The operation log of a keyword

A `postingDelta` holds the documents of a log in the order of the operations, and beside them a
bitset that tells which operations add. `resolveOps` reads the operations back, sorts them by
document and takes the last one of each run. This is what a replay of the operations leaves.
-/

namespace Haystack.InvertedStore

open List StableSort

structure PostingDelta where
  docids : List DocId
  isAdd : List UInt64

namespace PostingDelta

def empty : PostingDelta := ⟨[], []⟩

variable (pd : PostingDelta)

def nOps : ℕ := pd.docids.length

/-- `opAt`; there is no result if an index is out of range. -/
def opAt (i : ℕ) : Option (DocId × Bool) := do
  let d ← pd.docids[i]?
  let w ← pd.isAdd[i / 64]?
  return (d, w &&& BitWords.mask i ≠ 0)

/-- `appendOp`: the bitset gets a new word when it is full. -/
def appendOp (docid : DocId) (isAdd : Bool) : Option PostingDelta :=
  let i := pd.docids.length
  let words := if pd.isAdd.length ≤ i / 64 then pd.isAdd ++ [0] else pd.isAdd
  if isAdd then
    if i / 64 < words.length then
      some ⟨pd.docids ++ [docid], words.modify (i / 64) (· ||| BitWords.mask i)⟩
    else none
  else some ⟨pd.docids ++ [docid], words⟩

/-- The loop over the sorted operations: the last one of each run decides. -/
def resolveRuns : List (DocId × Bool) → List DocId → List DocId → List DocId × List DocId
  | [], adds, dels => (adds, dels)
  | op :: rest, adds, dels =>
    let last := (rest.takeWhile fun x => x.1 = op.1).getLast?.getD op
    let rest' := rest.dropWhile fun x => x.1 = op.1
    if last.2 then resolveRuns rest' (adds ++ [last.1]) dels
    else resolveRuns rest' adds (dels ++ [last.1])
termination_by ops => ops.length
decreasing_by all_goals exact Nat.lt_succ_of_le (List.dropWhile_sublist _).length_le

def resolveOps : Option (List DocId × List DocId) :=
  if pd.nOps = 0 then some ([], [])
  else ((List.range pd.nOps).mapM pd.opAt).map fun scratch =>
    resolveRuns (StableSort.sortBy Prod.fst scratch) [] []

end PostingDelta

/-- The part of `headTable` that postings change. -/
structure PostingHead where
  inv : GoMap Keyword PostingDelta
  bytes : ℕ

namespace PostingHead

variable (h : PostingHead)

/-- `posting`: the log of a keyword, a new one if there is none. -/
def posting (w : Keyword) : PostingDelta × PostingHead :=
  match h.inv.lookup w with
  | some pd => (pd, h)
  | none => (.empty, ⟨h.inv.insert w .empty, h.bytes + (w.length + 24)⟩)

def appendOp (isAdd : Bool) (w : Keyword) (d : DocId) : Option PostingHead :=
  let (pd, h) := h.posting w
  (pd.appendOp d isAdd).map fun pd => ⟨h.inv.insert w pd, h.bytes + 8⟩

def addPosting (w : Keyword) (d : DocId) : Option PostingHead :=
  h.appendOp true w d

def tombstonePosting (w : Keyword) (d : DocId) : Option PostingHead :=
  h.appendOp false w d

end PostingHead

/-- A call of `addPosting` or `tombstonePosting`. -/
structure PostingOp where
  isAdd : Bool
  keyword : Keyword
  docid : DocId

/-- The calls, from a new head on; there is no head if one of them panics. -/
def postAll (ops : List PostingOp) : Option PostingHead :=
  ops.foldlM (fun h op => if op.isAdd then h.addPosting op.keyword op.docid
    else h.tombstonePosting op.keyword op.docid) ⟨∅, 0⟩

/-- The operations on a keyword. -/
def logOf (ops : List PostingOp) (w : Keyword) : List (DocId × Bool) :=
  (ops.filter fun op => op.keyword = w).map fun op => (op.docid, op.isAdd)

/-! ### Packed logs -/

/-- The packed form of a log. -/
structure PostingDelta.Holds (pd : PostingDelta) (ops : List (DocId × Bool)) : Prop where
  docids : pd.docids = ops.map Prod.fst
  words : pd.isAdd.length = (ops.length + 63) / 64
  bits : ∀ i, BitWords.get pd.isAdd i = ops[i]?.any Prod.snd

namespace PostingDelta

variable {pd : PostingDelta} {ops : List (DocId × Bool)}

lemma holds_empty : empty.Holds [] :=
  ⟨rfl, rfl, fun i => by simp [empty, BitWords.get]⟩

lemma Holds.appendOp (h : pd.Holds ops) (d : DocId) (b : Bool) :
    ∃ pd', pd.appendOp d b = some pd' ∧ pd'.Holds (ops ++ [(d, b)]) := by
  have hn : pd.docids.length = ops.length := by simp [h.docids]
  have hdocids : pd.docids ++ [d] = (ops ++ [(d, b)]).map Prod.fst := by simp [h.docids]
  have hlength := h.words
  -- the bitset with room for one more bit
  obtain ⟨words, hwords, hlen, hget⟩ : ∃ words,
      words = (if pd.isAdd.length ≤ ops.length / 64 then pd.isAdd ++ [0] else pd.isAdd) ∧
      words.length = ops.length / 64 + 1 ∧ ∀ i, BitWords.get words i = ops[i]?.any Prod.snd := by
    refine ⟨_, rfl, ?_, fun i => ?_⟩
    · split
      · rw [length_append, length_singleton]
        omega
      · omega
    · split
      · exact (BitWords.get_append_replicate pd.isAdd 1 i).trans (h.bits i)
      · exact h.bits i
  have hroom : ops.length / 64 < words.length := by omega
  have hcount : words.length = ((ops ++ [(d, b)]).length + 63) / 64 := by
    rw [length_append, length_singleton]
    omega
  have hlast (i : ℕ) : (ops ++ [(d, b)])[i]?.any Prod.snd =
      (decide (i = ops.length) && b || ops[i]?.any Prod.snd) := by
    rw [getElem?_append]
    split
    case isTrue hi => simp [hi.ne]
    case isFalse hi =>
      rw [getElem?_eq_none (not_lt.1 hi), getElem?_singleton]
      by_cases heq : i = ops.length
      · simp [heq]
      · simp [heq, show i - ops.length ≠ 0 by omega]
  unfold PostingDelta.appendOp
  simp only [hn, ← hwords]
  cases b with
  | true =>
    refine ⟨_, by rw [if_pos rfl, if_pos hroom], hdocids, by rwa [length_modify], fun i => ?_⟩
    rw [BitWords.get_modify hroom, hlast, hget, Bool.and_true]
  | false =>
    refine ⟨_, by rw [if_neg (by simp)], hdocids, hcount, fun i => ?_⟩
    rw [hlast, hget, Bool.and_false, Bool.false_or]

lemma Holds.opAt (h : pd.Holds ops) {i : ℕ} (hi : i < ops.length) : pd.opAt i = some ops[i] := by
  have hword : i / 64 < pd.isAdd.length := by
    rw [h.words]
    omega
  have hbit := h.bits i
  rw [BitWords.get, getElem?_eq_getElem hword, getElem?_eq_getElem hi, Option.getD_some,
    ← BitWords.and_mask_ne_zero] at hbit
  rw [PostingDelta.opAt, h.docids, getElem?_map, getElem?_eq_getElem hi,
    getElem?_eq_getElem hword]
  exact congrArg (fun b => some (ops[i].1, b)) hbit

lemma resolveRuns_eq (l : List (DocId × Bool)) (adds dels : List DocId) :
    resolveRuns l adds dels =
      (adds ++ ((StableSort.lastOfRuns Prod.fst l).filter Prod.snd).map Prod.fst,
        dels ++ ((StableSort.lastOfRuns Prod.fst l).filter fun x => !x.2).map Prod.fst) := by
  induction l, adds, dels using resolveRuns.induct with
  | case1 adds dels => simp [resolveRuns, lastOfRuns]
  | case2 op rest adds dels last rest' hlast ih =>
    rw [resolveRuns, lastOfRuns_cons, if_pos hlast, ih]
    simp [last, rest', show last.2 = true from hlast]
  | case3 op rest adds dels last rest' hlast ih =>
    rw [resolveRuns, lastOfRuns_cons, if_neg hlast, ih]
    simp [last, rest', hlast]

/-- The packed log resolves as the log does. -/
theorem Holds.resolveOps (h : pd.Holds ops) :
    pd.resolveOps = some (InvertedStore.resolveOps ops) := by
  have hn : pd.nOps = ops.length := by simp [nOps, h.docids]
  have hread : (range ops.length).mapM pd.opAt = some ops := by
    obtain ⟨l, hl, hR⟩ := StepSystem.exists_mapM_eq_some (R := fun i op => ops[i]? = some op)
      fun i hi => ⟨_, h.opAt (mem_range.1 hi), getElem?_eq_getElem _⟩
    have hlength : l.length = ops.length := by simpa using hR.length_eq.symm
    rw [hl, ext_getElem hlength fun i hi hi' => ?_]
    have hget := hR.get (by simpa using hi') hi
    simp only [get_eq_getElem, getElem_range, getElem?_eq_getElem hi'] at hget
    exact (Option.some.inj hget).symm
  rw [PostingDelta.resolveOps, hn]
  split
  case isTrue hzero => rw [length_eq_zero_iff.1 hzero]; rfl
  case isFalse => rw [hread, Option.map_some, resolveRuns_eq]; rfl

end PostingDelta

/-! ### Packed heads -/

/-- A packed head against the head whose logs are lists. -/
structure PostingHead.Refines (p : PostingHead) (h : HeadTable) : Prop where
  mem_iff : ∀ w, w ∈ p.inv ↔ w ∈ h.inv
  holds : ∀ w, ((p.inv.lookup w).getD .empty).Holds ((h.inv.lookup w).getD [])
  bytes : p.bytes = h.bytes

lemma PostingHead.Refines.appendOp {p : PostingHead} {h : HeadTable} (hr : p.Refines h) (b : Bool)
    (w : Keyword) (d : DocId) :
    ∃ p', p.appendOp b w d = some p' ∧ p'.Refines (h.appendOp b w d) := by
  obtain ⟨pd, hpd, hholds⟩ := (hr.holds w).appendOp d b
  have happend : p.appendOp b w d = some ⟨p.inv.insert w pd, (h.appendOp b w d).bytes⟩ := by
    rw [PostingHead.appendOp, posting, HeadTable.appendOp, ← hr.bytes]
    cases hw : p.inv.lookup w with
    | some pd' =>
      rw [hw, Option.getD_some] at hpd
      have hmem : w ∈ h.inv := (hr.mem_iff w).1 (GoMap.mem_iff_exists_lookup.2 ⟨pd', hw⟩)
      simp [hpd, hmem]
    | none =>
      rw [hw, Option.getD_none] at hpd
      have hmem : w ∉ h.inv := mt (hr.mem_iff w).2 (AList.lookup_eq_none.1 hw)
      simp [hpd, hmem, AList.insert_insert]
  refine ⟨_, happend, fun v => ?_, fun v => ?_, rfl⟩
  · simp [HeadTable.appendOp, hr.mem_iff]
  · simp only [HeadTable.appendOp, GoMap.lookup_insert_if]
    split
    case isTrue => exact hholds
    case isFalse => exact hr.holds v

/-- The calls on the head whose logs are lists. -/
def recordAll (ops : List PostingOp) : HeadTable :=
  ops.foldl (fun h op => h.appendOp op.isAdd op.keyword op.docid) newHeadTable

lemma lookup_recordAll (ops : List PostingOp) (w : Keyword) :
    ((recordAll ops).inv.lookup w).getD [] = logOf ops w := by
  induction ops using reverseRecOn with
  | nil => rfl
  | append_singleton ops op ih =>
    rw [recordAll, foldl_append, ← recordAll, foldl_cons, foldl_nil,
      HeadTable.appendOp, GoMap.lookup_insert_if]
    by_cases hw : w = op.keyword
    · subst hw
      simp [ih, logOf]
    · rw [if_neg hw, ih]
      simp [logOf, Ne.symm hw]

/-- No call panics, and the packed head is the head of the calls. -/
theorem exists_postAll (ops : List PostingOp) :
    ∃ p, postAll ops = some p ∧ p.Refines (recordAll ops) := by
  induction ops using reverseRecOn with
  | nil => exact ⟨_, rfl, fun _ => Iff.rfl, fun _ => PostingDelta.holds_empty, rfl⟩
  | append_singleton ops op ih =>
    obtain ⟨p, hp, hr⟩ := ih
    obtain ⟨p', hp', hr'⟩ := hr.appendOp op.isAdd op.keyword op.docid
    refine ⟨p', ?_, ?_⟩
    · rw [postAll, foldlM_append, ← postAll, hp]
      cases hb : op.isAdd <;>
        simpa [hb, PostingHead.addPosting, PostingHead.tombstonePosting] using hp'
    · rwa [recordAll, foldl_append]

/-! ### Replay -/

/-- The documents that a replay of the operations leaves added and those it leaves removed, both
ascending. -/
structure Replays (ops : List (DocId × Bool)) (adds dels : List DocId) : Prop where
  adds_sorted : adds.Pairwise (· < ·)
  dels_sorted : dels.Pairwise (· < ·)
  disjoint : adds.Disjoint dels
  mem_adds : ∀ d, d ∈ adds ↔ lastAct ops d = some true
  mem_dels : ∀ d, d ∈ dels ↔ lastAct ops d = some false

lemma replays_resolveOps (ops : List (DocId × Bool)) :
    Replays ops (resolveOps ops).1 (resolveOps ops).2 := by
  have hsorted := pairwise_lastOfRuns Prod.fst (pairwise_sortBy Prod.fst ops)
  refine ⟨pairwise_map.2 (hsorted.filter _), pairwise_map.2 (hsorted.filter _),
    fun d hadd hdel => ?_, fun d => mem_resolveOps_fst, fun d => mem_resolveOps_snd⟩
  rw [mem_resolveOps_fst] at hadd
  rw [mem_resolveOps_snd, hadd] at hdel
  cases hdel

/-- After any calls the log of each keyword resolves to what a replay of its operations leaves. -/
theorem resolveOps_eq_replay (ops : List PostingOp) : ∃ head, postAll ops = some head ∧
    ∀ w, ∃ adds dels, ((head.inv.lookup w).getD .empty).resolveOps = some (adds, dels) ∧
      Replays (logOf ops w) adds dels := by
  obtain ⟨head, hhead, hr⟩ := exists_postAll ops
  refine ⟨head, hhead, fun w => ?_⟩
  have hholds := hr.holds w
  rw [lookup_recordAll] at hholds
  exact ⟨_, _, hholds.resolveOps, replays_resolveOps (logOf ops w)⟩

end Haystack.InvertedStore
