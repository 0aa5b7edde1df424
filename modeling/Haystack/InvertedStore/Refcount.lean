import Haystack.Lib.StepSystem

/-!
# Reference counts of segments

Every segment carries a reference count: one reference for the published snapshot, one for every
reader that has acquired it and one for every merge plan. A merge, or the close of the store, takes
segments out of the snapshot and drops their published reference; whoever drops the last reference
closes the file. The model has one step per atomic operation of every goroutine. A reader acquires
its references one by one under the read lock, so that the snapshot is not exchanged meanwhile; all
other operations on a segment are those of threads that run in any order. (In the code a merge
retires its inputs one after the other under the lock; here they may also be retired at once.)
-/

namespace Haystack.InvertedStore

open List

/-- What a thread that works on a segment does next. -/
inductive Phase
  /-- A reader or a merge plan that holds a reference drops it: `refs.Add(-1)` in `release`. -/
  | hold
  /-- `release` has dropped the last reference: `retired.Load()`. -/
  | loadRetired
  /-- The first step of `retireKeepFile`: `keepFile.Store(true)`. -/
  | storeKeepFile
  /-- The first step of `retire`: `retired.Store(true)`. -/
  | storeRetired
  /-- The drop of the published reference: `refs.Add(-1)` in `retire` and `retireKeepFile`. -/
  | dropPublished
  /-- The first step of `teardown`: `tornDown.CompareAndSwap(false, true)`. -/
  | swapTornDown
  /-- `close` in `teardown`. -/
  | closeFile
  /-- The last step of `teardown`: `os.Remove`, unless `keepFile`. -/
  | removeFile
  deriving DecidableEq

/-- The counters and flags of a segment, how often its file was closed, whether it was unlinked, and
the threads at work on the segment. -/
structure SegRef where
  refs : ℤ
  retired : Bool
  keepFile : Bool
  tornDown : Bool
  closes : ℕ
  unlinked : Bool
  threads : Multiset Phase

namespace SegRef

variable (x : SegRef)

/-- A segment that has just been published, by `Open`, a spill or a merge. -/
def published : SegRef :=
  ⟨1, false, false, false, 0, false, 0⟩

def spawn (ph : Phase) : SegRef :=
  { x with threads := ph ::ₘ x.threads }

/-- A reader or a merge plan takes a reference. -/
def incref : SegRef :=
  { x with refs := x.refs + 1 }.spawn .hold

/-- `refs.Add(-1)`, after which the thread goes on to `last` if the count has reached zero. -/
def decref (last : Phase) : SegRef :=
  if x.refs - 1 = 0 then { x with refs := 0 }.spawn last else { x with refs := x.refs - 1 }

/-- The next step of a thread. -/
def act : Phase → SegRef
  | .hold => x.decref .loadRetired
  | .loadRetired => if x.retired then x.spawn .swapTornDown else x
  | .storeKeepFile => { x with keepFile := true }.spawn .storeRetired
  | .storeRetired => { x with retired := true }.spawn .dropPublished
  | .dropPublished => x.decref .swapTornDown
  | .swapTornDown => if x.tornDown then x else { x with tornDown := true }.spawn .closeFile
  | .closeFile => { x with closes := x.closes + 1 }.spawn .removeFile
  | .removeFile => if x.keepFile then x else { x with unlinked := true }

/-- A thread takes its next step. -/
def run (ph : Phase) : Option SegRef :=
  if ph ∈ x.threads then some ({ x with threads := x.threads.erase ph }.act ph) else none

end SegRef

/-- All segments ever published, numbered in this order, the published snapshot, and for every reader
that holds the read lock the segments it has still to reference. -/
structure Refs where
  segs : ℕ → SegRef
  next : ℕ
  snap : List ℕ
  acquiring : List (List ℕ)

inductive RefLabel
  /-- A reader or a merge plan takes the lock and finds the segments to reference: all of the
  snapshot, or the inputs of a merge. -/
  | lock (ids : List ℕ)
  | incref (i : ℕ)
  | unlock (i : ℕ)
  /-- A spill or a merge publishes a segment in the place of others. -/
  | install (inputs : List ℕ)
  /-- The end of `CloseAndWait`. -/
  | close
  | thread (j : ℕ) (ph : Phase)

namespace Refs

variable (s : Refs)

/-- A store as `Open` leaves it. -/
def opened (n : ℕ) : Refs :=
  ⟨fun _ => .published, n, List.range n, []⟩

def update (j : ℕ) (x : SegRef) : Refs :=
  { s with segs := Function.update s.segs j x }

/-- The steps; those that exchange the snapshot wait for all holders of the lock. -/
def step : RefLabel → Option Refs
  | .lock ids =>
    if ids.Sublist s.snap then some { s with acquiring := s.acquiring ++ [ids] } else none
  | .incref i =>
    match s.acquiring[i]? with
    | some (j :: ids) =>
      some { s.update j (s.segs j).incref with acquiring := s.acquiring.set i ids }
    | _ => none
  | .unlock i =>
    if s.acquiring[i]? = some [] then some { s with acquiring := s.acquiring.eraseIdx i } else none
  | .install inputs =>
    if s.acquiring = [] ∧ ∀ j ∈ inputs, j ∈ s.snap then
      some
        { segs := fun j =>
            if j = s.next then .published
            else if j ∈ inputs then (s.segs j).spawn .storeRetired else s.segs j
          next := s.next + 1
          snap := (s.snap.filter fun j => j ∉ inputs) ++ [s.next]
          acquiring := [] }
    else none
  | .close =>
    if s.acquiring = [] then
      some
        { s with
          segs := fun j => if j ∈ s.snap then (s.segs j).spawn .storeKeepFile else s.segs j
          snap := [] }
    else none
  | .thread j ph => if j < s.next then ((s.segs j).run ph).map (s.update j) else none

end Refs

/-- The segments that were retired by merges. -/
def mergedAway (ls : List RefLabel) : List ℕ :=
  ls.flatMap fun
    | .install inputs => inputs
    | _ => []

/-! ### The life of a segment -/

open Multiset in
/-- The states of a segment with `h` holders: whether it is in the snapshot, whether a merge has
taken it out, and how far its end has come. -/
inductive Life : Bool → Bool → SegRef → Prop
  | live (h : ℕ) : Life true false ⟨h + 1, false, false, false, 0, false, replicate h .hold⟩
  | closed (h : ℕ) : Life false false
      ⟨h + 1, false, false, false, 0, false, .storeKeepFile ::ₘ replicate h .hold⟩
  | leaving (h : ℕ) (m : Bool) : Life false m
      ⟨h + 1, false, !m, false, 0, false, .storeRetired ::ₘ replicate h .hold⟩
  | dropping (h : ℕ) (m : Bool) : Life false m
      ⟨h + 1, true, !m, false, 0, false, .dropPublished ::ₘ replicate h .hold⟩
  | waiting (h : ℕ) (m : Bool) : Life false m
      ⟨h + 1, true, !m, false, 0, false, replicate (h + 1) .hold⟩
  | checking (m : Bool) : Life false m ⟨0, true, !m, false, 0, false, {.loadRetired}⟩
  | tearing (m : Bool) : Life false m ⟨0, true, !m, false, 0, false, {.swapTornDown}⟩
  | closing (m : Bool) : Life false m ⟨0, true, !m, true, 0, false, {.closeFile}⟩
  | removing (m : Bool) : Life false m ⟨0, true, !m, true, 1, false, {.removeFile}⟩
  | gone (m : Bool) : Life false m ⟨0, true, !m, true, 1, m, 0⟩

namespace Life

variable {inSnap m : Bool} {x x' : SegRef}

lemma incref (h : Life true m x) : Life true m x.incref := by
  cases h with
  | live h =>
    have := Life.live (h + 1)
    simpa [SegRef.incref, SegRef.spawn, Multiset.replicate_succ, add_assoc] using this

/-- A merge takes a segment out of the snapshot. -/
lemma leave (h : Life true m x) : Life false true (x.spawn .storeRetired) := by
  cases h with
  | live h => exact .leaving h true

/-- The close of the store takes a segment out of the snapshot. -/
lemma close (h : Life true m x) : m = false ∧ Life false m (x.spawn .storeKeepFile) := by
  cases h with
  | live h => exact ⟨rfl, .closed h⟩

/-- A thread at work beside the holders, or one of the holders. -/
lemma mem_cons_holders {p ph : Phase} {h : ℕ} (hmem : ph ∈ p ::ₘ Multiset.replicate h .hold) :
    ph = p ∨ ph = .hold ∧ ∃ k, h = k + 1 := by
  rw [Multiset.mem_cons, Multiset.mem_replicate] at hmem
  exact hmem.imp_right fun ⟨hne, hph⟩ => ⟨hph, Nat.exists_eq_succ_of_ne_zero hne⟩

lemma erase_hold {p : Phase} (hp : p ≠ .hold) (k : ℕ) :
    (p ::ₘ Multiset.replicate (k + 1) .hold).erase .hold = p ::ₘ Multiset.replicate k .hold := by
  rw [Multiset.erase_cons_tail _ hp, Multiset.replicate_succ, Multiset.erase_cons_head]

/-- A holder that is not the last to drop its reference. -/
lemma act_hold (k : ℕ) (r kf : Bool) (threads : Multiset Phase) :
    (⟨↑(k + 1) + 1, r, kf, false, 0, false, threads⟩ : SegRef).act .hold =
      ⟨k + 1, r, kf, false, 0, false, threads⟩ := by
  have hne : (↑(k + 1) : ℤ) + 1 - 1 ≠ 0 := by omega
  simp only [SegRef.act, SegRef.decref, if_neg hne]
  push_cast
  simp

/-- Every step of a thread leads to the next state of the life. -/
lemma run {ph : Phase} (h : Life inSnap m x) (hr : x.run ph = some x') : Life inSnap m x' := by
  obtain ⟨hmem, rfl⟩ : ph ∈ x.threads ∧ { x with threads := x.threads.erase ph }.act ph = x' := by
    simpa [SegRef.run] using hr
  cases h with
  | live h =>
    obtain ⟨hne, rfl⟩ := Multiset.mem_replicate.1 hmem
    obtain ⟨k, rfl⟩ := Nat.exists_eq_succ_of_ne_zero hne
    simp only [Nat.succ_eq_add_one, Multiset.replicate_succ, Multiset.erase_cons_head, act_hold]
    exact .live k
  | closed h =>
    obtain rfl | ⟨rfl, k, rfl⟩ := mem_cons_holders hmem
    · simp only [Multiset.erase_cons_head]
      exact .leaving h false
    · simp only [erase_hold (p := .storeKeepFile) (by simp), act_hold]
      exact .closed k
  | leaving h m =>
    obtain rfl | ⟨rfl, k, rfl⟩ := mem_cons_holders hmem
    · simp only [Multiset.erase_cons_head]
      exact .dropping h m
    · simp only [erase_hold (p := .storeRetired) (by simp), act_hold]
      exact .leaving k m
  | dropping h m =>
    obtain rfl | ⟨rfl, k, rfl⟩ := mem_cons_holders hmem
    · simp only [Multiset.erase_cons_head]
      -- the published reference is the last one, or the holders remain
      cases h with
      | zero => exact .tearing m
      | succ k =>
        have hne : (↑(k + 1) : ℤ) + 1 - 1 ≠ 0 := by omega
        simp only [SegRef.act, SegRef.decref, if_neg hne]
        simpa using Life.waiting k m
    · simp only [erase_hold (p := .dropPublished) (by simp), act_hold]
      exact .dropping k m
  | waiting h m =>
    obtain ⟨-, rfl⟩ := Multiset.mem_replicate.1 hmem
    simp only [Multiset.replicate_succ, Multiset.erase_cons_head]
    cases h with
    | zero => exact .checking m
    | succ k =>
      rw [act_hold]
      exact .waiting k m
  | checking m =>
    obtain rfl := Multiset.mem_singleton.1 hmem
    exact .tearing m
  | tearing m =>
    obtain rfl := Multiset.mem_singleton.1 hmem
    exact .closing m
  | closing m =>
    obtain rfl := Multiset.mem_singleton.1 hmem
    exact .removing m
  | removing m =>
    obtain rfl := Multiset.mem_singleton.1 hmem
    cases m with
    | true => exact .gone true
    | false => exact .gone false
  | gone m => simp at hmem

/-- What can be read off a segment in any state of its life. -/
lemma facts (h : Life inSnap m x) :
    x.closes ≤ 1 ∧ (x.closes = 1 → x.tornDown = true) ∧
      (x.tornDown = true → Phase.hold ∉ x.threads ∧ inSnap = false) ∧
      (inSnap = false → x.threads = 0 → x.tornDown = true ∧ x.closes = 1 ∧ x.unlinked = m) ∧
      (x.unlinked = true → m = true ∧ x.tornDown = true) := by
  cases h <;> simp

end Life

/-! ### All segments -/

namespace Refs

/-- Every segment is in a state of its life, and the readers that hold the lock reference segments of
the snapshot. -/
structure Ok (ls : List RefLabel) (s : Refs) : Prop where
  snap_lt : ∀ j ∈ s.snap, j < s.next
  acquiring : ∀ ids ∈ s.acquiring, ∀ j ∈ ids, j ∈ s.snap
  merged_lt : ∀ j ∈ mergedAway ls, j < s.next
  life : ∀ j < s.next, Life (decide (j ∈ s.snap)) (decide (j ∈ mergedAway ls)) (s.segs j)

lemma ok_opened (n : ℕ) : Ok [] (opened n) := by
  refine ⟨by simp [opened], by simp [opened], by simp [mergedAway], fun j hj => ?_⟩
  have hmem : decide (j ∈ (opened n).snap) = true := decide_eq_true (mem_range.2 hj)
  rw [hmem]
  exact .live 0

lemma mergedAway_append (ls : List RefLabel) (l : RefLabel) :
    mergedAway (ls ++ [l]) = mergedAway ls ++ mergedAway [l] := by
  simp [mergedAway]

variable {s s' : Refs} {ls : List RefLabel} {l : RefLabel} {acquiring : List (List ℕ)}

/-- One segment changes, and no merge takes place. -/
lemma Ok.update (h : Ok ls s) (hl : mergedAway [l] = []) {j : ℕ} {x : SegRef}
    (hx : j < s.next → Life (decide (j ∈ s.snap)) (decide (j ∈ mergedAway ls)) x)
    (hacq : ∀ ids ∈ acquiring, ∀ j ∈ ids, j ∈ s.snap) :
    Ok (ls ++ [l]) { s.update j x with acquiring := acquiring } := by
  refine ⟨h.snap_lt, hacq, ?_, fun i hi => ?_⟩
  · rw [mergedAway_append, hl, append_nil]
    exact h.merged_lt
  · rw [mergedAway_append, hl, append_nil]
    by_cases hij : i = j
    · subst hij
      change Life _ _ (Function.update s.segs i x i)
      rw [Function.update_self]
      exact hx hi
    · change Life _ _ (Function.update s.segs j x i)
      rw [Function.update_of_ne hij]
      exact h.life i hi

/-- Only the holders of the lock change. -/
lemma Ok.relock (h : Ok ls s) (hl : mergedAway [l] = [])
    (hacq : ∀ ids ∈ acquiring, ∀ j ∈ ids, j ∈ s.snap) :
    Ok (ls ++ [l]) { s with acquiring := acquiring } := by
  have hls : mergedAway (ls ++ [l]) = mergedAway ls := by rw [mergedAway_append, hl, append_nil]
  exact ⟨h.snap_lt, hacq, hls ▸ h.merged_lt, hls ▸ h.life⟩

/-- Inputs of a merge leave the snapshot, and their retirement begins. -/
lemma Ok.install (h : Ok ls s) {inputs : List ℕ} (hin : ∀ j ∈ inputs, j ∈ s.snap)
    (hs : step s (.install inputs) = some s') : Ok (ls ++ [.install inputs]) s' := by
  simp only [step] at hs
  obtain ⟨-, hs⟩ := Option.ite_none_right_eq_some.1 hs
  cases hs
  have hmerged : mergedAway (ls ++ [.install inputs]) = mergedAway ls ++ inputs := by
    simp [mergedAway]
  refine ⟨fun j hj => ?_, by simp, fun j hj => ?_, fun j hj => ?_⟩
  · simp only [mem_append, mem_filter, mem_singleton] at hj
    rcases hj with ⟨hj, -⟩ | rfl
    exacts [(h.snap_lt j hj).trans (Nat.lt_succ_self _), Nat.lt_succ_self _]
  · rw [hmerged, mem_append] at hj
    rcases hj with hj | hj
    exacts [(h.merged_lt j hj).trans (Nat.lt_succ_self _),
      (h.snap_lt j (hin j hj)).trans (Nat.lt_succ_self _)]
  · rw [hmerged]
    dsimp only at hj ⊢
    by_cases hnext : j = s.next
    · have hfresh : j ∉ mergedAway ls ++ inputs := by
        rw [mem_append, not_or]
        exact ⟨fun hm => (h.merged_lt j hm).ne hnext, fun hm => (h.snap_lt j (hin j hm)).ne hnext⟩
      rw [if_pos hnext, decide_eq_true (by simp [hnext]), decide_eq_false hfresh]
      exact .live 0
    · have hlife := h.life j (by omega)
      rw [if_neg hnext]
      by_cases hj' : j ∈ inputs
      · rw [decide_eq_true (hin j hj')] at hlife
        rw [if_pos hj', decide_eq_false (by simp [hnext, hj']), decide_eq_true (by simp [hj'])]
        exact hlife.leave
      · rw [if_neg hj']
        simpa [hnext, hj'] using hlife

theorem ok_step (h : Ok ls s) (hs : step s l = some s') : Ok (ls ++ [l]) s' := by
  cases l with
  | lock ids =>
    obtain ⟨hsub, hs⟩ := Option.ite_none_right_eq_some.1 hs
    cases hs
    refine h.relock rfl fun ids' hids' j hj => ?_
    rw [mem_append, mem_singleton] at hids'
    rcases hids' with hids' | rfl
    exacts [h.acquiring ids' hids' j hj, hsub.subset hj]
  | incref i =>
    simp only [step] at hs
    split at hs
    case h_1 j ids hi =>
      cases hs
      have hmem := mem_of_getElem? hi
      have hj : j ∈ s.snap := h.acquiring _ hmem j (by simp)
      refine h.update rfl (fun hlt => ?_) fun ids' hids' => ?_
      · have hlife := h.life j hlt
        rw [decide_eq_true hj] at hlife ⊢
        exact hlife.incref
      · rcases mem_or_eq_of_mem_set hids' with hids' | rfl
        · exact h.acquiring ids' hids'
        · exact fun k hk => h.acquiring _ hmem k (mem_cons_of_mem _ hk)
    case h_2 => simp at hs
  | unlock i =>
    obtain ⟨-, hs⟩ := Option.ite_none_right_eq_some.1 hs
    cases hs
    exact h.relock rfl fun ids hids => h.acquiring ids (mem_of_mem_eraseIdx hids)
  | install inputs =>
    have hguard := (Option.ite_none_right_eq_some.1 hs).1
    exact h.install hguard.2 hs
  | close =>
    obtain ⟨hacq, hs⟩ := Option.ite_none_right_eq_some.1 hs
    cases hs
    have hls : mergedAway (ls ++ [.close]) = mergedAway ls := by simp [mergedAway]
    refine ⟨by simp, by simp [hacq], hls ▸ h.merged_lt, fun j hj => ?_⟩
    rw [hls]
    have hlife := h.life j hj
    by_cases hmem : j ∈ s.snap
    · simp only [hmem, decide_true, if_true, not_mem_nil, decide_false] at hlife ⊢
      exact hlife.close.2
    · simpa [hmem] using hlife
  | thread j ph =>
    simp only [step] at hs
    obtain ⟨hlt, hs⟩ := Option.ite_none_right_eq_some.1 hs
    obtain ⟨x, hx, rfl⟩ := Option.map_eq_some_iff.1 hs
    exact h.update rfl (fun hlt => (h.life j hlt).run hx) h.acquiring

/-- In every state of every interleaving: a segment is torn down at most once, never while a reader
or a merge plan holds it or is about to, and never while it is in the published snapshot. When it
has left the snapshot and all who worked on it are done, it has been torn down, and its file is
unlinked exactly if a merge retired it. No thread is ever stuck. -/
theorem refcount_run {n : ℕ} (hrun : StepSystem.Run step (fun _ _ => True) (opened n) ls s) {j : ℕ}
    (hj : j < s.next) :
    (s.segs j).closes ≤ 1 ∧ ((s.segs j).closes = 1 → (s.segs j).tornDown = true) ∧
      ((s.segs j).tornDown = true → Phase.hold ∉ (s.segs j).threads ∧ j ∉ s.snap ∧
        ∀ ids ∈ s.acquiring, j ∉ ids) ∧
      (j ∉ s.snap → (s.segs j).threads = 0 → (s.segs j).tornDown = true ∧ (s.segs j).closes = 1 ∧
        ((s.segs j).unlinked = true ↔ j ∈ mergedAway ls)) ∧
      ((s.segs j).unlinked = true → j ∈ mergedAway ls ∧ (s.segs j).tornDown = true) ∧
      ∀ ph ∈ (s.segs j).threads, ∃ s', step s (.thread j ph) = some s' := by
  have hok : Ok ls s := hrun.invariant (I := Ok) (ok_opened n) fun h _ hs => ok_step h hs
  obtain ⟨hcloses, hclosed, htorn, hgone, hunlinked⟩ := (hok.life j hj).facts
  refine ⟨hcloses, hclosed, fun ht => ?_, fun hnot hthreads => ?_, fun hu => ?_, fun ph hph => ?_⟩
  · obtain ⟨hhold, hsnap⟩ := htorn ht
    have hnot : j ∉ s.snap := of_decide_eq_false hsnap
    exact ⟨hhold, hnot, fun ids hids hmem => hnot (hok.acquiring ids hids j hmem)⟩
  · obtain ⟨ht, hc, hu⟩ := hgone (decide_eq_false hnot) hthreads
    exact ⟨ht, hc, by rw [hu, decide_eq_true_iff]⟩
  · exact ⟨of_decide_eq_true (hunlinked hu).1, (hunlinked hu).2⟩
  · simp only [step, if_pos hj, SegRef.run, if_pos hph, Option.map_some]
    exact ⟨_, rfl⟩

/-- A reader acquires both segments, a merge takes its plan's reference on the first one and replaces
it, the store is closed, and everyone finishes. -/
def mergeThenClose : List RefLabel :=
  [.lock [0, 1], .incref 0, .incref 0, .unlock 0, .lock [0], .incref 0, .unlock 0, .install [0],
    .thread 0 .storeRetired, .thread 0 .hold, .thread 0 .dropPublished, .close, .thread 0 .hold,
    .thread 0 .loadRetired, .thread 1 .storeKeepFile, .thread 0 .swapTornDown, .thread 1 .hold,
    .thread 1 .storeRetired, .thread 1 .dropPublished, .thread 0 .closeFile, .thread 0 .removeFile,
    .thread 1 .swapTornDown, .thread 1 .closeFile, .thread 1 .removeFile]

theorem refcount_run_merged : ∃ s,
    StepSystem.Run step (fun _ _ => True) (opened 2) mergeThenClose s ∧
      (s.segs 0).unlinked = true ∧ (s.segs 0).closes = 1 ∧ (s.segs 1).unlinked = false ∧
      (s.segs 1).closes = 1 := by
  refine StepSystem.Run.exists_of_exec_imp (fun s => 1 < s.next ∧
    (0 ∉ s.snap ∧ (s.segs 0).threads = 0) ∧ 1 ∉ s.snap ∧ (s.segs 1).threads = 0)
    (by decide +kernel) fun s hrun h => ?_
  obtain ⟨hnext, ⟨hsnap₀, hthreads₀⟩, hsnap₁, hthreads₁⟩ := h
  obtain ⟨-, hcloses₀, hunlinked₀⟩ :=
    (refcount_run hrun (Nat.zero_lt_one.trans hnext)).2.2.2.1 hsnap₀ hthreads₀
  obtain ⟨-, hcloses₁, hunlinked₁⟩ := (refcount_run hrun hnext).2.2.2.1 hsnap₁ hthreads₁
  refine ⟨hunlinked₀.2 (by decide), hcloses₀, ?_, hcloses₁⟩
  exact eq_false_of_ne_true fun hu => absurd (hunlinked₁.1 hu) (by decide)

end Refs

end Haystack.InvertedStore
