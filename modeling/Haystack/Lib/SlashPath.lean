import Haystack.Lib.Bytes

/-!
# Slash-separated paths

Lexical cleaning of paths: empty components and `.` disappear, and `..` takes back the component
before it. At the root of a rooted path `..` disappears too; in a relative path it stays in front.
-/

namespace SlashPath

open List

def slash : UInt8 := 47

/-- The component `.`. -/
def dot : Bytes := [46]

/-- The component `..`. -/
def dotdot : Bytes := [46, 46]

def isRooted (s : Bytes) : Bool :=
  s.head? = some slash

/-- One step upwards, from the components so far, the last one first. -/
def up (rooted : Bool) : List Bytes → List Bytes
  | [] => if rooted then [] else [dotdot]
  | t :: st => if t = dotdot then dotdot :: t :: st else st

/-- One component is walked. -/
def push (rooted : Bool) (st : List Bytes) (c : Bytes) : List Bytes :=
  if c = [] ∨ c = dot then st
  else if c = dotdot then up rooted st
  else c :: st

def walk (rooted : Bool) (st cs : List Bytes) : List Bytes :=
  cs.foldl (push rooted) st

/-- The components of the cleaned path. -/
def comps (s : Bytes) : List Bytes :=
  (walk (isRooted s) [] (s.splitOn slash)).reverse

/-- The path with the given components. -/
def render (rooted : Bool) (ps : List Bytes) : Bytes :=
  if rooted then slash :: List.intercalate [slash] ps
  else if ps = [] then dot
  else List.intercalate [slash] ps

/-- `filepath.Clean` -/
def clean (s : Bytes) : Bytes :=
  render (isRooted s) (comps s)

/-- `filepath.Join` of two elements; empty elements are left out. -/
def join (a b : Bytes) : Bytes :=
  if a = [] then if b = [] then [] else clean b
  else if b = [] then clean a
  else clean (a ++ slash :: b)

/-! ### Walking -/

section Walk

variable {rooted : Bool} {st cs : List Bytes}

@[simp] lemma walk_nil : walk rooted st [] = st := rfl

lemma walk_append (cs cs' : List Bytes) :
    walk rooted st (cs ++ cs') = walk rooted (walk rooted st cs) cs' :=
  foldl_append

lemma walk_concat (c : Bytes) : walk rooted st (cs ++ [c]) = push rooted (walk rooted st cs) c := by
  rw [walk_append]
  rfl

/-- A component that stays as it is. -/
structure Plain (c : Bytes) : Prop where
  ne_nil : c ≠ []
  ne_dot : c ≠ dot
  ne_dotdot : c ≠ dotdot
  slash_not_mem : slash ∉ c

lemma push_of_plain {c : Bytes} (h : Plain c) : push rooted st c = c :: st := by
  rw [push, if_neg (by simp [h.ne_nil, h.ne_dot]), if_neg h.ne_dotdot]

lemma walk_of_plain (h : ∀ c ∈ cs, Plain c) : walk rooted st cs = cs.reverse ++ st := by
  induction cs generalizing st with
  | nil => rfl
  | cons c cs ih =>
    change walk rooted (push rooted st c) cs = _
    rw [push_of_plain (h c (by simp)), ih fun c' hc' => h c' (by simp [hc'])]
    simp

/-- The effect of a relative path: it leaves `k` directories upwards and descends into `a`. From a
rooted directory the steps above the root have no effect. -/
lemma exists_walk_eq (cs : List Bytes) : ∃ (a : List Bytes) (k : ℕ), dotdot ∉ a ∧ a ⊆ cs ∧
    walk false [] cs = a ++ List.replicate k dotdot ∧
    ∀ st, dotdot ∉ st → walk true st cs = a ++ st.drop k := by
  induction cs using reverseRecOn with
  | nil => exact ⟨[], 0, by simp, by simp, rfl, by simp⟩
  | append_singleton cs c ih =>
    obtain ⟨a, k, ha, hsub, hrel, habs⟩ := ih
    have hsub' : a ⊆ cs ++ [c] := fun x hx => mem_append_left _ (hsub hx)
    by_cases hskip : c = [] ∨ c = dot
    · refine ⟨a, k, ha, hsub', ?_, fun st hst => ?_⟩
      · rw [walk_concat, hrel, push, if_pos hskip]
      · rw [walk_concat, habs st hst, push, if_pos hskip]
    by_cases hup : c = dotdot
    · cases a with
      | cons t a =>
        -- the last component descended into is taken back
        have ht : t ≠ dotdot := fun h => ha (by simp [h])
        refine ⟨a, k, fun h => ha (mem_cons_of_mem _ h),
          fun x hx => hsub' (mem_cons_of_mem _ hx), ?_, fun st hst => ?_⟩
        · rw [walk_concat, hrel, push, if_neg hskip, if_pos hup]
          exact if_neg ht
        · rw [walk_concat, habs st hst, push, if_neg hskip, if_pos hup]
          exact if_neg ht
      | nil =>
        refine ⟨[], k + 1, by simp, by simp, ?_, fun st hst => ?_⟩
        · rw [walk_concat, hrel, push, if_neg hskip, if_pos hup]
          cases k with
          | zero => rfl
          | succ k => simp [replicate_succ, up]
        · rw [walk_concat, habs st hst, push, if_neg hskip, if_pos hup, nil_append,
            nil_append]
          cases hdrop : st.drop k with
          | nil =>
            have := drop_eq_nil_iff.1 hdrop
            exact (drop_eq_nil_iff.2 (this.trans (Nat.le_succ k))).symm
          | cons t st' =>
            have ht : t ≠ dotdot := fun h => hst (mem_of_mem_drop (i := k) (by simp [hdrop, h]))
            have htail : st.drop (k + 1) = st' := by
              rw [← tail_drop, hdrop]
              rfl
            rw [htail]
            exact if_neg ht
    · refine ⟨c :: a, k, ?_, ?_, ?_, fun st hst => ?_⟩
      · simp [ha, Ne.symm hup]
      · simp [hsub']
      · rw [walk_concat, hrel, push, if_neg hskip, if_neg hup]
        rfl
      · rw [walk_concat, habs st hst, push, if_neg hskip, if_neg hup]
        rfl

/-- What is left after a walk came from the path or stood there before, apart from `..`. -/
lemma mem_walk {c : Bytes} (h : c ∈ walk rooted st cs) :
    c ∈ st ∨ c = dotdot ∨ c ∈ cs ∧ c ≠ [] ∧ c ≠ dot := by
  induction cs using reverseRecOn with
  | nil => exact .inl h
  | append_singleton cs b ih =>
    rw [walk_concat] at h
    have hback : c ∈ walk rooted st cs → c ∈ st ∨ c = dotdot ∨ c ∈ cs ++ [b] ∧ c ≠ [] ∧ c ≠ dot := by
      intro h
      obtain h | h | h := ih h
      · exact .inl h
      · exact .inr (.inl h)
      · exact .inr (.inr ⟨mem_append_left _ h.1, h.2⟩)
    unfold push at h
    split at h
    · exact hback h
    case isFalse hskip =>
      split at h
      · cases hst : walk rooted st cs with
        | nil =>
          rw [hst, up] at h
          split at h
          · simp at h
          · exact .inr (.inl (by simpa using h))
        | cons t st' =>
          rw [hst, up] at h
          split at h
          · rcases mem_cons.1 h with h | h
            · exact .inr (.inl h)
            · exact hback (hst ▸ h)
          · exact hback (hst ▸ mem_cons_of_mem _ h)
      · rcases mem_cons.1 h with rfl | h
        · exact .inr (.inr ⟨by simp, not_or.1 hskip⟩)
        · exact hback h

end Walk

lemma slash_not_mem_of_mem_splitOn {s c : Bytes} (h : c ∈ s.splitOn slash) : slash ∉ c := by
  induction s generalizing c with
  | nil =>
    obtain rfl : c = [] := by simpa using h
    simp
  | cons b s ih =>
    rw [splitOn_cons_eq_if_modifyHead] at h
    split at h
    · rcases mem_cons.1 h with rfl | h
      · simp
      · exact ih h
    case isFalse hb =>
      cases hs : s.splitOn slash with
      | nil => exact absurd hs (splitOn_ne_nil _ _)
      | cons c' cs =>
        rw [hs] at h ih
        rcases mem_cons.1 h with rfl | h
        · have hb' : slash ≠ b := fun heq => hb (by simp [heq])
          simpa [hb'] using ih mem_cons_self
        · exact ih (mem_cons_of_mem _ h)

lemma splitOn_append_slash (a b : Bytes) :
    (a ++ slash :: b).splitOn slash = a.splitOn slash ++ b.splitOn slash :=
  splitOn_append_cons_self a b

/-! ### Rooted paths -/

section Rooted

variable {w p : Bytes}

/-- A cleaned rooted path has no `..`. -/
lemma dotdot_not_mem_walk_true (cs : List Bytes) : dotdot ∉ walk true [] cs := by
  obtain ⟨a, k, ha, -, -, habs⟩ := exists_walk_eq cs
  rw [habs [] (by simp)]
  simpa using ha

lemma plain_of_mem_comps (hw : isRooted w) {c : Bytes} (hc : c ∈ comps w) : Plain c := by
  have hmem := mem_reverse.1 hc
  rw [hw] at hmem
  have hne : c ≠ dotdot := fun h => dotdot_not_mem_walk_true _ (h ▸ hmem)
  obtain h | h | h := mem_walk hmem
  · simp at h
  · exact absurd h hne
  · exact ⟨h.2.1, h.2.2, hne, slash_not_mem_of_mem_splitOn h.1⟩

lemma splitOn_intercalate_slash {ps : List Bytes} (h : ∀ c ∈ ps, Plain c) (hne : ps ≠ []) :
    (List.intercalate [slash] ps).splitOn slash = ps :=
  splitOn_intercalate slash (fun c hc => (h c hc).slash_not_mem) hne

lemma isRooted_render (ps : List Bytes) : isRooted (render true ps) := rfl

lemma comps_render {ps : List Bytes} (h : ∀ c ∈ ps, Plain c) : comps (render true ps) = ps := by
  have hsplit : (slash :: intercalate [slash] ps).splitOn slash =
      [] :: (intercalate [slash] ps).splitOn slash := splitOn_append_slash [] _
  rw [comps, isRooted_render, render, if_pos rfl, hsplit]
  change (walk true [] ((intercalate [slash] ps).splitOn slash)).reverse = ps
  by_cases hne : ps = []
  · rw [hne]
    rfl
  · rw [splitOn_intercalate_slash h hne, walk_of_plain h]
    simp

lemma isRooted_append (hw : isRooted w) (b : Bytes) : isRooted (w ++ b) := by
  cases w with
  | nil => simp [isRooted] at hw
  | cons x w => exact hw

lemma join_eq (hw : isRooted w) (b : Bytes) : join w b =
    render true (walk true (comps w).reverse (b.splitOn slash)).reverse := by
  have hne : w ≠ [] := by
    rintro rfl
    simp [isRooted] at hw
  rw [join, if_neg hne]
  split
  case isTrue hb =>
    rw [hb, clean, hw]
    simp [walk, push]
  case isFalse =>
    rw [clean, isRooted_append hw, comps, isRooted_append hw, splitOn_append_slash, walk_append,
      comps, hw, reverse_reverse]

lemma isRooted_join (hw : isRooted w) (b : Bytes) : isRooted (join w b) := by
  rw [join_eq hw]
  rfl

/-- The components of a joined path. -/
lemma comps_join (hw : isRooted w) (b : Bytes) :
    comps (join w b) = (walk true (comps w).reverse (b.splitOn slash)).reverse := by
  rw [join_eq hw]
  refine comps_render fun c hc => ?_
  rw [comps, hw, reverse_reverse, ← walk_append] at hc
  have hmem := mem_reverse.1 hc
  have hne : c ≠ dotdot := fun h => dotdot_not_mem_walk_true _ (h ▸ hmem)
  obtain h | h | h := mem_walk hmem
  · simp at h
  · exact absurd h hne
  · refine ⟨h.2.1, h.2.2, hne, ?_⟩
    rcases mem_append.1 h.1 with h' | h' <;> exact slash_not_mem_of_mem_splitOn h'

lemma dotdot_not_mem_comps (hw : isRooted w) : dotdot ∉ comps w :=
  fun h => (plain_of_mem_comps hw h).ne_dotdot rfl

end Rooted

/-! ### Paths inside a directory -/

/-- The path `p` is the directory `w` or lies in it. -/
def Inside (w p : Bytes) : Prop :=
  isRooted p ∧ comps w <+: comps p

instance (w p : Bytes) : Decidable (Inside w p) :=
  inferInstanceAs (Decidable (_ ∧ _))

/-- A relative path that does not lead above its starting point. -/
def Local (rel : Bytes) : Prop :=
  dotdot ∉ walk false [] (rel.splitOn slash)

instance (rel : Bytes) : Decidable (Local rel) :=
  inferInstanceAs (Decidable (_ ∉ _))

/-- What a local path adds to a directory. -/
lemma Local.comps_join {w rel : Bytes} (h : Local rel) (hw : isRooted w) :
    SlashPath.comps (join w rel) = comps w ++ (walk false [] (rel.splitOn slash)).reverse := by
  obtain ⟨a, k, -, -, hrel, habs⟩ := exists_walk_eq (rel.splitOn slash)
  have hk : k = 0 := by
    by_contra hk
    exact h (by rw [hrel]; simp [hk])
  rw [SlashPath.comps_join hw, habs _ (by simpa using dotdot_not_mem_comps hw), hrel, hk]
  simp

/-- There is always another name. -/
lemma exists_plain_not_mem (cs : List Bytes) : ∃ x, Plain x ∧ x ∉ cs := by
  have hlen : ∀ c ∈ cs, c.length ≤ (cs.map length).sum := fun c hc =>
    le_sum_of_mem (mem_map_of_mem hc)
  refine ⟨replicate ((cs.map length).sum + 1) 97, ⟨by simp, ?_, ?_, ?_⟩, fun hmem => ?_⟩
  · intro h
    have : (97 : UInt8) ∈ dot := h ▸ by simp
    simp [dot] at this
  · intro h
    have : (97 : UInt8) ∈ dotdot := h ▸ by simp
    simp [dotdot] at this
  · simp [slash]
  · have := hlen _ hmem
    simp at this

/-- Joining stays inside every directory exactly for local paths. -/
theorem forall_inside_join_iff (rel : Bytes) :
    (∀ w, isRooted w → Inside w (join w rel)) ↔ Local rel := by
  constructor
  · intro h
    by_contra hrel
    obtain ⟨a, k, ha, hsub, hwalk, habs⟩ := exists_walk_eq (rel.splitOn slash)
    have hk : 1 ≤ k := by
      by_contra hk
      obtain rfl : k = 0 := by omega
      exact hrel (by rw [Local, hwalk]; simpa using ha)
    -- a directory with a name that the path does not mention
    obtain ⟨x, hplain, hx⟩ := exists_plain_not_mem (rel.splitOn slash)
    have hcomps : comps (render true [x]) = [x] := comps_render (by simpa using hplain)
    have hin := (h (render true [x]) rfl).2
    rw [comps_join rfl, hcomps, habs _ (by simpa using Ne.symm hplain.ne_dotdot),
      drop_eq_nil_iff.2 (by simpa using hk)] at hin
    have hmem : x ∈ a := by simpa using hin.subset (mem_singleton_self x)
    exact hx (hsub hmem)
  · intro h w hw
    refine ⟨isRooted_join hw rel, ?_⟩
    rw [h.comps_join hw]
    exact prefix_append _ _

/-- A path in canonical form: clean, relative and local. -/
structure Canonical (rel : Bytes) : Prop where
  clean_eq : clean rel = rel
  relative : isRooted rel = false
  isLocal : Local rel

/-- Canonical paths of one file are equal. -/
theorem Canonical.eq_of_join_eq {w rel rel' : Bytes} (hw : isRooted w) (h : Canonical rel)
    (h' : Canonical rel') (heq : join w rel = join w rel') : rel = rel' := by
  have hcomps := congrArg comps heq
  rw [h.isLocal.comps_join hw, h'.isLocal.comps_join hw] at hcomps
  have hrel := append_cancel_left hcomps
  rw [← h.clean_eq, ← h'.clean_eq, clean, clean, comps, comps, h.relative, h'.relative, hrel]

end SlashPath
