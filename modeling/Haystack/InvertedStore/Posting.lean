import Haystack.InvertedStore.Views

/-!
# What an operation does to the head

An operation rewrites what the head says about its document and nothing else: the record becomes the
new keywords, every new keyword is posted and every old one that is dropped is withdrawn.
-/

namespace Haystack.InvertedStore

namespace HeadTable

variable (h : HeadTable) (d : DocId) (b : Bool)

/-! ### The operation log of a keyword -/

lemma act_appendOp (w w' : Keyword) (d d' : DocId) :
    (h.appendOp b w d).act w' d' = if w' = w ∧ d' = d then some b else h.act w' d' := by
  simp only [act, appendOp, GoMap.lookup_insert_if]
  by_cases hw : w' = w
  · subst hw
    rw [if_pos rfl, Option.bind_some, lastAct_append_singleton]
    cases h.inv.lookup w' <;> simp [lastAct]
  · simp [hw]

lemma mem_inv_appendOp (w w' : Keyword) : w' ∈ (h.appendOp b w d).inv ↔ w' = w ∨ w' ∈ h.inv := by
  simp [appendOp]

/-- Appending one action for several keywords. -/
def appendOps (b : Bool) (ws : List Keyword) (d : DocId) : HeadTable :=
  ws.foldl (fun h w => h.appendOp b w d) h

lemma act_appendOps (ws : List Keyword) (w' : Keyword) (d d' : DocId) :
    (h.appendOps b ws d).act w' d' = if w' ∈ ws ∧ d' = d then some b else h.act w' d' := by
  induction ws generalizing h with
  | nil => simp [appendOps]
  | cons w ws ih =>
    change ((h.appendOp b w d).appendOps b ws d).act w' d' = _
    rw [ih, act_appendOp]
    by_cases hw : w' = w <;> by_cases hws : w' ∈ ws <;> by_cases hd : d' = d <;> simp [hw, hws, hd]

lemma mem_inv_appendOps (ws : List Keyword) (w' : Keyword) :
    w' ∈ (h.appendOps b ws d).inv ↔ w' ∈ ws ∨ w' ∈ h.inv := by
  induction ws generalizing h with
  | nil => simp [appendOps]
  | cons w ws ih =>
    change w' ∈ ((h.appendOp b w d).appendOps b ws d).inv ↔ _
    rw [ih, mem_inv_appendOp, List.mem_cons]
    tauto

/-- Postings leave the forward entries alone. -/
lemma forward_appendOps (ws : List Keyword) :
    (h.appendOps b ws d).fwd = h.fwd ∧ (h.appendOps b ws d).delForward = h.delForward := by
  induction ws generalizing h with
  | nil => exact ⟨rfl, rfl⟩
  | cons w ws ih => exact ih (h.appendOp b w d)

/-! ### One operation -/

/-- The postings an operation appends. -/
def posted (d : DocId) (keywords old : List Keyword) : HeadTable :=
  (h.appendOps true keywords.dedup d).appendOps false
    (old.filter fun w => w ∉ keywords.dedup) d

lemma post_eq (keywords old : List Keyword) :
    h.post d keywords old =
      if keywords = [] then (h.posted d keywords old).deleteForward d
      else (h.posted d keywords old).setForward d keywords := by
  unfold post
  split
  case isTrue hk => simp [hk, posted, appendOps, tombstonePosting]
  case isFalse hk => rfl

lemma act_posted (d d' : DocId) (keywords old : List Keyword) (w : Keyword) :
    (h.posted d keywords old).act w d' =
      if d' = d then
        if w ∈ keywords then some true else if w ∈ old then some false else h.act w d
      else h.act w d' := by
  rw [posted, act_appendOps, act_appendOps]
  by_cases hd : d' = d
  · subst hd
    by_cases hk : w ∈ keywords <;> by_cases ho : w ∈ old <;> simp [hk, ho]
  · simp [hd]

theorem act_post (d d' : DocId) (keywords old : List Keyword) (w : Keyword) :
    (h.post d keywords old).act w d' =
      if d' = d then
        if w ∈ keywords then some true else if w ∈ old then some false else h.act w d
      else h.act w d' := by
  rw [post_eq, ← act_posted]
  split <;> rfl

@[simp] lemma fwd_posted (keywords old : List Keyword) : (h.posted d keywords old).fwd = h.fwd := by
  simp [posted, forward_appendOps]

@[simp] lemma delForward_posted (keywords old : List Keyword) :
    (h.posted d keywords old).delForward = h.delForward := by
  simp [posted, forward_appendOps]

theorem rec?_post (d d' : DocId) (keywords old : List Keyword) :
    (h.post d keywords old).rec? d' = if d' = d then some keywords.toFinset else h.rec? d' := by
  rw [post_eq]
  by_cases hd : d' = d
  · subst hd
    by_cases hk : keywords = [] <;> simp [hk, rec?, forwardLookup, deleteForward, setForward]
  · by_cases hk : keywords = [] <;>
      simp [hk, hd, rec?, forwardLookup, deleteForward, setForward, AList.lookup_erase_ne,
        AList.lookup_insert_ne, AList.mem_erase]

/-- The version an operation leaves of its document. -/
lemma version_post (keywords old : List Keyword) :
    (h.post d keywords old).layer.version d =
      some (.repost (fun w => h.act w d) old.toFinset keywords.toFinset) := by
  simp [Layer.version, layer, rec?_post, act_post, Version.repost]

/-- The other documents keep their versions. -/
lemma version_post_of_ne {d d' : DocId} (hne : d' ≠ d) (keywords old : List Keyword) :
    (h.post d keywords old).layer.version d' = h.layer.version d' := by
  simp [Layer.version, layer, rec?_post, act_post, hne]

/-! ### What every head satisfies -/

/-- A head is encodable, has no record without keywords other than the deletions, and has postings
only for documents it has a record of. -/
structure WF : Prop extends Encodable h where
  words_ne : ∀ {d words}, h.fwd.lookup d = some words → words ≠ []
  closed : h.layer.Closed

lemma wf_new : newHeadTable.WF where
  disjoint := by simp [newHeadTable]
  words_mem := by simp [newHeadTable]
  nonneg := by simp [newHeadTable]
  words_ne := by simp [newHeadTable]
  closed := fun d w _ => by simp [layer, act, newHeadTable]

variable {h}

lemma mem_inv_post {d : DocId} {keywords old : List Keyword} {w : Keyword} :
    w ∈ (h.post d keywords old).inv ↔ w ∈ keywords ∨ w ∈ old ∨ w ∈ h.inv := by
  have hinv : (h.post d keywords old).inv = (h.posted d keywords old).inv := by
    rw [post_eq]
    split <;> rfl
  rw [hinv, posted, mem_inv_appendOps, mem_inv_appendOps]
  simp
  tauto

theorem WF.post (hwf : h.WF) {d : DocId} (hd : 0 ≤ d) (keywords old : List Keyword) :
    (h.post d keywords old).WF where
  disjoint d' hd' := by
    rw [post_eq] at hd' ⊢
    by_cases hk : keywords = []
    · simp only [hk, if_true, deleteForward, AList.mem_insert, delForward_posted, fwd_posted,
        AList.mem_erase, not_and] at hd' ⊢
      exact fun hne => hwf.disjoint d' (hd'.resolve_left hne)
    · simp only [hk, if_false, setForward, AList.mem_insert, delForward_posted, fwd_posted,
        AList.mem_erase, not_or] at hd' ⊢
      exact ⟨hd'.1, hwf.disjoint d' hd'.2⟩
  words_mem {d' words} hl w hw := by
    rw [mem_inv_post]
    rw [post_eq] at hl
    by_cases hk : keywords = []
    · simp only [hk, if_true, deleteForward, fwd_posted, GoMap.lookup_erase_if] at hl
      exact .inr (.inr (hwf.words_mem (Option.ite_none_left_eq_some.1 hl).2 w hw))
    · simp only [hk, if_false, setForward, fwd_posted, GoMap.lookup_insert_if] at hl
      split at hl
      · exact .inl (Option.some.inj hl ▸ hw)
      · exact .inr (.inr (hwf.words_mem hl w hw))
  nonneg d' hd' := by
    by_cases hne : d' = d
    · exact hne ▸ hd
    · refine hwf.nonneg d' ?_
      rw [post_eq] at hd'
      by_cases hk : keywords = []
      · simpa [hk, deleteForward, hne] using hd'
      · simpa [hk, setForward, hne] using hd'
  words_ne {d' words} hl := by
    rw [post_eq] at hl
    by_cases hk : keywords = []
    · simp only [hk, if_true, deleteForward, fwd_posted, GoMap.lookup_erase_if] at hl
      exact hwf.words_ne (Option.ite_none_left_eq_some.1 hl).2
    · simp only [hk, if_false, setForward, fwd_posted, GoMap.lookup_insert_if] at hl
      split at hl
      · exact Option.some.inj hl ▸ hk
      · exact hwf.words_ne hl
  closed d' w hr := by
    change (h.post d keywords old).rec? d' = none at hr
    change (h.post d keywords old).act w d' = none
    rw [rec?_post] at hr
    rw [act_post]
    split at hr
    · simp at hr
    · rw [if_neg ‹_›]
      exact hwf.closed d' w hr

end HeadTable

end Haystack.InvertedStore
