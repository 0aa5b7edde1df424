import Haystack.InvertedStore.SpillGate
import Haystack.InvertedStore.Posting

/-!
# A batch is its operations one by one

Within a batch the keywords that a document carries are taken from its last operation in the batch.
The forward map gives the same list: the operation has put it into the head, and a head that is
detached meanwhile is read before everything older.
-/

namespace Haystack.InvertedStore

/-- The forward entry that an operation leaves of its document. -/
lemma HeadTable.forwardLookup_post (h : HeadTable) (d d' : DocId) (keywords old : List Keyword) :
    (h.post d keywords old).forwardLookup d' =
      if d' = d then some (keywords, decide (keywords = [])) else h.forwardLookup d' := by
  rw [post_eq]
  by_cases hd : d' = d
  · subst hd
    by_cases hk : keywords = [] <;> simp [hk, forwardLookup, deleteForward, setForward]
  · by_cases hk : keywords = [] <;>
      simp [hk, hd, forwardLookup, deleteForward, setForward, AList.lookup_erase_ne,
        AList.lookup_insert_ne, AList.mem_erase]

namespace Store

variable (opts : Options) (s : Store)

/-- What the head and the detached heads of a table say about a document. -/
def pendingForward (t : TableId) (d : DocId) : Option (List Keyword × Bool) :=
  (s.heads t).findSome? fun h => h.forwardLookup d

lemma pendingForward_eq (t : TableId) (d : DocId) :
    s.pendingForward t d = (((s.head.lookup t).getD newHeadTable).forwardLookup d).or
      (((s.spilling.reverse.filter fun e => e.tableId = t).map SpillEntry.head).findSome?
        fun h => h.forwardLookup d) := by
  rw [pendingForward, heads, List.findSome?_append]
  cases s.head.lookup t with
  | none => rfl
  | some h => simp

variable {s} in
/-- What is pending is what a forward read finds. -/
lemma forwardKeywords_of_pending {t : TableId} {d : DocId} {x : List Keyword × Bool}
    (h : s.pendingForward t d = some x) : s.forwardKeywords t d = some x := by
  unfold pendingForward at h
  rw [forwardKeywords, h]

/-- A detached head says what it said as a head. -/
lemma pendingForward_detachHead (t t' : TableId) (d : DocId) :
    (s.detachHead t').pendingForward t d = s.pendingForward t d := by
  rw [pendingForward_eq, pendingForward_eq]
  by_cases ht : t = t'
  · subst ht
    have hnew : newHeadTable.forwardLookup d = none := rfl
    simp [detachHead, hnew, List.findSome?_cons]
    cases ((s.head.lookup t).getD newHeadTable).forwardLookup d <;> rfl
  · simp [detachHead, AList.lookup_insert_ne ht, Ne.symm ht]

lemma pendingForward_relieve (t t' : TableId) (d : DocId) :
    (s.relieve opts t').pendingForward t d = s.pendingForward t d := by
  unfold relieve
  split
  · split
    · rfl
    · exact s.pendingForward_detachHead t t' d
  · rfl

/-- An operation rewrites what is pending for its document, and nothing else. -/
lemma pendingForward_applyOneOp (op : UpdateOp) (old : List Keyword) (t : TableId) (d : DocId) :
    (s.applyOneOp opts op old).pendingForward t d =
      if t = op.tableId ∧ d = op.docid then some (op.keywords, decide (op.keywords = []))
      else s.pendingForward t d := by
  rw [applyOneOp, pendingForward_relieve, pendingForward_eq, pendingForward_eq]
  by_cases ht : t = op.tableId
  · subst ht
    by_cases hd : d = op.docid <;> simp [post, HeadTable.forwardLookup_post, hd]
  · simp [post, AList.lookup_insert_ne ht, ht]

/-- What a batch remembers of its documents is pending in the store. -/
def Remembered (inBatch : GoMap (TableId × DocId) (List Keyword)) : Prop :=
  ∀ {t d words}, inBatch.lookup (t, d) = some words → ∃ del, s.pendingForward t d = some (words, del)

variable {s} {inBatch : GoMap (TableId × DocId) (List Keyword)}

lemma Remembered.oldKeywords (h : s.Remembered inBatch) (op : UpdateOp) :
    s.oldKeywords inBatch op = (s.forwardKeywords op.tableId op.docid).map Prod.fst := by
  unfold Store.oldKeywords
  split
  case h_1 words hwords =>
    obtain ⟨del, hdel⟩ := h hwords
    rw [forwardKeywords_of_pending hdel]
    rfl
  case h_2 => rfl

lemma Remembered.applyOneOp (h : s.Remembered inBatch) (op : UpdateOp) (old : List Keyword) :
    (s.applyOneOp opts op old).Remembered (inBatch.insert (op.tableId, op.docid) op.keywords) := by
  intro t d words hl
  rw [pendingForward_applyOneOp]
  rw [GoMap.lookup_insert_if] at hl
  split at hl
  case isTrue heq =>
    rw [if_pos (Prod.mk.inj heq)]
    exact ⟨_, congrArg (fun words => some (words, _)) (Option.some.inj hl)⟩
  case isFalse hne =>
    rw [if_neg fun heq => hne (Prod.mk.injEq .. ▸ heq)]
    exact h hl

/-- The loop of a batch reads what single operations would read. -/
lemma Remembered.applyOps (h : s.Remembered inBatch) (ops : List UpdateOp) :
    applyOps opts s inBatch ops = ops.foldlM (fun s op => s.applyBatch opts [op]) s := by
  induction ops generalizing s inBatch with
  | nil => rfl
  | cons op ops ih =>
    rw [Store.applyOps, h.oldKeywords op, List.foldlM_cons]
    change Option.bind (Option.map _ _) _ = Option.bind (Option.map _ _) _
    rw [Option.bind_map, Option.bind_map]
    exact congrArg _ (funext fun x => ih (h.applyOneOp opts op x.1))

/-- **A batch equals its operations one by one**: in every state and for every list of operations
the two end in the same store, or both in a panic. -/
theorem applyBatch_eq_one_by_one (s : Store) (ops : List UpdateOp) :
    s.applyBatch opts ops = ops.foldlM (fun s op => s.applyBatch opts [op]) s := by
  rw [applyBatch_eq]
  exact Remembered.applyOps opts (fun hl => by cases hl) ops

end Store

end Haystack.InvertedStore
