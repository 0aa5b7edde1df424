import Mathlib.Tactic

/-!
# Version chains

One item of a log-structured store is described by several *versions*, newest first. A version
records the words the item carried when the version was written, and for some words an action:
`some true` posts the item under the word, `some false` withdraws it, `none` says nothing. A reader
of a word takes the newest action found (`topAct`); a reader of the item takes the newest record
(`top`).

The two readers agree on a chain in which every version posts exactly its own words and withdraws
the words of the next older version that it does not carry (`ChainOk`). Writing a new version on
top, merging neighbouring versions and compacting the oldest ones keep a chain in this shape.

A store holds many items. A *layer* is what one of its sources says about all of them, and the chain
of an item collects the versions that the layers hold of it.
-/

/-- What one source says about an item. -/
structure Version (W : Type*) where
  words : Finset W
  act : W → Option Bool

namespace Version

variable {W : Type*} {c : List (Version W)}

/-- A version posts exactly the words of its record. -/
def Coherent (v : Version W) : Prop :=
  ∀ w, v.act w = some true ↔ w ∈ v.words

/-- The words of the newest record. -/
def top : List (Version W) → Finset W
  | [] => ∅
  | v :: _ => v.words

/-- The newest action on a word. -/
def topAct (c : List (Version W)) (w : W) : Option Bool :=
  c.findSome? fun v => v.act w

/-- Every version posts its own words and withdraws those of the next older one it drops. -/
def ChainOk : List (Version W) → Prop
  | [] => True
  | v :: c => v.Coherent ∧ (∀ w ∈ top c, w ∉ v.words → v.act w = some false) ∧ ChainOk c

@[simp] lemma top_nil : top ([] : List (Version W)) = ∅ := rfl

@[simp] lemma top_cons (v : Version W) (c : List (Version W)) : top (v :: c) = v.words := rfl

@[simp] lemma topAct_nil (w : W) : topAct [] w = none := rfl

lemma topAct_cons (v : Version W) (c : List (Version W)) (w : W) :
    topAct (v :: c) w = (v.act w).or (topAct c w) := by
  unfold topAct
  cases h : v.act w <;> simp [h]

lemma topAct_append (a b : List (Version W)) (w : W) :
    topAct (a ++ b) w = (topAct a w).or (topAct b w) := by
  simp [topAct, List.findSome?_append]

/-- The newest action posts a word exactly if the newest record carries it. -/
theorem ChainOk.topAct_eq_true_iff (h : ChainOk c) (w : W) :
    topAct c w = some true ↔ w ∈ top c := by
  induction c with
  | nil => simp
  | cons v c ih =>
    obtain ⟨hv, hsup, hc⟩ := h
    rw [topAct_cons, top_cons]
    cases ha : v.act w with
    | some b => rw [← hv w, ha, Option.some_or]
    | none =>
      -- nothing is said in the newest version, so it drops no word of the next one
      have hnot : w ∉ v.words := fun hw => by simp [(hv w).2 hw] at ha
      have hnot' : w ∉ top c := fun hw => by simp [hsup w hw hnot] at ha
      simp [ih hc, hnot, hnot']

/-- The part of a chain below a point matters only through its newest record. -/
lemma ChainOk.replace_tail {a c c' : List (Version W)} (h : ChainOk (a ++ c)) (hc' : ChainOk c')
    (htop : top c' = top c) : ChainOk (a ++ c') := by
  induction a with
  | nil => exact hc'
  | cons v a ih =>
    obtain ⟨hv, hsup, hrest⟩ := h
    refine ⟨hv, ?_, ih hrest⟩
    cases a with
    | nil => simpa [htop] using hsup
    | cons u a => exact hsup

lemma ChainOk.tail {a c : List (Version W)} (h : ChainOk (a ++ c)) : ChainOk c := by
  induction a with
  | nil => exact h
  | cons v a ih => exact ih h.2.2

lemma ChainOk.init {a c : List (Version W)} (h : ChainOk (a ++ c)) : ChainOk a := by
  induction a with
  | nil => trivial
  | cons v a ih =>
    obtain ⟨hv, hsup, hrest⟩ := h
    refine ⟨hv, fun w hw => ?_, ih hrest⟩
    cases a with
    | nil => simp at hw
    | cons u a => exact hsup w hw

lemma top_append_congr (a : List (Version W)) {c c' : List (Version W)} (h : top c' = top c) :
    top (a ++ c') = top (a ++ c) := by
  cases a with
  | nil => exact h
  | cons v a => rfl

lemma ChainOk.coherent (h : ChainOk c) : ∀ v ∈ c, v.Coherent := by
  induction c with
  | nil => simp
  | cons v c ih => simpa using ⟨h.1, ih h.2.2⟩

/-! ### Merging neighbours -/

/-- One version that stands for a block of versions. -/
def merged (b : List (Version W)) : Version W :=
  ⟨top b, topAct b⟩

/-- A block withdraws the words of what lies below it that its newest record drops. -/
lemma ChainOk.topAct_eq_false {b c : List (Version W)} (hb : b ≠ []) (h : ChainOk (b ++ c))
    {w : W} (hw : w ∈ top c) (hnot : w ∉ top b) : topAct b w = some false := by
  induction b with
  | nil => exact absurd rfl hb
  | cons v b ih =>
    obtain ⟨hv, hsup, hrest⟩ := h
    rw [topAct_cons]
    have hne : v.act w ≠ some true := fun ha => hnot ((hv w).1 ha)
    cases b with
    | nil => simp [hsup w hw hnot]
    | cons u b =>
      by_cases hu : w ∈ u.words
      · simp [hsup w hu hnot]
      · have := ih (by simp) hrest hu
        cases ha : v.act w with
        | none => simpa using this
        | some x => cases x <;> simp_all

theorem ChainOk.merge {b c : List (Version W)} (hb : b ≠ []) (h : ChainOk (b ++ c)) :
    ChainOk (merged b :: c) :=
  ⟨h.init.topAct_eq_true_iff, fun _ hw hnot => h.topAct_eq_false hb hw hnot, h.tail⟩

/-- A block of versions replaced by one. -/
def mergedBlock (b : List (Version W)) : List (Version W) :=
  if b = [] then [] else [merged b]

/-- Merging a block inside a chain. -/
theorem ChainOk.merge_block {a b c : List (Version W)} (h : ChainOk (a ++ (b ++ c))) :
    ChainOk (a ++ (mergedBlock b ++ c)) ∧ top (a ++ (mergedBlock b ++ c)) = top (a ++ (b ++ c)) := by
  unfold mergedBlock
  split
  case isTrue hb => exact ⟨by simpa [hb] using h, by simp [hb]⟩
  case isFalse hb =>
    have htop : top (merged b :: c) = top (b ++ c) := by
      cases b with
      | nil => exact absurd rfl hb
      | cons v b => rfl
    exact ⟨h.replace_tail (h.tail.merge hb) htop, top_append_congr a htop⟩

/-! ### Compacting the oldest versions -/

variable [DecidableEq W]

/-- What is left of the oldest versions when withdrawals have nothing left to withdraw. -/
def compacted (b : List (Version W)) : List (Version W) :=
  if top b = ∅ then [] else [⟨top b, fun w => if w ∈ top b then some true else none⟩]

@[simp] lemma top_compacted (b : List (Version W)) : top (compacted b) = top b := by
  unfold compacted
  split
  case isTrue h => simp [h]
  case isFalse h => rfl

lemma chainOk_compacted (b : List (Version W)) : ChainOk (compacted b) := by
  unfold compacted
  split
  · trivial
  · exact ⟨fun w => by simp, by simp, trivial⟩

/-- Compacting the oldest part of a chain. -/
theorem ChainOk.compact_block {a b : List (Version W)} (h : ChainOk (a ++ b)) :
    ChainOk (a ++ compacted b) ∧ top (a ++ compacted b) = top (a ++ b) :=
  ⟨h.replace_tail (chainOk_compacted b) (top_compacted b), top_append_congr a (top_compacted b)⟩

/-! ### Writing a new version -/

/-- The version left by posting the words `new` over an item that carried `old`, where `f` holds the
actions already taken in the version being written. -/
def repost (f : W → Option Bool) (old new : Finset W) : Version W where
  words := new
  act w := if w ∈ new then some true else if w ∈ old then some false else f w

theorem ChainOk.repost (h : ChainOk c) {f : W → Option Bool} {old : Finset W} (new : Finset W)
    (hposted : ∀ w, f w = some true → w ∈ old)
    (hdropped : ∀ w ∈ top c, w ∉ old → f w = some false) :
    ChainOk (repost f old new :: c) := by
  refine ⟨fun w => ?_, fun w hw hnot => ?_, h⟩
  · by_cases hn : w ∈ new
    · simp [Version.repost, hn]
    · by_cases ho : w ∈ old
      · simp [Version.repost, hn, ho]
      · simpa [Version.repost, hn, ho] using fun hf => ho (hposted w hf)
  · have hn : w ∉ new := hnot
    by_cases ho : w ∈ old
    · simp [Version.repost, hn, ho]
    · simp [Version.repost, hn, ho, hdropped w hw ho]

/-- A new version on top of a chain withdraws the words of the newest record. -/
theorem ChainOk.repost_new (h : ChainOk c) (new : Finset W) :
    ChainOk (Version.repost (fun _ => none) (top c) new :: c) :=
  h.repost new (by simp) (fun w hw hnot => absurd hw hnot)

/-- Rewriting the newest version of a chain. -/
theorem ChainOk.repost_top {v : Version W} (h : ChainOk (v :: c)) (new : Finset W) :
    ChainOk (Version.repost v.act v.words new :: c) :=
  h.2.2.repost new (fun w => (h.1 w).1) h.2.1

end Version

/-! ### Layers -/

/-- What one source says about all items. -/
structure Layer (I W : Type*) where
  rec? : I → Option (Finset W)
  act : W → I → Option Bool

namespace Layer

variable {I W : Type*}

/-- The version of an item that a layer holds. -/
def version (l : Layer I W) (i : I) : Option (Version W) :=
  (l.rec? i).map fun ws => ⟨ws, fun w => l.act w i⟩

/-- A layer acts only on items it has a record of. -/
def Closed (l : Layer I W) : Prop :=
  ∀ i w, l.rec? i = none → l.act w i = none

/-- A layer posts every word of its records and acts only on items it has a record of. -/
structure Colocated (l : Layer I W) : Prop where
  posted : ∀ {i ws}, l.rec? i = some ws → ∀ w ∈ ws, l.act w i = some true
  closed : l.Closed

/-- The versions of an item. -/
def chain (ls : List (Layer I W)) (i : I) : List (Version W) :=
  ls.filterMap fun l => l.version i

lemma version_eq_none {l : Layer I W} {i : I} : l.version i = none ↔ l.rec? i = none := by
  simp [version]

@[simp] lemma chain_nil (i : I) : chain ([] : List (Layer I W)) i = [] := rfl

@[simp] lemma chain_append (ls ls' : List (Layer I W)) (i : I) :
    chain (ls ++ ls') i = chain ls i ++ chain ls' i :=
  List.filterMap_append

lemma chain_cons (l : Layer I W) (ls : List (Layer I W)) (i : I) :
    chain (l :: ls) i = (l.version i).toList ++ chain ls i := by
  unfold chain
  cases h : l.version i <;> simp [h]

/-- The newest action on an item can be read off its chain. -/
theorem findSome?_act {ls : List (Layer I W)} (h : ∀ l ∈ ls, l.Closed) (w : W) (i : I) :
    ls.findSome? (fun l => l.act w i) = Version.topAct (chain ls i) w := by
  induction ls with
  | nil => rfl
  | cons l ls ih =>
    have ih := ih fun l' hl' => h l' (List.mem_cons_of_mem _ hl')
    rw [List.findSome?_cons, chain_cons, Version.topAct_append, ← ih]
    cases hr : l.rec? i with
    | none => simp [version, hr, h l (List.mem_cons_self ..) i w hr]
    | some ws => cases ha : l.act w i <;> simp [version, hr, ha, Version.topAct]

/-- The newest record of an item is the one on top of its chain. -/
theorem findSome?_rec (ls : List (Layer I W)) (i : I) :
    ls.findSome? (fun l => l.rec? i) = (chain ls i).head?.map Version.words := by
  induction ls with
  | nil => rfl
  | cons l ls ih =>
    rw [List.findSome?_cons, chain_cons]
    cases hr : l.rec? i <;> simp [version, hr, ih]

/-- Among such layers the newest action on an item agrees with its newest record. -/
theorem findSome?_act_of_rec {ls : List (Layer I W)} (h : ∀ l ∈ ls, l.Colocated) {i : I}
    {ws : Finset W} (hrec : ls.findSome? (fun l => l.rec? i) = some ws) {w : W} (hw : w ∈ ws) :
    ls.findSome? (fun l => l.act w i) = some true := by
  induction ls with
  | nil => simp at hrec
  | cons l ls ih =>
    have hl := h l (List.mem_cons_self ..)
    rw [List.findSome?_cons] at hrec ⊢
    cases hr : l.rec? i with
    | some ws' =>
      obtain rfl : ws' = ws := by simpa [hr] using hrec
      simp [hl.posted hr w hw]
    | none =>
      simp only [hr] at hrec
      simpa [hl.closed i w hr] using ih (fun l' h' => h l' (List.mem_cons_of_mem _ h')) hrec

end Layer
