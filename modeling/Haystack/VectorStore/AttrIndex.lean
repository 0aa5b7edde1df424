import Haystack.VectorStore.Payload
import Haystack.Lib.BitWords
import Haystack.Lib.Ieee
import Haystack.Lib.LooseMap
import Haystack.Lib.Search

/-!
# Attribute indexes

For each declared property a segment has an index from values to the slots with the value: for a
keyword property a map from values, compared as Go compares them, and for any other property the
sorted numbers with their slots. Predicates are evaluated with the indexes of the properties they
name, or by reading all payloads if a property has no index.
-/

namespace Haystack.VectorStore

open List

abbrev AttrKind := UInt8

def keyword : AttrKind := 1
def numeric : AttrKind := 2

/-! ### Values -/

namespace Value

/-- The comparison of Go for values as map keys, which looks at every field. -/
def goEq (v w : Value) : Bool :=
  v.kind = w.kind ∧ v.str = w.str ∧ v.int = w.int ∧ Ieee.eq v.flt w.flt ∧ v.bool = w.bool

/-- `Value.equal` -/
def equal (v w : Value) : Bool :=
  if v.kind ≠ w.kind then false
  else if v.kind = kindString then v.str = w.str
  else if v.kind = kindInt64 then v.int = w.int
  else if v.kind = kindFloat64 then Ieee.eq v.flt w.flt
  else if v.kind = kindBool then v.bool = w.bool
  else false

/-- `Value.numeric` -/
def number (v : Value) : Option UInt64 :=
  if v.kind = kindInt64 then some (Ieee.ofInt v.int)
  else if v.kind = kindFloat64 then some v.flt
  else none

/-- The order in which values are written. -/
def less (v w : Value) : Bool :=
  if v.kind ≠ w.kind then v.kind < w.kind
  else if v.kind = kindString then v.str < w.str
  else if v.kind = kindInt64 then v.int < w.int
  else if v.kind = kindFloat64 then Ieee.lt v.flt w.flt
  else if v.kind = kindBool then !v.bool && w.bool
  else false

lemma goEq_iff {v w : Value} : v.goEq w = true ↔
    v.kind = w.kind ∧ v.str = w.str ∧ v.int = w.int ∧ Ieee.eq v.flt w.flt = true ∧
      v.bool = w.bool := by
  simp [goEq]

lemma comparison_goEq : LooseMap.Comparison goEq where
  symm v w h := by
    rw [goEq_iff] at h ⊢
    obtain ⟨h₁, h₂, h₃, h₄, h₅⟩ := h
    exact ⟨h₁.symm, h₂.symm, h₃.symm, Ieee.eq_symm h₄, h₅.symm⟩
  trans u v w h h' := by
    rw [goEq_iff] at h h' ⊢
    obtain ⟨h₁, h₂, h₃, h₄, h₅⟩ := h
    obtain ⟨h₁', h₂', h₃', h₄', h₅'⟩ := h'
    exact ⟨h₁.trans h₁', h₂.trans h₂', h₃.trans h₃', Ieee.eq_trans h₄ h₄', h₅.trans h₅'⟩

end Value

lemma comparison_ieeeEq : LooseMap.Comparison Ieee.eq :=
  ⟨fun _ _ => Ieee.eq_symm, fun _ _ _ => Ieee.eq_trans⟩

/-! ### Bitmaps -/

/-- A set of slots, 64 in a word. -/
structure Bitmap where
  words : List UInt64
  deriving DecidableEq

namespace Bitmap

def empty : Bitmap := ⟨[]⟩

def bit (i : ℕ) : UInt64 := 1 <<< UInt64.ofNat (i % 64)

/-- Set a bit, with as many zero words before it as are missing. -/
def set (b : Bitmap) (i : ℕ) : Bitmap :=
  let words := b.words ++ List.replicate (i / 64 + 1 - b.words.length) 0
  ⟨words.modify (i / 64) (· ||| bit i)⟩

def get (b : Bitmap) (i : ℕ) : Bool :=
  match b.words[i / 64]? with
  | none => false
  | some w => w &&& bit i ≠ 0

/-- The union; the receiver grows to the length of the argument. -/
def or (b o : Bitmap) : Bitmap :=
  let words := b.words ++ List.replicate (o.words.length - b.words.length) 0
  ⟨words.mapIdx fun i w => w ||| (o.words[i]?).getD 0⟩

/-- The intersection, of the length of the receiver. -/
def and (b o : Bitmap) : Bitmap :=
  ⟨b.words.mapIdx fun i w => w &&& (o.words[i]?).getD 0⟩

/-- The slots of a list. -/
def ofList (slots : List ℕ) : Bitmap :=
  slots.foldl set empty

variable (b : Bitmap)

lemma get_eq (i : ℕ) : b.get i = BitWords.get b.words i := by
  rw [get, BitWords.get]
  cases b.words[i / 64]? with
  | none => simp
  | some w => exact BitWords.and_mask_ne_zero w i

@[simp] lemma get_empty (i : ℕ) : empty.get i = false := rfl

lemma get_set (i j : ℕ) : (b.set i).get j = (decide (j = i) || b.get j) := by
  have hlt : i / 64 < (b.words ++ replicate (i / 64 + 1 - b.words.length) 0).length := by
    rw [length_append, length_replicate]
    omega
  rw [get_eq, get_eq, ← BitWords.get_append_replicate b.words (i / 64 + 1 - b.words.length) j]
  exact BitWords.get_modify hlt j

lemma length_words_set (i : ℕ) : (b.set i).words.length = max b.words.length (i / 64 + 1) := by
  rw [set]
  simp only [length_modify, length_append, length_replicate]
  omega

end Bitmap

/-! ### Predicates -/

inductive Predicate
  | eq (prop : Bytes) (val : Value)
  | oneOf (prop : Bytes) (vals : List Value)
  | range (prop : Bytes) (lo hi : Value)
  | all (preds : List Predicate)

/-- `evalPayload` -/
def Predicate.evalPayload (pl : Payload) : Predicate → Bool
  | .eq prop val => (pl.lookup prop).any fun v => v.equal val
  | .oneOf prop vals => (pl.lookup prop).any fun v => vals.any fun c => v.equal c
  | .range prop lo hi => (pl.lookup prop).any fun v =>
      match v.number, lo.number, hi.number with
      | some x, some lo, some hi => Ieee.le lo x && Ieee.le x hi
      | _, _, _ => false
  | .all preds => evalAll preds
where
  evalAll : List Predicate → Bool
    | [] => true
    | p :: ps => p.evalPayload pl && evalAll ps

/-! ### The index -/

/-- The slots of each value, in the order in which the values were met. -/
abbrev Postings (K : Type) := List (K × Bitmap)

/-- Numbers in ascending order; a number that is not equal to itself is not found again in the map
that it was collected in, so it has no slots. -/
structure NumericIndex where
  values : List UInt64
  posts : List (Option Bitmap)
  deriving DecidableEq

structure SegAttrIndex where
  decls : GoMap Bytes AttrKind
  keyword : GoMap Bytes (Postings Value)
  numeric : GoMap Bytes NumericIndex

/-- Add a slot to the bitmap of a value, a new one if none is found. -/
def addPosting {K : Type} (eq : K → K → Bool) (m : Postings K) (k : K) (slot : ℕ) : Postings K :=
  LooseMap.alter eq m k fun bm => (bm.getD .empty).set slot

/-- The postings of a property over the payloads of all slots. The values are those that `key` takes
from the property. -/
def collectPostings {K : Type} (eq : K → K → Bool) (key : Value → Option K) (prop : Bytes)
    (payloads : List Payload) : Postings K :=
  payloads.zipIdx.foldl (fun m x =>
    match (x.1.lookup prop).bind key with
    | some k => addPosting eq m k x.2
    | none => m) []

/-- `sort.Float64s`, which puts what is not a number first. -/
def sortFloats (l : List UInt64) : List UInt64 :=
  l.insertionSort fun x y => ¬ (Ieee.lt y x ∨ Ieee.isNaN y ∧ ¬ Ieee.isNaN x)

def NumericIndex.ofPostings (acc : Postings UInt64) : NumericIndex :=
  let values := sortFloats (acc.map Prod.fst)
  ⟨values, values.map (LooseMap.find Ieee.eq acc)⟩

/-- `buildSegAttr`; the properties do not share state, so each is collected by itself. -/
def buildSegAttr (decls : GoMap Bytes AttrKind) (payloads : List Payload) : SegAttrIndex where
  decls := decls
  keyword := GoMap.mapValues (fun prop _ => collectPostings Value.goEq some prop payloads)
    (GoMap.filterEntries (fun _ kind => kind = keyword) decls)
  numeric := GoMap.mapValues
    (fun prop _ => .ofPostings (collectPostings Ieee.eq Value.number prop payloads))
    (GoMap.filterEntries (fun _ kind => kind ≠ keyword) decls)

section Postings

variable {K : Type} {eq : K → K → Bool} {key : Value → Option K} {prop : Bytes}
  {payloads : List Payload}

@[simp] lemma collectPostings_nil : collectPostings eq key prop [] = [] := rfl

/-- One more slot. -/
lemma collectPostings_concat (pl : Payload) :
    collectPostings eq key prop (payloads ++ [pl]) =
      ((pl.lookup prop).bind key).elim (collectPostings eq key prop payloads) fun k =>
        addPosting eq (collectPostings eq key prop payloads) k payloads.length := by
  rw [collectPostings, zipIdx_append, foldl_append]
  dsimp only [zipIdx_cons, zipIdx_nil, foldl_cons, foldl_nil]
  rw [Nat.zero_add, ← collectPostings]
  cases (pl.lookup prop).bind key <;> rfl

/-- The values come from payloads, and the bitmaps are no longer than needed. -/
lemma mem_collectPostings {e : K × Bitmap} (he : e ∈ collectPostings eq key prop payloads) :
    (∃ pl ∈ payloads, (pl.lookup prop).bind key = some e.1) ∧
      e.2.words.length ≤ payloads.length := by
  induction payloads using reverseRecOn generalizing e with
  | nil => simp at he
  | append_singleton payloads pl ih =>
    rw [collectPostings_concat] at he
    have hold : ∀ {e : K × Bitmap}, e ∈ collectPostings eq key prop payloads →
        (∃ pl' ∈ payloads ++ [pl], (pl'.lookup prop).bind key = some e.1) ∧
          e.2.words.length ≤ payloads.length := by
      intro e he
      obtain ⟨⟨pl', hpl', hk⟩, hlen⟩ := ih he
      exact ⟨⟨pl', mem_append_left _ hpl', hk⟩, hlen⟩
    rw [length_append, length_singleton]
    cases hk : (pl.lookup prop).bind key with
    | none =>
      rw [hk, Option.elim_none] at he
      exact ⟨(hold he).1, (hold he).2.trans (Nat.le_succ _)⟩
    | some k =>
      rw [hk, Option.elim_some, addPosting] at he
      rcases LooseMap.mem_alter he with he | ⟨e', he', rfl⟩ | rfl
      · exact ⟨(hold he).1, (hold he).2.trans (Nat.le_succ _)⟩
      · refine ⟨(hold he').1, ?_⟩
        have := (hold he').2
        rw [Option.getD_some, Bitmap.length_words_set]
        omega
      · refine ⟨⟨pl, by simp, hk⟩, ?_⟩
        rw [Option.getD_none, Bitmap.length_words_set]
        simp only [Bitmap.empty, length_nil]
        omega

lemma length_collectPostings_le :
    (collectPostings eq key prop payloads).length ≤ payloads.length := by
  induction payloads using reverseRecOn with
  | nil => simp
  | append_singleton payloads pl ih =>
    rw [collectPostings_concat, length_append, length_singleton]
    cases (pl.lookup prop).bind key with
    | none => exact ih.trans (Nat.le_succ _)
    | some k => exact (LooseMap.length_alter_le _).trans (Nat.succ_le_succ ih)

/-- Every value of the property is there, or an equal one. -/
lemma exists_mem_collectPostings {pl : Payload} (hpl : pl ∈ payloads) {k : K}
    (hk : (pl.lookup prop).bind key = some k) :
    ∃ a ∈ (collectPostings eq key prop payloads).map Prod.fst, a = k ∨ eq a k = true := by
  induction payloads using reverseRecOn with
  | nil => simp at hpl
  | append_singleton payloads pl' ih =>
    rw [collectPostings_concat]
    rcases mem_append.1 hpl with hpl | hpl
    · obtain ⟨a, ha, hak⟩ := ih hpl
      cases (pl'.lookup prop).bind key with
      | none => exact ⟨a, ha, hak⟩
      | some k' => exact ⟨a, LooseMap.mem_keys_alter _ ha, hak⟩
    · obtain rfl := mem_singleton.1 hpl
      rw [hk, Option.elim_some]
      exact LooseMap.exists_mem_keys_alter _

/-- The slots of a value are those with an equal value. -/
lemma find_collectPostings (hcmp : LooseMap.Comparison eq) (k : K) (i : ℕ) :
    ((LooseMap.find eq (collectPostings eq key prop payloads) k).getD .empty).get i = true ↔
      ∃ pl k', payloads[i]? = some pl ∧ (pl.lookup prop).bind key = some k' ∧ eq k' k = true := by
  induction payloads using reverseRecOn with
  | nil => simp
  | append_singleton payloads pl ih =>
    have hlast : (∃ pl' k', (payloads ++ [pl])[i]? = some pl' ∧ (pl'.lookup prop).bind key = some k' ∧
        eq k' k = true) ↔ (∃ pl' k', payloads[i]? = some pl' ∧ (pl'.lookup prop).bind key = some k' ∧
        eq k' k = true) ∨ i = payloads.length ∧ ∃ k', (pl.lookup prop).bind key = some k' ∧
        eq k' k = true := by
      rcases lt_trichotomy i payloads.length with hi | hi | hi
      · rw [getElem?_append_left hi]
        exact (or_iff_left fun h => absurd h.1 hi.ne).symm
      · subst hi
        simp
      · rw [getElem?_eq_none (by simpa using hi), getElem?_eq_none hi.le]
        simp [hi.ne']
    rw [hlast, collectPostings_concat]
    cases hpl : (pl.lookup prop).bind key with
    | none => simp [ih]
    | some k' =>
      rw [Option.elim_some, addPosting, LooseMap.find_alter hcmp]
      by_cases hkk : eq k' k = true
      · rw [if_pos hkk, Option.getD_some, Bitmap.get_set, Bool.or_eq_true, decide_eq_true_iff,
          LooseMap.find_congr hcmp hkk, ih, or_comm]
        simp [hkk]
      · rw [if_neg hkk, ih]
        simp [hkk]

end Postings

/-! ### Evaluation -/

/-- The slots whose payload passes a test. -/
def residualScan (test : Payload → Bool) (payloads : List Payload) : Bitmap :=
  .ofList ((payloads.zipIdx.filter fun x => test x.1).map Prod.snd)

namespace SegAttrIndex

variable (ai : SegAttrIndex) (payloads : List Payload)

/-- The place of a number among the values. -/
def searchFloats (values : List UInt64) (x : UInt64) : ℕ :=
  BinarySearch.search values.length fun i => Ieee.le x (values.getD i 0)

def evalEq (prop : Bytes) (v : Value) : Bitmap :=
  match ai.keyword.lookup prop with
  | some m => (LooseMap.find Value.goEq m v).getD .empty
  | none =>
    match ai.numeric.lookup prop with
    | some ni =>
      match v.number with
      | some x =>
        let i := searchFloats ni.values x
        if i < ni.values.length ∧ Ieee.eq (ni.values.getD i 0) x then
          (ni.posts.getD i none).getD .empty
        else .empty
      | none => .empty
    | none => residualScan (fun pl => (Predicate.eq prop v).evalPayload pl) payloads

/-- The union of the bitmaps of the values from the first on that is not below the range. -/
def evalRange (prop : Bytes) (lo hi : Value) : Bitmap :=
  match ai.numeric.lookup prop with
  | some ni =>
    match lo.number, hi.number with
    | some lo, some hi =>
      ((ni.values.zip ni.posts).drop (searchFloats ni.values lo)
        |>.takeWhile fun e => Ieee.le e.1 hi).foldl (fun out e => out.or (e.2.getD .empty)) .empty
    | _, _ => .empty
  | none => residualScan (fun pl => (Predicate.range prop lo hi).evalPayload pl) payloads

def evalSeg : Predicate → Bitmap
  | .eq prop v => ai.evalEq payloads prop v
  | .oneOf prop vals => vals.foldl (fun out v => out.or (ai.evalEq payloads prop v)) .empty
  | .range prop lo hi => ai.evalRange payloads prop lo hi
  | .all preds =>
    match evalEach preds with
    | [] => .ofList (List.range payloads.length)
    | b :: bs => bs.foldl Bitmap.and b
where
  evalEach : List Predicate → List Bitmap
    | [] => []
    | p :: ps => evalSeg p :: evalEach ps

end SegAttrIndex

end Haystack.VectorStore
