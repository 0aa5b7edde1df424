import Haystack.VectorStore.AttrFile
import Haystack.Lib.StepSystem

/-!
# Reading an attribute index back

A sealed segment is opened with the index in its file. The index answers as the one in memory did
exactly if every indexed value is equal to what is left of it in the file. A value that is not equal
to itself has no bitmap when the file is written.
-/

namespace Haystack.VectorStore

open Framing Decoding Decoded List StepSystem GoMap

/-- `openAttrFile`: the index in the file, or a new one if the parser rejects the file. -/
def openAttrFile (b : Bytes) (decls : GoMap Bytes AttrKind) (payloads : List Payload) :
    Decoded SegAttrIndex :=
  match parseAttrFile b payloads.length decls with
  | .value ai => .value ai
  | .error => .value (buildSegAttr decls payloads)
  | .outOfRange => .outOfRange

/-! ### Bytes of properties -/

variable (n : ℕ) {e : Value × Bitmap}

section Bytes

def bitmapBytes (bm : Bitmap) : Bytes :=
  littleEndian 4 bm.words.length ++ (bm.words.map UInt64.toNat).flatMap (littleEndian 8)

def entryBytes (e : Value × Bitmap) : Bytes :=
  appendValue e.1 ++ bitmapBytes e.2

def AttrProp.bytes (p : AttrProp) : Bytes :=
  p.kind :: (littleEndian 2 p.prop.length ++ (p.prop ++
    (littleEndian 4 p.entries.length ++ p.entries.flatMap entryBytes)))

/-- What comes back of an entry. -/
def canonicalPosting (e : Value × Bitmap) : Value × Bitmap := (e.1.canonical, e.2)

def AttrProp.canonical (p : AttrProp) : AttrProp :=
  { p with entries := p.entries.map canonicalPosting }

/-- The lengths fit their fields. -/
structure AttrProp.Fits (p : AttrProp) : Prop where
  prop : p.prop.length < 2 ^ 16
  entries : p.entries.length < 2 ^ 32
  known : ∀ e ∈ p.entries, e.1.Known
  str : ∀ e ∈ p.entries, e.1.kind = kindString → e.1.str.length < 2 ^ 64
  words : ∀ e ∈ p.entries, e.2.words.length < 2 ^ 32

lemma bitmapOf_bitmapBytes {bm : Bitmap} (h : bm.words.length < 2 ^ 32) (s : Bytes) :
    bitmapOf (bitmapBytes bm ++ s) = some (bm, s) := by
  have hwords : ∀ w ∈ bm.words.map UInt64.toNat, ∀ s,
      readUint 8 (littleEndian 8 w ++ s) = some (w, s) := by
    intro w hw s
    obtain ⟨x, -, rfl⟩ := mem_map.1 hw
    have hlt := x.toNat_lt
    rw [readUint_append, Nat.mod_eq_of_lt (by norm_num; exact hlt)]
  have hread := readItems_flatMap hwords s
  rw [length_map] at hread
  rw [bitmapOf, bitmapBytes, append_assoc, readUint_append,
    Nat.mod_eq_of_lt (by norm_num; omega), Option.bind_some, hread, Option.map_some]
  simp [Function.comp_def]

lemma attrEntry_entryBytes (hknown : e.1.Known)
    (hstr : e.1.kind = kindString → e.1.str.length < 2 ^ 64) (hwords : e.2.words.length < 2 ^ 32)
    (s : Bytes) : attrEntry (entryBytes e ++ s) = some (canonicalPosting e, s) := by
  rw [attrEntry, entryBytes, append_assoc, scalar_appendValue hknown hstr, Option.bind_some,
    bitmapOf_bitmapBytes hwords, Option.map_some]
  rfl

lemma attrProp_bytes {p : AttrProp} (h : p.Fits) (s : Bytes) :
    attrProp (p.bytes ++ s) = some (p.canonical, s) := by
  have hread := readItems_flatMap (fun e he => attrEntry_entryBytes (h.known e he) (h.str e he)
    (h.words e he)) s
  have hprop := h.prop
  have hentries := h.entries
  rw [AttrProp.bytes, cons_append, attrProp, append_assoc, readUint_append,
    Nat.mod_eq_of_lt (by norm_num; omega), Option.bind_some, append_assoc, takeBytes_append,
    Option.bind_some, append_assoc, readUint_append, Nat.mod_eq_of_lt (by norm_num; omega),
    Option.bind_some, hread, Option.map_some]
  rfl

/-- The file with some properties. -/
def attrBytes (n : ℕ) (props : List AttrProp) : Bytes :=
  attrHeader n ++ (littleEndian 4 props.length ++ props.flatMap AttrProp.bytes)

lemma length_attrHeader : (attrHeader n).length = segPageSize := by
  simp only [attrHeader, length_append, length_replicate, length_littleEndian]
  rfl

/-- The beginning of the file. -/
lemma attrBytes_eq (props : List AttrProp) : ∃ rest, attrBytes n props =
    magicAttr ++ (List.replicate 4 0 ++ (littleEndian 8 n ++ rest)) := by
  refine ⟨replicate (segPageSize - 16) 0 ++
    (littleEndian 4 props.length ++ props.flatMap AttrProp.bytes), ?_⟩
  simp only [attrBytes, attrHeader, append_assoc]

/-- What is parsed from a written file. -/
theorem parseAttrFile_attrBytes {n : ℕ} {props : List AttrProp} (decls : GoMap Bytes AttrKind)
    (hfits : ∀ p ∈ props, p.Fits) (hprops : props.length < 2 ^ 32) (hn : n < 2 ^ 64)
    (hb : (attrBytes n props).length < 2 ^ 63) :
    parseAttrFile (attrBytes n props) n decls =
      .value ((props.map AttrProp.canonical).foldl SegAttrIndex.addProp ⟨decls, ∅, ∅⟩) := by
  have hheader := length_attrHeader n
  obtain ⟨rest, hbegin⟩ := attrBytes_eq n props
  have hlen : (attrBytes n props).length =
      segPageSize + (4 + (props.flatMap AttrProp.bytes).length) := by
    rw [attrBytes, length_append, length_append, length_littleEndian, hheader]
  have hmagic : slice (attrBytes n props) 0 4 = .value magicAttr := by
    have := @slice_of_le _ (attrBytes n props) 0 4 (by rw [hlen, segPageSize]; omega)
    rw [hbegin] at this ⊢
    exact this
  have hcount : uintAt 8 (attrBytes n props) 8 = .value n := by
    have hat : At (attrBytes n props) 8 (littleEndian 8 n) := by
      have hdrop : (magicAttr ++ (replicate 4 0 ++ (littleEndian 8 n ++ rest))).drop 8 =
          littleEndian 8 n ++ rest := rfl
      rw [At, hbegin, hdrop]
      exact prefix_append _ _
    rw [uintAt_of_at hat (by norm_num), Nat.mod_eq_of_lt (by norm_num; exact hn)]
  have hbody : (attrBytes n props).drop segPageSize =
      littleEndian 4 props.length ++ props.flatMap AttrProp.bytes := by
    rw [attrBytes, ← hheader, drop_left]
  have hnProps : uintAt 4 (attrBytes n props) segPageSize = .value props.length := by
    have hat : At (attrBytes n props) segPageSize (littleEndian 4 props.length) := by
      rw [At, hbody]
      exact prefix_append _ _
    rw [uintAt_of_at hat (by norm_num), Nat.mod_eq_of_lt (by norm_num; exact hprops)]
  have hrest : (attrBytes n props).drop (segPageSize + 4) = props.flatMap AttrProp.bytes := by
    rw [← drop_drop, hbody]
    exact drop_left' (length_littleEndian _ _)
  have hread : readItems attrProp props.length ((attrBytes n props).drop (segPageSize + 4)) =
      some (props.map AttrProp.canonical, []) := by
    have := readItems_flatMap (fun p hp => attrProp_bytes (hfits p hp)) []
    rwa [append_nil, ← hrest] at this
  have hgood : ¬ Meets attrProp (HugeProp (attrBytes n props).length) props.length
      ((attrBytes n props).drop (segPageSize + 4)) := by
    intro hmeets
    rw [readItems_eq_none_of_meets (attrProp_of_hugeProp hb) hmeets] at hread
    cases hread
  have hfollows := follows_items (fun off _ => follows_parseProp hb off) (attrProp_of_hugeProp hb)
    props.length (show segPageSize + 4 ≤ (attrBytes n props).length by omega)
  have hagrees := hfollows.agrees hgood
  rw [hread] at hagrees
  obtain ⟨off, -, hgo, -⟩ := hagrees.eq_value
  rw [parseAttrFile, if_neg (by omega), hmagic, value_bind, if_neg (by simp), hcount, value_bind,
    if_neg (by rw [Nat.mod_eq_of_lt hn]; simp), hnProps, value_bind, hgo, value_bind]

end Bytes

/-! ### Properties of an index -/

section AddProp

variable {ai : SegAttrIndex} {p : AttrProp} {l : List AttrProp} {prop : Bytes}

/-- The map of a keyword property. -/
def AttrProp.postings (p : AttrProp) : Postings Value :=
  p.entries.foldl (fun m e => LooseMap.assign Value.goEq m e.1 e.2) []

/-- The numbers of any other property. -/
def AttrProp.numbers (p : AttrProp) : NumericIndex :=
  ⟨p.entries.map fun e => e.1.flt, p.entries.map fun e => some e.2⟩

lemma lookup_keyword_addProp : (ai.addProp p).keyword.lookup prop =
    if p.kind = keyword ∧ prop = p.prop then some p.postings else ai.keyword.lookup prop := by
  rw [SegAttrIndex.addProp]
  by_cases hkind : p.kind = keyword
  · rw [if_pos hkind]
    simp only [hkind, true_and]
    exact lookup_insert_if _ _ _ _
  · rw [if_neg hkind, if_neg fun h => hkind h.1]

lemma lookup_numeric_addProp : (ai.addProp p).numeric.lookup prop =
    if p.kind ≠ keyword ∧ prop = p.prop then some p.numbers else ai.numeric.lookup prop := by
  rw [SegAttrIndex.addProp]
  by_cases hkind : p.kind = keyword
  · rw [if_pos hkind, if_neg fun h => h.1 hkind]
  · rw [if_neg hkind]
    simp only [ne_eq, hkind, not_false_eq_true, true_and]
    exact lookup_insert_if _ _ _ _

lemma lookup_foldl_addProp_of_ne (h : ∀ p ∈ l, p.prop ≠ prop) :
    (l.foldl SegAttrIndex.addProp ai).keyword.lookup prop = ai.keyword.lookup prop ∧
      (l.foldl SegAttrIndex.addProp ai).numeric.lookup prop = ai.numeric.lookup prop := by
  induction l generalizing ai with
  | nil => exact ⟨rfl, rfl⟩
  | cons p l ih =>
    have hne : prop ≠ p.prop := (h p mem_cons_self).symm
    rw [foldl_cons]
    obtain ⟨hk, hn⟩ := @ih (ai.addProp p) fun q hq => h q (mem_cons_of_mem _ hq)
    rw [hk, hn, lookup_keyword_addProp, lookup_numeric_addProp, if_neg fun h => hne h.2,
      if_neg fun h => hne h.2]
    exact ⟨rfl, rfl⟩

lemma lookup_foldl_addProp (hl : (l.map AttrProp.prop).Nodup) (hp : p ∈ l) :
    (l.foldl SegAttrIndex.addProp ai).keyword.lookup p.prop =
        (if p.kind = keyword then some p.postings else ai.keyword.lookup p.prop) ∧
      (l.foldl SegAttrIndex.addProp ai).numeric.lookup p.prop =
        if p.kind ≠ keyword then some p.numbers else ai.numeric.lookup p.prop := by
  induction l generalizing ai with
  | nil => simp at hp
  | cons q l ih =>
    rw [map_cons, nodup_cons] at hl
    rw [foldl_cons]
    rcases mem_cons.1 hp with rfl | hp
    · obtain ⟨hk, hn⟩ := @lookup_foldl_addProp_of_ne (ai.addProp p) l p.prop
        fun r hr heq => hl.1 (heq ▸ mem_map_of_mem hr)
      rw [hk, hn, lookup_keyword_addProp, lookup_numeric_addProp]
      simp
    · have hne : p.prop ≠ q.prop := fun heq => hl.1 (heq ▸ mem_map_of_mem hp)
      obtain ⟨hk, hn⟩ := @ih (ai.addProp q) hl.2 hp
      rw [hk, hn, lookup_keyword_addProp, lookup_numeric_addProp]
      simp [hne]

end AddProp

/-! ### What is written -/

/-- A property with the bitmaps that the index has for its values. -/
def SegAttrIndex.storedProp (ai : SegAttrIndex) (d : Bytes × AttrKind) : AttrProp :=
  ⟨d.2, d.1, (ai.written d.1 d.2).map fun e => (e.1, e.2.getD .empty)⟩

variable {ai : SegAttrIndex} {v : Value} {d : Bytes × AttrKind}

lemma appendProp_eq_some (h : ∀ e ∈ ai.written d.1 d.2, e.2.isSome) :
    appendProp d.2 d.1 (ai.written d.1 d.2) = some (ai.storedProp d).bytes := by
  have hentries : (ai.written d.1 d.2).mapM appendAttrEntry =
      some ((ai.written d.1 d.2).map fun e => entryBytes (e.1, e.2.getD .empty)) := by
    have heach : ∀ e ∈ ai.written d.1 d.2, appendAttrEntry e =
        pure (entryBytes (e.1, e.2.getD .empty)) := by
      intro e he
      obtain ⟨bm, hbm⟩ := Option.isSome_iff_exists.1 (h e he)
      rw [appendAttrEntry, hbm]
      rfl
    rw [mapM_congr heach]
    exact mapM_pure
  rw [appendProp, hentries, Option.map_some, AttrProp.bytes, SegAttrIndex.storedProp]
  simp only [length_map, flatMap_def, map_map]
  rfl

/-- The file is written if every value has a bitmap. -/
lemma writeAttrFile_eq_some (h : ∀ d ∈ sortedDecls ai.decls, ∀ e ∈ ai.written d.1 d.2, e.2.isSome) :
    writeAttrFile ai n = some (attrBytes n ((sortedDecls ai.decls).map ai.storedProp)) := by
  have hprops : ((sortedDecls ai.decls).mapM fun d => appendProp d.2 d.1 (ai.written d.1 d.2)) =
      some ((sortedDecls ai.decls).map fun d => (ai.storedProp d).bytes) := by
    rw [mapM_congr fun d hd => appendProp_eq_some (h d hd)]
    exact mapM_pure
  rw [writeAttrFile, hprops, Option.map_some, attrBytes, length_map, flatMap_map,
    flatMap_def]

/-- A value without a bitmap stops the writer. -/
lemma writeAttrFile_eq_none (hd : d ∈ sortedDecls ai.decls) {e : Value × Option Bitmap}
    (he : e ∈ ai.written d.1 d.2) (hnone : e.2 = none) : writeAttrFile ai n = none := by
  have hentries : (ai.written d.1 d.2).mapM appendAttrEntry = none := by
    by_contra hsome
    obtain ⟨l, hl⟩ := Option.ne_none_iff_exists'.1 hsome
    obtain ⟨b, -, hb⟩ := Forall₂.exists_right (forall₂_of_mapM hl) he
    rw [appendAttrEntry, hnone] at hb
    cases hb
  have hprops : ((sortedDecls ai.decls).mapM fun d =>
      appendProp d.2 d.1 (ai.written d.1 d.2)) = none := by
    by_contra hsome
    obtain ⟨l, hl⟩ := Option.ne_none_iff_exists'.1 hsome
    obtain ⟨b, -, hb⟩ := Forall₂.exists_right (forall₂_of_mapM hl) hd
    rw [appendProp, hentries] at hb
    cases hb
  rw [writeAttrFile, hprops, Option.map_none]

/-- The values of an index all have a bitmap exactly if the values of the payloads are equal to
themselves. -/
lemma forall_find_isSome_iff {K : Type} {eq : K → K → Bool} {key : Value → Option K} {prop : Bytes}
    {payloads : List Payload} (hcmp : LooseMap.Comparison eq) :
    (∀ a ∈ (collectPostings eq key prop payloads).map Prod.fst,
        (LooseMap.find eq (collectPostings eq key prop payloads) a).isSome) ↔
      ∀ pl ∈ payloads, ∀ k, (pl.lookup prop).bind key = some k → eq k k = true := by
  constructor
  · intro h pl hpl k hk
    obtain ⟨a, ha, hak⟩ := exists_mem_collectPostings hpl hk
    rcases hak with rfl | hak
    · obtain ⟨a', -, ha'⟩ := LooseMap.find_isSome_iff.1 (h a ha)
      exact hcmp.trans _ _ _ (hcmp.symm _ _ ha') ha'
    · exact hcmp.trans _ _ _ (hcmp.symm _ _ hak) hak
  · intro h a ha
    obtain ⟨e, he, rfl⟩ := mem_map.1 ha
    obtain ⟨⟨pl, hpl, hk⟩, -⟩ := mem_collectPostings he
    exact LooseMap.find_isSome_iff.2 ⟨e.1, ha, h pl hpl e.1 hk⟩

section Written

variable {decls : GoMap Bytes AttrKind} {payloads : List Payload} {prop : Bytes} {kind : AttrKind}

/-- A value is equal to itself as a key of the index. -/
def SelfEqual (kind : AttrKind) (v : Value) : Prop :=
  if kind = keyword then v.goEq v = true else ∀ x, v.number = some x → Ieee.isNaN x = false

/-- A value is equal, as a key of the index, to what is left of it in a file. -/
def Indexable (kind : AttrKind) (v : Value) : Prop :=
  if kind = keyword then v.goEq v.canonical = true
  else ∀ x, v.number = some x → Ieee.isNaN x = false

lemma indexable_iff (kind : AttrKind) (v : Value) :
    (if kind = keyword then v.goEq v.canonical else v.number.all fun x => !Ieee.isNaN x) = true ↔
      Indexable kind v := by
  rw [Indexable]
  split
  · rfl
  · simp [Option.all_eq_true]

instance (kind : AttrKind) (v : Value) : Decidable (Indexable kind v) :=
  decidable_of_iff _ (indexable_iff kind v)

lemma Indexable.selfEqual (h : Indexable kind v) : SelfEqual kind v := by
  rw [Indexable] at h
  rw [SelfEqual]
  split at h
  case isTrue hkind =>
    rw [if_pos hkind]
    exact Value.comparison_goEq.trans _ _ _ h (Value.comparison_goEq.symm _ _ h)
  case isFalse hkind => rwa [if_neg hkind]

lemma lookup_keyword_buildSegAttr : (buildSegAttr decls payloads).keyword.lookup prop =
    ((decls.lookup prop).filter (· = keyword)).map fun _ =>
      collectPostings Value.goEq some prop payloads := by
  rw [buildSegAttr, lookup_mapValues, lookup_filterEntries]

lemma lookup_numeric_buildSegAttr : (buildSegAttr decls payloads).numeric.lookup prop =
    ((decls.lookup prop).filter (· ≠ keyword)).map fun _ =>
      .ofPostings (collectPostings Ieee.eq Value.number prop payloads) := by
  rw [buildSegAttr, lookup_mapValues, lookup_filterEntries]

lemma mem_sortedValues {m : Postings Value} : v ∈ sortedValues m ↔ v ∈ m.map Prod.fst :=
  mem_insertionSort _

lemma mem_sortFloats {l : List UInt64} {x : UInt64} : x ∈ sortFloats l ↔ x ∈ l :=
  mem_insertionSort _

lemma written_keyword (h : decls.lookup prop = some keyword) :
    (buildSegAttr decls payloads).written prop keyword =
      (sortedValues (collectPostings Value.goEq some prop payloads)).map fun v =>
        (v, LooseMap.find Value.goEq (collectPostings Value.goEq some prop payloads) v) := by
  rw [SegAttrIndex.written, if_pos rfl, lookup_keyword_buildSegAttr, h]
  simp [Option.filter]

lemma written_of_ne (h : decls.lookup prop = some kind) (hkind : kind ≠ keyword) :
    (buildSegAttr decls payloads).written prop kind =
      (sortFloats ((collectPostings Ieee.eq Value.number prop payloads).map Prod.fst)).map fun x =>
        (Value.ofFloat64 x,
          LooseMap.find Ieee.eq (collectPostings Ieee.eq Value.number prop payloads) x) := by
  rw [SegAttrIndex.written, if_neg hkind, lookup_numeric_buildSegAttr, h]
  simp [Option.filter, hkind, NumericIndex.ofPostings, zip_eq_zipWith, zipWith_map_right,
    zipWith_self]

/-- Every value that is written has a bitmap exactly if the values are equal to themselves. -/
lemma forall_written_isSome_iff (h : decls.lookup prop = some kind) :
    (∀ e ∈ (buildSegAttr decls payloads).written prop kind, e.2.isSome) ↔
      ∀ pl ∈ payloads, ∀ v, pl.lookup prop = some v → SelfEqual kind v := by
  by_cases hkind : kind = keyword
  · subst hkind
    have hiff := @forall_find_isSome_iff _ _ some prop payloads Value.comparison_goEq
    simp only [written_keyword h, forall_mem_map, mem_sortedValues, SelfEqual, if_true]
    simpa using hiff
  · have hiff := @forall_find_isSome_iff _ _ Value.number prop payloads comparison_ieeeEq
    simp only [written_of_ne h hkind, forall_mem_map, mem_sortFloats, SelfEqual, if_neg hkind]
    rw [forall_mem_map] at hiff
    rw [hiff]
    simp only [Option.bind_eq_some_iff, Ieee.eq_self_iff]
    exact ⟨fun h pl hpl v hv x hx => h pl hpl x ⟨v, hv, hx⟩,
      fun h pl hpl x hx => hx.elim fun v hv => h pl hpl v hv.1 x hv.2⟩

lemma mem_sortedDecls : (prop, kind) ∈ sortedDecls decls ↔ decls.lookup prop = some kind :=
  mem_sortBy_entries

/-- The names, counts and sizes of a store. The control store takes names of at most 32768 bytes as
keys, `Put` encodes every payload, and a segment has at most `2 ^ 30` rows. -/
structure Stored (decls : GoMap Bytes AttrKind) (payloads : List Payload) : Prop where
  names : ∀ prop ∈ decls.keys, prop.length ≤ 32768
  count : decls.keys.length < 2 ^ 32
  rows : payloads.length ≤ 2 ^ 30
  accepted : ∀ pl ∈ payloads, (encodePayload pl).isSome
  size : ∀ b, writeAttrFile (buildSegAttr decls payloads) payloads.length = some b →
    b.length < 2 ^ 63

/-- The values of a property, their number and the sizes of their bitmaps. -/
lemma written_bounds (h : Stored decls payloads) (hd : decls.lookup prop = some kind) :
    ((buildSegAttr decls payloads).written prop kind).length ≤ payloads.length ∧
      ∀ e ∈ (buildSegAttr decls payloads).written prop kind,
        e.1.Known ∧ (e.2.getD .empty).words.length ≤ payloads.length := by
  have hwords : ∀ {K : Type} {eq : K → K → Bool} {key : Value → Option K} (a : K),
      ((LooseMap.find eq (collectPostings eq key prop payloads) a).getD .empty).words.length ≤
        payloads.length := by
    intro K eq key a
    cases hfind : LooseMap.find eq (collectPostings eq key prop payloads) a with
    | none => simp [Bitmap.empty]
    | some bm =>
      obtain ⟨a', ha'⟩ := LooseMap.exists_mem_of_find hfind
      exact (mem_collectPostings ha').2
  by_cases hkind : kind = keyword
  · subst hkind
    rw [written_keyword hd, length_map, sortedValues, length_insertionSort,
      length_map]
    refine ⟨length_collectPostings_le, ?_⟩
    rw [forall_mem_map]
    intro v hv
    obtain ⟨e, he, rfl⟩ := mem_map.1 (mem_sortedValues.1 hv)
    obtain ⟨⟨pl, hpl, hk⟩, -⟩ := mem_collectPostings he
    rw [Option.bind_fun_some] at hk
    exact ⟨known_of_encodePayload (h.accepted pl hpl) hk, hwords _⟩
  · rw [written_of_ne hd hkind, length_map, sortFloats, length_insertionSort,
      length_map]
    refine ⟨length_collectPostings_le, ?_⟩
    rw [forall_mem_map]
    exact fun x _ => ⟨by simp [Value.Known, Value.ofFloat64], hwords _⟩

/-- The properties of the file. -/
abbrev storedProps (decls : GoMap Bytes AttrKind) (payloads : List Payload) : List AttrProp :=
  (sortedDecls decls).map (buildSegAttr decls payloads).storedProp

lemma fits_storedProps (h : Stored decls payloads)
    (hwrite : writeAttrFile (buildSegAttr decls payloads) payloads.length =
      some (attrBytes payloads.length (storedProps decls payloads))) :
    ∀ p ∈ storedProps decls payloads, p.Fits := by
  intro p hp
  have hbytes : p.bytes.length < 2 ^ 63 := by
    have hsub : p.bytes.Sublist ((storedProps decls payloads).map AttrProp.bytes).flatten :=
      sublist_flatten_of_mem (mem_map_of_mem hp)
    have hle := hsub.length_le
    have hsize := h.size _ hwrite
    rw [attrBytes, length_append, length_append, flatMap_def] at hsize
    omega
  obtain ⟨⟨prop, kind⟩, hd, rfl⟩ := mem_map.1 hp
  have hlookup := mem_sortedDecls.1 hd
  obtain ⟨hcount, hentries⟩ := written_bounds h hlookup
  have hrows := h.rows
  have hname := h.names prop (AList.mem_keys.1 (mem_iff_exists_lookup.2 ⟨kind, hlookup⟩))
  refine ⟨?_, ?_, ?_, ?_, ?_⟩
  · change prop.length < 2 ^ 16
    omega
  · change (map _ _).length < 2 ^ 32
    rw [length_map]
    exact lt_of_le_of_lt (hcount.trans hrows) (by norm_num)
  · exact forall_mem_map.2 fun e he => (hentries e he).1
  · intro e he hstr
    have hsub : (entryBytes e).Sublist
        ((((buildSegAttr decls payloads).storedProp (prop, kind)).entries.map entryBytes).flatten) :=
      sublist_flatten_of_mem (mem_map_of_mem he)
    have hle := hsub.length_le
    have hval := length_str_le_appendValue hstr
    rw [AttrProp.bytes, flatMap_def] at hbytes
    simp only [length_cons, length_append] at hbytes
    rw [entryBytes, length_append] at hle
    omega
  · refine forall_mem_map.2 fun e he => ?_
    have := (hentries e he).2
    change (e.2.getD .empty).words.length < 2 ^ 32
    omega

/-- The index that is read back. -/
def readBack (decls : GoMap Bytes AttrKind) (payloads : List Payload) : SegAttrIndex :=
  ((storedProps decls payloads).map AttrProp.canonical).foldl SegAttrIndex.addProp ⟨decls, ∅, ∅⟩

lemma openAttrFile_written (h : Stored decls payloads)
    (hwrite : writeAttrFile (buildSegAttr decls payloads) payloads.length =
      some (attrBytes payloads.length (storedProps decls payloads))) :
    openAttrFile (attrBytes payloads.length (storedProps decls payloads)) decls payloads =
      .value (readBack decls payloads) := by
  have hcount : (storedProps decls payloads).length = decls.keys.length := by
    rw [length_map, sortedDecls, (StableSort.perm_sortBy _ _).length_eq, length_map]
    exact (length_map _).symm
  have hdecls := h.count
  have hrows := h.rows
  rw [openAttrFile, parseAttrFile_attrBytes decls (fits_storedProps h hwrite) (by omega) (by omega)
    (h.size _ hwrite)]
  rfl

/-- The property that is read back for a declaration. -/
lemma lookup_readBack (h : decls.lookup prop = some kind) :
    (readBack decls payloads).keyword.lookup prop = (if kind = keyword then
        some ((buildSegAttr decls payloads).storedProp (prop, kind)).canonical.postings else none) ∧
      (readBack decls payloads).numeric.lookup prop = if kind ≠ keyword then
        some ((buildSegAttr decls payloads).storedProp (prop, kind)).canonical.numbers else none := by
  have hmem : ((buildSegAttr decls payloads).storedProp (prop, kind)).canonical ∈
      (storedProps decls payloads).map AttrProp.canonical :=
    mem_map_of_mem (mem_map_of_mem (mem_sortedDecls.2 h))
  refine lookup_foldl_addProp ?_ hmem
  rw [map_map, map_map]
  exact nodup_sortBy_entries

lemma lookup_readBack_of_none (h : decls.lookup prop = none) :
    (readBack decls payloads).keyword.lookup prop = none ∧
      (readBack decls payloads).numeric.lookup prop = none := by
  refine lookup_foldl_addProp_of_ne ?_
  rw [forall_mem_map, forall_mem_map]
  rintro ⟨prop', kind⟩ hd (rfl : prop' = prop)
  rw [mem_sortedDecls.1 hd] at h
  cases h

/-- The numbers come back. -/
lemma numbers_storedProp (h : decls.lookup prop = some kind) (hkind : kind ≠ keyword)
    (hsome : ∀ e ∈ (buildSegAttr decls payloads).written prop kind, e.2.isSome) :
    ((buildSegAttr decls payloads).storedProp (prop, kind)).canonical.numbers =
      .ofPostings (collectPostings Ieee.eq Value.number prop payloads) := by
  rw [written_of_ne h hkind, forall_mem_map] at hsome
  simp only [AttrProp.numbers, AttrProp.canonical, SegAttrIndex.storedProp, NumericIndex.ofPostings,
    written_of_ne h hkind, map_map]
  congr 1
  · refine (map_congr_left fun x _ => ?_).trans (map_id _)
    rfl
  · refine map_congr_left fun x hx => ?_
    obtain ⟨bm, hbm⟩ := Option.isSome_iff_exists.1 (hsome x hx)
    dsimp only at hbm
    simp [canonicalPosting, hbm]

/-- The entries of a keyword property that is read back. -/
lemma mem_entries_storedProp (h : decls.lookup prop = some keyword) :
    e ∈ ((buildSegAttr decls payloads).storedProp (prop, keyword)).canonical.entries ↔
      ∃ a ∈ (collectPostings Value.goEq some prop payloads).map Prod.fst,
        e = (a.canonical, (LooseMap.find Value.goEq
          (collectPostings Value.goEq some prop payloads) a).getD .empty) := by
  simp only [AttrProp.canonical, SegAttrIndex.storedProp, written_keyword h, map_map]
  rw [mem_map]
  constructor
  · rintro ⟨a, ha, rfl⟩
    exact ⟨a, mem_sortedValues.1 ha, rfl⟩
  · rintro ⟨a, ha, rfl⟩
    exact ⟨a, mem_sortedValues.2 ha, rfl⟩

lemma Value.kind_canonical (v : Value) : v.canonical.kind = v.kind := by
  rw [Value.canonical]
  split_ifs with h₁ h₂ h₃ h₄
  exacts [h₁.symm, h₂.symm, h₃.symm, h₄.symm, rfl]

/-- A value that is found through what is left of some value is equal to what is left of itself. -/
lemma Value.goEq_canonical {v w : Value} (hv : v.Known) (h : v.canonical.goEq w = true) :
    w.goEq w.canonical = true := by
  rw [Value.goEq_iff] at h
  obtain ⟨hkind, hstr, hint, hflt, hbool⟩ := h
  rw [Value.kind_canonical] at hkind
  have hself : Ieee.eq w.flt w.flt = true := Ieee.eq_trans (Ieee.eq_symm hflt) hflt
  rw [Value.goEq_iff]
  rcases hv with hv | hv | hv | hv
  all_goals
    have hw := hkind.symm.trans hv
    simp only [Value.canonical, hv, hw, kindString, kindInt64, kindFloat64, kindBool,
      Value.ofString, Value.ofInt64, Value.ofFloat64, Value.ofBool] at hstr hint hflt hbool ⊢
    simp_all [Ieee.eq_symm]

/-- What is found of a keyword property that is read back, if every value is equal to what is left of
it. -/
lemma find_postings (h : decls.lookup prop = some keyword)
    (hindexable : ∀ pl ∈ payloads, ∀ v, pl.lookup prop = some v → v.goEq v.canonical = true)
    (v : Value) :
    LooseMap.find Value.goEq
        ((buildSegAttr decls payloads).storedProp (prop, keyword)).canonical.postings v =
      LooseMap.find Value.goEq (collectPostings Value.goEq some prop payloads) v := by
  set m := collectPostings Value.goEq some prop payloads with hm
  have hcmp := Value.comparison_goEq
  have hkeys : ∀ a ∈ m.map Prod.fst, a.goEq a.canonical = true := by
    intro a ha
    obtain ⟨e, he, rfl⟩ := mem_map.1 ha
    obtain ⟨⟨pl, hpl, hk⟩, -⟩ := mem_collectPostings he
    rw [Option.bind_fun_some] at hk
    exact hindexable pl hpl e.1 hk
  have hvalue : ∀ e ∈ ((buildSegAttr decls payloads).storedProp (prop, keyword)).canonical.entries,
      Value.goEq e.1 v = true → e.2 = (LooseMap.find Value.goEq m v).getD .empty := by
    intro e he hev
    obtain ⟨a, ha, rfl⟩ := (mem_entries_storedProp h).1 he
    rw [LooseMap.find_congr hcmp (hcmp.trans _ _ _ (hkeys a ha) hev)]
  rw [AttrProp.postings, LooseMap.find_foldl_assign hcmp hvalue, LooseMap.find_nil]
  by_cases hfound : ∃ a ∈ m.map Prod.fst, a.goEq v = true
  · obtain ⟨a, ha, hav⟩ := hfound
    obtain ⟨bm, hbm⟩ := Option.isSome_iff_exists.1 (LooseMap.find_isSome_iff.2 ⟨a, ha, hav⟩)
    rw [hbm, if_pos, Option.getD_some]
    exact ⟨_, (mem_entries_storedProp h).2 ⟨a, ha, rfl⟩,
      hcmp.trans _ _ _ (hcmp.symm _ _ (hkeys a ha)) hav⟩
  · have hnone : LooseMap.find Value.goEq m v = none := by
      rw [← Option.not_isSome_iff_eq_none, LooseMap.find_isSome_iff]
      exact hfound
    rw [hnone, if_neg]
    rintro ⟨e, he, hev⟩
    obtain ⟨a, ha, rfl⟩ := (mem_entries_storedProp h).1 he
    exact hfound ⟨a, ha, hcmp.trans _ _ _ (hkeys a ha) hev⟩

/-- Nothing is found for a value that is not equal to what is left of it. -/
lemma find_postings_eq_none (hstored : Stored decls payloads) (h : decls.lookup prop = some keyword)
    (hv : ¬ v.goEq v.canonical = true) :
    LooseMap.find Value.goEq
      ((buildSegAttr decls payloads).storedProp (prop, keyword)).canonical.postings v = none := by
  have hnone : ∀ e ∈ ((buildSegAttr decls payloads).storedProp (prop, keyword)).canonical.entries,
      ¬ Value.goEq e.1 v = true := by
    intro e he hev
    obtain ⟨a, ha, rfl⟩ := (mem_entries_storedProp h).1 he
    obtain ⟨e, he', rfl⟩ := mem_map.1 ha
    obtain ⟨⟨pl, hpl, hk⟩, -⟩ := mem_collectPostings he'
    rw [Option.bind_fun_some] at hk
    exact hv (Value.goEq_canonical (known_of_encodePayload (hstored.accepted pl hpl) hk) hev)
  rw [AttrProp.postings, LooseMap.find_foldl_assign Value.comparison_goEq
    (v := .empty) fun e he hev => absurd hev (hnone e he), if_neg]
  · rfl
  · rintro ⟨e, he, hev⟩
    exact hnone e he hev

end Written

/-! ### Answers -/

section Answers

variable {ai ai' : SegAttrIndex} {payloads : List Payload}

/-- Two indexes in which the same is found. -/
structure SameFound (ai ai' : SegAttrIndex) : Prop where
  keyword : ∀ prop, (ai.keyword.lookup prop).map (LooseMap.find Value.goEq) =
    (ai'.keyword.lookup prop).map (LooseMap.find Value.goEq)
  numeric : ∀ prop, ai.numeric.lookup prop = ai'.numeric.lookup prop

lemma SameFound.evalEq (h : SameFound ai ai') (prop : Bytes) (v : Value) :
    ai.evalEq payloads prop v = ai'.evalEq payloads prop v := by
  have hk := h.keyword prop
  rw [SegAttrIndex.evalEq, SegAttrIndex.evalEq, h.numeric prop]
  cases hm : ai.keyword.lookup prop with
  | none =>
    rw [hm] at hk
    rw [Option.map_eq_none_iff.1 hk.symm]
  | some m =>
    rw [hm] at hk
    obtain ⟨m', hm', hfind⟩ := Option.map_eq_some_iff.1 hk.symm
    rw [hm']
    dsimp only
    rw [hfind]

lemma SameFound.evalRange (h : SameFound ai ai') (prop : Bytes) (lo hi : Value) :
    ai.evalRange payloads prop lo hi = ai'.evalRange payloads prop lo hi := by
  rw [SegAttrIndex.evalRange, SegAttrIndex.evalRange, h.numeric prop]

mutual

theorem SameFound.evalSeg (h : SameFound ai ai') (pred : Predicate) :
    ai.evalSeg payloads pred = ai'.evalSeg payloads pred := by
  cases pred with
  | eq prop v => exact h.evalEq prop v
  | oneOf prop vals =>
    have heq : ∀ v, ai.evalEq payloads prop v = ai'.evalEq payloads prop v := h.evalEq prop
    rw [SegAttrIndex.evalSeg, SegAttrIndex.evalSeg]
    simp only [heq]
  | range prop lo hi => exact h.evalRange prop lo hi
  | all preds => rw [SegAttrIndex.evalSeg, SegAttrIndex.evalSeg, h.evalEach preds]

theorem SameFound.evalEach (h : SameFound ai ai') (preds : List Predicate) :
    SegAttrIndex.evalSeg.evalEach ai payloads preds =
      SegAttrIndex.evalSeg.evalEach ai' payloads preds := by
  cases preds with
  | nil => rfl
  | cons p ps =>
    rw [SegAttrIndex.evalSeg.evalEach, SegAttrIndex.evalSeg.evalEach, h.evalSeg p, h.evalEach ps]

end

end Answers

section Persists

variable {decls : GoMap Bytes AttrKind} {payloads : List Payload}

/-- The index is written, and the one that is read back gives the same answers. -/
def Persists (decls : GoMap Bytes AttrKind) (payloads : List Payload) : Prop :=
  ∃ b, writeAttrFile (buildSegAttr decls payloads) payloads.length = some b ∧
    ∃ ai, openAttrFile b decls payloads = .value ai ∧ ∀ pred slot,
      (ai.evalSeg payloads pred).get slot =
        ((buildSegAttr decls payloads).evalSeg payloads pred).get slot

/-- Every value of a declared property is equal to what is left of it in a file. -/
def AllIndexable (decls : GoMap Bytes AttrKind) (payloads : List Payload) : Prop :=
  ∀ pl ∈ payloads, ∀ prop kind v, decls.lookup prop = some kind → pl.lookup prop = some v →
    Indexable kind v

/-- The file is written exactly if every value is equal to itself. -/
lemma writeAttrFile_buildSegAttr (hself : ∀ pl ∈ payloads, ∀ prop kind v,
      decls.lookup prop = some kind → pl.lookup prop = some v → SelfEqual kind v) :
    writeAttrFile (buildSegAttr decls payloads) payloads.length =
      some (attrBytes payloads.length (storedProps decls payloads)) := by
  refine writeAttrFile_eq_some _ ?_
  rintro ⟨prop, kind⟩ hd
  exact (forall_written_isSome_iff (mem_sortedDecls.1 hd)).2 fun pl hpl v hv =>
    hself pl hpl prop kind v (mem_sortedDecls.1 hd) hv

lemma writeAttrFile_buildSegAttr_eq_none {pl : Payload} (hpl : pl ∈ payloads) {prop : Bytes}
    {kind : AttrKind} (hd : decls.lookup prop = some kind) (hv : pl.lookup prop = some v)
    (hself : ¬ SelfEqual kind v) :
    writeAttrFile (buildSegAttr decls payloads) payloads.length = none := by
  have hnone : ¬ ∀ e ∈ (buildSegAttr decls payloads).written prop kind, e.2.isSome :=
    fun h => hself ((forall_written_isSome_iff hd).1 h pl hpl v hv)
  push Not at hnone
  obtain ⟨e, he, hne⟩ := hnone
  refine writeAttrFile_eq_none _ (mem_sortedDecls.2 hd) he ?_
  simpa using hne

/-- If every value is equal to what is left of it, the same is found. -/
lemma sameFound_readBack (h : AllIndexable decls payloads) :
    SameFound (readBack decls payloads) (buildSegAttr decls payloads) := by
  constructor
  · intro prop
    rw [lookup_keyword_buildSegAttr]
    cases hd : decls.lookup prop with
    | none => rw [(lookup_readBack_of_none hd).1]; rfl
    | some kind =>
      rw [(lookup_readBack hd).1]
      by_cases hkind : kind = keyword
      · subst hkind
        have hindexable : ∀ pl ∈ payloads, ∀ v, pl.lookup prop = some v →
            v.goEq v.canonical = true := by
          intro pl hpl v hv
          simpa [Indexable] using h pl hpl prop keyword v hd hv
        rw [if_pos rfl]
        simp only [Option.filter, decide_true, if_true, Option.map_some]
        exact congrArg some (funext fun v => find_postings hd hindexable v)
      · rw [if_neg hkind]
        simp [Option.filter, hkind]
  · intro prop
    rw [lookup_numeric_buildSegAttr]
    cases hd : decls.lookup prop with
    | none => rw [(lookup_readBack_of_none hd).2]; rfl
    | some kind =>
      rw [(lookup_readBack hd).2]
      by_cases hkind : kind = keyword
      · rw [if_neg (not_not.2 hkind)]
        simp [Option.filter, hkind]
      · have hsome := (@forall_written_isSome_iff decls payloads prop kind hd).2 fun pl hpl v hv =>
          (h pl hpl prop kind v hd hv).selfEqual
        rw [if_pos hkind, numbers_storedProp hd hkind hsome]
        simp [Option.filter, hkind]

end Persists

end Haystack.VectorStore
