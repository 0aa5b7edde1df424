import Haystack.InvertedStore.Head
import Haystack.InvertedStore.SegmentDictionary
import Haystack.InvertedStore.SegmentValues

/-!
# A head and the file it is sealed into

`encodeHeadToFile` writes the keywords of a head in byte order and then its documents in the order of
their ids, which are signed. The keys compare the ids as unsigned numbers, so the keys increase only
if the ids of the head have one sign.
-/

namespace Haystack.InvertedStore

open SegmentFile List StableSort

/-! ### The entries of a head -/

namespace HeadTable

variable (h : HeadTable)

/-- `kw2ord`, with the 32 bits of an ordinal. -/
def ord (w : Keyword) : UInt32 :=
  UInt32.ofNat (h.kw2ord w)

/-- The value of the inverted record of a keyword. -/
def invValue (w : Keyword) : Bytes :=
  let (adds, dels) := resolveOps ((h.inv.lookup w).getD [])
  encodeInvertedValue adds dels

/-- The value of a forward record. -/
def fwdValue : Option (List Keyword) → Bytes
  | none => forwardTombstone
  | some words => SegmentFile.encodeForward (words.map h.ord)

/-- What `encodeHeadToFile` passes to `addEntry`. -/
def entries (t : UInt32) : List (Bytes × Bytes) :=
  h.terms.map (fun w => (invertedKey t w, h.invValue w)) ++
    h.fwdRecs.map fun r => (forwardKey t r.1, h.fwdValue r.2)

/-- What the head says of a document: its keywords, or that it is deleted. -/
def decision (d : DocId) : Option (Option (Finset Keyword)) :=
  (h.forwardLookup d).map fun x => if x.2 then none else some x.1.toFinset

end HeadTable

/-! ### Reading a file -/

namespace SegmentFile.Reader

variable (C : Codecs) (r : Reader)

/-- The documents under a keyword, as `GetDocs` reads them: a record for each visited key that is the
one of the keyword. -/
def getPostings (t : UInt32) (w : Keyword) : Option (List (List DocId × List DocId)) := do
  let recs ← r.scanPrefix C (invertedKey t w) (Bytes.prefixUpper (invertedKey t w))
  (recs.filter fun e => e.1 = invertedKey t w).mapM fun e => decodeInvertedValue e.2

/-- What the file says of a document, as `forwardKeywords` reads it. -/
def decision (t : UInt32) (d : DocId) : Option (Option (Option (Finset Keyword))) := do
  match ← r.lookupForward C (forwardKey t d) with
  | none => some none
  | some v =>
    let (ords, deleted) ← SegmentFile.decodeForward v
    if deleted then some (some none)
    else
      let res ← r.resolveOrds C ords
      let words ← ords.mapM fun o => res.lookup o
      some (some (some words.toFinset))

end SegmentFile.Reader

variable (C : Codecs) (g : Geometry) (h : HeadTable) (t : UInt32)

/-- Sealing the head loses nothing: the keys increase, and the file has the postings of each keyword
and what the head says of each of its documents. -/
structure LosesNothing (id : ℕ) : Prop where
  increasing : (h.entries t).Pairwise fun e e' => e.1 < e'.1
  reads : ∃ r, openSegment (write C g (h.entries t)) id = some r ∧
    (∀ w ops, h.inv.lookup w = some ops → r.getPostings C t w = some [resolveOps ops]) ∧
    ∀ d, (h.forwardLookup d).isSome → r.decision C t d = some (h.decision d)

/-- What sealing relies on: no document is both live and deleted, the document ids have one sign, a
live document has keywords, and the dictionary leads from their ordinals to them. -/
structure HeadTable.Sealable : Prop where
  disjoint : ∀ d ∈ h.delForward, d ∉ h.fwd
  sign : ∀ d d', (h.forwardLookup d).isSome → (h.forwardLookup d').isSome → d < 0 → d' < 0
  words_ne : ∀ d words, h.fwd.lookup d = some words → words ≠ []
  words_found : ∀ d words, h.fwd.lookup d = some words → ∀ w ∈ words, ∃ kw ∈ words,
    dictLookup (closeChunks (splitChunks g h.terms)) (h.ord w) = some kw
  words_all : ∀ d words, h.fwd.lookup d = some words → ∀ kw ∈ words, ∃ w ∈ words,
    dictLookup (closeChunks (splitChunks g h.terms)) (h.ord w) = some kw

variable {C g h t} {d : DocId} {words : List Keyword} {d d' : DocId}

/-! ### The keys -/

lemma toNat_toUInt64_of_neg (hd : d < 0) : (d.toUInt64.toNat : ℤ) = d.toInt + 2 ^ 64 := by
  have h : d.toBitVec.toInt < 0 := by simpa [Int64.lt_iff_toInt_lt] using hd
  change (d.toBitVec.toNat : ℤ) = d.toBitVec.toInt + 2 ^ 64
  rw [BitVec.toInt_eq_toNat_cond] at h ⊢
  have := d.toBitVec.isLt
  split at h
  · omega
  case isFalse hle =>
    rw [if_neg hle]
    omega

/-- The order of two documents is that of their keys, unless only the smaller one is negative. -/
lemma forwardKey_lt_of_sign (hlt : d < d') (hsign : d < 0 → d' < 0) :
    forwardKey t d < forwardKey t d' := by
  rw [forwardKey_lt_iff]
  by_cases hd : d < 0
  · have h₁ := toNat_toUInt64_of_neg hd
    have h₂ := toNat_toUInt64_of_neg (hsign hd)
    rw [Int64.lt_iff_toInt_lt] at hlt
    omega
  · exact Int64.toNat_toUInt64_lt_of_lt (not_lt.1 hd) hlt

lemma not_forwardKey_lt_of_neg (hd : d < 0) (hd' : 0 ≤ d') :
    ¬ forwardKey t d < forwardKey t d' := by
  rw [forwardKey_lt_iff]
  have h₁ := toNat_toUInt64_of_neg hd
  have h₂ := Int64.toNat_toUInt64_of_nonneg hd'
  have h₃ := Int64.le_toInt d
  have h₄ := Int64.toInt_lt d'
  omega

namespace HeadTable

lemma isSome_forwardLookup_iff : (h.forwardLookup d).isSome ↔ ∃ o, (d, o) ∈ h.fwdRecs := by
  simp only [mem_fwdRecs]
  unfold forwardLookup
  split
  case isTrue hdel => exact ⟨fun _ => ⟨none, .inr ⟨rfl, hdel⟩⟩, fun _ => rfl⟩
  case isFalse hdel =>
    rw [Option.isSome_map, Option.isSome_iff_exists]
    constructor
    · rintro ⟨words, hwords⟩
      exact ⟨some words, .inl ⟨words, rfl, hwords⟩⟩
    · rintro ⟨o, ⟨words, -, hwords⟩ | ⟨-, hd⟩⟩
      · exact ⟨words, hwords⟩
      · exact absurd hd hdel

/-- The keys increase if no document is both live and deleted and the ids have one sign. -/
lemma pairwise_entries (hdisjoint : ∀ d ∈ h.delForward, d ∉ h.fwd)
    (hsign : ∀ d d', (h.forwardLookup d).isSome → (h.forwardLookup d').isSome → d < 0 → d' < 0) :
    (h.entries t).Pairwise fun e e' => e.1 < e'.1 := by
  refine pairwise_append.2 ⟨?_, ?_, ?_⟩
  · exact pairwise_map.2 (pairwise_terms.imp fun hlt => invertedKey_lt_iff.2 hlt)
  · refine pairwise_map.2 ((pairwise_fwdRecs hdisjoint).imp_of_mem ?_)
    intro a b ha hb hlt
    exact forwardKey_lt_of_sign hlt (hsign _ _ (isSome_forwardLookup_iff.2 ⟨_, ha⟩)
      (isSome_forwardLookup_iff.2 ⟨_, hb⟩))
  · intro e he e' he'
    obtain ⟨w, -, rfl⟩ := mem_map.1 he
    obtain ⟨x, -, rfl⟩ := mem_map.1 he'
    exact invertedKey_lt_forwardKey t t w x.1

/-- Two forward records of increasing keys. -/
lemma forwardKey_of_pairwise (hinc : (h.entries t).Pairwise fun e e' => e.1 < e'.1)
    {a b : DocId × Option (List Keyword)} (ha : a ∈ h.fwdRecs) (hb : b ∈ h.fwdRecs) (hne : a ≠ b) :
    (a.1 ≤ b.1 ∧ forwardKey t a.1 < forwardKey t b.1) ∨
      (b.1 ≤ a.1 ∧ forwardKey t b.1 < forwardKey t a.1) := by
  have hkeys := pairwise_map.1 (pairwise_append.1 hinc).2.1
  have hsorted : h.fwdRecs.Pairwise fun a b => a.1 ≤ b.1 := pairwise_sortBy Prod.fst _
  let R := fun a b : DocId × Option (List Keyword) =>
    a.1 ≤ b.1 ∧ forwardKey t a.1 < forwardKey t b.1
  have : Std.Symm fun a b => R a b ∨ R b a := ⟨fun _ _ => Or.symm⟩
  have hboth : h.fwdRecs.Pairwise fun a b => R a b ∨ R b a := (hsorted.and hkeys).imp Or.inl
  exact hboth.forall ha hb hne

lemma disjoint_of_pairwise (hinc : (h.entries t).Pairwise fun e e' => e.1 < e'.1) :
    ∀ d ∈ h.delForward, d ∉ h.fwd := by
  intro d hdel hfwd
  obtain ⟨words, hwords⟩ := GoMap.mem_iff_exists_lookup.1 hfwd
  have hlive : (d, some words) ∈ h.fwdRecs := mem_fwdRecs.2 (.inl ⟨words, rfl, hwords⟩)
  have hdead : (d, none) ∈ h.fwdRecs := mem_fwdRecs.2 (.inr ⟨rfl, hdel⟩)
  rcases forwardKey_of_pairwise hinc hlive hdead (by simp) with ⟨-, hlt⟩ | ⟨-, hlt⟩ <;>
    exact lt_irrefl _ hlt

lemma sign_of_pairwise (hinc : (h.entries t).Pairwise fun e e' => e.1 < e'.1)
    (hd : (h.forwardLookup d).isSome) (hd' : (h.forwardLookup d').isSome) (hneg : d < 0) :
    d' < 0 := by
  by_contra hge
  obtain ⟨o, ho⟩ := isSome_forwardLookup_iff.1 hd
  obtain ⟨o', ho'⟩ := isSome_forwardLookup_iff.1 hd'
  have hlt : d < d' := hneg.trans_le (not_lt.1 hge)
  rcases forwardKey_of_pairwise hinc ho ho' (by rintro ⟨⟩; exact lt_irrefl _ hlt) with
    ⟨-, hkey⟩ | ⟨hle, -⟩
  · exact not_forwardKey_lt_of_neg hneg (not_lt.1 hge) hkey
  · exact absurd hlt (not_lt.2 hle)

end HeadTable

/-! ### What is read -/

/-- The records with the key of an entry are that entry. -/
lemma filter_key_eq {es : List (Bytes × Bytes)} (hinc : es.Pairwise fun e e' => e.1 < e'.1)
    {e : Bytes × Bytes} (he : e ∈ es) : es.filter (fun x => x.1 = e.1) = [e] := by
  induction es with
  | nil => cases he
  | cons x es ih =>
    obtain ⟨hx, hes⟩ := pairwise_cons.1 hinc
    rcases mem_cons.1 he with rfl | he
    · rw [filter_cons_of_pos (by simp), filter_eq_nil_iff.2]
      intro y hy
      simpa using (hx y hy).ne'
    · rw [filter_cons_of_neg (by simpa using (hx e he).ne), ih hes he]

lemma termsOf_entries : termsOf (h.entries t) = h.terms := by
  have hinv : ∀ l : List Keyword, (l.map fun w => (invertedKey t w, h.invValue w)).filter
      (fun e => e.1.head? = some ktInverted) = l.map fun w => (invertedKey t w, h.invValue w) := by
    intro l
    refine filter_eq_self.2 fun e he => ?_
    obtain ⟨w, -, rfl⟩ := mem_map.1 he
    rfl
  have hfwd : (h.fwdRecs.map fun r => (forwardKey t r.1, h.fwdValue r.2)).filter
      (fun e => e.1.head? = some ktInverted) = [] := by
    refine filter_eq_nil_iff.2 fun e he => ?_
    obtain ⟨r, -, rfl⟩ := mem_map.1 he
    simpa [IsInvKey] using not_isInvKey_forwardKey t r.1
  rw [termsOf, HeadTable.entries, filter_append, hinv, hfwd, append_nil, map_map]
  exact map_id'' (fun w => by simp [invertedKey]) h.terms

lemma pairwise_resolveOps (ops : List (DocId × Bool)) :
    (resolveOps ops).1.Pairwise (· < ·) ∧ (resolveOps ops).2.Pairwise (· < ·) := by
  have hlast := pairwise_lastOfRuns Prod.fst
    (pairwise_sortBy Prod.fst ops)
  exact ⟨pairwise_map.2 (hlast.filter _), pairwise_map.2 (hlast.filter _)⟩

section Opened

variable {r : Reader} {blocks : List (List (Bytes × Stored))}

/-- The postings of a keyword are read back. -/
lemma getPostings_eq
    (hr : Opened C g r (h.entries t) blocks (closeChunks (splitChunks g (termsOf (h.entries t)))))
    (hinc : (h.entries t).Pairwise fun e e' => e.1 < e'.1) {w : Keyword} {ops : List (DocId × Bool)}
    (hops : h.inv.lookup w = some ops) : r.getPostings C t w = some [resolveOps ops] := by
  have hmem : (invertedKey t w, h.invValue w) ∈ h.entries t :=
    mem_append_left _ (mem_map.2
      ⟨w, HeadTable.mem_terms.2 (GoMap.mem_iff_exists_lookup.2 ⟨ops, hops⟩), rfl⟩)
  have hfilter : ((h.entries t).filter fun e => invertedKey t w <+: e.1).filter
      (fun e => e.1 = invertedKey t w) = [(invertedKey t w, h.invValue w)] := by
    rw [← filter_key_eq hinc hmem, filter_filter]
    refine filter_congr fun e _ => ?_
    by_cases he : e.1 = invertedKey t w <;> simp [he]
  have hlen := (hr.length_lt hmem).2
  have hvalue : h.invValue w = encodeInvertedValue (resolveOps ops).1 (resolveOps ops).2 := by
    rw [HeadTable.invValue, hops]
    rfl
  obtain ⟨hadds, hdels⟩ := pairwise_resolveOps ops
  rw [Reader.getPostings, hr.scanPrefix_eq hinc]
  simp only [Option.bind_eq_bind, Option.bind_some, hfilter]
  rw [hvalue] at hlen ⊢
  simp [decodeInvertedValue_encode hadds hdels (hlen.trans (by norm_num))]

/-- The forward value of a document is read back. -/
lemma lookupForward_eq
    (hr : Opened C g r (h.entries t) blocks (closeChunks (splitChunks g (termsOf (h.entries t)))))
    (hinc : (h.entries t).Pairwise fun e e' => e.1 < e'.1) {o : Option (List Keyword)}
    (ho : (d, o) ∈ h.fwdRecs) :
    r.lookupForward C (forwardKey t d) = some (some (h.fwdValue o)) := by
  have hmem : (forwardKey t d, h.fwdValue o) ∈ h.entries t :=
    mem_append_right _ (mem_map.2 ⟨(d, o), ho, rfl⟩)
  have hfilter : (h.entries t).filter (fun e => forwardKey t d <+: e.1) =
      [(forwardKey t d, h.fwdValue o)] := by
    rw [← filter_key_eq hinc hmem]
    refine filter_congr fun e he => ?_
    simp only [decide_eq_decide]
    refine ⟨fun hpre => ?_, fun heq => heq ▸ prefix_refl _⟩
    rcases mem_append.1 he with he | he
    · obtain ⟨w, -, rfl⟩ := mem_map.1 he
      simp [forwardKey, invertedKey, ktForward, ktInverted, cons_prefix_cons] at hpre
    · obtain ⟨x, -, rfl⟩ := mem_map.1 he
      exact (hpre.eq_of_length (by simp)).symm
  rw [Reader.lookupForward, hr.scanPrefix_eq hinc, hfilter]
  rfl

/-- What is read of a live document. -/
lemma decision_of_live
    (hr : Opened C g r (h.entries t) blocks (closeChunks (splitChunks g (termsOf (h.entries t)))))
    (hinc : (h.entries t).Pairwise fun e e' => e.1 < e'.1) (hwords : h.fwd.lookup d = some words)
    (hne : words ≠ []) :
    r.decision C t d = ((StableSort.sortBy UInt32.toNat (words.map h.ord)).mapM
      (dictLookup (closeChunks (splitChunks g h.terms)))).map fun ws => some (some ws.toFinset) := by
  have hmem : (d, some words) ∈ h.fwdRecs := HeadTable.mem_fwdRecs.2 (.inl ⟨words, rfl, hwords⟩)
  have hlen : (words.map h.ord).length < 2 ^ 64 := by
    have hentry : (forwardKey t d, h.fwdValue (some words)) ∈ h.entries t :=
      mem_append_right _ (mem_map.2 ⟨_, hmem, rfl⟩)
    have hlt : (SegmentFile.encodeForward (words.map h.ord)).length < 2 ^ 63 :=
      (hr.length_lt hentry).2
    have hle := length_le_length_encodeForward (words.map h.ord)
    omega
  have hords : words.map h.ord ≠ [] := by simpa using hne
  obtain ⟨res, hres, hresolves⟩ := hr.resolveOrds_eq
    (sortBy UInt32.toNat (words.map h.ord))
  have hmapM : (sortBy UInt32.toNat (words.map h.ord)).mapM (fun o => res.lookup o) =
      (sortBy UInt32.toNat (words.map h.ord)).mapM
        (dictLookup (closeChunks (splitChunks g h.terms))) := by
    rw [← termsOf_entries (t := t)]
    exact StepSystem.mapM_congr fun o ho => (hresolves o).1 ho
  simp only [Reader.decision, lookupForward_eq hr hinc hmem, HeadTable.fwdValue,
    decodeForward_encodeForward hords hlen, Option.bind_eq_bind, Option.bind_some, hres, hmapM]
  cases mapM (dictLookup (closeChunks (splitChunks g h.terms)))
    (sortBy UInt32.toNat (words.map h.ord)) <;> rfl

end Opened

/-- Under increasing keys what is read of a document is what the head says if the document is deleted,
or if it has keywords and its ordinals lead to them. -/
lemma decision_eq_iff {r : Reader} {blocks : List (List (Bytes × Stored))}
    (hr : Opened C g r (h.entries t) blocks (closeChunks (splitChunks g (termsOf (h.entries t)))))
    (hinc : (h.entries t).Pairwise fun e e' => e.1 < e'.1) (hwords : h.fwd.lookup d = some words) :
    r.decision C t d = some (h.decision d) ↔ words ≠ [] ∧
      (∀ w ∈ words, ∃ kw ∈ words,
        dictLookup (closeChunks (splitChunks g h.terms)) (h.ord w) = some kw) ∧
      ∀ kw ∈ words, ∃ w ∈ words,
        dictLookup (closeChunks (splitChunks g h.terms)) (h.ord w) = some kw := by
  have hlive : d ∉ h.delForward := fun hdel =>
    HeadTable.disjoint_of_pairwise hinc d hdel (GoMap.mem_iff_exists_lookup.2 ⟨words, hwords⟩)
  have hhead : h.decision d = some (some words.toFinset) := by
    simp [HeadTable.decision, HeadTable.forwardLookup, hlive, hwords]
  have hmem : (d, some words) ∈ h.fwdRecs := HeadTable.mem_fwdRecs.2 (.inl ⟨words, rfl, hwords⟩)
  rw [hhead]
  by_cases hne : words = []
  · -- a live document without keywords has the value of a tombstone
    subst hne
    have hread : r.decision C t d = some (some none) := by
      simp only [Reader.decision, lookupForward_eq hr hinc hmem, HeadTable.fwdValue, map_nil,
        encodeForward_nil, decodeForward_forwardTombstone, Option.bind_eq_bind, Option.bind_some]
      rfl
    simp [hread]
  · have hiff := @StepSystem.exists_mapM_toFinset_iff _ _
      (dictLookup (closeChunks (splitChunks g h.terms)))
      (sortBy UInt32.toNat (words.map h.ord)) _ words
    simp only [mem_sortBy, mem_map, exists_exists_and_eq_and, forall_exists_index,
      and_imp, forall_apply_eq_imp_iff₂] at hiff
    rw [decision_of_live hr hinc hwords hne, and_iff_right hne, ← hiff, Option.map_eq_some_iff]
    simp

/-- The sizes that `Options` defaults to. -/
def SegmentFile.Geometry.defaults : Geometry where
  dataCodec := 0
  dictCodec := 0
  blockTarget := 32768
  chunk := 65536
  threshold := 1024
  dictChunk := 4096
  chunk_pos := Nat.zero_lt_succ _

/-- A head with a document under one keyword. -/
def oneDocument : HeadTable :=
  (newHeadTable.addPosting [97] 7).setForward 7 [[97]]

/-- A head with the documents `-1` and `0`. -/
def bothSigns : HeadTable :=
  (((newHeadTable.addPosting [97] (-1)).addPosting [97] 0).setForward (-1) [[97]]).setForward 0 [[97]]

end Haystack.InvertedStore
