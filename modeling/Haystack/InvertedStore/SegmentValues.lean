import Haystack.Lib.Buffer
import Haystack.InvertedStore.SegmentFile

/-!
# The values of a segment file

The value of an inverted record holds the documents that are added and those that are removed, each
list sorted and written as varints of the gaps. The value of a forward record holds the number of
keywords and their ordinals in the same form; a single zero is the tombstone. The gaps are taken in
64 bits, so any 64-bit document ids can be read back.
-/

namespace Haystack.InvertedStore.SegmentFile

open Framing Varint List StableSort

/-! ### Documents -/

/-- The loop of `appendDeltaDocs` over sorted documents, after the document `prev` if any. -/
def deltaDocs : Option DocId → List DocId → Bytes
  | _, [] => []
  | none, d :: docs => appendUvarint d.toUInt64.toNat ++ deltaDocs (some d) docs
  | some prev, d :: docs =>
    if d = prev then deltaDocs (some prev) docs
    else appendUvarint (d - prev).toUInt64.toNat ++ deltaDocs (some d) docs

def encodeDocs (docs : List DocId) : Bytes :=
  deltaDocs none (StableSort.sortBy id docs)

/-- The loop of `decodeDocs`; each round reads a byte at least. -/
def decodeDocsFrom : ℕ → UInt64 → Bytes → List DocId
  | 0, _, _ => []
  | fuel + 1, cur, b =>
    match uvarint b with
    | none => []
    | some (d, rest) =>
      (cur + UInt64.ofNat d).toInt64 :: decodeDocsFrom fuel (cur + UInt64.ofNat d) rest

def decodeDocs (b : Bytes) : List DocId :=
  decodeDocsFrom b.length 0 b

def encodeInvertedValue (adds dels : List DocId) : Bytes :=
  let ab := encodeDocs adds
  appendUvarint ab.length ++ (ab ++ encodeDocs dels)

/-- `splitInvertedValue`; there is no value where the bytes are not those of an encoder. -/
def splitInvertedValue (v : Bytes) : Option (Bytes × Bytes) :=
  (uvarint v).bind fun x => takeBytes x.1 x.2

/-- The two lists of documents of an inverted value. -/
def decodeInvertedValue (v : Bytes) : Option (List DocId × List DocId) :=
  (splitInvertedValue v).map fun x => (decodeDocs x.1, decodeDocs x.2)

/-- The gap to the next document leads to it, whatever the order of the two. -/
lemma add_toUInt64_sub (prev d : DocId) :
    (prev.toUInt64 + UInt64.ofNat (d - prev).toUInt64.toNat).toInt64 = d := by
  rw [UInt64.ofNat_toNat]
  have hadd : prev.toUInt64 + (d - prev).toUInt64 = d.toUInt64 := by
    rw [← Int64.toUInt64_add]
    rw [Int64.add_comm, Int64.sub_add_cancel]
  rw [hadd, Int64.toInt64_toUInt64]

variable {docs : List DocId} {ords : List UInt32}

lemma decodeDocsFrom_deltaDocs {prev : DocId} (h : (prev :: docs).Pairwise (· < ·)) {fuel : ℕ}
    (hfuel : (deltaDocs (some prev) docs).length ≤ fuel) :
    decodeDocsFrom fuel prev.toUInt64 (deltaDocs (some prev) docs) = docs := by
  induction docs generalizing prev fuel with
  | nil => cases fuel <;> rfl
  | cons d docs ih =>
    obtain ⟨hprev, hdocs⟩ := pairwise_cons.1 h
    have hne : d ≠ prev := (hprev d mem_cons_self).ne'
    rw [deltaDocs, if_neg hne] at hfuel ⊢
    have hpos := length_pos_of_ne_nil (appendUvarint_ne_nil (d - prev).toUInt64.toNat)
    rw [length_append] at hfuel
    obtain ⟨fuel, rfl⟩ : ∃ fuel', fuel = fuel' + 1 := ⟨fuel - 1, by omega⟩
    have hcur := add_toUInt64_sub prev d
    have hcur' : prev.toUInt64 + UInt64.ofNat (d - prev).toUInt64.toNat = d.toUInt64 := by
      rw [← UInt64.toUInt64_toInt64 (_ + _), hcur]
    rw [decodeDocsFrom, uvarint_appendUvarint (d - prev).toUInt64.toNat_lt]
    dsimp only
    rw [hcur, hcur', ih hdocs (by omega)]

/-- Strictly sorted documents are read back. -/
theorem decodeDocs_encodeDocs (h : docs.Pairwise (· < ·)) :
    decodeDocs (encodeDocs docs) = docs := by
  rw [encodeDocs, sortBy_eq_of_perm id (Perm.refl docs) h]
  cases docs with
  | nil => rfl
  | cons d docs =>
    have hpos := length_pos_of_ne_nil (appendUvarint_ne_nil d.toUInt64.toNat)
    obtain ⟨fuel, hfuel⟩ : ∃ fuel, (deltaDocs none (d :: docs)).length = fuel + 1 := by
      rw [deltaDocs, length_append]
      exact Nat.exists_eq_add_one_of_ne_zero (by omega)
    rw [decodeDocs, hfuel, deltaDocs, decodeDocsFrom, uvarint_appendUvarint d.toUInt64.toNat_lt]
    dsimp only
    rw [UInt64.zero_add, UInt64.ofNat_toNat, Int64.toInt64_toUInt64, decodeDocsFrom_deltaDocs h]
    rw [deltaDocs, length_append] at hfuel
    omega

lemma decodeInvertedValue_encodeInvertedValue {adds : List DocId}
    (hlen : (encodeDocs adds).length < 2 ^ 64) (dels : List DocId) :
    decodeInvertedValue (encodeInvertedValue adds dels) =
      some (decodeDocs (encodeDocs adds), decodeDocs (encodeDocs dels)) := by
  rw [decodeInvertedValue, splitInvertedValue, encodeInvertedValue, uvarint_appendUvarint hlen,
    Option.bind_some, takeBytes_append, Option.map_some]

theorem decodeInvertedValue_encode {adds dels : List DocId} (hadds : adds.Pairwise (· < ·))
    (hdels : dels.Pairwise (· < ·)) (hlen : (encodeInvertedValue adds dels).length < 2 ^ 64) :
    decodeInvertedValue (encodeInvertedValue adds dels) = some (adds, dels) := by
  have hab : (encodeDocs adds).length < 2 ^ 64 := by
    refine lt_of_le_of_lt ?_ hlen
    simp only [encodeInvertedValue, length_append]
    omega
  rw [decodeInvertedValue_encodeInvertedValue hab, decodeDocs_encodeDocs hadds,
    decodeDocs_encodeDocs hdels]

/-- Repetitions among sorted documents leave no trace in their encoding. -/
lemma exists_deltaDocs_eq {prev : DocId} (h : (prev :: docs).Pairwise (· ≤ ·)) :
    ∃ docs', (prev :: docs').Pairwise (· < ·) ∧ (∀ d, d ∈ prev :: docs' ↔ d ∈ prev :: docs) ∧
      deltaDocs (some prev) docs' = deltaDocs (some prev) docs := by
  induction docs generalizing prev with
  | nil => exact ⟨[], pairwise_singleton _ _, fun d => Iff.rfl, rfl⟩
  | cons d docs ih =>
    obtain ⟨hprev, hdocs⟩ := pairwise_cons.1 h
    obtain ⟨docs', hlt, hmem, heq⟩ := ih hdocs
    by_cases hd : d = prev
    · subst hd
      refine ⟨docs', hlt, fun d' => ?_, by rw [heq, deltaDocs, if_pos rfl]⟩
      rw [hmem, mem_cons, mem_cons, mem_cons, or_self_left]
    · have hpd : prev < d := lt_of_le_of_ne (hprev d mem_cons_self) (Ne.symm hd)
      refine ⟨d :: docs', pairwise_cons.2 ⟨fun d' hd' => ?_, hlt⟩, fun d' => ?_, ?_⟩
      · rcases mem_cons.1 hd' with rfl | hd'
        · exact hpd
        · exact hpd.trans ((pairwise_cons.1 hlt).1 d' hd')
      · rw [mem_cons]
        exact (or_congr_right (hmem d')).trans mem_cons.symm
      · rw [deltaDocs, deltaDocs, if_neg hd, if_neg hd, heq]

/-- Any documents are read back strictly sorted. -/
theorem decodeDocs_encodeDocs_sorted (docs : List DocId) :
    (decodeDocs (encodeDocs docs)).Pairwise (· < ·) ∧
      ∀ d, d ∈ decodeDocs (encodeDocs docs) ↔ d ∈ docs := by
  have hsorted := pairwise_sortBy id docs
  have hmem : ∀ d, d ∈ sortBy id docs ↔ d ∈ docs := fun d => mem_sortBy id
  cases hs : sortBy id docs with
  | nil =>
    rw [encodeDocs, hs]
    rw [hs] at hmem
    exact ⟨Pairwise.nil, hmem⟩
  | cons d rest =>
    rw [hs] at hsorted hmem
    obtain ⟨rest', hlt, hmem', heq⟩ := exists_deltaDocs_eq hsorted
    have henc : encodeDocs docs = encodeDocs (d :: rest') := by
      rw [encodeDocs, encodeDocs, sortBy_eq_of_perm id (Perm.refl _) hlt, hs,
        deltaDocs, deltaDocs, heq]
    rw [henc, decodeDocs_encodeDocs hlt]
    exact ⟨hlt, fun d' => (hmem' d').trans (hmem d')⟩

lemma length_deltaDocs_le (prev : Option DocId) (docs : List DocId) :
    (deltaDocs prev docs).length ≤ 10 * docs.length := by
  induction docs generalizing prev with
  | nil => cases prev <;> exact Nat.zero_le _
  | cons d docs ih =>
    have hlen : ∀ (delta : DocId) (prev : Option DocId),
        (appendUvarint delta.toUInt64.toNat ++ deltaDocs prev docs).length ≤
          10 * (d :: docs).length := fun delta prev => by
      have := length_appendUvarint_le delta.toUInt64.toNat_lt
      have := ih prev
      rw [length_append, length_cons]
      omega
    cases prev with
    | none => exact hlen d (some d)
    | some prev =>
      rw [deltaDocs]
      split
      case isTrue => exact (ih (some prev)).trans (by simp)
      case isFalse => exact hlen (d - prev) (some d)

/-! ### Ordinals -/

/-- The loop of `encodeForward` over sorted ordinals. -/
def deltaOrds : Option UInt32 → List UInt32 → Bytes
  | _, [] => []
  | none, o :: ords => appendUvarint o.toNat ++ deltaOrds (some o) ords
  | some prev, o :: ords => appendUvarint (o - prev).toNat ++ deltaOrds (some o) ords

def encodeForward (ords : List UInt32) : Bytes :=
  appendUvarint ords.length ++ deltaOrds none (StableSort.sortBy UInt32.toNat ords)

def forwardTombstone : Bytes :=
  [0]

/-- The loop of `decodeForward`. -/
def decodeOrds : ℕ → UInt64 → Bytes → Option (List UInt32)
  | 0, _, _ => some []
  | n + 1, cur, b => do
    let (d, rest) ← uvarint b
    let ords ← decodeOrds n (cur + UInt64.ofNat d) rest
    some ((cur + UInt64.ofNat d).toUInt32 :: ords)

/-- `decodeForward`: the ordinals and whether the document is deleted. There is no value where the
ordinals end early. -/
def decodeForward (v : Bytes) : Option (List UInt32 × Bool) :=
  match uvarint v with
  | none => some ([], true)
  | some (n, rest) =>
    if n = 0 then some ([], true) else (decodeOrds n 0 rest).map fun ords => (ords, false)

lemma decodeOrds_deltaOrds {prev : UInt32}
    (h : (prev :: ords).Pairwise fun a b => a.toNat ≤ b.toNat) :
    decodeOrds ords.length (UInt64.ofNat prev.toNat) (deltaOrds (some prev) ords) = some ords := by
  induction ords generalizing prev with
  | nil => rfl
  | cons o ords ih =>
    obtain ⟨hprev, hords⟩ := pairwise_cons.1 h
    have hle : prev.toNat ≤ o.toNat := hprev o mem_cons_self
    have hcur : UInt64.ofNat prev.toNat + UInt64.ofNat (o - prev).toNat = UInt64.ofNat o.toNat := by
      rw [← UInt64.ofNat_add, UInt32.toNat_sub_of_le _ _ (UInt32.le_iff_toNat_le.2 hle), Nat.add_sub_cancel' hle]
    have hdelta : (o - prev).toNat < 2 ^ 64 := (o - prev).toNat_lt.trans (by norm_num)
    rw [length_cons, deltaOrds, decodeOrds, uvarint_appendUvarint hdelta]
    simp only [Option.bind_eq_bind, Option.bind_some]
    rw [hcur, ih hords, Option.bind_some]
    simp

/-- Sorted ordinals are read back. -/
theorem decodeForward_encodeForward (hne : ords ≠ []) (hlen : ords.length < 2 ^ 64) :
    decodeForward (encodeForward ords) = some (StableSort.sortBy UInt32.toNat ords, false) := by
  have hsorted := pairwise_sortBy UInt32.toNat ords
  have hlength := (perm_sortBy UInt32.toNat ords).length_eq
  rw [decodeForward, encodeForward, uvarint_appendUvarint hlen]
  dsimp only
  rw [if_neg (length_pos_of_ne_nil hne).ne', ← hlength]
  generalize sortBy UInt32.toNat ords = sorted at hsorted hlength
  cases sorted with
  | nil => exact absurd hlength.symm (length_pos_of_ne_nil hne).ne'
  | cons o sorted =>
    have ho : o.toNat < 2 ^ 64 := o.toNat_lt.trans (by norm_num)
    rw [length_cons, deltaOrds, decodeOrds, uvarint_appendUvarint ho]
    simp only [Option.bind_eq_bind, Option.bind_some, UInt64.zero_add, decodeOrds_deltaOrds hsorted]
    simp

lemma decodeForward_forwardTombstone : decodeForward forwardTombstone = some ([], true) := by
  decide

lemma encodeForward_nil : encodeForward [] = forwardTombstone := by
  decide

lemma length_le_length_deltaOrds (prev : Option UInt32) (ords : List UInt32) :
    ords.length ≤ (deltaOrds prev ords).length := by
  induction ords generalizing prev with
  | nil => exact Nat.zero_le _
  | cons o ords ih =>
    cases prev with
    | none =>
      have hpos := length_pos_of_ne_nil (appendUvarint_ne_nil o.toNat)
      have := ih (some o)
      rw [deltaOrds, length_append, length_cons]
      omega
    | some prev =>
      have hpos := length_pos_of_ne_nil (appendUvarint_ne_nil (o - prev).toNat)
      have := ih (some o)
      rw [deltaOrds, length_append, length_cons]
      omega

lemma length_le_length_encodeForward (ords : List UInt32) :
    ords.length ≤ (encodeForward ords).length := by
  have hle := length_le_length_deltaOrds none (sortBy UInt32.toNat ords)
  rw [(perm_sortBy UInt32.toNat ords).length_eq] at hle
  rw [encodeForward, length_append]
  omega

/-! ### Scratch buffers -/

/-- The buffers that the merge reuses from value to value. -/
structure EncodeScratch where
  val : Buffer UInt8
  docs : Buffer UInt8
  srt : Buffer DocId
  ord : Buffer UInt32

/-- `appendDeltaDocs`: the documents are sorted in `srt`. -/
def appendDeltaDocs (dst : Buffer UInt8) (srt : Buffer DocId) (docs : List DocId) :
    Buffer UInt8 × Buffer DocId :=
  let cp := (srt.reset.append docs).sortBy id
  (dst.append (deltaDocs none cp.slice), cp)

lemma slice_appendDeltaDocs (dst : Buffer UInt8) (srt : Buffer DocId) (docs : List DocId) :
    (appendDeltaDocs dst srt docs).1.slice = dst.slice ++ encodeDocs docs := by
  simp [appendDeltaDocs, encodeDocs]

namespace EncodeScratch

variable (e : EncodeScratch)

def encodeInvertedValueInto (adds dels : List DocId) : Bytes × EncodeScratch :=
  let ab := appendDeltaDocs e.docs.reset e.srt adds
  let out := (e.val.reset.append (appendUvarint ab.1.slice.length)).append ab.1.slice
  let out := appendDeltaDocs out ab.2 dels
  (out.1.slice, ⟨out.1, ab.1, out.2, e.ord⟩)

def encodeForwardInto (ords : List UInt32) : Bytes × EncodeScratch :=
  let cp := (e.ord.reset.append ords).sortBy UInt32.toNat
  let out := (e.val.reset.append (appendUvarint cp.slice.length)).append (deltaOrds none cp.slice)
  (out.slice, ⟨out, e.docs, e.srt, cp⟩)

lemma encodeInvertedValueInto_eq (adds dels : List DocId) :
    (e.encodeInvertedValueInto adds dels).1 = encodeInvertedValue adds dels := by
  simp [encodeInvertedValueInto, encodeInvertedValue, slice_appendDeltaDocs]

lemma encodeForwardInto_eq (ords : List UInt32) :
    (e.encodeForwardInto ords).1 = encodeForward ords := by
  simp [encodeForwardInto, encodeForward, (perm_sortBy UInt32.toNat ords).length_eq]

end EncodeScratch

/-- What a slice can hold: elements of `size` bytes that fit the address space. -/
abbrev Sized (α : Type) (size : ℕ) :=
  {l : List α // size * l.length < 2 ^ 63}

/-- **Value codecs.** Both halves of an inverted value are read back strictly sorted, ordinals are
read back sorted and never as a tombstone, and reused buffers make no difference. -/
theorem value_codecs (adds dels : Sized DocId 8) (ords : Sized UInt32 4) (e : EncodeScratch) :
    (∃ adds' dels',
      decodeInvertedValue (encodeInvertedValue adds.1 dels.1) = some (adds', dels') ∧
        adds'.Pairwise (· < ·) ∧ (∀ d, d ∈ adds' ↔ d ∈ adds.1) ∧
        dels'.Pairwise (· < ·) ∧ ∀ d, d ∈ dels' ↔ d ∈ dels.1) ∧
    (ords.1 ≠ [] →
      decodeForward (encodeForward ords.1) =
          some (StableSort.sortBy UInt32.toNat ords.1, false) ∧
        encodeForward ords.1 ≠ forwardTombstone) ∧
    (e.encodeInvertedValueInto adds.1 dels.1).1 = encodeInvertedValue adds.1 dels.1 ∧
    (e.encodeForwardInto ords.1).1 = encodeForward ords.1 := by
  have hadds := decodeDocs_encodeDocs_sorted adds.1
  have hdels := decodeDocs_encodeDocs_sorted dels.1
  have hlen : (encodeDocs adds.1).length < 2 ^ 64 := by
    have hle := length_deltaDocs_le none (sortBy id adds.1)
    rw [(perm_sortBy id adds.1).length_eq] at hle
    have := adds.2
    exact lt_of_le_of_lt hle (by omega)
  refine ⟨⟨_, _, decodeInvertedValue_encodeInvertedValue hlen dels.1, hadds.1, hadds.2, hdels.1,
    hdels.2⟩, fun hne => ?_, e.encodeInvertedValueInto_eq _ _, e.encodeForwardInto_eq _⟩
  have hread := decodeForward_encodeForward hne (by have := ords.2; omega)
  refine ⟨hread, fun htomb => ?_⟩
  rw [htomb, decodeForward_forwardTombstone] at hread
  simp at hread

end Haystack.InvertedStore.SegmentFile
