import Haystack.InvertedStore.SegmentFile

/-!
# What a segment file holds

A written file is described by its blocks, lists of records, and by the chunks of its dictionary,
lists of keywords. The writer keeps such a description of what it has written and of what it still
holds back; `describes_write` is the description of the finished file.
-/

namespace Haystack.InvertedStore.SegmentFile

open Framing Varint List

variable (C : Codecs) (g : Geometry)

/-! ### Descriptions -/

def encodeRecord : Bytes × Stored → Bytes
  | (key, .inline value) => appendString key ++ 0 :: appendString value
  | (key, .external off len) => appendString key ++ 1 :: (appendUvarint off ++ appendUvarint len)

/-- A file keeps a value where a record says. -/
def Keeps (file : Bytes) (value : Bytes) : Stored → Prop
  | .inline v => v = value
  | .external off len =>
    value ≠ [] ∧ At file off (externalBytes C g value) ∧ len = (externalBytes C g value).length

/-- A block with its entry of the index stands in the file. -/
structure BlockAt (file : Bytes) (blk : List (Bytes × Stored)) (e : Bytes × ℕ) : Prop where
  ne : blk ≠ []
  first : blk.head?.map Prod.fst = some e.1
  bytes : At file e.2 (framed C g.dataCodec (blk.flatMap encodeRecord))

/-- The bytes of a chunk of the dictionary whose first keyword has the ordinal `n`. -/
def encodeChunk (n : ℕ) (chunk : List Bytes) : Bytes :=
  appendUvarint (UInt32.ofNat n).toNat ++ framed C g.dictCodec (chunk.flatMap appendString)

/-- The bytes of the dictionary, from the ordinal `n` on. -/
def encodeChunks : ℕ → List (List Bytes) → Bytes
  | _, [] => []
  | n, chunk :: chunks => encodeChunk C g n chunk ++ encodeChunks (n + chunk.length) chunks

/-- The keywords of the inverted keys, in order. -/
def termsOf (es : List (Bytes × Bytes)) : List Bytes :=
  (es.filter fun e => e.1.head? = some ktInverted).map fun e => e.1.drop 5

/-- The bytes of a chunk before they are compressed. -/
def rawChunk (chunk : List Bytes) : Bytes :=
  chunk.flatMap appendString

/-- One more keyword, after the closed chunks and in the open one. -/
def addToChunks (s : List (List Bytes) × List Bytes) (kw : Bytes) : List (List Bytes) × List Bytes :=
  if g.dictTarget ≤ (rawChunk (s.2 ++ [kw])).length then (s.1 ++ [s.2 ++ [kw]], [])
  else (s.1, s.2 ++ [kw])

/-- The chunks with the open one closed. -/
def closeChunks (s : List (List Bytes) × List Bytes) : List (List Bytes) :=
  if s.2 = [] then s.1 else s.1 ++ [s.2]

/-- The chunks that keywords are split into. -/
def splitChunks (ts : List Bytes) : List (List Bytes) × List Bytes :=
  ts.foldl (addToChunks g) ([], [])

/-- A file holds the entries in the given blocks and their keywords in the given chunks. -/
structure Describes (file : Bytes) (es : List (Bytes × Bytes)) (blocks : List (List (Bytes × Stored)))
    (chunks : List (List Bytes)) (idx : List (Bytes × ℕ)) (dictOff biOff : ℕ) : Prop where
  entries : List.Forall₂ (fun e r => e.1 = r.1 ∧ Keeps C g file e.2 r.2) es blocks.flatten
  blocks_at : List.Forall₂ (BlockAt C g file) blocks idx
  chunks_eq : chunks = closeChunks (splitChunks g (termsOf es))
  dictOff_pos : blocks ≠ [] → 0 < dictOff
  layout : ∃ out : Bytes, out.length = dictOff ∧
    biOff = dictOff + (encodeChunks C g 0 chunks).length ∧
    file = out ++ (encodeChunks C g 0 chunks ++
      (Writer.blockIndex idx ++ Writer.footer g biOff dictOff))

variable {C g}

lemma flatten_closeChunks (s : List (List Bytes) × List Bytes) :
    (closeChunks s).flatten = s.1.flatten ++ s.2 := by
  unfold closeChunks
  split
  case isTrue hnil => rw [hnil, append_nil]
  case isFalse => simp

/-- The chunks split the keywords, and none of them is empty. -/
lemma splitChunks_spec (ts : List Bytes) :
    (splitChunks g ts).1.flatten ++ (splitChunks g ts).2 = ts ∧
      ∀ chunk ∈ (splitChunks g ts).1, chunk ≠ [] := by
  induction ts using reverseRecOn with
  | nil => simp [splitChunks]
  | append_singleton ts kw ih =>
    have hsnoc : splitChunks g (ts ++ [kw]) = addToChunks g (splitChunks g ts) kw := by
      rw [splitChunks, foldl_append]
      rfl
    obtain ⟨hflat, hne⟩ := ih
    rw [hsnoc, addToChunks]
    split
    · refine ⟨?_, fun chunk hchunk => ?_⟩
      · rw [flatten_append, flatten_singleton, append_nil, ← append_assoc, hflat]
      · rcases mem_append.1 hchunk with hchunk | hchunk
        · exact hne chunk hchunk
        · rw [mem_singleton.1 hchunk]
          exact append_ne_nil_of_right_ne_nil _ (cons_ne_nil _ _)
    · exact ⟨by rw [← append_assoc, hflat], hne⟩

lemma flatten_splitChunks (ts : List Bytes) : (closeChunks (splitChunks g ts)).flatten = ts := by
  rw [flatten_closeChunks, (splitChunks_spec ts).1]

lemma splitChunks_ne {ts : List Bytes} {chunk : List Bytes}
    (h : chunk ∈ closeChunks (splitChunks g ts)) : chunk ≠ [] := by
  unfold closeChunks at h
  split at h
  · exact (splitChunks_spec ts).2 chunk h
  case isFalse hne =>
    rcases mem_append.1 h with h | h
    · exact (splitChunks_spec ts).2 chunk h
    · rwa [mem_singleton.1 h]

namespace Describes

variable {file : Bytes} {es : List (Bytes × Bytes)} {blocks : List (List (Bytes × Stored))}
  {chunks : List (List Bytes)} {idx : List (Bytes × ℕ)} {dictOff biOff : ℕ}

lemma terms (h : Describes C g file es blocks chunks idx dictOff biOff) :
    termsOf es = chunks.flatten := by
  rw [h.chunks_eq, flatten_splitChunks]

lemma chunks_ne (h : Describes C g file es blocks chunks idx dictOff biOff) {chunk : List Bytes}
    (hchunk : chunk ∈ chunks) : chunk ≠ [] :=
  splitChunks_ne (h.chunks_eq ▸ hchunk)

end Describes

lemma Keeps.grow {file value : Bytes} {st : Stored} (h : Keeps C g file value st) (x : Bytes) :
    Keeps C g (file ++ x) value st := by
  cases st with
  | inline v => exact h
  | external off len => exact ⟨h.1, h.2.1.grow x, h.2.2⟩

lemma BlockAt.grow {file : Bytes} {blk : List (Bytes × Stored)} {e : Bytes × ℕ}
    (h : BlockAt C g file blk e) (x : Bytes) : BlockAt C g (file ++ x) blk e :=
  ⟨h.ne, h.first, h.bytes.grow x⟩

lemma encodeChunks_append (n : ℕ) (chunks : List (List Bytes)) (chunk : List Bytes) :
    encodeChunks C g n (chunks ++ [chunk]) =
      encodeChunks C g n chunks ++ encodeChunk C g (n + chunks.flatten.length) chunk := by
  induction chunks generalizing n with
  | nil => simp [encodeChunks]
  | cons c chunks ih =>
    rw [cons_append, encodeChunks, ih, encodeChunks, append_assoc, flatten_cons,
      length_append, Nat.add_assoc]

lemma encodeRecord_ne_nil (r : Bytes × Stored) : encodeRecord r ≠ [] := by
  obtain ⟨key, st⟩ := r
  cases st <;> simp [encodeRecord]

lemma appendString_ne_nil (b : Bytes) : appendString b ≠ [] := by
  simp [appendString, appendUvarint_ne_nil]

/-! ### Blocks -/

namespace Writer

variable {w w' : Writer} {es : List (Bytes × Bytes)} {blocks : List (List (Bytes × Stored))}
  {cur : List (Bytes × Stored)}

variable (C g) in
/-- The blocks that have been written and the records of the current block. -/
structure HoldsBlocks (w : Writer) (es : List (Bytes × Bytes)) (blocks : List (List (Bytes × Stored)))
    (cur : List (Bytes × Stored)) : Prop where
  entries : List.Forall₂ (fun e r => e.1 = r.1 ∧ Keeps C g w.out e.2 r.2) es (blocks.flatten ++ cur)
  blkRaw : w.blkRaw = cur.flatMap encodeRecord
  blkHave : w.blkHave = !cur.isEmpty
  blkFirst : ∀ r ∈ cur.head?, w.blkFirst = r.1
  blocks_at : List.Forall₂ (BlockAt C g w.out) blocks w.idx

lemma holdsBlocks_new : HoldsBlocks C g newSegWriter [] [] [] :=
  ⟨.nil, rfl, rfl, by simp, .nil⟩

/-- Where the value of the next record goes. -/
def stored (C : Codecs) (g : Geometry) (w : Writer) (value : Bytes) : Stored :=
  if value.length ≤ g.threshold then .inline value
  else .external w.out.length (externalBytes C g value).length

/-- The writer after a record has been packed, before the current block may be flushed. -/
def pack (C : Codecs) (g : Geometry) (w : Writer) (key value : Bytes) : Writer :=
  { w with
    out := w.out ++ if value.length ≤ g.threshold then [] else externalBytes C g value
    blkFirst := if w.blkHave then w.blkFirst else key
    blkHave := true
    blkRaw := w.blkRaw ++ encodeRecord (key, w.stored C g value) }

/-- The writer after the current block has been flushed if it is long enough. -/
def flushFull (C : Codecs) (g : Geometry) (w : Writer) : Writer :=
  if g.blockTarget ≤ w.blkRaw.length then w.flushBlock C g else w

lemma addEntry_eq (w : Writer) (key value : Bytes) :
    w.addEntry C g key value =
      if key.head? = some ktInverted then
        ((w.pack C g key value).flushFull C g).addTerm C g (key.drop 5)
      else (w.pack C g key value).flushFull C g := by
  unfold addEntry flushFull pack stored writeExternalValue
  by_cases hhave : w.blkHave = true <;> by_cases hlen : value.length ≤ g.threshold <;>
    simp [hhave, hlen, encodeRecord]

lemma HoldsBlocks.pack (h : HoldsBlocks C g w es blocks cur) (key value : Bytes) :
    HoldsBlocks C g (w.pack C g key value) (es ++ [(key, value)]) blocks
      (cur ++ [(key, w.stored C g value)]) where
  entries := by
    rw [← append_assoc]
    refine rel_append (h.entries.imp fun _ _ hr => ⟨hr.1, hr.2.grow _⟩)
      (.cons ⟨rfl, ?_⟩ .nil)
    rw [Writer.pack, stored]
    dsimp only
    split
    case isTrue => rfl
    case isFalse hlen =>
      have hne : value ≠ [] := by rintro rfl; simp at hlen
      refine ⟨hne, ?_, rfl⟩
      simpa using at_append w.out (externalBytes C g value) []
  blkRaw := by rw [Writer.pack, h.blkRaw, flatMap_append, flatMap_singleton]
  blkHave := by simp [Writer.pack]
  blkFirst := by
    intro r hr
    have hhave := h.blkHave
    cases cur with
    | nil =>
      cases hr
      simp [Writer.pack, hhave]
    | cons r' cur =>
      obtain rfl := Option.some.inj hr
      simpa [Writer.pack, hhave] using h.blkFirst r' rfl
  blocks_at := h.blocks_at.imp fun _ _ hb => hb.grow _

/-- Flushing moves the current block to the written ones. -/
lemma HoldsBlocks.flushBlock (h : HoldsBlocks C g w es blocks cur) :
    ∃ blocks', HoldsBlocks C g (w.flushBlock C g) es blocks' [] := by
  unfold Writer.flushBlock
  split
  case isTrue hraw =>
    have hnil : cur = [] := by
      cases cur with
      | nil => rfl
      | cons r cur => simp [h.blkRaw, encodeRecord_ne_nil] at hraw
    exact ⟨blocks, hnil ▸ h⟩
  case isFalse hraw =>
    have hne : cur ≠ [] := by
      rintro rfl
      exact hraw h.blkRaw
    have hfirst : cur.head?.map Prod.fst = some w.blkFirst := by
      obtain ⟨r, cur, rfl⟩ := exists_cons_of_ne_nil hne
      simp [h.blkFirst r rfl]
    refine ⟨blocks ++ [cur], ⟨?_, rfl, rfl, by simp, ?_⟩⟩
    · simpa using h.entries.imp fun _ _ hr => ⟨hr.1, hr.2.grow _⟩
    · refine rel_append (h.blocks_at.imp fun _ _ hb => hb.grow _) (.cons ⟨hne, hfirst, ?_⟩ .nil)
      rw [← h.blkRaw]
      simpa using at_append w.out (framed C g.dataCodec w.blkRaw) []

lemma HoldsBlocks.flushFull (h : HoldsBlocks C g w es blocks cur) :
    ∃ blocks' cur', HoldsBlocks C g (w.flushFull C g) es blocks' cur' := by
  unfold Writer.flushFull
  split
  · obtain ⟨blocks', h'⟩ := h.flushBlock
    exact ⟨blocks', [], h'⟩
  · exact ⟨blocks, cur, h⟩

/-! ### The dictionary -/

variable (C g) in
/-- The chunks that have been written and the keywords of the current chunk. -/
structure HoldsTerms (w : Writer) (ts : List Bytes) (chunks : List (List Bytes)) (cur : List Bytes) :
    Prop where
  terms : ts = chunks.flatten ++ cur
  dictRaw : w.dictRaw = cur.flatMap appendString
  dictOrd : w.dictOrd = UInt32.ofNat ts.length
  dictChunkFirst : cur ≠ [] → w.dictChunkFirst = UInt32.ofNat chunks.flatten.length
  dictRegion : w.dictRegion = encodeChunks C g 0 chunks

variable {ts : List Bytes} {chunks : List (List Bytes)} {cur : List Bytes}

lemma holdsTerms_new : HoldsTerms C g newSegWriter [] [] [] :=
  ⟨rfl, rfl, rfl, by simp, rfl⟩

lemma HoldsTerms.nil_iff (h : HoldsTerms C g w ts chunks cur) : w.dictRaw = [] ↔ cur = [] := by
  rw [h.dictRaw]
  cases cur <;> simp [appendString_ne_nil]

lemma HoldsTerms.flushDictChunk (h : HoldsTerms C g w ts chunks cur) :
    HoldsTerms C g (w.flushDictChunk C g) ts (closeChunks (chunks, cur)) [] := by
  unfold Writer.flushDictChunk closeChunks
  dsimp only
  split
  case isTrue hraw =>
    have hcur := h.nil_iff.1 hraw
    rw [if_pos hcur]
    exact hcur ▸ h
  case isFalse hraw =>
    have hcur : cur ≠ [] := mt h.nil_iff.2 hraw
    rw [if_neg hcur]
    refine ⟨by simp [h.terms], rfl, h.dictOrd, by simp, ?_⟩
    rw [encodeChunks_append, ← h.dictRegion, encodeChunk, Nat.zero_add, ← h.dictChunkFirst hcur,
      ← h.dictRaw]

lemma HoldsTerms.addTerm (h : HoldsTerms C g w ts chunks cur) (kw : Bytes) :
    HoldsTerms C g (w.addTerm C g kw) (ts ++ [kw]) (addToChunks g (chunks, cur) kw).1
      (addToChunks g (chunks, cur) kw).2 := by
  set w₁ : Writer := { w with
    dictChunkFirst := if w.dictRaw = [] then w.dictOrd else w.dictChunkFirst
    dictRaw := w.dictRaw ++ appendString kw
    dictOrd := w.dictOrd + 1 } with hw₁
  have heq : w.addTerm C g kw =
      if g.dictTarget ≤ w₁.dictRaw.length then w₁.flushDictChunk C g else w₁ := by
    unfold Writer.addTerm
    by_cases hraw : w.dictRaw = [] <;> simp [hw₁, hraw]
  have h₁ : HoldsTerms C g w₁ (ts ++ [kw]) chunks (cur ++ [kw]) := by
    refine ⟨by simp [h.terms], ?_, ?_, fun _ => ?_, h.dictRegion⟩
    · rw [hw₁, h.dictRaw, flatMap_append, flatMap_singleton]
    · rw [length_append, length_singleton, UInt32.ofNat_add, ← h.dictOrd]
      rfl
    · -- the first keyword of a chunk sets its ordinal
      change (if w.dictRaw = [] then w.dictOrd else w.dictChunkFirst) = _
      split
      case isTrue hraw =>
        rw [h.dictOrd, h.terms, h.nil_iff.1 hraw, append_nil]
      case isFalse hraw => exact h.dictChunkFirst (mt h.nil_iff.2 hraw)
  rw [heq, addToChunks, rawChunk, ← h₁.dictRaw]
  split
  · have h₂ := h₁.flushDictChunk
    rwa [closeChunks, if_neg (append_ne_nil_of_right_ne_nil _ (cons_ne_nil _ _))] at h₂
  · exact h₁

/-! ### Whole files -/

lemma HoldsBlocks.congr {cur : List (Bytes × Stored)} (h : HoldsBlocks C g w es blocks cur)
    (hout : w'.out = w.out) (hidx : w'.idx = w.idx) (hraw : w'.blkRaw = w.blkRaw)
    (hhave : w'.blkHave = w.blkHave) (hfirst : w'.blkFirst = w.blkFirst) :
    HoldsBlocks C g w' es blocks cur :=
  ⟨hout ▸ h.entries, hraw ▸ h.blkRaw, hhave ▸ h.blkHave, hfirst ▸ h.blkFirst,
    by rw [hout, hidx]; exact h.blocks_at⟩

lemma HoldsTerms.congr (h : HoldsTerms C g w ts chunks cur) (hraw : w'.dictRaw = w.dictRaw)
    (hregion : w'.dictRegion = w.dictRegion) (hord : w'.dictOrd = w.dictOrd)
    (hfirst : w'.dictChunkFirst = w.dictChunkFirst) : HoldsTerms C g w' ts chunks cur :=
  ⟨h.terms, hraw ▸ h.dictRaw, hord ▸ h.dictOrd, hfirst ▸ h.dictChunkFirst,
    hregion ▸ h.dictRegion⟩

/-- The blocks do not depend on the dictionary. -/
lemma flushDictChunk_blocks (w : Writer) :
    (w.flushDictChunk C g).out = w.out ∧ (w.flushDictChunk C g).idx = w.idx ∧
      (w.flushDictChunk C g).blkRaw = w.blkRaw ∧ (w.flushDictChunk C g).blkHave = w.blkHave ∧
      (w.flushDictChunk C g).blkFirst = w.blkFirst := by
  unfold Writer.flushDictChunk
  split <;> exact ⟨rfl, rfl, rfl, rfl, rfl⟩

lemma addTerm_blocks (w : Writer) (kw : Bytes) :
    (w.addTerm C g kw).out = w.out ∧ (w.addTerm C g kw).idx = w.idx ∧
      (w.addTerm C g kw).blkRaw = w.blkRaw ∧ (w.addTerm C g kw).blkHave = w.blkHave ∧
      (w.addTerm C g kw).blkFirst = w.blkFirst := by
  unfold Writer.addTerm
  dsimp only
  split_ifs
  all_goals first
    | exact flushDictChunk_blocks _
    | exact ⟨rfl, rfl, rfl, rfl, rfl⟩

/-- The dictionary does not depend on the blocks. -/
lemma flushBlock_terms (w : Writer) :
    (w.flushBlock C g).dictRaw = w.dictRaw ∧ (w.flushBlock C g).dictRegion = w.dictRegion ∧
      (w.flushBlock C g).dictOrd = w.dictOrd ∧
      (w.flushBlock C g).dictChunkFirst = w.dictChunkFirst := by
  unfold Writer.flushBlock
  split <;> exact ⟨rfl, rfl, rfl, rfl⟩

lemma flushFull_terms (w : Writer) :
    (w.flushFull C g).dictRaw = w.dictRaw ∧ (w.flushFull C g).dictRegion = w.dictRegion ∧
      (w.flushFull C g).dictOrd = w.dictOrd ∧
      (w.flushFull C g).dictChunkFirst = w.dictChunkFirst := by
  unfold Writer.flushFull
  split
  exacts [flushBlock_terms w, ⟨rfl, rfl, rfl, rfl⟩]

variable (C g) in
/-- The writer after the entries `es`. -/
def Holds (w : Writer) (es : List (Bytes × Bytes)) : Prop :=
  (∃ blocks cur, HoldsBlocks C g w es blocks cur) ∧
    HoldsTerms C g w (termsOf es) (splitChunks g (termsOf es)).1 (splitChunks g (termsOf es)).2

lemma Holds.addEntry (h : Holds C g w es) (key value : Bytes) :
    Holds C g (w.addEntry C g key value) (es ++ [(key, value)]) := by
  obtain ⟨⟨blocks, cur, hblocks⟩, hterms⟩ := h
  obtain ⟨blocks', cur', hblocks'⟩ := (hblocks.pack key value).flushFull
  obtain ⟨hraw, hregion, hord, hfirst⟩ := flushFull_terms (C := C) (g := g) (w.pack C g key value)
  have hterms' := hterms.congr hraw hregion hord hfirst
  rw [addEntry_eq]
  split
  case isTrue hinv =>
    obtain ⟨hout, hidx, hbraw, hhave, hbfirst⟩ := addTerm_blocks (C := C) (g := g)
      ((w.pack C g key value).flushFull C g) (key.drop 5)
    have happend : termsOf (es ++ [(key, value)]) = termsOf es ++ [key.drop 5] := by
      simp [termsOf, hinv]
    refine ⟨⟨blocks', cur', hblocks'.congr hout hidx hbraw hhave hbfirst⟩, ?_⟩
    rw [happend, splitChunks, foldl_append]
    exact hterms'.addTerm (key.drop 5)
  case isFalse hinv =>
    have happend : termsOf (es ++ [(key, value)]) = termsOf es := by simp [termsOf, hinv]
    rw [Holds, happend]
    exact ⟨⟨blocks', cur', hblocks'⟩, hterms'⟩

lemma holds_foldl (es : List (Bytes × Bytes)) :
    Holds C g (es.foldl (fun w e => w.addEntry C g e.1 e.2) newSegWriter) es := by
  induction es using reverseRecOn with
  | nil => exact ⟨⟨[], [], holdsBlocks_new⟩, holdsTerms_new⟩
  | append_singleton es e ih =>
    rw [foldl_append]
    exact ih.addEntry e.1 e.2

end Writer

/-- **What `addEntry` and `finish` write.** -/
theorem describes_write (es : List (Bytes × Bytes)) : ∃ blocks chunks idx dictOff biOff,
    Describes C g (write C g es) es blocks chunks idx dictOff biOff := by
  set w := es.foldl (fun w e => w.addEntry C g e.1 e.2) newSegWriter with hw
  obtain ⟨⟨blocks, cur, hblocks⟩, hterms⟩ := Writer.holds_foldl (C := C) (g := g) es
  obtain ⟨blocks, hblocks⟩ := hblocks.flushBlock
  obtain ⟨hraw, hregion, hord, hfirst⟩ := Writer.flushBlock_terms (C := C) (g := g) w
  replace hterms := (hterms.congr hraw hregion hord hfirst).flushDictChunk
  set chunks := closeChunks (splitChunks g (termsOf es)) with hchunks
  obtain ⟨hout, hidx, -⟩ := Writer.flushDictChunk_blocks (C := C) (g := g) (w.flushBlock C g)
  rw [← hw] at hblocks
  have hwrite : write C g es = (w.flushBlock C g).out ++ (encodeChunks C g 0 chunks ++
      (Writer.blockIndex (w.flushBlock C g).idx ++ Writer.footer g
        ((w.flushBlock C g).out.length + (encodeChunks C g 0 chunks).length)
        (w.flushBlock C g).out.length)) := by
    rw [write, ← hw, Writer.finish, hout, hidx, hterms.dictRegion, length_append, append_assoc]
  refine ⟨blocks, chunks, (w.flushBlock C g).idx, (w.flushBlock C g).out.length,
    (w.flushBlock C g).out.length + (encodeChunks C g 0 chunks).length, ?_, ?_, hchunks,
    fun hne => ?_, _, rfl, rfl, hwrite⟩
  · rw [hwrite]
    simpa using hblocks.entries.imp fun _ _ hr => ⟨hr.1, hr.2.grow _⟩
  · rw [hwrite]
    exact hblocks.blocks_at.imp fun _ _ hb => hb.grow _
  · obtain ⟨blk, blks, rfl⟩ := exists_cons_of_ne_nil hne
    obtain ⟨e, -, hat, -⟩ := forall₂_cons_left_iff.1 hblocks.blocks_at
    have hle := hat.bytes.le_length (by simp [framed, appendUvarint_ne_nil])
    have hpos : 0 < (framed C g.dataCodec (blk.flatMap encodeRecord)).length :=
      length_pos_of_ne_nil (by simp [framed, appendUvarint_ne_nil])
    omega

end Haystack.InvertedStore.SegmentFile
