import Haystack.Lib.StepSystem
import Haystack.InvertedStore.SegmentWritten

/-!
# Reading a segment file

From the description of a written file: opening it finds its index, the merge cursor and the prefix
scan find its entries, and the dictionary resolves the ordinals of its keywords.
-/

namespace Haystack.InvertedStore.SegmentFile

open Framing Varint List Option StepSystem

variable {C : Codecs} {g : Geometry} {e : Bytes × Bytes} {off : ℕ} {r : Bytes × Stored}
  {file : Bytes}

/-! ### Sizes -/

variable (C g) in
/-- The file and the data are smaller than the numbers that the writer can write. -/
structure Fits (es : List (Bytes × Bytes)) : Prop where
  file : (write C g es).length < 2 ^ 63
  data : (es.map fun e => e.1.length + e.2.length + 40).sum < 2 ^ 63

lemma length_appendString_le (b : Bytes) : (appendString b).length ≤ b.length + 11 := by
  have := length_appendUvarint_le_eleven b.length
  rw [appendString, length_append]
  omega

lemma length_encodeRecord_le (h : e.1 = r.1 ∧ Keeps C g file e.2 r.2) :
    (encodeRecord r).length ≤ e.1.length + e.2.length + 40 := by
  obtain ⟨k, st⟩ := r
  obtain ⟨key, value⟩ := e
  obtain ⟨rfl, hkeeps⟩ := h
  have hkey := length_appendString_le key
  cases st with
  | inline v =>
    obtain rfl : v = value := hkeeps
    have hv := length_appendString_le v
    simp only [encodeRecord, length_append, length_cons]
    omega
  | external off len =>
    have hoff := length_appendUvarint_le_eleven off
    have hlen := length_appendUvarint_le_eleven len
    simp only [encodeRecord, length_append, length_cons]
    omega

lemma length_encodeRecords_le {es : List (Bytes × Bytes)} {recs : List (Bytes × Stored)}
    (h : List.Forall₂ (fun e r => e.1 = r.1 ∧ Keeps C g file e.2 r.2) es recs) :
    (recs.flatMap encodeRecord).length ≤ (es.map fun e => e.1.length + e.2.length + 40).sum := by
  induction h with
  | nil => simp
  | cons hrec _ ih =>
    have hle := length_encodeRecord_le hrec
    simp only [flatMap_cons, length_append, map_cons, sum_cons]
    omega

/-- A record whose numbers can be written. -/
def Small : Bytes × Stored → Prop
  | (key, .inline value) => key.length < 2 ^ 64 ∧ value.length < 2 ^ 64
  | (key, .external off len) => key.length < 2 ^ 64 ∧ off < 2 ^ 64 ∧ len < 2 ^ 64

lemma parseRecord_encodeRecord (h : Small r) (rest : Bytes) :
    parseRecord (encodeRecord r ++ rest) = some (r, rest) := by
  obtain ⟨key, st⟩ := r
  cases st with
  | inline value =>
    obtain ⟨hkey, hvalue⟩ := h
    simp only [parseRecord, encodeRecord, append_assoc, cons_append,
      readString_appendString hkey, readString_appendString hvalue, bind_eq_bind,
      bind_some, if_true]
  | external off len =>
    obtain ⟨hkey, hoff, hlen⟩ := h
    simp only [parseRecord, encodeRecord, append_assoc, cons_append,
      readString_appendString hkey, uvarint_appendUvarint hoff, uvarint_appendUvarint hlen,
      bind_eq_bind, bind_some]
    rfl

/-! ### Frames -/

lemma framed_ne_nil (id : UInt8) (raw : Bytes) : framed C id raw ≠ [] := by
  simp [framed, appendUvarint_ne_nil]

lemma length_compress_le {file raw : Bytes} {id : UInt8} (h : At file off (framed C id raw)) :
    (C.compress id raw).length ≤ file.length := by
  have hlen := h.le_length (framed_ne_nil id raw)
  rw [framed] at hlen
  simp only [length_append] at hlen
  omega

lemma parsePiece_framed (hC : C.Lawful) {id : UInt8} {raw : Bytes} (hraw : raw.length < 2 ^ 64)
    (hcomp : (C.compress id raw).length < 2 ^ 64) (rest : Bytes) :
    parsePiece C id (framed C id raw ++ rest) = some (raw, rest) := by
  simp only [parsePiece, framed, append_assoc, uvarint_appendUvarint hraw,
    uvarint_appendUvarint hcomp, takeBytes_append, bind_eq_bind, bind_some, hC id raw]

variable {r : Reader}

/-- The bytes of a block are read back. -/
lemma blockBytes_framed (hC : C.Lawful) {raw : Bytes} (hraw : raw.length < 2 ^ 64)
    (hfile : r.file.length < 2 ^ 63) (h : At r.file off (framed C r.dataCodec raw)) :
    r.blockBytes C off = some raw := by
  have hcomp : (C.compress r.dataCodec raw).length < 2 ^ 64 :=
    (length_compress_le h).trans_lt (hfile.trans (by norm_num))
  rw [framed, ← append_assoc] at h
  set hdr := appendUvarint raw.length ++ appendUvarint (C.compress r.dataCodec raw).length with hhdr
  have hlen : hdr.length ≤ 20 := by
    have h₁ := length_appendUvarint_le hraw
    have h₂ := length_appendUvarint_le hcomp
    rw [hhdr, length_append]
    omega
  obtain ⟨rest, hrest⟩ := h.left.take hlen
  set pad := replicate (20 - ((r.file.drop off).take 20).length) (0 : UInt8) with hpad
  have hbuf : (r.file.drop off).take 20 ++ pad = appendUvarint raw.length ++
      (appendUvarint (C.compress r.dataCodec raw).length ++ (rest ++ pad)) := by
    rw [hrest, hhdr]
    simp only [append_assoc]
  -- the header buffer has 20 bytes, so what is left of it tells how long the header is
  have hpos : 20 - (rest ++ pad).length = hdr.length := by
    have htotal : ((r.file.drop off).take 20 ++ pad).length = 20 := by
      rw [length_append, hpad, length_replicate]
      have := length_take_le 20 (r.file.drop off)
      omega
    rw [hbuf, ← append_assoc, ← hhdr, length_append] at htotal
    omega
  simp only [Reader.blockBytes, ← hpad, hbuf, uvarint_appendUvarint hraw,
    uvarint_appendUvarint hcomp, bind_eq_bind, bind_some, hpos, h.right.readAt,
    hC r.dataCodec raw]

/-! ### Large values -/

lemma flatten_pieces (fuel : ℕ) (raw : Bytes) (h : raw.length ≤ fuel) :
    (pieces g fuel raw).flatten = raw := by
  induction fuel generalizing raw with
  | zero => simp [pieces, length_eq_zero_iff.1 (Nat.le_zero.1 h)]
  | succ fuel ih =>
    rw [pieces]
    split
    case isTrue hnil => simp [hnil]
    case isFalse hne =>
      have hpos := length_pos_of_ne_nil hne
      have hchunk := g.chunk_pos
      rw [flatten_cons, ih, take_append_drop]
      rw [length_drop]
      omega

lemma externalBytes_ne_nil {value : Bytes} (h : value ≠ []) : externalBytes C g value ≠ [] := by
  obtain ⟨b, v, rfl⟩ := exists_cons_of_ne_nil h
  simp [externalBytes, pieces, framed_ne_nil]

lemma foldUntil_append (l : List Bytes) (s : Bytes) :
    foldUntil (fun raw piece => some (raw ++ piece, true)) s l = some (s ++ l.flatten) := by
  induction l generalizing s with
  | nil => simp [foldUntil]
  | cons b l ih => simp [foldUntil, ih]

lemma readExternal_eq (hC : C.Lawful) (hcodec : r.dataCodec = g.dataCodec)
    (hfile : r.file.length < 2 ^ 63) {value : Bytes} (hvalue : value.length < 2 ^ 64)
    (h : At r.file off (externalBytes C g value)) :
    r.readExternal C off (externalBytes C g value).length = some value := by
  have hpiece : ∀ piece ∈ pieces g value.length value, ∀ rest,
      parsePiece C r.dataCodec (framed C g.dataCodec piece ++ rest) = some (piece, rest) := by
    intro piece hpiece rest
    have hraw : piece.length ≤ value.length := by
      have hsub := (sublist_flatten_of_mem hpiece).length_le
      rwa [flatten_pieces _ _ le_rfl] at hsub
    have hcomp : (framed C g.dataCodec piece).length ≤ r.file.length := by
      have hsub := (sublist_flatten_of_mem (mem_map_of_mem (f := framed C g.dataCodec)
        hpiece)).length_le
      rw [← flatMap_def] at hsub
      exact hsub.trans (h.length_le.trans (by simp))
    rw [hcodec]
    refine parsePiece_framed hC (hraw.trans_lt hvalue) ?_ rest
    rw [framed] at hcomp
    simp only [length_append] at hcomp
    omega
  simp only [Reader.readExternal, h.readAt, bind_eq_bind, bind_some]
  rw [externalBytes, loop_flatMap _ hpiece (fun _ _ => framed_ne_nil _ _) le_rfl, foldUntil_append,
    nil_append, flatten_pieces _ _ le_rfl]

/-! ### Opening -/

variable {es : List (Bytes × Bytes)} {blocks : List (List (Bytes × Stored))}
  {chunks : List (List Bytes)} {file : Bytes} {idx : List (Bytes × ℕ)} {dictOff biOff : ℕ}
  {idx : List (Bytes × ℕ)}

lemma readEntries_eq (idx : List (Bytes × ℕ))
    (h : ∀ e ∈ idx, e.1.length < 2 ^ 64 ∧ e.2 < 2 ^ 64) (rest : Bytes) :
    readEntries idx.length ((idx.flatMap fun e => appendString e.1 ++ appendUvarint e.2) ++ rest) =
      some idx := by
  induction idx with
  | nil => rfl
  | cons e idx ih =>
    obtain ⟨hkey, hoff⟩ := h e (by simp)
    rw [length_cons, readEntries, flatMap_cons, append_assoc, append_assoc,
      readString_appendString hkey, bind_some, uvarint_appendUvarint hoff, bind_some,
      ih fun e' he' => h e' (by simp [he'])]
    rfl

@[simp] lemma length_footer (biOff dictOff : ℕ) : (Writer.footer g biOff dictOff).length = 25 := by
  simp [Writer.footer, Bytes.ofAscii]

lemma length_blockIndex_ge (idx : List (Bytes × ℕ)) :
    idx.length ≤ (Writer.blockIndex idx).length ∧
      ∀ e ∈ idx, e.1.length ≤ (Writer.blockIndex idx).length := by
  have hentries : idx.length ≤
      (idx.flatMap fun e => appendString e.1 ++ appendUvarint e.2).length ∧
        ∀ e ∈ idx, e.1.length ≤
          (idx.flatMap fun e => appendString e.1 ++ appendUvarint e.2).length := by
    induction idx with
    | nil => simp
    | cons e idx ih =>
      have hpos := length_pos_of_ne_nil (appendUvarint_ne_nil e.2)
      have hkey : e.1.length ≤ (appendString e.1).length := by simp [appendString]
      simp only [flatMap_cons, length_append, length_cons, mem_cons,
        forall_eq_or_imp]
      refine ⟨by have := ih.1; omega, by omega, fun e' he' => ?_⟩
      have := ih.2 e' he'
      omega
  rw [Writer.blockIndex, length_append]
  exact ⟨by have := hentries.1; omega, fun e he => by have := hentries.2 e he; omega⟩

lemma length_blockIndex_ge_three (h : idx ≠ []) : 3 ≤ (Writer.blockIndex idx).length := by
  obtain ⟨e, idx, rfl⟩ := exists_cons_of_ne_nil h
  have h₁ := length_pos_of_ne_nil (appendUvarint_ne_nil (e :: idx).length)
  have h₂ := length_pos_of_ne_nil (appendString_ne_nil e.1)
  have h₃ := length_pos_of_ne_nil (appendUvarint_ne_nil e.2)
  simp only [Writer.blockIndex, flatMap_cons, length_append]
  omega

/-- Opening a written file finds its index. -/
lemma openSegment_eq (h : Describes C g file es blocks chunks idx dictOff biOff)
    (hfile : file.length < 2 ^ 63) (id : ℕ) :
    openSegment file id = some ⟨file, id, g.dataCodec, g.dictCodec, idx, biOff, dictOff⟩ := by
  obtain ⟨out, hout, hbi, hlayout⟩ := h.layout
  have hlen : file.length = biOff + ((Writer.blockIndex idx).length + 25) := by
    rw [hlayout]
    simp only [length_append, length_footer]
    omega
  have hbody : file = (out ++ encodeChunks C g 0 chunks) ++
      (Writer.blockIndex idx ++ Writer.footer g biOff dictOff) := by
    rw [hlayout, append_assoc]
  have hpre : (out ++ encodeChunks C g 0 chunks).length = biOff := by
    rw [length_append, hout, hbi]
  have hindex : At file biOff (Writer.blockIndex idx) := by
    rw [hbody, ← hpre]
    exact at_append _ _ _
  have hfoot : At file (file.length - 25) (Writer.footer g biOff dictOff) := by
    have hpos : file.length - 25 = (out ++ encodeChunks C g 0 chunks ++ Writer.blockIndex idx).length := by
      rw [length_append, hpre]
      omega
    have hself := at_append (out ++ encodeChunks C g 0 chunks ++ Writer.blockIndex idx)
      (Writer.footer g biOff dictOff) []
    rw [append_nil, append_assoc, ← hbody] at hself
    rwa [hpos]
  have hreadFoot : readAt file 25 (file.length - 25) = some (Writer.footer g biOff dictOff) := by
    have hread := hfoot.readAt
    rwa [length_footer] at hread
  have hreadIndex : readAt file (file.length - 25 - biOff) biOff = some (Writer.blockIndex idx) := by
    have hread := hindex.readAt
    rwa [show (Writer.blockIndex idx).length = file.length - 25 - biOff by omega] at hread
  have hbiOff : Bytes.ofBigEndian ((Writer.footer g biOff dictOff).take 8) = biOff := by
    rw [Writer.footer, take_left' (by simp), Bytes.ofBigEndian_bigEndian]
    exact Nat.mod_eq_of_lt (by omega)
  have hdictOff : Bytes.ofBigEndian (((Writer.footer g biOff dictOff).drop 8).take 8) = dictOff := by
    rw [Writer.footer, drop_left' (by simp), take_left' (by simp),
      Bytes.ofBigEndian_bigEndian]
    exact Nat.mod_eq_of_lt (by omega)
  have hcodecs : (Writer.footer g biOff dictOff)[16]? = some g.dataCodec ∧
      (Writer.footer g biOff dictOff)[17]? = some g.dictCodec := by
    simp [Writer.footer, getElem?_append_right]
  obtain ⟨hcount, hkeys⟩ := length_blockIndex_ge idx
  have hentries : ∀ e ∈ idx, e.1.length < 2 ^ 64 ∧ e.2 < 2 ^ 64 := by
    intro e he
    obtain ⟨blk, -, hblk⟩ := Forall₂.exists_left h.blocks_at he
    have hoff := hblk.bytes.le_length (framed_ne_nil _ _)
    have hkey := hkeys e he
    exact ⟨by omega, by omega⟩
  have huvarint : uvarint (Writer.blockIndex idx) = some (idx.length,
      idx.flatMap fun e => appendString e.1 ++ appendUvarint e.2) :=
    uvarint_appendUvarint (by omega) _
  have hread := readEntries_eq idx hentries []
  rw [append_nil] at hread
  have hge : ¬ file.length < 25 := by omega
  simp only [openSegment, hge, if_false, bind_eq_bind, hreadFoot, bind_some, hbiOff,
    hdictOff, hcodecs.1, hcodecs.2, hreadIndex, huvarint, hread]

/-! ### Entries -/

variable (C g) in
/-- An open segment with the given content. -/
structure Opened (r : Reader) (es : List (Bytes × Bytes)) (blocks : List (List (Bytes × Stored)))
    (chunks : List (List Bytes)) : Prop where
  lawful : C.Lawful
  describes : Describes C g r.file es blocks chunks r.idx r.dictOff r.biOff
  dataCodec : r.dataCodec = g.dataCodec
  dictCodec : r.dictCodec = g.dictCodec
  file : r.file.length < 2 ^ 63
  data : (es.map fun e => e.1.length + e.2.length + 40).sum < 2 ^ 63

namespace Opened

lemma length_lt (h : Opened C g r es blocks chunks) (he : e ∈ es) :
    e.1.length < 2 ^ 63 ∧ e.2.length < 2 ^ 63 := by
  have hle := single_le_sum (fun _ _ => Nat.zero_le _) _
    (mem_map_of_mem (f := fun e : Bytes × Bytes => e.1.length + e.2.length + 40) he)
  have hdata := h.data
  omega

/-- A record has its value. -/
lemma value_eq (h : Opened C g r es blocks chunks) (he : e ∈ es) {st : Stored}
    (hkeeps : Keeps C g r.file e.2 st) : r.value C st = some e.2 := by
  cases st with
  | inline v =>
    obtain rfl : v = e.2 := hkeeps
    rfl
  | external off len =>
    obtain ⟨-, hat, rfl⟩ := hkeeps
    have hlt := (h.length_lt he).2
    exact readExternal_eq h.lawful h.dataCodec h.file (by omega) hat

variable (C) in
/-- The entry of a record. -/
def entry (r : Reader) (rec : Bytes × Stored) : Bytes × Bytes :=
  (rec.1, (r.value C rec.2).getD [])

variable {rec : Bytes × Stored}

/-- A record of an entry can be read and gives the entry. -/
lemma of_entry (h : Opened C g r es blocks chunks) (he : e ∈ es)
    (hrec : e.1 = rec.1 ∧ Keeps C g r.file e.2 rec.2) :
    e = entry C r rec ∧ r.value C rec.2 = some (entry C r rec).2 ∧ Small rec := by
  have hvalue := h.value_eq he hrec.2
  have hentry : e = entry C r rec := Prod.ext hrec.1 (by simp [entry, hvalue])
  refine ⟨hentry, by rw [← hentry, hvalue], ?_⟩
  obtain ⟨hkey, hval⟩ := h.length_lt he
  obtain ⟨k, st⟩ := rec
  obtain ⟨rfl, hkeeps⟩ : e.1 = k ∧ Keeps C g r.file e.2 st := hrec
  cases st with
  | inline v =>
    obtain rfl : v = e.2 := hkeeps
    exact ⟨by omega, by omega⟩
  | external off len =>
    obtain ⟨hne, hat, rfl⟩ := hkeeps
    have hfile := h.file
    have hle := hat.le_length (externalBytes_ne_nil hne)
    exact ⟨by omega, by omega, by omega⟩

lemma entries_eq (h : Opened C g r es blocks chunks) : es = blocks.flatten.map (entry C r) := by
  have hpairs := (forall₂_and_left (p := (· ∈ es)) _ _).2 ⟨fun _ he => he, h.describes.entries⟩
  rw [← forall₂_eq_eq_eq, forall₂_map_right_iff]
  exact hpairs.imp fun _ _ hrec => (h.of_entry hrec.1 hrec.2).1

lemma of_mem (h : Opened C g r es blocks chunks) (hrec : rec ∈ blocks.flatten) :
    r.value C rec.2 = some (entry C r rec).2 ∧ Small rec := by
  obtain ⟨e, he, hkeeps⟩ := Forall₂.exists_left h.describes.entries hrec
  exact (h.of_entry he hkeeps).2

variable {blk : List (Bytes × Stored)} {c : Cursor} {fuel : ℕ} {todo : List (Bytes × Stored)}

/-- The bytes of the records of a block are fewer than those of all entries. -/
lemma length_block_lt (h : Opened C g r es blocks chunks) (hblk : blk ∈ blocks) :
    (blk.flatMap encodeRecord).length < 2 ^ 63 := by
  have hall := length_encodeRecords_le h.describes.entries
  have hsub : (blk.flatMap encodeRecord).length ≤ (blocks.flatten.flatMap encodeRecord).length := by
    simp only [flatMap_def]
    exact ((sublist_flatten_of_mem hblk).map encodeRecord).flatten.length_le
  exact (hsub.trans hall).trans_lt h.data

/-- The block of an entry of the index. -/
lemma blockBytes_eq (h : Opened C g r es blocks chunks) (hblk : blk ∈ blocks) {e : Bytes × ℕ}
    (he : BlockAt C g r.file blk e) : r.blockBytes C e.2 = some (blk.flatMap encodeRecord) := by
  have hlt := h.length_block_lt hblk
  exact blockBytes_framed h.lawful (by omega) h.file (h.dataCodec ▸ he.bytes)

/-! ### Scans -/

/-- The records of a block as the callback of a scan sees them. -/
lemma foldUntil_visit (h : Opened C g r es blocks chunks) (lo : Bytes) (hi : Option Bytes)
    (hblk : ∀ rec ∈ blk, rec ∈ blocks.flatten) (seen : List (Bytes × Bytes)) :
    foldUntil (r.visit C lo hi) (seen, false) blk =
      some (seen ++ (PrefixScan.scanBlock Prod.fst lo hi (blk.map (entry C r))).1,
        (PrefixScan.scanBlock Prod.fst lo hi (blk.map (entry C r))).2) := by
  induction blk generalizing seen with
  | nil => simp [foldUntil, PrefixScan.scanBlock]
  | cons rec blk ih =>
    have ih := ih fun rec' hrec' => hblk rec' (mem_cons_of_mem _ hrec')
    obtain ⟨v, hv⟩ : ∃ v, r.value C rec.2 = some v :=
      ⟨_, (h.of_mem (hblk rec mem_cons_self)).1⟩
    have hentry : entry C r rec = (rec.1, v) := by simp [entry, hv]
    rw [foldUntil, Reader.visit, map_cons, PrefixScan.scanBlock, hentry]
    by_cases hpast : PrefixScan.pastEnd hi rec.1 = true
    · simp [hpast]
    · by_cases hpre : lo <+: rec.1 <;> simp [hpast, hpre, hv, ih]

/-- The index has the first key of a block. -/
lemma firstKey_entries {e : Bytes × ℕ} (he : BlockAt C g r.file blk e) :
    PrefixScan.firstKey Prod.fst (blk.map (entry C r)) = e.1 := by
  have hhead := he.first
  cases blk with
  | nil => simp at hhead
  | cons rec blk => simpa [PrefixScan.firstKey, entry] using hhead

lemma scanBlocks_eq (h : Opened C g r es blocks chunks) (lo : Bytes) (hi : Option Bytes)
    {blks : List (List (Bytes × Stored))} (hblks : ∀ blk ∈ blks, blk ∈ blocks)
    (hidx : List.Forall₂ (BlockAt C g r.file) blks idx) (seen : List (Bytes × Bytes)) :
    r.scanBlocks C lo hi idx seen = some (seen ++
      PrefixScan.scanBlocks Prod.fst lo hi (blks.map (List.map (entry C r)))) := by
  induction hidx generalizing seen with
  | nil => simp [Reader.scanBlocks, PrefixScan.scanBlocks]
  | @cons blk e blks idx he _ ih =>
    have hblk := hblks blk mem_cons_self
    have hmem : ∀ rec ∈ blk, rec ∈ blocks.flatten := fun rec hrec =>
      mem_flatten.2 ⟨blk, hblk, hrec⟩
    have hloop : loop parseRecord (r.visit C lo hi) (blk.flatMap encodeRecord).length (seen, false)
        (blk.flatMap encodeRecord) = foldUntil (r.visit C lo hi) (seen, false) blk :=
      loop_flatMap _ (fun rec hrec => parseRecord_encodeRecord (h.of_mem (hmem rec hrec)).2)
        (fun rec _ => encodeRecord_ne_nil rec) le_rfl _
    have ih := ih fun blk' hblk' => hblks blk' (mem_cons_of_mem _ hblk')
    rw [Reader.scanBlocks, map_cons, PrefixScan.scanBlocks,
      firstKey_entries he]
    split
    · simp
    · simp only [h.blockBytes_eq hblk he, bind_eq_bind, bind_some, hloop,
        h.foldUntil_visit lo hi hmem, ih]
      split <;> simp

/-- The first keys that a scan bisects. -/
lemma firstKey_eq (h : Opened C g r es blocks chunks) (i : ℕ) :
    ((r.idx[i]?).map Prod.fst).getD [] =
      PrefixScan.firstKey Prod.fst (((blocks.map (List.map (entry C r)))[i]?).getD []) := by
  rw [getElem?_map]
  cases hblk : blocks[i]? with
  | none =>
    have hidx : r.idx[i]? = none := by
      rw [getElem?_eq_none_iff] at hblk ⊢
      rwa [← h.describes.blocks_at.length_eq]
    simp [hidx, PrefixScan.firstKey]
  | some blk =>
    obtain ⟨e, he, hat⟩ := Forall₂.exists_getElem? h.describes.blocks_at hblk
    simp [he, firstKey_entries hat]

lemma block_ne (h : Opened C g r es blocks chunks) (hblk : blk ∈ blocks) : blk ≠ [] := by
  obtain ⟨n, hn⟩ := getElem?_of_mem hblk
  obtain ⟨e, -, hat⟩ := Forall₂.exists_getElem? h.describes.blocks_at hn
  exact hat.ne

/-- **A scan for a prefix visits the entries with the prefix.** -/
theorem scanPrefix_eq (h : Opened C g r es blocks chunks)
    (hsorted : es.Pairwise fun e e' => e.1 < e'.1) (lo : Bytes) :
    r.scanPrefix C lo (Bytes.prefixUpper lo) = some (es.filter fun e => lo <+: e.1) := by
  have hflat : (blocks.map (map (entry C r))).flatten = es := by
    rw [← map_flatten]
    exact h.entries_eq.symm
  have hne : ∀ blk ∈ blocks.map (map (entry C r)), blk ≠ [] := by
    intro blk hblk
    obtain ⟨blk₀, hblk₀, rfl⟩ := mem_map.1 hblk
    simpa using h.block_ne hblk₀
  have hstart : BinarySearch.search r.idx.length
      (fun i => decide (lo < ((r.idx[i]?).map Prod.fst).getD [])) - 1 =
        PrefixScan.start Prod.fst lo (blocks.map (map (entry C r))) := by
    simp only [h.firstKey_eq, ← h.describes.blocks_at.length_eq, PrefixScan.start, length_map]
  rw [Reader.scanPrefix, hstart, h.scanBlocks_eq lo _ (fun blk hblk => mem_of_mem_drop hblk)
    (forall₂_drop _ h.describes.blocks_at), nil_append, map_drop]
  exact congrArg some ((PrefixScan.scan_eq_filter hne (hflat ▸ .of_strict hsorted lo)).trans
    (by rw [hflat]))

/-! ### The merge cursor -/

/-- A cursor stands in block `bi`, and the records `todo` are left after it. -/
structure Stands (blocks : List (List (Bytes × Stored))) (c : Cursor) (todo : List (Bytes × Stored)) :
    Prop where
  done : c.done = false
  mem : ∀ rec ∈ todo, rec ∈ blocks.flatten
  rest : ∃ rest, c.blk = rest.flatMap encodeRecord ∧ todo = rest ++ (blocks.drop (c.bi + 1)).flatten

lemma advance_eq (h : Opened C g r es blocks chunks) {rest : List (Bytes × Stored)}
    (hrec : rec ∈ blocks.flatten) (hblk : c.blk = (rec :: rest).flatMap encodeRecord) :
    c.advance C r fuel = some { c with
      blk := rest.flatMap encodeRecord, key := rec.1, val := (entry C r rec).2 } := by
  obtain ⟨hvalue, hsmall⟩ := h.of_mem hrec
  have hne : c.blk ≠ [] := by
    rw [hblk, flatMap_cons]
    simp [encodeRecord_ne_nil]
  rw [Cursor.advance.eq_def]
  dsimp only
  rw [if_pos hne, hblk, flatMap_cons, parseRecord_encodeRecord hsmall]
  simp [hvalue]

/-- Without records left the cursor is done. -/
lemma next_nil (hidx : r.idx.length = blocks.length) (hne : ∀ blk ∈ blocks, blk ≠ [])
    (hc : Stands blocks c []) : ∃ c', c.next C r = some c' ∧ c'.done = true := by
  obtain ⟨rest, hblk, htodo⟩ := hc.rest
  obtain ⟨rfl, hdrop⟩ := append_eq_nil_iff.1 htodo.symm
  have hend : r.idx[c.bi + 1]? = none := by
    rw [getElem?_eq_none_iff, hidx]
    by_contra hlt
    rw [drop_eq_getElem_cons (not_le.1 hlt), flatten_cons, append_eq_nil_iff] at hdrop
    exact hne _ (getElem_mem _) hdrop.1
  refine ⟨{ c with bi := c.bi + 1, done := true }, ?_, rfl⟩
  rw [Cursor.next, Cursor.advance.eq_def]
  dsimp only
  rw [if_neg (by simpa using hblk), hend]

/-- The cursor goes to the next record. -/
lemma next_cons (h : Opened C g r es blocks chunks) (hc : Stands blocks c (rec :: todo)) :
    ∃ c', c.next C r = some c' ∧ (c'.key, c'.val) = entry C r rec ∧ Stands blocks c' todo := by
  have hmem := hc.mem rec mem_cons_self
  have htail : ∀ rec' ∈ todo, rec' ∈ blocks.flatten := fun rec' hrec' =>
    hc.mem rec' (mem_cons_of_mem _ hrec')
  obtain ⟨rest, hblk, htodo⟩ := hc.rest
  cases rest with
  | cons rec' rest =>
    obtain ⟨rfl, rfl⟩ := cons.inj htodo
    exact ⟨_, h.advance_eq hmem hblk, rfl, ⟨hc.done, htail, rest, rfl, rfl⟩⟩
  | nil =>
    -- the block is used up: the record is the first of the next one
    have hlt : c.bi + 1 < blocks.length := by
      by_contra hge
      simp [drop_eq_nil_of_le (not_lt.1 hge)] at htodo
    have hget := getElem?_eq_getElem hlt
    obtain ⟨e, he, hat⟩ := Forall₂.exists_getElem? h.describes.blocks_at hget
    have hblkmem := mem_of_getElem? hget
    rw [nil_append, drop_eq_getElem_cons hlt, flatten_cons] at htodo
    obtain ⟨rec', rest, hcons⟩ := exists_cons_of_ne_nil hat.ne
    rw [hcons] at htodo hblkmem hat
    obtain ⟨rfl, rfl⟩ := cons.inj htodo
    have hnext : c.next C r = ({ c with
        bi := c.bi + 1, blk := (rec :: rest).flatMap encodeRecord } : Cursor).advance C r
          (r.idx.length - 1) := by
      have hfuel : r.idx.length = r.idx.length - 1 + 1 := by
        have := h.describes.blocks_at.length_eq
        omega
      rw [Cursor.next, hfuel, Cursor.advance.eq_def]
      dsimp only
      rw [if_neg (by simpa using hblk), he]
      simp [h.blockBytes_eq hblkmem hat]
    exact ⟨_, hnext.trans (h.advance_eq hmem rfl), rfl, ⟨hc.done, htail, rest, rfl, rfl⟩⟩

/-- The records of a cursor are the one it stands on and those that are left. -/
lemma records_eq (h : Opened C g r es blocks chunks) (hc : Stands blocks c todo)
    (hfuel : todo.length < fuel) :
    c.records C r fuel = some ((c.key, c.val) :: todo.map (entry C r)) := by
  induction todo generalizing c fuel with
  | nil =>
    cases fuel with
    | zero => simp at hfuel
    | succ fuel =>
      have hne : ∀ blk ∈ blocks, blk ≠ [] := fun blk hblk => h.block_ne hblk
      obtain ⟨c', hnext, hdone⟩ := next_nil h.describes.blocks_at.length_eq.symm hne hc
      rw [Cursor.records, hc.done, hnext]
      cases fuel <;> simp [Cursor.records, hdone]
  | cons rec todo ih =>
    cases fuel with
    | zero => simp at hfuel
    | succ fuel =>
      obtain ⟨c', hnext, hentry, hc'⟩ := h.next_cons hc
      rw [Cursor.records, hc.done, hnext]
      simp [ih hc' (by simpa using hfuel), hentry]

/-- **The merge cursor enumerates the entries.** -/
theorem mergeCursor_eq (h : Opened C g r es blocks chunks) (hfuel : es.length ≤ fuel) :
    (Cursor.newMergeCursor C r).bind (Cursor.records C r fuel) = some es := by
  obtain ⟨raw, hraw, hstart⟩ : ∃ raw, Cursor.newMergeCursor C r =
      Cursor.next C r ⟨0, raw, [], [], false⟩ ∧ Stands blocks ⟨0, raw, [], [], false⟩ blocks.flatten := by
    cases hblocks : blocks with
    | nil =>
      have hidx : r.idx = [] := by
        have := h.describes.blocks_at.length_eq
        rw [hblocks] at this
        exact length_eq_zero_iff.1 this.symm
      exact ⟨[], by simp [Cursor.newMergeCursor, hidx], rfl, by simp, [], rfl, rfl⟩
    | cons blk blks =>
      obtain ⟨e, he, hat⟩ := Forall₂.exists_getElem? h.describes.blocks_at (i := 0)
        (a := blk) (by simp [hblocks])
      rw [← head?_eq_getElem?] at he
      refine ⟨blk.flatMap encodeRecord, ?_, rfl, by simp, blk, rfl, rfl⟩
      simp [Cursor.newMergeCursor, he, h.blockBytes_eq (by simp [hblocks]) hat]
  have hes := h.entries_eq
  rw [hraw]
  cases htodo : blocks.flatten with
  | nil =>
    rw [htodo] at hstart hes
    obtain ⟨c', hnext, hdone⟩ := next_nil h.describes.blocks_at.length_eq.symm
      (fun blk hblk => h.block_ne hblk) hstart
    rw [hnext, hes]
    cases fuel <;> simp [Cursor.records, hdone]
  | cons rec todo =>
    rw [htodo] at hstart hes
    obtain ⟨c', hnext, hentry, hc'⟩ := h.next_cons hstart
    have hlen : todo.length < fuel := by
      rw [hes] at hfuel
      simpa using hfuel
    rw [hnext, bind_some, h.records_eq hc' hlen, hentry, hes, map_cons]

end Opened

end Haystack.InvertedStore.SegmentFile
