import Haystack.InvertedStore.SegmentReaders

/-!
# The dictionary of a segment file

The chunk headers give the index of the dictionary, in which an ordinal is looked up by bisecting the
first ordinals. As long as a segment has at most `2 ^ 32` keywords the first ordinals increase and
every ordinal resolves, with or without the cache of chunks.
-/

namespace Haystack.InvertedStore.SegmentFile

open Framing Varint List

variable {C : Codecs} {g : Geometry} {r : Reader} {es : List (Bytes × Bytes)}
  {blocks : List (List (Bytes × Stored))} {chunks : List (List Bytes)} {dcs : List DictChunk}
  {chunk : List Bytes} {need : List UInt32} {o : UInt32} {i : ℕ} {lru : ChunkLRU}
  {cs : List (List Bytes)} {n : ℕ} {e : Sigma fun _ : ℕ => List UInt32} {res : GoMap UInt32 Bytes}

/-! ### The index -/

variable (C g) in
/-- The index entry of a chunk at a position. -/
def chunkAt (n pos : ℕ) (chunk : List Bytes) : DictChunk :=
  let comp := C.compress g.dictCodec (rawChunk chunk)
  ⟨UInt32.ofNat n, pos + ((encodeChunk C g n chunk).length - comp.length), comp.length,
    (rawChunk chunk).length⟩

variable (C g) in
/-- The index of chunks that start at a position, with the ordinal `n`. -/
def dictChunksFrom : ℕ → ℕ → List (List Bytes) → List DictChunk
  | _, _, [] => []
  | n, pos, chunk :: chunks => chunkAt C g n pos chunk ::
    dictChunksFrom (n + chunk.length) (pos + (encodeChunk C g n chunk).length) chunks

/-- The header of a chunk. -/
def chunkHeader (C : Codecs) (g : Geometry) (n : ℕ) (chunk : List Bytes) : Bytes :=
  appendUvarint (UInt32.ofNat n).toNat ++ (appendUvarint (rawChunk chunk).length ++
    appendUvarint (C.compress g.dictCodec (rawChunk chunk)).length)

lemma encodeChunk_eq (n : ℕ) (chunk : List Bytes) :
    encodeChunk C g n chunk = chunkHeader C g n chunk ++ C.compress g.dictCodec (rawChunk chunk) := by
  simp [encodeChunk, framed, chunkHeader, rawChunk]

lemma compOff_chunkAt (n pos : ℕ) (chunk : List Bytes) :
    (chunkAt C g n pos chunk).compOff = pos + (chunkHeader C g n chunk).length := by
  simp [chunkAt, encodeChunk_eq]

/-- The headers from a position on. -/
lemma dictIndexFrom_eq (hfile : r.file.length < 2 ^ 63) (hroom : r.biOff + 28 ≤ r.file.length)
    (hraw : ∀ chunk ∈ cs, (rawChunk chunk).length < 2 ^ 64) {n pos fuel : ℕ}
    (hat : At r.file pos (encodeChunks C g n cs))
    (hend : pos + (encodeChunks C g n cs).length = r.biOff)
    (hfuel : (encodeChunks C g n cs).length ≤ fuel) :
    r.dictIndexFrom fuel pos = some (dictChunksFrom C g n pos cs) := by
  induction cs generalizing n pos fuel with
  | nil =>
    have hge : ¬ pos < r.biOff := by
      simp only [encodeChunks, length_nil] at hend
      omega
    rw [Reader.dictIndexFrom.eq_def]
    dsimp only
    rw [if_neg hge]
    rfl
  | cons chunk cs ih =>
    rw [encodeChunks] at hat hend hfuel
    rw [length_append] at hend hfuel
    have hraw₁ := hraw chunk mem_cons_self
    have hord : (UInt32.ofNat n).toNat < 2 ^ 64 := (UInt32.ofNat n).toNat_lt.trans (by norm_num)
    have hchunk := hat.left
    rw [encodeChunk_eq] at hchunk
    have hlen : (encodeChunk C g n chunk).length = (chunkHeader C g n chunk).length +
        (C.compress g.dictCodec (rawChunk chunk)).length := by
      rw [encodeChunk_eq, length_append]
    have hpos₁ := length_pos_of_ne_nil (appendUvarint_ne_nil (UInt32.ofNat n).toNat)
    have hpos₂ := length_pos_of_ne_nil (appendUvarint_ne_nil (rawChunk chunk).length)
    have hpos₃ := length_pos_of_ne_nil
      (appendUvarint_ne_nil (C.compress g.dictCodec (rawChunk chunk)).length)
    have hheader : (chunkHeader C g n chunk).length = (appendUvarint (UInt32.ofNat n).toNat).length +
        ((appendUvarint (rawChunk chunk).length).length +
          (appendUvarint (C.compress g.dictCodec (rawChunk chunk)).length).length) := by
      rw [chunkHeader, length_append, length_append]
    have hcomp : (C.compress g.dictCodec (rawChunk chunk)).length < 2 ^ 64 := by omega
    have hle : (chunkHeader C g n chunk).length ≤ 30 := by
      have h₁ := length_appendUvarint_le hord
      have h₂ := length_appendUvarint_le hraw₁
      have h₃ := length_appendUvarint_le hcomp
      omega
    obtain ⟨rest, hrest⟩ := hchunk.left.take hle
    have htotal : ((r.file.drop pos).take 30).length = 30 := by
      rw [length_take, length_drop]
      omega
    have hread : readAt r.file 30 pos = some (appendUvarint (UInt32.ofNat n).toNat ++
        (appendUvarint (rawChunk chunk).length ++
          (appendUvarint (C.compress g.dictCodec (rawChunk chunk)).length ++ rest))) := by
      rw [readAt, if_pos (by rw [length_drop]; omega), hrest, chunkHeader]
      simp only [append_assoc]
    have hoff : 30 - rest.length = (chunkHeader C g n chunk).length := by
      rw [hrest, length_append] at htotal
      omega
    obtain ⟨fuel, rfl⟩ : ∃ fuel', fuel = fuel' + 1 := ⟨fuel - 1, by omega⟩
    have hnext : r.dictIndexFrom fuel (pos + (encodeChunk C g n chunk).length) =
        some (dictChunksFrom C g (n + chunk.length) (pos + (encodeChunk C g n chunk).length) cs) :=
      ih (fun c hc => hraw c (mem_cons_of_mem _ hc)) hat.right (by omega) (by omega)
    rw [Reader.dictIndexFrom.eq_def]
    dsimp only
    rw [if_pos (by omega), hread]
    simp only [Option.bind_eq_bind, Option.bind_some, uvarint_appendUvarint hord,
      uvarint_appendUvarint hraw₁, uvarint_appendUvarint hcomp, hoff]
    rw [Nat.add_assoc, ← hlen, hnext]
    simp only [Option.bind_some, dictChunksFrom, chunkAt, UInt32.ofNat_toNat, hlen,
      Nat.add_sub_cancel]

/-- A chunk of the index stands in the file. -/
structure ChunkIn (C : Codecs) (g : Geometry) (file : Bytes) (chunk : List Bytes) (dc : DictChunk) :
    Prop where
  bytes : At file dc.compOff (C.compress g.dictCodec (rawChunk chunk))
  compLen : dc.compLen = (C.compress g.dictCodec (rawChunk chunk)).length
  rawLen : dc.rawLen = (rawChunk chunk).length

lemma chunksIn_dictChunksFrom {file : Bytes} {n pos : ℕ}
    (hat : At file pos (encodeChunks C g n cs)) :
    List.Forall₂ (ChunkIn C g file) cs (dictChunksFrom C g n pos cs) := by
  induction cs generalizing n pos with
  | nil => exact .nil
  | cons chunk cs ih =>
    rw [encodeChunks] at hat
    refine .cons ⟨?_, rfl, rfl⟩ (ih hat.right)
    rw [compOff_chunkAt]
    have hchunk := hat.left
    rw [encodeChunk_eq] at hchunk
    exact hchunk.right

/-- The first ordinals of the index. -/
lemma firstOrd_dictChunksFrom {n pos i : ℕ} (hi : i < cs.length) :
    ((dictChunksFrom C g n pos cs)[i]?).map DictChunk.firstOrd =
      some (UInt32.ofNat (n + (cs.take i).flatten.length)) := by
  induction cs generalizing n pos i with
  | nil => cases hi
  | cons chunk cs ih =>
    cases i with
    | zero => rfl
    | succ i =>
      rw [dictChunksFrom, getElem?_cons_succ, ih (Nat.lt_of_succ_lt_succ hi), take_succ_cons,
        flatten_cons, length_append, Nat.add_assoc]

/-- The number of keywords before a chunk. -/
def startOf (chunks : List (List Bytes)) (i : ℕ) : ℕ :=
  (chunks.take i).flatten.length

/-- The index of a dictionary: its chunks, and their first ordinals. -/
structure Indexed (C : Codecs) (g : Geometry) (r : Reader) (chunks : List (List Bytes))
    (dcs : List DictChunk) : Prop where
  chunks_in : List.Forall₂ (ChunkIn C g r.file) chunks dcs
  firstOrd : ∀ i < chunks.length,
    (dcs[i]?).map DictChunk.firstOrd = some (UInt32.ofNat (startOf chunks i))

namespace Opened

lemma length_rawChunk_lt (h : Opened C g r es blocks chunks) (hchunk : chunk ∈ chunks) :
    (rawChunk chunk).length < 2 ^ 63 := by
  have hterms : ∀ es : List (Bytes × Bytes), (rawChunk (termsOf es)).length ≤
      (es.map fun e => e.1.length + e.2.length + 40).sum := by
    intro es
    induction es with
    | nil => simp [rawChunk, termsOf]
    | cons e es ih =>
      rw [map_cons, sum_cons]
      by_cases hinv : e.1.head? = some ktInverted
      · have hle := length_appendString_le (e.1.drop 5)
        rw [length_drop] at hle
        have hcons : rawChunk (termsOf (e :: es)) = appendString (e.1.drop 5) ++ rawChunk (termsOf es) := by
          simp [rawChunk, termsOf, hinv]
        rw [hcons, length_append]
        omega
      · have hskip : termsOf (e :: es) = termsOf es := by simp [termsOf, hinv]
        rw [hskip]
        omega
  have hsub : (rawChunk chunk).length ≤ (rawChunk chunks.flatten).length := by
    simp only [rawChunk, flatMap_def]
    exact ((sublist_flatten_of_mem hchunk).map appendString).flatten.length_le
  rw [← h.describes.terms] at hsub
  exact (hsub.trans (hterms es)).trans_lt h.data

/-- The dictionary is found. -/
lemma ensureDictIndex_eq (h : Opened C g r es blocks chunks) :
    ∃ dcs, r.ensureDictIndex = some dcs ∧ Indexed C g r chunks dcs := by
  obtain ⟨out, hout, hbi, hlayout⟩ := h.describes.layout
  have hat : At r.file r.dictOff (encodeChunks C g 0 chunks) := by
    rw [hlayout, ← hout]
    exact at_append _ _ _
  have hindexed : Indexed C g r chunks (dictChunksFrom C g 0 r.dictOff chunks) := by
    refine ⟨chunksIn_dictChunksFrom hat, fun i hi => ?_⟩
    rw [firstOrd_dictChunksFrom hi, Nat.zero_add, startOf]
  refine ⟨_, ?_, hindexed⟩
  -- without chunks there is nothing to read, with chunks there is an index of blocks behind them
  cases hchunks : chunks with
  | nil =>
    rw [hchunks, encodeChunks, length_nil] at hbi
    rw [Reader.ensureDictIndex, Reader.dictIndexFrom.eq_def]
    simp [hbi, dictChunksFrom]
  | cons chunk cs =>
    have hblocks : blocks ≠ [] := by
      rintro rfl
      have hes : es = [] := h.entries_eq
      have hterms := h.describes.terms
      rw [hes, hchunks, flatten_cons] at hterms
      exact h.describes.chunks_ne (by simp [hchunks])
        (append_eq_nil_iff.1 hterms.symm).1
    have hpos := h.describes.dictOff_pos hblocks
    have hidx : r.idx ≠ [] := by
      rintro hnil
      have hlen := h.describes.blocks_at.length_eq
      rw [hnil] at hlen
      exact hblocks (length_eq_zero_iff.1 hlen)
    have hindex := length_blockIndex_ge_three hidx
    have hroom : r.biOff + 28 ≤ r.file.length := by
      have hlen := congrArg length hlayout
      simp only [length_append, length_footer] at hlen
      omega
    rw [Reader.ensureDictIndex, if_neg hpos.ne', ← hchunks]
    refine dictIndexFrom_eq h.file hroom (fun chunk hchunk => ?_) hat hbi.symm (by omega)
    have := h.length_rawChunk_lt hchunk
    omega

lemma readChunk_eq (h : Opened C g r es blocks chunks) (hdcs : Indexed C g r chunks dcs)
    (hi : chunks[i]? = some chunk) : r.readChunk C dcs i = some (rawChunk chunk) := by
  obtain ⟨dc, hdc, hin⟩ := StepSystem.Forall₂.exists_getElem? hdcs.chunks_in hi
  simp only [Reader.readChunk, hdc, Option.bind_eq_bind, Option.bind_some, hin.compLen,
    hin.bytes.readAt, h.dictCodec, hin.rawLen, h.lawful g.dictCodec (rawChunk chunk)]

end Opened

/-! ### The keyword of an ordinal -/

/-- The chunk that an ordinal is looked up in. The first ordinals have 32 bits. -/
def homeOf (chunks : List (List Bytes)) (o : UInt32) : Option ℕ :=
  match BinarySearch.search chunks.length
      (fun i => i < chunks.length ∧ o < UInt32.ofNat (startOf chunks i)) with
  | 0 => none
  | i + 1 => some i

/-- The last keyword with an ordinal, in a chunk that starts with the ordinal `cur`. -/
def termAt : UInt32 → List Bytes → UInt32 → Option Bytes
  | _, [], _ => none
  | cur, term :: terms, o => (termAt (cur + 1) terms o).or (if cur = o then some term else none)

/-- The keyword that a dictionary has for an ordinal. -/
def dictLookup (chunks : List (List Bytes)) (o : UInt32) : Option Bytes := do
  let i ← homeOf chunks o
  let chunk ← chunks[i]?
  termAt (UInt32.ofNat (startOf chunks i)) chunk o

lemma homeOf_lt (h : homeOf chunks o = some i) : i < chunks.length := by
  rw [homeOf] at h
  have hle := BinarySearch.search_le chunks.length
    (fun i => i < chunks.length ∧ o < UInt32.ofNat (startOf chunks i))
  split at h
  · cases h
  case h_2 k hk =>
    cases h
    omega

lemma Indexed.chunkOf_eq (h : Indexed C g r chunks dcs) (o : UInt32) :
    chunkOf dcs o = homeOf chunks o := by
  have hlen : dcs.length = chunks.length := h.chunks_in.length_eq.symm
  have hfun : (fun i => (dcs[i]?).any fun c => decide (o < c.firstOrd)) =
      fun i => decide (i < chunks.length ∧ o < UInt32.ofNat (startOf chunks i)) := by
    funext i
    by_cases hi : i < chunks.length
    · obtain ⟨dc, hdc, hord⟩ := Option.map_eq_some_iff.1 (h.firstOrd i hi)
      simp [hdc, hord, hi]
    · rw [getElem?_eq_none (by omega)]
      simp [hi]
  cases hk : BinarySearch.search chunks.length
      fun i => decide (i < chunks.length ∧ o < UInt32.ofNat (startOf chunks i)) with
  | zero => simp only [chunkOf, homeOf, hlen, hfun, hk]
  | succ k => simp only [chunkOf, homeOf, hlen, hfun, hk]

/-! ### At most `2 ^ 32` keywords -/

lemma flatten_eq_of_getElem? (hi : chunks[i]? = some chunk) :
    chunks.flatten = (chunks.take i).flatten ++ (chunk ++ (chunks.drop (i + 1)).flatten) := by
  obtain ⟨hlt, rfl⟩ := List.getElem?_eq_some_iff.1 hi
  conv_lhs => rw [← List.take_append_drop i chunks]
  rw [flatten_append, drop_eq_getElem_cons hlt, flatten_cons]

lemma startOf_succ (hi : chunks[i]? = some chunk) :
    startOf chunks (i + 1) = startOf chunks i + chunk.length := by
  simp [startOf, take_add_one, hi]

lemma startOf_mono {i j : ℕ} (hij : i ≤ j) : startOf chunks i ≤ startOf chunks j := by
  obtain ⟨d, rfl⟩ := Nat.exists_eq_add_of_le hij
  rw [startOf, startOf, take_add, flatten_append, length_append]
  exact Nat.le_add_right _ _

lemma startOf_length : startOf chunks chunks.length = chunks.flatten.length := by
  rw [startOf, take_length]

/-- The first ordinals are then those of the chunks. -/
lemma lt_startOf_iff (hne : ∀ chunk ∈ chunks, chunk ≠ []) (hterms : chunks.flatten.length ≤ 2 ^ 32)
    (o : UInt32) (hi : i < chunks.length) :
    decide (i < chunks.length ∧ o < UInt32.ofNat (startOf chunks i)) = true ↔
      o.toNat < startOf chunks i := by
  have hlt : startOf chunks i < 2 ^ 32 := by
    have hpos := length_pos_of_ne_nil (hne _ (getElem_mem hi))
    have hsucc := startOf_succ (getElem?_eq_getElem hi)
    have hle : startOf chunks (i + 1) ≤ chunks.flatten.length := startOf_length ▸ startOf_mono hi
    omega
  rw [decide_eq_true_iff, UInt32.lt_iff_toNat_lt, UInt32.toNat_ofNat_of_lt' hlt]
  exact and_iff_right hi

/-- The bisection finds the chunk of an ordinal. -/
lemma homeOf_eq (hne : ∀ chunk ∈ chunks, chunk ≠ []) (hterms : chunks.flatten.length ≤ 2 ^ 32)
    (hchunks : chunks ≠ []) (o : UInt32) :
    ∃ i chunk, homeOf chunks o = some i ∧ chunks[i]? = some chunk ∧ startOf chunks i ≤ o.toNat ∧
      (o.toNat < chunks.flatten.length → o.toNat < startOf chunks i + chunk.length) := by
  have hiff := fun i (hi : i < chunks.length) => lt_startOf_iff hne hterms o hi
  have hpos := length_pos_of_ne_nil hchunks
  have hbracket := BinarySearch.search_spec
    (f := fun i => i < chunks.length ∧ o < UInt32.ofNat (startOf chunks i)) (n := chunks.length) (by
      intro a b hab hb ha
      have hstart : startOf chunks a ≤ startOf chunks b := startOf_mono hab
      rw [hiff b hb]
      rw [hiff a (by omega)] at ha
      omega)
  rw [homeOf]
  generalize BinarySearch.search chunks.length _ = k at hbracket ⊢
  have htop := hbracket.le_top
  cases k with
  | zero =>
    -- the first chunk starts with the ordinal zero
    have hzero := (hiff 0 hpos).1 (hbracket.above 0 le_rfl hpos)
    exact absurd hzero (Nat.not_lt_zero _)
  | succ i =>
    have hi : i < chunks.length := by omega
    have hbelow := hbracket.below i (Nat.lt_succ_self i)
    have hle : startOf chunks i ≤ o.toNat := by
      by_contra hcon
      rw [(hiff i hi).2 (by omega)] at hbelow
      cases hbelow
    refine ⟨i, chunks[i], rfl, getElem?_eq_getElem hi, hle, fun hlt => ?_⟩
    rw [← startOf_succ (getElem?_eq_getElem hi)]
    rcases Nat.lt_or_ge (i + 1) chunks.length with hnext | hlast
    · exact (hiff _ hnext).1 (hbracket.above _ le_rfl hnext)
    · obtain hend : i + 1 = chunks.length := by omega
      rwa [hend, startOf_length]

lemma ofNat_eq_iff (hn : n < 2 ^ 32) : UInt32.ofNat n = o ↔ n = o.toNat := by
  constructor
  · rintro rfl
    exact (UInt32.toNat_ofNat_of_lt' hn).symm
  · rintro rfl
    exact UInt32.ofNat_toNat

/-- The ordinals of a chunk that ends below `2 ^ 32` do not wrap. -/
lemma termAt_eq_none {terms : List Bytes} (hn : n + terms.length ≤ 2 ^ 32) (ho : o.toNat < n) :
    termAt (UInt32.ofNat n) terms o = none := by
  induction terms generalizing n with
  | nil => rfl
  | cons term terms ih =>
    rw [length_cons] at hn
    have hnext : UInt32.ofNat n + 1 = UInt32.ofNat (n + 1) := by simp
    rw [termAt, hnext, ih (by omega) (by omega), if_neg (mt (ofNat_eq_iff (by omega)).1 ho.ne')]
    rfl

lemma termAt_eq {terms : List Bytes} (hn : n + terms.length ≤ 2 ^ 32) (ho : n ≤ o.toNat) :
    termAt (UInt32.ofNat n) terms o = terms[o.toNat - n]? := by
  induction terms generalizing n with
  | nil => rfl
  | cons term terms ih =>
    rw [length_cons] at hn
    have hnext : UInt32.ofNat n + 1 = UInt32.ofNat (n + 1) := by simp
    rw [termAt, hnext]
    rcases ho.eq_or_lt with h | h
    · rw [termAt_eq_none (by omega) (by omega), if_pos ((ofNat_eq_iff (by omega)).2 h), ← h,
        Nat.sub_self]
      rfl
    · have hsub : o.toNat - n = o.toNat - (n + 1) + 1 := by omega
      rw [ih (by omega) (by omega), if_neg (mt (ofNat_eq_iff (by omega)).1 h.ne), Option.or_none,
        hsub, getElem?_cons_succ]

/-- As long as there are enough ordinals each one leads to its keyword. -/
theorem dictLookup_eq (hne : ∀ chunk ∈ chunks, chunk ≠ []) (hterms : chunks.flatten.length ≤ 2 ^ 32)
    (o : UInt32) : dictLookup chunks o = chunks.flatten[o.toNat]? := by
  by_cases hchunks : chunks = []
  · simp [dictLookup, homeOf, hchunks, BinarySearch.search, BinarySearch.loop]
  obtain ⟨i, chunk, hhome, hi, hle, hlt⟩ := homeOf_eq hne hterms hchunks o
  have hsplit := flatten_eq_of_getElem? hi
  have hend : startOf chunks i + chunk.length ≤ chunks.flatten.length := by
    rw [hsplit, length_append, length_append, startOf]
    omega
  simp only [dictLookup, hhome, hi, Option.bind_eq_bind, Option.bind_some]
  rw [termAt_eq (hend.trans hterms) hle]
  by_cases hin : o.toNat < chunks.flatten.length
  · have hlt := hlt hin
    rw [hsplit, getElem?_append_right hle,
      getElem?_append_left (by rw [startOf] at *; omega)]
    rfl
  · rw [getElem?_eq_none (by omega), getElem?_eq_none (by omega)]

/-! ### The keywords of a chunk -/

/-- The keywords found after a chunk. -/
def collectTerms (want : List UInt32) : List Bytes → UInt32 → GoMap UInt32 Bytes →
    GoMap UInt32 Bytes
  | [], _, res => res
  | term :: terms, cur, res =>
    collectTerms want terms (cur + 1) (if cur ∈ want then res.insert cur term else res)

lemma scanTerms_rawChunk {want : List UInt32} (hraw : (rawChunk chunk).length < 2 ^ 64)
    (cur : UInt32) (res : GoMap UInt32 Bytes) :
    scanTerms want (rawChunk chunk) cur res = some (collectTerms want chunk cur res) := by
  have hread : ∀ term ∈ chunk, ∀ rest, readString (appendString term ++ rest) = some (term, rest) := by
    intro term hterm rest
    refine readString_appendString (lt_of_le_of_lt ?_ hraw) rest
    refine le_trans ?_ ((sublist_flatten_of_mem (mem_map_of_mem hterm)).length_le.trans_eq
      (by rw [rawChunk, flatMap_def]))
    simp [appendString]
  rw [scanTerms, rawChunk, loop_flatMap _ hread (fun term _ => appendString_ne_nil term) le_rfl]
  clear hraw hread
  induction chunk generalizing cur res with
  | nil => rfl
  | cons term terms ih => exact ih (cur + 1) _

lemma lookup_collectTerms (want : List UInt32) (terms : List Bytes) (cur : UInt32)
    (res : GoMap UInt32 Bytes) (o : UInt32) :
    (collectTerms want terms cur res).lookup o =
      if o ∈ want then (termAt cur terms o).or (res.lookup o) else res.lookup o := by
  induction terms generalizing cur res with
  | nil => simp [collectTerms, termAt]
  | cons term terms ih =>
    have hstep : (if cur ∈ want then res.insert cur term else res).lookup o =
        if cur = o ∧ o ∈ want then some term else res.lookup o := by
      by_cases hwant : cur ∈ want
      · rw [if_pos hwant, GoMap.lookup_insert_if]
        by_cases ho : cur = o
        · subst ho
          rw [if_pos rfl, if_pos ⟨rfl, hwant⟩]
        · rw [if_neg (Ne.symm ho), if_neg (by rintro ⟨h, -⟩; exact ho h)]
      · rw [if_neg hwant, if_neg (by rintro ⟨rfl, h⟩; exact hwant h)]
    rw [collectTerms, ih, hstep, termAt]
    by_cases ho : o ∈ want
    · by_cases hcur : cur = o <;> simp [ho, hcur]
    · simp [ho]

/-! ### Resolving ordinals -/

lemma lookup_byChunk (dcs : List DictChunk) (need : List UInt32) (i : ℕ) :
    (byChunk dcs need).lookup i = if need.filter (fun o => chunkOf dcs o = some i) = [] then none
      else some (need.filter fun o => chunkOf dcs o = some i) := by
  induction need using reverseRecOn with
  | nil => simp [byChunk]
  | append_singleton need o ih =>
    rw [filter_append]
    cases hof : chunkOf dcs o with
    | none =>
      have hsnoc : byChunk dcs (need ++ [o]) = byChunk dcs need := by
        rw [byChunk, foldl_append, ← byChunk, foldl_cons, foldl_nil, hof]
      simp [hsnoc, ih, hof]
    | some i' =>
      have hsnoc : byChunk dcs (need ++ [o]) =
          (byChunk dcs need).insert i' (((byChunk dcs need).lookup i').getD [] ++ [o]) := by
        rw [byChunk, foldl_append, ← byChunk, foldl_cons, foldl_nil, hof]
      rw [hsnoc, GoMap.lookup_insert_if]
      by_cases hi : i = i'
      · subst hi
        rw [if_pos rfl, ih]
        split
        case isTrue hnil => simp [hof, hnil]
        case isFalse => simp [hof]
      · have hi' : ¬ i' = i := fun h => hi h.symm
        simp [hi, hi', ih, hof]

lemma mem_byChunk (he : e ∈ (byChunk dcs need).entries) :
    e.2 ≠ [] ∧ ∀ o ∈ e.2, chunkOf dcs o = some e.1 := by
  have hlookup := GoMap.mem_entries_iff.1 he
  rw [lookup_byChunk] at hlookup
  split at hlookup
  · cases hlookup
  case isFalse hne =>
    obtain heq := Option.some.inj hlookup
    rw [← heq]
    exact ⟨hne, fun o ho => by simpa using (mem_filter.1 ho).2⟩

/-- Every ordinal that has a chunk is wanted from it. -/
lemma exists_mem_byChunk (ho : o ∈ need) (hof : chunkOf dcs o = some i) :
    ∃ e ∈ (byChunk dcs need).entries, o ∈ e.2 := by
  have hmem : o ∈ need.filter fun o => chunkOf dcs o = some i := by simp [ho, hof]
  refine ⟨⟨i, _⟩, GoMap.mem_entries_iff.2 ?_, hmem⟩
  rw [lookup_byChunk, if_neg (ne_nil_of_mem hmem)]

lemma mem_need_of_mem_byChunk (he : e ∈ (byChunk dcs need).entries) (ho : o ∈ e.2) : o ∈ need := by
  have hlookup := GoMap.mem_entries_iff.1 he
  rw [lookup_byChunk] at hlookup
  split at hlookup
  · cases hlookup
  · rw [← Option.some.inj hlookup] at ho
    exact (mem_filter.1 ho).1

/-- What is resolved: the wanted ordinals. -/
def Resolves (keyword : UInt32 → Option Bytes) (want : UInt32 → Prop) (res : GoMap UInt32 Bytes) :
    Prop :=
  ∀ o, (want o → res.lookup o = keyword o) ∧ (¬ want o → res.lookup o = none)

/-- The ordinals wanted from a chunk are those that are looked up there. -/
lemma Resolves.collectTerms {want : UInt32 → Prop} (h : Resolves (dictLookup chunks) want res)
    (hi : chunks[i]? = some chunk) {os : List UInt32} (hos : ∀ o ∈ os, homeOf chunks o = some i) :
    Resolves (dictLookup chunks) (fun o => want o ∨ o ∈ os)
      (collectTerms os chunk (UInt32.ofNat (startOf chunks i)) res) := by
  intro o
  rw [lookup_collectTerms]
  by_cases ho : o ∈ os
  · have hlookup : dictLookup chunks o = termAt (UInt32.ofNat (startOf chunks i)) chunk o := by
      simp [dictLookup, hos o ho, hi]
    refine ⟨fun _ => ?_, fun hnot => absurd (.inr ho) hnot⟩
    rw [if_pos ho, ← hlookup]
    by_cases hw : want o
    · rw [(h o).1 hw, Option.or_self]
    · rw [(h o).2 hw, Option.or_none]
  · rw [if_neg ho]
    simpa [ho] using h o

namespace Opened

variable {dcs : List DictChunk}

/-- Resolving, whatever way the chunks are read. -/
lemma resolveVia_eq (h : Opened C g r es blocks chunks) (hdcs : Indexed C g r chunks dcs) {σ : Type}
    {read : σ → ℕ → Option (Bytes × σ)} {Good : σ → Prop}
    (hread : ∀ {s ci raw}, Good s → r.readChunk C dcs ci = some raw →
      ∃ s', read s ci = some (raw, s') ∧ Good s')
    (need : List UInt32) {s : σ} (hs : Good s) :
    ∃ res s', resolveVia read dcs need s = some (res, s') ∧ Good s' ∧
      Resolves (dictLookup chunks) (· ∈ need) res := by
  -- after some of the chunks their ordinals are resolved
  obtain ⟨⟨res, s'⟩, hfold, hgood, hres⟩ : ∃ acc, resolveVia read dcs need s = some acc ∧
      Good acc.2 ∧ Resolves (dictLookup chunks)
        (fun o => ∃ e ∈ (byChunk dcs need).entries, o ∈ e.2) acc.1 := by
    refine StepSystem.foldlM_invariant
      (P := fun (pre : List (Sigma fun _ : ℕ => List UInt32)) (acc : GoMap UInt32 Bytes × σ) =>
        Good acc.2 ∧ Resolves (dictLookup chunks) (fun o => ∃ e ∈ pre, o ∈ e.2) acc.1)
      ⟨hs, fun o => by simp⟩ ?_
    rintro pre ⟨i, os⟩ ⟨res, s⟩ he ⟨hgood, hres⟩
    obtain ⟨hne, hof⟩ := mem_byChunk he
    have hhome : ∀ o ∈ os, homeOf chunks o = some i := fun o ho => hdcs.chunkOf_eq o ▸ hof o ho
    have hlt : i < chunks.length := by
      obtain ⟨o, os, rfl⟩ := exists_cons_of_ne_nil hne
      exact homeOf_lt (hhome o mem_cons_self)
    have hi := getElem?_eq_getElem hlt
    obtain ⟨dc, hdc, hord⟩ := Option.map_eq_some_iff.1 (hdcs.firstOrd i hlt)
    obtain ⟨s', hs', hgood'⟩ := hread hgood (h.readChunk_eq hdcs hi)
    refine ⟨(collectTerms os chunks[i] (UInt32.ofNat (startOf chunks i)) res, s'), ?_, hgood', ?_⟩
    · have hraw := h.length_rawChunk_lt (getElem_mem hlt)
      simp only [hs', hdc, Option.bind_eq_bind, Option.bind_some, hord]
      rw [scanTerms_rawChunk (by omega)]
      rfl
    · have hres' := hres.collectTerms hi hhome
      intro o
      simpa [or_and_right, exists_or] using hres' o
  refine ⟨res, s', hfold, hgood, fun o => ⟨fun ho => ?_, fun ho => (hres o).2 ?_⟩⟩
  · cases hhome : homeOf chunks o with
    | none =>
      rw [(hres o).2]
      · simp [dictLookup, hhome]
      · rintro ⟨e, he, hoe⟩
        have hof := (mem_byChunk he).2 o hoe
        rw [hdcs.chunkOf_eq, hhome] at hof
        cases hof
    | some i => exact (hres o).1 (exists_mem_byChunk ho (hdcs.chunkOf_eq o ▸ hhome))
  · rintro ⟨e, he, hoe⟩
    exact ho (mem_need_of_mem_byChunk he hoe)

theorem resolveOrds_eq (h : Opened C g r es blocks chunks) (need : List UInt32) :
    ∃ res, r.resolveOrds C need = some res ∧ Resolves (dictLookup chunks) (· ∈ need) res := by
  obtain ⟨dcs, hindex, hdcs⟩ := h.ensureDictIndex_eq
  have hresolve : ∃ res s', resolveVia
      (fun (_ : Unit) ci => (r.readChunk C dcs ci).map fun raw => (raw, ())) dcs need () =
        some (res, s') ∧ True ∧ Resolves (dictLookup chunks) (· ∈ need) res :=
    h.resolveVia_eq hdcs (fun {_ _ _} _ hraw => ⟨(), by rw [hraw]; rfl, trivial⟩) need trivial
  obtain ⟨res, _, hvia, -, hres⟩ := hresolve
  refine ⟨res, ?_, hres⟩
  simp only [Reader.resolveOrds, hindex, hvia, Option.bind_eq_bind, Option.bind_some]

end Opened

/-! ### The cache of chunks -/

namespace ChunkLRU

variable (C r) in
/-- What a cache has under the id of a segment are chunks of its file. -/
def Holds (lru : ChunkLRU) : Prop :=
  ∀ dcs, r.ensureDictIndex = some dcs → ∀ e ∈ lru.ll, e.1.1 = r.id →
    r.readChunk C dcs e.1.2 = some e.2

lemma holds_newChunkLRU (budget : ℤ) : (newChunkLRU budget).Holds C r :=
  fun _ _ _ he => absurd he not_mem_nil

variable {lru lru' : ChunkLRU} {r' : Reader} {raw : Bytes} {ci : ℕ}

lemma Holds.of_subset (h : lru.Holds C r) (hsub : lru'.ll ⊆ lru.ll) : lru'.Holds C r :=
  fun dcs hdcs e he => h dcs hdcs e (hsub he)

lemma evict_subset (fuel : ℕ) (lru : ChunkLRU) : (evict fuel lru).ll ⊆ lru.ll := by
  induction fuel generalizing lru with
  | zero => exact Subset.refl _
  | succ fuel ih =>
    rw [evict]
    split
    · exact Subset.trans (ih _) (dropLast_subset _)
    · exact Subset.refl _

lemma Holds.purge (h : lru.Holds C r) (segId : ℕ) : (lru.purge segId).Holds C r :=
  h.of_subset (filter_sublist).subset

/-- A chunk of this or of another segment is cached. -/
lemma Holds.cons (h : lru.Holds C r)
    (hraw : r'.id = r.id → ∀ dcs, r.ensureDictIndex = some dcs → r.readChunk C dcs ci = some raw)
    (hsub : lru'.ll ⊆ ((r'.id, ci), raw) :: lru.ll) : lru'.Holds C r := by
  intro dcs hdcs e he hid
  rcases mem_cons.1 (hsub he) with rfl | he
  · exact hraw hid dcs hdcs
  · exact h dcs hdcs e he hid

lemma get_of_mem {lru' : ChunkLRU} (h : get C r' dcs lru ci = some (raw, lru')) :
    lru'.ll ⊆ ((r'.id, ci), raw) :: lru.ll ∧
      (((r'.id, ci), raw) ∈ lru.ll ∨ r'.readChunk C dcs ci = some raw) := by
  rw [get] at h
  split at h
  case h_1 e he =>
    cases h
    have hkey : e.1 = (r'.id, ci) := by simpa using find?_some he
    have hmem := mem_of_find?_eq_some he
    obtain ⟨key, raw⟩ := e
    obtain rfl : key = (r'.id, ci) := hkey
    refine ⟨?_, .inl hmem⟩
    exact cons_subset_cons _ (filter_sublist).subset
  case h_2 =>
    obtain ⟨raw', hraw, heq⟩ := Option.map_eq_some_iff.1 h
    obtain ⟨rfl, rfl⟩ := Prod.mk.inj heq
    exact ⟨evict_subset _ _, .inr hraw⟩

/-- Reading a chunk through the cache. -/
lemma Holds.get (h : lru.Holds C r) (hdcs : r.ensureDictIndex = some dcs)
    (hraw : r.readChunk C dcs ci = some raw) :
    ∃ lru', ChunkLRU.get C r dcs lru ci = some (raw, lru') ∧ lru'.Holds C r := by
  obtain ⟨raw', lru', hget⟩ : ∃ raw' lru', ChunkLRU.get C r dcs lru ci = some (raw', lru') := by
    rw [ChunkLRU.get]
    split
    · exact ⟨_, _, rfl⟩
    · exact ⟨_, _, by rw [hraw]; rfl⟩
  obtain ⟨hsub, hfrom⟩ := get_of_mem hget
  obtain rfl : raw' = raw := by
    rcases hfrom with hmem | hread
    · exact Option.some.inj ((h dcs hdcs _ hmem rfl).symm.trans hraw)
    · exact Option.some.inj (hread.symm.trans hraw)
  refine ⟨lru', hget, h.cons (fun _ dcs' hdcs' => ?_) hsub⟩
  rw [← Option.some.inj (hdcs.symm.trans hdcs'), hraw]

/-- Resolving ordinals of another segment. -/
lemma Holds.resolveOrdsCached (h : lru.Holds C r) (hid : r'.id ≠ r.id)
    (hres : r'.resolveOrdsCached C need lru = some (res, lru')) : lru'.Holds C r := by
  obtain ⟨dcs, -, hvia⟩ := Option.bind_eq_some_iff.1 hres
  refine StepSystem.foldlM_preserves (P := fun acc : GoMap UInt32 Bytes × ChunkLRU => acc.2.Holds C r)
    ?_ h hvia
  intro e acc acc' hacc hstep
  obtain ⟨⟨raw, lru₁⟩, hget, hstep⟩ := Option.bind_eq_some_iff.1 hstep
  obtain ⟨c, -, hstep⟩ := Option.bind_eq_some_iff.1 hstep
  obtain ⟨res₁, -, hstep⟩ := Option.bind_eq_some_iff.1 hstep
  cases hstep
  exact hacc.cons (fun heq => absurd heq hid) (get_of_mem hget).1

end ChunkLRU

theorem Opened.resolveOrdsCached_eq (h : Opened C g r es blocks chunks) (need : List UInt32)
    (hlru : lru.Holds C r) :
    ∃ res lru', r.resolveOrdsCached C need lru = some (res, lru') ∧ lru'.Holds C r ∧
      Resolves (dictLookup chunks) (· ∈ need) res := by
  obtain ⟨dcs, hindex, hdcs⟩ := h.ensureDictIndex_eq
  obtain ⟨res, lru', hvia, hlru', hres⟩ := h.resolveVia_eq hdcs
    (fun {_ _ _} hgood hraw => ChunkLRU.Holds.get hgood hindex hraw) need hlru
  refine ⟨res, lru', ?_, hlru', hres⟩
  simp only [Reader.resolveOrdsCached, hindex, hvia, Option.bind_eq_bind, Option.bind_some]

/-- The file of a writer, opened. -/
lemma exists_opened (hC : C.Lawful) (hfits : Fits C g es) (id : ℕ) :
    ∃ r blocks, openSegment (write C g es) id = some r ∧
      Opened C g r es blocks (closeChunks (splitChunks g (termsOf es))) := by
  obtain ⟨blocks, chunks, idx, dictOff, biOff, hdescribes⟩ := describes_write (C := C) (g := g) es
  refine ⟨_, blocks, openSegment_eq hdescribes hfits.file id, ?_⟩
  rw [← hdescribes.chunks_eq]
  exact ⟨hC, hdescribes, rfl, rfl, hfits.file, hfits.data⟩

/-! ### The round trip -/

/-- The entries that `addEntry` is meant for: increasing keys that have a key type and a table id. -/
structure Entries (es : List (Bytes × Bytes)) : Prop where
  sorted : es.Pairwise fun e e' => e.1 < e'.1
  header : ∀ e ∈ es, 5 ≤ e.1.length

/-- What is written is read: by the merge cursor, by a scan for each prefix, and, through the
dictionary, by ordinals, with or without a cache. -/
theorem openSegment_write (hC : C.Lawful) (hes : Entries es) (hfits : Fits C g es)
    (hterms : (termsOf es).length ≤ 2 ^ 32) (id : ℕ) :
    ∃ r, openSegment (write C g es) id = some r ∧
      (∀ fuel, es.length ≤ fuel →
        (Cursor.newMergeCursor C r).bind (Cursor.records C r fuel) = some es) ∧
      (∀ lo, r.scanPrefix C lo (Bytes.prefixUpper lo) = some (es.filter fun e => lo <+: e.1)) ∧
      (∀ need, ∃ res, r.resolveOrds C need = some res ∧
        Resolves (fun o => (termsOf es)[o.toNat]?) (· ∈ need) res) ∧
      ∀ need lru, lru.Holds C r → ∃ res lru', r.resolveOrdsCached C need lru = some (res, lru') ∧
        lru'.Holds C r ∧ Resolves (fun o => (termsOf es)[o.toNat]?) (· ∈ need) res := by
  obtain ⟨r, blocks, hopen, h⟩ := exists_opened hC hfits id
  have hlookup : dictLookup (closeChunks (splitChunks g (termsOf es))) =
      fun o => (termsOf es)[o.toNat]? := by
    funext o
    rw [dictLookup_eq (fun _ => h.describes.chunks_ne) (h.describes.terms ▸ hterms), ← h.describes.terms]
  refine ⟨r, hopen, fun fuel hfuel => h.mergeCursor_eq hfuel, h.scanPrefix_eq hes.sorted, ?_, ?_⟩
  · exact hlookup ▸ h.resolveOrds_eq
  · exact fun need lru hlru => hlookup ▸ h.resolveOrdsCached_eq need hlru

/-- A codec that leaves the bytes as they are. -/
def Codecs.verbatim : Codecs where
  compress _ raw := raw
  decompress _ raw _ := raw

/-- A geometry with blocks, pieces and chunks of the least size. -/
def Geometry.least : Geometry where
  dataCodec := 0
  dictCodec := 0
  blockTarget := 1
  chunk := 1
  threshold := 0
  dictChunk := 1
  chunk_pos := Nat.one_pos

/-- A keyword with a large value, and a document. -/
theorem openSegment_write_least :
    let es := [(invertedKey 0 [97], [1, 2]), (forwardKey 0 7, [0])]
    ∃ r, openSegment (write Codecs.verbatim Geometry.least es) 1 = some r ∧
      (Cursor.newMergeCursor Codecs.verbatim r).bind (Cursor.records Codecs.verbatim r 2) = some es ∧
      (∀ lo, r.scanPrefix Codecs.verbatim lo (Bytes.prefixUpper lo) =
        some (es.filter fun e => lo <+: e.1)) ∧
      ∃ res, r.resolveOrds Codecs.verbatim [0] = some res ∧ res.lookup 0 = some [97] := by
  intro es
  have hes : Entries es := ⟨by decide +kernel, by decide +kernel⟩
  have hfits : Fits Codecs.verbatim Geometry.least es := ⟨by decide +kernel, by decide +kernel⟩
  obtain ⟨r, hopen, hcursor, hscan, hords, -⟩ :=
    openSegment_write (fun _ _ => rfl) hes hfits (by decide +kernel) 1
  obtain ⟨res, hres, hresolves⟩ := hords [0]
  exact ⟨r, hopen, hcursor 2 (by decide +kernel), hscan, res, hres, (hresolves 0).1 (by simp)⟩

/-- The first `n` numbers as keywords, without postings. -/
def numbered (n : ℕ) : List (Bytes × Bytes) :=
  (List.range n).map fun i => (invertedKey 0 (Bytes.bigEndian 8 i), [])

lemma termsOf_numbered (n : ℕ) : termsOf (numbered n) = (List.range n).map (Bytes.bigEndian 8) := by
  have hinv : ∀ e ∈ numbered n, e.1.head? = some ktInverted := by
    intro e he
    obtain ⟨i, -, rfl⟩ := mem_map.1 he
    rfl
  rw [termsOf, filter_eq_self.2 (by simpa using hinv), numbered, map_map]
  rfl

lemma entries_numbered (hn : n ≤ 256 ^ 8) : Entries (numbered n) := by
  constructor
  · refine pairwise_map.2 ((pairwise_lt_range (n := n)).imp_of_mem ?_)
    intro i j hi hj hij
    rw [mem_range] at hi hj
    rw [invertedKey_lt_iff, Bytes.bigEndian_lt_iff, Nat.mod_eq_of_lt (by omega),
      Nat.mod_eq_of_lt (by omega)]
    exact hij
  · intro e he
    obtain ⟨i, -, rfl⟩ := mem_map.1 he
    simp [invertedKey]

/-- One keyword more than there are ordinals: the last one has the ordinal of the first one. -/
theorem write_numbered_not_resolved :
    Entries (numbered (2 ^ 32 + 1)) ∧
      ¬ ∃ r, openSegment (write Codecs.verbatim Geometry.least (numbered (2 ^ 32 + 1))) 1 = some r ∧
        ∀ o < (termsOf (numbered (2 ^ 32 + 1))).length, ∃ res,
          r.resolveOrds Codecs.verbatim [UInt32.ofNat o] = some res ∧
            res.lookup (UInt32.ofNat o) = (termsOf (numbered (2 ^ 32 + 1)))[o]? := by
  refine ⟨entries_numbered (by norm_num), ?_⟩
  rintro ⟨r, -, hall⟩
  rw [termsOf_numbered, length_map, length_range] at hall
  have hterm : ∀ o < 2 ^ 32 + 1, ((range (2 ^ 32 + 1)).map (Bytes.bigEndian 8))[o]? =
      some (Bytes.bigEndian 8 o) := by
    intro o ho
    rw [getElem?_map, getElem?_range ho]
    rfl
  have hwrap : UInt32.ofNat (2 ^ 32) = UInt32.ofNat 0 := by decide
  obtain ⟨res, hres, hfirst⟩ := hall 0 (by norm_num)
  obtain ⟨res', hres', hlast⟩ := hall (2 ^ 32) (Nat.lt_succ_self _)
  rw [hwrap, hres] at hres'
  cases hres'
  rw [hwrap, hfirst, hterm 0 (by norm_num), hterm _ (Nat.lt_succ_self _)] at hlast
  have heq := (Bytes.bigEndian_inj _ _ _).1 (Option.some.inj hlast)
  norm_num at heq

/-! ### Calls that share the cache -/

inductive CacheCall
  | resolve (r : Reader) (need : List UInt32)
  | purge (segId : ℕ)

def CacheCall.step (C : Codecs) (lru : ChunkLRU) : CacheCall → Option ChunkLRU
  | .resolve r need => (r.resolveOrdsCached C need lru).map Prod.snd
  | .purge segId => some (lru.purge segId)

/-- Ordinals resolve through the cache as without it. -/
def ChunkLRU.Transparent (C : Codecs) (lru : ChunkLRU) (r : Reader) : Prop :=
  ∀ need, ∃ res res' lru', r.resolveOrds C need = some res ∧
    r.resolveOrdsCached C need lru = some (res', lru') ∧ ∀ o, res'.lookup o = res.lookup o

/-- **The cache is transparent** after any calls for segments with different ids. -/
theorem transparent_run (hC : C.Lawful) {rs : List Reader} (hids : (rs.map Reader.id).Nodup)
    (hrs : ∀ r ∈ rs, ∃ g es id, Fits C g es ∧ openSegment (write C g es) id = some r)
    {budget : ℤ} {calls : List CacheCall} (hrun : StepSystem.Run (CacheCall.step C)
      (fun _ c => ∀ r need, c = .resolve r need → r ∈ rs) (newChunkLRU budget) calls lru) :
    ∀ r ∈ rs, lru.Transparent C r := by
  have hopened : ∀ r ∈ rs, ∃ g es blocks chunks, Opened C g r es blocks chunks := by
    intro r hr
    obtain ⟨g, es, id, hfits, hopen⟩ := hrs r hr
    obtain ⟨r', blocks, hopen', h⟩ := exists_opened hC hfits id
    cases hopen.symm.trans hopen'
    exact ⟨g, es, blocks, _, h⟩
  have hholds : ∀ r ∈ rs, lru.Holds C r := by
    refine hrun.invariant (I := fun _ lru => ∀ r ∈ rs, lru.Holds C r)
      (fun r _ => ChunkLRU.holds_newChunkLRU budget) @fun _ lru call lru' h hok hstep r hr => ?_
    cases call with
    | purge segId =>
      cases hstep
      exact (h r hr).purge segId
    | resolve r' need =>
      obtain ⟨⟨res, _⟩, hres, rfl⟩ := Option.map_eq_some_iff.1 hstep
      by_cases hid : r'.id = r.id
      · cases inj_on_of_nodup_map hids (hok r' need rfl) hr hid
        obtain ⟨g, es, blocks, chunks, hr'⟩ := hopened r hr
        obtain ⟨_, _, hres', hlru, -⟩ := hr'.resolveOrdsCached_eq need (h r hr)
        cases hres.symm.trans hres'
        exact hlru
      · exact (h r hr).resolveOrdsCached hid hres
  intro r hr need
  obtain ⟨g, es, blocks, chunks, h⟩ := hopened r hr
  obtain ⟨res, hres, hplain⟩ := h.resolveOrds_eq need
  obtain ⟨res', lru', hres', -, hcached⟩ := h.resolveOrdsCached_eq need (hholds r hr)
  refine ⟨res, res', lru', hres, hres', fun o => ?_⟩
  by_cases ho : o ∈ need
  · rw [(hcached o).1 ho, (hplain o).1 ho]
  · rw [(hcached o).2 ho, (hplain o).2 ho]

theorem transparent_run_least : ∃ r lru,
    openSegment (write Codecs.verbatim Geometry.least [(invertedKey 0 [97], [])]) 1 = some r ∧
      CacheCall.step Codecs.verbatim (newChunkLRU 0) (.resolve r [0]) = some lru ∧
      lru.Transparent Codecs.verbatim r := by
  have hfits : Fits Codecs.verbatim Geometry.least [(invertedKey 0 [97], [])] :=
    ⟨by decide +kernel, by decide +kernel⟩
  obtain ⟨r, blocks, hopen, h⟩ := exists_opened (fun _ _ => rfl) hfits 1
  obtain ⟨res, lru, hres, -⟩ := h.resolveOrdsCached_eq [0] (ChunkLRU.holds_newChunkLRU 0)
  have hstep : CacheCall.step Codecs.verbatim (newChunkLRU 0) (.resolve r [0]) = some lru :=
    congrArg (Option.map Prod.snd) hres
  refine ⟨r, lru, hopen, hstep, @transparent_run _ lru (fun _ _ => rfl) [r] (by simp) ?_ 0 _
    (.snoc .nil ?_ hstep) r (by simp)⟩
  · intro r' hr'
    cases mem_singleton.1 hr'
    exact ⟨_, _, 1, hfits, hopen⟩
  · rintro _ _ ⟨⟩
    exact mem_singleton_self r

end Haystack.InvertedStore.SegmentFile
