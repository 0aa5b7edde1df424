import Haystack.Lib.Framing
import Haystack.Lib.GoMap
import Haystack.Lib.PrefixScan
import Haystack.InvertedStore.Keys

/-!
# Segment files

The bytes of a segment file. `segWriter` packs records into compressed blocks; a value longer than
the threshold is written in front of its block, in compressed pieces, and the record points to it. The
keywords of the inverted keys are collected in compressed chunks of a dictionary, which follows the
blocks together with the index of the blocks and a footer of 25 bytes. A record is

* `uvarint(klen) key 0 uvarint(vlen) value` or
* `uvarint(klen) key 1 uvarint(off) uvarint(compLen)`.

Offsets and lengths are natural numbers; ordinals have 32 bits. A reader returns `none` where the
code panics or where the bytes are not those of a writer.
-/

namespace Haystack.InvertedStore.SegmentFile

open Framing Varint

/-- The codecs, by the id that the footer records. -/
structure Codecs where
  compress : UInt8 → Bytes → Bytes
  decompress : UInt8 → Bytes → ℕ → Bytes

/-- Decompressing undoes compressing. -/
def Codecs.Lawful (C : Codecs) : Prop :=
  ∀ id raw, C.decompress id (C.compress id raw) raw.length = raw

/-- The parameters of `newSegWriter`. -/
structure Geometry where
  dataCodec : UInt8
  dictCodec : UInt8
  blockTarget : ℕ
  chunk : ℕ
  threshold : ℕ
  dictChunk : ℕ
  chunk_pos : 0 < chunk

/-- `newSegWriter` replaces a missing chunk size of the dictionary by that of the blocks. -/
def Geometry.dictTarget (g : Geometry) : ℕ :=
  if g.dictChunk = 0 then g.blockTarget else g.dictChunk

variable (C : Codecs) (g : Geometry)

/-! ### Writing -/

/-- `uvarint(rawLen) uvarint(compLen) comp`, the form of blocks and of the pieces of a large value. -/
def framed (id : UInt8) (raw : Bytes) : Bytes :=
  let comp := C.compress id raw
  appendUvarint raw.length ++ (appendUvarint comp.length ++ comp)

/-- The value in pieces of `chunk` bytes. -/
def pieces : ℕ → Bytes → List Bytes
  | 0, _ => []
  | fuel + 1, raw => if raw = [] then [] else raw.take g.chunk :: pieces fuel (raw.drop g.chunk)

/-- The bytes of a large value. -/
def externalBytes (value : Bytes) : Bytes :=
  (pieces g value.length value).flatMap (framed C g.dataCodec)

/-- `segWriter`; its `off` is the length of `out`. -/
structure Writer where
  out : Bytes
  /-- First key and offset of the blocks. -/
  idx : List (Bytes × ℕ)
  blkRaw : Bytes
  blkFirst : Bytes
  blkHave : Bool
  dictRaw : Bytes
  dictRegion : Bytes
  dictOrd : UInt32
  dictChunkFirst : UInt32

def newSegWriter : Writer where
  out := []
  idx := []
  blkRaw := []
  blkFirst := []
  blkHave := false
  dictRaw := []
  dictRegion := []
  dictOrd := 0
  dictChunkFirst := 0

namespace Writer

variable (w : Writer)

/-- The writer, and the offset and the length of the value. -/
def writeExternalValue (raw : Bytes) : Writer × ℕ × ℕ :=
  let b := externalBytes C g raw
  ({ w with out := w.out ++ b }, w.out.length, b.length)

def flushBlock : Writer :=
  if w.blkRaw = [] then w
  else
    { w with
      out := w.out ++ framed C g.dataCodec w.blkRaw
      idx := w.idx ++ [(w.blkFirst, w.out.length)]
      blkRaw := []
      blkHave := false }

def flushDictChunk : Writer :=
  if w.dictRaw = [] then w
  else
    { w with
      dictRegion := w.dictRegion ++
        (appendUvarint w.dictChunkFirst.toNat ++ framed C g.dictCodec w.dictRaw)
      dictRaw := [] }

/-- The part of `addEntry` for the keyword of an inverted key. -/
def addTerm (kw : Bytes) : Writer :=
  let w := if w.dictRaw = [] then { w with dictChunkFirst := w.dictOrd } else w
  let w := { w with dictRaw := w.dictRaw ++ appendString kw, dictOrd := w.dictOrd + 1 }
  if g.dictTarget ≤ w.dictRaw.length then w.flushDictChunk C g else w

def addEntry (key value : Bytes) : Writer :=
  let w := if w.blkHave then w else { w with blkFirst := key, blkHave := true }
  let w := { w with blkRaw := w.blkRaw ++ appendString key }
  let w :=
    if value.length ≤ g.threshold then { w with blkRaw := w.blkRaw ++ 0 :: appendString value }
    else
      let (w, off, len) := w.writeExternalValue C g value
      { w with blkRaw := w.blkRaw ++ 1 :: (appendUvarint off ++ appendUvarint len) }
  let w := if g.blockTarget ≤ w.blkRaw.length then w.flushBlock C g else w
  if key.head? = some ktInverted then w.addTerm C g (key.drop 5) else w

/-- The block index. -/
def blockIndex (idx : List (Bytes × ℕ)) : Bytes :=
  appendUvarint idx.length ++ idx.flatMap fun e => appendString e.1 ++ appendUvarint e.2

/-- The last bytes of a file: the offsets of the block index and of the dictionary, the codecs. -/
def footer (biOff dictOff : ℕ) : Bytes :=
  Bytes.bigEndian 8 biOff ++ (Bytes.bigEndian 8 dictOff ++
    (g.dataCodec :: g.dictCodec :: (Bytes.ofAscii "SRSEG" ++ [0, 0])))

/-- The bytes of the file after `finish`. -/
def finish : Bytes :=
  let w := (w.flushBlock C g).flushDictChunk C g
  let dictOff := w.out.length
  let out := w.out ++ w.dictRegion
  let biOff := out.length
  out ++ (blockIndex w.idx ++ footer g biOff dictOff)

end Writer

/-- The file with the given entries. -/
def write (es : List (Bytes × Bytes)) : Bytes :=
  (es.foldl (fun w e => w.addEntry C g e.1 e.2) newSegWriter).finish C g

/-! ### Opening -/

/-- `segment`, with the bytes of its file. -/
structure Reader where
  file : Bytes
  id : ℕ
  dataCodec : UInt8
  dictCodec : UInt8
  idx : List (Bytes × ℕ)
  biOff : ℕ
  dictOff : ℕ

/-- The entries of the block index. -/
def readEntries : ℕ → Bytes → Option (List (Bytes × ℕ))
  | 0, _ => some []
  | n + 1, bi =>
    (readString bi).bind fun x => (uvarint x.2).bind fun y =>
      (readEntries n y.2).map fun es => (x.1, y.1) :: es

def openSegment (file : Bytes) (id : ℕ) : Option Reader := do
  if file.length < 25 then none
  let sz := file.length
  let foot ← readAt file 25 (sz - 25)
  let biOff := Bytes.ofBigEndian (foot.take 8)
  let dictOff := Bytes.ofBigEndian ((foot.drop 8).take 8)
  let dataCodec ← foot[16]?
  let dictCodec ← foot[17]?
  let bi ← readAt file (sz - 25 - biOff) biOff
  let (nb, bi) ← uvarint bi
  let idx ← readEntries nb bi
  some ⟨file, id, dataCodec, dictCodec, idx, biOff, dictOff⟩

/-! ### Reading records -/

/-- Where the value of a record is. -/
inductive Stored
  | inline (value : Bytes)
  | external (off compLen : ℕ)

/-- One record of a block, and what follows it. -/
def parseRecord (blk : Bytes) : Option ((Bytes × Stored) × Bytes) := do
  let (key, blk) ← readString blk
  match blk with
  | [] => none
  | flag :: blk =>
    if flag = 0 then
      let (value, blk) ← readString blk
      some ((key, .inline value), blk)
    else
      let (off, blk) ← uvarint blk
      let (compLen, blk) ← uvarint blk
      some ((key, .external off compLen), blk)

/-- One piece of a large value, decompressed. -/
def parsePiece (id : UInt8) (buf : Bytes) : Option (Bytes × Bytes) := do
  let (rawLen, buf) ← uvarint buf
  let (compLen, buf) ← uvarint buf
  let (comp, buf) ← takeBytes compLen buf
  some (C.decompress id comp rawLen, buf)

namespace Reader

variable (r : Reader)

/-- `blockBytes` of the block at an offset. The header buffer of 20 bytes may reach past the end of
the file. -/
def blockBytes (off : ℕ) : Option Bytes := do
  let hdr := (r.file.drop off).take 20
  let hdr := hdr ++ List.replicate (20 - hdr.length) 0
  let (rawLen, rest) ← uvarint hdr
  let (compLen, rest) ← uvarint rest
  let comp ← readAt r.file compLen (off + (20 - rest.length))
  some (C.decompress r.dataCodec comp rawLen)

def readExternal (off compLen : ℕ) : Option Bytes := do
  let buf ← readAt r.file compLen off
  loop (parsePiece C r.dataCodec) (fun raw piece => some (raw ++ piece, true)) buf.length [] buf

def value : Stored → Option Bytes
  | .inline value => some value
  | .external off compLen => r.readExternal C off compLen

/-- The callback of `scanPrefix` on a record: the records visited so far and whether the range has
been left, and whether to go on. -/
def visit (lo : Bytes) (hi : Option Bytes) (s : List (Bytes × Bytes) × Bool)
    (rec : Bytes × Stored) : Option ((List (Bytes × Bytes) × Bool) × Bool) :=
  if PrefixScan.pastEnd hi rec.1 then some ((s.1, true), false)
  else if lo <+: rec.1 then (r.value C rec.2).map fun v => ((s.1 ++ [(rec.1, v)], s.2), true)
  else some (s, true)

/-- The blocks of a scan, from the given entries of the index on. -/
def scanBlocks (lo : Bytes) (hi : Option Bytes) :
    List (Bytes × ℕ) → List (Bytes × Bytes) → Option (List (Bytes × Bytes))
  | [], seen => some seen
  | e :: idx, seen =>
    if PrefixScan.pastEnd hi e.1 then some seen
    else do
      let blk ← r.blockBytes C e.2
      let (seen, stop) ← loop parseRecord (r.visit C lo hi) blk.length (seen, false) blk
      if stop then some seen else scanBlocks lo hi idx seen

/-- The records visited by `scanPrefix`, in order. -/
def scanPrefix (lo : Bytes) (hi : Option Bytes) : Option (List (Bytes × Bytes)) :=
  let start := BinarySearch.search r.idx.length
    (fun i => lo < ((r.idx[i]?).map Prod.fst).getD []) - 1
  r.scanBlocks C lo hi (r.idx.drop start) []

/-- `lookupForward`: the value of the last record visited. -/
def lookupForward (key : Bytes) : Option (Option Bytes) :=
  (r.scanPrefix C key (Bytes.prefixUpper key)).map fun recs => recs.getLast?.map Prod.snd

end Reader

/-! ### The merge cursor -/

/-- `mergeCursor`: `blk` is what is left of block `bi`. -/
structure Cursor where
  bi : ℕ
  blk : Bytes
  key : Bytes
  val : Bytes
  done : Bool

namespace Cursor

variable (r : Reader)

/-- `advance`. Each round of its loop reads a record or goes to the next block. -/
def advance : ℕ → Cursor → Option Cursor
  | fuel, c =>
    if c.blk ≠ [] then do
      let ((key, stored), blk) ← parseRecord c.blk
      let val ← r.value C stored
      some { c with blk := blk, key := key, val := val }
    else
      match r.idx[c.bi + 1]? with
      | none => some { c with bi := c.bi + 1, done := true }
      | some e =>
        match fuel with
        | 0 => none
        | fuel + 1 => do
          let blk ← r.blockBytes C e.2
          advance fuel { c with bi := c.bi + 1, blk := blk }

def next (c : Cursor) : Option Cursor :=
  c.advance C r r.idx.length

def newMergeCursor : Option Cursor := do
  let blk ← match r.idx.head? with
    | none => some []
    | some e => r.blockBytes C e.2
  Cursor.next C r ⟨0, blk, [], [], false⟩

/-- The records that a cursor stands on until it is done, if there are at most `fuel`. -/
def records : ℕ → Cursor → Option (List (Bytes × Bytes))
  | 0, c => if c.done then some [] else none
  | fuel + 1, c =>
    if c.done then some []
    else (c.next C r).bind fun c' => (records fuel c').map fun recs => (c.key, c.val) :: recs

end Cursor

/-! ### The dictionary -/

structure DictChunk where
  firstOrd : UInt32
  compOff : ℕ
  compLen : ℕ
  rawLen : ℕ

namespace Reader

variable (r : Reader)

/-- The chunk headers from a position of the dictionary on. -/
def dictIndexFrom : ℕ → ℕ → Option (List DictChunk)
  | fuel, pos =>
    if pos < r.biOff then
      match fuel with
      | 0 => none
      | fuel + 1 => do
        let hdr ← readAt r.file 30 pos
        let (firstOrd, rest) ← uvarint hdr
        let (rawLen, rest) ← uvarint rest
        let (compLen, rest) ← uvarint rest
        let compOff := pos + (30 - rest.length)
        let chunks ← dictIndexFrom fuel (compOff + compLen)
        some (⟨UInt32.ofNat firstOrd, compOff, compLen, rawLen⟩ :: chunks)
    else some []

def ensureDictIndex : Option (List DictChunk) :=
  if r.dictOff = 0 then some [] else r.dictIndexFrom (r.biOff - r.dictOff) r.dictOff

/-- A chunk, decompressed. -/
def readChunk (chunks : List DictChunk) (ci : ℕ) : Option Bytes := do
  let c ← chunks[ci]?
  let comp ← readAt r.file c.compLen c.compOff
  some (C.decompress r.dictCodec comp c.rawLen)

end Reader

/-- The chunk that an ordinal is looked up in: the last one that does not start above it. -/
def chunkOf (chunks : List DictChunk) (o : UInt32) : Option ℕ :=
  match BinarySearch.search chunks.length (fun i => (chunks[i]?).any fun c => o < c.firstOrd) with
  | 0 => none
  | i + 1 => some i

/-- The ordinals wanted from each chunk. -/
def byChunk (chunks : List DictChunk) (need : List UInt32) : GoMap ℕ (List UInt32) :=
  need.foldl (fun m o =>
    match chunkOf chunks o with
    | none => m
    | some i => m.insert i ((m.lookup i).getD [] ++ [o])) ∅

/-- The keywords of the wanted ordinals in a chunk whose first keyword has the ordinal `cur`. -/
def scanTerms (want : List UInt32) (raw : Bytes) (cur : UInt32) (res : GoMap UInt32 Bytes) :
    Option (GoMap UInt32 Bytes) :=
  (loop readString (fun (s : UInt32 × GoMap UInt32 Bytes) term =>
    some ((s.1 + 1, if s.1 ∈ want then s.2.insert s.1 term else s.2), true)) raw.length
    (cur, res) raw).map Prod.snd

/-- The loops that `resolveOrds` and `resolveOrdsCached` share; they differ in how a chunk is
read. -/
def resolveVia {σ : Type} (read : σ → ℕ → Option (Bytes × σ)) (chunks : List DictChunk)
    (need : List UInt32) (s : σ) : Option (GoMap UInt32 Bytes × σ) :=
  (byChunk chunks need).entries.foldlM (fun acc e => do
    let (raw, s) ← read acc.2 e.1
    let c ← chunks[e.1]?
    let res ← scanTerms e.2 raw c.firstOrd acc.1
    some (res, s)) (∅, s)

def Reader.resolveOrds (r : Reader) (need : List UInt32) : Option (GoMap UInt32 Bytes) := do
  let chunks ← r.ensureDictIndex
  let (res, _) ← resolveVia (fun (_ : Unit) ci => (r.readChunk C chunks ci).map fun raw => (raw, ()))
    chunks need ()
  some res

/-! ### The cache of dictionary chunks -/

/-- `chunkLRU`: the chunks by segment id and position, the most recently used first. -/
structure ChunkLRU where
  budget : ℤ
  used : ℤ
  ll : List ((ℕ × ℕ) × Bytes)

def newChunkLRU (budget : ℤ) : ChunkLRU :=
  ⟨if budget ≤ 0 then 2 ^ 25 else budget, 0, []⟩

namespace ChunkLRU

/-- Drop the least recently used chunks while there is more than the budget, but keep one. -/
def evict : ℕ → ChunkLRU → ChunkLRU
  | 0, c => c
  | fuel + 1, c =>
    if c.budget < c.used ∧ 1 < c.ll.length then
      evict fuel { c with
        used := c.used - ((c.ll.getLast?.map fun e => e.2.length).getD 0 : ℕ)
        ll := c.ll.dropLast }
    else c

/-- `get`: the chunk and the cache after it. -/
def get (r : Reader) (chunks : List DictChunk) (c : ChunkLRU) (ci : ℕ) : Option (Bytes × ChunkLRU) :=
  match c.ll.find? fun e => e.1 = (r.id, ci) with
  | some e => some (e.2, { c with ll := e :: c.ll.filter fun x => x.1 ≠ (r.id, ci) })
  | none => (r.readChunk C chunks ci).map fun raw =>
    (raw, evict c.ll.length
      { c with ll := ((r.id, ci), raw) :: c.ll, used := c.used + (raw.length : ℕ) })

/-- `purge`. -/
def purge (c : ChunkLRU) (segId : ℕ) : ChunkLRU :=
  { c with
    used := c.used - (((c.ll.filter fun e => e.1.1 = segId).map fun e => e.2.length).sum : ℕ)
    ll := c.ll.filter fun e => e.1.1 ≠ segId }

end ChunkLRU

def Reader.resolveOrdsCached (r : Reader) (need : List UInt32) (lru : ChunkLRU) :
    Option (GoMap UInt32 Bytes × ChunkLRU) := do
  let chunks ← r.ensureDictIndex
  resolveVia (ChunkLRU.get C r chunks) chunks need lru

end Haystack.InvertedStore.SegmentFile
