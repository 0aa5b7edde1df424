import Haystack.Lib.PrefixScan
import Haystack.Lib.KWayMerge
import Haystack.Lib.VersionChain
import Haystack.InvertedStore.Keys

/-!
# Segments

A sealed segment is a sequence of blocks of records together with the dictionary of its keywords:
the keyword of the `n`-th inverted record has ordinal `n`. `SegWriter` packs records into blocks in
the order they are added; a reader finds the block to start from by bisecting the first keys and
stops at the first key past the range (`scanPrefix`).

The records are kept in decoded form. `Segment.WF` is what every segment written from sorted records
satisfies, and under it a scan finds exactly the records with the prefix.
-/

namespace Haystack.InvertedStore

open List

/-- The options the modelled code reads, after `withDefaults`. -/
structure Options where
  capBytes : ℕ
  fanout : ℕ
  maxInstallRetries : ℕ
  /-- Whether the packed current block has reached `BlockTarget`, given the blocks written so far. -/
  blockFull : List (List Rec) → List Rec → Bool
  capBytes_pos : 0 < capBytes
  fanout_pos : 0 < fanout
  maxInstallRetries_pos : 0 < maxInstallRetries

/-- Options under which a segment is one block, for concrete runs. -/
def Options.singleBlock (capBytes fanout : ℕ) (hcap : 0 < capBytes) (hfanout : 0 < fanout) :
    Options :=
  ⟨capBytes, fanout, 3, fun _ _ => false, hcap, hfanout, by decide⟩

/-- An open segment. -/
structure Segment where
  id : ℕ
  blocks : List (List Rec)
  terms : List Keyword
  minDocid : DocId
  maxDocid : DocId
  deriving DecidableEq

/-- `emptyDocidRange`: a span that covers no document. -/
def emptyDocidRange : DocId × DocId :=
  (Int64.maxValue, Int64.minValue)

/-! ### Writing -/

structure SegWriter where
  /-- The blocks flushed so far. -/
  blocks : List (List Rec)
  /-- The current block. -/
  blk : List Rec
  /-- The dictionary: one keyword per inverted record. -/
  terms : List Keyword

def newSegWriter : SegWriter :=
  ⟨[], [], []⟩

variable (opts : Options)

def SegWriter.addEntry (w : SegWriter) (r : Rec) : SegWriter :=
  let blk := w.blk ++ [r]
  let terms := w.terms ++ (r.invKey?.map Prod.snd).toList
  if opts.blockFull w.blocks blk then ⟨w.blocks ++ [blk], [], terms⟩ else ⟨w.blocks, blk, terms⟩

def SegWriter.flushBlock (w : SegWriter) : SegWriter :=
  if w.blk = [] then w else { w with blocks := w.blocks ++ [w.blk], blk := [] }

/-- `finish`, with the id and document span the callers set on the opened segment. -/
def SegWriter.finish (w : SegWriter) (id : ℕ) (span : DocId × DocId) : Segment :=
  let w := w.flushBlock
  ⟨id, w.blocks, w.terms, span.1, span.2⟩

namespace SegWriter

variable {opts} (w : SegWriter)

/-- All records added so far. -/
def recs : List Rec :=
  w.blocks.flatten ++ w.blk

@[simp] lemma recs_new : newSegWriter.recs = [] := rfl

@[simp] lemma recs_addEntry (r : Rec) : (w.addEntry opts r).recs = w.recs ++ [r] := by
  simp only [addEntry, recs]
  split <;> simp

@[simp] lemma terms_addEntry (r : Rec) :
    (w.addEntry opts r).terms = w.terms ++ (r.invKey?.map Prod.snd).toList := by
  simp only [addEntry]
  split <;> rfl

/-- The writer keeps no empty block and one dictionary entry per inverted record. -/
structure WF : Prop where
  blocks_ne : ∀ blk ∈ w.blocks, blk ≠ []
  terms_eq : w.terms = (w.recs.filterMap Rec.invKey?).map Prod.snd

lemma wf_new : newSegWriter.WF :=
  ⟨by simp [newSegWriter], rfl⟩

variable {w}

lemma WF.addEntry (h : w.WF) (r : Rec) : (w.addEntry opts r).WF where
  blocks_ne := by
    simp only [SegWriter.addEntry]
    split
    · simpa [or_imp, forall_and] using h.blocks_ne
    · exact h.blocks_ne
  terms_eq := by
    rw [recs_addEntry, terms_addEntry, h.terms_eq, filterMap_append, map_append]
    cases r <;> rfl

lemma WF.finish (h : w.WF) (id : ℕ) (span : DocId × DocId) :
    (w.finish id span).blocks.flatten = w.recs ∧ (w.finish id span).terms = w.terms ∧
      ∀ blk ∈ (w.finish id span).blocks, blk ≠ [] := by
  unfold SegWriter.finish flushBlock recs
  split
  case isTrue hb => simpa [hb] using h.blocks_ne
  case isFalse hb => simpa [or_imp, forall_and, hb] using h.blocks_ne

end SegWriter

/-! ### Reading -/

namespace Segment

variable (s : Segment)

def coversDocid (d : DocId) : Bool :=
  s.minDocid ≤ d ∧ d ≤ s.maxDocid

/-- The first key of a block, as the block index holds it. -/
def firstKey (blk : List Rec) : Bytes :=
  (blk.head?.map Rec.key).getD []

/-- Whether a key is at or past the end of the range, which is open if there is no end. -/
def pastEnd (hi : Option Bytes) (k : Bytes) : Bool :=
  hi.any fun u => u ≤ k

/-- The records of a block with the prefix `lo`, and whether the scan ran past the range. -/
def scanBlock (lo : Bytes) (hi : Option Bytes) : List Rec → List Rec × Bool
  | [] => ([], false)
  | r :: blk =>
    if pastEnd hi r.key then ([], true)
    else
      let (visited, stop) := scanBlock lo hi blk
      (if lo <+: r.key then r :: visited else visited, stop)

def scanBlocks (lo : Bytes) (hi : Option Bytes) : List (List Rec) → List Rec
  | [] => []
  | blk :: blocks =>
    if pastEnd hi (firstKey blk) then []
    else
      let (visited, stop) := scanBlock lo hi blk
      if stop then visited else visited ++ scanBlocks lo hi blocks

/-- The records visited by `scanPrefix`, in order. The scan starts at the last block whose first key
is not above `lo`. -/
def scanPrefix (lo : Bytes) (hi : Option Bytes) : List Rec :=
  let start := BinarySearch.search s.blocks.length
    (fun i => lo < firstKey (s.blocks[i]?.getD [])) - 1
  scanBlocks lo hi (s.blocks.drop start)

/-- `lookupForward`: the ordinals of the last record visited under the forward key. -/
def lookupForward (t : UInt32) (d : DocId) : Option (List ℕ) :=
  let lo := forwardKey t d
  (s.scanPrefix lo (Bytes.prefixUpper lo)).getLast?.map Rec.ords

/-- `resolveOrds`: the keyword of an ordinal. -/
def resolveOrd (o : ℕ) : Option Keyword :=
  s.terms[o]?

/-! ### Content -/

/-- All records in the order they were written. -/
def recs : List Rec :=
  s.blocks.flatten

/-- Tables and keywords of the inverted records: the `n`-th entry is what ordinal `n` refers to. -/
def invKeys : List (UInt32 × Keyword) :=
  s.recs.filterMap Rec.invKey?

/-- What a sorted, self-contained segment satisfies. -/
structure WF : Prop where
  sorted : KWay.StrictRun Rec.key s.recs
  blocks_ne : ∀ blk ∈ s.blocks, blk ≠ []
  terms_eq : s.terms = s.invKeys.map Prod.snd
  /-- An ordinal of a forward record refers to a keyword of the same table. -/
  ords_ok : ∀ {t d ords}, Rec.fwd t d ords ∈ s.recs →
    ∀ o ∈ ords, ∃ w, s.invKeys[o]? = some (t, w)
  ords_sorted : ∀ {t d ords}, Rec.fwd t d ords ∈ s.recs → ords.Pairwise (· ≤ ·)
  span : ∀ {t d ords}, Rec.fwd t d ords ∈ s.recs → s.minDocid ≤ d ∧ d ≤ s.maxDocid

/-- What every segment satisfies, also one whose forward records are not sorted: the inverted records
come first, in strictly increasing order. -/
structure Laid : Prop where
  blocks_ne : ∀ blk ∈ s.blocks, blk ≠ []
  sorted : KWay.StrictOn Rec.key IsInvKey s.recs

/-- The span of the segment covers the documents of all its forward records. -/
def Spanned : Prop :=
  ∀ {t d ords}, Rec.fwd t d ords ∈ s.recs → s.minDocid ≤ d ∧ d ≤ s.maxDocid

/-- The words of a forward record. -/
def words (ords : List ℕ) : Finset Keyword :=
  (ords.filterMap s.resolveOrd).toFinset

/-- The forward record of a document, if the segment has one. -/
def fwd (t : UInt32) (d : DocId) : Option (Finset Keyword) :=
  (KWay.lookup Rec.key (forwardKey t d) s.recs).map fun r => s.words r.ords

/-- What an inverted record says about a document. -/
def recAct (d : DocId) (r : Rec) : Option Bool :=
  if d ∈ r.dels then some false else if d ∈ r.adds then some true else none

/-- What the segment says about a document under a keyword. -/
def act (t : UInt32) (w : Keyword) (d : DocId) : Option Bool :=
  (KWay.lookup Rec.key (invertedKey t w) s.recs).bind (recAct d)

/-- What the segment says about the documents of a table. -/
def layer (t : UInt32) : Layer DocId Keyword :=
  ⟨s.fwd t, s.act t⟩

variable {s} {t : UInt32} {d : DocId} (lo : Bytes)

/-! ### Scans -/

lemma scanBlock_eq (hi : Option Bytes) (blk : List Rec) :
    scanBlock lo hi blk = PrefixScan.scanBlock Rec.key lo hi blk := by
  induction blk with
  | nil => rfl
  | cons r blk ih =>
    rw [scanBlock, PrefixScan.scanBlock, ih]
    rfl

lemma scanBlocks_eq (hi : Option Bytes) (blocks : List (List Rec)) :
    scanBlocks lo hi blocks = PrefixScan.scanBlocks Rec.key lo hi blocks := by
  induction blocks with
  | nil => rfl
  | cons blk blocks ih =>
    rw [scanBlocks, PrefixScan.scanBlocks, ih, scanBlock_eq]
    rfl

lemma scanPrefix_eq_scan (hi : Option Bytes) :
    s.scanPrefix lo hi = PrefixScan.scan Rec.key lo hi s.blocks :=
  scanBlocks_eq lo hi _

/-- A scan of a well-formed segment visits exactly the records with the prefix. -/
theorem WF.scanPrefix_eq (hs : s.WF) :
    s.scanPrefix lo (Bytes.prefixUpper lo) = s.recs.filter (fun r => lo <+: r.key) := by
  rw [scanPrefix_eq_scan]
  exact PrefixScan.scan_eq_filter hs.blocks_ne (.of_strict hs.sorted lo)

/-! ### Scans of inverted records -/

lemma WF.laid (hs : s.WF) : s.Laid :=
  ⟨hs.blocks_ne, hs.sorted.strictOn _⟩

/-- A scan for keywords relies on the order of the inverted records only. -/
lemma Laid.scanOrdered (h : s.Laid) (t : UInt32) (q : Keyword) :
    PrefixScan.Ordered Rec.key (invertedKey t q) s.recs := by
  refine h.sorted.imp fun {r r'} hlt => ?_
  by_cases hinv : IsInvKey r'.key
  · have hlt := hlt hinv
    exact ⟨fun hlo => hlo.trans hlt, fun hpast => PrefixScan.not_prefix_of_pastEnd hpast hlt.le,
      fun hle => PrefixScan.not_prefix_of_lt (hlt.trans_le hle)⟩
  · cases r' with
    | inv t' w' _ _ => exact absurd (isInvKey_invertedKey t' w') hinv
    | fwd t' d' ords =>
      have hlo : invertedKey t q < (Rec.fwd t' d' ords).key := invertedKey_lt_forwardKey t t' q d'
      refine ⟨fun _ => hlo, fun _ hpre => ?_, fun hle => absurd hlo hle.not_gt⟩
      obtain ⟨w, hw, -⟩ := Rec.invertedKey_prefix_key_iff.1 hpre
      cases hw

lemma Laid.scanPrefix_inv (h : s.Laid) (t : UInt32) (q : Keyword) :
    s.scanPrefix (invertedKey t q) (Bytes.prefixUpper (invertedKey t q)) =
      s.recs.filter fun r => invertedKey t q <+: r.key := by
  rw [scanPrefix_eq_scan]
  exact PrefixScan.scan_eq_filter h.blocks_ne (h.scanOrdered t q)

/-- A scan for all forward records relies on the order of the two kinds only. -/
lemma Laid.scanPrefix_fwd (h : s.Laid) :
    s.scanPrefix [ktForward] (Bytes.prefixUpper [ktForward]) =
      s.recs.filter fun r => [ktForward] <+: r.key := by
  have hfwd : ∀ r : Rec, [ktForward] <+: r.key ↔ [ktForward] < r.key := by
    intro r
    cases r with
    | inv t w _ _ =>
      refine iff_of_false (fun hpre => ?_) fun hlt => ?_
      · exact absurd (cons_prefix_cons.1 hpre).1 (by decide)
      · rcases cons_lt_cons_iff.1 hlt with h | ⟨h, -⟩ <;> exact absurd h (by decide)
    | fwd t d _ =>
      simp [Rec.key, forwardKey, cons_prefix_cons, ktForward, Bytes.bigEndian]
  have hlast : ∀ r : Rec, PrefixScan.pastEnd (Bytes.prefixUpper [ktForward]) r.key = false := by
    intro r
    cases r <;> rfl
  rw [scanPrefix_eq_scan]
  refine PrefixScan.scan_eq_filter h.blocks_ne (h.sorted.imp fun {r r'} hlt => ?_)
  have hkeep : [ktForward] < r.key → [ktForward] < r'.key := by
    intro hr
    by_contra hr'
    have hinv : IsInvKey r'.key := by
      cases r' with
      | inv t w _ _ => exact isInvKey_invertedKey t w
      | fwd t d ords => exact absurd ((hfwd (.fwd t d ords)).1 (by simp [Rec.key, forwardKey])) hr'
    exact hr' (hr.trans (hlt hinv))
  refine ⟨hkeep, fun hpast => ?_, fun hle hpre => hle.not_gt (hkeep ((hfwd r).1 hpre))⟩
  rw [hlast] at hpast
  cases hpast

/-- A point read of a well-formed segment finds the forward record of the document. -/
theorem WF.lookupForward_eq (hs : s.WF) (t : UInt32) (d : DocId) :
    s.lookupForward t d = (KWay.lookup Rec.key (forwardKey t d) s.recs).map Rec.ords := by
  rw [lookupForward, hs.scanPrefix_eq]
  simp only [Rec.forwardKey_prefix_key_iff]
  congr 1
  cases h : KWay.lookup Rec.key (forwardKey t d) s.recs with
  | none =>
    rw [getLast?_eq_none_iff, filter_eq_nil_iff]
    simpa [KWay.lookup] using h
  | some r =>
    obtain ⟨hr, hk⟩ := hs.sorted.lookup_eq_some_iff.1 h
    have hmem : r ∈ s.recs.filter (fun r => r.key = forwardKey t d) := by simp [hr, hk]
    have hr' := getLast?_eq_some_getLast (ne_nil_of_mem hmem)
    rw [hr']
    have := mem_of_getLast? hr'
    simp only [mem_filter, decide_eq_true_eq] at this
    rw [hs.sorted.eq_of_key_eq this.1 hr (this.2.trans hk.symm)]

/-! ### Versions -/

lemma WF.lookup_forwardKey (hs : s.WF) {r : Rec} :
    KWay.lookup Rec.key (forwardKey t d) s.recs = some r ↔ r = .fwd t d r.ords ∧ r ∈ s.recs := by
  rw [hs.sorted.lookup_eq_some_iff, Rec.key_eq_forwardKey, and_comm]

lemma WF.fwd_eq_some_iff (hs : s.WF) {ws : Finset Keyword} :
    s.fwd t d = some ws ↔ ∃ ords, Rec.fwd t d ords ∈ s.recs ∧ s.words ords = ws := by
  simp only [fwd, Option.map_eq_some_iff, hs.lookup_forwardKey]
  constructor
  · rintro ⟨r, ⟨hr, hmem⟩, hws⟩
    exact ⟨r.ords, hr ▸ hmem, hws⟩
  · rintro ⟨ords, hmem, hws⟩
    exact ⟨.fwd t d ords, ⟨rfl, hmem⟩, hws⟩

lemma WF.act_eq_some_iff (hs : s.WF) {w : Keyword} {b : Bool} :
    s.act t w d = some b ↔
      ∃ adds dels, Rec.inv t w adds dels ∈ s.recs ∧ recAct d (.inv t w adds dels) = some b := by
  simp only [act, Option.bind_eq_some_iff, hs.sorted.lookup_eq_some_iff, Rec.key_eq_invertedKey]
  constructor
  · rintro ⟨r, ⟨hmem, hk⟩, hb⟩
    cases r with
    | fwd _ _ _ => simp [Rec.invKey?] at hk
    | inv t' w' adds dels =>
      cases hk
      exact ⟨adds, dels, hmem, hb⟩
  · rintro ⟨adds, dels, hmem, hb⟩
    exact ⟨_, ⟨hmem, rfl⟩, hb⟩

lemma WF.mem_words_iff (hs : s.WF) {ords : List ℕ} (hr : Rec.fwd t d ords ∈ s.recs) {w : Keyword} :
    w ∈ s.words ords ↔ ∃ o ∈ ords, s.invKeys[o]? = some (t, w) := by
  simp only [words, mem_toFinset, mem_filterMap, resolveOrd, hs.terms_eq,
    getElem?_map, Option.map_eq_some_iff]
  constructor
  · rintro ⟨o, ho, ⟨t', w'⟩, hk, rfl⟩
    obtain ⟨w'', hw''⟩ := hs.ords_ok hr o ho
    obtain ⟨rfl, rfl⟩ := Prod.mk.inj (Option.some.inj (hk.symm.trans hw''))
    exact ⟨o, ho, hk⟩
  · rintro ⟨o, ho, hk⟩
    exact ⟨o, ho, _, hk, rfl⟩

/-- Every ordinal of a forward record resolves. -/
lemma WF.resolveOrd_isSome (hs : s.WF) {ords : List ℕ} (hr : Rec.fwd t d ords ∈ s.recs) {o : ℕ}
    (ho : o ∈ ords) : (s.resolveOrd o).isSome := by
  obtain ⟨w, hw⟩ := hs.ords_ok hr o ho
  simp [resolveOrd, hs.terms_eq, hw]

end Segment

end Haystack.InvertedStore
