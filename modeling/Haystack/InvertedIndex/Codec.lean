import Haystack.Lib.Cut
import Haystack.Lib.Decimal
import Haystack.Lib.Sorting
import Haystack.Lib.Varint

/-!
# Keys and values of the inverted index

A posting row has the key `<type><tableId>|<keyword>|<doccount>|<tick>.<seq>` and a set of document
ids as its value. A keyword may contain the delimiter: the decoder takes the table id before the
first one and the document count and the tick after the last two. The forward map keeps the
keywords of a document, joined by the delimiter, under the key `<type><tableId>|<docid>`.
-/

namespace Haystack.InvertedIndex

open List

abbrev DocId := Int64
abbrev TableId := Int64
abbrev Keyword := Bytes

def keyTypeRow : UInt8 := 20
def keyTypeForward : UInt8 := 11
def invalidId : TableId := -1

/-- The delimiter `|`. -/
def bar : UInt8 := 124

/-- The dot between the tick and the sequence number. -/
def dot : UInt8 := 46

/-! ### Row keys -/

def parseId (key : Bytes) : TableId :=
  match Decimal.atoi key with
  | some v => Int64.ofInt v
  | none => invalidId

def formatId (t : TableId) : Bytes :=
  Decimal.itoa t.toInt

def encodeInvertedKeyPrefix (t : TableId) (w : Keyword) : Bytes :=
  keyTypeRow :: (formatId t ++ bar :: (w ++ [bar]))

def encodeInvertedKey (t : TableId) (w : Keyword) (doccount : Int64) (tick : Int64) (seq : ℕ) :
    Bytes :=
  encodeInvertedKeyPrefix t w ++
    (formatId doccount ++ bar :: (formatId tick ++ dot :: Decimal.natText seq))

/-- What `decodeInvertedKey` returns. -/
structure RowKey where
  tableId : TableId
  keyword : Keyword
  doccount : Int64
  tick : Bytes
  deriving DecidableEq

def RowKey.invalid : RowKey :=
  ⟨invalidId, [], 0, []⟩

/-- The parts of a key after its type: the table id ends at the first delimiter, the document count
starts after the last but one and the tick after the last. -/
def splitKey (key : Bytes) : Option (Bytes × Keyword × Bytes × Bytes) := do
  let (table, body) ← Cut.first bar key
  let (body, tick) ← Cut.last bar body
  let (keyword, doccount) ← Cut.last bar body
  pure (table, keyword, doccount, tick)

def decodeInvertedKey (key : Bytes) : RowKey :=
  if key.head? = some keyTypeRow then
    match splitKey key.tail with
    | none => .invalid
    | some (table, keyword, doccount, tick) =>
      match Decimal.atoi doccount with
      | none => .invalid
      | some n => ⟨parseId table, keyword, Int64.ofInt n, tick⟩
  else .invalid

lemma bar_not_mem_formatId (t : TableId) : bar ∉ formatId t :=
  Decimal.not_mem_itoa rfl (by decide)

lemma atoi_formatId (v : Int64) : Decimal.atoi (formatId v) = some v.toInt :=
  Decimal.atoi_itoa (Int64.le_toInt v) (Int64.toInt_lt v)

@[simp] lemma parseId_formatId (t : TableId) : parseId (formatId t) = t := by
  rw [parseId, atoi_formatId]
  simp

lemma formatId_injective : Function.Injective formatId := fun t t' h => by
  simpa using congrArg parseId h

lemma splitKey_eq_some {s table doccount tick : Bytes} {keyword : Keyword} :
    splitKey s = some (table, keyword, doccount, tick) ↔
      s = table ++ bar :: (keyword ++ bar :: (doccount ++ bar :: tick)) ∧
        bar ∉ table ∧ bar ∉ doccount ∧ bar ∉ tick := by
  unfold splitKey
  simp only [Option.bind_eq_bind, Option.bind_eq_some_iff, Prod.exists, Option.pure_def,
    Option.some.injEq, Prod.mk.injEq, Cut.first_eq_some_iff, Cut.last_eq_some_iff]
  constructor
  · rintro ⟨_, _, ⟨rfl, h₁⟩, _, _, ⟨rfl, h₂⟩, _, _, ⟨rfl, h₃⟩, rfl, rfl, rfl, rfl⟩
    exact ⟨by simp, h₁, h₃, h₂⟩
  · rintro ⟨rfl, h₁, h₃, h₂⟩
    exact ⟨_, _, ⟨rfl, h₁⟩, _, _, ⟨by simp, h₂⟩, _, _, ⟨rfl, h₃⟩, rfl, rfl, rfl, rfl⟩

/-- A row key as the decoder sees it. -/
lemma decodeInvertedKey_cons {table doccount tick : Bytes} {keyword : Keyword} {n : ℤ}
    (htable : bar ∉ table) (hcount : bar ∉ doccount) (htick : bar ∉ tick)
    (hn : Decimal.atoi doccount = some n) :
    decodeInvertedKey
        (keyTypeRow :: (table ++ bar :: (keyword ++ bar :: (doccount ++ bar :: tick))))
      = ⟨parseId table, keyword, Int64.ofInt n, tick⟩ := by
  rw [decodeInvertedKey, if_pos head?_cons, tail_cons,
    splitKey_eq_some.2 ⟨rfl, htable, hcount, htick⟩]
  simp [hn]

theorem decodeInvertedKey_encodeInvertedKey (t : TableId) (w : Keyword) (c tick : Int64) (seq : ℕ) :
    decodeInvertedKey (encodeInvertedKey t w c tick seq)
      = ⟨t, w, c, formatId tick ++ dot :: Decimal.natText seq⟩ := by
  have htick : bar ∉ formatId tick ++ dot :: Decimal.natText seq := by
    have hseq : bar ∉ Decimal.natText seq := fun h =>
      absurd (Decimal.isDigit_of_mem_natText h) (by decide)
    simp only [mem_append, mem_cons, not_or]
    exact ⟨bar_not_mem_formatId tick, by decide, hseq⟩
  have hkey := @decodeInvertedKey_cons _ _ _ w _ (bar_not_mem_formatId t)
    (bar_not_mem_formatId c) htick (atoi_formatId c)
  rw [parseId_formatId, Int64.ofInt_toInt] at hkey
  rw [← hkey]
  congr 1
  simp [encodeInvertedKey, encodeInvertedKeyPrefix]

variable {t t' : TableId}

/-- The sequence number of a key can be read off. -/
lemma seq_of_encodeInvertedKey_eq {w w' : Keyword} {c c' tick tick' : Int64} {seq seq' : ℕ}
    (h : encodeInvertedKey t w c tick seq = encodeInvertedKey t' w' c' tick' seq') :
    seq = seq' := by
  have hdot : ∀ n, dot ∉ Decimal.natText n := fun n hn =>
    absurd (Decimal.isDigit_of_mem_natText hn) (by decide)
  have hform : ∀ (t : TableId) (w : Keyword) (c tick : Int64) (n : ℕ),
      encodeInvertedKey t w c tick n = (encodeInvertedKeyPrefix t w ++
        (formatId c ++ bar :: formatId tick)) ++ dot :: Decimal.natText n := fun t w c tick n => by
    simp [encodeInvertedKey]
  rw [hform, hform] at h
  have := (Cut.append_inj_right (hdot seq) (hdot seq') h).2
  rw [← Decimal.ofDigits_natText seq, this, Decimal.ofDigits_natText]

lemma prefix_encodeInvertedKey (t : TableId) (w : Keyword) (c tick : Int64) (seq : ℕ) :
    encodeInvertedKeyPrefix t w <+: encodeInvertedKey t w c tick seq :=
  prefix_append _ _

/-- Only one table and keyword have a given key in their range, if the keyword is the decoded
one. -/
lemma tableId_unique {w : Keyword} {key : Bytes} (h : encodeInvertedKeyPrefix t w <+: key)
    (h' : encodeInvertedKeyPrefix t' w <+: key) : t = t' := by
  obtain ⟨s, rfl⟩ := h
  obtain ⟨s', hs'⟩ := h'
  simp only [encodeInvertedKeyPrefix, cons_append, append_assoc, cons.injEq,
    true_and] at hs'
  exact formatId_injective
    (Cut.append_inj_left (bar_not_mem_formatId t') (bar_not_mem_formatId t) hs').1.symm

/-! ### Row values -/

/-- Drop an element that equals its successor. -/
def compact : List ℕ → List ℕ
  | a :: b :: l => if a = b then compact (b :: l) else a :: compact (b :: l)
  | l => l

@[simp] lemma mem_compact {l : List ℕ} {a : ℕ} : a ∈ compact l ↔ a ∈ l := by
  induction l using compact.induct with
  | case1 b l ih => rw [compact, if_pos rfl, ih]; simp
  | case2 b c l hne ih => rw [compact, if_neg hne]; simp [ih]
  | case3 l h => rw [compact]; exact h

lemma pairwise_lt_compact {l : List ℕ} (h : l.Pairwise (· ≤ ·)) : (compact l).Pairwise (· < ·) := by
  induction l using compact.induct with
  | case1 b l ih =>
    rw [compact, if_pos rfl]
    exact ih (pairwise_cons.1 h).2
  | case2 b c l hne ih =>
    obtain ⟨hb, hl⟩ := pairwise_cons.1 h
    rw [compact, if_neg hne, pairwise_cons]
    refine ⟨fun a ha => ?_, ih hl⟩
    have hbc : b < c := lt_of_le_of_ne (hb c (by simp)) hne
    rcases mem_cons.1 (mem_compact.1 ha) with rfl | ha
    · exact hbc
    · exact hbc.trans_le ((pairwise_cons.1 hl).1 a ha)
  | case3 l hl =>
    cases l with
    | nil => simp [compact]
    | cons a l =>
      cases l with
      | nil => simp [compact]
      | cons b l => exact absurd rfl (hl a b l)

def encodeGaps (prev : ℕ) : List ℕ → Bytes
  | [] => []
  | u :: us => Varint.appendUvarint (u - prev) ++ encodeGaps u us

/-- The document ids as unsigned numbers, sorted and without repetitions. -/
def sortedIds (docids : List DocId) : List ℕ :=
  compact (StableSort.sortBy id (docids.map fun d => d.toUInt64.toNat))

/-- `encodeInvertedValueCounted`: the gaps between the sorted ids, and the number of ids. -/
def encodeInvertedValueCounted (docids : List DocId) : Bytes × ℕ :=
  (encodeGaps 0 (sortedIds docids), (sortedIds docids).length)

def decodeGaps : ℕ → ℕ → Bytes → List DocId
  | 0, _, _ => []
  | fuel + 1, cur, data =>
    if data = [] then []
    else
      match Varint.uvarint data with
      | none => []
      | some (delta, rest) =>
        (UInt64.ofNat (cur + delta)).toInt64 ::
          decodeGaps fuel ((cur + delta) % 2 ^ 64) rest

/-- `decodeInvertedValue`: sum up the gaps, up to the first malformed one. -/
def decodeInvertedValue (data : Bytes) : List DocId :=
  decodeGaps data.length 0 data

lemma decodeGaps_encodeGaps {us : List ℕ} {prev fuel : ℕ} (hsorted : us.Pairwise (· < ·))
    (hprev : ∀ u ∈ us, prev ≤ u) (hlt : ∀ u ∈ us, u < 2 ^ 64)
    (hfuel : (encodeGaps prev us).length ≤ fuel) :
    decodeGaps fuel prev (encodeGaps prev us) = us.map fun u => (UInt64.ofNat u).toInt64 := by
  induction us generalizing prev fuel with
  | nil => cases fuel <;> rfl
  | cons u us ih =>
    obtain ⟨hu, hus⟩ := pairwise_cons.1 hsorted
    have hpu : prev ≤ u := hprev u (by simp)
    have hu64 : u < 2 ^ 64 := hlt u (by simp)
    have hne := Varint.appendUvarint_ne_nil (u - prev)
    have hpos := length_pos_of_ne_nil hne
    rw [encodeGaps] at hfuel ⊢
    rw [length_append] at hfuel
    cases fuel with
    | zero => omega
    | succ fuel =>
      have hsum : prev + (u - prev) = u := by omega
      rw [decodeGaps, if_neg (by simp [hne]), Varint.uvarint_appendUvarint (by omega)]
      dsimp only
      rw [hsum, Nat.mod_eq_of_lt hu64, map_cons,
        ih hus (fun a ha => (hu a ha).le) (fun a ha => hlt a (by simp [ha])) (by omega)]

variable {docids : List DocId}

lemma mem_sortedIds {u : ℕ} : u ∈ sortedIds docids ↔ ∃ d ∈ docids, d.toUInt64.toNat = u := by
  simp [sortedIds]

lemma pairwise_sortedIds (docids : List DocId) : (sortedIds docids).Pairwise (· < ·) :=
  pairwise_lt_compact (StableSort.pairwise_sortBy id _)

lemma lt_of_mem_sortedIds {u : ℕ} (hu : u ∈ sortedIds docids) : u < 2 ^ 64 := by
  obtain ⟨d, -, rfl⟩ := mem_sortedIds.1 hu
  exact d.toUInt64.toNat_lt

lemma decode_encode (docids : List DocId) :
    decodeInvertedValue (encodeInvertedValueCounted docids).1 =
      (sortedIds docids).map fun u => (UInt64.ofNat u).toInt64 :=
  decodeGaps_encodeGaps (pairwise_sortedIds docids) (fun _ _ => Nat.zero_le _)
    (fun _ => lt_of_mem_sortedIds) le_rfl

/-- A row's value decodes to the ids it was written with. -/
theorem mem_decode_encode {d : DocId} :
    d ∈ decodeInvertedValue (encodeInvertedValueCounted docids).1 ↔ d ∈ docids := by
  rw [decode_encode, mem_map]
  constructor
  · rintro ⟨u, hu, rfl⟩
    obtain ⟨d, hd, rfl⟩ := mem_sortedIds.1 hu
    simpa using hd
  · intro hd
    exact ⟨_, mem_sortedIds.2 ⟨d, hd, rfl⟩, by simp⟩

/-- The loop that `Search` and `GetDocs` have of their own: it puts each id into the results. -/
def collectGaps : ℕ → UInt64 → Bytes → Finset DocId → Finset DocId
  | 0, _, _, docIds => docIds
  | fuel + 1, cur, value, docIds =>
    if value = [] then docIds
    else
      match Varint.uvarint value with
      | none => docIds
      | some (delta, rest) =>
        collectGaps fuel (cur + UInt64.ofNat delta) rest
          (insert (cur + UInt64.ofNat delta).toInt64 docIds)

/-- It collects what `decodeInvertedValue` lists, for any bytes. -/
lemma collectGaps_eq (fuel : ℕ) (cur : UInt64) (value : Bytes) (docIds : Finset DocId) :
    collectGaps fuel cur value docIds =
      docIds ∪ (decodeGaps fuel cur.toNat value).toFinset := by
  induction fuel generalizing cur value docIds with
  | zero => simp [collectGaps, decodeGaps]
  | succ fuel ih =>
    rw [collectGaps, decodeGaps]
    split
    case isTrue => simp
    case isFalse =>
      cases Varint.uvarint value with
      | none => simp
      | some x =>
        have hcur : UInt64.ofNat (cur.toNat + x.1) = cur + UInt64.ofNat x.1 := by
          rw [UInt64.ofNat_add, UInt64.ofNat_toNat]
        have hmod : (cur.toNat + x.1) % 2 ^ 64 = (cur + UInt64.ofNat x.1).toNat := by
          rw [← hcur, UInt64.toNat_ofNat']
        dsimp only
        rw [ih, hcur, hmod, toFinset_cons, Finset.insert_union, Finset.union_insert]

/-- **Posting values.** Whatever the ids of a row, its value decodes to the distinct ones in unsigned
order, the loops of the searches collect the same ids, and the count is their number. -/
theorem posting_value_codec (docids : List DocId) :
    let value := encodeInvertedValueCounted docids
    (decodeInvertedValue value.1).Pairwise (fun d d' => d.toUInt64 < d'.toUInt64) ∧
      (∀ d, d ∈ decodeInvertedValue value.1 ↔ d ∈ docids) ∧
      (∀ docIds, collectGaps value.1.length 0 value.1 docIds = docIds ∪ docids.toFinset) ∧
      value.2 = (decodeInvertedValue value.1).length := by
  intro value
  refine ⟨?_, fun d => mem_decode_encode, fun docIds => ?_, ?_⟩
  · rw [decode_encode, pairwise_map]
    refine (pairwise_sortedIds docids).imp_of_mem fun {u u'} hu hu' hlt => ?_
    have hu := lt_of_mem_sortedIds hu
    have hu' := lt_of_mem_sortedIds hu'
    rw [UInt64.toUInt64_toInt64, UInt64.toUInt64_toInt64, UInt64.lt_iff_toNat_lt,
      UInt64.toNat_ofNat_of_lt' hu, UInt64.toNat_ofNat_of_lt' hu']
    exact hlt
  · rw [collectGaps_eq]
    congr 1
    ext d
    rw [mem_toFinset, mem_toFinset]
    exact mem_decode_encode
  · rw [decode_encode, length_map]
    rfl

/-! ### The forward map -/

def encodeForwardKey (t : TableId) (d : DocId) : Bytes :=
  keyTypeForward :: (formatId t ++ bar :: Bytes.bigEndian 8 d.toUInt64.toNat)

def encodeForwardValue (keywords : List Keyword) : Bytes :=
  [bar].intercalate keywords

/-- An empty value decodes to no keyword, not to one empty keyword. -/
def decodeForwardValue (data : Bytes) : List Keyword :=
  if data = [] then [] else data.splitOn bar

lemma encodeForwardKey_inj {d d' : DocId} (h : encodeForwardKey t d = encodeForwardKey t' d') :
    t = t' ∧ d = d' := by
  obtain ⟨ht, hd⟩ := Cut.append_inj_left (bar_not_mem_formatId t) (bar_not_mem_formatId t')
    (cons.inj h).2
  refine ⟨formatId_injective ht, Int64.toNat_toUInt64_inj.1 ?_⟩
  have hlt : ∀ d : DocId, d.toUInt64.toNat % 256 ^ 8 = d.toUInt64.toNat := fun d =>
    Nat.mod_eq_of_lt d.toUInt64.toNat_lt
  rw [← hlt d, ← hlt d']
  exact (Bytes.bigEndian_inj 8 _ _).1 hd

/-- Non-empty keywords without the delimiter survive the forward map. -/
theorem decodeForwardValue_encodeForwardValue {keywords : List Keyword}
    (h : ∀ w ∈ keywords, w ≠ [] ∧ bar ∉ w) :
    decodeForwardValue (encodeForwardValue keywords) = keywords := by
  cases keywords with
  | nil => rfl
  | cons w ws =>
    have hsplit := splitOn_intercalate bar (fun l hl => (h l hl).2)
      (cons_ne_nil w ws)
    have hne : encodeForwardValue (w :: ws) ≠ [] := by
      intro hnil
      rw [encodeForwardValue] at hnil
      rw [hnil] at hsplit
      have : w :: ws = [[]] := by simpa using hsplit.symm
      exact (h w (by simp)).1 (by simpa using (cons.inj this).1)
    rw [decodeForwardValue, if_neg hne]
    exact hsplit

end Haystack.InvertedIndex
