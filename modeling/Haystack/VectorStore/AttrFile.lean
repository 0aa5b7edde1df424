import Haystack.VectorStore.AttrIndex

/-!
# The file of an attribute index

The index of a sealed segment is written to a file: a header page, the number of properties, and for
each property its kind, its name and the values with their bitmaps. The parser accepts any file that
begins in this way; whatever it rejects is built again from the payloads.
-/

namespace Haystack.VectorStore

open Framing Decoding Decoded

def segPageSize : ℕ := 4096

def magicAttr : Bytes := [86, 83, 65, 84]

/-! ### Writing -/

/-- `appendBitmap`; without a bitmap it panics. -/
def appendBitmap (bm : Option Bitmap) : Option Bytes :=
  bm.map fun bm =>
    littleEndian 4 bm.words.length ++ (bm.words.map UInt64.toNat).flatMap (littleEndian 8)

def sortedValues (m : Postings Value) : List Value :=
  (m.map Prod.fst).insertionSort fun v w => ¬ w.less v

namespace SegAttrIndex

variable (ai : SegAttrIndex)

/-- The values of a property and the bitmaps that the index has for them. -/
def written (prop : Bytes) (kind : AttrKind) : List (Value × Option Bitmap) :=
  if kind = VectorStore.keyword then
    let m := (ai.keyword.lookup prop).getD []
    (sortedValues m).map fun v => (v, LooseMap.find Value.goEq m v)
  else
    let ni := (ai.numeric.lookup prop).getD ⟨[], []⟩
    (ni.values.zip ni.posts).map fun e => (Value.ofFloat64 e.1, e.2)

end SegAttrIndex

def appendAttrEntry (e : Value × Option Bitmap) : Option Bytes :=
  (appendBitmap e.2).map (appendValue e.1 ++ ·)

/-- A property with its entries. The length of the name is cut to 16 bits. -/
def appendProp (kind : AttrKind) (prop : Bytes) (entries : List (Value × Option Bitmap)) :
    Option Bytes :=
  (entries.mapM appendAttrEntry).map fun l =>
    kind :: (littleEndian 2 prop.length ++ (prop ++ (littleEndian 4 entries.length ++ l.flatten)))

/-- The declared properties in the order of their names. -/
def sortedDecls (decls : GoMap Bytes AttrKind) : List (Bytes × AttrKind) :=
  StableSort.sortBy Prod.fst (decls.entries.map fun e => (e.1, e.2))

def attrHeader (n : ℕ) : Bytes :=
  magicAttr ++ List.replicate 4 0 ++ littleEndian 8 n ++ List.replicate (segPageSize - 16) 0

/-- The bytes of `attr.dat`; there are none if `writeAttrFile` panics. -/
def writeAttrFile (ai : SegAttrIndex) (n : ℕ) : Option Bytes :=
  ((sortedDecls ai.decls).mapM fun d => appendProp d.2 d.1 (ai.written d.1 d.2)).map fun l =>
    attrHeader n ++ (littleEndian 4 (sortedDecls ai.decls).length ++ l.flatten)

/-! ### Parsing -/

def readBitmap (b : Bytes) (off : ℕ) : Decoded (Bitmap × ℕ) :=
  if off + 4 > b.length then .error
  else uintAt 4 b off >>= fun nWords =>
    let off := off + 4
    if off + nWords * 8 > b.length then .error
    else items (fun off => uintAt 8 b off >>= fun x => .value (x, off + 8)) nWords off >>=
      fun words => .value (⟨words.1.map UInt64.ofNat⟩, words.2)

/-- A value with its bitmap. -/
def parseEntry (b : Bytes) (off : ℕ) : Decoded ((Value × Bitmap) × ℕ) :=
  readValue b off >>= fun v => readBitmap b v.2 >>= fun bm => .value ((v.1, bm.1), bm.2)

/-- A property as it stands in a file. -/
structure AttrProp where
  kind : AttrKind
  prop : Bytes
  entries : List (Value × Bitmap)

/-- One turn of the loop over the properties. -/
def parseProp (b : Bytes) (off : ℕ) : Decoded (AttrProp × ℕ) :=
  if off ≥ b.length then .error
  else getAt b off >>= fun kind =>
    let off := off + 1
    if off + 2 > b.length then .error
    else uintAt 2 b off >>= fun pl =>
      let off := off + 2
      if off + pl > b.length then .error
      else slice b off (off + pl : ℕ) >>= fun prop =>
        let off := off + pl
        if off + 4 > b.length then .error
        else uintAt 4 b off >>= fun nEntries =>
          items (parseEntry b) nEntries (off + 4) >>= fun entries =>
            .value (⟨kind, prop, entries.1⟩, entries.2)

/-- The index with one more property. -/
def SegAttrIndex.addProp (ai : SegAttrIndex) (p : AttrProp) : SegAttrIndex :=
  if p.kind = VectorStore.keyword then
    let m := p.entries.foldl (fun m e => LooseMap.assign Value.goEq m e.1 e.2) []
    { ai with keyword := ai.keyword.insert p.prop m }
  else
    let ni := ⟨p.entries.map fun e => e.1.flt, p.entries.map fun e => some e.2⟩
    { ai with numeric := ai.numeric.insert p.prop ni }

/-- `parseAttrFile`; an error is the result `false`. -/
def parseAttrFile (b : Bytes) (n : ℕ) (decls : GoMap Bytes AttrKind) : Decoded SegAttrIndex :=
  if b.length < segPageSize + 4 then .error
  else slice b 0 4 >>= fun magic =>
    if magic ≠ magicAttr then .error
    else uintAt 8 b 8 >>= fun count =>
      if count ≠ n % 2 ^ 64 then .error
      else uintAt 4 b segPageSize >>= fun nProps =>
        items (parseProp b) nProps (segPageSize + 4) >>= fun props =>
          .value (props.1.foldl SegAttrIndex.addProp ⟨decls, ∅, ∅⟩)

/-! ### What a file says -/

def bitmapOf (s : Bytes) : Option (Bitmap × Bytes) :=
  (readUint 4 s).bind fun n =>
    (readItems (readUint 8) n.1 n.2).map fun w => (⟨w.1.map UInt64.ofNat⟩, w.2)

def attrEntry (s : Bytes) : Option ((Value × Bitmap) × Bytes) :=
  (scalar s).bind fun v => (bitmapOf v.2).map fun bm => ((v.1, bm.1), bm.2)

def attrProp : Bytes → Option (AttrProp × Bytes)
  | [] => none
  | kind :: s =>
    (readUint 2 s).bind fun pl => (takeBytes pl.1 pl.2).bind fun prop =>
      (readUint 4 prop.2).bind fun n =>
        (readItems attrEntry n.1 n.2).map fun es => (⟨kind, prop.1, es.1⟩, es.2)

/-- A property with a string of huge length among the values that it announces. -/
def HugeProp (size : ℕ) (s : Bytes) : Prop :=
  ∃ kind s₁, s = kind :: s₁ ∧ ∃ pl s₂, readUint 2 s₁ = some (pl, s₂) ∧
    ∃ prop s₃, takeBytes pl s₂ = some (prop, s₃) ∧
      ∃ n s₄, readUint 4 s₃ = some (n, s₄) ∧ Meets attrEntry (HugeString size) n s₄

/-- A file with the right header and such a property among those that it announces. -/
def OverlongAttr (b : Bytes) (n : ℕ) : Prop :=
  segPageSize + 4 ≤ b.length ∧ b.take 4 = magicAttr ∧
    ofLittleEndian ((b.drop 8).take 8) = n % 2 ^ 64 ∧
    ∃ nProps rest, readUint 4 (b.drop segPageSize) = some (nProps, rest) ∧
      Meets attrProp (HugeProp b.length) nProps rest

section Follows

variable {b : Bytes} {off : ℕ}

lemma agrees_readBitmap (hoff : off ≤ b.length) :
    Agrees b (readBitmap b off) (bitmapOf (b.drop off)) := by
  refine (follows_uint hoff 4 (fun _ _ => False) fun n hn => Agrees.follows ?_).agrees (by simp)
  rw [readItems_readUint 8 n hn]
  by_cases hwords : off + 4 + n * 8 > b.length
  · rw [if_pos hwords, if_neg (by omega)]
    exact .reject
  · rw [if_neg hwords, if_pos (by omega), items_uintAt 8 n (by omega), value_bind, Option.map_some]
    exact .accept _ (by omega)

lemma attrEntry_of_hugeString {size : ℕ} (hsize : size < 2 ^ 63) (s : Bytes)
    (h : HugeString size s) : attrEntry s = none := by
  rw [attrEntry, scalar_of_hugeString hsize h, Option.bind_none]

lemma follows_parseEntry (hb : b.length < 2 ^ 63) (off : ℕ) :
    Follows b (HugeString b.length (b.drop off)) (parseEntry b off) (attrEntry (b.drop off)) := by
  refine ((follows_readValue hb off).bind (fun _ _ => False) (fun v off hoff => ?_)
    (scalar_of_hugeString hb)).congr (by simp)
  exact (agrees_readBitmap hoff).follows.map (v, ·)

lemma attrProp_of_hugeProp {size : ℕ} (hsize : size < 2 ^ 63) (s : Bytes) (h : HugeProp size s) :
    attrProp s = none := by
  obtain ⟨kind, s₁, rfl, pl, s₂, h₂, prop, s₃, h₃, n, s₄, h₄, hmeets⟩ := h
  rw [attrProp, h₂, Option.bind_some, h₃, Option.bind_some, h₄, Option.bind_some,
    readItems_eq_none_of_meets (attrEntry_of_hugeString hsize) hmeets, Option.map_none]

theorem follows_parseProp (hb : b.length < 2 ^ 63) (off : ℕ) :
    Follows b (HugeProp b.length (b.drop off)) (parseProp b off) (attrProp (b.drop off)) := by
  rw [parseProp]
  by_cases hend : off ≥ b.length
  · have hnil : b.drop off = [] := List.drop_eq_nil_of_le hend
    rw [if_pos hend, hnil]
    refine ⟨?_, fun _ => .reject⟩
    rintro ⟨_, _, h, _⟩
    cases h
  rw [if_neg hend, getAt_of_lt (by omega), value_bind, drop_eq_cons (by omega), attrProp]
  dsimp only
  have hoff : off + 1 ≤ b.length := by omega
  generalize b[off] = kind
  have hentries : ∀ prop n off, off ≤ b.length →
      Follows b (Meets attrEntry (HugeString b.length) n (b.drop off))
        (items (parseEntry b) n off >>= fun es => .value ((⟨kind, prop, es.1⟩ : AttrProp), es.2))
        ((readItems attrEntry n (b.drop off)).map fun es =>
          ((⟨kind, prop, es.1⟩ : AttrProp), es.2)) := fun prop n off hoff =>
    (follows_items (fun off _ => follows_parseEntry hb off) (attrEntry_of_hugeString hb) n hoff).map
      fun es => (⟨kind, prop, es⟩ : AttrProp)
  have hprop : HugeProp b.length (kind :: b.drop (off + 1)) ↔ ∃ pl s₂,
      readUint 2 (b.drop (off + 1)) = some (pl, s₂) ∧ ∃ prop s₃, takeBytes pl s₂ = some (prop, s₃) ∧
        ∃ n s₄, readUint 4 s₃ = some (n, s₄) ∧ Meets attrEntry (HugeString b.length) n s₄ := by
    constructor
    · rintro ⟨_, s₁, heq, h⟩
      obtain rfl := (List.cons.inj heq).2
      exact h
    · exact fun h => ⟨_, _, rfl, h⟩
  refine Follows.congr ?_ hprop
  refine follows_uint hoff 2 (fun pl s₂ => ∃ prop s₃, takeBytes pl s₂ = some (prop, s₃) ∧
    ∃ n s₄, readUint 4 s₃ = some (n, s₄) ∧ Meets attrEntry (HugeString b.length) n s₄) ?_
  intro pl hpl
  refine follows_slice hpl pl (fun _ s₃ => ∃ n s₄, readUint 4 s₃ = some (n, s₄) ∧
    Meets attrEntry (HugeString b.length) n s₄) ?_
  intro prop hprop
  refine follows_uint hprop 4 (Meets attrEntry (HugeString b.length)) ?_
  intro n hn
  exact hentries prop n _ hn

/-- The parser leaves the file exactly if the file is overlong. -/
theorem parseAttrFile_eq_outOfRange_iff (hb : b.length < 2 ^ 63) (n : ℕ)
    (decls : GoMap Bytes AttrKind) :
    parseAttrFile b n decls = .outOfRange ↔ OverlongAttr b n := by
  rw [parseAttrFile, OverlongAttr]
  by_cases hlen : b.length < segPageSize + 4
  · rw [if_pos hlen]
    simp only [reduceCtorEq, false_iff]
    omega
  have hpage : segPageSize = 4096 := rfl
  have hmagic : slice b 0 4 = .value (b.take 4) := by
    have := @slice_of_le _ b 0 4 (by omega)
    simpa using this
  rw [if_neg hlen, hmagic, value_bind]
  by_cases hm : b.take 4 = magicAttr
  swap
  · simp [hm]
  rw [if_neg (not_not.2 hm), uintAt_of_le (by omega), value_bind]
  by_cases hcount : ofLittleEndian ((b.drop 8).take 8) = n % 2 ^ 64
  swap
  · rw [if_pos hcount]
    exact ⟨fun h => (by cases h), fun h => absurd h.2.2.1 hcount⟩
  rw [if_neg (not_not.2 hcount), uintAt_of_le (by omega), value_bind,
    readUint_drop 4 (by omega), if_pos (by omega)]
  generalize ofLittleEndian ((b.drop segPageSize).take 4) = nProps
  have hfollows := follows_items (fun off _ => follows_parseProp hb off) (attrProp_of_hugeProp hb)
    nProps (show segPageSize + 4 ≤ b.length by omega)
  constructor
  · intro h
    refine ⟨by omega, hm, hcount, nProps, _, rfl, ?_⟩
    by_contra hgood
    exact bind_ne_outOfRange (hfollows.agrees hgood).ne_outOfRange (fun x _ => by simp) h
  · rintro ⟨-, -, -, nProps', rest, heq, hmeets⟩
    cases heq
    rw [hfollows.leaves hmeets]
    rfl

end Follows

/-! ### Decoding of stored records -/

/-- The payload comes back, an empty one as the nil map. -/
def ComesBack (p : Payload) (r : Decoded (Option Payload)) : Prop :=
  ∃ q : Option Payload, r = .value q ∧ (∀ k, (q.getD ∅).lookup k = p.lookup k) ∧
    (p.keys = [] → q = none)

lemma comesBack_iff {p : Payload} {b : Bytes} (h : encodePayload p = some b)
    (hb : b.length < 2 ^ 63) :
    ComesBack p (decodePayload b) ↔
      p.keys ≠ [] ∧ ∀ k v, p.lookup k = some v → v.canonical = v := by
  obtain ⟨q, hq, hlookup⟩ := decodePayload_encodePayload h hb
  rw [hq]
  constructor
  · rintro ⟨q', heq, hsame, hnil⟩
    obtain rfl := Decoded.value.inj heq
    refine ⟨fun hkeys => ?_, fun k v hv => ?_⟩
    · cases hnil hkeys
    · have hk : q.lookup k = p.lookup k := hsame k
      rw [hlookup, hv] at hk
      exact Option.some.inj hk
  · rintro ⟨hkeys, hcanonical⟩
    refine ⟨some q, rfl, fun k => ?_, fun h => absurd h hkeys⟩
    rw [Option.getD_some, hlookup]
    cases hv : p.lookup k with
    | none => rfl
    | some v => rw [Option.map_some, hcanonical k v hv]

/-- **Stored records.** A payload comes back if it is not empty and its values have nothing in their
other fields, and only then; a head record comes back if its lengths fit 32 bits, and only then. The
decoder of payloads and the parser of attribute files leave their buffer at lengths that do not fit
63 bits, and only there; the decoder of head records never does. -/
theorem stored_records_decode (p : Payload) (r : HeadRecord) (b : Bytes) (docID : Int64) (n : ℕ)
    (decls : GoMap Bytes AttrKind) :
    (encodePayload p = some b → b.length < 2 ^ 63 → (ComesBack p (decodePayload b) ↔
      p.keys ≠ [] ∧ ∀ k v, p.lookup k = some v → v.canonical = v)) ∧
    (decodeHeadValue r.docID (encodeHeadValue r) = .value r ↔ r.Short) ∧
    (b.length < 2 ^ 63 → (decodePayload b ≠ .outOfRange ↔ ¬ Overlong b)) ∧
    decodeHeadValue docID b ≠ .outOfRange ∧
    (b.length < 2 ^ 63 → (parseAttrFile b n decls ≠ .outOfRange ↔ ¬ OverlongAttr b n)) := by
  refine ⟨comesBack_iff, decodeHeadValue_encodeHeadValue_iff r,
    fun hb => not_congr (decodePayload_eq_outOfRange_iff hb), ?_,
    fun hb => not_congr (parseAttrFile_eq_outOfRange_iff hb n decls)⟩
  rw [decodeHeadValue_eq]
  cases headRecord docID b <;> simp

/-- One property whose name has the length `2 ^ 64 - 1`: the end of the name is before its
beginning. -/
theorem decodePayload_leaves_blob :
    decodePayload [1, 1, 255, 255, 255, 255, 255, 255, 255, 255, 255, 1] = .outOfRange := by
  decide +kernel

end Haystack.VectorStore
