import Haystack.Lib.Decoding
import Haystack.Lib.GoMap
import Haystack.Lib.Sorting

/-!
# Payloads and head records

A payload is a map from property names to tagged scalars. It is stored as a version byte, the number
of properties, and the properties in the order of their names; the lengths of names and strings are
varints, which the decoder turns into signed integers. A head record has lengths of four bytes.
Floating-point numbers are kept as their bits.
-/

namespace Haystack.VectorStore

open Varint Framing Decoding Decoded

def kindString : UInt8 := 1
def kindInt64 : UInt8 := 2
def kindFloat64 : UInt8 := 3
def kindBool : UInt8 := 4

/-- A tagged scalar. The field that the kind selects is the meaningful one. -/
structure Value where
  kind : UInt8
  str : Bytes := []
  int : Int64 := 0
  flt : UInt64 := 0
  bool : Bool := false
  deriving DecidableEq

namespace Value

def ofString (s : Bytes) : Value := { kind := kindString, str := s }
def ofInt64 (i : Int64) : Value := { kind := kindInt64, int := i }
def ofFloat64 (f : UInt64) : Value := { kind := kindFloat64, flt := f }
def ofBool (b : Bool) : Value := { kind := kindBool, bool := b }

/-- The kinds of the encoder. -/
def Known (v : Value) : Prop :=
  v.kind = kindString ∨ v.kind = kindInt64 ∨ v.kind = kindFloat64 ∨ v.kind = kindBool

instance : DecidablePred Known := fun _ => inferInstanceAs (Decidable (_ ∨ _))

/-- The value with its meaningful field only. -/
def canonical (v : Value) : Value :=
  if v.kind = kindString then ofString v.str
  else if v.kind = kindInt64 then ofInt64 v.int
  else if v.kind = kindFloat64 then ofFloat64 v.flt
  else if v.kind = kindBool then ofBool v.bool
  else v

end Value

abbrev Payload := GoMap Bytes Value

def payloadFmtVersion : UInt8 := 1

/-! ### Encoding -/

/-- The kind of a value and its body, as `encodePayload` and `appendValue` write them. -/
def appendValue (v : Value) : Bytes :=
  v.kind ::
    if v.kind = kindString then appendString v.str
    else if v.kind = kindInt64 then littleEndian 8 v.int.toUInt64.toNat
    else if v.kind = kindFloat64 then littleEndian 8 v.flt.toNat
    else if v.kind = kindBool then [if v.bool then 1 else 0]
    else []

/-- The properties in the order in which they are written. -/
def Payload.sorted (p : Payload) : List (Bytes × Value) :=
  StableSort.sortBy Prod.fst (p.entries.map fun e => (e.1, e.2))

def appendEntry (e : Bytes × Value) : Bytes :=
  appendString e.1 ++ appendValue e.2

/-- The error is that of an unknown kind. -/
def encodePayload (p : Payload) : Option Bytes :=
  if ∀ e ∈ p.sorted, e.2.Known then
    some (payloadFmtVersion :: (appendUvarint p.sorted.length ++ p.sorted.flatMap appendEntry))
  else none

/-! ### Decoding -/

/-- `readValue`, which is also how `decodePayload` reads a value. -/
def readValue (b : Bytes) (off : ℕ) : Decoded (Value × ℕ) :=
  if off ≥ b.length then .error
  else getAt b off >>= fun kind =>
    let off := off + 1
    if kind = kindString then prefixed b off >>= fun x => .value (Value.ofString x.1, x.2)
    else if kind = kindInt64 then
      if off + 8 > b.length then .error
      else uintAt 8 b off >>= fun x => .value (Value.ofInt64 (UInt64.ofNat x).toInt64, off + 8)
    else if kind = kindFloat64 then
      if off + 8 > b.length then .error
      else uintAt 8 b off >>= fun x => .value (Value.ofFloat64 (UInt64.ofNat x), off + 8)
    else if kind = kindBool then
      if off + 1 > b.length then .error
      else getAt b off >>= fun x => .value (Value.ofBool (x ≠ 0), off + 1)
    else .error

/-- One turn of the loop of `decodePayload`. -/
def decodeEntry (b : Bytes) (off : ℕ) : Decoded ((Bytes × Value) × ℕ) :=
  prefixed b off >>= fun key => readValue b key.2 >>= fun v => .value ((key.1, v.1), v.2)

/-- The map after the assignments. -/
def Payload.assign (l : List (Bytes × Value)) : Payload :=
  l.foldl (fun p e => p.insert e.1 e.2) ∅

/-- `decodePayload`; `none` is the nil map. -/
def decodePayload (b : Bytes) : Decoded (Option Payload) :=
  if b.length = 0 then .value none
  else getAt b 0 >>= fun version =>
    if version ≠ payloadFmtVersion then .error
    else tail b 1 >>= fun s =>
      match uvarint s with
      | none => .error
      | some (n, rest) =>
        items (decodeEntry b) n (1 + (s.length - rest.length)) >>= fun x =>
          if x.2 ≠ b.length then .error else .value (some (Payload.assign x.1))

/-! ### What a blob says -/

/-- The value at the beginning of some bytes. -/
def scalar : Bytes → Option (Value × Bytes)
  | [] => none
  | kind :: s =>
    if kind = kindString then (readString s).map fun x => (Value.ofString x.1, x.2)
    else if kind = kindInt64 then
      (readUint 8 s).map fun x => (Value.ofInt64 (UInt64.ofNat x.1).toInt64, x.2)
    else if kind = kindFloat64 then
      (readUint 8 s).map fun x => (Value.ofFloat64 (UInt64.ofNat x.1), x.2)
    else if kind = kindBool then
      (takeBytes 1 s).map fun x => (Value.ofBool (x.1 ≠ [0]), x.2)
    else none

/-- The property at the beginning of some bytes. -/
def entry (s : Bytes) : Option ((Bytes × Value) × Bytes) :=
  (readString s).bind fun key => (scalar key.2).map fun v => ((key.1, v.1), v.2)

/-- The value is a string with a huge length. -/
def HugeString (size : ℕ) (s : Bytes) : Prop :=
  ∃ rest, s = kindString :: rest ∧ HugeLength size rest

/-- The name of the property has a huge length, or its value is a string with one. -/
def HugeEntry (size : ℕ) (s : Bytes) : Prop :=
  HugeLength size s ∨ ∃ key rest, readString s = some (key, rest) ∧ HugeString size rest

/-- A blob in which a huge length follows after fewer properties than it announces. -/
def Overlong (b : Bytes) : Prop :=
  ∃ s n rest, b = payloadFmtVersion :: s ∧ uvarint s = some (n, rest) ∧
    Meets entry (HugeEntry b.length) n rest

section Follows

variable {b : Bytes} {off : ℕ}

lemma drop_eq_cons (h : off < b.length) : b.drop off = b[off] :: b.drop (off + 1) :=
  List.drop_eq_getElem_cons h

lemma scalar_of_hugeString {size : ℕ} {s : Bytes} (hsize : size < 2 ^ 63)
    (h : HugeString size s) : scalar s = none := by
  obtain ⟨rest, rfl, h⟩ := h
  rw [scalar, if_pos rfl, readString_of_hugeLength hsize h, Option.map_none]

/-- `readValue` leaves the buffer exactly at a string with a huge length. -/
theorem follows_readValue (hb : b.length < 2 ^ 63) (off : ℕ) :
    Follows b (HugeString b.length (b.drop off)) (readValue b off) (scalar (b.drop off)) := by
  rw [readValue]
  by_cases hend : off ≥ b.length
  · have hnil : b.drop off = [] := List.drop_eq_nil_of_le hend
    rw [if_pos hend, hnil]
    refine ⟨?_, fun _ => .reject⟩
    rintro ⟨rest, h, -⟩
    cases h
  rw [if_neg hend, getAt_of_lt (by omega), value_bind, drop_eq_cons (by omega)]
  have hoff' : off + 1 ≤ b.length := by omega
  have hhuge : HugeString b.length (b[off] :: b.drop (off + 1)) ↔
      b[off] = kindString ∧ HugeLength b.length (b.drop (off + 1)) := by
    constructor
    · rintro ⟨rest, heq, h⟩
      obtain ⟨hkind, rfl⟩ := List.cons.inj heq
      exact ⟨hkind, h⟩
    · rintro ⟨hkind, h⟩
      exact ⟨_, by rw [hkind], h⟩
  refine Follows.congr ?_ hhuge
  rw [scalar]
  dsimp only
  by_cases h1 : b[off] = kindString
  · rw [if_pos h1, if_pos h1]
    exact ((follows_prefixed hb hoff').map Value.ofString).congr (and_iff_right h1)
  rw [if_neg h1, if_neg h1]
  refine Follows.congr (Agrees.follows ?_) (iff_false_intro fun h => h1 h.1)
  have hfixed : ∀ φ : ℕ → Value, Agrees b
      (if off + 1 + 8 > b.length then .error
        else uintAt 8 b (off + 1) >>= fun x => .value (φ x, off + 1 + 8))
      ((readUint 8 (b.drop (off + 1))).map fun x => (φ x.1, x.2)) := by
    intro φ
    have h := agrees_uint 8 hoff'
    by_cases hshort : off + 1 + 8 > b.length
    · rw [if_pos hshort] at h ⊢
      generalize readUint 8 (b.drop (off + 1)) = r at h
      cases h
      exact .reject
    · rw [if_neg hshort, uintAt_of_le (by omega)] at h ⊢
      generalize readUint 8 (b.drop (off + 1)) = r at h
      cases h
      exact .accept _ (by omega)
  by_cases h2 : b[off] = kindInt64
  · rw [if_pos h2, if_pos h2]
    exact hfixed fun x => Value.ofInt64 (UInt64.ofNat x).toInt64
  rw [if_neg h2, if_neg h2]
  by_cases h3 : b[off] = kindFloat64
  · rw [if_pos h3, if_pos h3]
    exact hfixed fun x => Value.ofFloat64 (UInt64.ofNat x)
  rw [if_neg h3, if_neg h3]
  by_cases h4 : b[off] = kindBool
  · rw [if_pos h4, if_pos h4, takeBytes, List.length_drop]
    by_cases hshort : off + 1 + 1 > b.length
    · rw [if_pos hshort, if_neg (by omega)]
      exact .reject
    · rw [if_neg hshort, if_pos (by omega), getAt_of_lt (by omega), value_bind,
        drop_eq_cons (by omega), List.take_succ_cons, List.take_zero, List.drop_succ_cons,
        List.drop_zero, Option.map_some]
      have hbool : decide ([b[off + 1]] ≠ [0]) = decide (b[off + 1] ≠ 0) := by simp
      rw [hbool]
      exact .accept _ (by omega)
  · rw [if_neg h4, if_neg h4]
    exact .reject

lemma entry_of_hugeEntry {size : ℕ} (hsize : size < 2 ^ 63) (s : Bytes) (h : HugeEntry size s) :
    entry s = none := by
  rcases h with h | ⟨key, rest, hread, h⟩
  · rw [entry, readString_of_hugeLength hsize h, Option.bind_none]
  · rw [entry, hread, Option.bind_some, scalar_of_hugeString hsize h, Option.map_none]

theorem follows_decodeEntry (hb : b.length < 2 ^ 63) (hoff : off ≤ b.length) :
    Follows b (HugeEntry b.length (b.drop off)) (decodeEntry b off) (entry (b.drop off)) := by
  rw [decodeEntry, entry]
  refine (follows_prefixed hb hoff).bind (fun _ => HugeString b.length) (fun key off _ => ?_)
    (readString_of_hugeLength hb)
  exact (follows_readValue hb off).map (key, ·)

/-- A blob of the right version with a count. -/
lemma decodePayload_cons {s : Bytes} {n : ℕ} {rest : Bytes} (hread : uvarint s = some (n, rest)) :
    decodePayload (payloadFmtVersion :: s) =
      items (decodeEntry (payloadFmtVersion :: s)) n ((payloadFmtVersion :: s).length - rest.length)
        >>= fun x => if x.2 ≠ (payloadFmtVersion :: s).length then .error
          else .value (some (Payload.assign x.1)) := by
  have hlen := (uvarint_suffix hread).length_le
  have hoff : 1 + (s.length - rest.length) = (payloadFmtVersion :: s).length - rest.length := by
    rw [List.length_cons]
    omega
  rw [decodePayload, if_neg (by simp), getAt_of_lt (by simp), value_bind, List.getElem_cons_zero,
    if_neg (by simp), tail_of_le (by simp), value_bind, List.drop_succ_cons, List.drop_zero, hread]
  dsimp only
  rw [hoff]

/-- The decoder leaves the blob exactly if the blob is overlong. -/
theorem decodePayload_eq_outOfRange_iff (hb : b.length < 2 ^ 63) :
    decodePayload b = .outOfRange ↔ Overlong b := by
  cases b with
  | nil => exact ⟨fun h => by simp [decodePayload] at h, fun ⟨_, _, _, h, _⟩ => by cases h⟩
  | cons v s =>
    by_cases hv : v = payloadFmtVersion
    · subst hv
      cases hread : uvarint s with
      | none =>
        constructor
        · intro h
          simp [decodePayload, getAt, tail, hread] at h
        · rintro ⟨s', n, rest, heq, h, -⟩
          obtain rfl := (List.cons.inj heq).2
          simp [hread] at h
      | some x =>
        obtain ⟨n, rest⟩ := x
        have hsuffix : rest <:+ payloadFmtVersion :: s :=
          (uvarint_suffix hread).trans (List.suffix_cons _ s)
        have hover : Overlong (payloadFmtVersion :: s) ↔
            Meets entry (HugeEntry (payloadFmtVersion :: s).length) n rest := by
          constructor
          · rintro ⟨s', n', rest', heq, h, hmeets⟩
            obtain rfl := (List.cons.inj heq).2
            obtain ⟨rfl, rfl⟩ := Prod.mk.inj (Option.some.inj (hread.symm.trans h))
            exact hmeets
          · exact fun hmeets => ⟨s, n, rest, rfl, hread, hmeets⟩
        have hfollows := follows_items (fun _ => follows_decodeEntry hb) (entry_of_hugeEntry hb) n
          (Nat.sub_le (payloadFmtVersion :: s).length rest.length)
        rw [← List.suffix_iff_eq_drop.1 hsuffix] at hfollows
        rw [decodePayload_cons hread, hover]
        constructor
        · intro h
          by_contra hgood
          refine bind_ne_outOfRange (hfollows.agrees hgood).ne_outOfRange (fun x _ => ?_) h
          split <;> simp
        · intro hbad
          rw [hfollows.leaves hbad]
          rfl
    · constructor
      · intro h
        simp [decodePayload, getAt, hv] at h
      · rintro ⟨s', n, rest, heq, -, -⟩
        exact absurd (List.cons.inj heq).1 hv

end Follows

/-! ### Round trip of payloads -/

section RoundTrip

variable {v : Value} {p : Payload}

lemma scalar_appendValue (hv : v.Known) (hstr : v.kind = kindString → v.str.length < 2 ^ 64)
    (s : Bytes) : scalar (appendValue v ++ s) = some (v.canonical, s) := by
  rw [appendValue, List.cons_append, scalar, Value.canonical]
  by_cases h1 : v.kind = kindString
  · simp only [if_pos h1]
    rw [readString_appendString (hstr h1), Option.map_some]
  simp only [if_neg h1]
  by_cases h2 : v.kind = kindInt64
  · have hlt := v.int.toUInt64.toNat_lt
    simp only [if_pos h2]
    rw [readUint_append, Option.map_some, Nat.mod_eq_of_lt (by norm_num; exact hlt)]
    simp
  simp only [if_neg h2]
  by_cases h3 : v.kind = kindFloat64
  · have hlt := v.flt.toNat_lt
    simp only [if_pos h3]
    rw [readUint_append, Option.map_some, Nat.mod_eq_of_lt (by norm_num; exact hlt)]
    simp
  simp only [if_neg h3]
  have h4 : v.kind = kindBool := by simpa [Value.Known, h1, h2, h3] using hv
  simp only [if_pos h4]
  cases v.bool <;> rfl

/-- The property that comes back. -/
def canonicalEntry (e : Bytes × Value) : Bytes × Value := (e.1, e.2.canonical)

lemma length_str_le_appendValue (h : v.kind = kindString) :
    v.str.length ≤ (appendValue v).length := by
  rw [appendValue, if_pos h, appendString, List.length_cons, List.length_append]
  omega

/-- A property that was written into a blob of possible size is read back. -/
lemma entry_appendEntry {e : Bytes × Value} (he : e.2.Known) (hlen : (appendEntry e).length < 2 ^ 64)
    (s : Bytes) : entry (appendEntry e ++ s) = some (canonicalEntry e, s) := by
  rw [appendEntry, List.length_append, appendString, List.length_append] at hlen
  rw [appendEntry, List.append_assoc, entry, readString_appendString (by omega), Option.bind_some,
    scalar_appendValue he (fun h => by have := length_str_le_appendValue h; omega), Option.map_some]
  rfl

lemma length_sorted_le (l : List (Bytes × Value)) : l.length ≤ (l.flatMap appendEntry).length := by
  induction l with
  | nil => simp
  | cons e l ih =>
    have hpos := List.length_pos_of_ne_nil (appendUvarint_ne_nil e.1.length)
    rw [List.flatMap_cons, List.length_append, List.length_cons, appendEntry, appendString,
      List.length_append, List.length_append]
    omega

section SortedEntries

variable {V : Type} {m : GoMap Bytes V}

/-- The entries of a map in the order of their keys have different keys. -/
lemma nodup_sortBy_entries :
    ((StableSort.sortBy Prod.fst (m.entries.map fun e => (e.1, e.2))).map Prod.fst).Nodup := by
  have hperm := (StableSort.perm_sortBy Prod.fst (m.entries.map fun e => (e.1, e.2))).map Prod.fst
  refine hperm.nodup_iff.2 ?_
  rw [List.map_map]
  exact m.nodupKeys

lemma mem_sortBy_entries {k : Bytes} {v : V} :
    (k, v) ∈ StableSort.sortBy Prod.fst (m.entries.map fun e => (e.1, e.2)) ↔
      m.lookup k = some v := by
  rw [(StableSort.perm_sortBy _ _).mem_iff, ← GoMap.mem_entries_iff]
  constructor
  · intro h
    obtain ⟨e, he, heq⟩ := List.mem_map.1 h
    obtain ⟨rfl, rfl⟩ := Prod.mk.inj heq
    exact he
  · exact fun h => List.mem_map.2 ⟨_, h, rfl⟩

end SortedEntries

lemma mem_sorted {k : Bytes} : (k, v) ∈ p.sorted ↔ p.lookup k = some v :=
  mem_sortBy_entries

lemma known_of_encodePayload (h : (encodePayload p).isSome) {k : Bytes} (hv : p.lookup k = some v) :
    v.Known := by
  rw [encodePayload] at h
  split at h
  case isTrue hknown => exact hknown (k, v) (mem_sorted.2 hv)
  case isFalse => cases h

/-- The map that is built from the properties. -/
lemma lookup_assign_sorted (p : Payload) (k : Bytes) :
    (Payload.assign (p.sorted.map canonicalEntry)).lookup k =
      (p.lookup k).map Value.canonical := by
  refine GoMap.lookup_foldl_insert_eq (f := fun k => (p.lookup k).map _) (fun {k v} => ?_) k
  rw [List.mem_map, Option.map_eq_some_iff]
  constructor
  · rintro ⟨e, he, heq⟩
    obtain ⟨rfl, rfl⟩ := Prod.mk.inj heq
    exact ⟨e.2, mem_sorted.1 he, rfl⟩
  · rintro ⟨v, hv, rfl⟩
    exact ⟨(k, v), mem_sorted.2 hv, rfl⟩

/-- **Payload round trip.** What is decoded from an encoded payload has the same properties with the
same values, of which only the meaningful fields are kept. -/
theorem decodePayload_encodePayload {b : Bytes} (h : encodePayload p = some b)
    (hb : b.length < 2 ^ 63) :
    ∃ q, decodePayload b = .value (some q) ∧ ∀ k, q.lookup k = (p.lookup k).map Value.canonical := by
  rw [encodePayload] at h
  split at h
  case isFalse => cases h
  case isTrue hknown =>
    cases h
    refine ⟨_, ?_, lookup_assign_sorted p⟩
    set body := p.sorted.flatMap appendEntry with hbody
    have hcount := length_sorted_le p.sorted
    rw [← hbody] at hcount
    have hlen : body.length < 2 ^ 63 := by
      rw [List.length_cons, List.length_append] at hb
      omega
    have hread : uvarint (appendUvarint p.sorted.length ++ body) = some (p.sorted.length, body) :=
      uvarint_appendUvarint (by omega) body
    have hitems : readItems entry p.sorted.length body =
        some (p.sorted.map canonicalEntry, []) := by
      have hentry : ∀ e ∈ p.sorted, ∀ s, entry (appendEntry e ++ s) = some (canonicalEntry e, s) := by
        intro e he
        refine entry_appendEntry (hknown e he) ?_
        have hsub : (appendEntry e).Sublist (p.sorted.map appendEntry).flatten :=
          List.sublist_flatten_of_mem (List.mem_map_of_mem he)
        have := hsub.length_le
        rw [← List.flatMap_def, ← hbody] at this
        omega
      have := readItems_flatMap hentry []
      rwa [List.append_nil] at this
    have hsuffix : body <:+ payloadFmtVersion :: (appendUvarint p.sorted.length ++ body) :=
      (List.suffix_append _ _).trans (List.suffix_cons _ _)
    have hfollows := follows_items (fun _ => follows_decodeEntry hb) (entry_of_hugeEntry hb)
      p.sorted.length (Nat.sub_le _ body.length)
    rw [← List.suffix_iff_eq_drop.1 hsuffix, hitems] at hfollows
    have hgood : ¬ Meets entry
        (HugeEntry (payloadFmtVersion :: (appendUvarint p.sorted.length ++ body)).length)
        p.sorted.length body := by
      intro hmeets
      rw [readItems_eq_none_of_meets (entry_of_hugeEntry hb) hmeets] at hitems
      cases hitems
    obtain ⟨off, hoff, hgo, hend⟩ := (hfollows.agrees hgood).eq_value
    have hstop : off = (payloadFmtVersion :: (appendUvarint p.sorted.length ++ body)).length := by
      have := congrArg List.length hend
      rw [List.length_drop, List.length_nil] at this
      omega
    rw [decodePayload_cons hread, hgo, value_bind, hstop]
    simp

end RoundTrip

/-! ### Head records -/

/-- A row of the head; the numbers of the vector are kept as their bits. -/
structure HeadRecord where
  id : Bytes
  docID : Int64
  stored : List UInt32
  norm : UInt32
  payload : Bytes
  deriving DecidableEq

/-- Everything but the document id, which is the key. Lengths are cut to 32 bits. -/
def encodeHeadValue (r : HeadRecord) : Bytes :=
  littleEndian 4 r.id.length ++ (r.id ++ (littleEndian 4 r.norm.toNat ++
    (littleEndian 4 r.stored.length ++ ((r.stored.map UInt32.toNat).flatMap (littleEndian 4) ++
      (littleEndian 4 r.payload.length ++ r.payload)))))

def decodeHeadValue (docID : Int64) (v : Bytes) : Decoded HeadRecord :=
  if v.length < 4 then .error
  else uintAt 4 v 0 >>= fun idLen =>
    let off := 4
    if off + idLen + 4 + 4 > v.length then .error
    else slice v off (off + idLen : ℕ) >>= fun id =>
      let off := off + idLen
      uintAt 4 v off >>= fun norm =>
        let off := off + 4
        uintAt 4 v off >>= fun n =>
          let off := off + 4
          if off + n * 4 + 4 > v.length then .error
          else items (fun off => uintAt 4 v off >>= fun x => .value (x, off + 4)) n off >>=
            fun stored =>
              let off := stored.2
              uintAt 4 v off >>= fun pl =>
                let off := off + 4
                if off + pl > v.length then .error
                else slice v off (off + pl : ℕ) >>= fun payload =>
                  .value ⟨id, docID, stored.1.map UInt32.ofNat, UInt32.ofNat norm, payload⟩

/-- The record at the beginning of some bytes. -/
def headRecord (docID : Int64) (v : Bytes) : Option HeadRecord :=
  (readUint 4 v).bind fun idLen => (takeBytes idLen.1 idLen.2).bind fun id =>
    (readUint 4 id.2).bind fun norm => (readUint 4 norm.2).bind fun n =>
      (readItems (readUint 4) n.1 n.2).bind fun stored => (readUint 4 stored.2).bind fun pl =>
        (takeBytes pl.1 pl.2).map fun payload =>
          ⟨id.1, docID, stored.1.map UInt32.ofNat, UInt32.ofNat norm.1, payload.1⟩

/-- The decoder of head records stays in its buffer and accepts what begins with a record. -/
theorem decodeHeadValue_eq (docID : Int64) (v : Bytes) :
    decodeHeadValue docID v = .ofOption (headRecord docID v) := by
  have hfirst : readUint 4 v = if 4 ≤ v.length then
      some (ofLittleEndian ((v.drop 0).take 4), v.drop 4) else none := by
    have := readUint_drop 4 (Nat.zero_le v.length)
    rwa [Nat.zero_add, List.drop_zero] at this
  rw [decodeHeadValue, headRecord, hfirst]
  by_cases h0 : v.length < 4
  · rw [if_pos h0, if_neg (by omega)]
    rfl
  rw [if_neg h0, if_pos (by omega), uintAt_of_le (by omega), value_bind, Option.bind_some]
  generalize ofLittleEndian ((v.drop 0).take 4) = idLen
  dsimp only
  rw [takeBytes_drop idLen (by omega)]
  by_cases h1 : 4 + idLen + 4 + 4 > v.length
  · rw [if_pos h1]
    by_cases h1' : 4 + idLen ≤ v.length
    · rw [if_pos h1', Option.bind_some, readUint_drop 4 h1']
      by_cases h1'' : 4 + idLen + 4 ≤ v.length
      · rw [if_pos h1'', Option.bind_some, readUint_drop 4 h1'', if_neg (by omega)]
        rfl
      · rw [if_neg h1'']
        rfl
    · rw [if_neg h1']
      rfl
  have hid : 4 + idLen ≤ v.length := by omega
  have hnorm : 4 + idLen + 4 ≤ v.length := by omega
  have hn : 4 + idLen + 4 + 4 ≤ v.length := by omega
  rw [if_neg h1, if_pos hid, slice_of_le hid, value_bind, Option.bind_some, uintAt_of_le hnorm,
    value_bind, readUint_drop 4 hid, if_pos hnorm, Option.bind_some, uintAt_of_le hn, value_bind,
    readUint_drop 4 hnorm, if_pos hn, Option.bind_some]
  generalize ofLittleEndian ((v.drop (4 + idLen + 4)).take 4) = n
  dsimp only
  rw [readItems_readUint 4 n (by omega)]
  by_cases h2 : 4 + idLen + 4 + 4 + n * 4 + 4 > v.length
  · rw [if_pos h2]
    by_cases h2' : 4 + idLen + 4 + 4 + n * 4 ≤ v.length
    · rw [if_pos h2', Option.bind_some, readUint_drop 4 h2', if_neg (by omega)]
      rfl
    · rw [if_neg h2']
      rfl
  have hstored : 4 + idLen + 4 + 4 + n * 4 ≤ v.length := by omega
  have hpl : 4 + idLen + 4 + 4 + n * 4 + 4 ≤ v.length := by omega
  rw [if_neg h2, if_pos hstored, items_uintAt 4 n hstored, value_bind, Option.bind_some]
  dsimp only
  rw [uintAt_of_le hpl, value_bind, readUint_drop 4 hstored, if_pos hpl, Option.bind_some]
  generalize ofLittleEndian ((v.drop (4 + idLen + 4 + 4 + n * 4)).take 4) = pl
  dsimp only
  rw [takeBytes_drop pl (by omega)]
  by_cases h3 : 4 + idLen + 4 + 4 + n * 4 + 4 + pl > v.length
  · rw [if_pos h3, if_neg (by omega)]
    rfl
  · rw [if_neg h3, if_pos (by omega), slice_of_le (by omega), value_bind]
    rfl

/-- The lengths fit 32 bits. -/
structure HeadRecord.Short (r : HeadRecord) : Prop where
  id : r.id.length < 2 ^ 32
  stored : r.stored.length < 2 ^ 32
  payload : r.payload.length < 2 ^ 32

lemma length_of_takeBytes {n : ℕ} {s x rest : Bytes} (h : takeBytes n s = some (x, rest)) :
    x.length = n := by
  rw [takeBytes] at h
  split at h
  case isTrue hn =>
    rw [← (Prod.mk.inj (Option.some.inj h)).1, List.length_take]
    omega
  case isFalse => cases h

lemma length_of_readItems {α : Type} {ref : Bytes → Option (α × Bytes)} {n : ℕ} {s : Bytes}
    {l : List α} {rest : Bytes} (h : readItems ref n s = some (l, rest)) : l.length = n := by
  induction n generalizing s l rest with
  | zero =>
    cases h
    rfl
  | succ n ih =>
    obtain ⟨x, -, h⟩ := Option.bind_eq_some_iff.1 h
    obtain ⟨y, hy, heq⟩ := Option.map_eq_some_iff.1 h
    rw [← (Prod.mk.inj heq).1, List.length_cons, ih (show _ = some (y.1, y.2) from hy)]

/-- The numbers of a vector are read back. -/
lemma readItems_stored (stored : List UInt32) (s : Bytes) :
    readItems (readUint 4) stored.length
      ((stored.map UInt32.toNat).flatMap (littleEndian 4) ++ s) =
        some (stored.map UInt32.toNat, s) := by
  have h := readItems_flatMap (fun n (_ : n ∈ stored.map UInt32.toNat) => readUint_append 4 n) s
  rw [List.length_map] at h
  rw [h, List.map_map]
  congr 2
  refine List.map_congr_left fun x _ => Nat.mod_eq_of_lt ?_
  exact x.toNat_lt

/-- **Head record round trip.** A head record comes back exactly if its lengths fit 32 bits. -/
theorem decodeHeadValue_encodeHeadValue_iff (r : HeadRecord) :
    decodeHeadValue r.docID (encodeHeadValue r) = .value r ↔ r.Short := by
  have hvalue : decodeHeadValue r.docID (encodeHeadValue r) = .value r ↔
      headRecord r.docID (encodeHeadValue r) = some r := by
    rw [decodeHeadValue_eq]
    cases headRecord r.docID (encodeHeadValue r) <;> simp
  have hmod : ∀ n : ℕ, n % 256 ^ 4 = n ↔ n < 2 ^ 32 := fun n => by
    rw [Nat.mod_eq_iff_lt (by norm_num)]
    norm_num
  rw [hvalue, headRecord, encodeHeadValue, readUint_append, Option.bind_some]
  dsimp only
  constructor
  · intro h
    obtain ⟨id, hid, h⟩ := Option.bind_eq_some_iff.1 h
    obtain ⟨norm, hnorm, h⟩ := Option.bind_eq_some_iff.1 h
    obtain ⟨n, hn, h⟩ := Option.bind_eq_some_iff.1 h
    obtain ⟨stored, hstored, h⟩ := Option.bind_eq_some_iff.1 h
    obtain ⟨pl, hpl, h⟩ := Option.bind_eq_some_iff.1 h
    obtain ⟨payload, hpayload, heq⟩ := Option.map_eq_some_iff.1 h
    have hidEq : id.1 = r.id := congrArg HeadRecord.id heq
    have hstoredEq : stored.1.map UInt32.ofNat = r.stored := congrArg HeadRecord.stored heq
    have hpayloadEq : payload.1 = r.payload := congrArg HeadRecord.payload heq
    -- each part has the length in front of it, which places the next part
    have hidShort : r.id.length < 2 ^ 32 := by
      rw [← hmod, ← length_of_takeBytes hid, hidEq]
    rw [(hmod _).2 hidShort, takeBytes_append] at hid
    cases hid
    rw [readUint_append] at hnorm
    cases hnorm
    rw [readUint_append] at hn
    cases hn
    have hstoredLen : stored.1.length = r.stored.length % 256 ^ 4 := length_of_readItems hstored
    have hstoredShort : r.stored.length < 2 ^ 32 := by
      rw [← hmod, ← hstoredLen, ← hstoredEq, List.length_map]
    rw [(hmod _).2 hstoredShort, readItems_stored] at hstored
    cases hstored
    rw [readUint_append] at hpl
    cases hpl
    have hpayloadLen : payload.1.length = r.payload.length % 256 ^ 4 := length_of_takeBytes hpayload
    refine ⟨hidShort, hstoredShort, ?_⟩
    rw [← hmod, ← hpayloadLen, hpayloadEq]
  · rintro ⟨hid, hstored, hpayload⟩
    rw [(hmod _).2 hid, takeBytes_append, Option.bind_some]
    dsimp only
    rw [readUint_append, Option.bind_some]
    dsimp only
    rw [readUint_append, Option.bind_some]
    dsimp only
    rw [(hmod _).2 hstored, readItems_stored, Option.bind_some]
    dsimp only
    have hlast := readUint_append 4 r.payload.length r.payload
    rw [hlast, Option.bind_some]
    dsimp only
    have hall := takeBytes_append r.payload []
    rw [List.append_nil] at hall
    rw [(hmod _).2 hpayload, hall, Option.map_some]
    dsimp only
    have hnorm : UInt32.ofNat (r.norm.toNat % 256 ^ 4) = r.norm := by
      rw [(hmod _).2 r.norm.toNat_lt]
      simp
    have hvec : (r.stored.map UInt32.toNat).map UInt32.ofNat = r.stored := by
      rw [List.map_map]
      exact List.map_id'' (fun x => by simp) r.stored
    rw [hnorm, hvec]

end Haystack.VectorStore
