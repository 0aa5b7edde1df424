import Haystack.Lib.Bytes

/-!
# Keys and records of a segment

A segment holds two kinds of records under one byte order: an inverted record
`[I] tableId keyword -> (adds, dels)` and a forward record `[F] tableId docid -> ordinals`. Keys are
the bytes that `invertedKey` and `forwardKey` build; every inverted key sorts before every forward
key.
-/

namespace Haystack.InvertedStore

open List

/-- A document id, `int64`. -/
abbrev DocId := Int64

/-- A table id as the callers pass it, Go's `int`. -/
abbrev TableId := Int64

abbrev Keyword := Bytes

/-- A condition on the ids of a list is decided along the list, not along all 64-bit integers. -/
instance (priority := high) decidableBAllInt64 (l : List Int64) (p : Int64 → Prop)
    [DecidablePred p] : Decidable (∀ i ∈ l, p i) :=
  List.decidableBAll p l

/-- `uint32(tableId)`: the part of a table id that the keys keep. -/
def tid (t : TableId) : UInt32 :=
  t.toUInt64.toUInt32

/-- `int(tid)`: the table id read back from a key. -/
def ofTid (t : UInt32) : TableId :=
  t.toUInt64.toInt64

/-- A table id that the four bytes of a key can hold. -/
def Fits (t : TableId) : Prop :=
  ofTid (tid t) = t

instance (t : TableId) : Decidable (Fits t) :=
  inferInstanceAs (Decidable (ofTid (tid t) = t))

lemma tid_inj {t t' : TableId} (h : Fits t) (h' : Fits t') : tid t = tid t' ↔ t = t' :=
  ⟨fun heq => by rw [← h, ← h', heq], fun heq => heq ▸ rfl⟩

@[simp] lemma tid_ofTid (t : UInt32) : tid (ofTid t) = t := by
  simp [tid, ofTid]

lemma fits_ofTid (t : UInt32) : Fits (ofTid t) := by
  rw [Fits, tid_ofTid]

/-! ### Keys -/

def ktInverted : UInt8 := 0x01

def ktForward : UInt8 := 0x02

def invertedKey (t : UInt32) (w : Keyword) : Bytes :=
  ktInverted :: (Bytes.bigEndian 4 t.toNat ++ w)

def forwardKey (t : UInt32) (d : DocId) : Bytes :=
  ktForward :: (Bytes.bigEndian 4 t.toNat ++ Bytes.bigEndian 8 d.toUInt64.toNat)

def forwardKeyPrefix (t : UInt32) : Bytes :=
  ktForward :: Bytes.bigEndian 4 t.toNat

variable {t t' : UInt32}

lemma bigEndian_tid_inj : Bytes.bigEndian 4 t.toNat = Bytes.bigEndian 4 t'.toNat ↔ t = t' := by
  have ht := t.toNat_lt
  have ht' := t'.toNat_lt
  rw [Bytes.bigEndian_inj, Nat.mod_eq_of_lt (by omega), Nat.mod_eq_of_lt (by omega),
    UInt32.toNat_inj]

variable {d d' : DocId}

lemma bigEndian_docid_inj :
    Bytes.bigEndian 8 d.toUInt64.toNat = Bytes.bigEndian 8 d'.toUInt64.toNat ↔ d = d' := by
  have hd := d.toUInt64.toNat_lt
  have hd' := d'.toUInt64.toNat_lt
  rw [Bytes.bigEndian_inj, Nat.mod_eq_of_lt (by omega), Nat.mod_eq_of_lt (by omega),
    Int64.toNat_toUInt64_inj]

@[simp] lemma invertedKey_inj {w w' : Keyword} :
    invertedKey t w = invertedKey t' w' ↔ t = t' ∧ w = w' := by
  refine ⟨fun h => ?_, fun ⟨ht, hw⟩ => ht ▸ hw ▸ rfl⟩
  obtain ⟨ht, hw⟩ := append_inj (cons.inj h).2 (by simp)
  exact ⟨bigEndian_tid_inj.1 ht, hw⟩

@[simp] lemma forwardKey_inj : forwardKey t d = forwardKey t' d' ↔ t = t' ∧ d = d' := by
  refine ⟨fun h => ?_, fun ⟨ht, hd⟩ => ht ▸ hd ▸ rfl⟩
  obtain ⟨ht, hd⟩ := append_inj (cons.inj h).2 (by simp)
  exact ⟨bigEndian_tid_inj.1 ht, bigEndian_docid_inj.1 hd⟩

@[simp] lemma length_forwardKey (t : UInt32) (d : DocId) : (forwardKey t d).length = 13 := by
  simp [forwardKey]

lemma invertedKey_lt_forwardKey (t t' : UInt32) (w : Keyword) (d : DocId) :
    invertedKey t w < forwardKey t' d :=
  cons_lt_cons_iff.2 (.inl (by decide))

variable {t : UInt32}

lemma invertedKey_lt_iff {w w' : Keyword} : invertedKey t w < invertedKey t w' ↔ w < w' := by
  simp [invertedKey, Bytes.append_lt_append_left_iff]

lemma forwardKey_lt_iff :
    forwardKey t d < forwardKey t d' ↔ d.toUInt64.toNat < d'.toUInt64.toNat := by
  have hd := d.toUInt64.toNat_lt
  have hd' := d'.toUInt64.toNat_lt
  simp only [forwardKey, cons_lt_cons_iff, lt_irrefl, true_and, false_or,
    Bytes.append_lt_append_left_iff, Bytes.bigEndian_lt_iff]
  rw [Nat.mod_eq_of_lt (by omega), Nat.mod_eq_of_lt (by omega)]

/-- Forward keys of one table follow the order of the document ids from zero up. A negative id has
its high bit set in the key and sorts above all of them. -/
lemma forwardKey_lt_of_lt (hd : 0 ≤ d) (h : d < d') : forwardKey t d < forwardKey t d' :=
  forwardKey_lt_iff.2 (Int64.toNat_toUInt64_lt_of_lt hd h)

/-- A key of the first kind. -/
def IsInvKey (k : Bytes) : Prop :=
  k.head? = some ktInverted

lemma isInvKey_invertedKey (t : UInt32) (w : Keyword) : IsInvKey (invertedKey t w) := rfl

lemma not_isInvKey_forwardKey (t : UInt32) (d : DocId) : ¬IsInvKey (forwardKey t d) := by
  simp [IsInvKey, forwardKey, ktInverted, ktForward]

/-! ### Records -/

/-- A record. The key and the kind of value go together: an inverted record holds the sorted
distinct documents it adds to and removes from its keyword, a forward record the sorted ordinals of
the document's keywords in the segment's dictionary. A forward record without ordinals is the
tombstone of the document. -/
inductive Rec where
  | inv (t : UInt32) (w : Keyword) (adds dels : List DocId)
  | fwd (t : UInt32) (d : DocId) (ords : List ℕ)
  deriving DecidableEq

namespace Rec

def key : Rec → Bytes
  | inv t w _ _ => invertedKey t w
  | fwd t d _ => forwardKey t d

/-- `keyTableId`. -/
def tableId : Rec → UInt32
  | inv t _ _ _ => t
  | fwd t _ _ => t

/-- The table and keyword of an inverted record. -/
def invKey? : Rec → Option (UInt32 × Keyword)
  | inv t w _ _ => some (t, w)
  | fwd _ _ _ => none

/-- The document and ordinals of a forward record. -/
def fwd? : Rec → Option (DocId × List ℕ)
  | inv _ _ _ _ => none
  | fwd _ d ords => some (d, ords)

def adds : Rec → List DocId
  | inv _ _ adds _ => adds
  | fwd _ _ _ => []

def dels : Rec → List DocId
  | inv _ _ _ dels => dels
  | fwd _ _ _ => []

def ords : Rec → List ℕ
  | inv _ _ _ _ => []
  | fwd _ _ ords => ords

variable {r : Rec}

lemma key_eq_invertedKey {w : Keyword} : r.key = invertedKey t w ↔ r.invKey? = some (t, w) := by
  cases r with
  | inv t' w' _ _ => simp [key, invKey?]
  | fwd t' d' _ =>
    have h := invertedKey_lt_forwardKey t t' w d'
    simp only [key, invKey?, reduceCtorEq, iff_false]
    exact fun heq => h.ne heq.symm

lemma key_eq_forwardKey {d : DocId} : r.key = forwardKey t d ↔ r = fwd t d r.ords := by
  cases r with
  | inv t' w' _ _ =>
    have h := invertedKey_lt_forwardKey t' t w' d
    simp only [key, reduceCtorEq, iff_false]
    exact h.ne
  | fwd t' d' _ => simp [key, ords]

/-- The keyword of an inverted record is what follows the key type and the table id. -/
lemma drop_key {w : Keyword} (h : r.invKey? = some (t, w)) : r.key.drop 5 = w := by
  rw [key_eq_invertedKey.2 h]
  simp [invertedKey]

lemma invertedKey_prefix_invertedKey {q w : Keyword} (h : q <+: w) :
    invertedKey t q <+: invertedKey t w :=
  (prefix_cons_inj _).2 ((prefix_append_right_inj _).2 h)

/-- The keys with an inverted prefix are the inverted keys of the table whose keyword extends the
prefix. -/
lemma invertedKey_prefix_key_iff {q : Keyword} :
    invertedKey t q <+: r.key ↔ ∃ w, r.invKey? = some (t, w) ∧ q <+: w := by
  cases r with
  | inv t' w' _ _ =>
    simp only [key, invKey?, Option.some.injEq, Prod.mk.injEq, invertedKey, cons_prefix_cons,
      true_and]
    constructor
    · intro h
      obtain rfl : t = t' := bigEndian_tid_inj.1 <| (prefix_of_prefix_length_le
        ((prefix_append _ _).trans h) (prefix_append _ _) (by simp)).eq_of_length (by simp)
      exact ⟨w', ⟨rfl, rfl⟩, (prefix_append_right_inj _).1 h⟩
    · rintro ⟨w, ⟨rfl, rfl⟩, h⟩
      exact (prefix_append_right_inj _).2 h
  | fwd t' d' _ =>
    simp [key, invKey?, invertedKey, forwardKey, ktInverted, ktForward, cons_prefix_cons]

/-- The keys with the forward prefix of a table are those of its forward records. -/
lemma forwardKeyPrefix_prefix_key_iff :
    forwardKeyPrefix t <+: r.key ↔ ∃ d ords, r = fwd t d ords := by
  cases r with
  | inv t' w' _ _ =>
    simp [key, invertedKey, forwardKeyPrefix, ktInverted, ktForward, cons_prefix_cons]
  | fwd t' d' ords =>
    simp only [key, forwardKey, forwardKeyPrefix, cons_prefix_cons, true_and, fwd.injEq]
    constructor
    · intro h
      have heq := (prefix_of_prefix_length_le h (prefix_append _ _)
        (by simp)).eq_of_length (by simp)
      exact ⟨d', ords, (bigEndian_tid_inj.1 heq).symm, rfl, rfl⟩
    · rintro ⟨d, ords', rfl, -, -⟩
      exact prefix_append _ _

/-- A forward key is a prefix of its own key only. -/
lemma forwardKey_prefix_key_iff {d : DocId} :
    forwardKey t d <+: r.key ↔ r.key = forwardKey t d := by
  refine ⟨fun h => ?_, fun h => h ▸ prefix_rfl⟩
  cases r with
  | inv t' w' _ _ =>
    simp [key, invertedKey, forwardKey, ktInverted, ktForward, cons_prefix_cons] at h
  | fwd t' d' _ => exact (h.eq_of_length (by simp [key])).symm

end Rec

end Haystack.InvertedStore
