import Haystack.Lib.Decimal
import Haystack.Lib.GoMap
import Haystack.Lib.Sorting
import Haystack.Lib.StepSystem
import Haystack.Lib.Utf8

/-!
# The catalog of collections

The catalog keeps its records in two maps, by id and by name, and as JSON under one key per
collection; `New` fills the maps again from the keys with the prefix byte of the records. JSON keeps
strings in UTF-8 and times of four-digit years: what is read back is a function of the record that
was written. Each call of the store may fail; a call that fails changes nothing.

The document store has keys of its own. Its calls succeed or fail.
-/

namespace Haystack.Collection

/-! ### Records -/

/-- Times as JSON keeps them: what is read back, if the time can be written. -/
structure TimeCodec (Time : Type) where
  zero : Time
  readBack : Time → Option Time
  readBack_zero : readBack zero = some zero

/-- `collection.Record` -/
structure Record (Time : Type) where
  id : ℤ
  name : Bytes
  desc : Bytes
  createdAt : Time
  lastAccessed : Time
  lastFullSync : Time
  extra : Bytes
  deriving DecidableEq

variable {Time : Type} (codec : TimeCodec Time)

/-- A string as JSON keeps it: a byte that is not UTF-8 becomes the replacement character. -/
def readBackText (s : Bytes) : Bytes :=
  Utf8.encode (Utf8.runes s)

/-- The record that is read from the JSON of a record, if it can be written at all. -/
def Record.readBack (r : Record Time) : Option (Record Time) :=
  (codec.readBack r.createdAt).bind fun createdAt =>
    (codec.readBack r.lastAccessed).bind fun lastAccessed =>
      (codec.readBack r.lastFullSync).map fun lastFullSync =>
        { r with name := readBackText r.name, desc := readBackText r.desc, createdAt, lastAccessed,
                 lastFullSync }

/-- A stored value: a counter, or the JSON of a record given by what is read from it. A record that
JSON cannot write leaves an empty value. -/
inductive Value (Time : Type)
  | counter (text : Bytes)
  | record (r : Option (Record Time))

abbrev Store (Time : Type) := GoMap Bytes (Value Time)

/-! ### Keys -/

structure Options where
  keyTypeIncrId : UInt8
  keyTypeRecord : UInt8

def Options.withDefaults (o : Options) : Options where
  keyTypeIncrId := if o.keyTypeIncrId = 0 then 1 else o.keyTypeIncrId
  keyTypeRecord := if o.keyTypeRecord = 0 then 2 else o.keyTypeRecord

namespace Options

variable (o : Options)

def encodeIncrIdKey : Bytes :=
  [o.keyTypeIncrId]

/-- `fmt.Sprintf("%c%d", …)`: the byte is printed as the character with that number. -/
def encodeRecordKey (id : ℤ) : Bytes :=
  String.utf8EncodeChar (Char.ofUInt8 o.keyTypeRecord) ++ Decimal.itoa id

def encodeRecordScanPrefix : Bytes :=
  [o.keyTypeRecord]

end Options

/-! ### The catalog -/

/-- The catalog over its store. `acked` is a history variable: the collections that `Create` and
`Save` have acknowledged and `Delete` has not removed, with their last saved records. -/
structure State (Time : Type) where
  opts : Options
  store : Store Time
  byID : GoMap ℤ (Record Time)
  byName : GoMap Bytes ℤ
  acked : GoMap ℤ (Record Time)

/-- `Scan`: the entries whose keys have the prefix, in the order of the keys. -/
def scan (pre : Bytes) (store : Store Time) : List (Bytes × Value Time) :=
  StableSort.sortBy Prod.fst
    ((store.entries.filter fun e => pre.isPrefixOf e.1).map fun e => (e.1, e.2))

/-- The record of a scanned value that is put into the maps. -/
def loadedRecord : Value Time → Option (Record Time)
  | .record (some r) => if r.name = [] then none else some r
  | _ => none

/-- `loadFromStore` -/
def loadFromStore (o : Options) (store : Store Time) : GoMap ℤ (Record Time) × GoMap Bytes ℤ :=
  (scan o.encodeRecordScanPrefix store).foldl
    (fun maps e =>
      match loadedRecord e.2 with
      | some r => (maps.1.insert r.id r, maps.2.insert r.name r.id)
      | none => maps)
    (∅, ∅)

/-- `New` -/
def new (opts : Options) (store : Store Time) (acked : GoMap ℤ (Record Time)) :
    Option (State Time) :=
  let o := opts.withDefaults
  if o.keyTypeIncrId = o.keyTypeRecord then none
  else some ⟨o, store, (loadFromStore o store).1, (loadFromStore o store).2, acked⟩

/-- The outcomes of the calls of `Create`: reading and writing the counter, writing the record, the
document store, and taking the record back. -/
structure CreateCalls where
  getCounter : Bool
  putCounter : Bool
  persist : Bool
  docs : Bool
  rollback : Bool

inductive Call (Time : Type)
  | create (name : Bytes) (now : Time) (c : CreateCalls)
  | save (r : Record Time) (persist : Bool)
  | delete (id : ℤ) (record docs : Bool)
  | new

namespace State

variable (s : State Time)

/-- The number that `GetIncrementalId` returns next. -/
def nextId : Option ℤ :=
  match s.store.lookup s.opts.encodeIncrIdKey with
  | none => some 0
  | some (.counter text) => Decimal.atoi text
  | some (.record _) => none

def setCounter (n : ℤ) : State Time :=
  let value := Value.counter (Decimal.itoa n)
  { s with store := s.store.insert s.opts.encodeIncrIdKey value }

/-- `GetIncrementalId`; the error of the write is dropped. -/
def getIncrementalId (get put : Bool) : State Time × Option ℤ :=
  match (if get then s.nextId else none) with
  | none => (s, none)
  | some id => (if put then s.setCounter ((id + 1).bmod (2 ^ 64)) else s, some id)

/-- `persistRecord` -/
def persistRecord (r : Record Time) (ok : Bool) : State Time :=
  let value := Value.record (r.readBack codec)
  if ok then { s with store := s.store.insert (s.opts.encodeRecordKey r.id) value } else s

def deleteRecord (id : ℤ) (ok : Bool) : State Time :=
  if ok then { s with store := s.store.erase (s.opts.encodeRecordKey id) } else s

/-- `Create`, with whether it succeeds. -/
def create (name : Bytes) (now : Time) (c : CreateCalls) : State Time × Bool :=
  if (s.byName.lookup name).isSome then (s, false)
  else
    match s.getIncrementalId c.getCounter c.putCounter with
    | (s, none) => (s, false)
    | (s, some id) =>
      let r : Record Time := ⟨id, name, [], now, now, codec.zero, []⟩
      let s := s.persistRecord codec r c.persist
      if ¬ c.persist then (s, false)
      else if ¬ c.docs then (s.deleteRecord id c.rollback, false)
      else
        ({ s with
            byID := s.byID.insert id r
            byName := s.byName.insert name id
            acked := s.acked.insert id r }, true)

/-- `Save`, with whether it succeeds. -/
def save (r : Record Time) (persist : Bool) : State Time × Bool :=
  match s.byID.lookup r.id with
  | none => (s, false)
  | some old =>
    if old.name ≠ r.name ∧ (s.byName.lookup r.name).isSome then (s, false)
    else if ¬ persist then (s, false)
    else
      let s := s.persistRecord codec r persist
      ({ s with
          byName := if old.name ≠ r.name then (s.byName.erase old.name).insert r.name r.id
            else s.byName
          byID := s.byID.insert r.id r
          acked := s.acked.insert r.id r }, true)

/-- `Delete`, with whether it succeeds. -/
def delete (id : ℤ) (record docs : Bool) : State Time × Bool :=
  match s.byID.lookup id with
  | none => (s, false)
  | some r =>
    if ¬ record then (s, false)
    else
      let s := s.deleteRecord id record
      let s := { s with byName := s.byName.erase r.name, byID := s.byID.erase id }
      if docs then ({ s with acked := s.acked.erase id }, true) else (s, false)

/-- The catalog that `New` makes of the store. -/
def reload : State Time :=
  { s with
    byID := (loadFromStore s.opts s.store).1
    byName := (loadFromStore s.opts s.store).2 }

/-- `List` -/
def list : List (Record Time) :=
  GoMap.values s.byID

def run : Call Time → State Time × Bool
  | .create name now c => s.create codec name now c
  | .save r persist => s.save codec r persist
  | .delete id record docs => s.delete id record docs
  | .new => (s.reload, true)

def step (call : Call Time) : Option (State Time) :=
  some (s.run codec call).1

end State

/-! ### What is promised -/

/-- A collection is found by its id, by its name and in the list, with this record. -/
def State.Finds (s : State Time) (id : ℤ) (r : Record Time) : Prop :=
  s.byID.lookup id = some r ∧ s.byName.lookup r.name = some id ∧ r ∈ s.list

/-- The maps are inverse to each other, and every collection that was acknowledged and not deleted
is found, also by a catalog that is made anew. -/
structure State.Faithful (s : State Time) : Prop where
  inverse : ∀ name id,
    s.byName.lookup name = some id ↔ ∃ r, s.byID.lookup id = some r ∧ r.name = name
  found : ∀ id r, s.acked.lookup id = some r → s.Finds id r ∧ s.reload.Finds id r

/-- Nothing that can be asked of the catalogs differs, of the running one and of one made anew. -/
structure State.SameViews (s s' : State Time) : Prop where
  byID : s'.byID = s.byID
  byName : s'.byName = s.byName
  reloadByID : ∀ id, s'.reload.byID.lookup id = s.reload.byID.lookup id
  reloadByName : ∀ name, s'.reload.byName.lookup name = s.reload.byName.lookup name

/-- The record is read as it was written, and `New` does not skip it. -/
def Record.Storable (r : Record Time) : Prop :=
  r.name ≠ [] ∧ r.readBack codec = some r

/-- What a call needs. Names are text and not empty, and times can be written; the counter is
written and not used up; a record whose document table could not be made is taken back; the document
store does not fail to delete. -/
def Meets (s : State Time) : Call Time → Prop
  | .create name now c =>
    (c.persist = true → c.docs = true →
      name ≠ [] ∧ Utf8.Valid name ∧ codec.readBack now = some now) ∧
    (c.getCounter = true → c.putCounter = true) ∧ s.nextId.all (fun id => id + 1 < 2 ^ 63) ∧
    (c.persist = true → c.docs = false → c.rollback = true)
  | .save r persist => persist = true → r.Storable codec
  | .delete _ record docs => record = true → docs = true
  | .new => True

instance [DecidableEq Time] (r : Record Time) : Decidable (r.Storable codec) :=
  inferInstanceAs (Decidable (_ ∧ _))

instance [DecidableEq Time] (s : State Time) : ∀ call, Decidable (Meets codec s call)
  | .create .. => inferInstanceAs (Decidable (_ ∧ _ ∧ _ ∧ _))
  | .save .. => inferInstanceAs (Decidable (_ → _))
  | .delete .. => inferInstanceAs (Decidable (_ → _))
  | .new => inferInstanceAs (Decidable True)

end Haystack.Collection
