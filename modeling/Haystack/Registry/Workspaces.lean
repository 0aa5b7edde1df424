import Haystack.Lib.Decimal
import Haystack.Lib.Faulty
import Haystack.Lib.GoMap
import Haystack.Lib.Sorting

/-!
# Workspaces, collections and their tables

Creating a workspace allocates a collection id from a counter in the data store, and three table ids
from a counter in the index store: one for its documents and two for its symbols. Every call of a
store may fail or be the point at which the process dies; the calls of one operation are named in a
record, so that an operation can be run with any combination of outcomes.
-/

namespace Haystack.Registry

open Faulty

abbrev Id := Int64
abbrev Path := Bytes
abbrev Time := Int64

/-! ### Records -/

/-- `collection.Record` -/
structure Record where
  id : Id
  name : Path
  desc : Bytes
  createdAt : Time
  lastAccessed : Time
  lastFullSync : Time
  extra : Bytes
  deriving DecidableEq

/-- `documents.CollectionInfo` -/
structure CollectionInfo where
  collectionId : Id
  invertedId : Id
  desc : Bytes
  deriving DecidableEq

/-- `invertedindex.TableInfo` -/
structure TableInfo where
  id : Id
  createdAt : Time
  description : Bytes
  deriving DecidableEq

/-- `symbols.SymbolUniversalTable` -/
structure SymbolTable where
  workspaceId : Id
  invertedId : Id
  desc : Bytes
  deriving DecidableEq

/-- A stored value: plain bytes, or a record in its encoded form. -/
inductive Value
  | bytes (b : Bytes)
  | record (r : Record)
  | collection (info : CollectionInfo)
  | table (info : TableInfo)
  | symbolTable (info : SymbolTable)
  deriving DecidableEq

/-- The table that a record of a collection or of its symbols points to. -/
def Value.invertedId? : Value → Option Id
  | collection info => some info.invertedId
  | symbolTable info => some info.invertedId
  | _ => none

def formatId (id : Id) : Bytes :=
  Decimal.itoa id.toInt

/-- `strconv.Atoi` on a stored value. -/
def Value.atoi : Value → Option Id
  | bytes b => (Decimal.atoi b).map Int64.ofInt
  | _ => none

/-! ### Keys -/

/-- The key of the counter of collection ids. -/
def incrIdKey : Bytes := [1]

/-- The key of the counter of table ids. -/
def nextTableIdKey : Bytes := [22]

def recordKey (id : Id) : Bytes := 2 :: formatId id
def metaKey (id : Id) : Bytes := 10 :: formatId id
def documentMetaPrefix (id : Id) : Bytes := 12 :: formatId id ++ [124]
def tableKey (id : Id) : Bytes := 21 :: formatId id
def invertedPrefix (id : Id) : Bytes := 20 :: formatId id ++ [124]
def forwardPrefix (id : Id) : Bytes := 11 :: formatId id ++ [124]
def symbolTableKey (id : Id) : Bytes := 30 :: formatId id
def docFunctionsPrefix (id : Id) : Bytes := 31 :: formatId id ++ [124]
def symbolWordsTableKey (id : Id) : Bytes := 33 :: formatId id

/-- The description of a table: `workspace:<id>,desc:<desc>`. -/
def tableDescription (id : Id) (desc : Bytes) : Bytes :=
  Bytes.ofAscii "workspace:" ++ formatId id ++ Bytes.ofAscii ",desc:" ++ desc

/-- `encodeExtra` of a new workspace, which uses the global filters and has none of its own. -/
def newExtra : Bytes :=
  Bytes.ofAscii "\x7b\"use_global_filters\":true\x7d"

/-! ### The stores -/

/-- A pebble store. `issued` is a history variable: the ids that `GetIncrementalId` has returned
without an error, with the counter they came from. -/
structure PebbleDB where
  store : GoMap Bytes Value
  issued : List (Bytes × Id)

namespace PebbleDB

def empty : PebbleDB :=
  ⟨∅, []⟩

def put (key : Bytes) (value : Value) (db : PebbleDB) : PebbleDB :=
  { db with store := db.store.insert key value }

def delete (key : Bytes) (db : PebbleDB) : PebbleDB :=
  { db with store := db.store.erase key }

def deletePrefix (pre : Bytes) (db : PebbleDB) : PebbleDB :=
  { db with store := (db.store.keys.filter (pre.isPrefixOf ·)).foldl (fun m k => m.erase k) db.store }

/-- `Scan`: the entries whose keys have the prefix, in the order of the keys. -/
def scan (pre : Bytes) (db : PebbleDB) : List (Bytes × Value) :=
  StableSort.sortBy Prod.fst
    ((db.store.entries.filter fun e => pre.isPrefixOf e.1).map fun e => (e.1, e.2))

/-- The next id of a counter: 0 if it was never written. -/
def nextId (key : Bytes) (db : PebbleDB) : Option Id :=
  match db.store.lookup key with
  | none => some 0
  | some v => v.atoi

end PebbleDB

/-- `workspace.Workspace` -/
structure Workspace where
  id : Id
  path : Path
  desc : Bytes
  createdAt : Time
  lastAccessed : Time
  deleted : Bool

/-- The two stores, and what the process keeps in memory: the maps of the catalog, those of the
document store, and those of the workspaces, whose values point into `heap`. -/
structure Server where
  data : PebbleDB
  index : PebbleDB
  byID : GoMap Id Record
  byName : GoMap Path Id
  collections : GoMap Id CollectionInfo
  deletedCollections : List Id
  docCount : GoMap Id ℕ
  heap : List Workspace
  workspaces : GoMap Id ℕ
  workspacePaths : GoMap Path ℕ

namespace Server

/-- A server over two empty stores. -/
def fresh : Server :=
  ⟨.empty, .empty, ∅, ∅, ∅, [], ∅, [], ∅, ∅⟩

def withData (f : PebbleDB → PebbleDB) (s : Server) : Server :=
  { s with data := f s.data }

def withIndex (f : PebbleDB → PebbleDB) (s : Server) : Server :=
  { s with index := f s.index }

end Server

/-! ### Allocating ids -/

/-- The calls of `GetIncrementalId`. -/
structure CounterCalls where
  get : Outcome
  put : Outcome

/-- The calls of `CreateTable`. -/
structure TableCalls where
  counter : CounterCalls
  put : Outcome

section Stores

/-- Which store a call goes to. -/
inductive Db
  | data
  | index

def Server.db (s : Server) : Db → PebbleDB
  | .data => s.data
  | .index => s.index

def Server.onDb (f : PebbleDB → PebbleDB) : Db → Server → Server
  | .data => Server.withData f
  | .index => Server.withIndex f

/-- `Put`: whether it reports success. -/
def put (db : Db) (key : Bytes) (value : Value) (o : Outcome) : Prog Server Bool :=
  attempt o (Server.onDb (.put key value) db) id

def delete (db : Db) (key : Bytes) (o : Outcome) : Prog Server Bool :=
  attempt o (Server.onDb (.delete key) db) id

/-- `Commit` of a batch: whether it reports success. -/
def commit (db : Db) (batch : PebbleDB → PebbleDB) (o : Outcome) : Prog Server Bool :=
  attempt o (Server.onDb batch db) id

/-- A call that only reads: whether it reports success. -/
def reads (o : Outcome) : Prog Server Bool :=
  attempt o id id

/-- `GetIncrementalId`. The error of the write is dropped. -/
def getIncrementalId (db : Db) (key : Bytes) (c : CounterCalls) : Prog Server (Option Id) :=
  reads c.get >>= fun ok =>
    if ok then
      read (fun s => (s.db db).nextId key) >>= fun next =>
        match next with
        | none => pure none
        | some id =>
          put db key (.bytes (formatId (id + 1))) c.put >>= fun _ =>
            modify (Server.onDb (fun d => { d with issued := (key, id) :: d.issued }) db) >>= fun _ =>
              pure (some id)
    else pure none

end Stores

/-! ### Tables and collections -/

/-- `Index.CreateTable` -/
def createTable (description : Bytes) (now : Time) (c : TableCalls) : Prog Server (Option Id) :=
  getIncrementalId .index nextTableIdKey c.counter >>= fun id? =>
    match id? with
    | none => pure none
    | some id =>
      put .index (tableKey id) (.table ⟨id, now, description⟩) c.put >>= fun ok =>
        pure (if ok then some id else none)

/-- `Index.DeleteTable`: one batch. -/
def deleteTable (id : Id) (o : Outcome) : Prog Server Bool :=
  commit .index (fun d =>
    ((d.deletePrefix (invertedPrefix id)).deletePrefix (forwardPrefix id)).delete (tableKey id)) o

/-- The calls of `documents.Store.Create`. -/
structure DocsCreateCalls where
  table : TableCalls
  putMeta : Outcome

/-- `documents.Store.Create`: whether it succeeds. -/
def docsCreate (id : Id) (desc : Bytes) (now : Time) (c : DocsCreateCalls) : Prog Server Bool :=
  createTable (tableDescription id desc) now c.table >>= fun table? =>
    match table? with
    | none => pure false
    | some table =>
      put .data (metaKey id) (.collection ⟨id, table, desc⟩) c.putMeta >>= fun ok =>
        if ok then
          modify (fun s => { s with
            docCount := s.docCount.insert id (s.data.scan (documentMetaPrefix id)).length }) >>=
          fun _ => pure true
        else pure false

/-- The calls of `documents.Store.Delete`. -/
structure DocsDeleteCalls where
  getMeta : Outcome
  deleteTable : Outcome
  commit : Outcome

/-- `documents.Store.GetCollection`: the cached record, or the stored one, which is cached then. -/
def getCollection (id : Id) (o : Outcome) : Prog Server (Option CollectionInfo) :=
  read (fun s => (s.collections.lookup id, s.data.store.lookup (metaKey id))) >>= fun r =>
    match r.1 with
    | some info => pure (some info)
    | none =>
      reads o >>= fun ok =>
        match ok, r.2 with
        | true, some (.collection info) =>
          modify (fun s => { s with collections := s.collections.insert id info }) >>= fun _ =>
            pure (some info)
        | _, _ => pure none

/-- `documents.Store.Delete`: whether it succeeds. -/
def docsDelete (id : Id) (c : DocsDeleteCalls) : Prog Server Bool :=
  getCollection id c.getMeta >>= fun info? =>
    match info? with
    | none => pure false
    | some info =>
      modify (fun s => { s with deletedCollections := id :: s.deletedCollections }) >>= fun _ =>
      deleteTable info.invertedId c.deleteTable >>= fun _ =>
      commit .data (.deletePrefix (documentMetaPrefix id)) c.commit >>= fun ok =>
        if ok then
          modify (fun s => { s with docCount := s.docCount.erase id }) >>= fun _ => pure true
        else pure false

/-! ### The catalog -/

/-- The calls of `Catalog.Create`. -/
structure CatalogCreateCalls where
  counter : CounterCalls
  persist : Outcome
  docs : DocsCreateCalls
  rollback : Outcome

/-- `Catalog.persistRecord` -/
def persistRecord (r : Record) (o : Outcome) : Prog Server Bool :=
  put .data (recordKey r.id) (.record r) o

/-- `Catalog.Create`. If the document table cannot be created the record is taken back, as far as
that succeeds. -/
def catalogCreate (name : Path) (now : Time) (c : CatalogCreateCalls) : Prog Server (Option Id) :=
  read (fun s => s.byName.lookup name) >>= fun taken =>
    if taken.isSome then pure none
    else
      getIncrementalId .data incrIdKey c.counter >>= fun id? =>
        match id? with
        | none => pure none
        | some id =>
          let r : Record := ⟨id, name, [], now, now, 0, []⟩
          persistRecord r c.persist >>= fun ok =>
            if ok then
              docsCreate id name now c.docs >>= fun ok =>
                if ok then
                  modify (fun s => { s with
                    byID := s.byID.insert id r
                    byName := s.byName.insert name id }) >>= fun _ => pure (some id)
                else delete .data (recordKey id) c.rollback >>= fun _ => pure none
            else pure none

/-- `Catalog.Save`: whether it succeeds. -/
def catalogSave (r : Record) (o : Outcome) : Prog Server Bool :=
  read (fun s => (s.byID.lookup r.id, s.byName.lookup r.name)) >>= fun found =>
    match found.1 with
    | none => pure false
    | some old =>
      if old.name ≠ r.name ∧ found.2.isSome then pure false
      else
        persistRecord r o >>= fun ok =>
          if ok then
            modify (fun s => { s with
              byName := if old.name ≠ r.name then (s.byName.erase old.name).insert r.name r.id
                else s.byName
              byID := s.byID.insert r.id r }) >>= fun _ => pure true
          else pure false

/-- The calls of `Catalog.Delete`. -/
structure CatalogDeleteCalls where
  record : Outcome
  docs : DocsDeleteCalls

/-- `Catalog.Delete`: whether it succeeds. -/
def catalogDelete (id : Id) (c : CatalogDeleteCalls) : Prog Server Bool :=
  read (fun s => s.byID.lookup id) >>= fun r? =>
    match r? with
    | none => pure false
    | some r =>
      delete .data (recordKey id) c.record >>= fun ok =>
        if ok then
          modify (fun s => { s with byName := s.byName.erase r.name, byID := s.byID.erase id }) >>=
            fun _ => docsDelete id c.docs
        else pure false

/-! ### Symbols -/

/-- The calls for one of the two symbol tables of a workspace. -/
structure SymbolCreateCalls where
  table : TableCalls
  put : Outcome

/-- One round of the loop of `symbols.Create`: whether it succeeds. -/
def createSymbolTable (key : Bytes) (id : Id) (desc : Bytes) (now : Time) (c : SymbolCreateCalls) :
    Prog Server Bool :=
  createTable (tableDescription id desc) now c.table >>= fun table? =>
    match table? with
    | none => pure false
    | some table => put .data key (.symbolTable ⟨id, table, desc⟩) c.put

/-- `symbols.Create`: the two tables, up to the first error. -/
def symbolsCreate (id : Id) (desc : Bytes) (now : Time) (symbols words : SymbolCreateCalls) :
    Prog Server Bool :=
  untilError [createSymbolTable (symbolTableKey id) id desc now symbols,
    createSymbolTable (symbolWordsTableKey id) id desc now words]

/-- The calls that delete one symbol table. -/
structure SymbolDeleteCalls where
  get : Outcome
  deleteTable : Outcome
  commit : Outcome

/-- One round of the loop of `symbols.Delete`: whether it succeeds. -/
def deleteSymbolTable (key : Bytes) (id : Id) (c : SymbolDeleteCalls) : Prog Server Bool :=
  read (fun s => s.data.store.lookup key) >>= fun v? =>
    reads c.get >>= fun ok =>
      match ok, v? with
      | true, some (.symbolTable info) =>
        deleteTable info.invertedId c.deleteTable >>= fun _ =>
          commit .data (.deletePrefix (docFunctionsPrefix id)) c.commit
      | _, _ => pure false

/-- `symbols.Delete` -/
def symbolsDelete (enabled : Bool) (id : Id) (symbols words : SymbolDeleteCalls) :
    Prog Server Bool :=
  if enabled then
    untilError [deleteSymbolTable (symbolTableKey id) id symbols,
      deleteSymbolTable (symbolWordsTableKey id) id words]
  else pure true

/-! ### Workspaces -/

/-- What `Create` finds out about the path, and the outcomes of its calls. -/
structure CreateCalls where
  isAbs : Bool
  isDir : Bool
  now : Time
  catalog : CatalogCreateCalls
  save : Outcome
  symbols : SymbolCreateCalls
  symbolWords : SymbolCreateCalls

/-- `workspace.Create`, of a normalized path: the id of the new workspace. The errors of saving the
filters and of creating the symbol tables are dropped. -/
def create (path : Path) (c : CreateCalls) : Prog Server (Option Id) :=
  read (fun s => s.workspacePaths.lookup path) >>= fun taken =>
    if taken.isSome ∨ !c.isAbs ∨ !c.isDir then pure none
    else
      catalogCreate path c.now c.catalog >>= fun id? =>
        match id? with
        | none => pure none
        | some id =>
          read (fun s => (s.byID.lookup id).getD ⟨id, [], [], 0, 0, 0, []⟩) >>= fun r =>
          catalogSave { r with extra := newExtra } c.save >>= fun _ =>
          modify (fun s => { s with
            heap := s.heap ++ [⟨r.id, path, r.desc, r.createdAt, r.lastAccessed, false⟩]
            workspaces := s.workspaces.insert r.id s.heap.length
            workspacePaths := s.workspacePaths.insert path s.heap.length }) >>= fun _ =>
          symbolsCreate r.id path c.now c.symbols c.symbolWords >>= fun _ => pure (some r.id)

/-- The outcomes of the calls of `Delete`, and whether the symbols feature is enabled. -/
structure DeleteCalls where
  catalog : CatalogDeleteCalls
  enabled : Bool
  symbols : SymbolDeleteCalls
  symbolWords : SymbolDeleteCalls

/-- `workspace.Delete`: whether it succeeds. -/
def deleteWorkspace (id : Id) (c : DeleteCalls) : Prog Server Bool :=
  read (fun s => (s.workspaces.lookup id).bind fun p => s.heap[p]?.map fun w => (p, w)) >>=
    fun found =>
      match found with
      | none => pure false
      | some (p, w) =>
        catalogDelete id c.catalog >>= fun ok =>
          if ok then
            modify (fun s => { s with
              heap := s.heap.set p { w with deleted := true }
              workspaces := s.workspaces.erase id
              workspacePaths := s.workspacePaths.erase w.path }) >>= fun _ =>
            symbolsDelete c.enabled w.id c.symbols c.symbolWords >>= fun _ => pure true
          else pure false

/-! ### Restarting -/

/-- One entry of the scan of `loadFromStore`. -/
def loadRecord (s : Server) (e : Bytes × Value) : Server :=
  match e.2 with
  | .record r =>
    if r.name = [] then s
    else { s with byID := s.byID.insert r.id r, byName := s.byName.insert r.name r.id }
  | _ => s

/-- `Catalog.loadFromStore`: later records replace earlier ones of the same name. -/
def loadFromStore (s : Server) : Server :=
  (s.data.scan [2]).foldl loadRecord { s with byID := ∅, byName := ∅ }

/-- The workspace of a record. -/
def initWorkspace (s : Server) (r : Record) : Server :=
  { s with
    heap := s.heap ++ [⟨r.id, r.name, r.desc, r.createdAt, r.lastAccessed, false⟩]
    workspaces := s.workspaces.insert r.id s.heap.length
    workspacePaths := s.workspacePaths.insert r.name s.heap.length }

/-- `workspace.Init`: one workspace for each record of the catalog. -/
def initWorkspaces (s : Server) : Server :=
  s.byID.entries.foldl (fun s e => initWorkspace s e.2)
    { s with heap := [], workspaces := ∅, workspacePaths := ∅ }

/-- A new process on the same stores. -/
def restart (s : Server) : Server :=
  initWorkspaces (loadFromStore { s with
    collections := ∅, deletedCollections := [], docCount := ∅ })

/-- The operations. -/
inductive Label
  | create (path : Path) (c : CreateCalls)
  | delete (id : Id) (c : DeleteCalls)
  | restart

/-- The state after an operation; a process that died in it is started again. -/
def settle {α : Type} : Ran Server α → Server
  | .returned _ s => s
  | .died s => restart s

def step (s : Server) : Label → Option Server
  | .create path c => some (settle (create path c s))
  | .delete id c => some (settle (deleteWorkspace id c s))
  | .restart => some (restart s)

end Haystack.Registry
