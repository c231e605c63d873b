import TupleStore.File.Volume
import TupleStore.Log.Basic
import TupleStore.Pool.State

/-!
# The store

A store is a page cache with what it stands on: table files, the catalog that says which tables there
are, and the write-ahead log. `Action` is a computation on a store that can fail; what it has done
before it fails stays done.

`trace` keeps, newest first, what has happened to pages and transactions: what the cache has done that
others can see (log records and forces, page reads and writes), what transactions saw and changed through
their guards, how they ended, and when they gave up their locks. Nothing is decided by it.
-/

namespace TupleStore

set_option autoImplicit false

/-- Something that happens to a page, to the log or to a transaction. -/
inductive Effect where
  | logged (record : LogRecord)
  | forced
  /-- The cache wrote a page to its file. -/
  | wrote (page : PageId) (bytes : Bytes)
  /-- The cache read a page from its file. -/
  | loaded (page : PageId)
  /-- The owner of a file wrote a page, past the cache. -/
  | rewrote (page : PageId) (bytes : Bytes)
  /-- A transaction was given the content of a page. -/
  | saw (txn : TxnId) (page : PageId) (bytes : Bytes)
  /-- A transaction opened a page for change. -/
  | opened (txn : TxnId) (page : PageId)
  /-- A transaction gave a page another content. -/
  | changed (txn : TxnId) (page : PageId) (bytes : Bytes)
  /-- The rollback of a transaction began. -/
  | undoing (txn : TxnId)
  /-- A transaction ended, by a commit or by a rollback. -/
  | completed (txn : TxnId) (commits : Bool)
  | unlocked (txn : TxnId)
deriving DecidableEq, Repr

/-- A page cache over files, a catalog and a log. -/
structure Store where
  volume : Volume := {}
  catalog : Catalog := {}
  log : Log := .memory {}
  pool : Pool
  trace : List Effect := []

/-- A computation on a store. When it fails, the store is as it was left. -/
abbrev Action := EStateM Error Store

namespace Store

/-- A store of empty parts. -/
def ofConfig (config : Config) (log : Log) : Except Error Store :=
  match config.validate with
  | .error e => .error e
  | .ok () => .ok { pool := .ofConfig config, log }

/-- The store with a new page cache of so many frames. Files, catalog and log stay. -/
def newPool (s : Store) (poolPages : Nat) : Except Error Store :=
  let config := { s.pool.config with poolPages }
  match config.validate with
  | .error e => .error e
  | .ok () => .ok { s with pool := .ofConfig config }

/-- A handle on a table file. -/
def file? (s : Store) (h : HandleId) : Option HeapFile := s.volume.handles[h]?

/-- The store with its cache changed. -/
def modifyPool (s : Store) (g : Pool → Pool) : Store := { s with pool := g s.pool }

end Store

namespace Action

/-! ## Building blocks -/

/-- The result of a computation on no store. -/
def ofExcept {α : Type} : Except Error α → Action α
  | .ok a => pure a
  | .error e => throw e

/-- A change of the cache. -/
def modifyPool (g : Pool → Pool) : Action Unit := modify fun s => s.modifyPool g

/-- Something that happened, put into the trace. -/
def note (e : Effect) : Action Unit := modify fun s => { s with trace := e :: s.trace }

/-- A change of the store that is made whether the action succeeds or fails. -/
def andAlways {α : Type} (x : Action α) (cleanup : Store → Store) : Action α := fun s =>
  match x s with
  | .ok a s => .ok a (cleanup s)
  | .error e s => .error e (cleanup s)

/-- A change of the store that is made if the action fails. -/
def orElseDo {α : Type} (x : Action α) (cleanup : Store → Store) : Action α := fun s =>
  match x s with
  | .ok a s => .ok a s
  | .error e s => .error e (cleanup s)

/-- The outcome of an action, as a value. -/
def attempt {α : Type} (x : Action α) : Action (Except Error α) := fun s =>
  match x s with
  | .ok a s => .ok (.ok a) s
  | .error e s => .ok (.error e) s

/-! ## Tables -/

/-- A new table file, and its handle. -/
def createFile (path : String) (schema : Schema) (pageSize : Nat) : Action HandleId := do
  let (h, volume) ← ofExcept ((← get).volume.create path schema pageSize)
  modify fun s => { s with volume }
  pure h

/-- A handle on a table file that there is. -/
def openFile (path : String) (schema : Schema) (pageSize : Nat) : Action HandleId := do
  let (h, volume) ← ofExcept ((← get).volume.openFile path schema pageSize)
  modify fun s => { s with volume }
  pure h

/-- The table file behind a handle. -/
def file (h : HandleId) : Action HeapFile := do
  match (← get).file? h with
  | some f => pure f
  | none => throw (.io .notFound)

/-- Registers the table behind a handle under a name. -/
def register (h : HandleId) (name : String) : Action Unit := do
  let f ← file h
  modify fun s => { s with catalog := s.catalog.add f.id name h }

/-- Takes all tables out of the catalog. -/
def unregisterAll : Action Unit := modify fun s => { s with catalog := .empty }

/-! ## Log and files -/

/-- A record at the end of the log. -/
def append (r : LogRecord) : Action Unit :=
  modify fun s => { s with log := s.log.append r, trace := .logged r :: s.trace }

/-- The log forced. -/
def force : Action Unit :=
  modify fun s => { s with log := s.log.force, trace := .forced :: s.trace }

/-- The handle of a table, whose pages must be as long as those of the cache. -/
def resolve (table : TableId) : Action HandleId := do
  let s ← get
  let h ← ofExcept (s.catalog.handle table)
  let f ← file h
  if f.pages.pageSize = s.pool.config.pageSize then pure h
  else throw (.pageSizeMismatch s.pool.config.pageSize f.pages.pageSize)

/-- The bytes of a page in its file. -/
def readPage (h : HandleId) (page : PageId) : Action Bytes := do
  let f ← file h
  ofExcept ((← get).volume.readPage f page)

/-- A page written to its file. -/
def putPage (h : HandleId) (page : PageId) (bytes : Bytes) : Action Unit := do
  let f ← file h
  let volume ← ofExcept ((← get).volume.writePage h f page bytes)
  modify fun s => { s with volume }

/-- A page written to its file by its owner, past the cache. -/
def writeRaw (h : HandleId) (page : PageId) (bytes : Bytes) : Action Unit := do
  putPage h page bytes
  note (.rewrote page bytes)

/-- A page written to its file by the cache. -/
def writePage (h : HandleId) (page : PageId) (bytes : Bytes) : Action Unit := do
  putPage h page bytes
  note (.wrote page bytes)

/-- A page of zeros appended to the file of a handle. -/
def allocatePage (h : HandleId) : Action PageId := do
  let f ← file h
  let (page, volume) := (← get).volume.allocatePage h f
  modify fun s => { s with volume }
  pure page

end Action

end TupleStore
