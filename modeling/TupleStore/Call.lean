import TupleStore.Table.Delete
import TupleStore.Table.Insert
import TupleStore.Table.Scan

/-!
# Calls

What can have to wait, for a lock or for a frame that others use: reading or writing a page, inserting,
deleting, scanning. A call is an operation in steps; where it waits, it keeps how far the request for
the page has come that it is at.

* `Call.run` : takes a call as far as it can go;
* `Call.isReady` : whether a call that waits can go on;
* `Call.startInsert`, `Call.startDelete` : calls on tables by their ids. When they end, they mark the
  page that they changed once more, because it can have been dropped from the cache and read again while
  they waited for its frame.
-/

namespace TupleStore

set_option autoImplicit false

/-- A call that can have to wait. -/
inductive Call where
  /-- Read a page. -/
  | read (request : Request)
  /-- Lock a page to write, and write some bytes at an offset, if there are any. -/
  | write (request : Request) (patch : Option (Nat × Bytes))
  /-- Insert a tuple. The flag says whether its page is marked as changed in the end, wherever it is
  cached by then. -/
  | insert (insertion : Insertion) (marks : Bool)
  /-- Delete a tuple. The flag says whether its page is marked as changed in the end. -/
  | delete (deletion : Deletion) (marks : Bool)
  | scan (scan : Scan)

/-- What a call comes to. -/
inductive Reply where
  /-- The bytes of the page. -/
  | content (bytes : Bytes)
  /-- Whether the page was changed, and its bytes. -/
  | written (changed : Bool) (bytes : Bytes)
  /-- The bytes to be written reach past the end of the page. -/
  | outOfRange
  /-- The page that took the tuple, and the tuple at its place. -/
  | inserted (page : PageId) (tuple : Tuple)
  /-- The page that held the tuple. -/
  | deleted (page : PageId)
  | tuples (tuples : List Tuple)

namespace Call

/-- The transaction of a call. -/
def txn : Call → TxnId
  | read r => r.txn
  | write r _ => r.txn
  | insert i _ => i.txn
  | delete d _ => d.txn
  | scan s => s.txn

/-- How far the request has come for the page that a call is at. -/
def asking : Call → RequestStage
  | read r => r.stage
  | write r _ => r.stage
  | insert i _ => i.asking
  | delete d _ => d.asking
  | scan s => s.asking

/-- Whether a call that waits can go on. -/
def isReady (p : Pool) (c : Call) : Bool := c.asking.isReady p

/-- Reads a page. -/
def readStep (r : Request) : Action (Progress Call Reply) :=
  r.andThen (fun stage => .read (r.goto stage)) fun guard => do
    let bytes := guard.bytes (← get)
    guard.release
    pure (.finished (.content bytes))

/-- Writes into a page. -/
def writeStep (r : Request) (patch : Option (Nat × Bytes)) : Action (Progress Call Reply) :=
  r.andThen (fun stage => .write (r.goto stage) patch) fun guard => do
    match patch with
    | none => do
      let bytes := guard.bytes (← get)
      guard.release
      pure (.finished (.written false bytes))
    | some (off, data) => do
      let guard ← guard.beginChange
      match (guard.bytes (← get)).patch? off data with
      | none => do
        guard.release
        pure (.finished .outOfRange)
      | some bytes => do
        guard.setBytes bytes
        guard.release
        pure (.finished (.written true bytes))

/-- Marks the page that an operation has changed, if it is to be marked. -/
def markDone {σ α : Type} (marks : Bool) (txn : TxnId) (pageOf : α → PageId) : Progress σ α → Action Unit
  | .finished a => if marks then Action.modifyPool fun p => p.markDirty (pageOf a) txn else pure ()
  | _ => pure ()

/-- One step of a call. -/
def step : Call → Action (Progress Call Reply)
  | read r => readStep r
  | write r patch => writeStep r patch
  | insert i marks => do
    let progress ← i.step
    markDone marks i.txn Prod.fst progress
    return progress.map (Call.insert · marks) fun (page, tuple) => Reply.inserted page tuple
  | delete d marks => do
    let progress ← d.step
    markDone marks d.txn id progress
    return progress.map (Call.delete · marks) Reply.deleted
  | scan s => do
    return (← s.step).map Call.scan Reply.tuples

/-- Steps that are enough to end a call or to find it blocked. -/
def fuel (s : Store) : Call → Nat
  | insert i _ => i.fuel s
  | scan c => c.fuel
  | _ => 1

/-- Takes a call as far as it can go. -/
def run (c : Call) : Action (Advance Call Reply) := do
  Action.advance step (c.fuel (← get)) c

/-! ## Tables by id -/

/-- Begins to insert a tuple into a registered table. Its page is marked as changed in the end. -/
def startInsert (txn : TxnId) (table : TableId) (tuple : Tuple) : Action Call := do
  let handle ← Action.resolve table
  return .insert (← Insertion.start txn handle tuple) true

/-- Begins to delete the tuple at a record id from its table, which must be registered. Its page is
marked as changed in the end. -/
def startDelete (txn : TxnId) (recordId : Option RecordId) : Action Call := do
  match recordId with
  | none => throw (.invalidRecordId .missing)
  | some rid => do
    let handle ← Action.resolve rid.page.table
    return .delete (← Deletion.start txn handle recordId) true

end Call

end TupleStore
