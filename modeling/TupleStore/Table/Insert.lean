import TupleStore.Page.Heap
import TupleStore.Pool.Request

/-!
# Inserting a tuple

A tuple goes to the first page of its table that has room. Pages are inspected with locks to read, up
to the number of pages that there were at the start; only the page that is to take the tuple is locked
to write. It may have filled up in between, and then the search goes on behind it. Where no page has
room, a page is appended to the file and the tuple goes there.
-/

namespace TupleStore

set_option autoImplicit false

/-- Where the search for room stands. -/
inductive InsertStage where
  /-- The pages below a number are full; those below the limit are still to be inspected. -/
  | inspect (number : Nat)
  /-- A page had room when it was inspected, or has just been appended. -/
  | place (number : Nat)
deriving DecidableEq, Repr

/-- A tuple on its way into a table. -/
structure Insertion where
  txn : TxnId
  handle : HandleId
  tuple : Tuple
  /-- The number of pages that the table had at the start. -/
  limit : Nat
  stage : InsertStage := .inspect 0
  /-- How far the request for the page has come that the search is at. -/
  asking : RequestStage := .fresh

namespace Insertion

/-- Begins to insert a tuple, whose types must be those of the table. -/
def start (txn : TxnId) (handle : HandleId) (tuple : Tuple) : Action Insertion := do
  let file ← Action.file handle
  if tuple.schema.Agrees file.schema then
    pure { txn, handle, tuple, limit := file.pages.pageCount }
  else throw .schemaMismatch

/-- The insertion with its search at another stage. -/
def goto (i : Insertion) (stage : InsertStage) : Insertion := { i with stage, asking := .fresh }

/-- Asks for a page, and does something with it. -/
def withPage (i : Insertion) (page : PageId) (mode : LockMode)
    (body : Guard → Action (Progress Insertion (PageId × Tuple))) :
    Action (Progress Insertion (PageId × Tuple)) :=
  Request.andThen ⟨i.txn, page, mode, i.asking⟩ (fun asking => { i with asking }) body

/-- Inspects a page. -/
def inspect (i : Insertion) (file : HeapFile) (number : Nat) :
    Action (Progress Insertion (PageId × Tuple)) :=
  i.withPage ⟨file.id, number⟩ .read fun guard => do
    let heap : HeapPage := ⟨guard.page, file.schema, guard.bytes (← get)⟩
    guard.release
    pure (.moved (i.goto (if 0 < heap.freeCount then .place number else .inspect (number + 1))))

/-- Stores the tuple in a page, or passes over a page that is full. -/
def place (i : Insertion) (file : HeapFile) (number : Nat) :
    Action (Progress Insertion (PageId × Tuple)) :=
  i.withPage ⟨file.id, number⟩ .write fun guard => do
    let heap : HeapPage := ⟨guard.page, file.schema, guard.bytes (← get)⟩
    match heap.firstFree? with
    | none => do
      guard.release
      pure (.moved (i.goto (.inspect (number + 1))))
    | some _ => do
      let guard ← guard.beginChange
      match heap.insert i.tuple with
      | .error e => do
        guard.release
        throw e
      | .ok (heap, tuple) => do
        guard.setBytes heap.bytes
        guard.release
        pure (.finished (guard.page, tuple))

/-- One step: the page that takes the tuple and the tuple at its place, if it comes to that. -/
def step (i : Insertion) : Action (Progress Insertion (PageId × Tuple)) := do
  let file ← Action.file i.handle
  match i.stage with
  | .inspect number =>
    if number < i.limit then i.inspect file number
    else do
      let page ← Action.allocatePage i.handle
      pure (.moved (i.goto (.place page.number)))
  | .place number => i.place file number

/-- Steps that are enough: two for each page that can be inspected, and two for each page that can be
appended and yet be full, which is then cached or known to another handle, and for one more. -/
def fuel (i : Insertion) (s : Store) : Nat :=
  2 * (i.limit + s.pool.frames.length + s.volume.totalPages + 2)

end Insertion

end TupleStore
