import TupleStore.Page.Heap
import TupleStore.Pool.Request

/-!
# Deleting a tuple

A tuple is deleted by its record id, which must lie in the table. The page is locked to write before it
is looked at, and it is changed only if the slot holds a tuple.
-/

namespace TupleStore

set_option autoImplicit false

/-- A tuple to be deleted. -/
structure Deletion where
  txn : TxnId
  handle : HandleId
  recordId : RecordId
  /-- How far the request for the page has come. -/
  asking : RequestStage := .fresh

namespace Deletion

/-- Begins to delete the tuple at a record id. -/
def start (txn : TxnId) (handle : HandleId) (recordId : Option RecordId) : Action Deletion := do
  match recordId with
  | none => throw (.invalidRecordId .missing)
  | some rid => do
    let file ← Action.file handle
    if rid.page.table ≠ file.id ∨ file.pages.pageCount ≤ rid.page.number then
      throw (.invalidRecordId (.notInTable rid file.id))
    pure { txn, handle, recordId := rid }

/-- Deletes the tuple from its page: the page. -/
def vacate (d : Deletion) (file : HeapFile) (guard : Guard) : Action (Progress Deletion PageId) := do
  let heap : HeapPage := ⟨guard.page, file.schema, guard.bytes (← get)⟩
  if heap.isUsed d.recordId.slot then
    let guard ← guard.beginChange
    match heap.delete (some d.recordId) with
    | .error e => do
      guard.release
      throw e
    | .ok heap => do
      guard.setBytes heap.bytes
      guard.release
      pure (.finished guard.page)
  else
    guard.release
    throw (.slotEmpty guard.page d.recordId.slot)

/-- The one step: the page that held the tuple. -/
def step (d : Deletion) : Action (Progress Deletion PageId) := do
  let file ← Action.file d.handle
  let request : Request := ⟨d.txn, d.recordId.page, .write, d.asking⟩
  request.andThen (fun asking => { d with asking }) fun guard => d.vacate file guard

end Deletion

end TupleStore
