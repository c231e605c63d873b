import TupleStore.Page.Heap
import TupleStore.Pool.Request

/-!
# Scanning a table

A cursor gives the tuples of a table one by one, in the order of pages and slots. Opening it fixes how
many pages it goes through. It reads one page at a time, with a lock to read, and holds the tuples of
that page until they are taken; no page is pinned in between.

* `rewind`, `close` : open anew, and shut;
* `hasNext`, `next` : whether there is another tuple, and which; both refuse a cursor that is shut;
* `take` : the next tuple of a cursor that is opened on first use;
* `Scan` : all tuples at once, as an operation in steps.

A page that cannot be read is passed over: the cursor goes on behind it.
-/

namespace TupleStore

set_option autoImplicit false

/-- Where an open cursor stands. -/
structure CursorState where
  /-- The page to be read next. -/
  next : Nat
  /-- The number of pages that the table had when the cursor was opened. -/
  limit : Nat
  /-- Tuples that were read and not taken. -/
  buffered : List Tuple

/-- A cursor over a table. -/
structure Cursor where
  handle : HandleId
  txn : TxnId
  state : Option CursorState := none

/-- What asking a cursor comes to. -/
inductive CursorAnswer (α : Type) where
  | answer (value : α)
  | failed (error : Error)
  /-- The next page is in use by others. -/
  | blocked

namespace CursorState

/-- Reads the next page under its guard. -/
def readUnder (c : CursorState) (file : HeapFile) (guard : Guard) : Action CursorState := do
  let heap : HeapPage := ⟨guard.page, file.schema, guard.bytes (← get)⟩
  guard.release
  pure { c with next := c.next + 1, buffered := heap.tuples }

/-- Reads the next page. -/
def readPage (c : CursorState) (file : HeapFile) (txn : TxnId) : Action (CursorAnswer CursorState) := do
  match ← (Action.request txn ⟨file.id, c.next⟩ .read).attempt with
  | .error e => pure (.failed e)
  | .ok none => pure .blocked
  | .ok (some guard) => do
    pure (.answer (← c.readUnder file guard))

/-- Reads at most so many pages, until there is a tuple to take: the cursor afterwards, and whether
there is one. -/
def fill (file : HeapFile) (txn : TxnId) : Nat → CursorState → Action (CursorState × CursorAnswer Bool)
  | 0, c => pure (c, .answer !c.buffered.isEmpty)
  | n + 1, c =>
    if c.buffered.isEmpty && decide (c.next < c.limit) then do
      match ← c.readPage file txn with
      | .answer c => fill file txn n c
      | .failed e => pure ({ c with next := c.next + 1 }, .failed e)
      | .blocked => pure (c, .blocked)
    else pure (c, .answer !c.buffered.isEmpty)

end CursorState

namespace Cursor

/-- The cursor opened at the first page of the table as it is now. -/
def openFirst (c : Cursor) : Action Cursor := do
  let file ← Action.file c.handle
  pure { c with state := some ⟨0, file.pages.pageCount, []⟩ }

/-- The cursor shut. -/
def close (c : Cursor) : Cursor := { c with state := none }

/-- The cursor opened anew. -/
def rewind (c : Cursor) : Action Cursor := c.close.openFirst

/-- Reads up to a page with tuples: the cursor afterwards, and whether there is a tuple to take. -/
def hasNext (c : Cursor) : Action (Cursor × CursorAnswer Bool) := do
  match c.state with
  | none => pure (c, .failed .iteratorNotOpen)
  | some state => do
    let file ← Action.file c.handle
    let (state, answer) ← state.fill file c.txn (state.limit - state.next)
    pure ({ c with state := some state }, answer)

/-- The first buffered tuple taken out. -/
def pop (c : Cursor) : Option Tuple × Cursor :=
  match c.state with
  | some ⟨next, limit, t :: rest⟩ => (some t, { c with state := some ⟨next, limit, rest⟩ })
  | _ => (none, c)

/-- The next tuple, or none once there are no more. -/
def next (c : Cursor) : Action (Cursor × CursorAnswer (Option Tuple)) := do
  match ← c.hasNext with
  | (c, .answer true) => pure (c.pop.2, .answer c.pop.1)
  | (c, .answer false) => pure (c, .answer none)
  | (c, .failed e) => pure (c, .failed e)
  | (c, .blocked) => pure (c, .blocked)

/-- The next tuple of a cursor that is opened if it is shut. -/
def take (c : Cursor) : Action (Cursor × CursorAnswer (Option Tuple)) := do
  match c.state with
  | none => (← c.openFirst).next
  | some _ => c.next

end Cursor

/-- A scan that collects all tuples. -/
structure Scan where
  handle : HandleId
  txn : TxnId
  state : CursorState
  /-- The tuples of the pages so far. -/
  found : List Tuple := []
  /-- How far the request for the next page has come. -/
  asking : RequestStage := .fresh

namespace Scan

/-- Begins to scan a table. -/
def start (txn : TxnId) (handle : HandleId) : Action Scan := do
  let file ← Action.file handle
  pure { handle, txn, state := ⟨0, file.pages.pageCount, []⟩ }

/-- The scan with one more page read. -/
def add (s : Scan) (state : CursorState) : Scan :=
  { s with state, found := s.found ++ state.buffered, asking := .fresh }

/-- One step: the tuples of one more page, or all tuples in the end. -/
def step (s : Scan) : Action (Progress Scan (List Tuple)) := do
  if s.state.next < s.state.limit then
    let file ← Action.file s.handle
    let request : Request := ⟨s.txn, ⟨file.id, s.state.next⟩, .read, s.asking⟩
    request.andThen (fun asking => { s with asking }) fun guard => do
      pure (.moved (s.add (← s.state.readUnder file guard)))
  else pure (.finished s.found)

/-- Steps that are enough: one for each page that is left, and one to end on. -/
def fuel (s : Scan) : Nat := s.state.limit - s.state.next + 1

end Scan

end TupleStore
