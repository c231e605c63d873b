import TupleStore.Pool.Fetch

/-!
# Guards

A transaction works on a page through a guard, which keeps the page in its frame and holds the latch of
the frame: to read, beside other readers, or to write, alone. The page lock of the transaction stays
when the guard is given back.

A guard to write keeps the content of the page at its first change, as the before-image of its
transaction, and marks the page dirty when it is given back changed.

* `bytes`, `look`, `beginChange`, `setBytes` : work on the page;
* `giveBack`, `release` : the end of it.
-/

namespace TupleStore

set_option autoImplicit false

/-- A page in use. -/
structure Guard where
  frame : FrameId
  page : PageId
  txn : TxnId
  mode : LockMode
  /-- Whether the page was opened for change through this guard. -/
  changed : Bool := false
deriving DecidableEq, Repr

namespace Guard

/-- The bytes of the page. -/
def bytes (g : Guard) (s : Store) : Bytes := (s.pool.frame g.frame).bytes

/-- The bytes of the page, given to the transaction. -/
def look (g : Guard) : Action Bytes := do
  let bytes := g.bytes (← get)
  Action.note (.saw g.txn g.page bytes)
  pure bytes

/-- The page opened for change. -/
def beginChange (g : Guard) : Action Guard := do
  if !g.changed then
    Action.modifyPool fun p => p.modifyFrame g.frame fun f => f.capture g.txn
    Action.note (.opened g.txn g.page)
  pure { g with changed := true }

/-- The bytes of the page replaced, by a guard that was opened for change. -/
def setBytes (g : Guard) (bytes : Bytes) : Action Unit := do
  Action.modifyPool fun p => p.modifyFrame g.frame fun f => { f with bytes }
  Action.note (.changed g.txn g.page bytes)

/-- The pool with the guard given back. -/
def giveBack (g : Guard) (p : Pool) : Pool :=
  let p := if g.changed then p.modifyFrame g.frame fun f => { f with dirtyBy := some g.txn } else p
  (p.unpin g.frame).leave g.frame g.mode

/-- Gives the guard back. -/
def release (g : Guard) : Action Unit := Action.modifyPool g.giveBack

end Guard

end TupleStore
