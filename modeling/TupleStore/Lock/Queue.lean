import TupleStore.Lock.Table

/-!
# Requests that wait

A lock table together with the requests that have been made and not answered. Each is known by a
number. After every step the requests are made again, in order: one round is enough, since a lock that
is granted only adds to what stands in the way of others.
-/

namespace TupleStore

set_option autoImplicit false

/-- A request that has not been answered. -/
structure LockRequest where
  /-- What the request is known by. -/
  number : Nat
  txn : TxnId
  page : PageId
  mode : LockMode
deriving DecidableEq, Repr

/-- A lock table and the requests that wait for it. -/
structure LockQueue where
  table : LockTable := {}
  pending : List LockRequest := []

namespace LockQueue

/-- Whether a transaction has a request that is not answered. Such a transaction makes no other. -/
def isBusy (q : LockQueue) (txn : TxnId) : Bool := q.pending.any fun r => r.txn = txn

/-- A new request. One that has to wait joins the queue. -/
def request (q : LockQueue) (r : LockRequest) : LockAnswer × LockQueue :=
  let (answer, table) := q.table.acquire r.txn r.page r.mode
  (answer, ⟨table, if answer = .waits then q.pending ++ [r] else q.pending⟩)

/-- The requests made again, in order: the table afterwards, those that still wait, and the answers
of the others. -/
def retry : LockTable → List LockRequest → LockTable × List LockRequest × List (LockRequest × LockAnswer)
  | table, [] => (table, [], [])
  | table, r :: rest =>
    let (answer, table) := table.acquire r.txn r.page r.mode
    let (table, pending, answered) := retry table rest
    if answer = .waits then (table, r :: pending, answered) else (table, pending, (r, answer) :: answered)

/-- The queue with all requests made again, and those that are answered now. -/
def settle (q : LockQueue) : List (LockRequest × LockAnswer) × LockQueue :=
  let (table, pending, answered) := retry q.table q.pending
  (answered, ⟨table, pending⟩)

/-- The queue with another table. -/
def withTable (q : LockQueue) (table : LockTable) : LockQueue := { q with table }

end LockQueue

end TupleStore
