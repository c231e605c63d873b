/-!
# Lock modes

A page is locked for reading, which many transactions can do at once, or for writing, which excludes
all others. A lock for writing covers a request for reading.
-/

namespace TupleStore

set_option autoImplicit false

/-- What a transaction may do with a page. -/
inductive LockMode where
  | read
  | write
deriving DecidableEq, Repr

namespace LockMode

/-- The strength of a mode. -/
def rank : LockMode → Nat
  | read => 0
  | write => 1

instance : Ord LockMode := ⟨compareOn rank⟩

/-- Whether a lock of the first mode is enough for a request of the second. -/
def covers (held requested : LockMode) : Bool := requested.rank ≤ held.rank

instance : ToString LockMode where
  toString
    | read => "READ"
    | write => "WRITE"

end LockMode

end TupleStore
