import TupleStore.Ident

/-!
# Log records

What a transaction leaves in the write-ahead log: the content of a page before and after it changed
the page, and how it ended.
-/

namespace TupleStore

set_option autoImplicit false

/-- A record of the write-ahead log. -/
inductive LogRecord where
  /-- A transaction changed a page from one content to another. -/
  | update (txn : TxnId) (page : PageId) (before after : Bytes)
  /-- A transaction committed. -/
  | commit (txn : TxnId)
  /-- A transaction was rolled back. -/
  | abort (txn : TxnId)
deriving DecidableEq, Repr

namespace LogRecord

/-- The transaction of a record. -/
def txn : LogRecord → TxnId
  | update t .. => t
  | commit t => t
  | abort t => t

end LogRecord

end TupleStore
