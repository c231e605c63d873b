import TupleStore.Ident

/-!
# Errors

What can go wrong, as causes; `Error.message` is the one place that words them. Only a deadlock is
fatal to a transaction (`Error.isTransactionFatal`): after any other error it may go on.
-/

namespace TupleStore

set_option autoImplicit false

/-- Why a file could not be created or opened. -/
inductive FileFault where
  | alreadyExists
  | notFound
  | isADirectory
  | notADirectory
  /-- A name longer than a folder can hold, or a path longer than can be walked. -/
  | nameTooLong
  /-- A path with the character that ends a path. -/
  | unexpectedNul
  /-- Any other fault, as the system words it. -/
  | other (text : String)
deriving DecidableEq, Repr

/-- The text of a file fault, with its number if it is the system that finds it. -/
def FileFault.message : FileFault → String
  | .alreadyExists => "File exists (os error 17)"
  | .notFound => "No such file or directory (os error 2)"
  | .isADirectory => "Is a directory (os error 21)"
  | .notADirectory => "Not a directory (os error 20)"
  | .nameTooLong => "File name too long (os error 36)"
  | .unexpectedNul => "file name contained an unexpected NUL byte"
  | .other text => text

/-- Why a configuration is refused. -/
inductive ConfigFault where
  | noPoolPages
  | pageTooSmall (pageSize : Nat)
  | tupleTooWide (tupleSize pageSize : Nat)
  /-- Any other reason, in words. -/
  | other (text : String)
deriving DecidableEq, Repr

/-- The text of a refused configuration. -/
def ConfigFault.message : ConfigFault → String
  | .noPoolPages => "pool_pages must be > 0"
  | .pageTooSmall size => "page_size " ++ toString size ++ " is too small"
  | .tupleTooWide tuple page =>
    "a " ++ toString tuple ++ "-byte tuple does not fit in a " ++ toString page ++ "-byte page"
  | .other text => text

/-- Why a record id names no tuple to delete. -/
inductive RecordFault where
  | missing
  | notASlot (rid : RecordId) (page : PageId)
  | notInTable (rid : RecordId) (table : TableId)
  /-- Any other reason, in words. -/
  | other (text : String)
deriving DecidableEq, Repr

/-- The text of a record id that names nothing. -/
def RecordFault.message : RecordFault → String
  | .missing => "tuple has no record id"
  | .notASlot rid page => toString rid ++ " is not a slot of " ++ toString page
  | .notInTable rid table => toString rid ++ " is not in table " ++ toString table
  | .other text => text

/-- Why an operation failed. -/
inductive Error where
  /-- The files refused. -/
  | io (fault : FileFault)
  /-- Waiting for a lock would have closed a cycle of waiting transactions. -/
  | deadlock (txn : TxnId)
  /-- The page lies past the end of its file, or in another table. -/
  | pageNotFound (page : PageId)
  /-- No table is registered under this name. -/
  | noSuchTable (table : TableId)
  /-- The types of a tuple are not those of the table. -/
  | schemaMismatch
  /-- A record id is missing or points nowhere. -/
  | invalidRecordId (fault : RecordFault)
  /-- The slot of a tuple to delete holds none. -/
  | slotEmpty (page : PageId) (slot : Nat)
  /-- The page has no free slot. -/
  | pageFull (page : PageId)
  /-- Every frame of the cache is pinned. -/
  | noEvictablePage
  /-- A page is not as long as the pages of its file, or of the cache. -/
  | pageSizeMismatch (expected actual : Nat)
  /-- A configuration is refused. -/
  | invalidConfig (fault : ConfigFault)
  /-- A scan was asked for tuples while closed. -/
  | iteratorNotOpen
  /-- A complete log frame is damaged; it begins at this offset. -/
  | corruptLog (offset : Nat)
deriving DecidableEq, Repr

namespace Error

/-- The text of an error. -/
def message : Error → String
  | io fault => "I/O error: " ++ fault.message
  | deadlock txn => "transaction " ++ toString txn ++ " must abort: deadlock detected"
  | pageNotFound page => toString page ++ " not found"
  | noSuchTable table => "no table with id " ++ toString table
  | schemaMismatch => "tuple schema does not match table schema"
  | invalidRecordId fault => "invalid record id: " ++ fault.message
  | slotEmpty page slot => "slot " ++ toString slot ++ " on " ++ toString page ++ " is empty"
  | pageFull page => toString page ++ " has no free slot"
  | noEvictablePage => "no evictable page in buffer pool"
  | pageSizeMismatch expected actual =>
    "page size mismatch: pool uses " ++ toString expected ++ ", file uses " ++ toString actual
  | invalidConfig fault => "invalid configuration: " ++ fault.message
  | iteratorNotOpen => "iterator is not open"
  | corruptLog offset => "corrupt log record at offset " ++ toString offset

/-- Whether the transaction that met the error can only abort. -/
def isTransactionFatal : Error → Bool
  | deadlock _ => true
  | _ => false

end Error

end TupleStore
