import TupleStore.Error

/-!
# Configuration

The size of pages and the number of frames of a page cache, with their defaults and the conditions
under which they are accepted.
-/

namespace TupleStore

set_option autoImplicit false

/-- What a page cache is built from. -/
structure Config where
  /-- The bytes of a page. -/
  pageSize : Nat := 4096
  /-- The frames of the cache. -/
  poolPages : Nat := 50
deriving DecidableEq, Repr

namespace Config

/-- The smallest page that is accepted. -/
def minPageSize : Nat := 8

/-- A cache needs a frame, which is asked first, and pages of at least `minPageSize` bytes. -/
def validate (c : Config) : Except Error Unit :=
  if c.poolPages = 0 then .error (.invalidConfig .noPoolPages)
  else if c.pageSize < minPageSize then .error (.invalidConfig (.pageTooSmall c.pageSize))
  else .ok ()

end Config

end TupleStore
