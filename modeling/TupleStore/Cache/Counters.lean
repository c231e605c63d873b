import TupleStore.Text.Decimal

/-!
# Counters

What a page cache has done since it was made or its counters were reset: how often pages were found
and fetched, what went to and from the files, and how transactions ended.
-/

namespace TupleStore

set_option autoImplicit false

/-- What a page cache counts. -/
structure Counters where
  /-- Requests served from a frame. -/
  hits : Nat := 0
  /-- Requests that went to a file. -/
  misses : Nat := 0
  evictions : Nat := 0
  pagesRead : Nat := 0
  /-- Pages written, for whatever reason. -/
  pagesWritten : Nat := 0
  /-- Pages restored to what they were before a transaction. -/
  rolledBack : Nat := 0
  commits : Nat := 0
  aborts : Nat := 0
deriving DecidableEq, Repr

namespace Counters

/-- The counters in a row. -/
def toList (c : Counters) : List Nat :=
  [c.hits, c.misses, c.evictions, c.pagesRead, c.pagesWritten, c.rolledBack, c.commits, c.aborts]

/-- The number of requests. -/
def lookups (c : Counters) : Nat := c.hits + c.misses

/-- The fraction of requests served from a frame; zero before there are any. -/
def hitRate (c : Counters) : Float :=
  if c.lookups = 0 then 0.0
  else (UInt64.ofNat c.hits).toFloat / (UInt64.ofNat c.lookups).toFloat

/-- What was counted since an earlier moment; zero where the counters were reset in between. -/
def since (c earlier : Counters) : Counters where
  hits := c.hits - earlier.hits
  misses := c.misses - earlier.misses
  evictions := c.evictions - earlier.evictions
  pagesRead := c.pagesRead - earlier.pagesRead
  pagesWritten := c.pagesWritten - earlier.pagesWritten
  rolledBack := c.rolledBack - earlier.rolledBack
  commits := c.commits - earlier.commits
  aborts := c.aborts - earlier.aborts

/-- The hit rate in percent, with one place. -/
def hitPercent (c : Counters) : String :=
  (Decimal.Binary.ofFloat (c.hitRate * 100.0)).fixed 1 ++ "%"

instance : ToString Counters where
  toString c :=
    "lookups=" ++ toString c.lookups ++ " hit_rate=" ++ c.hitPercent ++
      " evictions=" ++ toString c.evictions ++
      " io(r/w)=" ++ toString c.pagesRead ++ "/" ++ toString c.pagesWritten ++
      " txns(commit/abort)=" ++ toString c.commits ++ "/" ++ toString c.aborts ++
      " rolled_back=" ++ toString c.rolledBack

end Counters

end TupleStore
