import TupleStore.Tuple.Schema

/-!
# The layout of a heap page

A heap page is a header, then slots for tuples of one width, then what is left over. The header has a
bit for every slot. The number of slots is the largest for which the slots and their bits fit; the
header is then rounded up to whole bytes.
-/

namespace TupleStore

set_option autoImplicit false

/-- Where things are in a heap page. -/
structure Layout where
  /-- The number of slots. -/
  slots : Nat
  /-- The bytes of the header. -/
  headerSize : Nat
  /-- The bytes of a slot. -/
  tupleSize : Nat
deriving DecidableEq, Repr

namespace Layout

/-- The slots that fit: as many as tuples with one bit each. -/
def slotCount (tupleSize pageSize : Nat) : Nat := pageSize * 8 / (tupleSize * 8 + 1)

/-- The layout of a page for tuples of a width. -/
def ofWidth (tupleSize pageSize : Nat) : Layout where
  slots := slotCount tupleSize pageSize
  headerSize := (slotCount tupleSize pageSize + 7) / 8
  tupleSize := tupleSize

/-- The layout of a page for tuples of a schema. -/
def ofSchema (schema : Schema) (pageSize : Nat) : Layout := ofWidth schema.width pageSize

/-- Where a slot begins. -/
def slotOffset (l : Layout) (slot : Nat) : Nat := l.headerSize + slot * l.tupleSize

end Layout

end TupleStore
