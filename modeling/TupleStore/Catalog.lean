import Std.Data.TreeMap
import TupleStore.Error

/-!
# The catalog

Which tables there are: each has an id, a name and a handle on its file. Neither two tables of one id
nor two of one name are registered at a time: `add` takes out what stands in the way of the new one.
-/

namespace TupleStore

set_option autoImplicit false

/-- Names a handle: its place in the order in which handles were opened. -/
abbrev HandleId := Nat

/-- A registered table. -/
structure CatalogEntry where
  name : String
  handle : HandleId
deriving DecidableEq, Repr

/-- The registered tables, by id and by name. -/
structure Catalog where
  byId : Std.TreeMap TableId CatalogEntry := ∅
  byName : Std.TreeMap String TableId := ∅

namespace Catalog

/-- The catalog without the table of a name. -/
def removeName (c : Catalog) (name : String) : Catalog :=
  match c.byName[name]? with
  | none => c
  | some id => { byId := c.byId.erase id, byName := c.byName.erase name }

/-- The catalog without the table of an id. -/
def removeId (c : Catalog) (id : TableId) : Catalog :=
  match c.byId[id]? with
  | none => c
  | some entry => { byId := c.byId.erase id, byName := c.byName.erase entry.name }

/-- The catalog with a table in place of those that have its name or its id. -/
def add (c : Catalog) (id : TableId) (name : String) (handle : HandleId) : Catalog :=
  let c := (c.removeName name).removeId id
  { byId := c.byId.insert id ⟨name, handle⟩, byName := c.byName.insert name id }

/-- The catalog of no tables. -/
def empty : Catalog := {}

/-- The handle of a table. -/
def handle (c : Catalog) (id : TableId) : Except Error HandleId :=
  match c.byId[id]? with
  | none => .error (.noSuchTable id)
  | some entry => .ok entry.handle

/-- The id of a name. -/
def tableId? (c : Catalog) (name : String) : Option TableId := c.byName[name]?

/-- The name of an id. -/
def tableName? (c : Catalog) (id : TableId) : Option String := c.byId[id]?.map CatalogEntry.name

/-- The ids, in order. -/
def tableIds (c : Catalog) : List TableId := c.byId.keys

end Catalog

end TupleStore
