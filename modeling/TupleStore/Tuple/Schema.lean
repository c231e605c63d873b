import TupleStore.Tuple.Field

/-!
# Schemas

A schema is a list of columns, each with a type and perhaps a name. Names are for people: two schemas
agree when their types are the same (`Schema.Agrees`).
-/

namespace TupleStore

set_option autoImplicit false

/-- A column of a schema. -/
structure Column where
  type : FieldType
  name : Option String := none
deriving DecidableEq, Repr

instance : ToString Column :=
  ⟨fun c => toString c.type ++ "(" ++ c.name.getD "null" ++ ")"⟩

/-- What the tuples of a table look like. -/
structure Schema where
  columns : List Column
deriving DecidableEq, Repr

namespace Schema

/-- The types of the columns. -/
def types (s : Schema) : List FieldType := s.columns.map Column.type

/-- Two schemas agree when their types are the same, position by position. -/
def Agrees (s t : Schema) : Prop := s.types = t.types

instance (s t : Schema) : Decidable (Agrees s t) := inferInstanceAs (Decidable (s.types = t.types))

/-- All columns of one schema, then all columns of another. -/
def merge (s t : Schema) : Schema := ⟨s.columns ++ t.columns⟩

@[simp] theorem types_merge (s t : Schema) : (s.merge t).types = s.types ++ t.types :=
  List.map_append

/-- The type of a column. -/
def type? (s : Schema) (i : Nat) : Option FieldType := s.types[i]?

/-- The name of a column, if it has one. -/
def name? (s : Schema) (i : Nat) : Option String := s.columns[i]?.bind Column.name

/-- The first column of a name. -/
def indexOf? (s : Schema) (name : String) : Option Nat :=
  s.columns.findIdx? fun c => c.name == some name

/-- The bytes of a tuple. -/
def width (s : Schema) : Nat := s.types.foldr (fun t n => t.width + n) 0

@[simp] theorem width_merge (s t : Schema) : (s.merge t).width = s.width + t.width := by
  unfold width
  rw [types_merge, List.foldr_append]
  induction s.types with
  | nil => simp
  | cons a l ih =>
    simp only [List.foldr_cons, ih]
    omega

theorem Agrees.width_eq {s t : Schema} (h : Agrees s t) : s.width = t.width := by
  rw [width, width, show s.types = t.types from h]

instance : ToString Schema := ⟨fun s => ", ".intercalate (s.columns.map toString)⟩

end Schema

end TupleStore
