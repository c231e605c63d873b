import TupleStore.Tuple.Schema

/-!
# Tuples

A tuple carries its schema, its values, and the record id of the slot that holds it, if one does. The
values conform to the schema by construction.

`Tuple.image` is the fixed-width form in which a tuple is stored (`length_image`), and
`Tuple.ofBytes` reads it. The image of a merged tuple is the two images in a row (`image_merge`).
-/

namespace TupleStore

set_option autoImplicit false

/-- A record. -/
structure Tuple where
  schema : Schema
  fields : List Field
  /-- Where the tuple is stored. -/
  recordId : Option RecordId := none
  conforms : fields.map Field.type = schema.types
deriving DecidableEq

namespace Tuple

/-! ## Making tuples -/

/-- A tuple that is not stored yet. Number and types of the values must be those of the schema. -/
def ofFields (schema : Schema) (fields : List Field) : Except Error Tuple :=
  if h : fields.map Field.type = schema.types then .ok ⟨schema, fields, none, h⟩
  else .error .schemaMismatch

/-- All values of one tuple, then all values of another, under the merged schema. -/
def merge (a b : Tuple) : Tuple where
  schema := a.schema.merge b.schema
  fields := a.fields ++ b.fields
  recordId := none
  conforms := by simp [a.conforms, b.conforms]

/-- The same values under another schema of the same types. -/
def withSchema (t : Tuple) (schema : Schema) : Except Error Tuple :=
  if h : schema.Agrees t.schema then .ok ⟨schema, t.fields, t.recordId, t.conforms.trans (Eq.symm h)⟩
  else .error .schemaMismatch

/-- A value replaced by another of the same type. -/
def setField (t : Tuple) (i : Nat) (value : Field) : Except Error Tuple :=
  if h : t.schema.type? i = some value.type then
    .ok ⟨t.schema, t.fields.set i value, t.recordId, by
      rw [List.map_set, t.conforms]
      exact List.ext_getElem? fun j => by
        rw [List.getElem?_set]
        split
        · next e =>
          subst e
          rw [show t.schema.types[i]? = _ from h]
          have := (List.getElem?_eq_some_iff.1 (show t.schema.types[i]? = _ from h)).1
          simp [this]
        · rfl⟩
  else .error .schemaMismatch

/-- The tuple as stored at a record id, or nowhere. -/
def place (t : Tuple) (rid : Option RecordId) : Tuple := { t with recordId := rid }

/-- Two tuples are the same when their types, their values and their places are. -/
def same (a b : Tuple) : Bool :=
  decide (a.schema.Agrees b.schema) && a.fields == b.fields && a.recordId == b.recordId

/-- A value by position. -/
def field? (t : Tuple) (i : Nat) : Option Field := t.fields[i]?

instance : ToString Tuple := ⟨fun t => "\t".intercalate (t.fields.map toString)⟩

/-! ## Images -/

/-- The bytes of the tuple: the images of its values in a row. -/
def image (t : Tuple) : Bytes := t.fields.flatMap Field.image

@[simp] theorem length_image (t : Tuple) : t.image.length = t.schema.width := by
  rw [image, Schema.width, ← t.conforms]
  induction t.fields with
  | nil => rfl
  | cons f fields ih => rw [List.flatMap_cons, List.length_append, ih, f.length_image, List.map_cons, List.foldr_cons]

theorem image_merge (a b : Tuple) : (a.merge b).image = a.image ++ b.image :=
  List.flatMap_append

/-- The buffer with the image written over its first bytes, if it is long enough. -/
def writeInto? (t : Tuple) (buffer : Bytes) : Option Bytes :=
  if t.schema.width ≤ buffer.length then some (buffer.overlay 0 t.image) else none

/-- The values of the given types, read in a row. -/
def decodeFields : List FieldType → Bytes → List Field
  | [], _ => []
  | t :: ts, bytes => t.decode (bytes.take t.width) :: decodeFields ts (bytes.drop t.width)

@[simp] theorem map_type_decodeFields (ts : List FieldType) (bytes : Bytes) :
    (decodeFields ts bytes).map Field.type = ts := by
  induction ts generalizing bytes with
  | nil => rfl
  | cons t ts ih => simp [decodeFields, ih]

/-- The tuple that an image spells. -/
def ofBytes (schema : Schema) (bytes : Bytes) (recordId : Option RecordId) : Tuple where
  schema := schema
  fields := decodeFields schema.types bytes
  recordId := recordId
  conforms := map_type_decodeFields _ _

/-- The tuple at the front of a byte string, if that is long enough. -/
def ofBytes? (schema : Schema) (bytes : Bytes) : Option Tuple :=
  if schema.width ≤ bytes.length then some (ofBytes schema bytes none) else none

end Tuple

end TupleStore
