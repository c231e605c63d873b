import TupleStore.Error

/-!
# Fields

A field is a 32-bit integer or a text. Every type has a fixed width, so all tuples of one schema
are equally long:

* an integer is four bytes, most significant first;
* a text is its number of octets, as four bytes, and then `textCapacity` bytes: its UTF-8 octets and
  zeros. A longer text is clipped at the last character that still fits.

`Field.image` writes a field (`length_image`), `FieldType.decode` reads one (`type_decode`), and
`Field.clip` is what reading brings back.
-/

namespace TupleStore

set_option autoImplicit false

/-- The octets of text that a field can hold. -/
def textCapacity : Nat := 128

/-- The type of a field. -/
inductive FieldType where
  | int
  | text
deriving DecidableEq, Repr

namespace FieldType

/-- The width of a field of this type, in bytes. -/
def width : FieldType → Nat
  | int => 4
  | text => 4 + textCapacity

instance : ToString FieldType where
  toString
    | int => "INT"
    | text => "STRING"

end FieldType

/-- A value of a field. -/
inductive Field where
  | int (value : Int32)
  | text (value : String)
deriving DecidableEq, Repr

namespace Field

/-- The type of a value. -/
def type : Field → FieldType
  | int _ => .int
  | text _ => .text

instance : ToString Field where
  toString
    | int v => toString v.toInt
    | text s => s

/-- Integers come before texts; integers go by value and texts by their octets, which is the order of
their code points. -/
protected def compare : Field → Field → Ordering
  | int a, int b => compare a.toInt b.toInt
  | int _, text _ => .lt
  | text _, int _ => .gt
  | text a, text b => compare a b

instance : Ord Field := ⟨Field.compare⟩

/-- The values in their order. -/
def sort (fs : List Field) : List Field := fs.mergeSort fun a b => (compare a b).isLE

/-- The value with a text clipped to what a field can hold. -/
def clip : Field → Field
  | int v => int v
  | text s => text (String.ofList (Utf8.clip textCapacity s.toList))

/-- The bytes of a value, as wide as its type. -/
def image : Field → Bytes
  | int v => Bytes.be32 v.toUInt32.toNat
  | text s =>
    let octets := Utf8.encode (Utf8.clip textCapacity s.toList)
    Bytes.be32 octets.length ++ Bytes.fit octets textCapacity

@[simp] theorem length_image (f : Field) : f.image.length = f.type.width := by
  cases f <;> simp [image, type, FieldType.width]

/-- The buffer with the value written over its first bytes, if it is long enough. -/
def writeInto? (f : Field) (buffer : Bytes) : Option Bytes :=
  if f.type.width ≤ buffer.length then some (buffer.overlay 0 f.image) else none

end Field

namespace FieldType

/-- The number of octets that the front of a text field announces, at most `textCapacity`. -/
def announced (bytes : Bytes) : Nat := min (Bytes.beNat (bytes.take 4)) textCapacity

/-- The value at the front of a byte string that is long enough. -/
def decode : FieldType → Bytes → Field
  | int, bytes => .int (UInt32.ofNat (Bytes.beNat (bytes.take 4))).toInt32
  | text, bytes => .text (String.ofList (Utf8.decode ((bytes.drop 4).take (announced bytes))))

@[simp] theorem type_decode (t : FieldType) (bytes : Bytes) : (t.decode bytes).type = t := by
  cases t <;> rfl

/-- The bytes that reading a value looks at. The zeros behind a text are not among them. -/
def extent : FieldType → Bytes → Nat
  | int, _ => 4
  | text, bytes => 4 + announced bytes

/-- The value at the front of a byte string, if that is long enough. -/
def decode? (t : FieldType) (bytes : Bytes) : Option Field :=
  if t.extent bytes ≤ bytes.length then some (t.decode bytes) else none

end FieldType

end TupleStore
