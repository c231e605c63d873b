import TupleStore.Page.Layout
import TupleStore.Tuple.Basic

/-!
# Heap pages

The bytes of a page, read as slots for tuples of a schema. A page is a partial map from slots to
tuples: bit `i % 8` of byte `i / 8` of the header, least significant bit first, says whether slot `i`
holds one.

* `occupancy` : the header bits of the slots, in order;
* `tuple?`, `tuples` : the stored tuples, each with its record id;
* `insert` : store a tuple in the first free slot;
* `delete` : free the slot that a record id names. Only the header bit changes: the bytes of the slot
  stay, so a tuple keeps its slot for as long as it lives.
-/

namespace TupleStore

set_option autoImplicit false

/-! ## Bits -/

namespace Bytes

/-- The bits of a byte, least significant first. -/
def bitsOf (b : UInt8) : List Bool := (List.range 8).map fun i => b.toNat.testBit i

/-- The bits of a byte string. -/
def bits (bytes : Bytes) : List Bool := bytes.flatMap bitsOf

/-- The string with one bit set or cleared. -/
def setBit (bytes : Bytes) (i : Nat) (value : Bool) : Bytes :=
  bytes.modify (i / 8) fun b =>
    let mask : UInt8 := 1 <<< UInt8.ofNat (i % 8)
    if value then b ||| mask else b &&& ~~~mask

@[simp] theorem length_setBit (bytes : Bytes) (i : Nat) (value : Bool) :
    (bytes.setBit i value).length = bytes.length := List.length_modify ..

end Bytes

/-! ## Pages -/

/-- A page, and how its bytes are to be read. -/
structure HeapPage where
  page : PageId
  schema : Schema
  bytes : Bytes

namespace HeapPage

/-- Where things are in the page. -/
def layout (p : HeapPage) : Layout := Layout.ofSchema p.schema p.bytes.length

/-- For every slot, whether it holds a tuple. -/
def occupancy (p : HeapPage) : List Bool :=
  (Bytes.bits (p.bytes.take p.layout.headerSize)).take p.layout.slots

/-- Whether a slot holds a tuple. A slot past the end holds none. -/
def isUsed (p : HeapPage) (slot : Nat) : Bool := p.occupancy[slot]?.getD false

/-- The number of free slots. -/
def freeCount (p : HeapPage) : Nat := p.occupancy.countP (!·)

/-- The first free slot. -/
def firstFree? (p : HeapPage) : Option Nat := p.occupancy.findIdx? (!·)

/-- The bytes of a slot. -/
def slotImage (p : HeapPage) (slot : Nat) : Bytes :=
  (p.bytes.drop (p.layout.slotOffset slot)).take p.layout.tupleSize

/-- The tuple that the bytes of a slot spell, at its place. -/
def read (p : HeapPage) (slot : Nat) : Tuple :=
  Tuple.ofBytes p.schema (p.slotImage slot) (some ⟨p.page, slot⟩)

/-- The tuple of a slot. -/
def tuple? (p : HeapPage) (slot : Nat) : Option Tuple :=
  if p.isUsed slot then some (p.read slot) else none

/-- The stored tuples, in slot order. -/
def tuples (p : HeapPage) : List Tuple :=
  p.occupancy.zipIdx.filterMap fun (used, slot) => if used then some (p.read slot) else none

/-- The page with the tuple's image in a slot and its bit set. -/
def fill (p : HeapPage) (slot : Nat) (t : Tuple) : HeapPage :=
  { p with bytes := (p.bytes.overlay (p.layout.slotOffset slot) t.image).setBit slot true }

/-- The page with the bit of a slot cleared. -/
def vacate (p : HeapPage) (slot : Nat) : HeapPage :=
  { p with bytes := p.bytes.setBit slot false }

/-- Stores a tuple in the first free slot; gives the page and the tuple at its place. -/
def insert (p : HeapPage) (t : Tuple) : Except Error (HeapPage × Tuple) :=
  if t.schema.Agrees p.schema then
    match p.firstFree? with
    | none => .error (.pageFull p.page)
    | some slot => .ok (p.fill slot t, t.place (some ⟨p.page, slot⟩))
  else .error .schemaMismatch

/-- Frees the slot that a record id names. -/
def delete (p : HeapPage) (recordId : Option RecordId) : Except Error HeapPage :=
  match recordId with
  | none => .error (.invalidRecordId .missing)
  | some rid =>
    if rid.page ≠ p.page ∨ p.layout.slots ≤ rid.slot then
      .error (.invalidRecordId (.notASlot rid p.page))
    else if p.isUsed rid.slot then .ok (p.vacate rid.slot)
    else .error (.slotEmpty p.page rid.slot)

end HeapPage

end TupleStore
