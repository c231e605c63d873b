import Std.Data.TreeMap
import TupleStore.Checksum.Crc32
import TupleStore.Text.Utf8

/-!
# Identifiers

Transactions, tables, pages, record slots and cache frames are named by numbers. Each name has a text
for messages, and the names that index maps have a lawful order: tables by number, pages by table
and then by number, records by page and then by slot.
-/

namespace TupleStore

set_option autoImplicit false

/-! ## Transactions -/

/-- Names a transaction. -/
structure TxnId where
  number : UInt64
deriving DecidableEq, Repr

namespace TxnId

instance : Ord TxnId := ⟨compareOn TxnId.number⟩

instance : Std.TransOrd TxnId := inferInstanceAs (Std.TransCmp (compareOn TxnId.number))

instance : Std.LawfulEqOrd TxnId where
  eq_of_compare {a b} h := by
    cases a; cases b
    exact congrArg TxnId.mk (Std.LawfulEqOrd.eq_of_compare h)

instance : ToString TxnId := ⟨fun t => "Txn(" ++ toString t.number.toNat ++ ")"⟩

/-- Hands out the names of transactions, each once. -/
structure Source where
  next : UInt64 := 1

namespace Source

/-- The next name, and the source without it. -/
def draw (s : Source) : TxnId × Source := (⟨s.next⟩, ⟨s.next + 1⟩)

/-- The next `n` names, in the order in which they are drawn. -/
def drawMany : Nat → Source → List TxnId
  | 0, _ => []
  | n + 1, s => s.draw.1 :: drawMany n s.draw.2

end Source

end TxnId

/-! ## Tables -/

/-- Names a table. -/
structure TableId where
  number : UInt32
deriving DecidableEq, Repr

namespace TableId

instance : Ord TableId := ⟨compareOn TableId.number⟩

instance : Std.TransOrd TableId := inferInstanceAs (Std.TransCmp (compareOn TableId.number))

instance : Std.LawfulEqOrd TableId where
  eq_of_compare {a b} h := by
    cases a; cases b
    exact congrArg TableId.mk (Std.LawfulEqOrd.eq_of_compare h)

instance : ToString TableId := ⟨fun t => toString t.number.toNat⟩

/-- The name of the table that a path leads to. It depends on the path alone, so a file that is
opened again keeps its name. -/
def ofPath (path : List Char) : TableId := ⟨crc32 (Utf8.encode path)⟩

end TableId

/-! ## Pages -/

/-- Names a page: its table and its number there. -/
structure PageId where
  table : TableId
  number : Nat
deriving DecidableEq, Repr

namespace PageId

instance : Ord PageId := ⟨compareLex (compareOn PageId.table) (compareOn PageId.number)⟩

instance : Std.TransOrd PageId :=
  inferInstanceAs (Std.TransCmp (compareLex (compareOn PageId.table) (compareOn PageId.number)))

instance : Std.LawfulEqOrd PageId where
  eq_of_compare {a b} h := by
    obtain ⟨ht, hn⟩ := compareLex_eq_eq.1 h
    cases a; cases b
    exact (PageId.mk.injEq ..).mpr ⟨Std.LawfulEqOrd.eq_of_compare ht, Std.LawfulEqOrd.eq_of_compare hn⟩

instance : ToString PageId :=
  ⟨fun p => "Page(" ++ toString p.table ++ ":" ++ toString p.number ++ ")"⟩

/-- Where the page begins in the file of its table. -/
def offset (p : PageId) (pageSize : Nat) : Nat := p.number * pageSize

end PageId

/-! ## Records -/

/-- Names the place of a tuple: its page and its slot there. -/
structure RecordId where
  page : PageId
  slot : Nat
deriving DecidableEq, Repr

namespace RecordId

instance : Ord RecordId := ⟨compareLex (compareOn RecordId.page) (compareOn RecordId.slot)⟩

instance : Std.TransOrd RecordId :=
  inferInstanceAs (Std.TransCmp (compareLex (compareOn RecordId.page) (compareOn RecordId.slot)))

instance : Std.LawfulEqOrd RecordId where
  eq_of_compare {a b} h := by
    obtain ⟨hp, hs⟩ := compareLex_eq_eq.1 h
    cases a; cases b
    exact (RecordId.mk.injEq ..).mpr ⟨Std.LawfulEqOrd.eq_of_compare hp, Std.LawfulEqOrd.eq_of_compare hs⟩

instance : ToString RecordId := ⟨fun r => toString r.page ++ "#" ++ toString r.slot⟩

/-- The records in the order of their names. -/
def sort (rs : List RecordId) : List RecordId := rs.mergeSort fun a b => (compare a b).isLE

end RecordId

/-! ## Frames -/

/-- Names a frame of the page cache: its place among the frames. -/
abbrev FrameId := Nat

/-- The text of a frame's name. -/
def FrameId.text (f : FrameId) : String := "Frame(" ++ toString f ++ ")"

end TupleStore
