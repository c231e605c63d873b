import TupleStore.Checksum.Crc32
import TupleStore.Error
import TupleStore.Log.Record

/-!
# Log frames

The bytes of a log. A frame is the length of a payload and its checksum, four bytes each, and the
payload: a byte for the kind of record, eight for the transaction, and for an update four for the
table, four for the page number and the two contents, each behind four bytes of length. All numbers
have their least significant byte first.

* `payload`, `payload?` : a record as a payload, and back;
* `frame` : a record as a frame;
* `readFrames` : the records of a log. A frame that the end of the log cuts off ends it; one that is
  complete but damaged is an error at the offset where the frame begins.

The checksum is a parameter: nothing here depends on which function it is.
-/

namespace TupleStore.LogRecord

set_option autoImplicit false

/-! ## Payloads -/

/-- A content behind its length. -/
def lengthPrefixed (bytes : Bytes) : Bytes := Bytes.le32 bytes.length ++ bytes

/-- A record as a payload. -/
def payload : LogRecord → Bytes
  | update txn page before after =>
    1 :: (Bytes.le64 txn.number.toNat ++ Bytes.le32 page.table.number.toNat ++ Bytes.le32 page.number ++
      lengthPrefixed before ++ lengthPrefixed after)
  | commit txn => 2 :: Bytes.le64 txn.number.toNat
  | abort txn => 3 :: Bytes.le64 txn.number.toNat

/-- The first `n` bytes of a string that has so many, and the rest. -/
def take? (n : Nat) (bytes : Bytes) : Option (Bytes × Bytes) :=
  if n ≤ bytes.length then some (bytes.take n, bytes.drop n) else none

/-- The number in the first `n` bytes, and the rest. -/
def number? (n : Nat) (bytes : Bytes) : Option (Nat × Bytes) :=
  (take? n bytes).map fun (front, rest) => (Bytes.leNat front, rest)

/-- The content behind its length, and the rest. -/
def lengthPrefixed? (bytes : Bytes) : Option (Bytes × Bytes) := do
  let (length, rest) ← number? 4 bytes
  take? length rest

/-- The record that the fields of an update spell, if nothing is left over. -/
def update? (txn : TxnId) (bytes : Bytes) : Option LogRecord := do
  let (table, rest) ← number? 4 bytes
  let (page, rest) ← number? 4 rest
  let (before, rest) ← lengthPrefixed? rest
  let (after, rest) ← lengthPrefixed? rest
  if rest.isEmpty then some (update txn ⟨⟨UInt32.ofNat table⟩, page⟩ before after) else none

/-- The record that a payload spells. -/
def payload? : Bytes → Option LogRecord
  | [] => none
  | kind :: bytes => do
    let (txn, rest) ← number? 8 bytes
    let txn : TxnId := ⟨UInt64.ofNat txn⟩
    match kind with
    | 1 => update? txn rest
    | 2 => if rest.isEmpty then some (commit txn) else none
    | 3 => if rest.isEmpty then some (abort txn) else none
    | _ => none

/-! ## Frames -/

/-- The bytes of a frame before its payload. -/
def headerSize : Nat := 8

/-- A record as a frame. -/
def frame (checksum : Bytes → UInt32) (r : LogRecord) : Bytes :=
  Bytes.le32 r.payload.length ++ Bytes.le32 (checksum r.payload).toNat ++ r.payload

/-- Records as frames in a row. -/
def frames (checksum : Bytes → UInt32) (rs : List LogRecord) : Bytes :=
  rs.flatMap (frame checksum)

/-- The records of a log whose first byte is at `offset`. -/
def readFramesFrom (checksum : Bytes → UInt32) (offset : Nat) (bytes : Bytes) :
    Except Error (List LogRecord) :=
  if bytes.length < headerSize then .ok []
  else
    let length := Bytes.leNat (bytes.take 4)
    let sum := Bytes.leNat ((bytes.drop 4).take 4)
    let rest := bytes.drop headerSize
    if rest.length < length then .ok []
    else if (checksum (rest.take length)).toNat = sum then
      match payload? (rest.take length) with
      | none => .error (.corruptLog offset)
      | some r => (r :: ·) <$> readFramesFrom checksum (offset + headerSize + length) (rest.drop length)
    else .error (.corruptLog offset)
termination_by bytes.length
decreasing_by simp only [List.length_drop, headerSize] at *; omega

/-- The records of a log. -/
def readFrames (checksum : Bytes → UInt32) (bytes : Bytes) : Except Error (List LogRecord) :=
  readFramesFrom checksum 0 bytes

end TupleStore.LogRecord
