import TupleStore.Log.Frame

/-!
# Write-ahead logs

A log takes records and is forced from time to time; records that were forced outlive a crash.

* `MemoryLog` keeps records as they are, and counts how often it was forced;
* `LogFile` keeps frames: a part that is in its file, and a part that is still to be written. Whole
  frames are written, always to the end of the file, whatever is there (`bytes_append`,
  `bytes_writeOut`). A force writes all of them; so many that the buffer overflows are written before.
-/

namespace TupleStore

set_option autoImplicit false

/-! ## In memory -/

/-- A log in memory. -/
structure MemoryLog where
  records : List LogRecord := []
  forces : Nat := 0

namespace MemoryLog

/-- The log with a record at its end. -/
def append (l : MemoryLog) (r : LogRecord) : MemoryLog := { l with records := l.records ++ [r] }

/-- The log forced once more. -/
def force (l : MemoryLog) : MemoryLog := { l with forces := l.forces + 1 }

end MemoryLog

/-! ## In a file -/

/-- A log in a file. -/
structure LogFile where
  /-- The content of the file. -/
  content : Bytes := []
  /-- Frames in the buffer, which are not in the file yet. -/
  unwritten : Bytes := []

namespace LogFile

/-- The bytes that the buffer has room for. -/
def bufferSize : Nat := 8192

/-- The bytes of the log, those in the file and those still to be written. -/
def bytes (l : LogFile) : Bytes := l.content ++ l.unwritten

/-- All frames written to the end of the file. -/
def writeOut (l : LogFile) : LogFile := ⟨l.content ++ l.unwritten, []⟩

@[simp] theorem bytes_writeOut (l : LogFile) : l.writeOut.bytes = l.bytes := List.append_nil _

/-- The log with a frame at its end. If the frame does not fit into the buffer behind the others, those
are written first; a frame that fills the whole buffer is written at once. -/
def appendFrame (l : LogFile) (frame : Bytes) : LogFile :=
  let l := if l.unwritten.length + frame.length ≤ bufferSize then l else l.writeOut
  let l := { l with unwritten := l.unwritten ++ frame }
  if bufferSize ≤ frame.length then l.writeOut else l

@[simp] theorem bytes_appendFrame (l : LogFile) (frame : Bytes) :
    (l.appendFrame frame).bytes = l.bytes ++ frame := by
  simp only [appendFrame]
  split <;> split <;> simp [bytes, writeOut]

/-- The log with a record at its end. -/
def append (l : LogFile) (r : LogRecord) : LogFile := l.appendFrame (r.frame crc32)

@[simp] theorem bytes_append (l : LogFile) (r : LogRecord) :
    (l.append r).bytes = l.bytes ++ r.frame crc32 := bytes_appendFrame _ _

/-- The log forced: what outlives a crash is all of it. -/
def force (l : LogFile) : LogFile := l.writeOut

/-- The log closed, which writes what is unwritten, and opened again. -/
def reopen (l : LogFile) : LogFile := l.writeOut

/-- The records in the file. -/
def records (l : LogFile) : Except Error (List LogRecord) := LogRecord.readFrames crc32 l.content

end LogFile

/-! ## Either -/

/-- The log of a page cache. -/
inductive Log where
  | memory (log : MemoryLog)
  | file (log : LogFile)

namespace Log

/-- The log with a record at its end. -/
def append : Log → LogRecord → Log
  | memory l, r => memory (l.append r)
  | file l, r => file (l.append r)

/-- The log with all its records made to outlive a crash. -/
def force : Log → Log
  | memory l => memory l.force
  | file l => file l.force

/-- The records that can be read back. -/
def records : Log → Except Error (List LogRecord)
  | memory l => .ok l.records
  | file l => l.records

end Log

end TupleStore
