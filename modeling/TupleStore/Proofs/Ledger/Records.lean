import TupleStore.Pool.Store

/-!
# Records in a log

* `recorded` : the records that a trace has put into the log, oldest first;
* `Log.Holds` : a log has these records, in memory or as frames, and nothing else. It takes one more with every
  `append` (`Log.Holds.append`), and a force changes nothing of them (`Log.Holds.force`).
-/

namespace TupleStore

set_option autoImplicit false

/-- The records that a trace has put into the log, oldest first. -/
def recorded : List Effect → List LogRecord
  | [] => []
  | .logged r :: past => recorded past ++ [r]
  | _ :: past => recorded past

namespace Log

/-- The records of a log, whether they are in its file yet or not. -/
def Holds : Log → List LogRecord → Prop
  | memory l, rs => l.records = rs
  | file l, rs => l.bytes = LogRecord.frames crc32 rs

variable {l : Log} {rs : List LogRecord}

theorem Holds.append (h : l.Holds rs) (r : LogRecord) : (l.append r).Holds (rs ++ [r]) := by
  cases l with
  | memory l => exact congrArg (· ++ [r]) h
  | file l =>
    show (l.append r).bytes = LogRecord.frames crc32 (rs ++ [r])
    rw [LogFile.bytes_append, show l.bytes = _ from h]
    simp [LogRecord.frames]

theorem Holds.force (h : l.Holds rs) : l.force.Holds rs := by
  cases l with
  | memory l => exact h
  | file l => exact (LogFile.bytes_writeOut l).trans h

end Log

end TupleStore
