import TupleStore.Lock.Mode

/-!
# Latches

A latch keeps the uses of a frame apart: there are many readers at a time, or one writer. It says
nothing about transactions, so two uses by one transaction can stand in each other's way. A writer
first claims the latch, which keeps out all who come later, and then waits until the readers that came
before have left.

* `admits`, `enter`, `leave` : the way in and out;
* `isClear` : whether somebody who has entered can go to work.

The latch is as it was once somebody has entered and left (`leave_enter`), and a writer at work is alone
(`alone_of_isClear`).
-/

namespace TupleStore

set_option autoImplicit false

/-- Who uses the bytes of a frame. -/
structure Latch where
  /-- The number of readers that have entered and not left. -/
  readers : Nat := 0
  /-- Whether a writer has entered and not left. -/
  claimed : Bool := false
deriving DecidableEq, Repr

namespace Latch

/-- Whether somebody can enter. -/
def admits (l : Latch) : Bool := !l.claimed

/-- The latch with somebody entered. -/
def enter (l : Latch) : LockMode → Latch
  | .read => { l with readers := l.readers + 1 }
  | .write => { l with claimed := true }

/-- Whether somebody who has entered can go to work: a reader at once, a writer when no reader is
left. -/
def isClear (l : Latch) : LockMode → Bool
  | .read => true
  | .write => l.readers = 0

/-- The latch with somebody gone who had entered. -/
def leave (l : Latch) : LockMode → Latch
  | .read => { l with readers := l.readers - 1 }
  | .write => { l with claimed := false }

@[simp] theorem leave_enter (l : Latch) (mode : LockMode) (h : l.admits) :
    (l.enter mode).leave mode = l := by
  obtain ⟨readers, claimed⟩ := l
  cases mode <;> simp_all [admits, enter, leave]

/-- While a writer is at work, nobody else is and nobody can enter. -/
theorem alone_of_isClear (l : Latch) (h : (l.enter .write).isClear .write) :
    (l.enter .write).readers = 0 ∧ (l.enter .write).admits = false :=
  ⟨of_decide_eq_true h, rfl⟩

end Latch

end TupleStore
