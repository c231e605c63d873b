import TupleStore.Ident

/-!
# The clock

Second-chance replacement over a fixed number of frames. A tracked frame has a reference bit, which
every access sets. The hand goes round the frames: pinned and untracked ones are passed by, a
referenced one loses its bit and is passed by, and the first other one is the victim.

* `access`, `remove` : start and stop tracking (`access?`, `remove?` refuse frames that there are not);
* `evict` : the victim, and the clock after it. Two rounds are enough, since the first clears the bits.
-/

namespace TupleStore

set_option autoImplicit false

/-- What the clock knows of a frame. -/
structure ClockSlot where
  tracked : Bool := false
  referenced : Bool := false
deriving DecidableEq, Repr

/-- The frames in a ring, and the hand. -/
structure Clock where
  slots : List ClockSlot
  hand : Nat := 0
  /-- How many frames are tracked. -/
  size : Nat := 0
deriving DecidableEq, Repr

namespace Clock

/-- The clock that tracks none of its frames. -/
def ofCapacity (n : Nat) : Clock := { slots := List.replicate n {} }

/-- The clock after an access to a frame. -/
def access (c : Clock) (frame : FrameId) : Clock :=
  match c.slots[frame]? with
  | none => c
  | some slot =>
    { c with
      slots := c.slots.set frame ⟨true, true⟩
      size := if slot.tracked then c.size else c.size + 1 }

/-- The clock with a frame no longer tracked. A frame that is not tracked stays as it is. -/
def remove (c : Clock) (frame : FrameId) : Clock :=
  match c.slots[frame]? with
  | none => c
  | some slot => if slot.tracked then { c with slots := c.slots.set frame {}, size := c.size - 1 } else c

/-- The clock after an access, if there is such a frame. -/
def access? (c : Clock) (frame : FrameId) : Option Clock :=
  if frame < c.slots.length then some (c.access frame) else none

/-- The clock with a frame no longer tracked, if there is such a frame. -/
def remove? (c : Clock) (frame : FrameId) : Option Clock :=
  if frame < c.slots.length then some (c.remove frame) else none

/-- The hand moved to the next frame. -/
def advance (c : Clock) : Clock := { c with hand := (c.hand + 1) % c.slots.length }

/-- The sweep of the hand over at most so many frames. -/
def sweep (isPinned : FrameId → Bool) : Nat → Clock → Option FrameId × Clock
  | 0, c => (none, c)
  | steps + 1, c =>
    let slot := c.slots[c.hand]?.getD {}
    if !slot.tracked || isPinned c.hand then sweep isPinned steps c.advance
    else if slot.referenced then
      sweep isPinned steps
        { c.advance with slots := c.slots.set c.hand { slot with referenced := false } }
    else (some c.hand, { c.advance with slots := c.slots.set c.hand {}, size := c.size - 1 })

/-- The frame to be used anew, if any can be, and the clock after it is chosen. -/
def evict (c : Clock) (isPinned : FrameId → Bool) : Option FrameId × Clock :=
  sweep isPinned (2 * c.slots.length) c

end Clock

end TupleStore
