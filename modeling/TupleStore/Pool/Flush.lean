import TupleStore.Pool.Completion
import TupleStore.Pool.Progress

/-!
# Flushes in steps

A flush pins its pages, writes them one after the other, and then unpins them all. Before it writes a page
it enters the latch of its frame as a reader does, so it waits for a writer who is at work there. As long as
nobody claims a latch it never waits, and its steps together are the flush of `Pool/Completion`.

* `start` : the flush with its pages pinned;
* `step` : one page written, or all of them unpinned.
-/

namespace TupleStore

set_option autoImplicit false

/-- A flush on its way. -/
structure Flush where
  /-- The transaction whose changes are written, if not those of all. -/
  only : Option TxnId
  pinned : List (PageId × FrameId)
  /-- The pages that are still to be written. -/
  rest : List (PageId × FrameId)
deriving DecidableEq, Repr

namespace Flush

/-- Begins to flush those pages of a list that are cached. -/
def start (only : Option TxnId) (pages : List PageId) : Action Flush := do
  let pinned := Action.cachedOf (← get).pool pages
  Action.modifyPool fun p => pinned.foldl (fun p (_, f) => p.pin f) p
  pure { only, pinned, rest := pinned }

/-- Whether a frame is passed over: one without changes of the transaction. -/
def skips (fl : Flush) (frame : Frame) : Bool :=
  match fl.only with
  | none => false
  | some txn => frame.dirtyBy ≠ some txn

/-- The store with the pages of a flush unpinned. -/
def unpinAll (fl : Flush) (s : Store) : Store :=
  s.modifyPool fun p => fl.pinned.foldl (fun p (_, f) => p.unpin f) p

/-- One step of a flush. A page that cannot be written ends it. -/
def step (fl : Flush) : Action (Progress Flush Unit) := do
  match fl.rest with
  | [] => do
    modify fl.unpinAll
    pure (.finished ())
  | (page, f) :: rest => do
    let frame := (← get).pool.frame f
    if fl.skips frame then pure (.moved { fl with rest })
    else if frame.latch.admits then do
      (Action.writeBack f page).orElseDo fl.unpinAll
      pure (.moved { fl with rest })
    else pure (.blocked fl)

end Flush

end TupleStore
