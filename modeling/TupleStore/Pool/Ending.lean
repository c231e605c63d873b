import TupleStore.Pool.Completion
import TupleStore.Pool.Progress

/-!
# Ends of transactions in steps

A transaction ends in steps, and others can be at work between any two of them: a step is what is done under
one latch or one mutex. A commit logs its changes page by page, puts its record into the log, forces the log,
and writes the pages one by one. A rollback restores its pages one by one, in their frames and then those that
have left the cache, and then puts its record into the log and forces it. The pages are pinned while they are
worked on, and the locks are given back last.

* `start` : the end of a transaction with its pages pinned;
* `step` : what it does next.

Before it logs or writes a page it enters the latch of its frame as a reader does, and before it restores one
as a writer does. As long as no latch is in use it never waits, and its steps together are `complete` of
`Pool/Completion`.
-/

namespace TupleStore

set_option autoImplicit false

/-- What is left to do for the end of a transaction. -/
inductive EndingStage where
  /-- A commit logs the changes of the pages that are left. -/
  | logging (rest : List (PageId × FrameId))
  /-- A rollback restores the pages that are left, in their frames. -/
  | restoring (rest : List (PageId × FrameId))
  /-- A rollback takes the before-images of the pages that have left the cache. -/
  | collecting
  /-- A rollback writes those that are left of them. -/
  | returning (rest : List (PageId × BeforeImage))
  /-- The record of the end is in the log, which is to be forced. -/
  | forcing
  /-- A commit writes the pages that are left. -/
  | writing (rest : List (PageId × FrameId))
  /-- The transaction is about to have ended. -/
  | settling
  /-- It has ended, and still has its locks. -/
  | unlocking
deriving DecidableEq, Repr

/-- The end of a transaction on its way. -/
structure Ending where
  txn : TxnId
  commits : Bool
  /-- A commit was wanted, but the transaction is doomed. -/
  refused : Bool
  pinned : List (PageId × FrameId)
  stage : EndingStage
deriving DecidableEq, Repr

namespace Ending

/-- Begins to end a transaction. The pages that it has locked are pinned, if they are cached. -/
def start (txn : TxnId) (wantsCommit : Bool) : Action Ending := do
  let pool := (← get).pool
  let pinned := Action.cachedOf pool (pool.locks.lockedBy txn)
  let doomed := pool.isDoomed txn
  Action.modifyPool fun p => p.pardon txn
  if wantsCommit && !doomed then do
    Action.modifyPool fun p => pinned.foldl (fun p (_, f) => p.pin f) p
    pure { txn, commits := true, refused := false, pinned, stage := .logging pinned }
  else do
    Action.note (.undoing txn)
    Action.modifyPool fun p => pinned.foldl (fun p (_, f) => p.pin f) p
    pure { txn, commits := false, refused := wantsCommit, pinned, stage := .restoring pinned }

/-- The end of a transaction at another stage. -/
def goto (e : Ending) (stage : EndingStage) : Ending := { e with stage }

/-- The end of a transaction that has nothing pinned any more. -/
def letGo (e : Ending) (stage : EndingStage) : Ending := { e with pinned := [], stage }

/-- The store with the pages of the transaction unpinned. -/
def unpinAll (e : Ending) (s : Store) : Store :=
  s.modifyPool fun p => e.pinned.foldl (fun p (_, f) => p.unpin f) p

/-- What is left of an end that has failed: no pins and no locks. -/
def abandon (e : Ending) (s : Store) : Store := Action.unlock e.txn (e.unpinAll s)

/-- Whether somebody else uses a frame that is to be restored. -/
def isHindered (e : Ending) (page : PageId) (frame : Frame) : Bool :=
  frame.page = some page && (frame.beforeOf? e.txn).isSome && !(frame.latch.admits && frame.latch.isClear .write)

/-- One step of the end of a transaction. -/
def step (e : Ending) : Action (Progress Ending Unit) := do
  match e.stage with
  | .logging [] => do
    Action.append (.commit e.txn)
    pure (.moved (e.goto .forcing))
  | .logging ((page, f) :: rest) => do
    if ((← get).pool.frame f).latch.admits then do
      Action.logChange e.txn page f
      pure (.moved (e.goto (.logging rest)))
    else pure (.blocked e)
  | .restoring [] => do
    modify e.unpinAll
    pure (.moved (e.letGo .collecting))
  | .restoring ((page, f) :: rest) => do
    if e.isHindered page ((← get).pool.frame f) then pure (.blocked e)
    else do
      (Action.restorePage e.txn page f).orElseDo e.abandon
      pure (.moved (e.goto (.restoring rest)))
  | .collecting => do
    let retained := (← get).pool.retainedOf e.txn
    Action.modifyPool fun p => p.forget e.txn
    pure (.moved (e.goto (.returning retained)))
  | .returning [] => do
    Action.append (.abort e.txn)
    pure (.moved (e.goto .forcing))
  | .returning ((page, b) :: rest) => do
    (Action.restoreRetained page b).orElseDo e.abandon
    pure (.moved (e.goto (.returning rest)))
  | .forcing => do
    Action.force
    pure (.moved (e.goto (if e.commits then .writing e.pinned else .settling)))
  | .writing [] => do
    modify e.unpinAll
    pure (.moved (e.letGo .settling))
  | .writing ((page, f) :: rest) => do
    if ((← get).pool.frame f).latch.admits then do
      (Action.writeBack f page).orElseDo e.abandon
      pure (.moved (e.goto (.writing rest)))
    else pure (.blocked e)
  | .settling => do
    if e.commits then Action.modifyPool fun p => p.forget e.txn
    Action.note (.completed e.txn e.commits)
    pure (.moved (e.goto .unlocking))
  | .unlocking => do
    modify (Action.unlock e.txn)
    if e.commits then do
      Action.modifyPool fun p => p.count fun c => { c with commits := c.commits + 1 }
      pure (.finished ())
    else do
      Action.modifyPool fun p => p.count fun c => { c with aborts := c.aborts + 1 }
      if e.refused then throw (.deadlock e.txn) else pure (.finished ())

end Ending

end TupleStore
