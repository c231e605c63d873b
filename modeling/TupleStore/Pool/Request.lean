import TupleStore.Pool.Guard
import TupleStore.Pool.Progress

/-!
# Requests for pages

A transaction asks for a page, to read or to write. A request is an operation in steps that ends with a
guard:

1. a transaction that was refused a lock is doomed: it keeps its locks, but all its requests are
   refused until it is rolled back. This is asked once, when the request is made;
2. the page is locked. A request that waits for the lock looks again when it is told to: whenever locks
   have been given back, and whenever a request has been refused. Nobody is told of a lock that was
   granted. So if a transaction asks for another page while it waits, and is answered, it does not
   count as waiting until its first request looks again;
3. the page is fetched, and stays pinned from then on;
4. the latch of its frame is entered, and then, to write, the readers that are left are waited for.

* `Request.run` : goes on with a request, as far as it can;
* `Request.isReady` : whether a request that waits can go on;
* `Action.request` : a request that is not to wait;
* `Action.releaseLock` : a lock given back before its transaction completes.
-/

namespace TupleStore

set_option autoImplicit false

/-- How far a request for a page has come. -/
inductive RequestStage where
  | fresh
  /-- The lock is held by others. The number of signals tells when this was seen. -/
  | locking (signals : Nat)
  /-- The page is locked and pinned in a frame. -/
  | fetched (frame : FrameId)
  /-- The latch of the frame is entered. -/
  | entered (frame : FrameId)
deriving DecidableEq, Repr

namespace RequestStage

/-- Whether a request that waits at a stage can go on. Only writers wait in a latch. -/
def isReady (p : Pool) : RequestStage → Bool
  | fresh => true
  | locking signals => signals ≠ p.signals
  | fetched f => (p.frame f).latch.admits
  | entered f => (p.frame f).latch.isClear .write

end RequestStage

/-- A request of a transaction for a page. -/
structure Request where
  txn : TxnId
  page : PageId
  mode : LockMode
  stage : RequestStage := .fresh
deriving DecidableEq, Repr

namespace Request

/-- The request at another stage. -/
def goto (r : Request) (stage : RequestStage) : Request := { r with stage }

/-- Asks for the lock, and fetches the page once it is granted. -/
def lock (r : Request) : Action (Progress Request Guard) := do
  let (answer, locks) := (← get).pool.locks.acquire r.txn r.page r.mode
  Action.modifyPool fun p => { p with locks }
  match answer with
  | .granted => do
    let f ← Action.fetch r.page
    pure (.moved (r.goto (.fetched f)))
  | .waits => do
    pure (.blocked (r.goto (.locking (← get).pool.signals)))
  | .refused => do
    Action.modifyPool fun p => (p.doom r.txn).signal
    throw (.deadlock r.txn)

/-- One step of a request. -/
def step (r : Request) : Action (Progress Request Guard) := do
  let pool := (← get).pool
  match r.stage with
  | .fresh =>
    if pool.isDoomed r.txn then throw (.deadlock r.txn)
    r.lock
  | .locking signals => if signals = pool.signals then pure (.blocked r) else r.lock
  | .fetched f =>
    if (pool.frame f).latch.admits then do
      Action.modifyPool fun p => p.enter f r.mode
      pure (.moved (r.goto (.entered f)))
    else pure (.blocked r)
  | .entered f =>
    if (pool.frame f).latch.isClear r.mode then do
      let guard : Guard := { frame := f, page := r.page, txn := r.txn, mode := r.mode }
      let _ ← guard.look
      pure (.finished guard)
    else pure (.blocked r)

/-- Goes on with a request: it has three steps. -/
def run (r : Request) : Action (Advance Request Guard) := Action.advance step 3 r

/-- Goes on with a request, and with its guard as the step of a larger operation goes on. If the request
has to wait, so has the operation, in a state that keeps how far the request has come. -/
def andThen {σ α : Type} (r : Request) (waiting : RequestStage → σ) (body : Guard → Action (Progress σ α)) :
    Action (Progress σ α) := do
  match ← r.run with
  | .done guard => body guard
  | .waiting r => pure (.blocked (waiting r.stage))

end Request

namespace Action

/-- A request that is not to wait: its guard. If it would have to wait, it is not made at all. -/
def request (txn : TxnId) (page : PageId) (mode : LockMode) : Action (Option Guard) := fun s =>
  match Request.run { txn, page, mode } s with
  | .ok (.done guard) s => .ok (some guard) s
  | .ok (.waiting _) _ => .ok none s
  | .error e s => .error e s

/-- Gives back one lock of a transaction before it completes; says whether there was one. -/
def releaseLock (txn : TxnId) (page : PageId) : Action Bool := do
  let (released, locks) := (← get).pool.locks.release txn page
  modifyPool fun p => { (if released then p.signal else p) with locks }
  pure released

end Action

end TupleStore
