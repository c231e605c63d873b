import TupleStore.Pool.Fetch

/-!
# Flushes, commits and rollbacks

* `flushPage`, `flushAll`, `flushTxn` : dirty pages to their files. They keep their before-images, so
  their transactions can still be rolled back;
* `discard` : a page out of the cache, unwritten;
* `commit` : logs every change, then the commit, forces the log, and writes the pages;
* `rollback` : gives every changed page its before-image, in its frame or, if the page has left the
  cache, in its file; then logs the rollback and forces the log;
* `complete` : either of them, and then all locks of the transaction are given back, whatever came of
  it. A doomed transaction is rolled back even if it wants to commit.

Pages are visited in their order. Guards of a transaction must have been given back before it ends, and
guards to write before their pages are flushed.
-/

namespace TupleStore.Action

set_option autoImplicit false

/-! ## Pinned pages -/

/-- The pages of a list that are cached, with their frames. -/
def cachedOf (p : Pool) (pages : List PageId) : List (PageId × FrameId) :=
  pages.filterMap fun page => (p.find? page).map fun f => (page, f)

/-- Runs an action on those pages of a list that are cached. They are pinned meanwhile. -/
def withPinned (pages : List PageId) (body : List (PageId × FrameId) → Action Unit) : Action Unit := do
  let pinned := cachedOf (← get).pool pages
  modifyPool fun p => pinned.foldl (fun p (_, f) => p.pin f) p
  (body pinned).andAlways fun s => s.modifyPool fun p => pinned.foldl (fun p (_, f) => p.unpin f) p

/-- Writes those frames that are dirty, up to the first that cannot be written. -/
def writeBackAll (pinned : List (PageId × FrameId)) : Action Unit :=
  pinned.forM fun (page, f) => writeBack f page

/-! ## Flushes -/

/-- Writes a page if it is cached and dirty. -/
def flushPage (page : PageId) : Action Unit := withPinned [page] writeBackAll

/-- Writes every dirty page. -/
def flushAll : Action Unit := do
  withPinned (← get).pool.cachedPages writeBackAll

/-- Writes every page with changes of a transaction. -/
def flushTxn (txn : TxnId) : Action Unit := do
  withPinned (← get).pool.cachedPages fun pinned =>
    pinned.forM fun (page, f) => do
      if ((← get).pool.frame f).dirtyBy = some txn then writeBack f page

/-- Drops a page from the cache and does not write it. -/
def discard (page : PageId) : Action Unit := modifyPool fun p => p.discard page

/-! ## Commit -/

/-- Logs a transaction's change of a page, if it made one, and gives up the before-image. -/
def logChange (txn : TxnId) (page : PageId) (f : FrameId) : Action Unit := do
  let frame := (← get).pool.frame f
  if frame.page = some page then
    match frame.beforeOf? txn with
    | none => pure ()
    | some b => do
      modifyPool fun p => p.modifyFrame f fun x => { x with before := none }
      append (.update txn page b.bytes frame.bytes)

/-- Makes the changes of a transaction last. The pages are those that it has locked. -/
def commit (txn : TxnId) (pages : List PageId) : Action Unit := do
  withPinned pages fun pinned => do
    pinned.forM fun (page, f) => logChange txn page f
    append (.commit txn)
    force
    writeBackAll pinned
  modifyPool fun p => p.forget txn
  note (.completed txn true)

/-! ## Rollback -/

/-- Gives a cached page its before-image, if a transaction changed it. -/
def restorePage (txn : TxnId) (page : PageId) (f : FrameId) : Action Unit := do
  let frame := (← get).pool.frame f
  if frame.page = some page then
    match frame.beforeOf? txn with
    | none => pure ()
    | some b => do
      modifyPool fun p => p.modifyFrame f fun x => x.restore b
      if b.onDisk then
        let h ← resolve page.table
        writePage h page b.bytes
        modifyPool fun p => p.count fun c => { c with pagesWritten := c.pagesWritten + 1 }
      modifyPool fun p => p.count fun c => { c with rolledBack := c.rolledBack + 1 }

/-- Writes the before-image of a page that has left the cache. -/
def restoreRetained (page : PageId) (b : BeforeImage) : Action Unit := do
  let h ← resolve page.table
  writePage h page b.bytes
  modifyPool fun p => p.count fun c =>
    { c with pagesWritten := c.pagesWritten + 1, rolledBack := c.rolledBack + 1 }

/-- Undoes the changes of a transaction. The pages are those that it has locked. -/
def rollback (txn : TxnId) (pages : List PageId) : Action Unit := do
  note (.undoing txn)
  withPinned pages fun pinned => pinned.forM fun (page, f) => restorePage txn page f
  let retained := (← get).pool.retainedOf txn
  modifyPool fun p => p.forget txn
  retained.forM fun (page, b) => restoreRetained page b
  append (.abort txn)
  force
  note (.completed txn false)

/-! ## Completion -/

/-- The store with all locks of a transaction given back. -/
def unlock (txn : TxnId) (s : Store) : Store :=
  { s.modifyPool fun p => { p.signal with locks := p.locks.releaseAll txn } with
    trace := .unlocked txn :: s.trace }

/-- Ends a transaction. -/
def complete (txn : TxnId) (wantsCommit : Bool) : Action Unit := do
  let pool := (← get).pool
  let pages := pool.locks.lockedBy txn
  let doomed := pool.isDoomed txn
  modifyPool fun p => p.pardon txn
  if wantsCommit && !doomed then
    (commit txn pages).andAlways (unlock txn)
    modifyPool fun p => p.count fun c => { c with commits := c.commits + 1 }
  else
    (rollback txn pages).andAlways (unlock txn)
    modifyPool fun p => p.count fun c => { c with aborts := c.aborts + 1 }
    if wantsCommit then throw (.deadlock txn)

end TupleStore.Action
