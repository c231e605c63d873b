import TupleStore.Pool.Store

/-!
# Pages into frames

* `writeBack` : a dirty frame to its file. If it carries a before-image, the change is logged and the
  log forced first;
* `evict` : a frame emptied for another page;
* `takeFrame` : a frame that holds nothing: a free one if there is one, else a victim of the clock;
* `fetch` : the frame of a page, which is read from its file if it is not cached. It is pinned.

A victim that cannot be written stays in its frame and can be chosen again.
-/

namespace TupleStore.Action

set_option autoImplicit false

/-- Writes a dirty frame that still holds the page. -/
def writeBack (f : FrameId) (page : PageId) : Action Unit := do
  let frame := (← get).pool.frame f
  if frame.page = some page ∧ frame.dirtyBy.isSome then
    let h ← resolve page.table
    match frame.before with
    | none => pure ()
    | some b => do
      append (.update b.owner page b.bytes frame.bytes)
      force
    writePage h page frame.bytes
    modifyPool fun p => (p.modifyFrame f Frame.written).count fun c =>
      { c with pagesWritten := c.pagesWritten + 1 }

/-- Empties a frame that the clock no longer tracks. -/
def evict (f : FrameId) : Action Unit := do
  match ((← get).pool.frame f).page with
  | none => pure ()
  | some page => do
    writeBack f page
    modifyPool fun p => (p.unmap f page).count fun c => { c with evictions := c.evictions + 1 }

/-- Chooses a victim and empties it. -/
def takeVictim : Action FrameId := do
  let pool := (← get).pool
  let (victim, clock) := pool.clock.evict pool.isPinned
  modifyPool fun p => { p with clock }
  match victim with
  | none => throw .noEvictablePage
  | some f => do
    (evict f).orElseDo fun s => s.modifyPool fun p => p.touch f
    pure f

/-- Takes a frame that holds nothing. -/
def takeFrame : Action FrameId := do
  modifyPool Pool.reclaim
  match (← get).pool.free with
  | f :: rest => do
    modifyPool fun p => { p with free := rest }
    pure f
  | [] => takeVictim

/-- Reads a page that is not cached into a frame. -/
def load (page : PageId) : Action FrameId := do
  modifyPool fun p => p.count fun c => { c with misses := c.misses + 1 }
  let h ← resolve page.table
  let bytes ← readPage h page
  modifyPool fun p => p.count fun c => { c with pagesRead := c.pagesRead + 1 }
  let f ← takeFrame
  modifyPool fun p => ((p.install f page bytes).pin f).touch f
  note (.loaded page)
  pure f

/-- The frame of a page, pinned. -/
def fetch (page : PageId) : Action FrameId := do
  match (← get).pool.find? page with
  | some f => do
    modifyPool fun p => ((p.pin f).touch f).count fun c => { c with hits := c.hits + 1 }
    pure f
  | none => load page

end TupleStore.Action
