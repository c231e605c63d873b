import TupleStore.Cache.Clock
import TupleStore.Cache.Counters
import TupleStore.Config
import TupleStore.Lock.Table
import TupleStore.Pool.Latch

/-!
# The state of the page cache

A pool has a fixed number of frames. A frame that holds a page may be dirty, which means that its
file does not have its bytes yet, and may carry a before-image: the bytes that the page had before the
transaction that changed it. A pinned frame is in use and stays where it is; its latch keeps those
apart that use its bytes.

* `Frame`, `BeforeImage` : a frame and what it carries;
* `Pool` : the frames; which page is in which (`pageTable`); the frames that are free, and those that
  are to become free when they are no longer pinned (`pendingFree`); the clock that chooses among the
  others; the before-images of pages that have left the cache (`retained`); the locks, and how often
  those who wait for one were told to look again (`signals`); the transactions that can only be rolled
  back (`doomed`); and the counters;
* the moves of frames between these parts: `install`, `unmap`, `discard`, `reclaim`.

All of this changes no file and no log.
-/

namespace TupleStore

set_option autoImplicit false

/-! ## Frames -/

/-- The content of a page before a transaction changed it. -/
structure BeforeImage where
  /-- The transaction that changed the page. -/
  owner : TxnId
  bytes : Bytes
  /-- Whether changed content has reached the file, so that a rollback has to write `bytes` there. -/
  onDisk : Bool := false
deriving DecidableEq, Repr

/-- A place for a page. -/
structure Frame where
  bytes : Bytes := []
  /-- The page that the frame holds. -/
  page : Option PageId := none
  /-- The transaction whose changes the file does not have yet. -/
  dirtyBy : Option TxnId := none
  before : Option BeforeImage := none
  /-- How many uses keep the frame in its place. -/
  pins : Nat := 0
  latch : Latch := {}
deriving DecidableEq, Repr

namespace Frame

/-- The frame holding nothing. Its bytes and its uses stay. -/
def reset (f : Frame) : Frame := { f with page := none, dirtyBy := none, before := none }

/-- The before-image, if a transaction owns it. -/
def beforeOf? (f : Frame) (txn : TxnId) : Option BeforeImage := f.before.filter fun b => b.owner = txn

/-- The frame as a transaction begins to change it: its bytes are kept, unless they are already. -/
def capture (f : Frame) (txn : TxnId) : Frame :=
  match f.beforeOf? txn with
  | some _ => f
  | none => { f with before := some { owner := txn, bytes := f.bytes } }

/-- The frame once the file has its bytes. -/
def written (f : Frame) : Frame :=
  { f with dirtyBy := none, before := f.before.map fun b => { b with onDisk := true } }

/-- The frame with the bytes of a before-image, which it gives up. -/
def restore (f : Frame) (b : BeforeImage) : Frame :=
  { f with bytes := b.bytes, dirtyBy := none, before := none }

end Frame

/-! ## Pools -/

/-- The page cache. -/
structure Pool where
  config : Config
  frames : List Frame
  /-- The frame of each cached page. -/
  pageTable : Std.TreeMap PageId FrameId := ∅
  /-- Frames that hold nothing, the next to be used first. -/
  free : List FrameId
  /-- Frames whose page was discarded while they were pinned. -/
  pendingFree : List FrameId := []
  clock : Clock
  /-- Before-images of pages that have left the cache while changed content is in their file. -/
  retained : Std.TreeMap PageId BeforeImage := ∅
  locks : LockTable := {}
  /-- How often those who wait for a lock were told that it may be free now. -/
  signals : Nat := 0
  /-- Transactions that were refused a lock and have not been rolled back yet. -/
  doomed : Std.TreeSet TxnId := ∅
  counters : Counters := {}

namespace Pool

/-- The empty pool of a configuration. -/
def ofConfig (config : Config) : Pool where
  config := config
  frames := List.replicate config.poolPages { bytes := Bytes.zeros config.pageSize }
  free := List.range config.poolPages
  clock := Clock.ofCapacity config.poolPages

/-! ## Questions -/

/-- A frame by its name. -/
def frame (p : Pool) (f : FrameId) : Frame := p.frames[f]?.getD {}

/-- Whether a frame is in use. -/
def isPinned (p : Pool) (f : FrameId) : Bool := 0 < (p.frame f).pins

/-- The frame of a page. -/
def find? (p : Pool) (page : PageId) : Option FrameId := p.pageTable[page]?

/-- The cached pages, in order. -/
def cachedPages (p : Pool) : List PageId := p.pageTable.keys

/-- The number of cached pages. -/
def pageCount (p : Pool) : Nat := p.pageTable.size

/-- The number of frames. -/
def capacity (p : Pool) : Nat := p.frames.length

/-- The number of free frames. -/
def freeFrameCount (p : Pool) : Nat := p.free.length

/-- Whether a page is cached. -/
def contains (p : Pool) (page : PageId) : Bool := p.pageTable.contains page

/-- Whether a page is cached with changes that its file does not have. -/
def isDirty (p : Pool) (page : PageId) : Bool :=
  match p.find? page with
  | none => false
  | some f => (p.frame f).dirtyBy.isSome

/-- Whether a transaction was refused a lock and has not been rolled back yet. -/
def isDoomed (p : Pool) (txn : TxnId) : Bool := p.doomed.contains txn

/-! ## Changes -/

/-- The pool with a frame changed. -/
def modifyFrame (p : Pool) (f : FrameId) (g : Frame → Frame) : Pool :=
  { p with frames := p.frames.modify f g }

/-- The pool with one more use of a frame. -/
def pin (p : Pool) (f : FrameId) : Pool := p.modifyFrame f fun x => { x with pins := x.pins + 1 }

/-- The pool with one use less of a frame. -/
def unpin (p : Pool) (f : FrameId) : Pool := p.modifyFrame f fun x => { x with pins := x.pins - 1 }

/-- The pool with somebody entered into the latch of a frame. -/
def enter (p : Pool) (f : FrameId) (mode : LockMode) : Pool :=
  p.modifyFrame f fun x => { x with latch := x.latch.enter mode }

/-- The pool with somebody gone from the latch of a frame. -/
def leave (p : Pool) (f : FrameId) (mode : LockMode) : Pool :=
  p.modifyFrame f fun x => { x with latch := x.latch.leave mode }

/-- The pool after an access to a frame. -/
def touch (p : Pool) (f : FrameId) : Pool := { p with clock := p.clock.access f }

/-- The pool with something counted. -/
def count (p : Pool) (g : Counters → Counters) : Pool := { p with counters := g p.counters }

/-- The pool with a page in a frame that holds nothing. A before-image of the page that was retained
goes with it. -/
def install (p : Pool) (f : FrameId) (page : PageId) (bytes : Bytes) : Pool :=
  let p := p.modifyFrame f fun x =>
    { x with bytes, page := some page, dirtyBy := none, before := p.retained[page]? }
  { p with retained := p.retained.erase page, pageTable := p.pageTable.insert page f }

/-- The pool with a page gone from its frame. Its before-image is retained. -/
def unmap (p : Pool) (f : FrameId) (page : PageId) : Pool :=
  { p.modifyFrame f Frame.reset with
    pageTable := p.pageTable.erase page
    retained :=
      match (p.frame f).before with
      | none => p.retained
      | some b => p.retained.insert page b }

/-- The pool with a page dropped and not written. Its before-image is retained if changed content is
in the file; otherwise the file has what the before-image says. A frame that is pinned becomes free
only when it no longer is. -/
def discard (p : Pool) (page : PageId) : Pool :=
  match p.find? page with
  | none => p
  | some f =>
    { p.modifyFrame f Frame.reset with
      pageTable := p.pageTable.erase page
      clock := p.clock.remove f
      retained :=
        match (p.frame f).before with
        | some b => if b.onDisk then p.retained.insert page b else p.retained
        | none => p.retained
      free := if p.isPinned f then p.free else f :: p.free
      pendingFree := if p.isPinned f then p.pendingFree ++ [f] else p.pendingFree }

/-- The pool with the discarded frames that are no longer pinned made free. -/
def reclaim (p : Pool) : Pool :=
  let ready := p.pendingFree.filter fun f => !p.isPinned f
  { ready.foldl (fun p f => p.modifyFrame f Frame.reset) p with
    free := ready.reverse ++ p.free
    pendingFree := p.pendingFree.filter p.isPinned }

/-- The pool with a page marked as changed by a transaction, if it is cached. -/
def markDirty (p : Pool) (page : PageId) (txn : TxnId) : Pool :=
  match p.find? page with
  | none => p
  | some f => p.modifyFrame f fun x => { x with dirtyBy := some txn }

/-- The pool after all who wait for a lock were told to look again. -/
def signal (p : Pool) : Pool := { p with signals := p.signals + 1 }

/-- The pool with a transaction that can only be rolled back. -/
def doom (p : Pool) (txn : TxnId) : Pool := { p with doomed := p.doomed.insert txn }

/-- The pool with a transaction no longer doomed. -/
def pardon (p : Pool) (txn : TxnId) : Pool := { p with doomed := p.doomed.erase txn }

/-- The pool without the retained before-images of a transaction. -/
def forget (p : Pool) (txn : TxnId) : Pool :=
  { p with retained := p.retained.filter fun _ b => b.owner ≠ txn }

/-- The retained before-images of a transaction, in the order of their pages. -/
def retainedOf (p : Pool) (txn : TxnId) : List (PageId × BeforeImage) :=
  p.retained.toList.filter fun (_, b) => b.owner = txn

end Pool

end TupleStore
