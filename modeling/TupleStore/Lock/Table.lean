import TupleStore.Error
import TupleStore.Lock.Mode
import TupleStore.Lock.WaitGraph

/-!
# The lock table

Locks on pages, held by transactions until they complete.

* `mode?` : the lock of a transaction on a page, which `holds`, `holders` and `lockedBy` show from
  other sides;
* `blockers` : who stands in the way of a request;
* `acquire` : a request. It is granted at once if nobody does; otherwise the transaction waits, unless
  that would close a cycle of waiting transactions, in which case it is refused;
* `release`, `releaseAll` : give locks back.

A transaction that waits asks again, by the same `acquire`, when locks may have been given back.
-/

namespace TupleStore

set_option autoImplicit false

/-- Who holds one page. -/
structure PageLock where
  shared : Std.TreeSet TxnId := ∅
  exclusive : Option TxnId := none

namespace PageLock

/-- Whether nobody holds the page. -/
def isFree (l : PageLock) : Bool := l.shared.isEmpty && l.exclusive.isNone

/-- Who stands in the way of a request. The only reader may become the writer. -/
def blockers (l : PageLock) (txn : TxnId) (mode : LockMode) : Std.TreeSet TxnId :=
  match l.exclusive, mode with
  | some holder, _ => if holder = txn then ∅ else .ofList [holder]
  | none, .read => ∅
  | none, .write => l.shared.erase txn

/-- The lock with a request granted. A writer's request to read changes nothing. -/
def grant (l : PageLock) (txn : TxnId) : LockMode → PageLock
  | .read => if l.exclusive = some txn then l else { l with shared := l.shared.insert txn }
  | .write => { shared := l.shared.erase txn, exclusive := some txn }

/-- The lock without a holder. -/
def drop (l : PageLock) (txn : TxnId) : PageLock :=
  if l.exclusive = some txn then { l with exclusive := none }
  else { l with shared := l.shared.erase txn }

/-- What a transaction holds of the page. -/
def mode? (l : PageLock) (txn : TxnId) : Option LockMode :=
  if l.exclusive = some txn then some .write
  else if txn ∈ l.shared then some .read
  else none

end PageLock

/-- All locks, and who waits for one. -/
structure LockTable where
  /-- The pages that somebody holds. -/
  pages : Std.TreeMap PageId PageLock := ∅
  /-- The pages that each transaction holds. -/
  held : Std.TreeMap TxnId (Std.TreeSet PageId) := ∅
  /-- What each waiting transaction waits for. -/
  waiting : Std.TreeMap TxnId (PageId × LockMode) := ∅

/-- How a request ends. -/
inductive LockAnswer where
  | granted
  | waits
  /-- Waiting would close a cycle. -/
  | refused
deriving DecidableEq, Repr

namespace LockTable

/-! ## Questions -/

/-- The lock of a page. -/
def lock (t : LockTable) (page : PageId) : PageLock := t.pages.getD page {}

/-- The strongest lock of a transaction on a page. -/
def mode? (t : LockTable) (txn : TxnId) (page : PageId) : Option LockMode := (t.lock page).mode? txn

/-- Whether a transaction holds a page. -/
def holds (t : LockTable) (txn : TxnId) (page : PageId) : Bool := (t.mode? txn page).isSome

/-- The readers of a page, and its writer. -/
def holders (t : LockTable) (page : PageId) : List TxnId × Option TxnId :=
  ((t.lock page).shared.toList, (t.lock page).exclusive)

/-- The pages that a transaction holds, in order. -/
def lockedBy (t : LockTable) (txn : TxnId) : List PageId := (t.held.getD txn ∅).toList

/-- The number of waiting transactions. -/
def waitingCount (t : LockTable) : Nat := t.waiting.size

/-- Who stands in the way of a request. -/
def blockers (t : LockTable) (txn : TxnId) (page : PageId) (mode : LockMode) : Std.TreeSet TxnId :=
  (t.lock page).blockers txn mode

/-- Who waits for whom, by the locks as they are now. -/
def waitGraph (t : LockTable) : WaitGraph :=
  ⟨t.waiting.filterMap fun txn (page, mode) => WaitGraph.edgesOf? txn (t.blockers txn page mode)⟩

/-! ## Requests -/

/-- The table with a transaction not waiting. -/
def stopWaiting (t : LockTable) (txn : TxnId) : LockTable :=
  { t with waiting := t.waiting.erase txn }

/-- The table with a transaction waiting for a page. -/
def startWaiting (t : LockTable) (txn : TxnId) (page : PageId) (mode : LockMode) : LockTable :=
  { t with waiting := t.waiting.insert txn (page, mode) }

/-- The table with a request granted. -/
def grant (t : LockTable) (txn : TxnId) (page : PageId) (mode : LockMode) : LockTable :=
  { t with
    pages := t.pages.insert page ((t.lock page).grant txn mode)
    held := t.held.insert txn ((t.held.getD txn ∅).insert page) }

/-- A request for a lock, or the same request made again by a transaction that waits. -/
def acquire (t : LockTable) (txn : TxnId) (page : PageId) (mode : LockMode) : LockAnswer × LockTable :=
  if (t.blockers txn page mode).isEmpty then (.granted, (t.grant txn page mode).stopWaiting txn)
  else
    let t := t.startWaiting txn page mode
    if t.waitGraph.isDeadlocked txn then (.refused, t.stopWaiting txn) else (.waits, t)

/-! ## Releases -/

/-- The table without a transaction's lock on a page. A page that nobody holds leaves the table. -/
def dropLock (t : LockTable) (txn : TxnId) (page : PageId) : LockTable :=
  let lock := (t.lock page).drop txn
  { t with pages := if lock.isFree then t.pages.erase page else t.pages.insert page lock }

/-- One lock given back early; says whether there was one. -/
def release (t : LockTable) (txn : TxnId) (page : PageId) : Bool × LockTable :=
  if t.holds txn page then
    let pages := (t.held.getD txn ∅).erase page
    let t := t.dropLock txn page
    (true, { t with held := if pages.isEmpty then t.held.erase txn else t.held.insert txn pages })
  else (false, t)

/-- All locks of a transaction given back, and the transaction forgotten. -/
def releaseAll (t : LockTable) (txn : TxnId) : LockTable :=
  let t' := (t.lockedBy txn).foldl (fun t page => t.dropLock txn page) t
  { t' with held := t'.held.erase txn, waiting := t'.waiting.erase txn }

end LockTable

end TupleStore
