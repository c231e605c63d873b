import TupleStore.Call
import TupleStore.Pool.Completion

/-!
# Sessions

A session is a store that transactions work on side by side, with the guards that are held and the
calls that wait.

* `submit` : begins a call; it ends, or stays pending. A transaction with a pending call begins no
  other (`isBusy`);
* `settle` : takes up the pending calls again, until none of them can go on. A call that ends can make
  way for one that was begun before it;
* `complete` : ends a transaction;
* `hold`, `release` : guards that are kept between calls. They stand in the way of calls that use the
  same page, even those of their own transaction.
-/

namespace TupleStore

set_option autoImplicit false

/-- A call that waits. -/
structure PendingCall where
  /-- What the call is known by. -/
  number : Nat
  call : Call

/-- A store, the guards that are held on it, and the calls that wait. -/
structure Session where
  store : Store
  guards : Std.TreeMap String Guard := ∅
  pending : List PendingCall := []

/-- What a call comes to when it is begun or taken up again. -/
inductive Outcome where
  | done (reply : Reply)
  | failed (error : Error)
  | waiting
  /-- The transaction waits for another call, and this one was not begun. -/
  | busy

namespace Session

/-- Whether a transaction has a call that waits. -/
def isBusy (s : Session) (txn : TxnId) : Bool := s.pending.any fun c => c.call.txn = txn

/-- Runs an action on the store. -/
def perform {α : Type} (s : Session) (x : Action α) : Except Error α × Session :=
  match x s.store with
  | .ok a store => (.ok a, { s with store })
  | .error e store => (.error e, { s with store })

/-- Begins a call, known by a number. -/
def submit (s : Session) (number : Nat) (txn : TxnId) (start : Action Call) : Outcome × Session :=
  if s.isBusy txn then (.busy, s)
  else
    match s.perform (do (← start).run) with
    | (.error e, s) => (.failed e, s)
    | (.ok (.done reply), s) => (.done reply, s)
    | (.ok (.waiting call), s) => (.waiting, { s with pending := s.pending ++ [⟨number, call⟩] })

/-- Takes up a pending call again: what it comes to, if it ends. -/
def resume (s : Session) (c : PendingCall) : Option (Nat × Outcome) × Session :=
  let others := s.pending.filter fun d => d.number ≠ c.number
  match s.perform c.call.run with
  | (.error e, s) => (some (c.number, .failed e), { s with pending := others })
  | (.ok (.done reply), s) => (some (c.number, .done reply), { s with pending := others })
  | (.ok (.waiting call), s) =>
    let pending := s.pending.map fun d => if d.number = c.number then ⟨d.number, call⟩ else d
    (none, { s with pending })

/-- Takes up the first pending call that can go on, at most so many times: what those that end come
to. -/
def resumeAll : Nat → Session → List (Nat × Outcome) × Session
  | 0, s => ([], s)
  | n + 1, s =>
    match s.pending.find? fun c => c.call.isReady s.store.pool with
    | none => ([], s)
    | some c =>
      let (ended, s) := s.resume c
      let (rest, s) := resumeAll n s
      (ended.toList ++ rest, s)

/-- How often pending calls have to be taken up at most: each of their steps once, twice more in the
latch, and once more for every call that can be refused, which makes the others look again. -/
def fuel (s : Session) : Nat :=
  (s.pending.length + 3) * s.pending.foldr (fun c n => c.call.fuel s.store + n) 0

/-- Takes up the pending calls again until none can go on: what those that end come to, by their
numbers. -/
def settle (s : Session) : List (Nat × Outcome) × Session :=
  let (ended, s) := resumeAll s.fuel s
  (ended.mergeSort fun a b => a.1 ≤ b.1, s)

/-- Ends a transaction that has no pending call; nothing if it has one. -/
def complete (s : Session) (txn : TxnId) (wantsCommit : Bool) : Option (Except Error Unit) × Session :=
  if s.isBusy txn then (none, s)
  else
    let (result, s) := s.perform (Action.complete txn wantsCommit)
    (some result, s)

/-! ## Held guards -/

/-- Gives a held guard back; says whether there was one. -/
def release (s : Session) (key : String) : Bool × Session :=
  match s.guards[key]? with
  | none => (false, s)
  | some guard =>
    (true, { s with store := s.store.modifyPool guard.giveBack, guards := s.guards.erase key })

/-- Takes a guard and keeps it under a key; nothing if the transaction has to wait. A
guard that was kept under the key is given back. -/
def hold (s : Session) (key : String) (txn : TxnId) (page : PageId) (mode : LockMode) :
    Except Error (Option Guard) × Session :=
  match s.perform (Action.request txn page mode) with
  | (.ok (some guard), s) =>
    let s := (s.release key).2
    (.ok (some guard), { s with guards := s.guards.insert key guard })
  | (result, s) => (result, s)

/-- The bytes of the page under a held guard. -/
def read? (s : Session) (key : String) : Option Bytes :=
  s.guards[key]?.map fun guard => guard.bytes s.store

/-- Writes bytes at an offset through a held guard: the guard before, and the guard after. There is
nothing to be done if the guard is not one to write, or if the bytes reach past the end of the page,
which the flag then says; the page counts as changed in that case too. -/
def write (s : Session) (key : String) (off : Nat) (data : Bytes) :
    Option (Guard × Guard × Bool) × Session :=
  match s.guards[key]? with
  | none => (none, s)
  | some guard =>
    match guard.mode with
    | .read => (none, s)
    | .write =>
      let action : Action (Guard × Bool) := do
        let guard ← guard.beginChange
        match (guard.bytes (← get)).patch? off data with
        | none => pure (guard, false)
        | some bytes => do
          guard.setBytes bytes
          pure (guard, true)
      match s.perform action with
      | (.ok (after, fits), s) =>
        (some (guard, after, fits), { s with guards := s.guards.insert key after })
      | (.error _, s) => (none, s)

/-- Gives all held guards back. -/
def releaseAll (s : Session) : Session where
  store := s.guards.values.foldl (fun store guard => store.modifyPool guard.giveBack) s.store
  pending := s.pending

/-- Gives all guards back and begins anew with an empty cache of so many frames, if there can be one.
Calls that wait for the old cache are forgotten. -/
def newPool (s : Session) (poolPages : Nat) : Except Error Unit × Session :=
  let s := s.releaseAll
  match s.store.newPool poolPages with
  | .error e => (.error e, s)
  | .ok store => (.ok (), { store })

end Session

end TupleStore
