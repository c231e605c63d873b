import Std.Data.TreeMap
import Std.Data.TreeSet
import TupleStore.Ident

/-!
# The graph of waiting transactions

An edge from `a` to `b` says that `a` waits for a lock that `b` holds. A transaction that can reach
itself is in a deadlock; one that only waits for such a transaction, or is waited for, is not.

* `setWaiting`, `clearWaiting`, `removeTxn`, `clear` : change the edges;
* `isDeadlocked` : whether a transaction lies on a cycle. The search visits a waiter at most once,
  as it takes the edges of each one it visits out of the graph.
-/

namespace TupleStore

set_option autoImplicit false

/-- Who waits for whom. Every waiter has at least one edge, and none to itself. -/
structure WaitGraph where
  edges : Std.TreeMap TxnId (Std.TreeSet TxnId) := ∅

namespace WaitGraph

/-- The edges of a waiter behind some holders: none to itself, and nothing where none is left. -/
def edgesOf? (waiter : TxnId) (holders : Std.TreeSet TxnId) : Option (Std.TreeSet TxnId) :=
  let others := holders.erase waiter
  if others.isEmpty then none else some others

/-- The graph in which a waiter waits for these holders and for nobody else. -/
def setWaiting (g : WaitGraph) (waiter : TxnId) (holders : Std.TreeSet TxnId) : WaitGraph :=
  ⟨g.edges.alter waiter fun _ => edgesOf? waiter holders⟩

/-- The graph in which a transaction waits for nobody. -/
def clearWaiting (g : WaitGraph) (waiter : TxnId) : WaitGraph := ⟨g.edges.erase waiter⟩

/-- The graph without the edges from and to a transaction. -/
def removeTxn (g : WaitGraph) (txn : TxnId) : WaitGraph :=
  ⟨(g.edges.erase txn).filterMap fun _ holders =>
    let others := holders.erase txn
    if others.isEmpty then none else some others⟩

/-- The graph without edges. -/
def clear (_ : WaitGraph) : WaitGraph := ⟨∅⟩

/-- The edge from one transaction to another. -/
def Edge (g : WaitGraph) (a b : TxnId) : Prop := ∃ holders, g.edges[a]? = some holders ∧ b ∈ holders

/-- Whether `target` is in the frontier or can be reached from it. Each unit of fuel visits one waiter
and takes its edges away. -/
def reaches (target : TxnId) :
    (fuel : Nat) → Std.TreeMap TxnId (Std.TreeSet TxnId) → (frontier : List TxnId) → Bool
  | 0, _, _ => false
  | fuel + 1, edges, frontier =>
    match frontier.dropWhile fun t => t ≠ target ∧ t ∉ edges with
    | [] => false
    | t :: rest =>
      if t = target then true
      else reaches target fuel (edges.erase t) ((edges.getD t ∅).toList ++ rest)

/-- Whether a transaction lies on a cycle. One visit for every waiter, and one to end on, are enough. -/
def isDeadlocked (g : WaitGraph) (txn : TxnId) : Bool :=
  reaches txn (g.edges.size + 1) g.edges (g.edges.getD txn ∅).toList

end WaitGraph

end TupleStore
