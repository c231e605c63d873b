import TupleStore.Proofs.Cache.SecondChance
import TupleStore.Proofs.Commits
import TupleStore.Proofs.Failing
import TupleStore.Proofs.File.Registry
import TupleStore.Proofs.Images
import TupleStore.Proofs.Iterating
import TupleStore.Proofs.Landing
import TupleStore.Proofs.Lock.Cycles
import TupleStore.Proofs.Lock.Refusing
import TupleStore.Proofs.Lock.Waking
import TupleStore.Proofs.Log.Appending
import TupleStore.Proofs.Page.Geometry
import TupleStore.Proofs.Recovery
import TupleStore.Proofs.Repeating
import TupleStore.Proofs.Serializability
import TupleStore.Proofs.Sessions
import TupleStore.Proofs.Tuple.RoundTrip
import TupleStore.Proofs.WriteAhead
