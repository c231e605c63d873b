import Mathlib.Logic.Relation
import TupleStore.Lock.WaitGraph

/-!
# The search for a cycle

The search of the wait graph finds a way back to a transaction if there is one, and only then.

* `Paths.avoid` : a path either misses a waiter or leads on from it a last time. This is why the search may
  take the edges of a waiter out of the graph when it visits it;
* `WaitGraph.reaches_iff` : what the search answers, with fuel for every waiter;
* `WaitGraph.isDeadlocked_iff` : a transaction is deadlocked if it waits, over any number of others, for itself.
-/

namespace TupleStore

set_option autoImplicit false

open Relation

/-! ## Paths -/

/-- A path to `c` that visits `b` has a last visit of `b`, and goes on without its edges. -/
theorem Paths.avoid {α : Type} {r : α → α → Prop} {a c : α} (b : α) (h : ReflTransGen r a c) :
    ReflTransGen (fun x y => r x y ∧ x ≠ b) a c ∨
      ∃ d, r b d ∧ ReflTransGen (fun x y => r x y ∧ x ≠ b) d c := by
  induction h using ReflTransGen.head_induction_on with
  | refl => exact .inl .refl
  | @head x y hxy _ ih =>
    rcases ih with ih | ih
    · by_cases e : x = b
      · exact .inr ⟨y, e ▸ hxy, ih⟩
      · exact .inl (.head ⟨hxy, e⟩ ih)
    · exact .inr ih

namespace WaitGraph

variable {edges : Std.TreeMap TxnId (Std.TreeSet TxnId)} {a b target : TxnId}

theorem edge_iff : Edge ⟨edges⟩ a b ↔ b ∈ (edges.getD a ∅).toList := by
  rw [Std.TreeSet.mem_toList, Std.TreeMap.getD_eq_getD_getElem?, Edge]
  cases edges[a]? with
  | none => simp
  | some holders => simp

theorem mem_of_edge (h : Edge ⟨edges⟩ a b) : a ∈ edges := by
  obtain ⟨holders, hg, -⟩ := h
  rw [Std.TreeMap.mem_iff_isSome_getElem?, hg]
  rfl

/-- Without the edges of one waiter, all others are as before. -/
theorem edge_erase : Edge ⟨edges.erase target⟩ a b ↔ Edge ⟨edges⟩ a b ∧ a ≠ target := by
  simp only [Edge, Std.TreeMap.getElem?_erase, Std.LawfulEqCmp.compare_eq_iff_eq]
  by_cases e : target = a
  · simp [e]
  · simp [e, Ne.symm e]

/-- Who can be reached from any of the frontier. -/
def Within (edges : Std.TreeMap TxnId (Std.TreeSet TxnId)) (frontier : List TxnId) (target : TxnId) : Prop :=
  ∃ a ∈ frontier, ReflTransGen (Edge ⟨edges⟩) a target

/-- Those without edges lead nowhere. -/
theorem within_dropWhile (frontier : List TxnId) :
    Within edges (frontier.dropWhile fun t => t ≠ target ∧ t ∉ edges) target ↔
      Within edges frontier target := by
  induction frontier with
  | nil => rfl
  | cons t rest ih =>
    by_cases ht : t ≠ target ∧ t ∉ edges
    · rw [List.dropWhile_cons_of_pos (by simpa using ht), ih]
      refine ⟨fun ⟨a, ha, hp⟩ => ⟨a, .tail _ ha, hp⟩, fun ⟨a, ha, hp⟩ => ?_⟩
      rcases List.mem_cons.1 ha with rfl | ha
      · rcases ReflTransGen.cases_head hp with e | ⟨b, hb, -⟩
        · exact absurd e ht.1
        · exact absurd (mem_of_edge hb) ht.2
      · exact ⟨a, ha, hp⟩
    · rw [List.dropWhile_cons_of_neg (by simpa using ht)]

/-- The edges of a waiter can be exchanged for those that it leads to. -/
theorem within_visit {t : TxnId} (rest : List TxnId) (ht : t ≠ target) :
    Within (edges.erase t) ((edges.getD t ∅).toList ++ rest) target ↔ Within edges (t :: rest) target := by
  have herase : ∀ a, ReflTransGen (Edge ⟨edges.erase t⟩) a target ↔
      ReflTransGen (fun x y => Edge ⟨edges⟩ x y ∧ x ≠ t) a target := by
    intro a
    constructor <;> intro h
    · exact ReflTransGen.mono (fun _ _ => edge_erase.1) _ _ h
    · exact ReflTransGen.mono (fun _ _ => edge_erase.2) _ _ h
  constructor
  · rintro ⟨a, ha, hp⟩
    have hp := ReflTransGen.mono (fun _ _ => And.left) _ _ ((herase a).1 hp)
    rcases List.mem_append.1 ha with ha | ha
    · exact ⟨t, .head _, .head (edge_iff.2 ha) hp⟩
    · exact ⟨a, .tail _ ha, hp⟩
  · rintro ⟨a, ha, hp⟩
    rcases Paths.avoid t hp with hp | ⟨b, hb, hp⟩
    · rcases List.mem_cons.1 ha with rfl | ha
      · rcases ReflTransGen.cases_head hp with e | ⟨b, hb, -⟩
        · exact absurd e ht
        · exact absurd rfl hb.2
      · exact ⟨a, List.mem_append_right _ ha, (herase a).2 hp⟩
    · exact ⟨b, List.mem_append_left _ (edge_iff.1 hb), (herase b).2 hp⟩

/-- The search, with more fuel than there are waiters, finds exactly what can be reached. The induction is on
the fuel; every visit takes one waiter out of the graph. -/
theorem reaches_iff {fuel : Nat} {frontier : List TxnId} (hf : edges.size < fuel) :
    reaches target fuel edges frontier = true ↔ Within edges frontier target := by
  induction fuel generalizing edges frontier with
  | zero => omega
  | succ fuel ih =>
    rw [reaches, ← within_dropWhile]
    cases hd : frontier.dropWhile fun t => t ≠ target ∧ t ∉ edges with
    | nil => simp [Within]
    | cons t rest =>
      dsimp only
      split
      · rename_i e
        exact iff_of_true rfl ⟨t, .head _, e ▸ .refl⟩
      · rename_i ht
        have hmem : t ∈ edges := by
          have hkept := List.head?_dropWhile_not (fun t => decide (t ≠ target ∧ t ∉ edges)) frontier
          rw [hd] at hkept
          simpa [ht] using hkept
        have hsize : (edges.erase t).size < fuel := by
          have hpos : edges.size ≠ 0 := fun h0 => by
            have he : edges.isEmpty = true := by rw [Std.TreeMap.isEmpty_eq_size_eq_zero, h0]; rfl
            exact Std.TreeMap.isEmpty_iff_forall_not_mem.1 he t hmem
          rw [Std.TreeMap.size_erase, if_pos (Std.TreeMap.mem_iff_contains.1 hmem)]
          omega
        rw [ih hsize, within_visit rest ht]

/-- A transaction is deadlocked if it waits, over any number of others, for itself. -/
theorem isDeadlocked_iff {g : WaitGraph} {txn : TxnId} :
    g.isDeadlocked txn = true ↔ TransGen g.Edge txn txn := by
  rw [isDeadlocked, reaches_iff (Nat.lt_succ_self _), TransGen.head'_iff]
  simp only [Within, ← edge_iff]

end WaitGraph

end TupleStore
