import Mathlib.Data.List.Induction
import TupleStore.Proofs.Lock.Reach

/-!
# Cycles of the wait graph

The graph has the edges that were set last and that nothing has taken away since, and a transaction is deadlocked
exactly if these lead from it back to it.

* `WaitGraph.Op`, `WaitGraph.run` : the changes of the graph;
* `WaitGraph.Recorded` : the edges, told by the changes alone. `edge_apply` says what one change does to an edge, and
  `edge_run` what a whole run does;
* `WaitGraph.Search` : a search that keeps who has been seen and a queue of who is to be looked at, and appends the
  edges of a waiter in any order. It ends (`Search.wellFounded_step`), and whichever way it goes it says the same
  (`Search.answer`);
* `WaitGraph.Exact`, `WaitGraph.run_exact` : the whole.
-/

namespace TupleStore

set_option autoImplicit false

open Relation

namespace WaitGraph

/-! ## Changes of the graph -/

inductive Op where
  | setWaiting (waiter : TxnId) (holders : Std.TreeSet TxnId)
  | clearWaiting (waiter : TxnId)
  | removeTxn (txn : TxnId)
  | clear

def apply (g : WaitGraph) : Op → WaitGraph
  | .setWaiting waiter holders => g.setWaiting waiter holders
  | .clearWaiting waiter => g.clearWaiting waiter
  | .removeTxn txn => g.removeTxn txn
  | .clear => g.clear

def run (g : WaitGraph) (ops : List Op) : WaitGraph := ops.foldl apply g

/-- Whether a change takes the edge from one transaction to another away, if there was one. -/
def Op.Drops (a b : TxnId) : Op → Prop
  | .setWaiting waiter _ => waiter = a
  | .clearWaiting waiter => waiter = a
  | .removeTxn txn => txn = a ∨ txn = b
  | .clear => True

/-- Whether a change sets the edge from one transaction to another. No transaction waits for itself. -/
def Op.Sets (a b : TxnId) : Op → Prop
  | .setWaiting waiter holders => waiter = a ∧ b ∈ holders ∧ b ≠ a
  | _ => False

/-- Some change has set the edge, and none has taken it away since. -/
def Recorded (ops : List Op) (a b : TxnId) : Prop :=
  ∃ earlier op later, ops = earlier ++ op :: later ∧ op.Sets a b ∧ ∀ op ∈ later, ¬op.Drops a b

theorem recorded_concat {ops : List Op} {op : Op} {a b : TxnId} :
    Recorded (ops ++ [op]) a b ↔ op.Sets a b ∨ Recorded ops a b ∧ ¬op.Drops a b := by
  constructor
  · rintro ⟨earlier, op', later, e, hsets, hkept⟩
    rcases List.eq_nil_or_concat later with rfl | ⟨later, last, rfl⟩
    · obtain ⟨-, e⟩ := List.append_inj' e rfl
      cases e
      exact .inl hsets
    · rw [List.concat_eq_append] at e hkept
      rw [← List.cons_append, ← List.append_assoc] at e
      obtain ⟨hops, hlast⟩ := List.append_inj' e rfl
      obtain rfl := List.singleton_inj.1 hlast
      subst hops
      exact .inr ⟨⟨earlier, op', later, rfl, hsets, fun op hop => hkept op (by simp [hop])⟩, hkept _ (by simp)⟩
  · rintro (hsets | ⟨⟨earlier, op', later, rfl, hsets, hkept⟩, hlast⟩)
    · exact ⟨ops, op, [], rfl, hsets, by simp⟩
    · refine ⟨earlier, op', later ++ [op], by simp, hsets, fun op'' hop => ?_⟩
      rcases List.mem_append.1 hop with hop | hop
      · exact hkept op'' hop
      · exact List.mem_singleton.1 hop ▸ hlast

/-! ## What one change does -/

variable {g : WaitGraph} {a b : TxnId}

/-- The edges that are left when one transaction is taken out of the holders. -/
theorem mem_others {holders : Std.TreeSet TxnId} (txn : TxnId) :
    (∃ others, (if (holders.erase txn).isEmpty then none else some (holders.erase txn)) = some others ∧ b ∈ others) ↔
      b ∈ holders ∧ b ≠ txn := by
  have hmem : b ∈ holders.erase txn ↔ b ∈ holders ∧ b ≠ txn := by
    simp only [Std.TreeSet.mem_erase, ne_eq, Std.LawfulEqCmp.compare_eq_iff_eq]
    rw [and_comm, eq_comm]
  rw [← hmem]
  split
  · rename_i he
    simpa using Std.TreeSet.isEmpty_iff_forall_not_mem.1 he b
  · simp

theorem edge_setWaiting (waiter : TxnId) (holders : Std.TreeSet TxnId) :
    (g.setWaiting waiter holders).Edge a b ↔ if a = waiter then b ∈ holders ∧ b ≠ a else g.Edge a b := by
  simp only [setWaiting, Edge, Std.TreeMap.getElem?_alter, Std.LawfulEqCmp.compare_eq_iff_eq]
  by_cases e : waiter = a
  · subst e
    simp only [if_true]
    exact mem_others waiter
  · simp only [e, Ne.symm e, if_false]

theorem edge_clearWaiting (waiter : TxnId) : (g.clearWaiting waiter).Edge a b ↔ g.Edge a b ∧ a ≠ waiter :=
  edge_erase

theorem edge_removeTxn (txn : TxnId) : (g.removeTxn txn).Edge a b ↔ g.Edge a b ∧ a ≠ txn ∧ b ≠ txn := by
  simp only [removeTxn, Edge, Std.TreeMap.getElem?_filterMap', Std.TreeMap.getElem?_erase,
    Std.LawfulEqCmp.compare_eq_iff_eq]
  by_cases e : txn = a
  · simp [e]
  · cases g.edges[a]? with
    | none => simp [e]
    | some holders => simpa [e, Ne.symm e] using mem_others txn

/-- A change sets an edge, or leaves one that it does not take away. -/
theorem edge_apply (op : Op) : (g.apply op).Edge a b ↔ op.Sets a b ∨ g.Edge a b ∧ ¬op.Drops a b := by
  cases op with
  | setWaiting waiter holders =>
    refine (edge_setWaiting waiter holders).trans ?_
    by_cases e : waiter = a
    · simp [Op.Sets, Op.Drops, e]
    · simp [Op.Sets, Op.Drops, e, Ne.symm e]
  | clearWaiting waiter =>
    refine (edge_clearWaiting waiter).trans ?_
    simp [Op.Sets, Op.Drops, eq_comm]
  | removeTxn txn =>
    refine (edge_removeTxn txn).trans ?_
    simp [Op.Sets, Op.Drops, eq_comm]
  | clear => simp [Op.Sets, Op.Drops, apply, clear, Edge]

/-- The edges of the graph are those recorded. The induction is on the changes, the last one first. -/
theorem edge_run (ops : List Op) : (run {} ops).Edge a b ↔ Recorded ops a b := by
  induction ops using List.reverseRecOn with
  | nil => simp [run, Edge, Recorded]
  | append_singleton ops op ih =>
    rw [run, List.foldl_append, List.foldl_cons, List.foldl_nil, edge_apply, recorded_concat]
    exact or_congr_right (and_congr_left' ih)

/-! ## A search with a queue -/

/-- Who has been seen, and who is to be looked at. -/
structure Search where
  seen : List TxnId := []
  queue : List TxnId

/-- A list of all that a transaction waits for, in any order. -/
def Lists (g : WaitGraph) (txn : TxnId) (out : List TxnId) : Prop := ∀ b, b ∈ out ↔ g.Edge txn b

theorem Lists.eq_nil {txn : TxnId} {out : List TxnId} (h : g.Lists txn out) (hkey : txn ∉ g.edges.keys) : out = [] := by
  refine List.eq_nil_iff_forall_not_mem.2 fun b hb => hkey ?_
  rw [Std.TreeMap.mem_keys]
  exact mem_of_edge ((h b).1 hb)

namespace Search

/-- A step of the search for a way to `target`: whoever stands first in the queue is passed over or seen for the first
time, and then all that it waits for are appended. -/
inductive Step (g : WaitGraph) (target : TxnId) : Search → Search → Prop
  | skip {seen queue : List TxnId} {t : TxnId} :
      t ≠ target → t ∈ seen → Step g target ⟨seen, t :: queue⟩ ⟨seen, queue⟩
  | visit {seen queue out : List TxnId} {t : TxnId} :
      t ≠ target → t ∉ seen → g.Lists t out → Step g target ⟨seen, t :: queue⟩ ⟨t :: seen, queue ++ out⟩

/-- Waiters that have not been seen. -/
def unseen (g : WaitGraph) (s : Search) : Nat := (g.edges.keys.filter (· ∉ s.seen)).length

variable {target : TxnId} {s s' : Search}

/-- A visit never leaves more waiters to be seen, and fewer if it is one that it visits. -/
theorem unseen_visit (g : WaitGraph) (seen queue queue' : List TxnId) (t : TxnId) :
    unseen g ⟨t :: seen, queue'⟩ ≤ unseen g ⟨seen, queue⟩ ∧
      (t ∉ seen → t ∈ g.edges.keys → unseen g ⟨t :: seen, queue'⟩ < unseen g ⟨seen, queue⟩) := by
  have hfilter : g.edges.keys.filter (· ∉ t :: seen) = (g.edges.keys.filter (· ∉ seen)).filter (· ≠ t) := by
    rw [List.filter_filter]
    refine List.filter_congr fun x _ => ?_
    simp [List.mem_cons, not_or]
  simp only [unseen, hfilter]
  refine ⟨List.length_filter_le _ _, fun ht hkey => ?_⟩
  exact List.length_filter_lt_length_iff_exists.2 ⟨t, List.mem_filter.2 ⟨hkey, by simpa using ht⟩, by simp⟩

/-- Each step leaves fewer waiters to be seen, or as many and a shorter queue. So the search ends. -/
theorem wellFounded_step (g : WaitGraph) (target : TxnId) : WellFounded (flip (Step g target)) := by
  refine Subrelation.wf (r := InvImage (Prod.Lex (· < ·) (· < ·)) fun s : Search => (s.unseen g, s.queue.length)) ?_
    (InvImage.wf _ (@Prod.lex Nat Nat Nat.lt_wfRel Nat.lt_wfRel).wf)
  intro s' s hstep
  rcases hstep with ⟨hne, hseen⟩ | @⟨seen, queue, out, t, hne, hfresh, hout⟩
  · exact .right _ (by simp)
  · obtain ⟨hle, hlt⟩ := unseen_visit g seen (t :: queue) (queue ++ out) t
    by_cases hkey : t ∈ g.edges.keys
    · exact .left _ _ (hlt hfresh hkey)
    · obtain rfl := hout.eq_nil hkey
      rcases Nat.lt_or_eq_of_le hle with hless | hsame
      · exact .left _ _ hless
      · show Prod.Lex _ _ (_, _) (_, _)
        rw [hsame]
        exact .right _ (by simp)

/-- What is in the queue can be reached, and what a transaction that has been seen waits for has been seen or is in the
queue. -/
structure Sound (g : WaitGraph) (target : TxnId) (s : Search) : Prop where
  reached : ∀ t ∈ s.queue, TransGen g.Edge target t
  missed : target ∉ s.seen
  closed : ∀ a b, a = target ∨ a ∈ s.seen → g.Edge a b → b ∈ s.seen ∨ b ∈ s.queue

theorem Sound.start {out : List TxnId} (hout : g.Lists target out) : Sound g target ⟨[], out⟩ where
  reached t ht := .single ((hout t).1 ht)
  missed := List.not_mem_nil
  closed a b ha hab := by
    rcases ha with rfl | ha
    · exact .inr ((hout b).2 hab)
    · cases ha

theorem Sound.step (h : Sound g target s) (hstep : Step g target s s') : Sound g target s' := by
  cases hstep with
  | skip hne hseen =>
    refine ⟨fun t ht => h.reached t (.tail _ ht), h.missed, fun a b ha hab => ?_⟩
    rcases h.closed a b ha hab with hb | hb
    · exact .inl hb
    · rcases List.mem_cons.1 hb with rfl | hb
      · exact .inl hseen
      · exact .inr hb
  | @visit seen queue out t hne hfresh hout =>
    have ht : TransGen g.Edge target t := h.reached t (.head _)
    refine ⟨fun u hu => ?_, fun hin => ?_, fun a b ha hab => ?_⟩
    · rcases List.mem_append.1 hu with hu | hu
      · exact h.reached u (.tail _ hu)
      · exact ht.tail ((hout u).1 hu)
    · exact (List.mem_cons.1 hin).elim (fun e => hne e.symm) h.missed
    · by_cases hat : a = t
      · subst hat
        exact .inr (List.mem_append_right _ ((hout b).2 hab))
      · have ha : a = target ∨ a ∈ seen := ha.imp_right fun hin => (List.mem_cons.1 hin).resolve_left hat
        rcases h.closed a b ha hab with hb | hb
        · exact .inl (.tail _ hb)
        · rcases List.mem_cons.1 hb with rfl | hb
          · exact .inl (.head _)
          · exact .inr (List.mem_append_left _ hb)

/-- A search that has come to an end has its target before it exactly if that waits for itself. -/
theorem Sound.answer (h : Sound g target s) (hend : ∀ s', ¬Step g target s s') :
    s.queue.head? = some target ↔ TransGen g.Edge target target := by
  constructor
  · intro hhead
    exact h.reached target (List.mem_of_mem_head? hhead)
  · intro hcycle
    obtain ⟨seen, queue⟩ := s
    cases queue with
    | nil =>
      -- all that can be reached has been seen, and the target has not
      have hall : ∀ c, TransGen g.Edge target c → c ∈ seen := by
        intro c hc
        induction hc with
        | single hb => exact (h.closed _ _ (.inl rfl) hb).resolve_right List.not_mem_nil
        | tail _ hbc ih => exact (h.closed _ _ (.inr ih) hbc).resolve_right List.not_mem_nil
      exact absurd (hall target hcycle) h.missed
    | cons t queue =>
      by_cases ht : t = target
      · rw [ht]
        rfl
      · by_cases hseen : t ∈ seen
        · exact absurd (.skip ht hseen) (hend _)
        · exact absurd (.visit ht hseen fun b => edge_iff.symm) (hend _)

/-- Whichever way the search goes, it ends with the answer. -/
theorem answer {out : List TxnId} (hout : g.Lists target out) (hrun : ReflTransGen (Step g target) ⟨[], out⟩ s)
    (hend : ∀ s', ¬Step g target s s') : s.queue.head? = some target ↔ TransGen g.Edge target target := by
  have h : Sound g target s := by
    clear hend
    induction hrun with
    | refl => exact .start hout
    | tail _ hstep ih => exact ih.step hstep
  exact h.answer hend

end Search

/-! ## Exactness -/

/-- What the graph says of a transaction after some changes. -/
structure Exact (ops : List Op) (txn : TxnId) : Prop where
  edge_iff : ∀ a b, (run {} ops).Edge a b ↔ Recorded ops a b
  isDeadlocked_iff : (run {} ops).isDeadlocked txn = true ↔ TransGen (Recorded ops) txn txn
  /-- One that waits, but for nobody who waits for it over any number of others. -/
  aside : (∀ b, Recorded ops txn b → ¬ReflTransGen (Recorded ops) b txn) → (run {} ops).isDeadlocked txn = false
  /-- One that is waited for, but by nobody for whom it waits over any number of others. -/
  ahead : (∀ a, Recorded ops a txn → ¬ReflTransGen (Recorded ops) txn a) → (run {} ops).isDeadlocked txn = false
  /-- The search has come to its end when it has visited every waiter. -/
  visits : ∀ fuel, (run {} ops).edges.size < fuel →
    reaches txn fuel (run {} ops).edges ((run {} ops).edges.getD txn ∅).toList = (run {} ops).isDeadlocked txn
  /-- A search with a queue ends as well, -/
  ends : WellFounded (flip (Search.Step (run {} ops) txn))
  /-- and with the same answer. -/
  answer : ∀ out s, (run {} ops).Lists txn out → ReflTransGen (Search.Step (run {} ops) txn) ⟨[], out⟩ s →
    (∀ s', ¬Search.Step (run {} ops) txn s s') →
      (s.queue.head? = some txn ↔ (run {} ops).isDeadlocked txn = true)

theorem run_exact (ops : List Op) (txn : TxnId) : Exact ops txn := by
  have hedge : (run {} ops).Edge = Recorded ops := funext fun a => funext fun b => propext (edge_run ops)
  have hiff : (run {} ops).isDeadlocked txn = true ↔ TransGen (Recorded ops) txn txn := by
    rw [isDeadlocked_iff, hedge]
  refine ⟨fun _ _ => edge_run ops, hiff, fun haside => ?_, fun hahead => ?_, fun fuel hfuel => ?_,
    Search.wellFounded_step _ _, fun out s hout hrun hend => ?_⟩
  · rw [Bool.eq_false_iff, ne_eq, hiff]
    intro hc
    obtain ⟨b, hb, hp⟩ := TransGen.head'_iff.1 hc
    exact haside b hb hp
  · rw [Bool.eq_false_iff, ne_eq, hiff]
    intro hc
    obtain ⟨a, hp, ha⟩ := TransGen.tail'_iff.1 hc
    exact hahead a ha hp
  · rw [Bool.eq_iff_iff, isDeadlocked, reaches_iff hfuel, reaches_iff (Nat.lt_succ_self _)]
  · rw [Search.answer hout hrun hend, isDeadlocked_iff]

/-- Two transactions wait for each other, one of them for a third as well, and a fourth waits for the cycle. -/
example :
    let g := run {} [.setWaiting ⟨1⟩ {⟨2⟩}, .setWaiting ⟨2⟩ {⟨1⟩, ⟨3⟩}, .setWaiting ⟨3⟩ {⟨4⟩}, .setWaiting ⟨5⟩ {⟨1⟩}]
    [1, 2, 3, 5].map (fun n => g.isDeadlocked ⟨n⟩) = [true, true, false, false] := by
  decide +kernel

end WaitGraph

end TupleStore
