import Mathlib.Data.List.Induction
import TupleStore.Proofs.Table.History

/-!
# Scans

A scan that ends has found the rows that its transaction is to see at that moment, in the pages that there were when
it began: those that are committed by then, with what the transaction itself has made of them.

* `Scan.Sees` : a scan on its way has found what its transaction is to see in the pages that it is through with, and
  has them locked. It is kept by the steps of the scan (`Scan.Sees.add`) and by whatever else happens meanwhile
  (`World.sees_apply`);
* `World.Turn` : what becomes of the tasks, and `World.Alone` : a transaction that scans has no other call;
* `World.Follows` : what is known of a world after a run;
* `World.run_scans` : the scan that ends.
-/

namespace TupleStore

set_option autoImplicit false

open TupleStore.Action

variable {s₀ s s' : Store} {uses : List Use} {w : World} {r : Rows} {op : Op} {t : TxnId}

/-! ## Calls begun -/

theorem Start.Begins.caller {start : Start} {c : Call} (h : start.Begins s c) : c.caller = start.caller := by
  cases h <;> rfl

theorem Start.Begins.asks {start : Start} {c : Call} (h : start.Begins s c) {change : Change} (hc : c.Asks change) :
    start.Asks change := by
  cases h with
  | delete => exact ⟨_, rfl, hc⟩
  | deleteById => exact ⟨_, rfl, hc⟩
  | _ => exact hc

/-- A record id that lies in a table now lay in it from the beginning. -/
theorem Stands.table_eq (h : Stands s₀ uses s) {hd : HandleId} {file file₀ : HeapFile} (hf : s.file? hd = some file)
    (hf₀ : s₀.file? hd = some file₀) : file.id = file₀.id := by
  obtain ⟨file', hf', hshape⟩ := h.ground.grown.file_back hf
  cases hf₀.symm.trans hf'
  exact congrArg Prod.fst hshape

theorem Start.Begins.plain {start : Start} {c : Call} (hc : start.Begins s c) (h : Stands s₀ uses s)
    (hplain : start.isPlain = true) : c.Plain s₀ := by
  cases hc with
  | write t page patch =>
    cases patch with
    | none => rfl
    | some patch => cases hplain
  | delete hfile hin => exact fun file₀ hfile₀ => hin.trans (h.table_eq hfile hfile₀)
  | deleteById hfile hin => exact fun file₀ hfile₀ => hin.trans (h.table_eq hfile hfile₀)
  | _ => trivial

/-! ## Scans on their way -/

/-- A scan has found what its transaction is to see in the pages that it is through with, and has them locked. -/
structure Scan.Sees (s₀ s : Store) (c : Scan) : Prop where
  within : c.state.next ≤ c.state.limit
  found : ∀ file schema, s₀.file? c.handle = some file → s₀.schema? file.id = some schema →
    c.found = (List.range c.state.next).flatMap fun n =>
      ((contents s₀.onFile s.trace).heap c.txn schema ⟨file.id, n⟩).tuples
  locked : ∀ file, s₀.file? c.handle = some file → ∀ n < c.state.next,
    s.pool.locks.mode? c.txn ⟨file.id, n⟩ ≠ none

namespace Scan.Sees

variable {c : Scan}

/-- The pages stay locked, and as the transaction sees them. -/
theorem keep (h : c.Sees s₀ s) (hkeep : ∀ page, s.pool.locks.mode? c.txn page ≠ none →
    s'.pool.locks.mode? c.txn page ≠ none ∧
      (contents s₀.onFile s'.trace).view c.txn page = (contents s₀.onFile s.trace).view c.txn page) :
    c.Sees s₀ s' where
  within := h.within
  found file schema hf hs := by
    rw [h.found file schema hf hs]
    refine congrArg List.flatten (List.map_congr_left fun n hn => ?_)
    rw [Contents.heap, Contents.heap, (hkeep _ (h.locked file hf n (List.mem_range.1 hn))).2]
  locked file hf n hn := (hkeep _ (h.locked file hf n hn)).1

theorem looks {actor : Option TxnId} (h : c.Sees s₀ s) (hl : Leads (Effect.Looks actor) s s') : c.Sees s₀ s' :=
  h.keep fun page hm => ⟨hl.locks.ne_none hm, by rw [contents_of_looks _ hl.trace]⟩

/-- One more page is read. -/
theorem add {file : HeapFile} {schema : Schema} (h : c.Sees s₀ s) (hf : s₀.file? c.handle = some file)
    (hs : s₀.schema? file.id = some schema) (hn : c.state.next < c.state.limit)
    (hlock : s.pool.locks.mode? c.txn ⟨file.id, c.state.next⟩ ≠ none) :
    (c.add ⟨c.state.next + 1, c.state.limit,
      ((contents s₀.onFile s.trace).heap c.txn schema ⟨file.id, c.state.next⟩).tuples⟩).Sees s₀ s where
  within := hn
  found file' schema' hf' hs' := by
    cases hf.symm.trans hf'
    cases hs.symm.trans hs'
    show c.found ++ _ = (List.range (c.state.next + 1)).flatMap _
    rw [List.range_succ, List.flatMap_append, h.found file schema hf hs, List.flatMap_singleton]
    rfl
  locked file' hf' n hn' := by
    cases hf.symm.trans hf'
    rcases Nat.lt_succ_iff_lt_or_eq.1 hn' with hlt | rfl
    · exact h.locked file hf n hlt
    · exact hlock

end Scan.Sees

/-- What is known of a call that goes on. -/
structure Call.Goes (s₀ s : Store) (c c' : Call) (s' : Store) : Prop where
  caller : c'.caller = c.caller
  asks : c'.Asks = c.Asks
  plain : c'.Plain s₀
  scan : ∀ sc', c' = .scan sc' → ∃ sc, c = .scan sc ∧ sc'.txn = sc.txn ∧ sc'.handle = sc.handle ∧
    sc'.state.limit = sc.state.limit ∧ (sc.Sees s₀ s → sc'.Sees s₀ s')

theorem Stands.scan_goes {c : Scan} (h : Stands s₀ ((Call.scan c).uses s₀ ++ uses) s) (hin : Inside s.trace) :
    (Call.scan c).step.Ends s
      (fun p s' => ∀ c', p = .moved c' ∨ p = .blocked c' → (Call.scan c).Goes s₀ s c' s') fun _ _ => True := by
  unfold Call.step
  rw [ends_bind]
  refine (scan_reads h hin).mono (fun p s' h' => ?_) fun _ _ _ => trivial
  obtain ⟨hl, h'⟩ := h'
  intro c' hc'
  cases p with
  | finished ts => rcases hc' with e | e <;> cases e
  | moved sc' =>
    obtain ⟨hn, file, schema, hf, hs, rfl, hlock⟩ := h'
    obtain rfl : _ = c' := by rcases hc' with e | e <;> cases e; rfl
    refine ⟨rfl, rfl, trivial, fun _ e => ⟨c, rfl, ?_⟩⟩
    cases e
    refine ⟨rfl, rfl, rfl, fun hsees => ?_⟩
    rw [← contents_of_looks _ hl.trace]
    exact (hsees.looks hl).add hf hs hn hlock
  | blocked sc' =>
    obtain ⟨asking, rfl⟩ := h'
    obtain rfl : _ = c' := by rcases hc' with e | e <;> cases e; rfl
    refine ⟨rfl, rfl, trivial, fun _ e => ⟨c, rfl, ?_⟩⟩
    cases e
    exact ⟨rfl, rfl, rfl, fun hsees =>
      have hsees := hsees.looks hl
      ⟨hsees.within, hsees.found, hsees.locked⟩⟩

theorem Stands.scan_finds {c : Scan} (h : Stands s₀ ((Call.scan c).uses s₀ ++ uses) s) (hin : Inside s.trace) :
    (Call.scan c).step.Ends s
      (fun p _ => ∀ ts, p = .finished (.tuples ts) → ts = c.found ∧ c.state.limit ≤ c.state.next) fun _ _ => True := by
  unfold Call.step
  rw [ends_bind]
  refine (scan_reads h hin).mono (fun p s' h' => ?_) fun _ _ _ => trivial
  rintro ts hts
  cases p with
  | finished found =>
    cases hts
    exact h'.2
  | moved sc' => cases hts
  | blocked sc' => cases hts

theorem Stands.goes {c : Call} (h : Stands s₀ (c.uses s₀ ++ uses) s) (hc : c.Plain s₀) (ht : Tells s₀ r s.trace) :
    c.step.Ends s (fun p s' => ∀ c', p = .moved c' ∨ p = .blocked c' → c.Goes s₀ s c' s') fun _ _ => True := by
  have hother : c.caller.2 = false →
      c.step.Ends s (fun p s' => ∀ c', p = .moved c' ∨ p = .blocked c' → c.Goes s₀ s c' s') fun _ _ => True := by
    intro hcaller
    refine (h.call_tells hc ht).mono (fun p s' h' c' hc' => ?_) fun _ _ _ => trivial
    obtain ⟨he, hasks, hplain, -⟩ : c'.caller = c.caller ∧ c'.Asks = c.Asks ∧ c'.Plain s₀ ∧ Tells s₀ r s'.trace := by
      rcases hc' with rfl | rfl
      · exact h'
      · exact h'
    refine ⟨he, hasks, hplain, fun sc' e => ?_⟩
    rw [← he, e] at hcaller
    cases hcaller
  cases c with
  | scan sc => exact h.scan_goes ht.inside
  | _ => exact hother rfl

namespace World

/-! ## Tasks -/

/-- What becomes of the tasks. Calls are begun and go on, one at a time; other tasks are no matter. -/
inductive Turn (s₀ : Store) (w : World) : Op → World → Prop where
  | stay {op : Op} {w' : World} (hidle : ∀ i, op = .advance i → w.tasks[i]? = none) (htasks : w'.tasks = w.tasks) :
    Turn s₀ w op w'
  | adds {op : Op} {w' : World} {task : Task} (hop : ∀ i, op ≠ .advance i) (htask : task.caller? = none)
    (htasks : w'.tasks = task :: w.tasks) : Turn s₀ w op w'
  | begins {start : Start} {c : Call} {w' : World} (hc : start.Begins w.store c)
    (htasks : w'.tasks = .call c :: w.tasks) : Turn s₀ w (.begin start) w'
  | ends {i : Nat} {w' : World} (htasks : w'.tasks = w.tasks.eraseIdx i) : Turn s₀ w (.advance i) w'
  | steps {i : Nat} {c c' : Call} {w' : World} (hi : w.tasks[i]? = some (.call c))
    (hc : c.Goes s₀ w.store c' w'.store) (htasks : w'.tasks = w.tasks.set i (.call c')) : Turn s₀ w (.advance i) w'
  | other {i : Nat} {task task' : Task} {w' : World} (hi : w.tasks[i]? = some task) (htask : task.caller? = none)
    (htask' : task'.caller? = none) (htasks : w'.tasks = w.tasks.set i task') : Turn s₀ w (.advance i) w'

theorem turn_perform {α : Type} {x : Action α} {onOk : α → World → World} (hop : ∀ i, op ≠ .advance i)
    (hon : ∀ a w, (onOk a w).tasks = w.tasks ∨
      ∃ task : Task, task.caller? = none ∧ (onOk a w).tasks = task :: w.tasks) :
    Turn s₀ w op (w.perform x onOk) := by
  unfold World.perform
  split
  · rename_i a s _
    rcases hon a { w with store := s } with h | ⟨task, htask, h⟩
    · exact .stay (fun i e => absurd e (hop i)) h
    · exact .adds hop htask h
  · exact .stay (fun i e => absurd e (hop i)) rfl

theorem turn_other {i : Nat} {task : Task} (hi : w.tasks[i]? = some task) (htask : task.caller? = none) :
    Turn s₀ w (.advance i) (w.advance i) := by
  have hstep := emits_other task htask w.store
  unfold Ends at hstep
  unfold World.advance
  rw [hi]
  dsimp only
  cases hr : task.step w.store with
  | error e s => exact .ends rfl
  | ok p s =>
    rw [hr] at hstep
    cases p with
    | finished g => exact .ends rfl
    | moved task' => exact .other hi htask hstep.2 rfl
    | blocked task' => exact .other hi htask hstep.2 rfl

theorem turn_advance (h : w.Stands s₀) (hplain : ∀ c, .call c ∈ w.tasks → c.Plain s₀) (ht : Tells s₀ r w.store.trace)
    (i : Nat) : Turn s₀ w (.advance i) (w.advance i) := by
  cases hi : w.tasks[i]? with
  | none =>
    refine .stay (fun j e => ?_) (by rw [World.advance, hi])
    cases e
    exact hi
  | some task =>
    cases task with
    | call c =>
      have hgoes := (h.store.perm (uses_task hi)).goes (hplain c (List.mem_of_getElem? hi)) ht
      rw [advance_call hi]
      split
      · exact .ends rfl
      · exact .ends rfl
      · rename_i hc
        exact .steps hi ((ends_of_ok hc).1 hgoes _ (Or.inl rfl)) rfl
      · rename_i hc
        exact .steps hi ((ends_of_ok hc).1 hgoes _ (Or.inr rfl)) rfl
    | _ => exact turn_other hi rfl

theorem turn_apply (h : w.Stands s₀) (hplain : ∀ c, .call c ∈ w.tasks → c.Plain s₀) (ht : Tells s₀ r w.store.trace)
    (op : Op) : Turn s₀ w op (w.apply op) := by
  have hflush : ∀ (op : Op) (x : Action Flush), (∀ i, op ≠ .advance i) →
      Turn s₀ w op (w.perform x fun flush => addTask (.flush flush)) :=
    fun _ _ hop => turn_perform hop fun flush _ => Or.inr ⟨.flush flush, rfl, rfl⟩
  cases op with
  | ask t page mode =>
    have htask : (Task.ask { txn := t, page, mode }).caller? = none := rfl
    exact .adds (fun _ e => by cases e) htask rfl
  | begin start =>
    simp only [World.apply, World.perform]
    split
    · rename_i hc
      exact .begins ((ends_of_ok hc).1 start.ends_call).2 rfl
    · exact .stay (fun _ e => by cases e) rfl
  | flushPage page => exact hflush _ (Flush.start none [page]) fun _ e => by cases e
  | flushAll => exact hflush _ (Flush.start none w.store.pool.cachedPages) fun _ e => by cases e
  | flushTxn t => exact hflush _ (Flush.start (some t) w.store.pool.cachedPages) fun _ e => by cases e
  | advance i => exact turn_advance h hplain ht i
  | look i =>
    simp only [World.apply]
    split
    · exact .stay (fun _ e => by cases e) rfl
    · exact turn_perform (fun _ e => by cases e) fun _ _ => Or.inl rfl
  | patch i off data =>
    simp only [World.apply]
    split
    · exact .stay (fun _ e => by cases e) rfl
    · exact turn_perform (fun _ e => by cases e) fun _ _ => Or.inl rfl
  | drop i =>
    simp only [World.apply]
    split
    · exact .stay (fun _ e => by cases e) rfl
    · exact turn_perform (fun _ e => by cases e) fun _ _ => Or.inl rfl
  | complete t wantsCommit =>
    simp only [World.apply]
    split
    · exact .stay (fun _ e => by cases e) rfl
    · exact turn_perform (fun _ e => by cases e) fun _ _ => Or.inl rfl
  | allocate hd => exact turn_perform (fun _ e => by cases e) fun _ _ => Or.inl rfl
  | iterate cursor => exact turn_perform (fun _ e => by cases e) fun _ _ => Or.inl rfl
  | rewrite hd page bytes => exact turn_perform (fun _ e => by cases e) fun _ _ => Or.inl rfl

end World

/-! ## One call beside a scan -/

/-- Two calls of one transaction are no scans. -/
def Apart (a b : Option (TxnId × Bool)) : Prop := ∀ t x y, a = some (t, x) → b = some (t, y) → x = false ∧ y = false

namespace World

/-- A transaction that scans has no other call on its way. -/
def Alone (tasks : List Task) : Prop := (tasks.map Task.caller?).Pairwise Apart

theorem Alone.eq {tasks : List Task} (h : Alone tasks) {i j : Nat} {task task' : Task} {x : Bool}
    (hi : tasks[i]? = some task) (hj : tasks[j]? = some task') (hscan : task.caller? = some (t, true))
    (hcall : task'.caller? = some (t, x)) : i = j := by
  obtain ⟨hil, rfl⟩ := List.getElem?_eq_some_iff.1 hi
  obtain ⟨hjl, rfl⟩ := List.getElem?_eq_some_iff.1 hj
  have hpair := List.pairwise_iff_getElem.1 h
  rcases Nat.lt_trichotomy i j with hlt | he | hlt
  · have hapart := hpair i j (by simpa using hil) (by simpa using hjl) hlt
    rw [List.getElem_map, List.getElem_map] at hapart
    cases (hapart t _ _ hscan hcall).1
  · exact he
  · have hapart := hpair j i (by simpa using hjl) (by simpa using hil) hlt
    rw [List.getElem_map, List.getElem_map] at hapart
    cases (hapart t _ _ hcall hscan).2

theorem Alone.cons {task : Task} (h : Alone w.tasks)
    (htask : ∀ t x, task.caller? = some (t, x) → w.isScanning t = false ∧ (x = true → w.isCalling t = false)) :
    Alone (task :: w.tasks) := by
  refine List.Pairwise.cons (fun b hb t x y hx hy => ?_) h
  obtain ⟨task', hin, rfl⟩ := List.mem_map.1 hb
  obtain ⟨hscan, hcall⟩ := htask t x hx
  refine ⟨Bool.eq_false_iff.2 fun e => ?_, Bool.eq_false_iff.2 fun e => ?_⟩
  · refine List.any_eq_false.1 (hcall e) task' hin ?_
    rw [hy]
    exact decide_eq_true rfl
  · refine List.any_eq_false.1 hscan task' hin ?_
    rw [hy, e]
    exact decide_eq_true rfl

theorem Alone.eraseIdx {tasks : List Task} (h : Alone tasks) (i : Nat) : Alone (tasks.eraseIdx i) :=
  h.sublist ((List.eraseIdx_sublist tasks i).map Task.caller?)

theorem Alone.set {tasks : List Task} (h : Alone tasks) {i : Nat} {task task' : Task} (hi : tasks[i]? = some task)
    (he : task'.caller? = task.caller?) : Alone (tasks.set i task') := by
  obtain ⟨hl, rfl⟩ := List.getElem?_eq_some_iff.1 hi
  have hsame : (tasks.set i task').map Task.caller? = tasks.map Task.caller? := by
    have hl' : i < (tasks.map Task.caller?).length := by rwa [List.length_map]
    rw [List.map_set, he, ← List.getElem_map Task.caller? (h := hl'), List.set_getElem_self]
  unfold Alone
  rw [hsame]
  exact h

theorem Turn.alone {w' : World} (h : Turn s₀ w op w') (halone : Alone w.tasks) (hop : w.allows op = true) :
    Alone w'.tasks := by
  cases h with
  | stay _ htasks =>
    rw [htasks]
    exact halone
  | adds _ htask htasks =>
    rw [htasks]
    refine halone.cons fun t x e => ?_
    rw [htask] at e
    cases e
  | @begins start c _ hc htasks =>
    rw [htasks]
    refine halone.cons fun t x e => ?_
    obtain ⟨hplain, hnot⟩ := Bool.and_eq_true_iff.1 hop
    obtain ⟨-, hscan⟩ := Bool.and_eq_true_iff.1 hplain
    rw [← hc.caller, show c.caller = (t, x) from Option.some.inj e] at hscan hnot
    refine ⟨by simpa using hscan, fun hx => ?_⟩
    rw [hx] at hnot
    simpa using hnot
  | ends htasks =>
    rw [htasks]
    exact halone.eraseIdx _
  | steps hi hc htasks =>
    rw [htasks]
    exact halone.set hi (congrArg some hc.caller)
  | other hi htask htask' htasks =>
    rw [htasks]
    exact halone.set hi (htask'.trans htask.symm)

theorem of_mem_set {tasks : List Task} {i : Nat} {task task' : Task} (hin : task' ∈ tasks.set i task) :
    task' = task ∨ ∃ j, tasks[j]? = some task' ∧ j ≠ i := by
  obtain ⟨j, hj⟩ := List.getElem?_of_mem hin
  by_cases e : j = i
  · subst e
    rw [List.getElem?_set_self'] at hj
    obtain ⟨_, -, rfl⟩ := Option.map_eq_some_iff.1 hj
    exact Or.inl rfl
  · rw [List.getElem?_set_ne (Ne.symm e)] at hj
    exact Or.inr ⟨j, hj, e⟩

/-- A call is one that was there and did not go on, or one that did, or has just begun. -/
theorem Turn.call {w' : World} (h : Turn s₀ w op w') {c' : Call} (hin : .call c' ∈ w'.tasks) :
    (∃ j, w.tasks[j]? = some (.call c') ∧ op ≠ .advance j) ∨
      (∃ i c, op = .advance i ∧ w.tasks[i]? = some (.call c) ∧ c.Goes s₀ w.store c' w'.store) ∨
      ∃ start, op = .begin start ∧ start.Begins w.store c' := by
  cases h with
  | stay hidle htasks =>
    obtain ⟨j, hj⟩ := List.getElem?_of_mem (htasks ▸ hin)
    refine Or.inl ⟨j, hj, fun e => ?_⟩
    rw [hidle j e] at hj
    cases hj
  | adds hop htask htasks =>
    rw [htasks] at hin
    rcases List.mem_cons.1 hin with e | hin
    · rw [← e] at htask
      cases htask
    · obtain ⟨j, hj⟩ := List.getElem?_of_mem hin
      exact Or.inl ⟨j, hj, hop j⟩
  | begins hc htasks =>
    rw [htasks] at hin
    rcases List.mem_cons.1 hin with e | hin
    · cases e
      exact Or.inr (Or.inr ⟨_, rfl, hc⟩)
    · obtain ⟨j, hj⟩ := List.getElem?_of_mem hin
      exact Or.inl ⟨j, hj, fun e => by cases e⟩
  | @ends i _ htasks =>
    rw [htasks] at hin
    obtain ⟨j, hne, hj⟩ := List.mem_eraseIdx_iff_getElem?.1 hin
    refine Or.inl ⟨j, hj, fun e => ?_⟩
    cases e
    exact hne rfl
  | steps hi hc htasks =>
    rw [htasks] at hin
    rcases of_mem_set hin with e | ⟨j, hj, hne⟩
    · cases e
      exact Or.inr (Or.inl ⟨_, _, rfl, hi, hc⟩)
    · exact Or.inl ⟨j, hj, fun e => by cases e; exact hne rfl⟩
  | other hi htask htask' htasks =>
    rw [htasks] at hin
    rcases of_mem_set hin with e | ⟨j, hj, hne⟩
    · rw [← e] at htask'
      cases htask'
    · exact Or.inl ⟨j, hj, fun e => by cases e; exact hne rfl⟩

/-! ## Along a run -/

theorem isScanning_of_mem {c : Scan} (hin : .call (.scan c) ∈ w.tasks) : w.isScanning c.txn = true :=
  List.any_eq_true.2 ⟨_, hin, decide_eq_true rfl⟩

/-- A transaction that scans begins nothing. -/
theorem caller_ne_of_allows {c : Scan} (hin : .call (.scan c) ∈ w.tasks) {start : Start}
    (hop : w.allows (.begin start) = true) : start.caller.1 ≠ c.txn := by
  intro e
  obtain ⟨-, hscan⟩ := Bool.and_eq_true_iff.1 (Bool.and_eq_true_iff.1 hop).1
  rw [e, isScanning_of_mem hin] at hscan
  cases hscan

/-- What happens beside a scan leaves what it has found. Its own transaction does nothing but read meanwhile. -/
theorem sees_apply (h : w.Stands s₀) (hin : Inside w.store.trace) (halone : Alone w.tasks) (hop : w.allows op = true)
    {c : Scan} {j : Nat} (hj : w.tasks[j]? = some (.call (.scan c))) (hne : op ≠ .advance j)
    (hsees : c.Sees s₀ w.store) : c.Sees s₀ (w.apply op).store := by
  have hmem := List.mem_of_getElem? hj
  by_cases hactor : w.actor op = some c.txn
  · by_cases hr : op.Reads
    · exact hsees.looks (looks_apply w hr)
    cases op with
    | advance i =>
      obtain ⟨task, hi, htxn⟩ := Option.bind_eq_some_iff.1 hactor
      have hother : task.caller? = none := by
        cases task with
        | call d =>
          have hcaller : (Task.call d).caller? = some (c.txn, d.caller.2) := by
            rw [← show d.txn = c.txn from Option.some.inj htxn]
            cases d <;> rfl
          exact absurd (congrArg Op.advance (halone.eq hj hi rfl hcaller).symm) hne
        | _ => rfl
      exact hsees.looks (leads_advance hi ((emits_other task hother).weaken fun _ _ => trivial))
    | complete t wantsCommit =>
      obtain rfl : t = c.txn := Option.some.inj hactor
      have hidle : (!w.isScanning c.txn) = true := hop
      rw [isScanning_of_mem hmem] at hidle
      cases hidle
    | patch i off data => cases hop
    | rewrite hd page bytes => cases hop
    | _ => exact absurd trivial hr
  · refine hsees.keep fun page hm => ⟨?_, h.view_apply hin (cached_of_allows hop) hactor hm⟩
    obtain ⟨m, hm⟩ := Option.ne_none_iff_exists'.1 hm
    rcases locks_apply h op hm with ⟨m', hm', -⟩ | ⟨⟨wantsCommit, rfl⟩, -⟩
    · rw [hm']
      exact Option.some_ne_none m'
    · exact absurd rfl hactor

/-- A scan was begun in a run by its transaction, which has begun nothing since, and goes through the pages that there
were then. -/
def Began (s₀ : Store) (ops : List Op) (c : Scan) : Prop :=
  ∃ before after file, ops = before ++ .begin (.scan c.txn c.handle) :: after ∧
    (∀ start, .begin start ∈ after → start.caller.1 ≠ c.txn) ∧
    (run before { store := s₀ }).store.file? c.handle = some file ∧ c.state.limit = file.pages.pageCount

theorem Began.snoc {ops : List Op} {c c' : Scan} (h : Began s₀ ops c) (htxn : c'.txn = c.txn)
    (hhandle : c'.handle = c.handle) (hlimit : c'.state.limit = c.state.limit)
    (hop : ∀ start, op = .begin start → start.caller.1 ≠ c.txn) : Began s₀ (ops ++ [op]) c' := by
  obtain ⟨before, after, file, rfl, hafter, hfile, hl⟩ := h
  refine ⟨before, after ++ [op], file, ?_, fun start hin => ?_, hhandle ▸ hfile, hlimit.trans hl⟩
  · rw [htxn, hhandle, List.append_assoc, List.cons_append]
  · rw [htxn]
    rcases List.mem_append.1 hin with hin | hin
    · exact hafter start hin
    · exact hop start (List.mem_singleton.1 hin).symm

/-- What is known of a world after a run: its pages say what the rows are, and its scans have found the rows that they
were to find so far. -/
structure Follows (s₀ : Store) (ops : List Op) (w : World) : Prop where
  stands : w.Stands s₀
  fits : s₀.rows.Fits (changes ops { store := s₀ })
  asked : ∀ change ∈ changes ops { store := s₀ }, Asked ops change
  tells : Tells s₀ (rows s₀ ops) w.store.trace
  plain : ∀ c, .call c ∈ w.tasks → c.Plain s₀
  asks : ∀ c, .call c ∈ w.tasks → ∀ change, c.Asks change → Asked ops change
  alone : Alone w.tasks
  scans : ∀ c, .call (.scan c) ∈ w.tasks → c.Sees s₀ w.store ∧ Began s₀ ops c

theorem Follows.apply {ops : List Op} (h : Follows s₀ ops (run ops { store := s₀ }))
    (hop : (run ops { store := s₀ }).allows op = true) :
    Follows s₀ (ops ++ [op]) ((run ops { store := s₀ }).apply op) := by
  have hturn := turn_apply h.stands h.plain h.tells op
  obtain ⟨hfits, htells⟩ := made_apply h.stands h.plain h.tells (isPlain_of_allows hop)
  refine ⟨h.stands.apply op, ?_, fun change hin => ?_, ?_, fun c hin => ?_, fun c hin change ha => ?_,
    hturn.alone h.alone hop, fun c hin => ?_⟩
  · rw [changes_concat]
    exact Rows.fits_append h.fits hfits
  · rw [changes_concat] at hin
    rcases List.mem_append.1 hin with hin | hin
    · exact (h.asked change hin).snoc op
    · rcases asks_of_change? (Option.mem_toList.1 hin) with ha | ⟨c, hc, ha⟩
      · exact ha.asked ops
      · exact (h.asks c hc change ha).snoc op
  · rw [rows_concat]
    exact htells
  · rcases hturn.call hin with ⟨j, hj, -⟩ | ⟨i, c', -, -, hgoes⟩ | ⟨start, rfl, hbegins⟩
    · exact h.plain c (List.mem_of_getElem? hj)
    · exact hgoes.plain
    · exact hbegins.plain h.stands.store (Bool.and_eq_true_iff.1 (Bool.and_eq_true_iff.1 hop).1).1
  · rcases hturn.call hin with ⟨j, hj, -⟩ | ⟨i, c', -, hi, hgoes⟩ | ⟨start, rfl, hbegins⟩
    · exact (h.asks c (List.mem_of_getElem? hj) change ha).snoc op
    · exact (h.asks c' (List.mem_of_getElem? hi) change (hgoes.asks ▸ ha)).snoc op
    · exact (show (Op.begin start).Asks change from hbegins.asks ha).asked ops
  · rcases hturn.call hin with ⟨j, hj, hne⟩ | ⟨i, c', rfl, hi, hgoes⟩ | ⟨start, rfl, hbegins⟩
    · obtain ⟨hsees, hbegan⟩ := h.scans c (List.mem_of_getElem? hj)
      refine ⟨sees_apply h.stands h.tells.inside h.alone hop hj hne hsees, hbegan.snoc rfl rfl rfl ?_⟩
      rintro start rfl
      exact caller_ne_of_allows (List.mem_of_getElem? hj) hop
    · obtain ⟨sc, rfl, htxn, hhandle, hlimit, hkeep⟩ := hgoes.scan c rfl
      obtain ⟨hsees, hbegan⟩ := h.scans sc (List.mem_of_getElem? hi)
      exact ⟨hkeep hsees, hbegan.snoc htxn hhandle hlimit fun _ e => by cases e⟩
    · cases hbegins with
      | scan hfile =>
        exact ⟨⟨Nat.zero_le _, fun _ _ _ _ => rfl, fun _ _ n hn => absurd hn (Nat.not_lt_zero n)⟩,
          ops, [], _, rfl, fun _ hin => (List.not_mem_nil hin).elim, hfile, rfl⟩

theorem follows_run (o : Opening s₀) {ops : List Op} (hops : orderly ops { store := s₀ } = true) :
    Follows s₀ ops (run ops { store := s₀ }) := by
  induction ops using List.reverseRecOn with
  | nil =>
    have hnone : ∀ c, Task.call c ∉ (run [] { store := s₀ }).tasks := fun _ => List.not_mem_nil
    exact ⟨stands_run o [], trivial, fun _ hin => (List.not_mem_nil hin).elim, o.tells, fun c hin => (hnone c hin).elim,
      fun c hin => (hnone c hin).elim, .nil, fun c hin => (hnone _ hin).elim⟩
  | append_singleton ops op ih =>
    rw [orderly_concat] at hops
    obtain ⟨hops, hop⟩ := Bool.and_eq_true_iff.1 hops
    rw [run_concat]
    exact (ih hops).apply hop

/-- The scan that a task is and the tuples that it has found, if its next step ends it. -/
def found? (w : World) (i : Nat) : Option (Scan × List Tuple) :=
  match w.tasks[i]? with
  | some (.call (.scan c)) =>
    match (Call.scan c).step w.store with
    | .ok (.finished (.tuples ts)) _ => some (c, ts)
    | _ => none
  | _ => none

theorem of_found? {i : Nat} {c : Scan} {ts : List Tuple} (h : w.found? i = some (c, ts)) :
    w.tasks[i]? = some (.call (.scan c)) ∧ ∃ s, (Call.scan c).step w.store = .ok (.finished (.tuples ts)) s := by
  unfold found? at h
  split at h
  · rename_i hi
    split at h
    · rename_i s hend
      cases h
      exact ⟨hi, s, hend⟩
    · cases h
  · cases h

/-- A scan that ends has found the rows that its transaction is to see then, in the pages that there were when it was
begun. Tuples were only inserted where there was none and deleted where there was one, and as callers asked. -/
theorem run_scans (o : Opening s₀) {ops : List Op} (hops : orderly ops { store := s₀ } = true) {i : Nat} {c : Scan}
    {ts : List Tuple} (hfound : (run ops { store := s₀ }).found? i = some (c, ts)) :
    s₀.rows.Fits (changes ops { store := s₀ }) ∧
    (∀ change ∈ changes ops { store := s₀ }, Asked ops change) ∧
    ∃ before after file, ops = before ++ .begin (.scan c.txn c.handle) :: after ∧
      (∀ start, .begin start ∈ after → start.caller.1 ≠ c.txn) ∧
      (run before { store := s₀ }).store.file? c.handle = some file ∧
      Lists ts file.id file.pages.pageCount ((rows s₀ ops).view c.txn) := by
  obtain ⟨hi, s, hend⟩ := of_found? hfound
  have h := follows_run o hops
  obtain ⟨hsees, before, after, file, hsplit, hafter, hfile, hlimit⟩ := h.scans c (List.mem_of_getElem? hi)
  refine ⟨h.fits, h.asked, before, after, file, hsplit, hafter, hfile, ?_⟩
  have hbefore := (stands_run o before).store
  obtain ⟨file₀, hfile₀, -⟩ := hbefore.ground.grown.file_back hfile
  have hid := hbefore.table_eq hfile hfile₀
  have hschema := hbefore.schema?_eq hfile
  have hstep := Stands.scan_finds (h.stands.store.perm (uses_task hi)) h.tells.inside
  obtain ⟨rfl, hle⟩ := (ends_of_ok hend).1 hstep ts rfl
  rw [hsees.found file₀ file.schema hfile₀ (hid ▸ hschema), Nat.le_antisymm hsees.within hle, hlimit, ← hid]
  exact h.tells.spells.lists c.txn hschema _

end World

/-- A store with one frame, just opened on an empty file of integers, of which a page has room for one. -/
def Store.ofInts : Store := .ofFile { pageSize := 8, poolPages := 1 } (.memory {}) ⟨[⟨.int, none⟩]⟩ "t" []

/-- A tuple of one integer. -/
def Tuple.ofInt (value : Int32) : Tuple := ⟨⟨[⟨.int, none⟩]⟩, [.int value], none, rfl⟩

/-- A transaction waits for another one to see whether there is room in its page, and then goes on to the next page.
It scans the table before it commits. -/
def Op.waiting : List Op :=
  [.begin (.insert ⟨1⟩ 0 (.ofInt 5)), .advance 0, .advance 0, .begin (.insert ⟨2⟩ 0 (.ofInt 7)), .advance 0,
    .complete ⟨1⟩ true, .advance 0, .advance 0, .advance 0, .begin (.scan ⟨2⟩ 0), .advance 0, .advance 0]

namespace World

/-- A tuple that had to wait for its place, and is not committed yet when its transaction scans. -/
theorem run_scans_waiting :
    Opening .ofInts ∧ orderly Op.waiting { store := .ofInts } = true ∧
      ∃ c ts, (run Op.waiting { store := .ofInts }).found? 0 = some (c, ts) ∧
        ts.map Tuple.recordId = [some ⟨.ofT 0, 0⟩, some ⟨.ofT 1, 0⟩] ∧ ts.map Tuple.fields = [[.int 5], [.int 7]] ∧
        (Store.rows .ofInts).Fits (changes Op.waiting { store := .ofInts }) ∧
        (∀ change ∈ changes Op.waiting { store := .ofInts }, Asked Op.waiting change) ∧
        ∃ before after file, Op.waiting = before ++ .begin (.scan c.txn c.handle) :: after ∧
          (∀ start, .begin start ∈ after → start.caller.1 ≠ c.txn) ∧
          (run before { store := .ofInts }).store.file? c.handle = some file ∧
          Lists ts file.id file.pages.pageCount ((rows .ofInts Op.waiting).view c.txn) := by
  have hopening : Opening .ofInts := Opening.ofFile (by decide) ..
  have horderly : orderly Op.waiting { store := .ofInts } = true := by decide +kernel
  have hfound : ((run Op.waiting { store := .ofInts }).found? 0).map
      (fun x => (x.2.map Tuple.recordId, x.2.map Tuple.fields)) =
        some ([some ⟨.ofT 0, 0⟩, some ⟨.ofT 1, 0⟩], [[.int 5], [.int 7]]) := by decide +kernel
  obtain ⟨⟨c, ts⟩, hfound, htuples⟩ := Option.map_eq_some_iff.1 hfound
  obtain ⟨hids, hfields⟩ := Prod.mk.inj htuples
  exact ⟨hopening, horderly, c, ts, hfound, hids, hfields, run_scans hopening horderly hfound⟩

end World

end TupleStore
