import TupleStore.Proofs.Durability
import TupleStore.Proofs.Table.Steps

/-!
# Rows along a run

What becomes of the rows of tables in a run, as the callers are told, and that the pages say the same all along.

* `World.change?`, `World.rows` : a call that ends tells of its tuple, and a transaction is told whether it has
  committed;
* `Op.Asks`, `Asked` : what callers ask for, now and in a run;
* `World.allows`, `World.orderly` : tuples change by insertions and deletions only, and a transaction that scans does
  nothing else until the scan has ended;
* `World.made_apply` : whatever happens that may happen, the pages say what the rows are;
* `World.Stands.view_apply` : a transaction sees the pages that it has locked as before, whatever others do. None of
  them has left anything there that it could commit.
-/

namespace TupleStore

set_option autoImplicit false

open TupleStore.Action

/-- The rows of a store that has just been opened, as its files hold them. -/
def Store.rows (s : Store) : Rows where
  committed rid := (s.schema? rid.page.table).bind fun schema =>
    (HeapPage.mk rid.page schema (s.onFile rid.page)).row? rid.slot

/-- The transaction of a call to be begun, and whether the call scans. -/
def Start.caller : Start → TxnId × Bool
  | read t _ => (t, false)
  | write t _ _ => (t, false)
  | insert t _ _ => (t, false)
  | insertById t _ _ => (t, false)
  | delete t _ _ => (t, false)
  | deleteById t _ => (t, false)
  | scan t _ => (t, true)

/-- Whether a call to be begun leaves the bytes of pages alone, other than by its tuple. -/
def Start.isPlain : Start → Bool
  | write _ _ (some _) => false
  | _ => true

/-- Whether pages are left alone, other than by calls with tuples. -/
def Op.isPlain : Op → Bool
  | begin start => start.isPlain
  | patch _ _ _ => false
  | rewrite _ _ _ => false
  | _ => true

/-- Whether a call to be begun is to make a change. Values come to be stored with texts clipped. -/
def Start.Asks (start : Start) (change : Change) : Prop :=
  match start with
  | insert t _ tuple => ∃ rid, change = .inserted t rid (tuple.fields.map Field.clip)
  | insertById t _ tuple => ∃ rid, change = .inserted t rid (tuple.fields.map Field.clip)
  | delete t _ recordId => ∃ rid, recordId = some rid ∧ change = .deleted t rid
  | deleteById t recordId => ∃ rid, recordId = some rid ∧ change = .deleted t rid
  | _ => False

/-- Whether a change is asked for. A transaction that is to commit may fail to. -/
def Op.Asks (op : Op) (change : Change) : Prop :=
  match op with
  | begin start => start.Asks change
  | complete t wantsCommit => change = .ended t wantsCommit ∨ change = .ended t false
  | _ => False

/-- A change was asked for in a run. -/
def Asked (ops : List Op) (change : Change) : Prop := ∃ op ∈ ops, op.Asks change

theorem Asked.snoc {ops : List Op} {change : Change} (h : Asked ops change) (op : Op) : Asked (ops ++ [op]) change :=
  let ⟨op', hin, hasks⟩ := h
  ⟨op', List.mem_append_left _ hin, hasks⟩

theorem Op.Asks.asked {op : Op} {change : Change} (h : op.Asks change) (ops : List Op) : Asked (ops ++ [op]) change :=
  ⟨op, List.mem_append_right _ (List.mem_singleton_self op), h⟩

/-- The transaction of a task that is a call, and whether the call scans. -/
def Task.caller? : Task → Option (TxnId × Bool)
  | call c => some c.caller
  | _ => none

namespace World

/-- Whether a transaction has a call on its way. -/
def isCalling (w : World) (t : TxnId) : Bool := w.tasks.any fun task => task.caller?.any fun x => x.1 = t

/-- Whether a transaction has a scan on its way. -/
def isScanning (w : World) (t : TxnId) : Bool := w.tasks.any fun task => task.caller? = some (t, true)

/-- Whether something may happen: pages are written by calls with tuples only, and a transaction that scans begins no
other call meanwhile and does not end. -/
def allows (w : World) : Op → Bool
  | .begin start =>
    start.isPlain && !w.isScanning start.caller.1 && !(start.caller.2 && w.isCalling start.caller.1)
  | .complete t _ => !w.isScanning t
  | .patch .. => false
  | .rewrite .. => false
  | _ => true

/-- Whether everything that happens in a run may happen when it does. -/
def orderly : List Op → World → Bool
  | [], _ => true
  | op :: ops, w => w.allows op && orderly ops (w.apply op)

/-- What has become of the rows, as the caller is told: a call that ends tells of its tuple, and a transaction is
told whether it has committed. -/
def change? (w : World) : Op → Option Change
  | .advance i =>
    match w.tasks[i]? with
    | some (.call c) =>
      match c.step w.store with
      | .ok (.finished reply) _ => c.change? reply
      | _ => none
    | _ => none
  | .complete t wantsCommit =>
    if w.uses? t then none
    else
      match Action.complete t wantsCommit w.store with
      | .ok _ _ => some (.ended t wantsCommit)
      | .error _ _ => some (.ended t false)
  | _ => none

/-- The changes of a run, in order. -/
def changes : List Op → World → List Change
  | [], _ => []
  | op :: ops, w => (w.change? op).toList ++ changes ops (w.apply op)

/-- The rows after a run. -/
def rows (s₀ : Store) (ops : List Op) : Rows := s₀.rows.after (changes ops { store := s₀ })

theorem run_concat (ops : List Op) (op : Op) (w : World) : run (ops ++ [op]) w = (run ops w).apply op := by
  rw [run, List.foldl_concat]
  rfl

theorem orderly_concat (ops : List Op) (op : Op) (w : World) :
    orderly (ops ++ [op]) w = (orderly ops w && (run ops w).allows op) := by
  induction ops generalizing w with
  | nil => exact (Bool.and_true _).trans (Bool.true_and _).symm
  | cons op' ops ih =>
    rw [List.cons_append, orderly, ih, orderly, Bool.and_assoc]
    rfl

theorem changes_concat (ops : List Op) (op : Op) (w : World) :
    changes (ops ++ [op]) w = changes ops w ++ ((run ops w).change? op).toList := by
  induction ops generalizing w with
  | nil => exact List.append_nil _
  | cons op' ops ih =>
    rw [List.cons_append, changes, ih, changes, List.append_assoc]
    rfl

theorem rows_concat (s₀ : Store) (ops : List Op) (op : Op) :
    rows s₀ (ops ++ [op]) = (rows s₀ ops).after ((run ops { store := s₀ }).change? op).toList := by
  rw [rows, changes_concat, Rows.after_append]
  rfl

variable {s₀ : Store} {w : World} {r : Rows} {op : Op} {t : TxnId}

/-- A change was asked for by the call that made it, or is asked for now. -/
theorem asks_of_change? {change : Change} (h : w.change? op = some change) :
    op.Asks change ∨ ∃ c, .call c ∈ w.tasks ∧ c.Asks change := by
  cases op with
  | advance i =>
    unfold World.change? at h
    dsimp only at h
    split at h
    · rename_i c hi
      split at h
      · exact Or.inr ⟨c, List.mem_of_getElem? hi, Call.asks_of_change? h⟩
      · cases h
    · cases h
  | complete t wantsCommit =>
    unfold World.change? at h
    dsimp only at h
    split at h
    · cases h
    · split at h <;> cases h
      · exact Or.inl (Or.inl rfl)
      · exact Or.inl (Or.inr rfl)
  | _ => cases h

theorem isPlain_of_allows (h : w.allows op = true) : op.isPlain = true := by
  cases op with
  | begin start => exact (Bool.and_eq_true_iff.1 (Bool.and_eq_true_iff.1 h).1).1
  | patch i off data => cases h
  | rewrite hd page bytes => cases h
  | _ => rfl

theorem cached_of_isPlain (h : op.isPlain = true) : op.Cached := by
  cases op with
  | rewrite hd page bytes => cases h
  | _ => trivial

theorem cached_of_allows (h : w.allows op = true) : op.Cached := cached_of_isPlain (isPlain_of_allows h)

end World

/-- The files of a store that has just been opened say what its rows are. -/
theorem Opening.tells {s : Store} (o : Opening s) : Tells s s.rows s.trace := by
  rw [o.trace]
  have hrow : ∀ (rid : RecordId) (schema : Schema), s.schema? rid.page.table = some schema →
      s.rows.committed rid = (HeapPage.mk rid.page schema (s.onFile rid.page)).row? rid.slot := by
    intro rid schema hs
    show (s.schema? rid.page.table).bind _ = _
    rw [hs]
    rfl
  exact ⟨fun _ _ => List.not_mem_nil, hrow, fun _ => hrow, fun _ _ _ => rfl⟩

/-! ## Rows and operations -/

variable {s₀ s s' : Store} {uses : List Use} {w : World} {r : Rows} {op : Op} {t : TxnId} {page : PageId}

/-- Where a transaction has a lock, no other transaction has left anything. -/
theorem Stands.own_of_locked (h : Stands s₀ uses s) (hin : Inside s.trace) (hlock : s.pool.locks.mode? t page ≠ none)
    {u : TxnId} (hu : u ≠ t) : (contents s₀.onFile s.trace).own u page = none := by
  refine Classical.byContradiction fun hown => hu ?_
  have hp := h.pages page
  have hopener := hp.own u fun e => hown (((account_of_contents s₀.onFile hin page).2.1 u).symm.trans e)
  exact (h.locks.eq_of_write (hp.locked u hopener) hlock).symm

theorem Finished.tells {commits : Bool} (hf : Finished t commits s s') (h : Stands s₀ uses s)
    (ht : Tells s₀ r s.trace) : Tells s₀ (r.record (.ended t commits)) s'.trace where
  inside := hf.inside ht.inside
  spells := by
    rw [hf.contents_eq]
    refine ht.spells.complete t commits fun u page hu hown => ?_
    exact (h.of_own ht.inside hown).2 u hu

namespace World

/-- A task that is no call only reads pages, and goes on as none. -/
theorem emits_other (task : Task) (h : task.caller? = none) :
    Emits (Effect.Looks task.txn?) task.step (Progress.All (fun task' => task'.caller? = none) fun _ => True) := by
  cases task with
  | ask q => exact .bind (emits_requestStep q) fun p _ => .pure (by cases p <;> trivial)
  | call c => cases h
  | flush fl => exact .bind (emits_flush fl) fun p _ => .pure (by cases p <;> trivial)

theorem advance_call {i : Nat} {c : Call} (hi : w.tasks[i]? = some (.call c)) :
    w.advance i = match c.step w.store with
      | .error _ s => { w with store := s, tasks := w.tasks.eraseIdx i }
      | .ok (.finished _) s => { w with store := s, tasks := w.tasks.eraseIdx i }
      | .ok (.moved c') s => { w with store := s, tasks := w.tasks.set i (.call c') }
      | .ok (.blocked c') s => { w with store := s, tasks := w.tasks.set i (.call c') } := by
  unfold World.advance
  rw [hi]
  dsimp only [Task.step]
  cases hc : c.step w.store with
  | error e s => rw [bind_of_error hc]
  | ok p s =>
    rw [bind_of_ok hc]
    cases p <;> rfl

theorem made_other {i : Nat} {task : Task} (hi : w.tasks[i]? = some task) (htask : task.caller? = none)
    (ht : Tells s₀ r w.store.trace) :
    Made s₀ r (w.change? (.advance i)).toList (w.advance i).store.trace := by
  have hnone : w.change? (.advance i) = none := by
    rw [World.change?, hi]
    cases task with
    | call c => cases htask
    | _ => rfl
  have hlooks := (emits_other task htask).weaken fun _ _ => trivial
  rw [hnone]
  exact ⟨trivial, ht.looks (leads_advance hi hlooks).trace⟩

theorem made_advance (h : w.Stands s₀) (hplain : ∀ c, .call c ∈ w.tasks → c.Plain s₀) (ht : Tells s₀ r w.store.trace)
    (i : Nat) : Made s₀ r (w.change? (.advance i)).toList (w.advance i).store.trace := by
  cases hi : w.tasks[i]? with
  | none =>
    rw [World.advance, World.change?, hi]
    exact ⟨trivial, ht⟩
  | some task =>
    cases task with
    | call c =>
      have hend := (h.store.perm (uses_task hi)).call_tells (hplain c (List.mem_of_getElem? hi)) ht
      unfold Ends at hend
      rw [advance_call hi, World.change?, hi]
      dsimp only
      cases hc : c.step w.store with
      | error e s =>
        rw [hc] at hend
        exact ⟨trivial, hend⟩
      | ok p s =>
        rw [hc] at hend
        cases p with
        | finished reply => exact hend
        | moved c' => exact ⟨trivial, hend.2.2.2⟩
        | blocked c' => exact ⟨trivial, hend.2.2.2⟩
    | _ => exact made_other hi rfl ht

/-- Whatever happens that may happen, the pages say what the rows are. -/
theorem made_apply (h : w.Stands s₀) (hplain : ∀ c, .call c ∈ w.tasks → c.Plain s₀) (ht : Tells s₀ r w.store.trace)
    (hop : op.isPlain = true) : Made s₀ r (w.change? op).toList (w.apply op).store.trace := by
  by_cases hr : op.Reads
  · have hnone : w.change? op = none := by
      cases op with
      | advance i => exact hr.elim
      | complete t wantsCommit => exact hr.elim
      | _ => rfl
    rw [hnone]
    exact ⟨trivial, ht.looks (looks_apply w hr).trace⟩
  cases op with
  | advance i => exact made_advance h hplain ht i
  | complete t wantsCommit =>
    simp only [World.apply, World.change?]
    split
    · exact ⟨trivial, ht⟩
    · rename_i hidle
      have hend := h.completes (Bool.eq_false_iff.2 hidle) wantsCommit
      unfold World.perform
      unfold Ends at hend
      cases hc : Action.complete t wantsCommit w.store with
      | ok a s =>
        rw [hc] at hend
        exact .one trivial (hend.1.tells h.store ht)
      | error e s =>
        rw [hc] at hend
        exact .one trivial (hend.1.tells h.store ht)
  | patch i off data => cases hop
  | rewrite hd page bytes => cases hop
  | _ => exact absurd trivial hr

/-- A transaction that does nothing meanwhile sees the pages as before that it has locked. -/
theorem Stands.view_apply (h : w.Stands s₀) (hin : Inside w.store.trace) (hc : op.Cached)
    (hactor : w.actor op ≠ some t) (hlock : w.store.pool.locks.mode? t page ≠ none) :
    ((w.apply op).contents s₀.onFile).view t page = (w.contents s₀.onFile).view t page := by
  obtain ⟨hown, hongoing⟩ := (h.refines hin).apart op hc
  have hcommitted : ((w.apply op).contents s₀.onFile).committed page =
      (w.contents s₀.onFile).committed page := by
    by_cases ho : op.Ongoing
    · rw [hongoing ho]
    · cases op with
      | complete u wantsCommit =>
        rcases finished_apply h u wantsCommit with e | ⟨commits, hf⟩
        · rw [World.contents, e]
          rfl
        · have hnone := h.store.own_of_locked hin hlock fun e : u = t => hactor (congrArg some e)
          rw [World.contents, hf.contents_eq]
          cases commits with
          | true => exact congrArg (fun own : Option Bytes => own.getD _) hnone
          | false => rfl
      | _ => exact absurd trivial ho
  rw [Contents.view, hown t hactor, hcommitted]
  rfl

end World

end TupleStore
